import AgenticCircuit.Frontend.Lowering

/-! # The graph runs as the source does

Two machines emit events: `Machine` follows the blocks and edges of a process program, `Source` runs
the statements of the body as Python does.  Both ask the same oracle, which sees everything that
happened so far, for the outcome of every test; the test of a `for` header is whether there is
another value.

* **Python's rules** are in `Source.step`: a `break` goes on behind the loop and skips the `else`
  clause, which runs when the test fails; `continue` tests again; `return` ends the process and
  `yield_sim` restarts it.
* **Lock step.**  Statements without effect take no step in `Source`, and every other step has
  exactly one step of the graph beside it.
* In the graph a `break` leads to the `else` clause behind the header, so `runs_agree` is about runs
  in which every `break` leaves a loop whose `else` clause does nothing. -/

namespace AgenticCircuit.Frontend

open Environment

/-- What a run shows. -/
inductive Event where
  | act (a : ProcessAction)
  | test (condition : Condition) (outcome : Bool)
  | suspend (operation : String) (arguments : List String)
deriving DecidableEq

/-- The outcome of the next test after a history. -/
abbrev Oracle := List Event → Bool

/-! ### The graph -/

/-- A place in the graph, unless the process has returned, and the events so far. -/
structure Machine where
  place : Option (BlockName × ℕ)
  trace : List Event := []
deriving DecidableEq

open Machine

namespace Machine

variable (P : Layout) (oracle : Oracle)

/-- Follow the edge at the end of a block. -/
def leave (trace : List Event) : ProcessEdge → Machine
  | .branch condition onTrue onFalse =>
    ⟨some (if oracle trace then onTrue else onFalse, 0),
      trace ++ [.test condition (oracle trace)]⟩
  | .jump target => ⟨some (target, 0), trace⟩
  | .suspend operation arguments target =>
    ⟨some (target, 0), trace ++ [.suspend operation arguments]⟩
  | .ret => ⟨none, trace⟩

def step (m : Machine) : Machine :=
  match m.place with
  | none => m
  | some (b, j) =>
    match P b with
    | some (acts, some e) =>
      match acts[j]? with
      | some a => ⟨some (b, j + 1), m.trace ++ [.act a]⟩
      | none => leave oracle m.trace e
    | _ => ⟨none, m.trace⟩

def run : ℕ → Machine
  | 0 => { place := some (entryName, 0) }
  | n + 1 => (run n).step P oracle

end Machine

/-! ### The source -/

/-- A loop that is being executed. -/
structure LoopFrame where
  condition : Condition
  body : Body
  orelse : Body
  rest : Body
deriving DecidableEq

/-- What is left to do when a statement list ends. -/
inductive Frame where
  | join (rest : Body)
  | loop (l : LoopFrame)
deriving DecidableEq

inductive Control where
  | run (focus : Body) (stack : List Frame)
  | test (l : LoopFrame) (stack : List Frame)
  | finished
deriving DecidableEq

structure Source where
  control : Control
  trace : List Event := []
deriving DecidableEq

/-- The innermost loop, and the stack below it. -/
def innermostLoop : List Frame → Option (LoopFrame × List Frame)
  | [] => none
  | .join _ :: stack => innermostLoop stack
  | .loop l :: stack => some (l, stack)

namespace Environment

variable (env : Environment)

/-- Leave out the statements without effect at the front. -/
def settle : Body → Body
  | .simple s rest => if env.meaning s = some .skip then settle rest else .simple s rest
  | b => b

end Environment

namespace Source

variable (env : Environment) (whole : Body) (oracle : Oracle)

/-- Execute the first statement of a list. -/
def execute (trace : List Event) (stack : List Frame) : Body → Source
  | .nil =>
    match stack with
    | [] => ⟨.finished, trace⟩
    | .join rest :: stack => ⟨.run rest stack, trace⟩
    | .loop l :: stack => ⟨.test l stack, trace⟩
  | .simple s rest =>
    match env.meaning s with
    | some (.action a) => ⟨.run rest stack, trace ++ [.act a]⟩
    | some (.suspend operation arguments) =>
      ⟨.run rest stack, trace ++ [.suspend operation arguments]⟩
    | some (.restart arguments) => ⟨.run whole [], trace ++ [.suspend "yield_sim" arguments]⟩
    | some .skip => ⟨.run rest stack, trace⟩
    | none => ⟨.finished, trace⟩
  | .ite test body orelse rest =>
    ⟨.run (if oracle trace then body else orelse) (.join rest :: stack),
      trace ++ [.test (.test test.unparse) (oracle trace)]⟩
  | .whileLoop test body orelse rest => ⟨.test ⟨.test test.unparse, body, orelse, rest⟩ stack, trace⟩
  | .forLoop (.name x) iter body orelse rest =>
    ⟨.test ⟨.next x iter.unparse, body, orelse, rest⟩ stack, trace⟩
  | .forLoop _ _ _ _ _ => ⟨.finished, trace⟩
  | .ret _ _ => ⟨.finished, trace⟩
  | .brk _ =>
    match innermostLoop stack with
    | some (l, stack) => ⟨.run l.rest stack, trace⟩
    | none => ⟨.finished, trace⟩
  | .cont _ =>
    match innermostLoop stack with
    | some (l, stack) => ⟨.test l stack, trace⟩
    | none => ⟨.finished, trace⟩

def step (s : Source) : Source :=
  match s.control with
  | .run focus stack => execute env whole oracle s.trace stack (env.settle focus)
  | .test l stack =>
    let next : Control := if oracle s.trace then .run l.body (.loop l :: stack)
      else .run (l.orelse.append l.rest) stack
    ⟨next, s.trace ++ [.test l.condition (oracle s.trace)]⟩
  | .finished => s

def run : ℕ → Source
  | 0 => { control := .run whole [] }
  | n + 1 => (run n).step env whole oracle

/-- The next step is a `break` out of a loop whose `else` clause does something. -/
def breaksPastElse (s : Source) : Bool :=
  match s.control with
  | .run focus stack =>
    match env.settle focus, innermostLoop stack with
    | .brk _, some (l, _) => env.settle l.orelse ≠ .nil
    | _, _ => false
  | _ => false

end Source

/-! ### Settled statement lists -/

section settle

variable {env : Environment} {P : Layout} {index : BlockName → ℕ}
  {loops : List (BlockName × BlockName)} {b : BlockName} {j : ℕ} {owned : List BlockName}
  {fall : Option (BlockName × ℕ)} {body : Body}

theorem settle_append {s : Body} (h : env.settle s = .nil) (more : Body) :
    env.settle (s.append more) = env.settle more := by
  induction s with
  | nil => rfl
  | simple s rest ih =>
    rw [settle] at h
    split at h
    · rename_i hskip
      rw [Body.append, settle, if_pos hskip]
      exact ih h
    · cases h
  | ite | whileLoop | forLoop | ret | brk | cont => cases h

/-- A settled list does not start with a statement without effect. -/
theorem settle_simple {s : Simple} {rest : Body}
    (h : env.settle body = .simple s rest) : env.meaning s ≠ some .skip := by
  induction body with
  | nil | ite | whileLoop | forLoop | ret | brk | cont => cases h
  | simple s' rest' ih =>
    rw [settle] at h
    split at h
    · exact ih h
    · rename_i hskip
      cases h
      exact hskip

theorem Region.settle_iff : Region env P index loops (env.settle body) b j owned fall ↔
      Region env P index loops body b j owned fall := by
  induction body with
  | nil | ite | whileLoop | forLoop | ret | brk | cont => rfl
  | simple s rest ih =>
    rw [settle]
    split
    · rename_i hskip
      rw [ih]
      constructor
      · exact .skip hskip
      · intro h
        cases h with
        | skip _ hrest => exact hrest
        | action hs | suspend hs | restart hs => simp [hskip] at hs
        | loop hs => cases hs
    · rfl

end settle

/-! ### The simulation -/

section simulation

variable {env : Environment} {P : Layout} {index : BlockName → ℕ} {whole : Body} {oracle : Oracle}
  {loops : List (BlockName × BlockName)} {stack : List Frame} {fall : Option (BlockName × ℕ)}
  {b : BlockName}

/-- What is left to do stands where control falls through, inside the loops of the graph. -/
inductive Continues (env : Environment) (P : Layout) (index : BlockName → ℕ) :
    List Frame → List (BlockName × BlockName) → Option (BlockName × ℕ) → Prop
  | nil {fall : Option (BlockName × ℕ)}
      (hret : ∀ x k, fall = some (x, k) → EndsWith P x k .ret) : Continues env P index [] [] fall
  | join {stack : List Frame} {loops : List (BlockName × BlockName)} {rest : Body} {m : BlockName}
      {owned : List BlockName} {fall fall' : Option (BlockName × ℕ)} (hjoin : FallsTo P fall m)
      (hrest : Region env P index loops rest m 0 owned fall')
      (hstack : Continues env P index stack loops fall') :
      Continues env P index (.join rest :: stack) loops fall
  | closed {stack : List Frame} {loops : List (BlockName × BlockName)} {rest : Body}
      (hstack : Continues env P index stack loops none) :
      Continues env P index (.join rest :: stack) loops none
  | loop {stack : List Frame} {loops : List (BlockName × BlockName)} {l : LoopFrame}
      {h d a : BlockName} {owned₁ owned₂ : List BlockName}
      {fall fall₁ fall₂ : Option (BlockName × ℕ)} (hback : FallsTo P fall h)
      (hheader : EndsWith P h 0 (.branch l.condition d a))
      (hbody : Region env P index ((h, a) :: loops) l.body d 0 owned₁ fall₁)
      (hbody_back : FallsTo P fall₁ h)
      (hafter : Region env P index loops (l.orelse.append l.rest) a 0 owned₂ fall₂)
      (hstack : Continues env P index stack loops fall₂) :
      Continues env P index (.loop l :: stack) ((h, a) :: loops) fall

/-- The header `h` of a loop in the graph, with exit `a`. -/
structure AtHeader (env : Environment) (P : Layout) (index : BlockName → ℕ) (l : LoopFrame)
    (stack : List Frame) (loops : List (BlockName × BlockName)) (h a : BlockName) : Prop where
  header : ∃ d owned₁ fall₁, EndsWith P h 0 (.branch l.condition d a) ∧
    Region env P index ((h, a) :: loops) l.body d 0 owned₁ fall₁ ∧ FallsTo P fall₁ h
  after : ∃ owned₂ fall₂, Region env P index loops (l.orelse.append l.rest) a 0 owned₂ fall₂ ∧
    Continues env P index stack loops fall₂

/-- The control of the source stands at a place of the graph. -/
inductive StandsAt (env : Environment) (P : Layout) (index : BlockName → ℕ) :
    Control → Option (BlockName × ℕ) → Prop
  | run {focus : Body} {stack : List Frame} {loops : List (BlockName × BlockName)} {b : BlockName}
      {j : ℕ} {owned : List BlockName} {fall : Option (BlockName × ℕ)}
      (hregion : Region env P index loops focus b j owned fall)
      (hstack : Continues env P index stack loops fall) :
      StandsAt env P index (.run focus stack) (some (b, j))
  | test {l : LoopFrame} {stack : List Frame} {loops : List (BlockName × BlockName)}
      {h a : BlockName} (hheader : AtHeader env P index l stack loops h a) :
      StandsAt env P index (.test l stack) (some (h, 0))
  | finished : StandsAt env P index .finished none

theorem Continues.innermostLoop {h a : BlockName}
    (hstack : Continues env P index stack ((h, a) :: loops) fall) :
    ∃ l below, innermostLoop stack = some (l, below) ∧ AtHeader env P index l below loops h a := by
  generalize hloops : (h, a) :: loops = all at hstack
  induction hstack with
  | nil => cases hloops
  | join _ _ _ ih | closed _ ih => exact ih hloops
  | loop _ hheader hbody hback hafter hstack =>
    cases hloops
    exact ⟨_, _, rfl, ⟨_, _, _, hheader, hbody, hback⟩, ⟨_, _, hafter, hstack⟩⟩

/-! The steps of the graph at a known block. -/

theorem Machine.step_act {j : ℕ} {a : ProcessAction} (h : ActsAt P b j a)
    (hedge : ∃ acts e, P b = some (acts, some e)) (trace : List Event) :
    Machine.step P oracle ⟨some (b, j), trace⟩ = ⟨some (b, j + 1), trace ++ [.act a]⟩ := by
  obtain ⟨acts, e, hb, hj⟩ := h
  obtain ⟨acts', e', hb'⟩ := hedge
  rw [hb] at hb'
  cases hb'
  simp only [Machine.step, hb, hj]

theorem Machine.step_edge {j : ℕ} {e : ProcessEdge} (h : EndsWith P b j e)
    (trace : List Event) : Machine.step P oracle ⟨some (b, j), trace⟩ = leave oracle trace e := by
  obtain ⟨acts, hb, hj⟩ := h
  have hnone : acts[j]? = none := List.getElem?_eq_none hj.le
  simp only [Machine.step, hb, hnone]

/-- The source and the graph stand together and have shown the same. -/
structure Together (env : Environment) (P : Layout) (index : BlockName → ℕ) (s : Source)
    (m : Machine) : Prop where
  stands : StandsAt env P index s.control m.place
  trace : s.trace = m.trace

section

variable (hclosed : ∀ n a, P n = some a → a.2.isSome)
    (hwhole : StandsAt env P index (.run whole []) (some (entryName, 0)))

include hclosed hwhole

/-- One statement, and one step of the graph. -/
theorem execute_together {body : Body} {b : BlockName} {j : ℕ} {owned : List BlockName}
    (hregion : Region env P index loops body b j owned fall)
    (hstack : Continues env P index stack loops fall) (trace : List Event)
    (hskip : ∀ s rest, body = .simple s rest → env.meaning s ≠ some .skip)
    (hbreak : ∀ rest l below, body = .brk rest → innermostLoop stack = some (l, below) →
      env.settle l.orelse = .nil) :
    Together env P index (Source.execute env whole oracle trace stack body)
      (Machine.step P oracle ⟨some (b, j), trace⟩) := by
  cases hregion with
  | nil =>
    cases hstack with
    | nil hret =>
      rw [step_edge (hret b j rfl)]
      exact ⟨.finished, rfl⟩
    | join hjoin hrest hstack =>
      rw [step_edge (hjoin b j rfl)]
      exact ⟨.run hrest hstack, rfl⟩
    | loop hback hheader hbody hbody_back hafter hstack =>
      rw [step_edge (hback b j rfl)]
      exact ⟨.test ⟨⟨_, _, _, hheader, hbody, hbody_back⟩, ⟨_, _, hafter, hstack⟩⟩, rfl⟩
  | skip hs => exact absurd hs (hskip _ _ rfl)
  | action hs ha hrest =>
    have hedge : ∃ acts e, P b = some (acts, some e) := by
      obtain ⟨acts, edge, hb, -⟩ := ha
      obtain ⟨e, he⟩ := Option.isSome_iff_exists.mp (hclosed b _ hb)
      exact ⟨acts, e, by rw [hb]; exact congrArg some (Prod.ext rfl he)⟩
    rw [step_act ha hedge, Source.execute, hs]
    exact ⟨.run hrest hstack, rfl⟩
  | suspend hs hend hrest =>
    rw [step_edge hend, Source.execute, hs]
    exact ⟨.run hrest hstack, rfl⟩
  | restart hs hend =>
    rw [step_edge hend, Source.execute, hs]
    exact ⟨hwhole, rfl⟩
  | ite hend hbody horelse hjoin₁ hjoin₂ _ _ hrest =>
    rw [step_edge hend, Source.execute, leave]
    refine ⟨?_, rfl⟩
    cases oracle trace with
    | true => exact .run hbody (.join hjoin₁ hrest hstack)
    | false => exact .run horelse (.join hjoin₂ hrest hstack)
  | iteClosed hend hbody horelse =>
    rw [step_edge hend, Source.execute, leave]
    refine ⟨?_, rfl⟩
    cases oracle trace with
    | true => exact .run hbody (.closed hstack)
    | false => exact .run horelse (.closed hstack)
  | @loop _ _ l _ _ _ _ _ _ _ _ _ hs _ _ henter hheader hbody hback hafter =>
    rw [step_edge henter]
    match body, hs with
    | .whileLoop _ _ _ _, hs | .forLoop (.name _) _ _ _ _, hs =>
      cases hs
      exact ⟨.test ⟨⟨_, _, _, hheader, hbody, hback⟩, ⟨_, _, hafter, hstack⟩⟩, rfl⟩
  | ret hend =>
    rw [step_edge hend]
    exact ⟨.finished, rfl⟩
  | brk hend =>
    -- the graph goes to the `else` clause, which does nothing
    obtain ⟨l, below, hinner, -, owned₂, fall₂, hafter, hbelow⟩ := hstack.innermostLoop
    rw [step_edge hend, Source.execute, hinner]
    rw [← Region.settle_iff, settle_append (hbreak _ l below rfl hinner),
      Region.settle_iff] at hafter
    exact ⟨.run hafter hbelow, rfl⟩
  | cont hend =>
    obtain ⟨l, below, hinner, hheader⟩ := hstack.innermostLoop
    rw [step_edge hend, Source.execute, hinner]
    exact ⟨.test hheader, rfl⟩

theorem step_together {s : Source} {m : Machine} (h : Together env P index s m)
    (hbreak : s.breaksPastElse env = false) :
    Together env P index (s.step env whole oracle) (m.step P oracle) := by
  obtain ⟨control, trace⟩ := s
  obtain ⟨place, trace'⟩ := m
  obtain ⟨hstands, rfl⟩ := h
  cases hstands with
  | finished => exact ⟨.finished, rfl⟩
  | @test l _ loops _ _ hheader =>
    obtain ⟨⟨d, owned₁, fall₁, hend, hbody, hback⟩, owned₂, fall₂, hafter, hstack⟩ := hheader
    rw [step_edge hend]
    refine ⟨?_, rfl⟩
    simp only [Source.step, leave]
    cases oracle trace with
    | true => exact .run hbody (.loop hback hend hbody hback hafter hstack)
    | false => exact .run hafter hstack
  | @run focus stack loops b j owned fall hregion hstack =>
    refine execute_together hclosed hwhole (Region.settle_iff.mpr hregion) hstack trace ?_ ?_
    · intro s rest hs
      exact settle_simple hs
    · intro rest l below hs hinner
      simpa [Source.breaksPastElse, hs, hinner] using hbreak

end

end simulation

/-! ### Programs -/

variable {env : Environment} {body : Body} {P : ProcessProgram}

theorem Lowered.stands {owned : List BlockName} {fall : Option (BlockName × ℕ)}
    (h : Lowered env body P owned fall) :
    StandsAt env P.layout P.index (.run body []) (some (entryName, 0)) :=
  .run h.region (.nil h.returns)

theorem ProcessProgram.layout_closed (P : ProcessProgram) (n : BlockName)
    (a : List ProcessAction × Option ProcessEdge) (h : P.layout n = some a) : a.2.isSome := by
  unfold ProcessProgram.layout at h
  obtain ⟨b, -, rfl⟩ := Option.map_eq_some_iff.mp h
  rfl

theorem runs_together {parameters : List String} (h : constructProcess env parameters body = .ok P)
    (oracle : Oracle) (n : ℕ)
    (hbreak : ∀ k < n, (Source.run env body oracle k).breaksPastElse env = false) :
    Together env P.layout P.index (Source.run env body oracle n)
      (Machine.run P.layout oracle n) := by
  obtain ⟨owned, fall, hlow⟩ := constructProcess_lowered h
  induction n with
  | zero => exact ⟨hlow.stands, rfl⟩
  | succ n ih =>
    have hn := ih fun k hk => hbreak k (Nat.lt_succ_of_lt hk)
    exact step_together P.layout_closed hlow.stands hn (hbreak n (Nat.lt_succ_self n))

/-- **The graph runs as the source does.**  As long as the source breaks out of no loop with an
`else` clause that does something, the graph of an accepted process has executed the same actions
and suspensions, with the same outcomes of the tests, and has finished if the source has. -/
theorem runs_agree (env : Environment) (parameters : List String) (body : Body) (P : ProcessProgram)
    (h : constructProcess env parameters body = .ok P) (oracle : Oracle) (n : ℕ)
    (hbreak : ∀ k < n, (Source.run env body oracle k).breaksPastElse env = false) :
    (Machine.run P.layout oracle n).trace = (Source.run env body oracle n).trace ∧
      ((Machine.run P.layout oracle n).place = none ↔
        (Source.run env body oracle n).control = .finished) := by
  obtain ⟨hstands, htrace⟩ := runs_together h oracle n hbreak
  refine ⟨htrace.symm, ?_⟩
  generalize (Machine.run P.layout oracle n).place = place at hstands ⊢
  generalize (Source.run env body oracle n).control = control at hstands ⊢
  cases hstands with
  | run | test => simp
  | finished => simp

/-- `while a: wait_for(r); break` with the given `else` clause. -/
def breakLoop (orelse : Body) : Body :=
  .whileLoop (.operand (.name "a"))
    (.simple (callStatement "wait_for" "r") (.brk .nil)) orelse .nil

theorem runs_agree_breakLoop :
    ∃ P, constructProcess frontendEnvironment ["a", "r"] (breakLoop (.simple .pass .nil))
      = .ok P ∧
      (Machine.run P.layout (fun _ => true) 5).trace
        = [.test (.test "a") true, .suspend "wait_for" ["r"]] ∧
      (Machine.run P.layout (fun _ => true) 5).place = none := by
  refine ⟨_, rfl, ?_⟩
  have h := runs_agree frontendEnvironment ["a", "r"] (breakLoop (.simple .pass .nil))
    _ rfl (fun _ => true) 5 (by decide)
  exact ⟨h.1.trans rfl, h.2.mpr rfl⟩

/-- The graph executes the `else` clause after a `break`. -/
theorem breakLoop_runs_else :
    ∃ P, constructProcess frontendEnvironment ["a", "r", "q"]
        (breakLoop (.simple (callStatement "try_send" "q") .nil)) = .ok P ∧
      Source.run frontendEnvironment
          (breakLoop (.simple (callStatement "try_send" "q") .nil)) (fun _ => true) 6
        = ⟨.finished, [.test (.test "a") true, .suspend "wait_for" ["r"]]⟩ ∧
      Machine.run P.layout (fun _ => true) 6
        = ⟨none, [.test (.test "a") true, .suspend "wait_for" ["r"],
            .act ⟨.effect "try_send", ["q"], [], some .queue⟩]⟩ :=
  ⟨_, rfl, rfl, rfl⟩

end AgenticCircuit.Frontend
