import AgenticCircuit.Dialect.StateReuse

/-! # Executions of canonicalised bodies

Every execution of a body is one of the canonicalised body and conversely, as long as no read is
reused across a suspension and no array access overwrites a failure code of its array.

* `Point` is what holds of the values at one place of the two bodies: they agree up to the
  replacement of results, constants have their value, and the reads since the last suspension are
  settled.
* `Related` extends this to the stacks: what waits below a block that may suspend relies on no read
  made before it (`Stacked`).
* `Related.step` is the simulation: a redundant operation changes nothing, and otherwise both
  machines do the same.  `SteadyRun.of_related` and `SteadyRun.of_related_symm` are the two
  directions for whole runs. -/

namespace AgenticCircuit.Dialect

open AgenticCircuit.Gfsim Function Instruction List

theorem World.proposeWrite_false (array : String) (index : ℤ) (value : V) (port : ℤ)
    (w : World V) : w.proposeWrite array index value false port = w := by
  simp [proposeWrite]

variable {V O : Type} [ScalarValue V]

/-! ### Arrays within one activation -/

/-- What an array access does to the world, unless it overwrites a failure code. -/
structure World.Accessed (w w' : World V) : Prop where
  registration : w'.registration = w.registration
  grows : ∀ name, (w.array name).Grows w.registration (w'.array name)
  steady : w.Steady w'

open World

variable {w : World V} {array : String} {index port : ℤ} {value : V}

omit [ScalarValue V] in
theorem World.accessed_update {name : String} {m : StateMemory V}
    (hg : (w.array name).Grows w.registration m)
    (hs : w.Steady { w with array := update w.array name m }) :
    w.Accessed { w with array := update w.array name m } := by
  refine ⟨rfl, fun other => ?_, hs⟩
  by_cases h : other = name
  · subst h
    simpa using hg
  · simpa [update_of_ne h] using StateMemory.Grows.refl (w.array other)

/-- Reading again gives this value and changes nothing. -/
def World.Settled (array : String) (index port : ℤ) (value : V) (w : World V) : Prop :=
  (w.array array).Settled w.registration index port value

theorem World.Settled.of_accessed {w' : World V} (h : w.Settled array index port value)
    (ha : w.Accessed w') : w'.Settled array index port value := by
  unfold Settled at h ⊢
  rw [ha.registration]
  exact h.of_grows (ha.grows array) (ha.steady array)

theorem World.settled_read (array : String) (index port : ℤ) (w : World V) :
    (w.read array index port).2.Settled array index port (w.read array index port).1 := by
  unfold Settled World.read
  simpa using StateMemory.settled_read

theorem World.Settled.read (h : w.Settled array index port value) :
    w.read array index port = (value, w) := by
  unfold Settled StateMemory.Settled at h
  simp [World.read, h]

/-- The reads since the last suspension are settled, and their operands and results are in
scope. -/
def Available (w : World V) (scope : List Ssa) (env : Values V) : List Previous → Prop
  | [] => True
  | .stateRead array index port _ result :: previous =>
    (index ∈ scope ∧ port ∈ scope ∧ result ∈ scope ∧
      w.Settled array (toInt (env index)) (toInt (env port)) (env result)) ∧
      Available w scope env previous
  | .other suspends :: previous => suspends = true ∨ Available w scope env previous

namespace Available

variable {w w' : World V} {scope scope' : List Ssa} {env env' : Values V}
  {previous : List Previous}

theorem of_accessed (h : Available w scope env previous) (ha : w.Accessed w') :
    Available w' scope env previous := by
  induction previous with
  | nil => trivial
  | cons p previous ih =>
    cases p with
    | stateRead array index port element result =>
      obtain ⟨⟨hi, hp, hr, hs⟩, h⟩ := h
      exact ⟨⟨hi, hp, hr, hs.of_accessed ha⟩, ih h⟩
    | other suspends => exact h.imp id ih

theorem congr (h : Available w scope env previous) (hsub : ∀ x ∈ scope, x ∈ scope')
    (henv : ∀ x ∈ scope, env' x = env x) : Available w scope' env' previous := by
  induction previous with
  | nil => trivial
  | cons p previous ih =>
    cases p with
    | stateRead array index port element result =>
      obtain ⟨⟨hi, hp, hr, hs⟩, h⟩ := h
      refine ⟨⟨hsub _ hi, hsub _ hp, hsub _ hr, ?_⟩, ih h⟩
      rwa [henv _ hi, henv _ hp, henv _ hr]
    | other suspends => exact h.imp id ih

/-- A read found without a suspension on the way answers the read at hand. -/
theorem settled {array : String} {index port : Ssa} {element : String} {result : Ssa}
    (h : Available w scope env previous)
    (hfound : reuseCommittedStateRead array index port element previous = some (result, false)) :
    w.Settled array (toInt (env index)) (toInt (env port)) (env result) := by
  induction previous with
  | nil => cases hfound
  | cons p previous ih =>
    cases p with
    | stateRead array' index' port' element' result' =>
      rw [reuseCommittedStateRead] at hfound
      split at hfound
      · next heq =>
        obtain ⟨rfl, rfl, rfl, rfl⟩ := heq
        cases hfound
        exact h.1.2.2.2
      · exact ih h.2 hfound
    | other suspends =>
      rw [reuseCommittedStateRead, Option.map_eq_some_iff] at hfound
      obtain ⟨⟨found, crossed⟩, hinner, heq⟩ := hfound
      simp only [Prod.mk.injEq, Bool.or_eq_false_iff] at heq
      obtain ⟨rfl, rfl, rfl⟩ := heq
      exact ih (h.resolve_left (by simp)) hinner

end Available

/-! ### Related places -/

/-- What holds of the values at two related places. -/
structure Point (w : World V) (scope : List Ssa) (known : List (Ssa × V))
    (previous : List Previous) (f : Ssa → Ssa) (env env' : Values V) : Prop where
  names : Renaming scope f
  agree : ∀ x ∈ scope, env x = env' (f x)
  known : ∀ x value, known.lookup x = some value → x ∈ scope ∧ env x = value
  available : Available w scope env previous

namespace Point

variable {w w' : World V} {scope : List Ssa} {known : List (Ssa × V)} {previous : List Previous}
  {f : Ssa → Ssa} {env env' : Values V}

section

variable (h : Point w scope known previous f env env')

include h

theorem of_accessed (ha : w.Accessed w') : Point w' scope known previous f env env' :=
  ⟨h.names, h.agree, h.known, h.available.of_accessed ha⟩

theorem begin_block : Point w' scope known [] f env env' :=
  ⟨h.names, h.agree, h.known, trivial⟩

theorem other (suspends : Bool) : Point w scope known (.other suspends :: previous) f env env' :=
  ⟨h.names, h.agree, h.known, .inr h.available⟩

end

theorem suspended (h : Point w scope known (.other true :: previous) f env env') :
    Point w' scope known (.other true :: previous) f env env' :=
  ⟨h.names, h.agree, h.known, .inl rfl⟩

section

variable (h : Point w scope known previous f env env')

include h

theorem map_eq {operands : List Ssa} (ho : ∀ x ∈ operands, x ∈ scope) :
    (operands.map f).map env' = operands.map env := by
  rw [map_map]
  exact map_congr_left fun x hx => (h.agree x (ho x hx)).symm

theorem bind {results : List Ssa} (hf : fresh scope results = true) (values : List V) :
    Point w (results ++ scope) known previous f (bind results values env)
      (bind results values env') := by
  have henv : ∀ x ∈ scope, Dialect.bind results values env x = env x :=
    fun x hx => bind_of_notMem _ _ (notMem_of_fresh hf hx)
  refine ⟨h.names.append hf, ?_, ?_, h.available.congr
    (fun x hx => mem_append_right _ hx) henv⟩
  · intro x hx
    by_cases hr : x ∈ results
    · rw [h.names.eq_self x ((fresh_iff.mp hf).2 x hr)]
      exact bind_eq_of_mem _ _ _ hr
    · have hs := (mem_append.mp hx).resolve_left hr
      rw [henv x hs, bind_of_notMem _ _ (notMem_of_fresh hf (h.names.mem x hs)), h.agree x hs]
  · intro x value hk
    obtain ⟨hs, hv⟩ := h.known x value hk
    exact ⟨mem_append_right _ hs, (henv x hs).trans hv⟩

variable {result : Ssa}

/-- A read whose value is settled. -/
theorem stateRead {array : String} {index port : Ssa} {value : V} (element : String)
    (hindex : index ∈ scope) (hport : port ∈ scope) (hf : fresh scope [result] = true)
    (hs : w.Settled array (toInt (env index)) (toInt (env port)) value) :
    Point w (result :: scope) known (.stateRead array index port element result :: previous) f
      (update env result value) (update env' result value) := by
  have hb := h.bind hf [value]
  refine ⟨hb.names, hb.agree, hb.known, ?_, hb.available⟩
  have hne : ∀ x ∈ scope, update env result value x = env x := by
    intro x hx
    apply update_of_ne
    rintro rfl
    exact notMem_of_fresh hf hx mem_cons_self
  rw [hne index hindex, hne port hport, update_self]
  exact ⟨mem_cons_of_mem _ hindex, mem_cons_of_mem _ hport, mem_cons_self, hs⟩

/-- The result of a redundant read is bound on one side only. -/
theorem reuse {replacement : Ssa} (hr : result ∉ scope) (hc : replacement ∈ scope) :
    Point w (result :: scope) known previous (update f result (f replacement))
      (update env result (env replacement)) env' := by
  have henv : ∀ x ∈ scope, update env result (env replacement) x = env x := by
    intro x hx
    apply update_of_ne
    rintro rfl
    exact hr hx
  refine ⟨h.names.update hc, ?_, ?_,
    h.available.congr (fun x hx => mem_cons_of_mem _ hx) henv⟩
  · intro x hx
    by_cases hxr : x = result
    · subst hxr
      rw [update_self, update_self]
      exact h.agree replacement hc
    · rw [update_of_ne hxr, update_of_ne hxr]
      exact h.agree x ((mem_cons.mp hx).resolve_left hxr)
  · intro x value hk
    obtain ⟨hs, hv⟩ := h.known x value hk
    exact ⟨mem_cons_of_mem _ hs, (henv x hs).trans hv⟩

theorem constant (value : V) (hf : fresh scope [result] = true) :
    Point w (result :: scope) ((result, value) :: known) previous f
      (update env result value) (update env' result value) := by
  have hb := h.bind hf [value]
  refine ⟨hb.names, hb.agree, ?_, hb.available⟩
  intro x value' hk
  rw [lookup_cons] at hk
  split at hk
  · next heq =>
    obtain rfl := eq_of_beq heq
    cases hk
    exact ⟨mem_cons_self, update_self _ _ _⟩
  · exact hb.known x value' hk

end

end Point

/-! ### Related machines -/

variable [ProcessOperation O]

/-- What waits below two related blocks.  `may` tells whether the blocks above may suspend:
then the place to which control returns lies behind a suspension. -/
inductive Stacked (w : World V) : Bool → List (Pending V O) → List (Pending V O) → Prop
  | process {may scope f env env' body body'} :
      Point w scope [] [] f env env' → Reduces scope [] [] f body body' →
      Stacked w may [.process env body] [.process env' body']
  | join {may suspends scope known previous f env env' results rest rest' stack stack'} :
      (may = true → suspends = true) →
      Point w scope known (.other suspends :: previous) f env env' →
      fresh scope results = true →
      Reduces (results ++ scope) known (.other suspends :: previous) f rest rest' →
      Stacked w (suspends || maySuspend rest) stack stack' →
      Stacked w may (.join env results rest :: stack) (.join env' results rest' :: stack')
  | forLoop {may scope known previous f env env' induction arguments body body' results rest
        rest' stack stack'} (next upper step : ℤ) :
      (may = true → maySuspend body = true) →
      Point w scope known (.other (maySuspend body) :: previous) f env env' →
      fresh scope (induction :: arguments) = true →
      Reduces (induction :: arguments ++ scope) known [] f body body' →
      fresh scope results = true →
      Reduces (results ++ scope) known (.other (maySuspend body) :: previous) f rest rest' →
      Stacked w (maySuspend body || maySuspend rest) stack stack' →
      Stacked w may
        (.forLoop env next upper step induction arguments body results rest :: stack)
        (.forLoop env' next upper step induction arguments body' results rest' :: stack')
  | whileTest {may scope known previous f env env' beforeArguments before before' afterArguments
        after after' results rest rest' stack stack'} :
      (may = true → (maySuspend before || maySuspend after) = true) →
      Point w scope known (.other (maySuspend before || maySuspend after) :: previous) f env
        env' →
      fresh scope beforeArguments = true →
      Reduces (beforeArguments ++ scope) known [] f before before' →
      fresh scope afterArguments = true →
      Reduces (afterArguments ++ scope) known [] f after after' →
      fresh scope results = true →
      Reduces (results ++ scope) known (.other (maySuspend before || maySuspend after) :: previous)
        f rest rest' →
      Stacked w (maySuspend before || maySuspend after || maySuspend rest) stack stack' →
      Stacked w may
        (.whileTest env beforeArguments before afterArguments after results rest :: stack)
        (.whileTest env' beforeArguments before' afterArguments after' results rest' :: stack')
  | whileBack {may scope known previous f env env' beforeArguments before before' afterArguments
        after after' results rest rest' stack stack'} :
      (may = true → (maySuspend before || maySuspend after) = true) →
      Point w scope known (.other (maySuspend before || maySuspend after) :: previous) f env
        env' →
      fresh scope beforeArguments = true →
      Reduces (beforeArguments ++ scope) known [] f before before' →
      fresh scope afterArguments = true →
      Reduces (afterArguments ++ scope) known [] f after after' →
      fresh scope results = true →
      Reduces (results ++ scope) known (.other (maySuspend before || maySuspend after) :: previous)
        f rest rest' →
      Stacked w (maySuspend before || maySuspend after || maySuspend rest) stack stack' →
      Stacked w may
        (.whileBack env beforeArguments before afterArguments after results rest :: stack)
        (.whileBack env' beforeArguments before' afterArguments after' results rest' :: stack')

namespace Stacked

variable {w w' : World V} {may may' : Bool} {stack stack' : List (Pending V O)}

theorem mono (h : Stacked w may stack stack') (hm : may' = true → may = true) :
    Stacked w may' stack stack' := by
  cases h with
  | process hp hr => exact .process hp hr
  | join hs hp hf hr hst => exact .join (hs ∘ hm) hp hf hr hst
  | forLoop next upper step hs hp hfa hb hf hr hst =>
    exact .forLoop next upper step (hs ∘ hm) hp hfa hb hf hr hst
  | whileTest hs hp hfb hb hfa ha hf hr hst =>
    exact .whileTest (hs ∘ hm) hp hfb hb hfa ha hf hr hst
  | whileBack hs hp hfb hb hfa ha hf hr hst =>
    exact .whileBack (hs ∘ hm) hp hfb hb hfa ha hf hr hst

/-- Places below stay related when the places do. -/
theorem of_points (h : Stacked w may stack stack')
    (hp : ∀ {suspends scope known previous f env env'}, (may = true → suspends = true) →
      Point w scope known (.other suspends :: previous) f env env' →
      Point w' scope known (.other suspends :: previous) f env env') :
    Stacked w' may stack stack' := by
  induction h with
  | process hq hr => exact .process hq.begin_block hr
  | join hs hq hf hr _ ih =>
    refine .join hs (hp hs hq) hf hr (ih fun hs' => hp fun hm => hs' ?_)
    simp [hs hm]
  | forLoop next upper step hs hq hfa hb hf hr _ ih =>
    refine .forLoop next upper step hs (hp hs hq) hfa hb hf hr (ih fun hs' => hp fun hm => hs' ?_)
    simp [hs hm]
  | whileTest hs hq hfb hb hfa ha hf hr _ ih =>
    refine .whileTest hs (hp hs hq) hfb hb hfa ha hf hr (ih fun hs' => hp fun hm => hs' ?_)
    simp [hs hm]
  | whileBack hs hq hfb hb hfa ha hf hr _ ih =>
    refine .whileBack hs (hp hs hq) hfb hb hfa ha hf hr (ih fun hs' => hp fun hm => hs' ?_)
    simp [hs hm]

theorem of_accessed (h : Stacked w may stack stack') (ha : w.Accessed w') :
    Stacked w' may stack stack' :=
  h.of_points fun _ hp => hp.of_accessed ha

/-- Below a block that may suspend no read is relied on. -/
theorem suspended (h : Stacked w true stack stack') : Stacked w' true stack stack' := by
  refine h.of_points fun hs hp => ?_
  rw [hs rfl] at hp ⊢
  exact hp.suspended

end Stacked

/-- Two machines at related places. -/
structure Related (m m' : Machine V O) : Prop where
  world : m'.world = m.world
  place : ∃ scope known previous f, Point m.world scope known previous f m.env m'.env ∧
    Reduces scope known previous f m.region m'.region
  stacked : Stacked m.world (maySuspend m.region) m.stack m'.stack

/-- The two machines do the same, to related machines. -/
inductive Matched (w : World V) : Outcome V O → Outcome V O → Prop
  | internal {next next'} : next'.world = next.world →
      (w.Steady next.world → Related next next') → Matched w (.internal next) (.internal next')
  | operation {name operands resume resume'} : (∀ answers, Related (resume answers)
      (resume' answers)) → Matched w (.operation name operands resume)
      (.operation name operands resume')
  | suspend {name operands resume resume'} : (∀ actions, Related (resume actions)
      (resume' actions)) → Matched w (.suspend name operands resume)
      (.suspend name operands resume')

section Steps

variable {w : World V} {scope : List Ssa} {known : List (Ssa × V)} {previous : List Previous}
  {f : Ssa → Ssa} {env env' : Values V} {stack stack' : List (Pending V O)}

theorem related_enterFor {induction : Ssa} {arguments results : List Ssa}
    {body body' rest rest' : Region V O} (next upper step : ℤ) (values : List V)
    (hp : Point w scope known (.other (maySuspend body) :: previous) f env env')
    (hfa : fresh scope (induction :: arguments) = true)
    (hb : Reduces (induction :: arguments ++ scope) known [] f body body')
    (hf : fresh scope results = true)
    (hr : Reduces (results ++ scope) known (.other (maySuspend body) :: previous) f rest rest')
    (hst : Stacked w (maySuspend body || maySuspend rest) stack stack') : Related
      (enterFor env next upper step induction arguments body results rest values stack w)
      (enterFor env' next upper step induction arguments body' results rest' values stack' w) := by
  unfold enterFor
  split
  · exact ⟨rfl, ⟨_, _, _, _, hp.begin_block.bind hfa _, hb⟩,
      .forLoop _ _ _ id hp hfa hb hf hr hst⟩
  · refine ⟨rfl, ⟨_, _, _, _, hp.bind hf _, hr⟩, hst.mono ?_⟩
    exact fun h => by simp [h]

theorem matched_deliver (values : List V) (hst : Stacked w false stack stack') :
    Matched w (deliver values w stack) (deliver values w stack') := by
  cases hst with
  | process hp hr =>
    refine .internal rfl fun _ => ⟨rfl, ⟨_, _, _, _, hp, hr⟩, .process hp hr⟩
  | join _ hp hf hr hst =>
    refine .internal rfl fun _ => ⟨rfl, ⟨_, _, _, _, hp.bind hf _, hr⟩, hst.mono ?_⟩
    exact fun h => by simp [h]
  | forLoop next upper step _ hp hfa hb hf hr hst =>
    have h := related_enterFor next upper step values hp hfa hb hf hr hst
    exact .internal h.world fun _ => h
  | whileTest _ hp hfb hb hfa ha hf hr hst =>
    simp only [deliver]
    split
    · refine .internal rfl fun _ => ⟨rfl, ⟨_, _, _, _, hp.begin_block.bind hfa _, ha⟩, ?_⟩
      exact .whileBack (fun h => by simp [h]) hp hfb hb hfa ha hf hr hst
    · refine .internal rfl fun _ => ⟨rfl, ⟨_, _, _, _, hp.bind hf _, hr⟩, hst.mono ?_⟩
      exact fun h => by simp [h]
  | whileBack _ hp hfb hb hfa ha hf hr hst =>
    refine .internal rfl fun _ => ⟨rfl, ⟨_, _, _, _, hp.begin_block.bind hfb _, hb⟩, ?_⟩
    exact .whileTest (fun h => by simp [h]) hp hfb hb hfa ha hf hr hst

theorem matched_execute (eval : O → List V → List V) (i : Instruction V O)
    {rest rest' : Region V O} (hp : Point w scope known previous f env env')
    (ho : ∀ x ∈ i.operands, x ∈ scope) (hf : fresh scope i.results = true)
    (hr : Reduces (i.results ++ scope) (i.constants known) (i.previous :: previous) f rest rest')
    (hst : Stacked w (isSuspension i || maySuspend rest) stack stack') :
    Matched w (execute eval i rest env stack w)
      (execute eval (i.rename f) rest' env' stack' w) := by
  have hmono : Stacked w (maySuspend rest) stack stack' := hst.mono fun h => by simp [h]
  cases i with
  | constant value result =>
    exact .internal rfl fun _ => ⟨rfl, ⟨_, _, _, _, (hp.constant value hf).other false, hr⟩, hmono⟩
  | compute name operands results =>
    have hmap : (operands.map f).map env' = operands.map env := hp.map_eq ho
    unfold execute rename
    dsimp only
    rw [hmap]
    exact .internal rfl fun _ => ⟨rfl, ⟨_, _, _, _, (hp.bind hf _).other false, hr⟩, hmono⟩
  | operation name operands results =>
    have hmap : (operands.map f).map env' = operands.map env := hp.map_eq ho
    unfold execute rename
    dsimp only
    rw [hmap]
    split
    · next hs =>
      -- The rest of the system acts on the arrays: nothing below relies on an earlier read.
      have hr : Reduces (results ++ scope) known (.other (isSuspension name) :: previous) f rest
        rest' := hr
      have hst : Stacked w (isSuspension name || maySuspend rest) stack stack' := hst
      rw [hs] at hr hst
      rw [Bool.true_or] at hst
      exact .suspend fun actions => ⟨rfl, ⟨_, _, _, _, ((hp.bind hf []).other true).suspended, hr⟩,
        hst.suspended.mono fun _ => rfl⟩
    · exact .operation fun answers => ⟨rfl, ⟨_, _, _, _, (hp.bind hf _).other _, hr⟩, hmono⟩
  | stateRead array index port element result =>
    have hindex : index ∈ scope := ho index (by simp [operands])
    have hport : port ∈ scope := ho port (by simp [operands])
    unfold execute rename
    dsimp only
    rw [← hp.agree index hindex, ← hp.agree port hport]
    refine .internal rfl fun hs => ?_
    have ha : w.Accessed (w.read array (toInt (env index)) (toInt (env port))).2 :=
      accessed_update StateMemory.grows_read hs
    exact ⟨rfl, ⟨_, _, _, _, (hp.of_accessed ha).stateRead element hindex hport hf
      (settled_read array _ _ w), hr⟩, hmono.of_accessed ha⟩
  | stateWrite array index value enable port =>
    have hindex : index ∈ scope := ho index (by simp [operands])
    have hvalue : value ∈ scope := ho value (by simp [operands])
    have henable : enable ∈ scope := ho enable (by simp [operands])
    have hport : port ∈ scope := ho port (by simp [operands])
    unfold execute rename
    dsimp only
    rw [← hp.agree index hindex, ← hp.agree value hvalue, ← hp.agree enable henable,
      ← hp.agree port hport]
    refine .internal rfl fun hs => ?_
    have ha := accessed_update StateMemory.grows_proposeWrite hs
    exact ⟨rfl, ⟨_, _, _, _, (hp.of_accessed ha).other false, hr⟩, hmono.of_accessed ha⟩

end Steps

theorem Related.step {m m' : Machine V O} (eval : O → List V → List V) (h : Related m m') :
    (∃ next, step eval m = .internal next ∧ next.world = m.world ∧
      sizeOf next.region < sizeOf m.region ∧ Related next m') ∨
    Matched m.world (step eval m) (step eval m') := by
  obtain ⟨env, region, stack, w⟩ := m
  obtain ⟨env', region', stack', w'⟩ := m'
  obtain ⟨hw, ⟨scope, known, previous, f, hp, hr⟩, hst⟩ := h
  dsimp only at hw hp hr hst
  subst hw
  cases hr with
  | yield ho =>
    right
    simp only [Dialect.step, hp.map_eq ho]
    exact matched_deliver _ hst
  | @instruction _ _ _ _ i rest rest' ho hf hr =>
    exact .inr (matched_execute eval i hp ho hf hr hst)
  | @reuse _ _ _ _ array index port element result replacement rest _ hfound hc hresult hr =>
    left
    have hread := (hp.available.settled hfound).read
    refine ⟨_, rfl, ?_⟩
    rw [hread]
    refine ⟨rfl, ?_, rfl, ⟨_, _, _, _, hp.reuse hresult hc, hr⟩, hst⟩
    simp only [Region.instruction.sizeOf_spec]
    omega
  | @erase _ _ _ _ array index value enable port rest _ hdisabled hr =>
    left
    have hfalse : toBool (env enable) = false := by
      unfold eraseDisabledStateWrite at hdisabled
      cases hk : known.lookup enable with
      | none => simp [hk] at hdisabled
      | some value =>
        rw [(hp.known enable value hk).2]
        simpa [hk] using hdisabled
    refine ⟨_, rfl, ?_⟩
    rw [hfalse, proposeWrite_false]
    refine ⟨rfl, ?_, rfl, ⟨_, _, _, _, hp.other false, hr⟩, hst⟩
    simp only [Region.instruction.sizeOf_spec]
    omega
  | ifOp hc ht he hf hr =>
    right
    simp only [Dialect.step, ← hp.agree _ hc]
    refine .internal rfl fun _ => ⟨rfl, ?_, ?_⟩
    · split
      · exact ⟨_, _, _, _, hp.begin_block, ht⟩
      · exact ⟨_, _, _, _, hp.begin_block, he⟩
    · refine .join ?_ (hp.other _) hf hr hst
      split <;> exact fun h => by simp [h]
  | @forOp _ _ _ _ lower upper step inits _ _ _ _ _ _ _ ho ha hb hf hr =>
    right
    simp only [forall_mem_cons] at ho
    obtain ⟨hlower, hupper, hstep, hinits⟩ := ho
    simp only [Dialect.step, ← hp.agree _ hlower, ← hp.agree _ hupper, ← hp.agree _ hstep,
      hp.map_eq hinits]
    have h := related_enterFor (toInt (env lower)) (toInt (env upper)) (toInt (env step))
      (inits.map env) (hp.other _) ha hb hf hr hst
    exact .internal h.world fun _ => h
  | whileOp ho hfb hb hfa ha hf hr =>
    right
    simp only [Dialect.step, hp.map_eq ho]
    refine .internal rfl fun _ => ⟨rfl, ⟨_, _, _, _, hp.begin_block.bind hfb _, hb⟩, ?_⟩
    exact .whileTest (fun h => by simp [h]) (hp.other _) hfb hb hfa ha hf hr hst
  | instrumentation hb hr =>
    right
    refine .internal rfl fun _ => ⟨rfl, ⟨_, _, _, _, hp.begin_block, hb⟩, ?_⟩
    exact .join id (hp.other _) (by simp [fresh]) hr hst

/-! ### Whole runs -/

section Runs

variable {eval : O → List V → List V} {m m' last last' : Machine V O} {trace : List (Event V O)}

omit [ScalarValue V] in
theorem World.steady_of_eq {w w' : World V} (h : w' = w) : w.Steady w' := by
  subst h
  exact fun _ _ => rfl

theorem Run.of_related (h : Run eval Steady m trace last) (hr : Related m m') :
    ∃ last', Run eval Steady m' trace last' ∧ last'.world = last.world := by
  induction h generalizing m' with
  | refl m => exact ⟨m', .refl m', hr.world⟩
  | @internal m next trace last hs hok _ ih =>
    obtain ⟨next', hs', -, -, hr'⟩ | hm := hr.step eval
    · rw [hs] at hs'
      cases hs'
      exact ih hr'
    · rw [hs] at hm
      generalize ho : step eval m' = outcome at hm
      cases hm with
      | internal hw hr' =>
        obtain ⟨last', hrun, hlast⟩ := ih (hr' hok)
        exact ⟨last', .internal ho (by rw [hw, hr.world]; exact hok) hrun, hlast⟩
  | @operation m name operands resume trace last answers hs _ ih =>
    obtain ⟨next', hs', -, -, hr'⟩ | hm := hr.step eval
    · rw [hs] at hs'
      cases hs'
    · rw [hs] at hm
      generalize ho : step eval m' = outcome at hm
      cases hm with
      | operation hr' =>
        obtain ⟨last', hrun, hlast⟩ := ih (hr' answers)
        exact ⟨last', .operation answers ho hrun, hlast⟩
  | @suspend m name operands resume trace last actions hs _ ih =>
    obtain ⟨next', hs', -, -, hr'⟩ | hm := hr.step eval
    · rw [hs] at hs'
      cases hs'
    · rw [hs] at hm
      generalize ho : step eval m' = outcome at hm
      cases hm with
      | suspend hr' =>
        obtain ⟨last', hrun, hlast⟩ := ih (hr' actions)
        exact ⟨last', hr.world ▸ .suspend actions ho hrun, hlast⟩

/-- After its redundant operations, which leave the arrays alone, the body does what the
reduced body does. -/
theorem Related.catch_up (eval : O → List V → List V) (hr : Related m m') :
    ∃ ready, ready.world = m.world ∧
      Matched m.world (Dialect.step eval ready) (Dialect.step eval m') ∧
      ∀ trace last, Run eval Steady ready trace last →
        Run eval Steady m trace last := by
  induction hn : sizeOf m.region using Nat.strong_induction_on generalizing m with
  | _ n ih =>
    obtain ⟨next, hs, hw, hsize, hr'⟩ | hm := hr.step eval
    · obtain ⟨ready, hready, hm, hrun⟩ := ih _ (hn ▸ hsize) hr' rfl
      refine ⟨ready, hready.trans hw, hw ▸ hm, fun trace last h => ?_⟩
      exact .internal hs (steady_of_eq hw) (hrun trace last h)
    · exact ⟨m, rfl, hm, fun _ _ h => h⟩

theorem Run.of_related_symm (h : Run eval Steady m' trace last') (hr : Related m m') :
    ∃ last, Run eval Steady m trace last ∧ last.world = last'.world := by
  induction h generalizing m with
  | refl m' => exact ⟨m, .refl m, hr.world.symm⟩
  | @internal m' next' trace last' hs hok _ ih =>
    obtain ⟨ready, hw, hm, hrun⟩ := hr.catch_up eval
    rw [hs] at hm
    generalize ho : step eval ready = outcome at hm
    cases hm with
    | @internal next _ hw' hr' =>
      have hok : m.world.Steady next.world := by
        rw [← hr.world, ← hw']
        exact hok
      obtain ⟨last, hlast, heq⟩ := ih (hr' hok)
      exact ⟨last, hrun _ _ (.internal ho (hw ▸ hok) hlast), heq⟩
  | @operation m' name operands resume trace last' answers hs _ ih =>
    obtain ⟨ready, hw, hm, hrun⟩ := hr.catch_up eval
    rw [hs] at hm
    generalize ho : step eval ready = outcome at hm
    cases hm with
    | operation hr' =>
      obtain ⟨last, hlast, heq⟩ := ih (hr' answers)
      exact ⟨last, hrun _ _ (.operation answers ho hlast), heq⟩
  | @suspend m' name operands resume trace last' actions hs _ ih =>
    obtain ⟨ready, hw, hm, hrun⟩ := hr.catch_up eval
    rw [hs] at hm
    generalize ho : step eval ready = outcome at hm
    cases hm with
    | suspend hr' =>
      obtain ⟨last, hlast, heq⟩ := ih (hr' actions)
      refine ⟨last, ?_, heq⟩
      rw [hr.world, ← hw]
      exact hrun _ _ (.suspend actions ho hlast)

end Runs

variable {scope : List Ssa} {body body' : Region V O}

theorem related_start (hr : Reduces scope [] [] id body body') (env : Values V) (world : World V) :
    Related (start env body world) (start env body' world) := by
  have hp : Point world scope [] [] id env env :=
    ⟨.identity scope, fun _ _ => rfl, nofun, trivial⟩
  exact ⟨rfl, ⟨_, _, _, _, hp, hr⟩, .process hp hr⟩

theorem sameExecutions_of_rewrites (eval : O → List V → List V) (hd : dominated scope body = true)
    (h : Rewrites false [] [] body body') : SameExecutions eval Steady body body' := by
  have hr := h.reduces hd resolves_nil
  intro env world trace left
  constructor
  · rintro ⟨last, hrun, rfl⟩
    exact hrun.of_related (related_start hr env world)
  · rintro ⟨last', hrun, rfl⟩
    exact hrun.of_related_symm (related_start hr env world)

/-- Canonicalisation that reuses no read across a suspension, any number of times. -/
theorem sameExecutions_of_canonicalized {captures : List Ssa} (eval : O → List V → List V)
    (hv : verifyBody captures body = true)
    (h : Relation.ReflTransGen (Rewrites false [] []) body body') :
    SameExecutions eval Steady body body' := by
  have hd : dominated captures body = true := (Bool.and_eq_true_iff.mp hv).1
  suffices dominated captures body' = true ∧ SameExecutions eval Steady body body' from
    this.2
  induction h with
  | refl => exact ⟨hd, fun _ _ _ _ => Iff.rfl⟩
  | tail _ hstep ih =>
    refine ⟨?_, fun env world trace left => (ih.2 env world trace left).trans
      (sameExecutions_of_rewrites eval ih.1 hstep env world trace left)⟩
    exact (hstep.reduces ih.1 resolves_nil).dominated (.identity _)
      ⟨fun _ h => h, fun _ h => h⟩

instance : ScalarValue ℤ where
  toInt := id
  ofInt := id
  toBool value := value != 0

/-- Two reads of `state[0]` in one activation; the second result is sent. -/
def readTwice : Region ℤ Operation :=
  .instruction (.constant 0 0) <|
  .instruction (.stateRead "state" 0 0 "i32" 1) <|
  .instruction (.stateWrite "state" 0 0 0 0) <|
  .instruction (.stateRead "state" 0 0 "i32" 2) <|
  .instruction (.operation .other [2] []) <|
  .instruction (.operation .yieldSim [] []) <|
  .yield []

theorem sameExecutions_readTwice :
    verifyBody [] readTwice = true ∧
      SameExecutions (fun _ _ => []) Steady readTwice
        (.instruction (.constant 0 0) <|
          .instruction (.stateRead "state" 0 0 "i32" 1) <|
          .instruction (.operation .other [1] []) <|
          .instruction (.operation .yieldSim [] []) <|
          .yield []) := by
  have hv : verifyBody [] readTwice = true := by decide
  refine ⟨hv, sameExecutions_of_canonicalized (fun _ _ => []) hv ?_⟩
  -- The disabled write goes first, then the second read.
  exact .tail (.single (.instruction (.instruction (.erase (by decide)))))
    (.instruction (.instruction (.reuse (by decide))))

/-- A body that reads `state[0]`, proposes a one for it, waits, and sends what it reads then. -/
def readAcrossWait : Region ℤ Operation :=
  .instruction (.constant 0 0) <|
  .instruction (.constant 1 1) <|
  .instruction (.stateRead "state" 0 0 "i32" 2) <|
  .instruction (.stateWrite "state" 0 1 1 0) <|
  .instruction (.operation .waitFor [] []) <|
  .instruction (.stateRead "state" 0 0 "i32" 3) <|
  .instruction (.operation .other [3] []) <|
  .instruction (.operation .yieldSim [] []) <|
  .yield []

/-- The same body, sending what it read before the wait. -/
def reusedAcrossWait : Region ℤ Operation :=
  .instruction (.constant 0 0) <|
  .instruction (.constant 1 1) <|
  .instruction (.stateRead "state" 0 0 "i32" 2) <|
  .instruction (.stateWrite "state" 0 1 1 0) <|
  .instruction (.operation .waitFor [] []) <|
  .instruction (.operation .other [2] []) <|
  .instruction (.operation .yieldSim [] []) <|
  .yield []

def oneEntry : World ℤ := ⟨⟨⟨0, 0⟩, true⟩, fun _ => .ofSizes 1 1 1⟩

/-- The pattern reuses a read across a suspension: the process sends the value from before the
Xfer that committed its own write. -/
theorem reused_across_suspension :
    verifyBody [] readAcrossWait = true ∧
      Rewrites true [] [] readAcrossWait reusedAcrossWait ∧
      ¬ SameExecutions (fun _ _ => []) (fun _ _ => True) readAcrossWait reusedAcrossWait := by
  refine ⟨by decide, ?_, ?_⟩
  · exact .instruction (.instruction (.instruction (.instruction (.instruction
      (.reuse (by decide))))))
  · intro hsame
    have hrun : ∃ left last, Run (fun _ _ => []) (fun _ _ => True)
        (start (fun _ => 0) readAcrossWait oneEntry)
        [.suspend .waitFor [] left [.doXfer, .setRegistration ⟨⟨1, 0⟩, true⟩],
          .operation .other [1] []] last :=
      ⟨_, _, .internal rfl trivial <| .internal rfl trivial <| .internal rfl trivial <|
        .internal rfl trivial <| .suspend _ rfl <| .internal rfl trivial <|
        .operation [] rfl <| .refl _⟩
    obtain ⟨left, last, hrun⟩ := hrun
    obtain ⟨last', hrun', -⟩ := (hsame _ _ _ _).mp ⟨last, hrun, rfl⟩
    have hwait := (((hrun'.of_internal rfl).of_internal rfl).of_internal rfl).of_internal rfl
    obtain ⟨actions, hevent, hwait⟩ := hwait.of_suspend rfl
    obtain ⟨answers, hsent, -⟩ := hwait.of_operation rfl
    have hoperands : [(1 : ℤ)] = [0] := (Event.operation.inj hsent).2.1
    exact absurd hoperands (by decide)

end AgenticCircuit.Dialect
