import AgenticCircuit.Gfsim.StateArray
import Mathlib.Data.List.Induction

/-! # The port discipline of a state array

`StateArray<T>` with all it tracks in an epoch: the slot of each entry and the lists of touched
ports, from which `doXfer` clears the ports.

* **Legal requests** are in range, and no two of them want one read port for two entries, one
  write port, or one entry written twice.
* **Tracking.**  Up to the first request that is not legal the ports and slots tell exactly what
  has been requested (`Serves`), so that request fails; whatever fails, nothing stays behind
  (`Covered`).
* **The epoch** commits the writes of legal requests and nothing of others, in any order
  (`portDiscipline`). -/

namespace AgenticCircuit.Gfsim

open List StateMemory

/-- A state array with its slots and touched ports.  A slot is `-1`, or the place of the proposal of
the entry: there are at most as many proposals as write ports, so it fits 32 bits. -/
structure TrackedArray (α : Type) extends StateMemory α where
  proposalSlotByEntry : List ℤ
  touchedReadPorts : List ℕ := []
  touchedWritePorts : List ℕ := []

/-- A read, or an enabled write. -/
inductive Access (α : Type) where
  | read (index port : ℤ)
  | write (index : ℤ) (value : α) (port : ℤ)

namespace Access

variable {α : Type}

/-- The access reads entry `i` through port `p`. -/
def Reads (p i : ℕ) : Access α → Prop
  | read index port => port.toNat = p ∧ index.toNat = i
  | write _ _ _ => False

/-- The access writes `v` to entry `i` through port `p`. -/
def Writes (p i : ℕ) (v : α) : Access α → Prop
  | read _ _ => False
  | write index value port => port.toNat = p ∧ index.toNat = i ∧ value = v

/-- What is returned without a look at the array. -/
def refused [Inhabited α] : Access α → Option α
  | read _ _ => some default
  | write _ _ _ => none

/-- The two accesses can be made in one epoch. -/
structure Compatible (a b : Access α) : Prop where
  reads : ∀ p i i', a.Reads p i → b.Reads p i' → i = i'
  ports : ∀ p i i' v v', a.Writes p i v → ¬ b.Writes p i' v'
  entries : ∀ p p' i v v', a.Writes p i v → ¬ b.Writes p' i v'

theorem Compatible.symm {a b : Access α} (h : a.Compatible b) : b.Compatible a :=
  ⟨fun p i i' hb ha => (h.reads p i' i ha hb).symm, fun p i i' v v' hb ha => h.ports p i' i v' v ha hb,
    fun p p' i v v' hb ha => h.entries p' p i v' v ha hb⟩

end Access

namespace TrackedArray

variable {α : Type} (r : Registration) (t : TrackedArray α)

/-- The failure code with which an enabled write is refused. -/
def writeFailure (index port : ℤ) : Option String :=
  if !t.isRegistered r then some "state_array_participant_registration_failed"
  else if index < 0 ∨ t.committed.length ≤ index.toNat then
    some "state_array_index_out_of_bounds"
  else if port < 0 ∨ t.writePortUsed.length ≤ port.toNat then
    some "state_array_write_port_out_of_bounds"
  else if t.writePortUsed.getD port.toNat false then some "state_array_write_port_reused"
  else if 0 ≤ t.proposalSlotByEntry.getD index.toNat (-1) then some "state_array_write_conflict"
  else none

/-- The failure code with which a request is refused. -/
def failure : Access α → Option String
  | .read index port => t.readFailure r index port
  | .write index _ port => t.writeFailure r index port

/-- A request that passes its checks: the value that is read, and the array after it. -/
def serve [Inhabited α] : Access α → Option α × TrackedArray α
  | .read index port =>
      (some (t.committed.getD index.toNat default), { t with
        toStateMemory := { t.register r with
          readPortAddress := t.readPortAddress.set port.toNat (some index.toNat) }
        touchedReadPorts := if (t.readPortAddress.getD port.toNat none).isNone
          then t.touchedReadPorts ++ [port.toNat] else t.touchedReadPorts })
  | .write index value port =>
      (none, { t with
        toStateMemory := { t.register r with
          writePortUsed := t.writePortUsed.set port.toNat true
          proposals := t.proposals ++ [(index.toNat, value)] }
        touchedWritePorts := t.touchedWritePorts ++ [port.toNat]
        proposalSlotByEntry := t.proposalSlotByEntry.set index.toNat t.proposals.length })

/-- `read` or an enabled `proposeWrite`. -/
def access [Inhabited α] (a : Access α) : Option α × TrackedArray α :=
  match t.failure r a with
  | some code => (a.refused, { t with toStateMemory := t.refuse r code })
  | none => t.serve r a

/-- The requests of an epoch, one after the other. -/
def run [Inhabited α] : List (Access α) → TrackedArray α → List (Option α) × TrackedArray α
  | [], t => ([], t)
  | a :: rest, t => ((t.access r a).1 :: (run rest (t.access r a).2).1, (run rest (t.access r a).2).2)

/-- Put `d` at every listed place. -/
def clear {β : Type} (d : β) (places : List ℕ) (l : List β) : List β :=
  places.foldl (fun l place => l.set place d) l

def doXfer : TrackedArray α :=
  { committed := if t.runtimeFailureCode = "" then
        t.proposals.foldl (fun committed proposal => committed.set proposal.1 proposal.2) t.committed
      else t.committed
    runtimeFailureCode := t.runtimeFailureCode
    proposalSlotByEntry := clear (-1) (t.proposals.map Prod.fst) t.proposalSlotByEntry
    readPortAddress := clear none t.touchedReadPorts t.readPortAddress
    writePortUsed := clear false t.touchedWritePorts t.writePortUsed }

/-- No port and no slot is taken. -/
structure Idle : Prop where
  reads : ∀ p, t.readPortAddress.getD p none = none
  writes : ∀ p, t.writePortUsed.getD p false = false
  slots : ∀ i, t.proposalSlotByEntry.getD i (-1) = -1
  entries : t.proposalSlotByEntry.length = t.committed.length
  proposals : t.proposals = []

/-- The index and the port of the request exist. -/
def InRange : Access α → Prop
  | .read index port => 0 ≤ index ∧ index.toNat < t.committed.length ∧
      0 ≤ port ∧ port.toNat < t.readPortAddress.length
  | .write index _ port => 0 ≤ index ∧ index.toNat < t.committed.length ∧
      0 ≤ port ∧ port.toNat < t.writePortUsed.length

/-- The requests of an epoch that does not fail. -/
def Legal (requests : List (Access α)) : Prop :=
  (∀ a ∈ requests, t.InRange a) ∧ requests.Pairwise Access.Compatible

/-! ### Nothing stays behind -/

variable {r t} {t₀ : TrackedArray α} {done : List (Access α)} {a : Access α}

variable {β : Type} {l : List β}

theorem getD_set {place : ℕ} (h : place < l.length) (x d : β) (p : ℕ) :
    (l.set place x).getD p d = if place = p then x else l.getD p d := by
  rw [getD_eq_getElem?_getD, getD_eq_getElem?_getD, getElem?_set]
  split_ifs <;> rfl

theorem getD_clear {d : β} {places : List ℕ} (h : ∀ p, l.getD p d ≠ d → p ∈ places) (p : ℕ) :
    (clear d places l).getD p d = d := by
  induction places generalizing l with
  | nil => exact not_not.mp fun hne => not_mem_nil (h p hne)
  | cons place places ih =>
    refine ih fun q hq => ?_
    rw [getD_eq_getElem?_getD, getElem?_set] at hq
    split_ifs at hq with hplace hlt
    · exact absurd rfl hq
    · exact absurd rfl hq
    · rw [← getD_eq_getElem?_getD] at hq
      exact (mem_cons.mp (h q hq)).resolve_left (Ne.symm hplace)

/-- What is taken is listed. -/
structure Covered (t : TrackedArray α) : Prop where
  reads : ∀ p, t.readPortAddress.getD p none ≠ none → p ∈ t.touchedReadPorts
  writes : ∀ p, t.writePortUsed.getD p false ≠ false → p ∈ t.touchedWritePorts
  slots : ∀ i, t.proposalSlotByEntry.getD i (-1) ≠ -1 → i ∈ t.proposals.map Prod.fst
  entries : t.proposalSlotByEntry.length = t.committed.length

theorem Idle.covered (h : t.Idle) : t.Covered :=
  ⟨fun p hp => absurd (h.reads p) hp, fun p hp => absurd (h.writes p) hp,
    fun i hi => absurd (h.slots i) hi, h.entries⟩

theorem failure_ne {code : String} (h : t.failure r a = some code) : code ≠ "" := by
  cases a <;> unfold failure at h
  · unfold readFailure at h
    grind
  · unfold writeFailure at h
    grind

theorem failure_none (h : t.failure r a = none) : t.InRange a := by
  cases a <;> unfold failure at h <;> unfold InRange
  · unfold readFailure at h
    grind
  · unfold writeFailure at h
    grind

theorem length_clear (d : β) (places : List ℕ) (l : List β) :
    (clear d places l).length = l.length := by
  induction places generalizing l with
  | nil => rfl
  | cons place places ih => exact (ih _).trans length_set

variable (proposals : List (ℕ × α))

theorem length_writes (l : List α) :
    (proposals.foldl (fun l proposal => l.set proposal.1 proposal.2) l).length = l.length := by
  induction proposals generalizing l with
  | nil => rfl
  | cons proposal proposals ih => exact (ih _).trans length_set

theorem getElem?_writes (l : List α) {i : ℕ} (hi : i < l.length) :
    (∃ v, (i, v) ∈ proposals ∧
      (proposals.foldl (fun l proposal => l.set proposal.1 proposal.2) l)[i]? = some v) ∨
    (∀ v, (i, v) ∉ proposals) ∧
      (proposals.foldl (fun l proposal => l.set proposal.1 proposal.2) l)[i]? = l[i]? := by
  induction proposals using List.reverseRec with
  | nil => exact .inr ⟨fun v => not_mem_nil, rfl⟩
  | append_singleton proposals last ih =>
    rw [foldl_append, foldl_cons, foldl_nil]
    by_cases hlast : last.1 = i
    · refine .inl ⟨last.2, by simp [← hlast], ?_⟩
      rw [hlast, getElem?_set_self (by rwa [length_writes])]
    · rw [getElem?_set_ne hlast]
      refine ih.imp (fun ⟨v, hv, heq⟩ => ⟨v, mem_append_left _ hv, heq⟩) fun ⟨hnone, heq⟩ =>
        ⟨fun v hv => ?_, heq⟩
      rcases mem_append.mp hv with hv | hv
      · exact hnone v hv
      · exact hlast (congrArg Prod.fst (mem_singleton.mp hv)).symm

theorem Covered.doXfer (h : t.Covered) : t.doXfer.Idle where
  reads := getD_clear h.reads
  writes := getD_clear h.writes
  slots := getD_clear h.slots
  entries := by
    unfold TrackedArray.doXfer
    split_ifs <;> simp [length_clear, length_writes, h.entries]
  proposals := rfl

/-! ### What the trackers tell -/

/-- The trackers tell that the requests `done` have been served. -/
structure Serves (t₀ : TrackedArray α) (done : List (Access α)) (t : TrackedArray α) : Prop where
  committed : t.committed = t₀.committed
  readPorts : t.readPortAddress.length = t₀.readPortAddress.length
  writePorts : t.writePortUsed.length = t₀.writePortUsed.length
  entries : t.proposalSlotByEntry.length = t₀.committed.length
  code : t.runtimeFailureCode = ""
  reads : ∀ p i, t.readPortAddress.getD p none = some i ↔ ∃ a ∈ done, a.Reads p i
  writes : ∀ p, t.writePortUsed.getD p false = true ↔ ∃ a ∈ done, ∃ i v, a.Writes p i v
  slots : ∀ i, 0 ≤ t.proposalSlotByEntry.getD i (-1) ↔ ∃ a ∈ done, ∃ p v, a.Writes p i v
  proposals : ∀ i v, (i, v) ∈ t.proposals ↔ ∃ a ∈ done, ∃ p, a.Writes p i v

/-- The request can follow those of `done`. -/
def Fits (t₀ : TrackedArray α) (done : List (Access α)) (a : Access α) : Prop :=
  t₀.InRange a ∧ ∀ b ∈ done, b.Compatible a

theorem Idle.serves (h : t.Idle) (hcode : t.runtimeFailureCode = "") : t.Serves [] t where
  committed := rfl
  readPorts := rfl
  writePorts := rfl
  entries := h.entries
  code := hcode
  reads p i := by simp [h.reads p, -getD_eq_getElem?_getD]
  writes p := by simp [h.writes p, -getD_eq_getElem?_getD]
  slots i := by simp [h.slots i, -getD_eq_getElem?_getD]
  proposals i v := by simp [h.proposals]

theorem Serves.failure_iff (h : t₀.Serves done t) (hr : r.accepts = true) :
    t.failure r a = none ↔ t₀.Fits done a := by
  have hreg : t.isRegistered r = true := by simp [isRegistered, hr]
  unfold Fits
  cases a with
  | read index port =>
    have hcompat : (∀ b ∈ done, b.Compatible (.read index port)) ↔
        ∀ i, t.readPortAddress.getD port.toNat none = some i → i = index.toNat := by
      constructor
      · intro hall i hi
        obtain ⟨b, hb, hbi⟩ := (h.reads _ _).mp hi
        exact (hall b hb).reads _ _ _ hbi ⟨rfl, rfl⟩
      · intro hall b hb
        refine ⟨fun p i i' hbi ha => ?_, fun _ _ _ _ _ _ ha => ha, fun _ _ _ _ _ _ ha => ha⟩
        obtain ⟨rfl, rfl⟩ := ha
        exact hall i ((h.reads _ _).mpr ⟨b, hb, hbi⟩)
    unfold failure readFailure InRange
    rw [hreg, h.committed, h.readPorts]
    grind
  | write index v port =>
    have hcompat : (∀ b ∈ done, b.Compatible (.write index v port)) ↔
        ¬ t.writePortUsed.getD port.toNat false = true ∧
          ¬ 0 ≤ t.proposalSlotByEntry.getD index.toNat (-1) := by
      rw [h.writes, h.slots]
      constructor
      · intro hall
        constructor
        · rintro ⟨b, hb, i, w, hw⟩
          exact (hall b hb).ports _ _ _ _ _ hw ⟨rfl, rfl, rfl⟩
        · rintro ⟨b, hb, p, w, hw⟩
          exact (hall b hb).entries _ _ _ _ _ hw ⟨rfl, rfl, rfl⟩
      · intro hall b hb
        refine ⟨fun _ _ _ _ ha => ha.elim, fun p i i' w w' hw ha => ?_, fun p p' i w w' hw ha => ?_⟩
        · exact hall.1 ⟨b, hb, i, w, ha.1 ▸ hw⟩
        · exact hall.2 ⟨b, hb, p, w, ha.2.1 ▸ hw⟩
    unfold failure writeFailure InRange
    rw [hreg, h.committed, h.writePorts]
    grind

theorem legal_perm {requests requests' : List (Access α)} (h : requests ~ requests') :
    t.Legal requests ↔ t.Legal requests' :=
  and_congr (forall_congr' fun _ => by rw [h.mem_iff]) (h.pairwise_iff Access.Compatible.symm)

theorem Serves.getElem?_doXfer (h : t₀.Serves done t) (hlegal : t₀.Legal done) (i : ℕ) :
    (∀ a ∈ done, ∀ p v, a.Writes p i v → t.doXfer.committed[i]? = some v) ∧
      ((∀ a ∈ done, ∀ p v, ¬ a.Writes p i v) → t.doXfer.committed[i]? = t₀.committed[i]?) := by
  have hxfer : t.doXfer.committed =
      t.proposals.foldl (fun l proposal => l.set proposal.1 proposal.2) t₀.committed := by
    rw [← h.committed]
    exact if_pos h.code
  rw [hxfer]
  refine ⟨fun a ha p v hv => ?_, fun hnone => ?_⟩
  · have hi : i < t₀.committed.length := by
      have := hlegal.1 a ha
      cases a with
      | read => exact hv.elim
      | write => exact hv.2.1 ▸ this.2.1
    obtain ⟨w, hw, heq⟩ | ⟨hno, -⟩ := getElem?_writes t.proposals t₀.committed hi
    · obtain ⟨b, hb, p', hbw⟩ := (h.proposals i w).mp hw
      rw [heq]
      -- two writes of one entry are one request
      by_cases hab : a = b
      · subst hab
        cases a with
        | read => exact hv.elim
        | write => rw [← hv.2.2, hbw.2.2]
      · have : Std.Symm (Access.Compatible : Access α → Access α → Prop) :=
          ⟨fun _ _ => Access.Compatible.symm⟩
        exact absurd hbw ((hlegal.2.forall ha hb hab).entries _ _ _ _ _ hv)
    · exact absurd ((h.proposals i v).mpr ⟨a, ha, p, hv⟩) (hno v)
  · by_cases hi : i < t₀.committed.length
    · obtain ⟨w, hw, -⟩ | ⟨-, heq⟩ := getElem?_writes t.proposals t₀.committed hi
      · obtain ⟨b, hb, p, hbw⟩ := (h.proposals i w).mp hw
        exact absurd hbw (hnone b hb p w)
      · exact heq
    · rw [getElem?_eq_none (by rw [length_writes]; omega), getElem?_eq_none (by omega)]

/-! ### The epoch -/

variable [Inhabited α]

theorem access_cases (t : TrackedArray α) (a : Access α) :
    (∃ code registered, t.failure r a = some code ∧ t.access r a =
      (a.refused, { t with runtimeFailureCode := code, registeredEpoch := registered })) ∨
    t.failure r a = none ∧ t.access r a = t.serve r a := by
  unfold access
  cases t.failure r a with
  | none => exact .inr ⟨rfl, rfl⟩
  | some code =>
    dsimp only
    unfold refuse
    split
    · exact .inl ⟨code, some r.epoch, rfl, rfl⟩
    · exact .inl ⟨code, t.registeredEpoch, rfl, rfl⟩

theorem Covered.access (h : t.Covered) (a : Access α) : (t.access r a).2.Covered := by
  obtain ⟨code, registered, -, heq⟩ | ⟨hnone, heq⟩ := access_cases (r := r) t a
  · rw [heq]
    exact ⟨h.reads, h.writes, h.slots, h.entries⟩
  · rw [heq]
    have hin := failure_none hnone
    cases a with
    | read index port =>
      refine ⟨fun p hp => ?_, h.writes, h.slots, h.entries⟩
      have hp : (t.readPortAddress.set port.toNat (some index.toNat)).getD p none ≠ none := hp
      have := h.reads p
      unfold serve
      grind
    | write index v port =>
      refine ⟨h.reads, fun p hp => ?_, fun i hi => ?_, length_set.trans h.entries⟩
      · have hp : (t.writePortUsed.set port.toNat true).getD p false ≠ false := hp
        have := h.writes p
        unfold serve
        grind
      · have hi : (t.proposalSlotByEntry.set index.toNat t.proposals.length).getD i (-1) ≠ -1 := hi
        have := h.slots i
        unfold serve
        grind

variable (requests : List (Access α))

theorem Covered.run (h : t.Covered) : (run r requests t).2.Covered := by
  induction requests generalizing t with
  | nil => exact h
  | cons a requests ih => exact ih (h.access a)

theorem Serves.serve (h : t₀.Serves done t) (hfits : t₀.Fits done a) :
    t₀.Serves (done ++ [a]) (t.serve r a).2 := by
  obtain ⟨hin, hcompat⟩ := hfits
  have hmem : ∀ P : Access α → Prop, (∃ b ∈ done ++ [a], P b) ↔ (∃ b ∈ done, P b) ∨ P a := by
    intro P
    simp
  cases a with
  | read index port =>
    refine ⟨h.committed, length_set.trans h.readPorts, h.writePorts, h.entries, h.code,
      fun p i => ?_, fun p => ?_, fun i => ?_, fun i v => ?_⟩
    · rw [hmem, ← h.reads]
      refine (congrArg (· = some i) (getD_set (h.readPorts ▸ hin.2.2.2) _ none p)).to_iff.trans ?_
      split_ifs with hp
      · constructor
        · exact fun hi => .inr ⟨hp, Option.some.inj hi⟩
        · rintro (hi | hi)
          · obtain ⟨b, hb, hbi⟩ := (h.reads _ _).mp hi
            rw [(hcompat b hb).reads _ _ _ hbi ⟨hp, rfl⟩]
          · rw [hi.2]
      · simp [Access.Reads, hp]
    · exact (h.writes p).trans ((hmem _).trans (by simp [Access.Writes])).symm
    · exact (h.slots i).trans ((hmem _).trans (by simp [Access.Writes])).symm
    · exact (h.proposals i v).trans ((hmem _).trans (by simp [Access.Writes])).symm
  | write index v port =>
    refine ⟨h.committed, h.readPorts, length_set.trans h.writePorts, length_set.trans h.entries,
      h.code, fun p i => ?_, fun p => ?_, fun i => ?_, fun i w => ?_⟩
    · exact (h.reads p i).trans ((hmem _).trans (by simp [Access.Reads])).symm
    · rw [hmem, ← h.writes]
      refine (congrArg (· = true) (getD_set (h.writePorts ▸ hin.2.2.2) _ false p)).to_iff.trans ?_
      split_ifs with hp <;> simp [Access.Writes, hp]
    · rw [hmem, ← h.slots]
      refine (congrArg (0 ≤ ·) (getD_set (h.entries ▸ hin.2.1) _ (-1) i)).to_iff.trans ?_
      split_ifs with hi <;> simp [Access.Writes, hi]
    · rw [hmem, ← h.proposals]
      refine mem_append.trans ?_
      simp [Access.Writes, eq_comm]

/-- What a request of an epoch that does not fail returns. -/
def answer (t : TrackedArray α) : Access α → Option α
  | .read index _ => some (t.committed.getD index.toNat default)
  | .write _ _ _ => none

theorem run_failed (h : t.runtimeFailureCode ≠ "") :
    (run r requests t).2.runtimeFailureCode ≠ "" := by
  induction requests generalizing t with
  | nil => exact h
  | cons a requests ih =>
    refine ih ?_
    obtain ⟨code, registered, hcode, heq⟩ | ⟨-, heq⟩ := access_cases (r := r) t a
    · rw [heq]
      exact failure_ne hcode
    · rw [heq]
      cases a <;> exact h

/-- The epoch serves what it can, or it fails. -/
theorem Serves.run (hr : r.accepts = true) (requests : List (Access α)) (h : t₀.Serves done t)
    (hlegal : t₀.Legal done) :
    t₀.Legal (done ++ requests) ∧ t₀.Serves (done ++ requests) (run r requests t).2 ∧
        (TrackedArray.run r requests t).1 = requests.map t₀.answer ∨
      ¬ t₀.Legal (done ++ requests) ∧ (TrackedArray.run r requests t).2.runtimeFailureCode ≠ "" := by
  induction requests generalizing done t with
  | nil => exact .inl ⟨by simpa using hlegal, by simpa [TrackedArray.run] using h, rfl⟩
  | cons a requests ih =>
    rw [append_cons]
    have hnext : t₀.Legal (done ++ [a]) ↔ t₀.Fits done a := by
      unfold Legal Fits at *
      grind
    obtain ⟨code, registered, hcode, heq⟩ | ⟨hnone, heq⟩ := access_cases (r := r) t a
    · refine .inr ⟨fun hall => ?_, run_failed requests ?_⟩
      · have hfits := hnext.mp ⟨fun b hb => hall.1 b (mem_append_left _ hb),
          (pairwise_append.mp hall.2).1⟩
        rw [(h.failure_iff hr).mpr hfits] at hcode
        exact absurd hcode (by simp)
      · rw [heq]
        exact failure_ne hcode
    · have hfits := (h.failure_iff hr).mp hnone
      have hanswer : (t.access r a).1 = t₀.answer a := by
        rw [heq]
        cases a
        · simp [TrackedArray.serve, answer, h.committed]
        · rfl
      have hserves := h.serve (r := r) hfits
      rw [← heq] at hserves
      refine (ih hserves (hnext.mpr hfits)).imp_left fun ⟨hl, hs, ha⟩ => ⟨hl, hs, ?_⟩
      exact congrArg₂ cons hanswer ha

theorem run_committed : (TrackedArray.run r requests t).2.committed = t.committed := by
  induction requests generalizing t with
  | nil => rfl
  | cons a requests ih =>
    refine ih.trans ?_
    obtain ⟨code, registered, -, heq⟩ | ⟨-, heq⟩ := access_cases (r := r) t a
    · rw [heq]
    · rw [heq]
      cases a <;> rfl

/-- The verdict, the array and the answers of an epoch, for requests in any order. -/
theorem portDiscipline (t : TrackedArray α) (requests : List (Access α)) (hr : r.accepts = true)
    (hidle : t.Idle) (hcode : t.runtimeFailureCode = "") :
    ((run r requests t).2.runtimeFailureCode ≠ "" ↔ ¬ t.Legal requests) ∧
    (¬ t.Legal requests → (run r requests t).2.doXfer.committed = t.committed) ∧
    (t.Legal requests → (run r requests t).1 = requests.map t.answer ∧ ∀ i,
      (∀ a ∈ requests, ∀ p v, a.Writes p i v →
        (run r requests t).2.doXfer.committed[i]? = some v) ∧
      ((∀ a ∈ requests, ∀ p v, ¬ a.Writes p i v) →
        (run r requests t).2.doXfer.committed[i]? = t.committed[i]?)) ∧
    (run r requests t).2.doXfer.Idle ∧
    ∀ requests', requests ~ requests' →
      ((run r requests' t).2.runtimeFailureCode = "" ↔
        (run r requests t).2.runtimeFailureCode = "") ∧
      (run r requests' t).2.doXfer.committed = (run r requests t).2.doXfer.committed := by
  have hrun := fun requests =>
    (hidle.serves hcode).run hr requests ⟨by simp, Pairwise.nil⟩
  simp only [nil_append] at hrun
  have hverdict : ∀ requests,
      (run r requests t).2.runtimeFailureCode ≠ "" ↔ ¬ t.Legal requests := by
    intro requests
    rcases hrun requests with ⟨hlegal, hserves, -⟩ | ⟨hlegal, hfailed⟩
    · simp [hlegal, hserves.code]
    · simp [hlegal, hfailed]
  have hfailed : ∀ requests, ¬ t.Legal requests →
      (run r requests t).2.doXfer.committed = t.committed := by
    intro requests hlegal
    rw [← run_committed (r := r) (t := t) requests]
    exact if_neg ((hverdict requests).mpr hlegal)
  have hlegal : ∀ requests, t.Legal requests →
      t.Serves requests (run r requests t).2 ∧ (run r requests t).1 = requests.map t.answer :=
    fun requests h => ((hrun requests).resolve_right fun hno => hno.1 h).2
  refine ⟨hverdict requests, hfailed requests, fun h => ⟨(hlegal requests h).2,
    (hlegal requests h).1.getElem?_doXfer h⟩, (hidle.covered.run requests).doXfer,
    fun requests' hperm => ⟨?_, ?_⟩⟩
  · exact not_iff_not.mp ((hverdict requests').trans
      ((not_congr (legal_perm hperm)).symm.trans (hverdict requests).symm))
  · by_cases h : t.Legal requests
    · have h' := (legal_perm hperm).mp h
      refine ext_getElem? fun i => ?_
      have hi := (hlegal requests h).1.getElem?_doXfer h i
      have hi' := (hlegal requests' h').1.getElem?_doXfer h' i
      by_cases hwritten : ∃ a ∈ requests, ∃ p v, a.Writes p i v
      · obtain ⟨a, ha, p, v, hv⟩ := hwritten
        rw [hi.1 a ha p v hv, hi'.1 a (hperm.mem_iff.mp ha) p v hv]
      · simp only [not_exists, not_and] at hwritten
        rw [hi.2 hwritten, hi'.2 fun a ha => hwritten a (hperm.mem_iff.mpr ha)]
    · rw [hfailed requests h, hfailed requests' (mt (legal_perm hperm).mpr h)]

/-- One cell that is read and written. -/
theorem portDiscipline_cell :
    (run ⟨⟨0, 0⟩, true⟩ [Access.write 0 7 0, Access.read 0 0]
      ⟨⟨⟨[], ""⟩, [5], [none], [false], none⟩, [-1], [], []⟩).2.doXfer.Idle :=
  (portDiscipline _ [Access.write 0 7 0, Access.read 0 0] rfl
    ⟨fun p => by cases p <;> rfl, fun p => by cases p <;> rfl, fun i => by cases i <;> rfl, rfl, rfl⟩
    rfl).2.2.2.1

end TrackedArray

end AgenticCircuit.Gfsim
