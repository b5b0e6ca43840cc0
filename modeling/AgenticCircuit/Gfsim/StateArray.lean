import AgenticCircuit.Gfsim.Components

/-! # State arrays

`StateArray<T>` of `queue.h`: indexed state with a committed snapshot, read and write ports that
serve one address in each epoch, and writes that are proposals until the Xfer.

* **Accesses** register the array for the commit, check the index and the port, and report a
  failure by overwriting the failure code of the array.
* **Reading is idempotent.**  A read that is repeated in the epoch, with the same index and
  port, finds the array as it leaves it (`Settled`, `settled_read`).
* **Settled reads stay settled** under every further access of the epoch that does not put one
  failure code in the place of another (`Settled.of_grows`). -/

namespace AgenticCircuit.Gfsim

open List

/-- What the array knows of the system: the current epoch, and whether
`registerCommitParticipant` accepts the array in it. -/
structure Registration where
  epoch : Epoch
  accepts : Bool
deriving DecidableEq

/-- The ports and the committed snapshot.  The lists of touched ports only tell `doXfer` which
ports to reset, and the slot of an entry whether it has a proposal. -/
structure StateMemory (α : Type) extends StateArray α where
  committed : List α
  readPortAddress : List (Option ℕ)
  writePortUsed : List Bool
  registeredEpoch : Option Epoch := none
deriving DecidableEq

namespace StateMemory

variable {α : Type}

def ofSizes [Inhabited α] (entries readPorts writePorts : ℕ) : StateMemory α where
  committed := replicate entries default
  readPortAddress := replicate readPorts none
  writePortUsed := replicate writePorts false

def setRuntimeFailureCode (code : String) (m : StateMemory α) : StateMemory α :=
  { m with runtimeFailureCode := code }

/-- `ensureRegistered` answers true. -/
def isRegistered (r : Registration) (m : StateMemory α) : Bool :=
  m.registeredEpoch == some r.epoch || r.accepts

/-- The array after `ensureRegistered` answered true. -/
def register (r : Registration) (m : StateMemory α) : StateMemory α :=
  { m with registeredEpoch := some r.epoch }

/-- The failure code with which a read is refused. -/
def readFailure (r : Registration) (index port : ℤ) (m : StateMemory α) : Option String :=
  if !m.isRegistered r then some "state_array_participant_registration_failed"
  else if index < 0 ∨ m.committed.length ≤ index.toNat then
    some "state_array_index_out_of_bounds"
  else if port < 0 ∨ m.readPortAddress.length ≤ port.toNat then
    some "state_array_read_port_out_of_bounds"
  else match m.readPortAddress.getD port.toNat none with
    | some address =>
      if address = index.toNat then none else some "state_array_read_port_reused"
    | none => none

/-- The failure code with which an enabled write is refused. -/
def writeFailure (r : Registration) (index port : ℤ) (m : StateMemory α) : Option String :=
  if !m.isRegistered r then some "state_array_participant_registration_failed"
  else if index < 0 ∨ m.committed.length ≤ index.toNat then
    some "state_array_index_out_of_bounds"
  else if port < 0 ∨ m.writePortUsed.length ≤ port.toNat then
    some "state_array_write_port_out_of_bounds"
  else if m.writePortUsed.getD port.toNat false then some "state_array_write_port_reused"
  else if m.proposals.any (·.1 == index.toNat) then some "state_array_write_conflict"
  else none

/-- A refused access: the array is registered if it can be. -/
def refuse (r : Registration) (code : String) (m : StateMemory α) : StateMemory α :=
  (if m.isRegistered r then m.register r else m).setRuntimeFailureCode code

/-- `read`: the value, and the array after it. -/
def read [Inhabited α] (r : Registration) (index port : ℤ) (m : StateMemory α) :
    α × StateMemory α :=
  match m.readFailure r index port with
  | some code => (default, m.refuse r code)
  | none =>
    (m.committed.getD index.toNat default,
      { m.register r with
        readPortAddress := m.readPortAddress.set port.toNat (some index.toNat) })

def proposeWrite (r : Registration) (index : ℤ) (value : α) (enable : Bool) (port : ℤ)
    (m : StateMemory α) : StateMemory α :=
  if !enable then m
  else match m.writeFailure r index port with
    | some code => m.refuse r code
    | none =>
      { m.register r with
        writePortUsed := m.writePortUsed.set port.toNat true
        proposals := m.proposals ++ [(index.toNat, value)] }

/-- `doXfer`: the proposals are committed unless the array reports a failure; the ports are
free again. -/
def doXfer (m : StateMemory α) : StateMemory α :=
  { m with
    committed :=
      if m.runtimeFailureCode = "" then
        m.proposals.foldl (fun committed proposal => committed.set proposal.1 proposal.2)
          m.committed
      else m.committed
    proposals := []
    readPortAddress := m.readPortAddress.map fun _ => none
    writePortUsed := m.writePortUsed.map fun _ => false
    registeredEpoch := none }

@[simp] theorem proposeWrite_false (r : Registration) (index : ℤ) (value : α) (port : ℤ)
    (m : StateMemory α) : m.proposeWrite r index value false port = m := rfl

/-! ### Accesses of one epoch -/

/-- No failure code is put in the place of another. -/
def Steady (m m' : StateMemory α) : Prop :=
  m.runtimeFailureCode ≠ "" → m'.runtimeFailureCode = m.runtimeFailureCode

instance (m m' : StateMemory α) : Decidable (Steady m m') :=
  inferInstanceAs (Decidable (_ → _))

/-- What every access of the epoch keeps. -/
structure Grows (r : Registration) (m m' : StateMemory α) : Prop where
  committed : m'.committed = m.committed
  ports : m'.readPortAddress.length = m.readPortAddress.length
  address : ∀ port address : ℕ, m.readPortAddress[port]? = some (some address) →
    m'.readPortAddress[port]? = some (some address)
  registered : m.registeredEpoch = some r.epoch → m'.registeredEpoch = some r.epoch
  registrable : m'.isRegistered r = m.isRegistered r

variable {r : Registration} {m m' : StateMemory α} {index port : ℤ} {code : String}

theorem isRegistered_of_registered (h : m.registeredEpoch = some r.epoch) :
    m.isRegistered r = true := by
  simp [isRegistered, h]

theorem register_of_registered (h : m.registeredEpoch = some r.epoch) : m.register r = m := by
  unfold register
  rw [← h]

theorem Grows.refl (m : StateMemory α) : Grows r m m :=
  ⟨rfl, rfl, fun _ _ h => h, id, rfl⟩

theorem grows_register (h : m.isRegistered r = true) : Grows r m (m.register r) where
  committed := rfl
  ports := rfl
  address _ _ h := h
  registered _ := rfl
  registrable := (isRegistered_of_registered rfl).trans h.symm

theorem Grows.setRuntimeFailureCode (h : Grows r m m') (code : String) :
    Grows r m (m'.setRuntimeFailureCode code) :=
  ⟨h.committed, h.ports, h.address, h.registered, h.registrable⟩

theorem grows_refuse (code : String) : Grows r m (m.refuse r code) := by
  unfold refuse
  split
  · next h => exact (grows_register h).setRuntimeFailureCode code
  · exact (Grows.refl m).setRuntimeFailureCode code

theorem readFailure_eq_none (h : m.readFailure r index port = none) :
    m.isRegistered r = true ∧ (0 ≤ index ∧ index.toNat < m.committed.length) ∧
      (0 ≤ port ∧ port.toNat < m.readPortAddress.length) ∧
      ∀ address, m.readPortAddress[port.toNat]? = some (some address) →
        address = index.toNat := by
  unfold readFailure at h
  split at h
  · cases h
  · next hr =>
    split at h
    · cases h
    · next hi =>
      split at h
      · cases h
      · next hp =>
        refine ⟨by simpa using hr, by omega, by omega, ?_⟩
        intro address ha
        rw [getD_eq_getElem?_getD, ha] at h
        simpa using h

theorem grows_read [Inhabited α] : Grows r m (m.read r index port).2 := by
  unfold read
  split
  · exact grows_refuse _
  · next h =>
    obtain ⟨hr, -, -, ha⟩ := readFailure_eq_none h
    refine ⟨rfl, by simp, ?_, fun _ => rfl, (isRegistered_of_registered rfl).trans hr.symm⟩
    intro q address hq
    -- The port that is served has this address already, if it has one.
    by_cases hqp : port.toNat = q
    · subst hqp
      obtain rfl := ha address hq
      have hlt := (List.getElem?_eq_some_iff.mp hq).1
      simp [getElem?_set_self hlt]
    · simpa [getElem?_set_ne hqp] using hq

theorem grows_proposeWrite {value : α} {enable : Bool} :
    Grows r m (m.proposeWrite r index value enable port) := by
  unfold proposeWrite
  split
  · exact Grows.refl m
  · split
    · exact grows_refuse _
    · next h =>
      have hr : m.isRegistered r = true := by
        by_contra hr
        simp [writeFailure, Bool.not_eq_true _ ▸ hr] at h
      exact ⟨rfl, rfl, fun _ _ h => h, fun _ => rfl, (isRegistered_of_registered rfl).trans hr.symm⟩

/-! ### Settled reads -/

theorem refuse_eq_self (hcode : m.runtimeFailureCode = code)
    (h : m.isRegistered r = true → m.registeredEpoch = some r.epoch) : m.refuse r code = m := by
  unfold refuse
  split
  · next hr =>
    rw [register_of_registered (h hr), ← hcode]
    rfl
  · rw [← hcode]
    rfl

theorem refuse_registeredEpoch (h : m.isRegistered r = true) :
    (m.refuse r code).registeredEpoch = some r.epoch := by
  simp [refuse, h, register, setRuntimeFailureCode]

/-- The verdict on a read survives what the accesses of the epoch keep, except that a port
without an address may get one. -/
theorem Grows.readFailure_eq (h : Grows r m m')
    (haddress : m.isRegistered r = true → 0 ≤ port → port.toNat < m.readPortAddress.length →
      m.readFailure r index port = none →
        m'.readPortAddress[port.toNat]? = some (some index.toNat)) :
    m'.readFailure r index port = m.readFailure r index port := by
  unfold readFailure at haddress ⊢
  rw [h.registrable, h.committed, h.ports]
  split
  · rfl
  · next hr =>
    split
    · rfl
    · next hi =>
      split
      · rfl
      · next hp =>
        simp only [hr, hi, hp] at haddress
        have hlt : port.toNat < m.readPortAddress.length := by omega
        rw [getD_eq_getElem?_getD, getD_eq_getElem?_getD]
        rw [getD_eq_getElem?_getD] at haddress
        have hr' : m.isRegistered r = true := by simpa using hr
        cases ha : m.readPortAddress[port.toNat]? with
        | none => simp at ha; omega
        | some slot =>
          cases slot with
          | some address => rw [h.address _ _ ha]
          | none =>
            rw [ha] at haddress
            rw [haddress hr' (by omega) hlt rfl]
            simp

/-- Reading once more gives this value and changes nothing. -/
def Settled [Inhabited α] (r : Registration) (index port : ℤ) (value : α)
    (m : StateMemory α) : Prop :=
  m.read r index port = (value, m)

variable [Inhabited α] {value : α}

theorem settled_read : Settled r index port (m.read r index port).1 (m.read r index port).2 := by
  have hg : Grows r m (m.read r index port).2 := grows_read
  unfold Settled
  unfold read at hg ⊢
  cases hf : m.readFailure r index port with
  | some code =>
    rw [hf] at hg
    rw [hg.readFailure_eq fun _ _ _ h => (by simp [hf] at h), hf]
    dsimp only
    rw [refuse_eq_self (by unfold refuse; split <;> rfl)]
    intro hr
    exact refuse_registeredEpoch (hg.registrable ▸ hr)
  | none =>
    rw [hf] at hg
    rw [hg.readFailure_eq fun _ _ hp _ => by simp [getElem?_set_self hp], hf]
    simp [register]

theorem Settled.of_grows (h : Settled r index port value m) (hg : Grows r m m')
    (hs : Steady m m') : Settled r index port value m' := by
  unfold Settled at h ⊢
  unfold read at h ⊢
  cases hf : m.readFailure r index port with
  | some code =>
    rw [hf] at h
    obtain ⟨rfl, hm⟩ := Prod.mk.inj h
    have hcode : m.runtimeFailureCode = code := by
      rw [← hm]
      unfold refuse
      split <;> rfl
    have hne : code ≠ "" := by
      rintro rfl
      unfold readFailure at hf
      grind
    rw [hg.readFailure_eq fun _ _ _ h => (by simp [hf] at h), hf]
    dsimp only
    rw [refuse_eq_self ((hs (hcode ▸ hne)).trans hcode)]
    intro hr
    apply hg.registered
    rw [← hm]
    exact refuse_registeredEpoch (hg.registrable ▸ hr)
  | none =>
    rw [hf] at h
    obtain ⟨hv, hm⟩ := Prod.mk.inj h
    obtain ⟨-, -, ⟨-, hp⟩, -⟩ := readFailure_eq_none hf
    have haddress : m.readPortAddress[port.toNat]? = some (some index.toNat) := by
      rw [← hm]
      simp [getElem?_set_self hp]
    have hregistered : m.registeredEpoch = some r.epoch := by
      rw [← hm]
      rfl
    have haddress' := hg.address _ _ haddress
    rw [hg.readFailure_eq fun _ _ _ _ => haddress', hf]
    dsimp only
    rw [register_of_registered (hg.registered hregistered), hg.committed, hv]
    have hset : m'.readPortAddress.set port.toNat (some index.toNat) = m'.readPortAddress := by
      apply ext_getElem?
      intro q
      by_cases hq : port.toNat = q
      · subst hq
        rw [getElem?_set_self (by rw [hg.ports]; exact hp), haddress']
      · rw [getElem?_set_ne hq]
    rw [hset, ← hg.committed]

end StateMemory

end AgenticCircuit.Gfsim
