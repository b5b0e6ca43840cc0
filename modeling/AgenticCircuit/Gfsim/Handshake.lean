import AgenticCircuit.Gfsim.Components

/-! # The ready-valid handshake

`ReadyValid` of `gfsim/components.h` with the operations of its two sides.  The producer proposes
offers, the consumer readiness, in any order and any number of times in an epoch; they meet at
`doXfer`.

* **`Run`** is a run of calls with what they show: the offers that were accepted, and the values
  that were transferred.
* **`Run.faithful`**: an accepted offer is transferred exactly once, in the order of acceptance,
  and keeps its value until then. -/

namespace AgenticCircuit.Gfsim

open Option

/-- The whole state of the object. -/
structure ReadyValidLink (α : Type) extends ReadyValid α where
  lastTransferred : α
  transferCount : UInt64 := 0
  lastUpdate : Epoch := ⟨0, 0⟩
deriving DecidableEq

namespace ReadyValidLink

variable {α : Type}

def proposeOffer (v : ReadyValidLink α) (data : α) : Bool × ReadyValidLink α :=
  if v.offer.isSome || v.offerProposal.isSome then (false, v)
  else (true, { v with offerProposal := some data })

def proposeReady (v : ReadyValidLink α) (ready : Bool) : ReadyValidLink α :=
  { v with readyProposal := some ready }

/-- The proposals become the committed readiness and offer. -/
def commit (v : ReadyValidLink α) : ReadyValidLink α :=
  { v with
    ready := v.readyProposal.getD v.ready
    offer := if v.offerProposal.isSome then v.offerProposal else v.offer
    readyProposal := none
    offerProposal := none }

/-- A committed offer meets readiness. -/
def transfer (v : ReadyValidLink α) : ReadyValidLink α :=
  match v.offer with
  | some data =>
    if v.ready then
      { v with
        lastTransferred := data
        offer := none
        transferCount := v.transferCount + 1 }
    else v
  | none => v

def doXfer (v : ReadyValidLink α) (epoch : Epoch) : ReadyValidLink α :=
  let changed := v.hasPendingCommit || (v.offer.isSome && v.ready)
  let v := v.commit.transfer
  { v with lastUpdate := if changed then epoch else v.lastUpdate }

def validate (v : ReadyValidLink α) : Bool := !(v.offer.isSome && v.ready)

/-- The accepted offers that are not transferred yet. -/
def retained (v : ReadyValidLink α) : List α := v.offer.toList ++ v.offerProposal.toList

/-- A call of one of the two sides, or of the scheduler. -/
inductive Call (α : Type) where
  | proposeOffer (data : α)
  | proposeReady (ready : Bool)
  | doXfer (epoch : Epoch)

def step (v : ReadyValidLink α) : Call α → ReadyValidLink α
  | .proposeOffer data => (v.proposeOffer data).2
  | .proposeReady ready => v.proposeReady ready
  | .doXfer epoch => v.doXfer epoch

/-- The offer a call accepts. -/
def acceptedBy (v : ReadyValidLink α) : Call α → List α
  | .proposeOffer data => if (v.proposeOffer data).1 then [data] else []
  | .proposeReady _ | .doXfer _ => []

/-- The value a call transfers, seen in the statistics of the object. -/
def transferredBy (v : ReadyValidLink α) (call : Call α) : List α :=
  if (v.step call).transferCount = v.transferCount then [] else [(v.step call).lastTransferred]

/-- A run of calls from the constructed object, with the offers accepted and the values
transferred in it. -/
inductive Run (initial : α) : List α → List α → ReadyValidLink α → Prop
  | start : Run initial [] [] { lastTransferred := initial }
  | call {accepted transferred : List α} {v : ReadyValidLink α} (call : Call α) :
      Run initial accepted transferred v →
      Run initial (accepted ++ v.acceptedBy call) (transferred ++ v.transferredBy call)
        (v.step call)

/-- A proposal waits only where no offer does, and an offer waits only for readiness. -/
structure Invariant (v : ReadyValidLink α) : Prop where
  proposal_alone : v.offer.isSome = true → v.offerProposal = none
  valid : v.validate = true

/-- The accepted offer that will be committed at the next `doXfer`, or is committed already. -/
def next (v : ReadyValidLink α) : Option α :=
  if v.offerProposal.isSome then v.offerProposal else v.offer

variable {v : ReadyValidLink α}

theorem Invariant.retained_eq (h : v.Invariant) : v.retained = v.next.toList := by
  unfold retained next
  cases hproposal : v.offerProposal with
  | none => simp
  | some data =>
    have hoffer : v.offer = none := by
      by_contra hne
      have hnone := h.proposal_alone (isSome_iff_ne_none.mpr hne)
      simp [hproposal] at hnone
    simp [hoffer]

theorem Invariant.not_ready (h : v.Invariant) (hoffer : v.offer.isSome = true) :
    v.ready = false := by
  have hvalid := h.valid
  simpa [validate, hoffer] using hvalid

/-- What `doXfer` does: a ready consumer receives the next offer, and else it stays committed. -/
structure Xfer (v v' : ReadyValidLink α) : Prop where
  ready : v'.ready = v.readyProposal.getD v.ready
  offerProposal : v'.offerProposal = none
  outcome : (v'.ready = true ∧ v'.offer = none ∧ v.next = some v'.lastTransferred ∧
      v'.transferCount = v.transferCount + 1) ∨
    ((v'.ready = true → v.next = none) ∧ v'.offer = v.next ∧
      v'.transferCount = v.transferCount)

theorem doXfer_xfer (v : ReadyValidLink α) (epoch : Epoch) : Xfer v (v.doXfer epoch) := by
  have hnext : v.commit.offer = v.next := rfl
  have hready : v.commit.ready = v.readyProposal.getD v.ready := rfl
  unfold doXfer transfer
  cases hoffer : v.commit.offer with
  | none =>
    rw [hoffer] at hnext
    exact ⟨rfl, rfl, Or.inr ⟨fun _ => hnext.symm, hoffer.trans hnext, rfl⟩⟩
  | some data =>
    rw [hoffer] at hnext
    by_cases h : v.commit.ready = true
    · simp only [h]
      exact ⟨h.symm.trans hready, rfl, Or.inl ⟨rfl, rfl, hnext.symm, rfl⟩⟩
    · simp only [h]
      exact ⟨rfl, rfl, Or.inr ⟨fun h' => absurd h' h, hoffer.trans hnext, rfl⟩⟩

theorem add_one_ne (count : UInt64) : count + 1 ≠ count := by
  intro h
  have h := congrArg UInt64.toNat h
  rw [UInt64.toNat_add] at h
  have hlt := count.toNat_lt
  have hone : (1 : UInt64).toNat = 1 := rfl
  omega

theorem Invariant.kept (h : v.Invariant) (call : Call α) : (v.step call).Invariant ∧
      v.retained ++ v.acceptedBy call = v.transferredBy call ++ (v.step call).retained ∧
      (v.step call).transferCount =
        v.transferCount + UInt64.ofNat (v.transferredBy call).length := by
  cases call with
  | proposeOffer data =>
    by_cases hbusy : (v.offer.isSome || v.offerProposal.isSome) = true
    · have hstep : v.proposeOffer data = (false, v) := if_pos hbusy
      simp [step, acceptedBy, transferredBy, hstep, h]
    · have hstep : v.proposeOffer data = (true, { v with offerProposal := some data }) :=
        if_neg hbusy
      simp only [Bool.or_eq_true, not_or, Bool.not_eq_true, isSome_eq_false_iff,
        isNone_iff_eq_none] at hbusy
      refine ⟨⟨?_, ?_⟩, ?_, ?_⟩
      · simp [step, hstep, hbusy.1]
      · simpa [step, hstep, validate] using h.valid
      · simp [step, hstep, acceptedBy, transferredBy, retained, hbusy.2]
      · simp [step, hstep, transferredBy]
  | proposeReady ready =>
    refine ⟨⟨h.proposal_alone, h.valid⟩, ?_, ?_⟩
    · simp [step, acceptedBy, transferredBy, proposeReady, retained]
    · simp [step, transferredBy, proposeReady]
  | doXfer epoch =>
    have hxfer := doXfer_xfer v epoch
    rw [h.retained_eq]
    rcases hxfer.outcome with ⟨hready, hoffer, hnext, hcount⟩ | ⟨hready, hoffer, hcount⟩
    · have htransferred : v.transferredBy (.doXfer epoch) = [(v.doXfer epoch).lastTransferred] := by
        refine if_neg ?_
        show ¬ (v.doXfer epoch).transferCount = v.transferCount
        rw [hcount]
        exact add_one_ne _
      refine ⟨⟨?_, ?_⟩, ?_, ?_⟩
      · simp [step, hoffer]
      · simp [step, validate, hoffer]
      · rw [htransferred, hnext]
        simp [step, acceptedBy, retained, hoffer, hxfer.offerProposal]
      · rw [htransferred]
        exact hcount
    · have htransferred : v.transferredBy (.doXfer epoch) = [] := if_pos hcount
      refine ⟨⟨?_, ?_⟩, ?_, ?_⟩
      · exact fun _ => hxfer.offerProposal
      · show (!((v.doXfer epoch).offer.isSome && (v.doXfer epoch).ready)) = true
        cases hr : (v.doXfer epoch).ready with
        | false => simp
        | true => simp [hoffer, hready hr]
      · simp [htransferred, step, acceptedBy, retained, hoffer, hxfer.offerProposal]
      · rw [htransferred]
        simpa [step] using hcount

/-! ### Runs -/

variable {initial : α} {accepted transferred : List α}

theorem Run.conserved (h : Run initial accepted transferred v) :
    v.Invariant ∧ accepted = transferred ++ v.retained ∧
      v.transferCount = UInt64.ofNat transferred.length := by
  induction h with
  | start => exact ⟨⟨by simp, rfl⟩, rfl, rfl⟩
  | @call accepted transferred v call _ ih =>
    obtain ⟨hinvariant, haccepted, hcount⟩ := ih
    obtain ⟨hnext, hretained, hstep⟩ := hinvariant.kept call
    refine ⟨hnext, ?_, ?_⟩
    · rw [haccepted, List.append_assoc, hretained, List.append_assoc]
    · rw [hstep, hcount, List.length_append, UInt64.ofNat_add]

/-- What the handshake promises in a state of a run. -/
structure Faithful (accepted transferred : List α) (v : ReadyValidLink α) : Prop where
  /-- The accepted offers are transferred in their order, the last one may be outstanding. -/
  conserved : accepted = transferred ++ v.retained
  transferCount_eq : v.transferCount = UInt64.ofNat
    (accepted.length - if v.offer.isSome || v.offerProposal.isSome then 1 else 0)
  /-- A committed offer stays, until a `doXfer` transfers its value. -/
  stable : ∀ call data, v.offer = some data → (v.step call).offer = some data ∨
    ((∃ epoch, call = .doXfer epoch) ∧ v.transferredBy call = [data])
  valid : ∀ epoch, (v.doXfer epoch).validate = true
  /-- Without a pending commit `doXfer` changes nothing. -/
  announced : ∀ epoch, v.hasPendingCommit = false → v.doXfer epoch = v
  rejected : ∀ data, (v.proposeOffer data).1 = false → (v.proposeOffer data).2 = v

theorem Invariant.stable (h : v.Invariant) {data : α} (hoffer : v.offer = some data) :
    ∀ call, (v.step call).offer = some data ∨
      ((∃ epoch, call = .doXfer epoch) ∧ v.transferredBy call = [data])
  | .proposeOffer value => by
    have hstep : v.proposeOffer value = (false, v) := if_pos (by simp [hoffer])
    exact Or.inl (by simpa [step, hstep] using hoffer)
  | .proposeReady ready => Or.inl hoffer
  | .doXfer epoch => by
    have hnext : v.next = some data := by
      simp [next, h.proposal_alone (hoffer ▸ rfl), hoffer]
    have hxfer := doXfer_xfer v epoch
    rcases hxfer.outcome with ⟨-, -, hlast, hcount⟩ | ⟨-, hkeep, -⟩
    · refine Or.inr ⟨⟨epoch, rfl⟩, ?_⟩
      have hne : (v.doXfer epoch).transferCount ≠ v.transferCount := by
        rw [hcount]
        exact add_one_ne _
      have hdata : (v.doXfer epoch).lastTransferred = data :=
        some.inj (hlast.symm.trans hnext)
      exact (if_neg hne).trans (by rw [← hdata]; rfl)
    · exact Or.inl (hkeep.trans hnext)

theorem Invariant.announced (h : v.Invariant) (epoch : Epoch)
    (hpending : v.hasPendingCommit = false) : v.doXfer epoch = v := by
  rw [ReadyValid.hasPendingCommit, Bool.or_eq_false_iff, isSome_eq_false_iff,
    isSome_eq_false_iff, isNone_iff_eq_none, isNone_iff_eq_none] at hpending
  obtain ⟨hproposal, hready⟩ := hpending
  have hcommit : v.commit = v := by
    obtain ⟨⟨ready, offer, offerProposal, readyProposal, code⟩, last, count, update⟩ := v
    subst hproposal hready
    rfl
  have htransfer : v.transfer = v := by
    unfold transfer
    cases hoffer : v.offer with
    | none => rfl
    | some data => simp [h.not_ready (hoffer ▸ rfl)]
  have hchanged : (v.hasPendingCommit || (v.offer.isSome && v.ready)) = false := by
    simpa [ReadyValid.hasPendingCommit, hproposal, hready] using h.not_ready
  unfold doXfer
  simp only [hchanged, hcommit, htransfer]
  rfl

/-- Every run keeps the promises of the handshake. -/
theorem Run.faithful (h : Run initial accepted transferred v) :
    Faithful accepted transferred v := by
  obtain ⟨hinvariant, haccepted, hcount⟩ := h.conserved
  refine ⟨haccepted, ?_, fun call data hoffer => hinvariant.stable hoffer call,
    fun epoch => (hinvariant.kept (.doXfer epoch)).1.valid,
    fun epoch => hinvariant.announced epoch, fun data hrejected => ?_⟩
  · rw [hcount, haccepted, hinvariant.retained_eq, List.length_append]
    congr 1
    unfold next
    cases v.offer <;> cases v.offerProposal <;> simp
  · unfold proposeOffer at *
    split at hrejected
    · rename_i hbusy
      rw [if_pos hbusy]
    · cases hrejected

/-- Two offers, the second refused while the first waits. -/
theorem faithful_refused : Faithful [7] [7]
    (((((({ lastTransferred := 0 } : ReadyValidLink ℕ).step (.proposeOffer 7)).step
      (.proposeOffer 8)).step (.doXfer ⟨0, 0⟩)).step (.proposeReady true)).step
      (.doXfer ⟨1, 0⟩)) :=
  have hrun : Run 0 [7] [7] _ := .call (.doXfer ⟨1, 0⟩) (.call (.proposeReady true)
    (.call (.doXfer ⟨0, 0⟩) (.call (.proposeOffer 8) (.call (.proposeOffer 7) .start))))
  hrun.faithful

end ReadyValidLink

end AgenticCircuit.Gfsim
