import AgenticCircuit.Gfsim.Components
import Mathlib.Data.Finset.Card

/-! # The trace cursor

`TraceSource` of `gfsim/trace.h` with its operations: `doWork` offers the record at the cursor,
the consumer proposes to accept it, and `doXfer` moves the cursor; dependencies are completed from
outside at any time.

* **`TraceRecord`** is a record with what the decoder reads beside the scheduling fields.  The
  decoder is a parameter.
* **`CursorLog`** is what the calls since the last reset have shown: the accepted offers and the
  epochs of `doWork`.
* **`Run.accepts_once`**: the accepted offers are the decoded prefix of the document before the
  cursor. -/

namespace AgenticCircuit.Gfsim

open Option List Or

/-- A record of the document; `content` is what only the decoder reads. -/
structure TraceRecord (ρ : Type) extends PtoTraceRecord where
  content : ρ

/-- The whole state of the object. -/
structure TraceCursor (ρ α : Type) where
  records : List (TraceRecord ρ) := []
  nextRecordIndex : ℕ := 0
  lastCommittedSequenceId : Option ℕ := none
  endOfTrace : Bool := true
  committedOffer : Option α := none
  offerProposal : Option α := none
  committedSequenceId : Option ℕ := none
  proposedSequenceId : Option ℕ := none
  acceptProposal : Bool := false
  issueWakeScheduled : Bool := false
  documentLoaded : Bool := false
  issuedSequences : Finset ℕ := ∅
  completedSequences : Finset ℕ := ∅
  /-- Whether a system is bound that can schedule events. -/
  system : Bool := false
  runtimeFailureCode : String := ""
  lastUpdate : Epoch := ⟨0, 0⟩

namespace TraceCursor

variable {ρ α : Type} (decode : TraceRecord ρ → Option α) (v : TraceCursor ρ α)

/-- The constructor that takes a document. -/
def construct (records : List (TraceRecord ρ)) (system : Bool) : TraceCursor ρ α :=
  { records := records, documentLoaded := true, endOfTrace := records.isEmpty, system := system }

def loadDocument (records : List (TraceRecord ρ)) : Bool × TraceCursor ρ α :=
  if v.documentLoaded || v.committedOffer.isSome || v.offerProposal.isSome || v.acceptProposal ||
      decide (v.nextRecordIndex ≠ 0) || decide (v.issuedSequences ≠ ∅) ||
      decide (v.completedSequences ≠ ∅) then (false, v)
  else (true, { v with
    records := records, documentLoaded := true, endOfTrace := records.isEmpty })

def proposeAccept : Bool × TraceCursor ρ α :=
  if v.committedOffer.isNone || v.acceptProposal then (false, v)
  else (true, { v with acceptProposal := true })

def markDependencyComplete (sequenceId : ℕ) : Bool × TraceCursor ρ α :=
  if sequenceId ∉ v.issuedSequences then (false, v)
  else (true, { v with completedSequences := insert sequenceId v.completedSequences })

/-- `doWork`; `scheduled` is what the system answers if an event for the issue time is scheduled. -/
def doWork (epoch : Epoch) (scheduled : Bool) : TraceCursor ρ α :=
  if v.endOfTrace || v.committedOffer.isSome || v.offerProposal.isSome || v.acceptProposal then v
  else
    match v.records[v.nextRecordIndex]? with
    | none => v
    | some record =>
      if record.issueTime.any fun time => decide (epoch.time < time) then
        if v.system && !v.issueWakeScheduled then
          if !scheduled then { v with runtimeFailureCode := "trace_issue_wake_failed" }
          else { v with issueWakeScheduled := true }
        else v
      else
        let v := { v with issueWakeScheduled := false }
        if record.dependencies.any fun dependency =>
            decide (dependency ∉ v.completedSequences) then v
        else
          match decode record with
          | none => { v with runtimeFailureCode := "trace_decode_failed" }
          | some decoded => { v with
              offerProposal := some decoded
              proposedSequenceId := some record.sequenceId }

/-- An accepted offer moves the cursor. -/
def commitAccept (epoch : Epoch) : TraceCursor ρ α :=
  if !v.acceptProposal then v
  else { v with
    issuedSequences := v.committedSequenceId.elim v.issuedSequences (insert · v.issuedSequences)
    lastCommittedSequenceId := v.committedSequenceId
    nextRecordIndex := v.nextRecordIndex + 1
    endOfTrace := decide (v.nextRecordIndex + 1 = v.records.length)
    committedOffer := none
    committedSequenceId := none
    acceptProposal := false
    lastUpdate := epoch }

/-- A proposed offer is published. -/
def commitOffer : TraceCursor ρ α :=
  if v.offerProposal.isNone then v
  else { v with
    committedOffer := v.offerProposal
    committedSequenceId := v.proposedSequenceId
    offerProposal := none
    proposedSequenceId := none }

def doXfer (epoch : Epoch) : TraceCursor ρ α := (v.commitAccept epoch).commitOffer

def validate : Bool :=
  !(v.committedOffer.isSome && v.offerProposal.isSome) &&
    v.committedOffer.isSome == v.committedSequenceId.isSome &&
    v.offerProposal.isSome == v.proposedSequenceId.isSome &&
    (!v.acceptProposal || v.committedOffer.isSome) &&
    decide (v.nextRecordIndex ≤ v.records.length) &&
    v.endOfTrace == decide (v.nextRecordIndex = v.records.length) &&
    decide (v.issuedSequences.card = v.nextRecordIndex) &&
    v.lastCommittedSequenceId.isSome == decide (v.nextRecordIndex ≠ 0)

def reset : TraceCursor ρ α :=
  { records := v.records, endOfTrace := v.records.isEmpty, documentLoaded := v.documentLoaded
    system := v.system }

/-! ### Runs -/

inductive Call (ρ : Type) where
  | loadDocument (records : List (TraceRecord ρ))
  | proposeAccept
  | markDependencyComplete (sequenceId : ℕ)
  | doWork (epoch : Epoch) (scheduled : Bool)
  | doXfer (epoch : Epoch)
  | reset

def step : Call ρ → TraceCursor ρ α
  | .loadDocument records => (v.loadDocument records).2
  | .proposeAccept => v.proposeAccept.2
  | .markDependencyComplete sequenceId => (v.markDependencyComplete sequenceId).2
  | .doWork epoch scheduled => v.doWork decode epoch scheduled
  | .doXfer epoch => v.doXfer epoch
  | .reset => v.reset

/-- What the calls since the last reset have shown. -/
structure CursorLog (α : Type) where
  /-- The offers that were accepted, with their sequence ids. -/
  accepted : List (ℕ × α) := []
  /-- The epochs in which `doWork` was called. -/
  worked : List Epoch := []

def CursorLog.record (log : CursorLog α) (v : TraceCursor ρ α) : Call ρ → CursorLog α
  | .doXfer _ =>
    if v.acceptProposal then
      { log with
        accepted := log.accepted ++ v.committedSequenceId.toList.zip v.committedOffer.toList }
    else log
  | .doWork epoch _ => { log with worked := log.worked ++ [epoch] }
  | .reset => {}
  | .loadDocument _ | .proposeAccept | .markDependencyComplete _ => log

/-- The sequence ids of the records are distinct. -/
def DistinctIds (records : List (TraceRecord ρ)) : Prop := (records.map (·.sequenceId)).Nodup

/-- A call loads no document but one with distinct sequence ids. -/
def Call.Loads : Call ρ → Prop
  | .loadDocument records => DistinctIds records
  | _ => True

/-- A run of calls from one of the two constructors. -/
inductive Run : CursorLog α → TraceCursor ρ α → Prop
  | empty (system : Bool) : Run {} { system := system }
  | document (records : List (TraceRecord ρ)) (system : Bool) : DistinctIds records →
      Run {} (construct records system)
  | call {log v} (call : Call ρ) : Run log v → call.Loads →
      Run (log.record v call) (v.step decode call)

/-! ### The invariant -/

/-- The record at the cursor may be offered: its issue time has been reached in a call of `doWork`,
and its dependencies are complete. -/
structure Ready (log : CursorLog α) (record : TraceRecord ρ) : Prop where
  issued : ∃ epoch ∈ log.worked, ∀ time ∈ record.issueTime, time ≤ epoch.time
  dependencies : ∀ dependency ∈ record.dependencies, dependency ∈ v.completedSequences

/-- An offer is the decoding of the record at the cursor. -/
def Offers (log : CursorLog α) (offer : Option α) (sequenceId : Option ℕ) : Prop :=
  (offer = none ∧ sequenceId = none) ∨
    ∃ record, v.records[v.nextRecordIndex]? = some record ∧ v.Ready log record ∧
      offer = decode record ∧ (decode record).isSome = true ∧ sequenceId = some record.sequenceId

structure Invariant (log : CursorLog α) : Prop where
  distinct : DistinctIds v.records
  accepted : (log.accepted.map fun offer => (offer.1, some offer.2)) =
    (v.records.take v.nextRecordIndex).map fun record => (record.sequenceId, decode record)
  nextRecordIndex : v.nextRecordIndex ≤ v.records.length
  endOfTrace : v.endOfTrace = decide (v.nextRecordIndex = v.records.length)
  committed : v.Offers decode log v.committedOffer v.committedSequenceId
  proposed : v.Offers decode log v.offerProposal v.proposedSequenceId
  alone : v.committedOffer.isSome = true → v.offerProposal = none
  acceptable : v.acceptProposal = true → v.committedOffer.isSome = true
  issuedSequences : v.issuedSequences =
    ((v.records.take v.nextRecordIndex).map (·.sequenceId)).toFinset
  lastCommitted : v.lastCommittedSequenceId.isSome = decide (v.nextRecordIndex ≠ 0)

section offers

variable {decode v} {v' : TraceCursor ρ α} {log log' : CursorLog α}

variable {offer : Option α} {sequenceId : Option ℕ}

/-- An offer stays one while the cursor stays. -/
theorem Offers.mono (h : v.Offers decode log offer sequenceId) (hrecords : v'.records = v.records)
    (hindex : v'.nextRecordIndex = v.nextRecordIndex)
    (hcompleted : v.completedSequences ⊆ v'.completedSequences)
    (hworked : log.worked ⊆ log'.worked) : v'.Offers decode log' offer sequenceId := by
  rcases h with hnone | ⟨record, hrecord, hready, hoffer⟩
  · exact inl hnone
  · obtain ⟨epoch, hepoch, htime⟩ := hready.issued
    refine inr ⟨record, by rw [hrecords, hindex]; exact hrecord, ⟨⟨epoch, hworked hepoch, htime⟩,
      fun dependency hd => hcompleted (hready.dependencies dependency hd)⟩, hoffer⟩

theorem Offers.sequenceId_isSome (h : v.Offers decode log offer sequenceId) :
    offer.isSome = sequenceId.isSome := by
  rcases h with ⟨rfl, rfl⟩ | ⟨record, -, -, rfl, hsome, rfl⟩
  · rfl
  · exact hsome

theorem Offers.none_of_none (h : v.Offers decode log none sequenceId) : sequenceId = none := by
  have hsome := h.sequenceId_isSome
  simpa using hsome.symm

end offers

section calls

variable {decode v} {log : CursorLog α}

theorem Invariant.accept (h : v.Invariant decode log) :
    (v.step decode .proposeAccept).Invariant decode (log.record v .proposeAccept) := by
  simp only [step, proposeAccept]
  split
  · exact h
  · rename_i hpass
    simp only [Bool.or_eq_true, not_or, isNone_iff_eq_none] at hpass
    exact ⟨h.distinct, h.accepted, h.nextRecordIndex, h.endOfTrace,
      h.committed.mono rfl rfl (Finset.Subset.refl _) (Subset.refl _),
      h.proposed.mono rfl rfl (Finset.Subset.refl _) (Subset.refl _), h.alone,
      fun _ => isSome_iff_ne_none.mpr hpass.1, h.issuedSequences, h.lastCommitted⟩

theorem Invariant.mark (h : v.Invariant decode log) (sequenceId : ℕ) :
    (v.step decode (.markDependencyComplete sequenceId)).Invariant decode
      (log.record v (.markDependencyComplete sequenceId)) := by
  simp only [step, markDependencyComplete]
  split
  · exact h
  · have hcompleted : v.completedSequences ⊆ insert sequenceId v.completedSequences :=
      Finset.subset_insert _ _
    exact ⟨h.distinct, h.accepted, h.nextRecordIndex, h.endOfTrace,
      h.committed.mono rfl rfl hcompleted (Subset.refl _),
      h.proposed.mono rfl rfl hcompleted (Subset.refl _), h.alone, h.acceptable,
      h.issuedSequences, h.lastCommitted⟩

variable {records : List (TraceRecord ρ)} {offer : α}

/-- The empty cursor over a document. -/
theorem invariant_reset (hdistinct : DistinctIds records)
    (documentLoaded system : Bool) (completed : Finset ℕ) (code : String) (wake : Bool)
    (update : Epoch) (log : CursorLog α) (hlog : log.accepted = []) : Invariant decode
      { records := records
        endOfTrace := records.isEmpty
        documentLoaded := documentLoaded
        system := system
        completedSequences := completed
        runtimeFailureCode := code
        issueWakeScheduled := wake
        lastUpdate := update } log where
  distinct := hdistinct
  accepted := by simpa using hlog
  nextRecordIndex := Nat.zero_le _
  endOfTrace := by cases records <;> simp
  committed := inl ⟨rfl, rfl⟩
  proposed := inl ⟨rfl, rfl⟩
  alone := fun _ => rfl
  acceptable := fun h => by cases h
  issuedSequences := by simp
  lastCommitted := rfl

/-- What `doWork` can do: nothing to the cursor, or an offer of the record at the cursor, which is
due and has its dependencies complete. -/
theorem doWork_cases (decode : TraceRecord ρ → Option α) (v : TraceCursor ρ α) (epoch : Epoch)
    (scheduled : Bool) :
    (∃ wake code, v.doWork decode epoch scheduled =
        { v with issueWakeScheduled := wake, runtimeFailureCode := code }) ∨
      ∃ record decoded wake, v.committedOffer = none ∧ v.offerProposal = none ∧
        v.acceptProposal = false ∧ v.records[v.nextRecordIndex]? = some record ∧
        (∀ time ∈ record.issueTime, time ≤ epoch.time) ∧
        (∀ dependency ∈ record.dependencies, dependency ∈ v.completedSequences) ∧
        decode record = some decoded ∧
        v.doWork decode epoch scheduled = { v with
          issueWakeScheduled := wake, offerProposal := some decoded
          proposedSequenceId := some record.sequenceId } := by
  unfold doWork
  split
  · exact inl ⟨_, _, rfl⟩
  · rename_i hfree
    simp only [Bool.or_eq_true, not_or, Bool.not_eq_true, isSome_eq_false_iff,
      isNone_iff_eq_none] at hfree
    split
    · exact inl ⟨_, _, rfl⟩
    · rename_i record hrecord
      split
      · split
        · split
          · exact inl ⟨_, _, rfl⟩
          · exact inl ⟨_, _, rfl⟩
        · exact inl ⟨_, _, rfl⟩
      · rename_i hdue
        dsimp only
        split
        · exact inl ⟨_, _, rfl⟩
        · rename_i hcomplete
          cases hdecode : decode record with
          | none => exact inl ⟨_, _, rfl⟩
          | some decoded =>
            refine inr ⟨record, decoded, false, hfree.1.1.2, hfree.1.2, hfree.2, hrecord, ?_,
              ?_, hdecode, rfl⟩
            · intro time htime
              simpa [mem_def.mp htime] using hdue
            · simpa using hcomplete

section

variable (h : v.Invariant decode log)

include h

theorem Invariant.work (epoch : Epoch) (scheduled : Bool) :
    (v.step decode (.doWork epoch scheduled)).Invariant decode
      (log.record v (.doWork epoch scheduled)) := by
  have hworked : log.worked ⊆ log.worked ++ [epoch] := subset_append_left _ _
  simp only [step]
  rcases doWork_cases decode v epoch scheduled with ⟨wake, code, hwork⟩ |
    ⟨record, decoded, wake, hoffer, hproposal, haccept, hrecord, htime, hdependencies, hdecode, hwork⟩
  · rw [hwork]
    exact ⟨h.distinct, h.accepted, h.nextRecordIndex, h.endOfTrace,
      h.committed.mono rfl rfl (Finset.Subset.refl _) hworked,
      h.proposed.mono rfl rfl (Finset.Subset.refl _) hworked, h.alone, h.acceptable,
      h.issuedSequences, h.lastCommitted⟩
  · rw [hwork]
    refine ⟨h.distinct, h.accepted, h.nextRecordIndex, h.endOfTrace,
      h.committed.mono rfl rfl (Finset.Subset.refl _) hworked, ?_, ?_, h.acceptable,
      h.issuedSequences, h.lastCommitted⟩
    · exact inr ⟨record, hrecord,
        ⟨⟨epoch, mem_append_right _ (mem_singleton_self _), htime⟩, hdependencies⟩,
        hdecode.symm, by rw [hdecode]; rfl, rfl⟩
    · intro hsome
      rw [hoffer] at hsome
      cases hsome

theorem Invariant.commitAccept (epoch : Epoch) :
    (v.commitAccept epoch).Invariant decode (log.record v (.doXfer epoch)) := by
  unfold TraceCursor.commitAccept
  simp only [CursorLog.record]
  cases haccept : v.acceptProposal with
  | false => simpa using h
  | true =>
    have hsome := h.acceptable haccept
    have hproposal := h.alone hsome
    have hsequence : v.proposedSequenceId = none := by
      have hproposed := h.proposed
      rw [hproposal] at hproposed
      exact hproposed.none_of_none
    rcases h.committed with ⟨hnone, -⟩ | ⟨record, hrecord, -, hoffer, hdecoded, hid⟩
    · rw [hnone] at hsome
      cases hsome
    · obtain ⟨hlt, hget⟩ := List.getElem?_eq_some_iff.mp hrecord
      have htake : v.records.take (v.nextRecordIndex + 1) =
          v.records.take v.nextRecordIndex ++ [record] := by
        rw [take_add_one, hrecord]
        rfl
      simp only [Bool.not_true, Bool.false_eq_true, if_false, if_true]
      refine ⟨h.distinct, ?_, hlt, rfl, inl ⟨rfl, rfl⟩, inl ⟨hproposal, hsequence⟩,
        fun _ => hproposal, fun hs => absurd hs Bool.false_ne_true, ?_, ?_⟩
      · obtain ⟨decoded, hdecode⟩ := isSome_iff_exists.mp hdecoded
        rw [hid, hoffer, hdecode, htake, map_append, map_append, h.accepted]
        simp [hdecode]
      · simp only [htake, h.issuedSequences, hid]
        ext x
        simp
      · simp [hid]

theorem Invariant.commitOffer : v.commitOffer.Invariant decode log := by
  unfold TraceCursor.commitOffer
  split
  · exact h
  · rename_i hsome
    refine ⟨h.distinct, h.accepted, h.nextRecordIndex, h.endOfTrace,
      h.proposed.mono rfl rfl (Finset.Subset.refl _) (Subset.refl _), inl ⟨rfl, rfl⟩,
      fun _ => rfl, fun _ => ?_, h.issuedSequences, h.lastCommitted⟩
    simpa [isSome_iff_ne_none] using hsome

theorem Invariant.load (hdistinct : DistinctIds records) :
    (v.step decode (.loadDocument records)).Invariant decode
      (log.record v (.loadDocument records)) := by
  simp only [step, loadDocument]
  split
  · exact h
  · rename_i hfresh
    simp only [Bool.or_eq_true, not_or, decide_eq_true_eq, not_not, Bool.not_eq_true,
      isSome_eq_false_iff, isNone_iff_eq_none] at hfresh
    obtain ⟨⟨⟨⟨⟨⟨-, hoffer⟩, hproposal⟩, haccept⟩, hindex⟩, hissued⟩, -⟩ := hfresh
    have haccepted := h.accepted
    have hlast := h.lastCommitted
    have hsequence := h.committed
    have hproposed := h.proposed
    rw [hoffer] at hsequence
    rw [hproposal] at hproposed
    rw [hindex] at haccepted hlast
    refine ⟨hdistinct, ?_, ?_, ?_, inl ⟨hoffer, hsequence.none_of_none⟩,
      inl ⟨hproposal, hproposed.none_of_none⟩, fun _ => hproposal, ?_, ?_, ?_⟩
    · simpa [hindex, CursorLog.record] using haccepted
    · simp [hindex]
    · cases records <;> simp [hindex]
    · simp [haccept]
    · simp [hindex, hissued]
    · simpa [hindex] using hlast

theorem Invariant.kept {call : Call ρ} (hloads : call.Loads) :
    (v.step decode call).Invariant decode (log.record v call) := by
  cases call with
  | loadDocument records => exact h.load hloads
  | proposeAccept => exact h.accept
  | markDependencyComplete sequenceId => exact h.mark sequenceId
  | doWork epoch scheduled => exact h.work epoch scheduled
  | doXfer epoch => exact (h.commitAccept epoch).commitOffer
  | reset => exact invariant_reset h.distinct v.documentLoaded v.system ∅ "" false ⟨0, 0⟩ {} rfl

end

theorem Run.invariant (h : Run decode log v) : v.Invariant decode log := by
  induction h with
  | empty system =>
    have hdistinct : DistinctIds ([] : List (TraceRecord ρ)) := nodup_nil
    exact invariant_reset hdistinct false system ∅ "" false ⟨0, 0⟩ {} rfl
  | document records system hdistinct =>
    exact invariant_reset hdistinct true system ∅ "" false ⟨0, 0⟩ {} rfl
  | call call _ hloads ih => exact ih.kept hloads

theorem Invariant.validate (h : v.Invariant decode log) : v.validate = true := by
  have hcard : v.issuedSequences.card = v.nextRecordIndex := by
    have hnodup : ((v.records.take v.nextRecordIndex).map (·.sequenceId)).Nodup :=
      h.distinct.sublist ((take_sublist _ _).map _)
    rw [h.issuedSequences, toFinset_card_of_nodup hnodup, length_map,
      length_take, Nat.min_eq_left h.nextRecordIndex]
  have halone : (v.committedOffer.isSome && v.offerProposal.isSome) = false := by
    cases hsome : v.committedOffer.isSome with
    | false => rfl
    | true => rw [h.alone hsome]; rfl
  have haccept : (!v.acceptProposal || v.committedOffer.isSome) = true := by
    cases haccept : v.acceptProposal with
    | false => rfl
    | true => rw [h.acceptable haccept]; rfl
  unfold TraceCursor.validate
  rw [halone, haccept, h.committed.sequenceId_isSome, h.proposed.sequenceId_isSome, h.endOfTrace,
    h.lastCommitted, hcard]
  simpa using h.nextRecordIndex

theorem Invariant.stable (h : v.Invariant decode log) (hoffer : v.committedOffer = some offer) :
    ∀ call : Call ρ, (v.step decode call).committedOffer = some offer ∨
      (v.acceptProposal = true ∧ ∃ epoch, call = .doXfer epoch) ∨ call = .reset
  | .loadDocument records => by
    have hload : v.loadDocument records = (false, v) := if_pos (by simp [hoffer])
    exact inl (by simpa [step, hload] using hoffer)
  | .proposeAccept => by
    refine inl ?_
    simp only [step, proposeAccept]
    split <;> exact hoffer
  | .markDependencyComplete sequenceId => by
    refine inl ?_
    simp only [step, markDependencyComplete]
    split <;> exact hoffer
  | .doWork epoch scheduled => by
    have hwork : v.doWork decode epoch scheduled = v := if_pos (by simp [hoffer])
    exact inl (by simpa [step, hwork] using hoffer)
  | .doXfer epoch => by
    cases haccept : v.acceptProposal with
    | true => exact inr (inl ⟨rfl, epoch, rfl⟩)
    | false =>
      have hproposal := h.alone (hoffer ▸ rfl)
      refine inl ?_
      simpa [step, doXfer, TraceCursor.commitAccept, TraceCursor.commitOffer, haccept, hproposal]
        using hoffer
  | .reset => inr (inr rfl)

/-- A new proposal is made by `doWork`, for the record at the cursor, when it is due and its
dependencies are complete. -/
theorem proposal_due_of_step {call : Call ρ}
    (hnone : v.offerProposal = none) (hoffer : (v.step decode call).offerProposal = some offer) :
    ∃ epoch scheduled record, call = .doWork epoch scheduled ∧
      v.records[v.nextRecordIndex]? = some record ∧ decode record = some offer ∧
      (∀ time ∈ record.issueTime, time ≤ epoch.time) ∧
      ∀ dependency ∈ record.dependencies, dependency ∈ v.completedSequences := by
  have hkeep : ∀ w : TraceCursor ρ α, w.offerProposal = v.offerProposal →
      w.offerProposal ≠ some offer := fun w hw => by rw [hw, hnone]; exact (some_ne_none offer).symm
  cases call with
  | loadDocument records =>
    refine absurd hoffer (hkeep _ ?_)
    simp only [step, loadDocument]
    split <;> rfl
  | proposeAccept =>
    refine absurd hoffer (hkeep _ ?_)
    simp only [step, proposeAccept]
    split <;> rfl
  | markDependencyComplete sequenceId =>
    refine absurd hoffer (hkeep _ ?_)
    simp only [step, markDependencyComplete]
    split <;> rfl
  | doWork epoch scheduled =>
    simp only [step] at hoffer
    rcases doWork_cases decode v epoch scheduled with ⟨wake, code, hwork⟩ |
      ⟨record, decoded, wake, -, -, -, hrecord, htime, hdependencies, hdecode, hwork⟩
    · rw [hwork] at hoffer
      exact absurd hoffer (hkeep _ rfl)
    · rw [hwork] at hoffer
      exact ⟨epoch, scheduled, record, rfl, hrecord, hdecode.trans hoffer, htime, hdependencies⟩
  | doXfer epoch =>
    refine absurd hoffer (hkeep _ ?_)
    have hnone' : (v.commitAccept epoch).offerProposal = none := by
      unfold TraceCursor.commitAccept
      split <;> exact hnone
    simp [step, doXfer, TraceCursor.commitOffer, hnone', hnone]
  | reset => cases hoffer

end calls

/-- What the cursor promises in a state of a run. -/
structure ExactlyOnce (log : CursorLog α) : Prop where
  valid : v.validate = true
  /-- The accepted offers are the decoded records before the cursor, in their order. -/
  accepted : (log.accepted.map fun offer => (offer.1, some offer.2)) =
    (v.records.take v.nextRecordIndex).map fun record => (record.sequenceId, decode record)
  /-- A committed offer is the decoding of the record at the cursor, which is due and has its
  dependencies complete. -/
  offered : ∀ offer, v.committedOffer = some offer → ∃ record,
    v.records[v.nextRecordIndex]? = some record ∧ decode record = some offer ∧ v.Ready log record
  stable : ∀ offer, v.committedOffer = some offer → ∀ call : Call ρ,
    (v.step decode call).committedOffer = some offer ∨
      (v.acceptProposal = true ∧ ∃ epoch, call = .doXfer epoch) ∨ call = .reset
  proposal_due : ∀ (call : Call ρ) offer, v.offerProposal = none →
    (v.step decode call).offerProposal = some offer →
    ∃ epoch scheduled record, call = .doWork epoch scheduled ∧
      v.records[v.nextRecordIndex]? = some record ∧ decode record = some offer ∧
      (∀ time ∈ record.issueTime, time ≤ epoch.time) ∧
      ∀ dependency ∈ record.dependencies, dependency ∈ v.completedSequences
  endOfTrace : v.endOfTrace = true ↔ v.nextRecordIndex = v.records.length

variable {decode v} {log : CursorLog α}

/-- Every run accepts each record once, in the order of the document. -/
theorem Run.accepts_once (h : Run decode log v) : v.ExactlyOnce decode log := by
  have hinvariant := h.invariant
  refine ⟨hinvariant.validate, hinvariant.accepted, ?_, fun _ => hinvariant.stable,
    fun _ _ => proposal_due_of_step, ?_⟩
  · intro offer hoffer
    rcases hinvariant.committed with ⟨hnone, -⟩ | ⟨record, hrecord, hready, hdecode, -⟩
    · rw [hnone] at hoffer
      cases hoffer
    · exact ⟨record, hrecord, hdecode.symm.trans hoffer, hready⟩
  · rw [hinvariant.endOfTrace, decide_eq_true_iff]

/-- Two records, the second waiting for the first. -/
def chained : List (TraceRecord String) :=
  [{ sequenceId := 3, content := "load" },
    { sequenceId := 8, issueTime := some 2, dependencies := [3], content := "store" }]

/-- The first record is accepted; the second is offered when it is due and the first complete. -/
theorem exactlyOnce_chained :
    (((((((construct chained false).step (fun record => some record.content)
        (.doWork ⟨0, 0⟩ true)).step (fun record => some record.content) (.doXfer ⟨0, 0⟩)).step
        (fun record => some record.content) .proposeAccept).step
        (fun record => some record.content) (.doXfer ⟨1, 0⟩)).step
        (fun record => some record.content) (.markDependencyComplete 3)).step
        (fun record => some record.content) (.doWork ⟨2, 0⟩ true)).ExactlyOnce
      (fun record => some record.content)
      { accepted := [(3, "load")], worked := [⟨0, 0⟩, ⟨2, 0⟩] } :=
  have hstart : Run (fun record : TraceRecord String => some record.content) {}
      (construct chained false) := .document chained false (by unfold DistinctIds; decide)
  have hrun := Run.call (.doWork ⟨2, 0⟩ true) (.call (.markDependencyComplete 3)
    (.call (.doXfer ⟨1, 0⟩) (.call .proposeAccept (.call (.doXfer ⟨0, 0⟩)
      (.call (.doWork ⟨0, 0⟩ true) hstart trivial) trivial) trivial) trivial) trivial) trivial
  hrun.accepts_once

end TraceCursor

end AgenticCircuit.Gfsim
