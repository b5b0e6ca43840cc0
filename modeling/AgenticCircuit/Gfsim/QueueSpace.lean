import AgenticCircuit.Gfsim.Queue

/-! # The free slots of a queue

`SimQueue::space` tells how many entries the queue can accept right now.

* **Room.**  The consecutive pushes of an epoch succeed as long as the entry capacity and the byte
  capacity leave room (`pushAll_eq`).
* **`space`** counts the entries alone, and returns the count in 32 bits, so it tells the room
  exactly where the bytes are no tighter and the count fits (`spaceExact_iff`). -/

namespace AgenticCircuit.Gfsim

open List

/-- The result of a method to which the system answers yes, and `v` to a question. -/
def Body.granted {X : Type} (v : View) : Body X → X
  | .done x => x
  | .scheduleWork _ _ next => (next true).granted v
  | .scheduleEvent _ next => (next true).granted v
  | .registerCommitParticipant _ next => (next true).granted v
  | .proposeObservation _ next => (next true).granted v
  | .view next => (next v).granted v

namespace SimQueue

variable {α : Type} [PacketTraits α] (v : View) (q : SimQueue α)

/-- The answers to consecutive pushes, all participants registered. -/
def pushAll : List α → SimQueue α → List Bool
  | [], _ => []
  | element :: rest, q =>
      let r := (q.proposePush element).granted v
      r.2 :: pushAll rest r.1

/-- `n` further pushes succeed, and no more. -/
def AcceptsExactly (n : ℕ) : Prop :=
  ∀ elements : List α,
    pushAll v elements q = (List.range elements.length).map fun i => decide (i < n)

/-- Entries the entry capacity leaves room for. -/
def freeEntries : ℕ := q.entryCapacity - q.occupied

/-- Entries the byte capacity leaves room for. -/
def freeBytes : ℕ := q.byteCapacity / PacketTraits.serializedSize α - q.occupied

/-- Entries both capacities leave room for. -/
def room : ℕ :=
  if PacketTraits.serializedSize α = 0 then q.freeEntries else min q.freeEntries q.freeBytes

/-- The bytes leave room for every free entry, and their number is a 32-bit value.  Where the bytes
are tighter, the low 32 bits of the number of free entries happen to be the room. -/
def SpaceFits : Prop :=
  (PacketTraits.serializedSize α = 0 ∨ q.freeEntries ≤ q.freeBytes) ∧ q.freeEntries < 2 ^ 31 ∨
    PacketTraits.serializedSize α ≠ 0 ∧ q.freeBytes < q.freeEntries ∧ q.freeBytes < 2 ^ 31 ∧
      q.freeEntries % 2 ^ 32 = q.freeBytes

variable {v q}

theorem admits_iff : q.admits = true ↔ 0 < q.room := by
  rw [admits, room, exceedsByteCapacity, freeEntries, freeBytes]
  split_ifs with hsize
  · simp only [Bool.or_false, Bool.not_eq_true', decide_eq_false_iff_not]
    omega
  · simp only [Bool.not_eq_true', Bool.or_eq_false_iff, decide_eq_false_iff_not]
    omega

theorem room_acceptPush (element : α) : (q.acceptPush element).room = q.room - 1 := by
  have hoccupied : (q.acceptPush element).occupied = q.occupied + 1 := by
    simp only [occupied, acceptPush, committedSize, length_append, length_singleton]
    omega
  have hentries : (q.acceptPush element).entryCapacity = q.entryCapacity := rfl
  have hbytes : (q.acceptPush element).byteCapacity = q.byteCapacity := rfl
  rw [room, room, freeEntries, freeEntries, freeBytes, freeBytes, hoccupied, hentries, hbytes]
  split <;> omega

theorem granted_proposePush (element : α) : (q.proposePush element).granted v =
    if q.admits then (q.acceptPush element, true) else (q, false) := by
  rw [proposePush]
  cases q.admits with
  | false => rfl
  | true =>
    rw [register]
    cases q.system <;> rfl

theorem acceptsExactly_room : q.AcceptsExactly v q.room := by
  intro elements
  induction elements generalizing q with
  | nil => rfl
  | cons element rest ih =>
    rw [pushAll, granted_proposePush, length_cons, range_succ_eq_map, map_cons, map_map]
    cases hadmits : q.admits with
    | false =>
      have hroom : q.room = 0 := by
        by_contra hne
        simp [admits_iff.mpr (Nat.pos_of_ne_zero hne)] at hadmits
      simp [ih, hroom]
    | true =>
      have hroom := admits_iff.mp hadmits
      simp only [if_true, ih, room_acceptPush, decide_eq_true hroom]
      congr 1
      refine map_congr_left fun i _ => ?_
      simp only [Function.comp_apply, decide_eq_decide]
      omega

theorem AcceptsExactly.eq_room [Inhabited α] {n : ℕ} (h : q.AcceptsExactly v n) : n = q.room := by
  -- one push more than either count tells them apart
  have hsame := (h (replicate (n + q.room + 1) default)).symm.trans (acceptsExactly_room _)
  rw [length_replicate] at hsame
  have hat := fun i hi => map_inj_left.mp hsame i (mem_range.mpr hi)
  simp only [decide_eq_decide] at hat
  have hn := hat n (by omega)
  have hroom := hat q.room (by omega)
  omega

omit [PacketTraits α] in
theorem space_eq : q.space = Int.bmod q.freeEntries (2 ^ 32) := by
  rw [space, freeEntries]
  split
  · next h => simp [Nat.sub_eq_zero_of_le h]
  · next h => rw [Int.natCast_sub (by omega)]

theorem exact_iff_room [Inhabited α] :
    (∃ n : ℕ, (n : ℤ) = q.space ∧ q.AcceptsExactly v n) ↔ (q.room : ℤ) = q.space := by
  constructor
  · rintro ⟨n, hn, haccepts⟩
    rw [← haccepts.eq_room, hn]
  · exact fun h => ⟨_, h, acceptsExactly_room⟩

/-- `space` tells exactly how many further pushes succeed where the byte capacity is no tighter
than the entry capacity and the number fits 32 bits. -/
theorem spaceExact_iff [Inhabited α] (v : View) (q : SimQueue α) :
    (∃ n : ℕ, (n : ℤ) = q.space ∧ q.AcceptsExactly v n) ↔ q.SpaceFits := by
  rw [exact_iff_room, space_eq, room, SpaceFits, Int.bmod_def]
  by_cases hsize : PacketTraits.serializedSize α = 0
  · simp only [hsize, if_true, true_or, true_and]
    omega
  · simp only [hsize, if_false, false_or]
    omega

/-- Room for four entries and for eight bytes: `space` says four, and the second push fails. -/
theorem space_ignores_bytes : ¬ ∀ (v : View) (q : SimQueue ℕ),
    ∃ n : ℕ, (n : ℤ) = q.space ∧ q.AcceptsExactly v n := by
  intro h
  have hroom := exact_iff_room.mp
    (h ({} : SimSystem).view { id := 1, entryCapacity := 4, byteCapacity := 8 })
  exact absurd hroom (by decide)

end SimQueue

end AgenticCircuit.Gfsim
