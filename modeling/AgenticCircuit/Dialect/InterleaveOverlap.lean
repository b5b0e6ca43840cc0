import AgenticCircuit.Dialect.Interleave
import Mathlib.Algebra.BigOperators.Fin

/-! # Lanes of two geometries

Whether a range has an address that is in two lanes is a question of integer programming: for each
lane an address is a number of cycles, the residue and a place in the block.  The query is exact, and
for lanes of one geometry it agrees with the count (`interleaveSetsIntersect_exact`). -/

namespace AgenticCircuit.Dialect

open InterleaveLane
open Pi (single)

/-- The words are those of a signed number of 128 bits. -/
def asDynamicInt (value : ℕ) : ℤ := (BitVec.ofNat 128 value).toInt

theorem asDynamicInt_eq {value : ℕ} (h : value < 2 ^ 127) : asDynamicInt value = value := by
  rw [asDynamicInt, BitVec.toInt_ofNat', Int.bmod_eq_of_le] <;> omega

/-- The coefficients of `x`, `q_left`, `u_left`, `q_right` and `u_right`, and the constant. -/
abbrev Row := Fin 6 → ℤ

/-- `IntegerPolyhedron`: rows that are zero and rows that are not negative. -/
structure IntegerPolyhedron where
  equalities : List Row := []
  inequalities : List Row := []

namespace IntegerPolyhedron

/-- The values of the variables, with 1 for the constant, satisfy every row. -/
def Holds (set : IntegerPolyhedron) (p : Row) : Prop :=
  p 5 = 1 ∧ (∀ row ∈ set.equalities, ∑ i, row i * p i = 0) ∧
    ∀ row ∈ set.inequalities, 0 ≤ ∑ i, row i * p i

def addLane (set : IntegerPolyhedron) (lane : InterleaveLane) (quotient within : Fin 6) :
    IntegerPolyhedron where
  equalities := set.equalities ++ [single 0 1 - single quotient (asDynamicInt lane.cycle) -
    single within 1 - single 5 (asDynamicInt lane.residue)]
  inequalities := set.inequalities ++
    [single within 1, single 5 (asDynamicInt (lane.granularity - 1)) - single within 1]

/-- The rows of `interleaveSetsIntersect`. -/
def query (left right : InterleaveLane) (range : AddressInterval) : IntegerPolyhedron :=
  let set := (addLane {} left 1 2).addLane right 3 4
  { set with inequalities := set.inequalities ++ [single 0 1 - single 5 (asDynamicInt range.begin),
      single 5 (asDynamicInt (range.end - 1)) - single 0 1] }

variable {left right : InterleaveLane} {range : AddressInterval} {p : Row}

theorem holds_query (h : range.begin < range.end) : (query left right range).Holds p ↔ p 5 = 1 ∧
    (range.begin ≤ p 0 ∧ p 0 < range.end) ∧
      (p 0 = left.cycle * p 1 + left.residue + p 2 ∧ 0 ≤ p 2 ∧ p 2 < left.granularity) ∧
        p 0 = right.cycle * p 3 + right.residue + p 4 ∧ 0 ≤ p 4 ∧ p 4 < right.granularity := by
  have hlast := range.end_le
  have hword (lane : InterleaveLane) : asDynamicInt lane.cycle = lane.cycle ∧
      asDynamicInt lane.residue = lane.residue ∧
        asDynamicInt (lane.granularity - 1) = lane.granularity - 1 := by
    have hpos := lane.granularity_pos
    have hblock := lane.block_le_cycle
    have hcycle := lane.cycle_lt_limit
    refine ⟨asDynamicInt_eq (by omega), asDynamicInt_eq (by omega), ?_⟩
    rw [asDynamicInt_eq (by omega)]
    omega
  have hfirst : asDynamicInt range.begin = range.begin := asDynamicInt_eq (by omega)
  have hend : asDynamicInt (range.end - 1) = range.end - 1 := by
    rw [asDynamicInt_eq (by omega)]
    omega
  simp [query, addLane, Holds, Fin.sum_univ_succ, hword, hfirst, hend]
  grind

end IntegerPolyhedron

open IntegerPolyhedron

def interleaveSetsIntersect (isIntegerEmpty : IntegerPolyhedron → Bool)
    (left right : InterleaveLane) (range : AddressInterval) : Bool :=
  if range.begin ≥ range.end then false
  else !isIntegerEmpty (query left right range)

theorem selected_iff_exists {lane : InterleaveLane} {x : ℕ} : lane.Selected x ↔
    ∃ q u : ℤ, x = lane.cycle * q + lane.residue + u ∧ 0 ≤ u ∧ u < lane.granularity := by
  have hblock := lane.block_le_cycle
  rw [lane.selected_iff_mod]
  constructor
  · intro h
    have hx := Nat.div_add_mod x lane.cycle
    refine ⟨(x / lane.cycle : ℕ), (x % lane.cycle - lane.residue : ℕ), ?_, by omega, by omega⟩
    rw [← Nat.cast_mul]
    omega
  · rintro ⟨q, u, hx, hnonneg, hlt⟩
    have hmod : (x : ℤ) % lane.cycle = lane.residue + u := by
      rw [hx, add_assoc, Int.mul_add_emod_self_left, Int.emod_eq_of_lt] <;> omega
    omega

theorem interleaveSetsIntersect_iff {isIntegerEmpty : IntegerPolyhedron → Bool}
    (hempty : ∀ set, isIntegerEmpty set = true ↔ ¬∃ p, set.Holds p) {left right : InterleaveLane}
    {range : AddressInterval} : interleaveSetsIntersect isIntegerEmpty left right range = true ↔
      ∃ x, range.begin ≤ x ∧ x < range.end ∧ left.Selected x ∧ right.Selected x := by
  unfold interleaveSetsIntersect
  split
  · grind
  rename_i hrange
  rw [Bool.not_eq_true', ← Bool.not_eq_true, hempty, not_not]
  refine (exists_congr fun p => holds_query (not_le.mp hrange)).trans ⟨?_, ?_⟩
  · rintro ⟨p, -, ⟨hfirst, hlast⟩, hl, hr⟩
    obtain ⟨x, hx⟩ := Int.eq_ofNat_of_zero_le (show 0 ≤ p 0 by omega)
    rw [hx] at hl hr
    exact ⟨x, by omega, by omega, selected_iff_exists.mpr ⟨_, _, hl⟩,
      selected_iff_exists.mpr ⟨_, _, hr⟩⟩
  · rintro ⟨x, hfirst, hlast, hl, hr⟩
    obtain ⟨q, u, hl⟩ := selected_iff_exists.mp hl
    obtain ⟨q', u', hr⟩ := selected_iff_exists.mp hr
    exact ⟨![x, q, u, q', u', 1], rfl, ⟨Int.ofNat_le.mpr hfirst, Int.ofNat_lt.mpr hlast⟩, hl, hr⟩

/-- **Lanes of two geometries.**  The integer query answers whether a range has an address that is
in both lanes; for lanes of one geometry the banks and the count give the same answer. -/
theorem interleaveSetsIntersect_exact {isIntegerEmpty : IntegerPolyhedron → Bool}
    (hempty : ∀ set, isIntegerEmpty set = true ↔ ¬∃ p, set.Holds p) (left right : InterleaveLane)
    (range : AddressInterval) :
    (interleaveSetsIntersect isIntegerEmpty left right range = true ↔
      ∃ x, range.begin ≤ x ∧ x < range.end ∧ x / left.granularity % left.banks = left.bank ∧
        x / right.granularity % right.banks = right.bank) ∧
    (left.granularity = right.granularity → left.banks = right.banks →
      interleaveSetsIntersect isIntegerEmpty left right range =
        (left.bank == right.bank && left.intersectsInterval range.begin range.end)) := by
  refine ⟨interleaveSetsIntersect_iff hempty, fun hgranularity hbanks => ?_⟩
  rw [Bool.eq_iff_iff, interleaveSetsIntersect_iff hempty, Bool.and_eq_true, beq_iff_eq,
    intersectsInterval_iff]
  unfold Selected
  rw [← hgranularity, ← hbanks]
  constructor
  · rintro ⟨x, hfirst, hlast, hl, hr⟩
    exact ⟨hl.symm.trans hr, x, hfirst, hlast, hl⟩
  · rintro ⟨hbank, x, hfirst, hlast, hl⟩
    exact ⟨x, hfirst, hlast, hl, hl.trans hbank⟩

/-- The last of three blocks of eight bytes. -/
def lastThirds : InterleaveLane := ⟨8, 3, 2, by decide, by decide, by decide⟩

open scoped Classical in
theorem interleaveSetsIntersect_exact_oddWords :
    interleaveSetsIntersect (fun set => decide ¬∃ p, set.Holds p) oddWords lastThirds
        ⟨0, 64, by decide, by decide⟩ = true ∧
      interleaveSetsIntersect (fun set => decide ¬∃ p, set.Holds p) oddWords oddWords
        ⟨8, 12, by decide, by decide⟩ = false :=
  ⟨(interleaveSetsIntersect_exact (fun _ => decide_eq_true_iff) ..).1.mpr ⟨20, by decide⟩,
    ((interleaveSetsIntersect_exact (fun _ => decide_eq_true_iff) ..).2 rfl rfl).trans (by decide)⟩

end AgenticCircuit.Dialect
