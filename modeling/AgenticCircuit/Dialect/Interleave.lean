import Mathlib.Data.Nat.Count
import Mathlib.Order.Interval.Set.Basic
import Mathlib.Tactic.Ring

/-! # Interleaved lanes

A lane takes one bank of an interleaved memory: `bank` of every `banks` blocks of `granularity`
addresses.  Its helpers count the addresses of a lane, test whether a range meets it, and give the one
interval of a range that belongs to it (`interleave_exact`). -/

namespace AgenticCircuit.Dialect

open Nat

/-- `InterleaveLane`, with what the map checks of its geometry. -/
structure InterleaveLane where
  granularity : ℕ
  banks : ℕ
  bank : ℕ
  granularity_pos : 0 < granularity
  bank_lt : bank < banks
  cycle_lt : granularity * banks < 2 ^ 64

/-- `AddressInterval`, a range of addresses; its end may be `2 ^ 64`. -/
structure AddressInterval where
  begin : ℕ
  «end» : ℕ
  begin_le : begin ≤ «end»
  end_le : «end» ≤ 2 ^ 64

/-- A `WideAddress` has 128 bits. -/
def wideAddress (n : ℕ) : ℕ := n % 2 ^ 128

theorem wideAddress_eq {n : ℕ} (h : n < 2 ^ 128) : wideAddress n = n := mod_eq_of_lt h

namespace InterleaveLane

variable (lane : InterleaveLane)

def cycle : ℕ := wideAddress (lane.granularity * lane.banks)

def residue : ℕ := wideAddress (lane.granularity * lane.bank)

def selectedPrefix (e : ℕ) : ℕ :=
  let remainder := e % lane.cycle
  let rest :=
    if remainder > lane.residue then min (remainder - lane.residue) lane.granularity else 0
  wideAddress (wideAddress (e / lane.cycle * lane.granularity) + rest)

def intersectsInterval (first last : ℕ) : Bool := lane.selectedPrefix last != lane.selectedPrefix first

/-- The first block of the lane that ends behind `first`. -/
def blockStart (first : ℕ) : ℕ :=
  let start := wideAddress (wideAddress (first / lane.cycle * lane.cycle) + lane.residue)
  if wideAddress (start + lane.granularity) ≤ first then wideAddress (start + lane.cycle) else start

/-- The interval, and `isGeneral`. -/
def materializeSingleSelection (range : AddressInterval) : Option AddressInterval × Bool :=
  if lane.banks = 1 then (some range, false) else
  let start := lane.blockStart range.begin
  let selectedBegin := max range.begin start
  let selectedEnd := min range.end (wideAddress (start + lane.granularity))
  if h : selectedBegin ≥ selectedEnd then (none, false)
  else if wideAddress (start + lane.cycle) < range.end then (none, true)
  else (some ⟨selectedBegin, selectedEnd, by omega, (min_le_left _ _).trans range.end_le⟩, false)

/-! ### The addresses of a lane -/

def Selected (x : ℕ) : Prop := x / lane.granularity % lane.banks = lane.bank

instance : DecidablePred lane.Selected := fun _ => inferInstanceAs (Decidable (_ = _))

def selection (range : AddressInterval) : Set ℕ :=
  {x | range.begin ≤ x ∧ x < range.end ∧ lane.Selected x}

theorem residue_add_le :
    lane.granularity * lane.bank + lane.granularity ≤ lane.granularity * lane.banks := by
  rw [← mul_succ]
  exact Nat.mul_le_mul_left _ lane.bank_lt

theorem cycle_eq : lane.cycle = lane.granularity * lane.banks :=
  wideAddress_eq (lane.cycle_lt.trans (by decide))

theorem residue_eq : lane.residue = lane.granularity * lane.bank := by
  have := lane.residue_add_le
  have := lane.cycle_lt
  exact wideAddress_eq (by omega)

theorem block_le_cycle : lane.residue + lane.granularity ≤ lane.cycle := by
  rw [residue_eq, cycle_eq]
  exact lane.residue_add_le

theorem cycle_lt_limit : lane.cycle < 2 ^ 64 := by
  rw [cycle_eq]
  exact lane.cycle_lt

theorem selected_iff_mod {x : ℕ} : lane.Selected x ↔
    lane.residue ≤ x % lane.cycle ∧ x % lane.cycle < lane.residue + lane.granularity := by
  rw [Selected, ← mod_mul_right_div_self, Nat.div_eq_iff lane.granularity_pos, cycle_eq,
    residue_eq, mul_comm lane.bank]
  have := lane.granularity_pos
  omega

variable {lane} {e first x k : ℕ}

/-- In a cycle the block of the lane begins at `residue`. -/
theorem selected_iff (hle : lane.cycle * k ≤ x) (hlt : x < lane.cycle * k + lane.cycle) :
    lane.Selected x ↔
      lane.cycle * k + lane.residue ≤ x ∧ x < lane.cycle * k + lane.residue + lane.granularity := by
  obtain ⟨r, rfl⟩ := Nat.exists_eq_add_of_le hle
  rw [selected_iff_mod, mul_add_mod, mod_eq_of_lt (by omega)]
  omega

/-! ### Counting -/

theorem selectedPrefix_eq (he : e ≤ 2 ^ 64) : lane.selectedPrefix e =
    e / lane.cycle * lane.granularity +
      if e % lane.cycle > lane.residue then min (e % lane.cycle - lane.residue) lane.granularity
      else 0 := by
  have hblock := lane.block_le_cycle
  have hcycle := lane.cycle_lt_limit
  have hproduct : e / lane.cycle * lane.granularity ≤ e :=
    (Nat.mul_le_mul_left _ (by omega)).trans (div_mul_le_self e lane.cycle)
  have hfits : e / lane.cycle * lane.granularity < 2 ^ 128 := by omega
  simp only [selectedPrefix, wideAddress_eq hfits]
  exact wideAddress_eq (by split <;> omega)

theorem selectedPrefix_succ (he : e + 1 ≤ 2 ^ 64) :
    lane.selectedPrefix (e + 1) = lane.selectedPrefix e + if lane.Selected e then 1 else 0 := by
  have hblock := lane.block_le_cycle
  have hpos := lane.granularity_pos
  rw [selectedPrefix_eq he, selectedPrefix_eq (by omega)]
  have hr : e % lane.cycle < lane.cycle := mod_lt _ (by omega)
  simp only [selected_iff_mod]
  by_cases hlast : e % lane.cycle + 1 = lane.cycle
  · -- the last address of a cycle
    have he' : e + 1 = lane.cycle * (e / lane.cycle + 1) := by
      rw [mul_succ]
      have := div_add_mod e lane.cycle
      omega
    rw [he', Nat.mul_div_cancel_left _ (by omega), mul_mod_right, succ_mul]
    split_ifs <;> omega
  · have he' : e + 1 = lane.cycle * (e / lane.cycle) + (e % lane.cycle + 1) := by
      rw [← add_assoc, div_add_mod]
    have hlt : e % lane.cycle + 1 < lane.cycle := by omega
    rw [he', mul_add_div (by omega), mul_add_mod, div_eq_of_lt hlt, mod_eq_of_lt hlt,
      add_zero]
    split_ifs <;> omega

theorem selectedPrefix_eq_count (he : e ≤ 2 ^ 64) :
    lane.selectedPrefix e = count lane.Selected e := by
  induction e with
  | zero => simp [selectedPrefix_eq]
  | succ e ih => rw [selectedPrefix_succ he, count_succ, ih (by omega)]

theorem intersectsInterval_iff (range : AddressInterval) :
    lane.intersectsInterval range.begin range.end = true ↔ (lane.selection range).Nonempty := by
  obtain ⟨first, last, hle, hlast⟩ := range
  obtain ⟨length, rfl⟩ := Nat.exists_eq_add_of_le hle
  rw [intersectsInterval, bne_iff_ne, selectedPrefix_eq_count hlast,
    selectedPrefix_eq_count (hle.trans hlast), count_add, Ne, Nat.add_eq_left, ← Ne,
    count_ne_iff_exists]
  constructor
  · rintro ⟨k, hk, hselected⟩
    exact ⟨first + k, Nat.le_add_right _ _, Nat.add_lt_add_left hk _, hselected⟩
  · rintro ⟨x, hfirst, hx, hselected⟩
    obtain ⟨k, rfl⟩ := Nat.exists_eq_add_of_le hfirst
    exact ⟨k, Nat.lt_of_add_lt_add_left hx, hselected⟩

/-! ### The single interval -/

theorem blockStart_eq (hfirst : first ≤ 2 ^ 64) : ∃ k,
    lane.blockStart first = lane.cycle * k + lane.residue ∧
      first < lane.cycle * k + lane.residue + lane.granularity ∧
      (lane.cycle * k ≤ first ∨
        ∃ j, k = j + 1 ∧ lane.cycle * j + lane.residue + lane.granularity ≤ first) := by
  have hblock := lane.block_le_cycle
  have hcycle := lane.cycle_lt_limit
  have hpos := lane.granularity_pos
  have hdiv := div_add_mod first lane.cycle
  have hmod := mod_lt first (show 0 < lane.cycle by omega)
  rw [blockStart, mul_comm (first / lane.cycle)]
  generalize first / lane.cycle = q at hdiv
  have hwide {n : ℕ} (hn : n ≤ 2 ^ 66) : wideAddress n = n := wideAddress_eq (by omega)
  rw [hwide (show lane.cycle * q ≤ _ by omega), hwide (show lane.cycle * q + lane.residue ≤ _ by omega),
    hwide (by omega), hwide (by omega)]
  split
  · refine ⟨q + 1, by rw [mul_succ]; omega, by rw [mul_succ]; omega, .inr ⟨q, rfl, ‹_›⟩⟩
  · exact ⟨q, rfl, by omega, .inl (by omega)⟩

/-- From `first` on, the lane has the block at `blockStart` and then one a cycle later. -/
theorem selected_iff_blockStart (hfirst : first ≤ 2 ^ 64) (hle : first ≤ x)
    (hlt : x < lane.blockStart first + lane.cycle) :
    lane.Selected x ↔ lane.blockStart first ≤ x ∧ x < lane.blockStart first + lane.granularity := by
  obtain ⟨k, hstart, -, hk⟩ := lane.blockStart_eq hfirst
  have hblock := lane.block_le_cycle
  have hnext : lane.cycle * (k + 1) = lane.cycle * k + lane.cycle := mul_succ _ _
  rw [hstart] at hlt ⊢
  rcases Nat.lt_or_ge x (lane.cycle * k) with hx | hx
  · obtain ⟨j, rfl, hj⟩ := hk.resolve_left (by omega)
    have hprevious : lane.cycle * (j + 1) = lane.cycle * j + lane.cycle := mul_succ _ _
    rw [selected_iff (k := j) (by omega) (by omega)]
    omega
  rcases Nat.lt_or_ge x (lane.cycle * (k + 1)) with hx' | hx'
  · exact selected_iff hx (by omega)
  · rw [selected_iff hx' (by omega)]
    omega

theorem selected_blockStart_add_cycle (hfirst : first ≤ 2 ^ 64) :
    lane.Selected (lane.blockStart first + lane.cycle) := by
  obtain ⟨k, hstart, -⟩ := lane.blockStart_eq hfirst
  have hblock := lane.block_le_cycle
  have hpos := lane.granularity_pos
  have hnext : lane.cycle * (k + 1) = lane.cycle * k + lane.cycle := mul_succ _ _
  rw [hstart, selected_iff (k := k + 1) (by omega) (by omega)]
  omega

/-- The result of `materializeSingleSelection` as a set. -/
def intervalSet : Option AddressInterval → Set ℕ
  | none => ∅
  | some i => Set.Ico i.begin i.end

theorem blockStart_le (hfirst : first ≤ 2 ^ 64) : lane.blockStart first ≤ 2 ^ 66 := by
  obtain ⟨k, hstart, -, hk⟩ := lane.blockStart_eq hfirst
  have hblock := lane.block_le_cycle
  have hcycle := lane.cycle_lt_limit
  rcases hk with hk | ⟨j, rfl, hj⟩
  · omega
  · rw [mul_succ] at hstart
    omega

theorem materializeSingleSelection_exact (range : AddressInterval) :
    (lane.materializeSingleSelection range).2 = false ∧
        lane.selection range = intervalSet (lane.materializeSingleSelection range).1 ∨
      lane.materializeSingleSelection range = (none, true) ∧
        ∀ a b, lane.selection range ≠ Set.Ico a b := by
  have hfirst := range.begin_le.trans range.end_le
  have hlast := range.end_le
  have hblock := lane.block_le_cycle
  have hcycle := lane.cycle_lt_limit
  have hpos := lane.granularity_pos
  have hstart := lane.blockStart_le hfirst
  have hselected {x : ℕ} := lane.selected_iff_blockStart (x := x) hfirst
  have hnext := lane.selected_blockStart_add_cycle hfirst
  have hend : range.begin < lane.blockStart range.begin + lane.granularity := by
    obtain ⟨k, hk, hend, -⟩ := lane.blockStart_eq hfirst
    rwa [hk]
  have hwide {n : ℕ} (hn : n ≤ 2 ^ 64) :
      wideAddress (lane.blockStart range.begin + n) = lane.blockStart range.begin + n :=
    wideAddress_eq (by omega)
  have hblockEnd := hwide (show lane.granularity ≤ 2 ^ 64 by omega)
  simp only [materializeSingleSelection, hwide hcycle.le]
  split
  · rename_i hbanks
    refine .inl ⟨rfl, Set.ext fun x => and_congr_right fun _ => and_iff_left ?_⟩
    have := lane.bank_lt
    rw [Selected, hbanks, mod_one]
    omega
  rename_i hbanks
  have hgap : lane.granularity < lane.cycle := by
    rw [cycle_eq]
    have := lane.bank_lt
    exact Nat.lt_mul_iff_one_lt_right hpos |>.2 (by omega)
  split
  · -- no address of the lane
    rename_i hempty
    refine .inl ⟨rfl, Set.eq_empty_of_forall_notMem ?_⟩
    rintro x ⟨hle, hlt, hx⟩
    have := (hselected hle (by omega)).1 hx
    omega
  split
  · -- the next block begins in the range as well
    rename_i hgeneral
    refine .inr ⟨rfl, fun a b hinterval => ?_⟩
    have hleft : max range.begin (lane.blockStart range.begin) ∈ lane.selection range :=
      ⟨le_max_left _ _, by omega, (hselected (le_max_left _ _) (by omega)).2 (by omega)⟩
    have hright : lane.blockStart range.begin + lane.cycle ∈ lane.selection range :=
      ⟨by omega, hgeneral, hnext⟩
    have hmiddle : lane.blockStart range.begin + lane.granularity ∈ lane.selection range := by
      rw [hinterval] at hleft hright ⊢
      exact ⟨hleft.1.trans (by omega), lt_trans (by omega) hright.2⟩
    have := (hselected hmiddle.1 (by omega)).1 hmiddle.2.2
    omega
  · rename_i hgeneral
    refine .inl ⟨rfl, Set.ext fun x => ?_⟩
    simp only [intervalSet, Set.mem_Ico]
    constructor
    · rintro ⟨hle, hlt, hx⟩
      have := (hselected hle (by omega)).1 hx
      omega
    · intro hx
      exact ⟨by omega, by omega, (hselected (by omega) (by omega)).2 (by omega)⟩

end InterleaveLane

open InterleaveLane

/-- **Interleave geometry.**  The prefix counts the addresses of the lane below `e`; the test says
whether the range has one; the materialised interval is the lane's part of the range, and general is
reported where that part is no interval. -/
theorem interleave_exact (lane : InterleaveLane) (range : AddressInterval) {e : ℕ}
    (he : e ≤ 2 ^ 64) :
    lane.selectedPrefix e = Nat.count (fun x => x / lane.granularity % lane.banks = lane.bank) e ∧
    (lane.intersectsInterval range.begin range.end = true ↔
      ∃ x, range.begin ≤ x ∧ x < range.end ∧ x / lane.granularity % lane.banks = lane.bank) ∧
    ((lane.materializeSingleSelection range).2 = false ∧
        lane.selection range = intervalSet (lane.materializeSingleSelection range).1 ∨
      lane.materializeSingleSelection range = (none, true) ∧
        ∀ a b, lane.selection range ≠ Set.Ico a b) :=
  ⟨selectedPrefix_eq_count he, intersectsInterval_iff range, materializeSingleSelection_exact range⟩

/-- The odd words of four bytes. -/
def oddWords : InterleaveLane := ⟨4, 2, 1, by decide, by decide, by decide⟩

theorem interleave_exact_oddWords :
    oddWords.selectedPrefix 13 = Nat.count (fun x => x / 4 % 2 = 1) 13 :=
  (interleave_exact oddWords ⟨0, 2 ^ 64, by decide, le_rfl⟩ (by decide : 13 ≤ 2 ^ 64)).1

end AgenticCircuit.Dialect
