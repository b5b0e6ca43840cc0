import AgenticCircuit.Lib.Word
import Mathlib.Data.BitVec
import Mathlib.Order.Interval.Set.Basic

/-! # Address spaces and their translations

The checks of `ac.address_space`: its own verifier and the translation into the parent space.  A
translation maps `a` to `a * numerator / denominator + offset`; a fractional one is for the multiples of
its alignment only.

* **Words of 128 bits.**  The check computes with `Word 128`, so that a wrap would show.
* **`verifyAddressTranslation_exact`**: one test at the largest legal address decides for all of them. -/

namespace AgenticCircuit.Dialect

open Word Nat

/-! ### The operation -/

/-- The attributes of a translation: signless `i64`, or anything else. -/
inductive TranslationAttr where
  | i64 (value : BitVec 64)
  | other (text : String)
deriving DecidableEq

abbrev Translation := List (String × TranslationAttr)

/-- An `ac.address_space`.  `dataLayout` tells of an attribute whether it implements
`DataLayoutSpecInterface`. -/
structure AddressSpaceOp where
  symName : String
  stableId : String
  path : String
  addressWidth : BitVec 64
  addressUnit : String
  dataLayout : Option Bool := none
  parent : Option String := none
  translation : Option Translation := none
deriving DecidableEq

def isStableSegment (value : String) : Bool :=
  !value.isEmpty && value.toList.all fun c => c.isAlphanum || c == '_' || c == '-'

def hasExactKeys (dictionary : Translation) (keys : List String) : Bool :=
  dictionary.length == keys.length && keys.all fun key => (dictionary.lookup key).isSome

/-- `getAs<IntegerAttr>` with the test that its type is a signless `i64`. -/
def getI64 (t : Translation) (key : String) : Option (BitVec 64) :=
  match t.lookup key with
  | some (.i64 value) => some value
  | _ => none

/-- `alignment * n`, in 128 bits. -/
def alignmentProduct (alignment n : BitVec 64) : Word 128 := Word.mul ⟨alignment.toNat, false⟩ n.toNat

def verifyAlignment (t : Translation) (n d : BitVec 64) : Except String Unit :=
  let message := "fractional translation requires exact positive alignment proving divisibility"
  if ¬ hasExactKeys t ["numerator", "denominator", "offset", "alignment"] then .error message else
  match getI64 t "alignment" with
  | none => .error message
  | some alignment =>
    if alignment = 0 ∨ (alignmentProduct alignment n).val % d.toNat ≠ 0 then .error message
    else .ok ()

def verifyRatio (t : Translation) : Except String Unit :=
  match getI64 t "numerator", getI64 t "denominator", getI64 t "offset" with
  | some n, some d, some _ =>
    if n = 0 ∨ d = 0 then
      .error "translation values must be unsigned signless i64 with positive ratio"
    else if n.toNat.gcd d.toNat ≠ 1 then
      .error "translation rational must be in canonical reduced form"
    else if d = 1 then
      if ¬ hasExactKeys t ["numerator", "denominator", "offset"] then
        .error "integral translation requires exact numerator/denominator/offset schema"
      else .ok ()
    else verifyAlignment t n d
  | _, _, _ => .error "translation values must be unsigned signless i64 with positive ratio"

namespace AddressSpaceOp

/-- An address space stands in the body of its module, so its placement is left out. -/
def verify (s : AddressSpaceOp) : Except String Unit :=
  if ¬ isStableSegment s.symName ∨ ¬ isStableSegment s.stableId ∨ ¬ isStableSegment s.path then
    .error "address-space name, stable id, and path must be stable local segments"
  else if s.addressWidth.toInt < 1 ∨ 64 < s.addressWidth.toInt then
    .error "address width must be in [1, 64]"
  else if s.addressUnit ≠ "byte" ∧ s.addressUnit ≠ "bit" then
    .error "address unit must be exactly 'byte' or 'bit'"
  else if s.dataLayout = some false then
    .error "data layout hook must implement DataLayoutSpecInterface"
  else
    match s.parent, s.translation with
    | none, none => .ok ()
    | some _, some t => verifyRatio t
    | _, _ => .error "parent address space and translation must appear together"

/-! ### The translation of one space -/

variable (s : AddressSpaceOp)

/-- A number of the translation, which the verifier has found there. -/
def value (key : String) : ℕ := (((s.translation.bind (getI64 · key))).map BitVec.toNat).getD 0

def width : ℕ := s.addressWidth.toInt.toNat

def numerator : ℕ := s.value "numerator"

def denominator : ℕ := s.value "denominator"

def offset : ℕ := s.value "offset"

/-- Only a fractional translation restricts its addresses. -/
def alignment : ℕ :=
  if s.translation = none ∨ s.denominator = 1 then 1 else s.value "alignment"

end AddressSpaceOp

def addressLimit (width : ℕ) : Word 128 := Word.mul ⟨1, false⟩ (2 ^ width)

/-- `legalMaximum * numerator` -/
def translatedProduct (child : AddressSpaceOp) : Word 128 :=
  let childMaximum := (addressLimit child.width).sub 1
  let legalMaximum := childMaximum.sub (childMaximum.val % child.alignment)
  legalMaximum.mul child.numerator

/-- `translated / denominator + offset` -/
def translatedMaximum (child : AddressSpaceOp) : Word 128 :=
  ((translatedProduct child).div child.denominator).add child.offset

/-- The children of the `ac.module` body that can be referred to by a local name. -/
inductive LocalOp where
  | addressSpace (op : AddressSpaceOp)
  | other (name : Option String)
deriving DecidableEq

def LocalOp.localName : LocalOp → Option String
  | .addressSpace op => some op.symName
  | .other name => name

def LocalOp.addressSpace? : LocalOp → Option AddressSpaceOp
  | .addressSpace op => some op
  | .other _ => none

/-- The body of an `ac.module`; an operation is known by its place in it. -/
structure ModuleBody where
  children : List LocalOp
deriving DecidableEq

namespace ModuleBody

variable (m : ModuleBody)

/-- The first child with a name. -/
def producerIndex (name : String) : Option ℕ :=
  m.children.findIdx? fun op => op.localName == some name

def space (i : ℕ) : Option AddressSpaceOp := m.children[i]?.bind LocalOp.addressSpace?

/-- The address space a reference resolves to. -/
def resolve (reference : String) : Option AddressSpaceOp := (m.producerIndex reference).bind m.space

def verifyAddressTranslation (child : AddressSpaceOp) : Except String Unit :=
  match child.parent with
  | none => .ok ()
  | some parentRef =>
    match m.resolve parentRef with
    | none => .error s!"parent address space '@{parentRef}' is unresolved"
    | some parent =>
      if (translatedProduct child).val % child.denominator ≠ 0 then
        .error "translation alignment does not make the full child domain exact"
      else if (translatedMaximum child).val ≥ (addressLimit parent.width).val then
        .error "translated child address range exceeds parent address width"
      else .ok ()

end ModuleBody

/-! ### What the verifier of one space ensures -/

section verifier

variable {s : AddressSpaceOp} {t : Translation} {n d alignment : BitVec 64}

namespace AddressSpaceOp

/-- The legal addresses of a space. -/
def Legal (s : AddressSpaceOp) (a : ℕ) : Prop := a < 2 ^ s.width ∧ s.alignment ∣ a

/-- The address in the parent space. -/
def translate (s : AddressSpaceOp) (a : ℕ) : ℕ := a * s.numerator / s.denominator + s.offset

/-- The numbers of a translation that has been verified. -/
structure Translates (s : AddressSpaceOp) : Prop where
  numerator_pos : 0 < s.numerator
  denominator_pos : 0 < s.denominator
  alignment_pos : 0 < s.alignment
  divides : s.denominator ∣ s.alignment * s.numerator

theorem value_lt (s : AddressSpaceOp) (key : String) : s.value key < 2 ^ 64 := by
  unfold value
  cases s.translation.bind (getI64 · key) with
  | none => simp
  | some value => exact value.isLt

theorem value_eq {key : String} {value : BitVec 64} (ht : s.translation = some t)
    (hvalue : getI64 t key = some value) : s.value key = value.toNat := by
  simp [AddressSpaceOp.value, ht, hvalue]

end AddressSpaceOp

theorem alignmentProduct_eq (alignment n : BitVec 64) :
    alignmentProduct alignment n = ⟨alignment.toNat * n.toNat, false⟩ := by
  have hfits : alignment.toNat * n.toNat < 2 ^ 128 :=
    calc alignment.toNat * n.toNat < 2 ^ 64 * 2 ^ 64 := Nat.mul_lt_mul'' alignment.isLt n.isLt
      _ = 2 ^ 128 := rfl
  exact mul_eq hfits

theorem verifyAlignment_ok (h : verifyAlignment t n d = .ok ()) :
    ∃ alignment, getI64 t "alignment" = some alignment ∧ 0 < alignment.toNat ∧
      d.toNat ∣ alignment.toNat * n.toNat := by
  unfold verifyAlignment at h
  split_ifs at h
  split at h
  · cases h
  · rename_i alignment halignment
    split_ifs at h with hbad
    obtain ⟨hzero, hmod⟩ := not_or.1 hbad
    rw [alignmentProduct_eq] at hmod
    exact ⟨alignment, halignment, toNat_pos hzero, dvd_of_mod_eq_zero (not_not.1 hmod)⟩

theorem verifyRatio_ok (ht : s.translation = some t) (h : verifyRatio t = .ok ()) :
    s.Translates := by
  unfold verifyRatio at h
  split at h
  · rename_i n d offset hn hd _
    have hnumerator : s.numerator = n.toNat := AddressSpaceOp.value_eq ht hn
    have hdenominator : s.denominator = d.toNat := AddressSpaceOp.value_eq ht hd
    split_ifs at h with hzero hgcd hone hkeys
    · obtain ⟨hnzero, hdzero⟩ := not_or.1 hzero
      have hdone : s.denominator = 1 := by rw [hdenominator, hone]; rfl
      have halignment : s.alignment = 1 := if_pos (.inr hdone)
      exact ⟨hnumerator ▸ toNat_pos hnzero, hdenominator ▸ toNat_pos hdzero,
        halignment ▸ Nat.one_pos, hdone ▸ one_dvd _⟩
    · obtain ⟨hnzero, hdzero⟩ := not_or.1 hzero
      obtain ⟨alignment, hget, hpos, hdvd⟩ := verifyAlignment_ok h
      have hdone : s.denominator ≠ 1 := by
        rw [hdenominator]
        exact fun heq => hone (BitVec.eq_of_toNat_eq heq)
      have halignment : s.alignment = alignment.toNat := by
        rw [← AddressSpaceOp.value_eq ht hget]
        exact if_neg (by simp [ht, hdone])
      exact ⟨hnumerator ▸ toNat_pos hnzero, hdenominator ▸ toNat_pos hdzero, halignment ▸ hpos,
        by rwa [halignment, hnumerator, hdenominator]⟩
  · cases h

theorem AddressSpaceOp.translates (h : s.verify = .ok ()) {parentRef : String}
    (hparent : s.parent = some parentRef) : s.Translates := by
  unfold AddressSpaceOp.verify at h
  split_ifs at h
  rw [hparent] at h
  split at h
  · rename_i hnone _
    cases hnone
  · rename_i t _ ht
    exact verifyRatio_ok ht h
  · cases h

theorem AddressSpaceOp.width_bounds (h : s.verify = .ok ()) : 1 ≤ s.width ∧ s.width ≤ 64 := by
  unfold AddressSpaceOp.verify at h
  split_ifs at h with _ hwidth
  unfold AddressSpaceOp.width
  omega

end verifier

/-! ### The largest legal address -/

section translation

variable {s child parent : AddressSpaceOp} {m : ModuleBody} {a b : ℕ}

/-- The largest legal address. -/
def AddressSpaceOp.maximum (s : AddressSpaceOp) : ℕ :=
  2 ^ s.width - 1 - (2 ^ s.width - 1) % s.alignment

theorem AddressSpaceOp.legal_maximum (s : AddressSpaceOp) : s.Legal s.maximum := by
  have hpos : 0 < 2 ^ s.width := Nat.two_pow_pos _
  constructor
  · unfold AddressSpaceOp.maximum
    omega
  · exact dvd_sub_mod _

theorem AddressSpaceOp.Legal.le_maximum (h : s.Legal a) : a ≤ s.maximum := by
  have hle : a ≤ 2 ^ s.width - 1 := by
    have hlt := h.1
    omega
  have hmod : s.alignment ∣ a := h.2
  calc a = s.alignment * (a / s.alignment) := (Nat.mul_div_cancel' hmod).symm
    _ ≤ s.alignment * ((2 ^ s.width - 1) / s.alignment) :=
      Nat.mul_le_mul_left _ (Nat.div_le_div_right hle)
    _ = s.maximum := (Nat.eq_sub_of_add_eq (div_add_mod _ _))

theorem AddressSpaceOp.Translates.exact (h : s.Translates) (ha : s.Legal a) :
    s.denominator ∣ a * s.numerator :=
  h.divides.trans (Nat.mul_dvd_mul_right ha.2 _)

theorem AddressSpaceOp.Translates.strictMonoOn (h : s.Translates) :
    StrictMonoOn s.translate {a | s.Legal a} := by
  intro a _ b hb hlt
  have hmul : a * s.numerator < b * s.numerator := Nat.mul_lt_mul_of_pos_right hlt h.numerator_pos
  have hdiv : a * s.numerator / s.denominator < b * s.numerator / s.denominator :=
    div_lt_div_of_lt_of_dvd (h.exact hb) hmul
  exact Nat.add_lt_add_right hdiv _

theorem AddressSpaceOp.translate_mono (s : AddressSpaceOp) (h : a ≤ b) :
    s.translate a ≤ s.translate b :=
  Nat.add_le_add_right (Nat.div_le_div_right (Nat.mul_le_mul_right _ h)) _

/-! ### The arithmetic of the check -/

theorem addressLimit_eq {width : ℕ} (h : width ≤ 64) : addressLimit width = ⟨2 ^ width, false⟩ := by
  have hle : 2 ^ width ≤ 2 ^ 64 := Nat.pow_le_pow_right Nat.two_pos h
  have hfits : 1 * 2 ^ width < 2 ^ 128 := by
    rw [Nat.one_mul]
    exact hle.trans_lt (by decide)
  rw [addressLimit, mul_eq hfits, Nat.one_mul]

theorem translated_fits {a n offset : ℕ} (ha : a < 2 ^ 64) (hn : n < 2 ^ 64)
    (hoffset : offset < 2 ^ 64) : a * n + offset < 2 ^ 128 := by
  have hmul : a * n ≤ (2 ^ 64 - 1) * (2 ^ 64 - 1) :=
    Nat.mul_le_mul (le_sub_one_of_lt ha) (le_sub_one_of_lt hn)
  calc a * n + offset ≤ (2 ^ 64 - 1) * (2 ^ 64 - 1) + (2 ^ 64 - 1) :=
      Nat.add_le_add hmul (le_sub_one_of_lt hoffset)
    _ < 2 ^ 128 := by decide

theorem AddressSpaceOp.maximum_lt (h : s.width ≤ 64) : s.maximum < 2 ^ 64 :=
  s.legal_maximum.1.trans_le (Nat.pow_le_pow_right Nat.two_pos h)

theorem translatedProduct_eq (h : child.width ≤ 64) :
    translatedProduct child = ⟨child.maximum * child.numerator, false⟩ := by
  have hle : 2 ^ child.width ≤ 2 ^ 64 := Nat.pow_le_pow_right Nat.two_pos h
  have hpos : 0 < 2 ^ child.width := Nat.two_pow_pos _
  have hlimit : (addressLimit child.width).sub 1 = ⟨2 ^ child.width - 1, false⟩ := by
    rw [addressLimit_eq h]
    exact sub_eq hpos (hle.trans_lt (by decide))
  have hmaximum : sub ⟨2 ^ child.width - 1, false⟩
      ((2 ^ child.width - 1) % child.alignment) = (⟨child.maximum, false⟩ : Word 128) :=
    sub_eq (mod_le _ _) (by dsimp only; omega)
  have hproduct : child.maximum * child.numerator < 2 ^ 128 :=
    translated_fits (child.maximum_lt h) (child.value_lt _) (by decide : 0 < 2 ^ 64)
  unfold translatedProduct
  dsimp only
  rw [hlimit, hmaximum]
  exact mul_eq hproduct

theorem translatedMaximum_eq (h : child.width ≤ 64) :
    translatedMaximum child = ⟨child.translate child.maximum, false⟩ := by
  have hfits : child.maximum * child.numerator + child.offset < 2 ^ 128 :=
    translated_fits (child.maximum_lt h) (child.value_lt _) (child.value_lt _)
  have hle := Nat.div_le_self (child.maximum * child.numerator) child.denominator
  rw [translatedMaximum, translatedProduct_eq h]
  exact add_eq (by dsimp only [div]; omega)

/-- What the check of a translation accepts. -/
theorem verifyAddressTranslation_ok (hchild : child.width ≤ 64) (hparent : parent.width ≤ 64)
    {parentRef : String} (href : child.parent = some parentRef)
    (hresolve : m.resolve parentRef = some parent) : m.verifyAddressTranslation child = .ok () ↔
      child.denominator ∣ child.maximum * child.numerator ∧
        child.translate child.maximum < 2 ^ parent.width := by
  unfold ModuleBody.verifyAddressTranslation
  rw [href]
  dsimp only
  rw [hresolve]
  dsimp only
  rw [translatedProduct_eq hchild, translatedMaximum_eq hchild, addressLimit_eq hparent]
  split_ifs with hmod hrange
  · exact iff_of_false (by simp) fun h => hmod (mod_eq_zero_of_dvd h.1)
  · exact iff_of_false (by simp) fun h => absurd h.2 (not_lt.2 hrange)
  · exact iff_of_true rfl ⟨dvd_of_mod_eq_zero (not_not.1 hmod), not_le.1 hrange⟩

/-- **Address translation.**  For a verified space with a resolved parent the check accepts exactly when
every legal address is translated exactly and into the parent's range.  No 128-bit word wraps, and the
translation is strictly increasing. -/
theorem verifyAddressTranslation_exact (hchild : child.verify = .ok ())
    (hparent : parent.verify = .ok ()) {parentRef : String} (href : child.parent = some parentRef)
    (hresolve : m.resolve parentRef = some parent) :
    (m.verifyAddressTranslation child = .ok () ↔ ∀ a, child.Legal a →
        child.denominator ∣ a * child.numerator ∧
          a * child.numerator / child.denominator + child.offset < 2 ^ parent.width) ∧
      (translatedMaximum child).wrapped = false ∧ (addressLimit parent.width).wrapped = false ∧
      (∀ alignment n : BitVec 64, (alignmentProduct alignment n).wrapped = false) ∧
      StrictMonoOn child.translate {a | child.Legal a} := by
  have hwidth := (AddressSpaceOp.width_bounds hchild).2
  have hlimit := (AddressSpaceOp.width_bounds hparent).2
  have htranslates := AddressSpaceOp.translates hchild href
  refine ⟨?_, ?_, ?_, fun alignment n => ?_, htranslates.strictMonoOn⟩
  · rw [verifyAddressTranslation_ok hwidth hlimit href hresolve]
    constructor
    · rintro ⟨_, hrange⟩ a ha
      exact ⟨htranslates.exact ha, (child.translate_mono ha.le_maximum).trans_lt hrange⟩
    · exact fun h => h child.maximum child.legal_maximum
  · rw [translatedMaximum_eq hwidth]
  · rw [addressLimit_eq hlimit]
  · rw [alignmentProduct_eq]

/-- 4-byte words of a 16-bit space, over a space of 32 bits. -/
def words : AddressSpaceOp where
  symName := "words"
  stableId := "words"
  path := "words"
  addressWidth := 16
  addressUnit := "byte"
  parent := some "root"
  translation := some [("alignment", .i64 4), ("denominator", .i64 4), ("numerator", .i64 1),
    ("offset", .i64 65536)]

def wide : AddressSpaceOp where
  symName := "root"
  stableId := "root"
  path := "root"
  addressWidth := 32
  addressUnit := "byte"

theorem verifyAddressTranslation_exact_words :
    (∀ a, words.Legal a → words.denominator ∣ a * words.numerator ∧
      a * words.numerator / words.denominator + words.offset < 2 ^ wide.width) ∧
    StrictMonoOn words.translate {a | words.Legal a} := by
  have h := verifyAddressTranslation_exact (m := ⟨[.addressSpace wide, .addressSpace words]⟩)
    (by decide +kernel : words.verify = .ok ()) (by decide +kernel : wide.verify = .ok ())
    (rfl : words.parent = some "root") (by decide +kernel)
  exact ⟨h.1.1 (by decide +kernel), h.2.2.2.2⟩

end translation

end AgenticCircuit.Dialect
