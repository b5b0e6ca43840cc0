import AgenticCircuit.Frontend.CanonicalJson
import Mathlib.Tactic.Linarith

/-! # Strings in both canonical encoders

A `str` of scalar values and its bytes in UTF-8 have the same code units, are escaped alike and are
sorted alike: `utf16Units` decodes what the other side has never encoded, and the big-endian bytes
of the code units are in the order of the code units. -/

namespace AgenticCircuit.Frontend

open List UInt8
open Bindings

/-- A code point that is no surrogate. -/
def IsScalar (c : CodePoint) : Prop := isSurrogate c = false

/-- The string can be encoded. -/
def Scalar (value : PythonString) : Prop := ∀ c ∈ value, IsScalar c

/-- The bytes of a string of scalar values. -/
def bytesOf (value : PythonString) : Bytes := value.flatMap fun c => Bindings.encodeUtf8 c.val

variable {value : PythonString} {c : CodePoint} {text : Bytes} {count fuel n : ℕ}

@[simp] theorem bytesOf_nil : bytesOf [] = [] := rfl

@[simp] theorem bytesOf_cons (c : CodePoint) (value : PythonString) :
    bytesOf (c :: value) = Bindings.encodeUtf8 c.val ++ bytesOf value := rfl

@[simp] theorem bytesOf_append (value value' : PythonString) :
    bytesOf (value ++ value') = bytesOf value ++ bytesOf value' := by
  simp [bytesOf]

theorem Scalar.append {value' : PythonString} (h : Scalar value) (h' : Scalar value') :
    Scalar (value ++ value') := fun c hc =>
  (mem_append.1 hc).elim (h c) (h' c)

theorem scalar_iff : value.any isSurrogate = false ↔ Scalar value := by
  simp [Scalar, IsScalar]

theorem encodeUtf8_scalar (h : Scalar value) : encodeUtf8 value = .ok (bytesOf value) :=
  if_neg (by simp [scalar_iff.2 h])

theorem validateString_ok : validateString value = .ok () ↔ Scalar value := by
  unfold validateString encodeUtf8
  rw [← scalar_iff]
  cases value.any isSurrogate <;> simp

theorem isScalar_range (h : IsScalar c) : c.val < 0xd800 ∨ 0xdfff < c.val := by
  simp only [IsScalar, isSurrogate, Bool.and_eq_false_iff, decide_eq_false_iff_not] at h
  omega

/-- The bytes of a code point by its range. -/
theorem encodeUtf8_eq (h : IsScalar c) : Bindings.encodeUtf8 c.val =
      if c.val ≤ 0x7f then [ofNat c.val] else if c.val ≤ 0x7ff then
        [ofNat (c.val / 64 % 0x20 + 0xc0), ofNat (c.val % 0x40 + 0x80)] else if c.val ≤ 0xffff then
        [ofNat (c.val / 4096 % 0x10 + 0xe0), ofNat (c.val / 64 % 0x40 + 0x80),
          ofNat (c.val % 0x40 + 0x80)] else
        [ofNat (c.val / 262144 % 0x08 + 0xf0), ofNat (c.val / 4096 % 0x40 + 0x80),
          ofNat (c.val / 64 % 0x40 + 0x80), ofNat (c.val % 0x40 + 0x80)] := by
  have hrange := isScalar_range h
  have hlt := c.isLt
  have hvalid : c.val.isValidChar := by
    omega
  have hval : (Char.ofNat c.val).val.toNat = c.val := by
    rw [Char.ofNat, dif_pos hvalid]
    rfl
  unfold Bindings.encodeUtf8 String.utf8EncodeChar
  simp only [hval]

theorem bytesOf_length (value : PythonString) (h : Scalar value) :
    value.length ≤ (bytesOf value).length := by
  induction value with
  | nil => rfl
  | cons c value ih =>
    have hc : 1 ≤ (Bindings.encodeUtf8 c.val).length := by
      rw [encodeUtf8_eq (h c (mem_cons_self ..))]
      split_ifs <;> simp
    have htail := ih fun c hc => h c (mem_cons_of_mem _ hc)
    rw [bytesOf_cons, length_append, length_cons]
    omega

theorem bytesOf_ascii (h : text.all (· < 0x80) = true) : bytesOf (ascii text) = text := by
  have hone : ∀ n : Fin 128, Bindings.encodeUtf8 n.val = [ofNat n.val] := by
    decide
  induction text with
  | nil => rfl
  | cons byte text ih =>
    rw [all_cons, Bool.and_eq_true, decide_eq_true_eq] at h
    have hbyte := hone ⟨byte.toNat, lt_iff_toNat_lt.1 h.1⟩
    rw [ascii, map_cons, bytesOf_cons]
    rw [hbyte, UInt8.ofNat_toNat]
    exact congrArg (byte :: ·) (ih h.2)

theorem scalar_ascii (text : Bytes) : Scalar (ascii text) := by
  intro c hc
  obtain ⟨byte, -, rfl⟩ := mem_map.1 hc
  have := byte.toNat_lt
  simp only [IsScalar, isSurrogate, Bool.and_eq_false_iff, decide_eq_false_iff_not]
  omega

/-! ### Code units -/

theorem utf8Lead_two (n : ℕ) : utf8Lead (ofNat (n % 0x20 + 0xc0)) = .ok (n % 0x20, 2) := by
  have hall : ∀ m : Fin 0x20, utf8Lead (ofNat (m.val + 0xc0)) = .ok (m.val, 2) := by decide
  exact hall ⟨n % 0x20, Nat.mod_lt _ (by omega)⟩

theorem utf8Lead_three (n : ℕ) : utf8Lead (ofNat (n % 0x10 + 0xe0)) = .ok (n % 0x10, 3) := by
  have hall : ∀ m : Fin 0x10, utf8Lead (ofNat (m.val + 0xe0)) = .ok (m.val, 3) := by decide
  exact hall ⟨n % 0x10, Nat.mod_lt _ (by omega)⟩

theorem utf8Lead_four (n : ℕ) : utf8Lead (ofNat (n % 0x08 + 0xf0)) = .ok (n % 0x08, 4) := by
  have hall : ∀ m : Fin 0x08, utf8Lead (ofNat (m.val + 0xf0)) = .ok (m.val, 4) := by decide
  exact hall ⟨n % 0x08, Nat.mod_lt _ (by omega)⟩

theorem utf8Continue_cons (codePoint n : ℕ) (rest : Bytes) :
    utf8Continue codePoint (ofNat (n % 0x40 + 0x80) :: rest) =
      utf8Continue (codePoint * 0x40 + n % 0x40) rest := by
  have hall : ∀ m : Fin 0x40, ofNat (m.val + 0x80) &&& 0xc0 = 0x80 ∧
      (ofNat (m.val + 0x80) &&& 0x3f).toNat = m.val := by
    decide
  obtain ⟨hmark, hvalue⟩ := hall ⟨n % 0x40, Nat.mod_lt _ (by omega)⟩
  rw [utf8Continue, if_neg (by simpa using hmark), hvalue]

theorem codePointUnits_eq (hscalar : n < 0xd800 ∨ 0xdfff < n) (hlt : n < 0x110000)
    (htwo : count = 2 → 0x80 ≤ n) (hthree : count = 3 → 0x800 ≤ n)
    (hfour : count = 4 → 0x10000 ≤ n) : codePointUnits n count = .ok (codeUnits n) := by
  unfold codePointUnits codeUnits
  split_ifs <;> first | rfl | omega

/-- A turn of `utf16Units` on a sequence whose parts are known. -/
theorem utf16From_sequence {lead : ℕ} {first : UInt8} {continuations rest : Bytes}
    (hlead : utf8Lead first = .ok (lead, count)) (hcount : continuations.length = count - 1)
    (hcontinue : utf8Continue lead continuations = .ok n)
    (hunits : codePointUnits n count = .ok (codeUnits n)) :
    utf16From (fuel + 1) (first :: continuations ++ rest) =
      (do pure (codeUnits n ++ (← utf16From fuel rest))) := by
  have htake : (continuations ++ rest).take (count - 1) = continuations := take_left' hcount
  have hdrop : (continuations ++ rest).drop (count - 1) = rest := drop_left' hcount
  rw [cons_append, utf16From, hlead, ok_bind]
  simp only []
  rw [if_neg, htake, hdrop, hcontinue, ok_bind, hunits, ok_bind]
  rw [length_append]
  omega

theorem utf16From_codePoint (h : IsScalar c) (fuel : ℕ) (rest : Bytes) :
    utf16From (fuel + 1) (Bindings.encodeUtf8 c.val ++ rest) =
      (do pure (codeUnits c.val ++ (← utf16From fuel rest))) := by
  have hrange := isScalar_range h
  have hlt := c.isLt
  have hbytes := encodeUtf8_eq h
  generalize c.val = n at hrange hlt hbytes
  rw [hbytes]
  split_ifs with hone htwo hthree
  · have hlead : utf8Lead (ofNat n) = .ok (n, 1) := by
      have hall : ∀ m : Fin 0x80, utf8Lead (ofNat m.val) = .ok (m.val, 1) := by decide
      exact hall ⟨n, by omega⟩
    exact utf16From_sequence hlead rfl rfl
      (codePointUnits_eq hrange hlt (by omega) (by omega) (by omega))
  · refine utf16From_sequence (utf8Lead_two _) rfl ?_
      (codePointUnits_eq hrange hlt (by omega) (by omega) (by omega))
    rw [utf8Continue_cons, utf8Continue]
    congr 1
    omega
  · refine utf16From_sequence (utf8Lead_three _) rfl ?_
      (codePointUnits_eq hrange hlt (by omega) (by omega) (by omega))
    rw [utf8Continue_cons, utf8Continue_cons, utf8Continue]
    congr 1
    omega
  · refine utf16From_sequence (utf8Lead_four _) rfl ?_
      (codePointUnits_eq hrange hlt (by omega) (by omega) (by omega))
    rw [utf8Continue_cons, utf8Continue_cons, utf8Continue_cons, utf8Continue]
    congr 1
    omega

theorem utf16From_scalar (h : Scalar value) (hfuel : value.length ≤ fuel) :
    utf16From fuel (bytesOf value) = .ok (value.flatMap fun c => codeUnits c.val) := by
  induction value generalizing fuel with
  | nil => cases fuel <;> rfl
  | cons c value ih =>
    obtain ⟨fuel, rfl⟩ : ∃ n, fuel = n + 1 := ⟨fuel - 1, by simp at hfuel; omega⟩
    have htail := ih (fun c hc => h c (mem_cons_of_mem _ hc)) (by simpa using hfuel)
    rw [bytesOf_cons, utf16From_codePoint (h c (mem_cons_self ..)), htail]
    rfl

theorem utf16Units_scalar (h : Scalar value) :
    utf16Units (bytesOf value) = .ok (value.flatMap fun c => codeUnits c.val) :=
  utf16From_scalar h (bytesOf_length value h)

/-! ### Escapes -/

theorem escapeByte_high {byte : UInt8} (h : 0x80 ≤ byte) : escapeByte byte = [byte] := by
  have hne (other : UInt8) (hother : other < 0x80) : ¬ byte = other := by
    rintro rfl
    exact absurd hother (UInt8.not_lt.2 h)
  have hletter : escapeLetter byte = none := by
    unfold escapeLetter
    iterate 7 rw [if_neg (hne _ (by decide))]
  unfold escapeByte
  rw [hletter]
  refine if_neg fun hlt => ?_
  rw [lt_iff_toNat_lt] at hlt
  rw [le_iff_toNat_le] at h
  have : (0x80 : UInt8).toNat = 128 := rfl
  have : (0x20 : UInt8).toNat = 32 := rfl
  omega

/-- The bytes of a code point beyond ASCII. -/
theorem encodeUtf8_high (h : IsScalar c) (hc : 0x80 ≤ c.val) :
    ∀ byte ∈ Bindings.encodeUtf8 c.val, 0x80 ≤ byte := by
  have hhigh (n : ℕ) (hn : 0x80 ≤ n) (hn' : n < 0x100) : 0x80 ≤ ofNat n := by
    rw [le_iff_toNat_le, toNat_ofNat_of_lt' hn']
    exact hn
  rw [encodeUtf8_eq h, if_neg (by omega)]
  split_ifs <;> simp only [forall_mem_cons, not_mem_nil, false_implies, implies_true,
    and_true]
  · exact ⟨hhigh _ (by omega) (by omega), hhigh _ (by omega) (by omega)⟩
  · exact ⟨hhigh _ (by omega) (by omega), hhigh _ (by omega) (by omega),
      hhigh _ (by omega) (by omega)⟩
  · exact ⟨hhigh _ (by omega) (by omega), hhigh _ (by omega) (by omega),
      hhigh _ (by omega) (by omega), hhigh _ (by omega) (by omega)⟩

theorem escapeByte_flatMap (h : ∀ byte ∈ text, 0x80 ≤ byte) : text.flatMap escapeByte = text := by
  induction text with
  | nil => rfl
  | cons byte text ih =>
    rw [flatMap_cons, escapeByte_high (h byte (mem_cons_self ..)),
      ih fun other hother => h other (mem_cons_of_mem _ hother)]
    rfl

theorem escape_codePoint (h : IsScalar c) :
    (Bindings.encodeUtf8 c.val).flatMap escapeByte = bytesOf (escapeCodePoint c) := by
  rcases Nat.lt_or_ge c.val 0x80 with hlt | hge
  · have hall : ∀ m : Fin 0x80, (Bindings.encodeUtf8 m.val).flatMap escapeByte =
        bytesOf (escapeCodePoint (Fin.castLE (by decide) m)) := by
      decide +kernel
    exact hall ⟨c.val, hlt⟩
  · have hescape : escapeCodePoint c = [c] := by
      have hne (n : ℕ) (hn : n < 0x80) : ¬ c.val = n := by omega
      unfold escapeCodePoint
      iterate 7 rw [if_neg (hne _ (by decide))]
      rw [if_neg (by omega)]
    rw [hescape, bytesOf_cons, bytesOf_nil, List.append_nil,
      escapeByte_flatMap (encodeUtf8_high h hge)]

theorem scalar_escapeCodePoint (h : IsScalar c) : Scalar (escapeCodePoint c) := by
  unfold escapeCodePoint
  split_ifs
  any_goals exact scalar_ascii _
  exact forall_mem_singleton.2 h

theorem scalar_dumpString (h : Scalar value) : Scalar (dumpString value) := by
  refine ((scalar_ascii _).append ?_).append (scalar_ascii _)
  intro c hc
  obtain ⟨c', hc', hmem⟩ := mem_flatMap.1 hc
  exact scalar_escapeCodePoint (h c' hc') c hmem

theorem bytesOf_dumpString (h : Scalar value) : bytesOf (dumpString value) =
      quote :: (bytesOf value).flatMap escapeByte ++ [quote] := by
  have hbody : bytesOf (value.flatMap escapeCodePoint) = (bytesOf value).flatMap escapeByte := by
    induction value with
    | nil => rfl
    | cons c value ih =>
      rw [flatMap_cons, bytesOf_append, bytesOf_cons, flatMap_append,
        escape_codePoint (h c (mem_cons_self ..)),
        ih fun c hc => h c (mem_cons_of_mem _ hc)]
  have hquote : bytesOf (ascii [quote]) = [quote] := bytesOf_ascii (by decide)
  rw [dumpString, bytesOf_append, bytesOf_append, hquote, hbody]
  rfl

theorem encodeString_agrees (h : Scalar value) : encodeString value = .ok (dumpString value) ∧
      writeEscapedString (bytesOf value) = .ok (bytesOf (dumpString value)) := by
  constructor
  · unfold encodeString
    rw [validateString_ok.2 h]
    rfl
  · unfold writeEscapedString
    rw [utf16Units_scalar h, bytesOf_dumpString h]
    rfl

/-! ### Sort keys -/

/-- The code units of a string, as the keys of the other side are. -/
def keyUnits (value : PythonString) : List ℕ := value.flatMap fun c => codeUnits c.val

theorem codeUnits_lt (c : CodePoint) : ∀ unit ∈ codeUnits c.val, unit < 0x10000 := by
  have hlt := c.isLt
  unfold codeUnits
  split_ifs
  · simpa using by omega
  · simp only [forall_mem_cons, not_mem_nil, false_implies, implies_true, and_true]
    omega

theorem keyUnits_lt (value : PythonString) : ∀ unit ∈ keyUnits value, unit < 0x10000 := by
  intro unit hunit
  obtain ⟨c, -, hmem⟩ := mem_flatMap.1 hunit
  exact codeUnits_lt c unit hmem

theorem bigEndian_lt {unit unit' : ℕ} (h : unit < 0x10000) (h' : unit' < 0x10000)
    (rest rest' : Bytes) : bigEndian unit ++ rest < bigEndian unit' ++ rest' ↔
      unit < unit' ∨ unit = unit' ∧ rest < rest' := by
  have hbyte {m n : ℕ} (hm : m < 0x100) (hn : n < 0x100) :
      (m.toUInt8 < n.toUInt8 ↔ m < n) ∧ (m.toUInt8 = n.toUInt8 ↔ m = n) := by
    rw [lt_iff_toNat_lt, ← UInt8.toNat_inj, toNat_ofNat_of_lt' hm, toNat_ofNat_of_lt' hn]
    exact ⟨Iff.rfl, Iff.rfl⟩
  obtain ⟨hhighLt, hhighEq⟩ := hbyte (m := unit / 0x100) (n := unit' / 0x100) (by omega) (by omega)
  obtain ⟨hlowLt, hlowEq⟩ := hbyte (m := unit % 0x100) (n := unit' % 0x100) (by omega) (by omega)
  simp only [bigEndian, cons_append, cons_lt_cons_iff, hhighLt, hhighEq, hlowLt, hlowEq]
  constructor
  · rintro (hlt | ⟨heq, hlt | ⟨heq', hrest⟩⟩)
    · exact .inl (by omega)
    · exact .inl (by omega)
    · exact .inr ⟨by omega, hrest⟩
  · rintro (hlt | ⟨rfl, hrest⟩)
    · omega
    · exact .inr ⟨rfl, .inr ⟨rfl, hrest⟩⟩

theorem bigEndian_mono {units units' : List ℕ} (h : ∀ unit ∈ units, unit < 0x10000)
    (h' : ∀ unit ∈ units', unit < 0x10000) :
    units.flatMap bigEndian < units'.flatMap bigEndian ↔ units < units' := by
  induction units generalizing units' with
  | nil =>
    cases units' with
    | nil => simp
    | cons unit' units' => simp [bigEndian]
  | cons unit units ih =>
    cases units' with
    | nil => simp
    | cons unit' units' =>
      rw [forall_mem_cons] at h h'
      rw [flatMap_cons, flatMap_cons, bigEndian_lt h.1 h'.1, ih h.2 h'.2, cons_lt_cons_iff]

theorem utf16SortKey_scalar (h : Scalar value) :
    utf16SortKey value = .ok ((keyUnits value).flatMap bigEndian) := by
  unfold utf16SortKey
  rw [validateString_ok.2 h]
  simp only [keyUnits, flatMap_assoc]
  rfl

end AgenticCircuit.Frontend
