import AgenticCircuit.Bindings.JsonEqual
import AgenticCircuit.Bindings.NumberPrinting

/-! # The canonical form can be read back

Two canonical texts that begin one input are the same text, and the values they were written for
are alike but for numbers that are rounded to the same binary64 (`writeCanonical_inj`).  What
follows a canonical text in a canonical text never continues a number. -/

namespace AgenticCircuit.Bindings

open List Except JsonValue

/-! ### Numbers -/

/-- The bytes of numbers. -/
def isNumberByte (byte : UInt8) : Bool :=
  isDigit byte || byte == '.'.toUInt8 || byte == 'e'.toUInt8 || byte == 'E'.toUInt8 ||
    byte == '+'.toUInt8 || byte == '-'.toUInt8

variable {string string' t t' text : Bytes}

/-- Where both have the property throughout and what follows has not, the two end together. -/
theorem Stops.append_inj {p : UInt8 → Bool} {xs ys : Bytes} (hx : xs.all p = true)
    (hy : ys.all p = true) (ht : Stops p t) (ht' : Stops p t') (h : xs ++ t = ys ++ t') :
    xs = ys ∧ t = t' := by
  have htail : t = t' := by
    rw [← ht.dropWhile hx, h, ht'.dropWhile hy]
  subst htail
  exact ⟨append_cancel_right h, rfl⟩

theorem NumberText.text_isNumberByte {number : NumberText} (h : number.WellFormed) :
    number.text.all isNumberByte = true := by
  have hdigits {digits : Bytes} (hall : digits.all isDigit = true) :
      digits.all isNumberByte = true := by
    rw [all_eq_true] at hall ⊢
    intro digit hdigit
    simp [isNumberByte, hall digit hdigit]
  have hsign : number.signText.all isNumberByte = true := by
    unfold signText
    split_ifs <;> decide
  have hfraction : number.fractionText.all isNumberByte = true := by
    unfold fractionText
    cases hcase : number.fraction with
    | none => rfl
    | some digits => simpa [isNumberByte] using hdigits (h.fraction digits hcase).2
  have hexponent : number.exponentText.all isNumberByte = true := by
    unfold exponentText
    cases hcase : number.exponent with
    | none => rfl
    | some exponent =>
      obtain ⟨hmark, hall⟩ := h.exponent exponent hcase
      have hmarks : ∀ mark ∈ exponentMarks, mark.all isNumberByte = true := by decide
      simp only [Option.elim_some, all_append, Bool.and_eq_true]
      exact ⟨hmarks _ hmark, hdigits hall.2⟩
  rw [text, all_append, all_append, all_append, hsign, hfraction, hexponent,
    hdigits h.isDigit_integer]
  rfl

/-! ### Strings -/

/-- The byte that an escaped text begins with, and the rest. -/
def readEscaped : Bytes → Option (UInt8 × Bytes)
  | [] => none
  | first :: rest =>
    if first = backslash then
      match rest with
      | [] => none
      | letter :: rest =>
        if letter = 'u'.toUInt8 then
          match rest with
          | _ :: _ :: high :: low :: rest =>
            some ((16 * (hexDigitValue high).getD 0 + (hexDigitValue low).getD 0).toUInt8,
              rest)
          | _ => none
        else some (Character.escapeValue letter, rest)
    else some (first, rest)

theorem readEscaped_escapeByte (byte : UInt8) (rest : Bytes) :
    readEscaped (escapeByte byte ++ rest) = some (byte, rest) := by
  have hcontrol (n : ℕ) (hn : n < 0x20) :
      readEscaped (escapeByte n.toUInt8 ++ rest) = some (n.toUInt8, rest) := by
    interval_cases n <;> rfl
  by_cases hlt : byte < 0x20
  · have hread := hcontrol byte.toNat (UInt8.lt_iff_toNat_lt.1 hlt)
    rwa [show byte.toNat.toUInt8 = byte from UInt8.ofNat_toNat] at hread
  · by_cases hquote : byte = quote
    · subst hquote
      rfl
    by_cases hbackslash : byte = backslash
    · subst hbackslash
      rfl
    have hne (control : UInt8) (hcontrol : control < 0x20) : ¬ byte = control := by
      rintro rfl
      exact hlt hcontrol
    have hletter : escapeLetter byte = none := by
      unfold escapeLetter
      rw [if_neg hquote, if_neg hbackslash, if_neg (hne 0x08 (by decide)),
        if_neg (hne 0x09 (by decide)), if_neg (hne 0x0a (by decide)),
        if_neg (hne 0x0c (by decide)), if_neg (hne 0x0d (by decide))]
    have htext : escapeByte byte = [byte] := by
      unfold escapeByte
      rw [hletter]
      exact if_neg hlt
    rw [htext]
    exact if_neg hbackslash

theorem escapeByte_head (byte : UInt8) : ∃ first rest, escapeByte byte = first :: rest ∧
    first ≠ quote := by
  unfold escapeByte
  cases hletter : escapeLetter byte with
  | some letter => exact ⟨_, _, rfl, by decide⟩
  | none =>
    split_ifs with hcontrol
    · exact ⟨_, _, rfl, by decide⟩
    · refine ⟨_, _, rfl, ?_⟩
      rintro rfl
      cases hletter

theorem escaped_inj
    (h : string.flatMap escapeByte ++ quote :: t = string'.flatMap escapeByte ++ quote :: t') :
    string = string' ∧ t = t' := by
  induction string generalizing string' with
  | nil =>
    cases string' with
    | nil => exact ⟨rfl, (cons.inj h).2⟩
    | cons byte' string' =>
      obtain ⟨first, rest, htext, hfirst⟩ := escapeByte_head byte'
      rw [flatMap_cons, htext] at h
      exact absurd (cons.inj h).1.symm hfirst
  | cons byte string ih =>
    cases string' with
    | nil =>
      obtain ⟨first, rest, htext, hfirst⟩ := escapeByte_head byte
      rw [flatMap_cons, htext] at h
      exact absurd (cons.inj h).1 hfirst
    | cons byte' string' =>
      rw [flatMap_cons, flatMap_cons, append_assoc, append_assoc] at h
      have hread := congrArg readEscaped h
      rw [readEscaped_escapeByte, readEscaped_escapeByte, Option.some_inj, Prod.mk.injEq] at hread
      obtain ⟨rfl, hrest⟩ := hread
      obtain ⟨rfl, htail⟩ := ih hrest
      exact ⟨rfl, htail⟩

theorem writeEscapedString_ok (h : writeEscapedString string = .ok text) :
    text = quote :: (string.flatMap escapeByte ++ [quote]) := by
  unfold writeEscapedString at h
  cases hunits : utf16Units string with
  | error e =>
    rw [hunits] at h
    cases h
  | ok units =>
    rw [hunits] at h
    exact (ok.inj h).symm

theorem writeEscapedString_inj {text' : Bytes} (h : writeEscapedString string = .ok text)
    (h' : writeEscapedString string' = .ok text') (heq : text ++ t = text' ++ t') :
    string = string' ∧ t = t' := by
  rw [writeEscapedString_ok h, writeEscapedString_ok h'] at heq
  simp only [cons_append, append_assoc] at heq
  exact escaped_inj (cons.inj heq).2

/-! ### The first byte -/

inductive JsonKind where
  | null
  | boolean
  | number
  | string
  | array
  | object
deriving DecidableEq

def JsonValue.kind : JsonValue → JsonKind
  | .null => .null
  | .boolean _ => .boolean
  | .integer _ | .unsigned _ | .double _ => .number
  | .string _ => .string
  | .array _ => .array
  | .object _ => .object

/-- The kind of a value from the first byte of its text. -/
def kindOf (byte : UInt8) : Option JsonKind :=
  if byte = 'n'.toUInt8 then some .null
  else if byte = 't'.toUInt8 ∨ byte = 'f'.toUInt8 then some .boolean
  else if byte = quote then some .string
  else if byte = '['.toUInt8 then some .array
  else if byte = '\x7b'.toUInt8 then some .object
  else if isNumberByte byte then some .number
  else none

theorem kindOf_number {byte : UInt8} (h : isNumberByte byte = true) :
    kindOf byte = some .number := by
  have hne (other : UInt8) (hother : isNumberByte other = false) : ¬ byte = other := by
    rintro rfl
    rw [h] at hother
    cases hother
  unfold kindOf
  rw [if_neg (hne _ (by decide)), if_neg, if_neg (hne _ (by decide)), if_neg (hne _ (by decide)),
    if_neg (hne _ (by decide)), if_pos h]
  rintro (heq | heq)
  · exact hne _ (by decide) heq
  · exact hne _ (by decide) heq

section values

variable {library : JsonLibrary}

variable {v : JsonValue} {t t' text text' : Bytes} {elements : List JsonValue}
    {members : List (Bytes × JsonValue)} {properties : List CanonicalProperty}

theorem JsonValue.Stored.isBinary64 (h : v.Stored) {x : ℚ} (hx : v.asNumber = some (.finite x)) :
    IsBinary64 x := by
  cases v with
  | integer value =>
    obtain ⟨hlow, hhigh⟩ := h
    simp only [asNumber, Option.some_inj, Double.finite.injEq] at hx
    rw [← hx]
    exact isBinary64_roundInt (by omega)
  | unsigned value =>
    have hlt : value < 2 ^ 64 := h
    simp only [asNumber, Option.some_inj, Double.finite.injEq] at hx
    rw [← hx]
    exact isBinary64_roundInt (by omega)
  | double value =>
    simp only [asNumber, Option.some_inj] at hx
    subst hx
    exact h
  | _ => cases hx

theorem writeNumber_ok (hreads : library.ReadsNearest) (hprints : library.PrintsShortest)
    (hv : v.Stored) (h : writeNumber library v = .ok text) :
    ∃ x, v.asNumber = some (.finite x) ∧ library.fromChars text = some (.finite x) ∧
      text.all isNumberByte = true ∧ text ≠ [] := by
  unfold writeNumber at h
  cases hnumber : v.asNumber with
  | none =>
    rw [hnumber] at h
    cases h
  | some number =>
    rw [hnumber] at h
    cases number with
    | finite x =>
      obtain ⟨number, hformed, rfl, hread⟩ :=
        fromChars_ecmascriptNumber hreads hprints (hv.isBinary64 hnumber) h
      refine ⟨x, rfl, hread, number.text_isNumberByte hformed, ?_⟩
      obtain ⟨b, rest, hinteger, -⟩ := NumberText.integer_cons hformed
      simp [NumberText.text, hinteger]
    | negativeZero => cases h
    | infinite negative => cases h
    | nan => cases h

theorem writeElements_eq (elements : List JsonValue) :
    writeElements library elements = elements.map (writeCanonical library) := by
  induction elements with
  | nil => rw [writeElements, map_nil]
  | cons element elements ih => rw [writeElements, ih, map_cons]

theorem writeArray_ok (h : writeCanonical library (.array elements) = .ok text) :
    ∃ inner, joinCommas (elements.map (writeCanonical library)) = .ok inner ∧
      text = '['.toUInt8 :: (inner ++ [']'.toUInt8]) := by
  rw [writeCanonical, writeElements_eq] at h
  cases htext : joinCommas (elements.map (writeCanonical library)) with
  | error e =>
    rw [htext] at h
    cases h
  | ok inner =>
    rw [htext] at h
    exact ⟨inner, rfl, (ok.inj h).symm⟩

theorem writeMembers_ok (h : writeMembers library members = .ok properties) :
    List.Forall₂ (fun member property => property.name = member.1 ∧
      utf16Units member.1 = .ok property.sortKey ∧
      property.value = writeCanonical library member.2) members properties := by
  induction members generalizing properties with
  | nil =>
    rw [← ok.inj h]
    exact .nil
  | cons member members ih =>
    obtain ⟨name, value⟩ := member
    rw [writeMembers] at h
    cases hunits : utf16Units name with
    | error e =>
      rw [hunits] at h
      cases h
    | ok units =>
      rw [hunits, ok_bind] at h
      cases hrest : writeMembers library members with
      | error e =>
        rw [hrest] at h
        cases h
      | ok rest =>
        rw [hrest, ok_bind] at h
        rw [← ok.inj h]
        exact .cons ⟨rfl, hunits, rfl⟩ (ih hrest)

/-- The properties in the order in which they are written. -/
def sortProperties (properties : List CanonicalProperty) : List CanonicalProperty :=
  properties.insertionSort fun left right => left.sortKey ≤ right.sortKey

theorem writeObject_ok (h : writeCanonical library (.object members) = .ok text) :
    ∃ properties inner, writeMembers library members = .ok properties ∧
      joinCommas ((sortProperties properties).map CanonicalProperty.write) = .ok inner ∧
      text = '\x7b'.toUInt8 :: (inner ++ ['\x7d'.toUInt8]) := by
  rw [writeCanonical] at h
  cases hproperties : writeMembers library members with
  | error e =>
    rw [hproperties] at h
    cases h
  | ok properties =>
    rw [hproperties, ok_bind] at h
    change joinCommas ((sortProperties properties).map CanonicalProperty.write) >>= _ = _ at h
    cases htext : joinCommas ((sortProperties properties).map CanonicalProperty.write) with
    | error e =>
      rw [htext] at h
      cases h
    | ok inner =>
      rw [htext] at h
      exact ⟨properties, inner, rfl, htext, (ok.inj h).symm⟩

theorem canonicalizeJson_ok {limits : JsonParseLimits} {bytes : Bytes}
    (h : canonicalizeJson library limits v = .ok bytes) : writeCanonical library v = .ok bytes := by
  unfold canonicalizeJson at h
  cases hsize : preflightConstructedJson library limits v with
  | error e =>
    rw [hsize] at h
    cases h
  | ok size =>
    rw [hsize] at h
    exact h

theorem writeCanonical_head (hreads : library.ReadsNearest) (hprints : library.PrintsShortest)
    (hv : v.Stored) (h : writeCanonical library v = .ok text) :
    ∃ first rest, text = first :: rest ∧ kindOf first = some v.kind := by
  have hnumber (h : writeNumber library v = .ok text) :
      ∃ first rest, text = first :: rest ∧ kindOf first = some .number := by
    obtain ⟨-, -, -, hall, hne⟩ := writeNumber_ok hreads hprints hv h
    cases text with
    | nil => exact absurd rfl hne
    | cons first rest =>
      rw [all_cons, Bool.and_eq_true] at hall
      exact ⟨first, rest, rfl, kindOf_number hall.1⟩
  cases v with
  | null =>
    rw [writeCanonical] at h
    exact ⟨_, _, (ok.inj h).symm, rfl⟩
  | boolean value =>
    rw [writeCanonical] at h
    cases value with
    | true => exact ⟨_, _, (ok.inj h).symm, rfl⟩
    | false => exact ⟨_, _, (ok.inj h).symm, rfl⟩
  | string value =>
    rw [writeCanonical] at h
    exact ⟨_, _, writeEscapedString_ok h, rfl⟩
  | array elements =>
    obtain ⟨inner, -, rfl⟩ := writeArray_ok h
    exact ⟨_, _, rfl, rfl⟩
  | object members =>
    obtain ⟨properties, inner, -, -, rfl⟩ := writeObject_ok h
    exact ⟨_, _, rfl, rfl⟩
  | integer value | unsigned value | double value =>
    rw [writeCanonical] at h
    exact hnumber h

/-! ### Lists -/

/-- A text of texts between commas is the first of them and what comes after it. -/
theorem joinCommas_cons {text : Scanned Bytes} {texts : List (Scanned Bytes)} {joined : Bytes}
    (h : joinCommas (text :: texts) = .ok joined) :
    ∃ first rest, text = .ok first ∧ joined = first ++ rest ∧
      (texts = [] ∧ rest = [] ∨
        texts ≠ [] ∧ ∃ more, joinCommas texts = .ok more ∧ rest = ','.toUInt8 :: more) := by
  cases texts with
  | nil => exact ⟨joined, [], h, (append_nil _).symm, .inl ⟨rfl, rfl⟩⟩
  | cons text' texts =>
    unfold joinCommas at h
    cases text with
    | error e => cases h
    | ok first =>
      rw [ok_bind] at h
      cases hmore : joinCommas (text' :: texts) with
      | error e =>
        rw [hmore] at h
        cases h
      | ok more =>
        rw [hmore, ok_bind] at h
        exact ⟨first, _, rfl, (ok.inj h).symm, .inr ⟨by simp, more, rfl, rfl⟩⟩

/-- Texts between commas up to a closing byte, read from both sides: they are as many, and they
correspond where the texts do. -/
theorem joinCommas_inj {α β : Type} {write : α → Scanned Bytes} {write' : β → Scanned Bytes}
    {related : α → β → Prop} {close : UInt8} (hclose : isNumberByte close = false)
    (hcomma : close ≠ ','.toUInt8) {xs : List α} {ys : List β}
    (hxs : ∀ x ∈ xs, ∀ text, write x = .ok text → ∃ first rest, text = first :: rest ∧
      first ≠ close)
    (hys : ∀ y ∈ ys, ∀ text, write' y = .ok text → ∃ first rest, text = first :: rest ∧
      first ≠ close)
    (hinj : ∀ x ∈ xs, ∀ y ∈ ys, ∀ text text' t t', write x = .ok text → write' y = .ok text' →
      text ++ t = text' ++ t' → Stops isNumberByte t → Stops isNumberByte t' → related x y ∧ t = t')
    {a b : Bytes} (ha : joinCommas (xs.map write) = .ok a) (hb : joinCommas (ys.map write') = .ok b)
    (h : a ++ close :: t = b ++ close :: t') : List.Forall₂ related xs ys ∧ t = t' := by
  induction xs generalizing ys a b with
  | nil =>
    rw [← ok.inj ha] at h
    cases ys with
    | nil =>
      rw [← ok.inj hb] at h
      exact ⟨.nil, (cons.inj h).2⟩
    | cons y ys =>
      obtain ⟨text, rest, hwrite, rfl, -⟩ := joinCommas_cons hb
      obtain ⟨first, tail, rfl, hfirst⟩ := hys y (mem_cons_self ..) text hwrite
      exact absurd (cons.inj h).1.symm hfirst
  | cons x xs ih =>
    obtain ⟨text, rest, hwrite, rfl, hrest⟩ := joinCommas_cons ha
    cases ys with
    | nil =>
      rw [← ok.inj hb] at h
      obtain ⟨first, tail, rfl, hfirst⟩ := hxs x (mem_cons_self ..) text hwrite
      exact absurd (cons.inj h).1 hfirst
    | cons y ys =>
      obtain ⟨text', rest', hwrite', rfl, hrest'⟩ := joinCommas_cons hb
      have hstops {rest t : Bytes} (hcase : rest = [] ∨ ∃ more, rest = ','.toUInt8 :: more) :
          Stops isNumberByte (rest ++ close :: t) := by
        rcases hcase with rfl | ⟨more, rfl⟩
        · exact Stops.cons hclose
        · exact Stops.cons (by decide)
      rw [append_assoc, append_assoc] at h
      obtain ⟨hrelated, htail⟩ := hinj x (mem_cons_self ..) y (mem_cons_self ..)
        text text' _ _ hwrite hwrite' h
        (hstops (hrest.imp And.right fun ⟨_, more, _, hmore⟩ => ⟨more, hmore⟩))
        (hstops (hrest'.imp And.right fun ⟨_, more, _, hmore⟩ => ⟨more, hmore⟩))
      rcases hrest with ⟨hnil, rfl⟩ | ⟨hne, more, hmore, rfl⟩
      · rcases hrest' with ⟨hnil', rfl⟩ | ⟨-, more', -, rfl⟩
        · rw [map_eq_nil_iff.1 hnil, map_eq_nil_iff.1 hnil']
          exact ⟨.cons hrelated .nil, (cons.inj htail).2⟩
        · exact absurd (cons.inj htail).1 hcomma
      · rcases hrest' with ⟨-, rfl⟩ | ⟨-, more', hmore', rfl⟩
        · exact absurd (cons.inj htail).1.symm hcomma
        · obtain ⟨hall, ht⟩ := ih (fun x hx => hxs x (mem_cons_of_mem _ hx))
            (fun y hy => hys y (mem_cons_of_mem _ hy))
            (fun x hx y hy => hinj x (mem_cons_of_mem _ hx) y (mem_cons_of_mem _ hy))
            hmore hmore' (cons.inj htail).2
          exact ⟨.cons hrelated hall, ht⟩

theorem CanonicalProperty.write_ok {property : CanonicalProperty} (h : property.write = .ok text) :
    ∃ name value, writeEscapedString property.name = .ok name ∧ property.value = .ok value ∧
      text = name ++ ':'.toUInt8 :: value := by
  unfold write at h
  cases hname : writeEscapedString property.name with
  | error e =>
    rw [hname] at h
    cases h
  | ok name =>
    rw [hname, ok_bind] at h
    cases hvalue : property.value with
    | error e =>
      rw [hvalue] at h
      cases h
    | ok value =>
      rw [hvalue] at h
      exact ⟨name, value, rfl, rfl, (ok.inj h).symm⟩

/-! ### Values -/

/-- The text of the value tells the value, up to rounding. -/
def ReadBack (library : JsonLibrary) (v : JsonValue) : Prop :=
  ∀ w : JsonValue, v.Valid → w.Valid → ∀ text text' t t', writeCanonical library v = .ok text →
    writeCanonical library w = .ok text' → text ++ t = text' ++ t' →
      Stops isNumberByte t → Stops isNumberByte t' → v.Alike SameDouble w ∧ t = t'

theorem readBack_number (hreads : library.ReadsNearest) (hprints : library.PrintsShortest)
    {w : JsonValue} (hv : v.Valid) (hw : w.Valid) (h : writeNumber library v = .ok text)
    (h' : writeNumber library w = .ok text') (heq : text ++ t = text' ++ t')
    (ht : Stops isNumberByte t) (ht' : Stops isNumberByte t') : v.Alike SameDouble w ∧ t = t' := by
  obtain ⟨x, hx, hread, hall, -⟩ := writeNumber_ok hreads hprints hv.here h
  obtain ⟨y, hy, hread', hall', -⟩ := writeNumber_ok hreads hprints hw.here h'
  obtain ⟨rfl, htail⟩ := Stops.append_inj hall hall' ht ht' heq
  rw [hread, Option.some_inj] at hread'
  rw [← hread'] at hy
  rw [alike_number (by rw [hx]; rfl)]
  exact ⟨⟨_, hx, hy⟩, htail⟩

theorem readBack_array (hreads : library.ReadsNearest) (hprints : library.PrintsShortest)
    {elements' : List JsonValue} (ih : ∀ element ∈ elements, ReadBack library element)
    (hv : (array elements).Valid) (hw : (array elements').Valid)
    (h : writeCanonical library (.array elements) = .ok text)
    (h' : writeCanonical library (.array elements') = .ok text') (heq : text ++ t = text' ++ t') :
    (array elements).Alike SameDouble (.array elements') ∧ t = t' := by
  obtain ⟨inner, hinner, rfl⟩ := writeArray_ok h
  obtain ⟨inner', hinner', rfl⟩ := writeArray_ok h'
  have hhead {elements : List JsonValue} (hv : (array elements).Valid) :
      ∀ element ∈ elements, ∀ text, writeCanonical library element = .ok text →
        ∃ first rest, text = first :: rest ∧ first ≠ ']'.toUInt8 := by
    intro element helement text htext
    obtain ⟨first, rest, rfl, hkind⟩ :=
      writeCanonical_head hreads hprints (hv.child helement).here htext
    refine ⟨first, rest, rfl, ?_⟩
    rintro rfl
    cases hkind
  simp only [cons_append, append_assoc] at heq
  obtain ⟨hall, ht⟩ := joinCommas_inj (by decide) (by decide) (hhead hv) (hhead hw)
    (fun element helement element' helement' text text' t t' htext htext' heq hstops hstops' =>
      ih element helement element' (hv.child helement) (hw.child helement') text text' t t' htext
        htext' heq hstops hstops')
    hinner hinner' (cons.inj heq).2
  rw [alike_array]
  exact ⟨⟨elements', rfl, hall⟩, ht⟩

/-- The properties of an object that is written, each with its member. -/
theorem mem_sortProperties (h : writeMembers library members = .ok properties) :
    (sortProperties properties).length = members.length ∧
      (∀ property ∈ sortProperties properties, ∃ member ∈ members, property.name = member.1 ∧
        property.value = writeCanonical library member.2) ∧
      ∀ member ∈ members, ∃ property ∈ sortProperties properties, property.name = member.1 := by
  have hall := writeMembers_ok h
  have hperm : (sortProperties properties).Perm properties := perm_insertionSort _ _
  refine ⟨?_, ?_, ?_⟩
  · rw [hperm.length_eq, hall.length_eq]
  · intro property hproperty
    obtain ⟨member, hmember, hname, -, hvalue⟩ :=
      exists_related hall.flip (hperm.mem_iff.1 hproperty)
    exact ⟨member, hmember, hname, hvalue⟩
  · intro member hmember
    obtain ⟨property, hproperty, hname, -⟩ := exists_related hall hmember
    exact ⟨property, hperm.mem_iff.2 hproperty, hname⟩

theorem readBack_object {members' : List (Bytes × JsonValue)}
    (ih : ∀ member ∈ members, ReadBack library member.2) (hv : (object members).Valid)
    (hw : (object members').Valid) (h : writeCanonical library (.object members) = .ok text)
    (h' : writeCanonical library (.object members') = .ok text') (heq : text ++ t = text' ++ t') :
    (object members).Alike SameDouble (.object members') ∧ t = t' := by
  obtain ⟨properties, inner, hproperties, hinner, rfl⟩ := writeObject_ok h
  obtain ⟨properties', inner', hproperties', hinner', rfl⟩ := writeObject_ok h'
  obtain ⟨hlength, hmember, hevery⟩ := mem_sortProperties hproperties
  obtain ⟨hlength', hmember', -⟩ := mem_sortProperties hproperties'
  have hchild {members : List (Bytes × JsonValue)} {member : Bytes × JsonValue}
      (h : (object members).Valid) (hmem : member ∈ members) : member.2.Valid :=
    h.child (mem_map_of_mem hmem)
  have hhead (properties : List CanonicalProperty) : ∀ property ∈ properties, ∀ text,
      property.write = .ok text → ∃ first rest, text = first :: rest ∧ first ≠ '\x7d'.toUInt8 := by
    intro property _ text htext
    obtain ⟨name, value, hname, -, rfl⟩ := property.write_ok htext
    rw [writeEscapedString_ok hname]
    exact ⟨_, _, rfl, by decide⟩
  simp only [cons_append, append_assoc] at heq
  -- A property is its member's name, a colon and its member's value.
  have hinj : ∀ property ∈ sortProperties properties, ∀ property' ∈ sortProperties properties',
      ∀ text text' t t', property.write = .ok text → property'.write = .ok text' →
        text ++ t = text' ++ t' → Stops isNumberByte t → Stops isNumberByte t' →
          (∃ member ∈ members, ∃ member' ∈ members', property.name = member.1 ∧
            member.1 = member'.1 ∧ member.2.Alike SameDouble member'.2) ∧ t = t' := by
    intro property hproperty property' hproperty' text text' t t' htext htext' heq ht ht'
    obtain ⟨member, hmem, hname, hvalue⟩ := hmember property hproperty
    obtain ⟨member', hmem', hname', hvalue'⟩ := hmember' property' hproperty'
    obtain ⟨name, value, hwrite, hwritten, rfl⟩ := property.write_ok htext
    obtain ⟨name', value', hwrite', hwritten', rfl⟩ := property'.write_ok htext'
    rw [append_assoc, append_assoc] at heq
    obtain ⟨hsame, hrest⟩ := writeEscapedString_inj hwrite hwrite' heq
    rw [hvalue] at hwritten
    rw [hvalue'] at hwritten'
    obtain ⟨halike, htail⟩ := ih member hmem member'.2 (hchild hv hmem) (hchild hw hmem') value
      value' t t' hwritten hwritten' (cons.inj hrest).2 ht ht'
    exact ⟨⟨member, hmem, member', hmem', hname, by rw [← hname, hsame, hname'], halike⟩, htail⟩
  obtain ⟨hall, ht⟩ := joinCommas_inj (by decide) (by decide) (hhead _) (hhead _) hinj hinner hinner'
    (cons.inj heq).2
  refine ⟨?_, ht⟩
  rw [alike_object]
  refine ⟨members', rfl, by rw [← hlength, ← hlength', hall.length_eq], ?_⟩
  intro member hmem
  obtain ⟨property, hproperty, hname⟩ := hevery member hmem
  obtain ⟨property', -, member₁, hmem₁, member', hmem', hname₁, hsame, halike⟩ :=
    exists_related hall hproperty
  -- The name tells the member.
  have hnodup : (members.map Prod.fst).Nodup := hv.here
  have hmember₁ : member₁ = member :=
    inj_on_of_nodup_map hnodup hmem₁ hmem (hname₁.symm.trans hname)
  subst hmember₁
  exact ⟨member'.2, by rw [hsame]; exact hmem', halike⟩

theorem writeCanonical_inj (hreads : library.ReadsNearest) (hprints : library.PrintsShortest)
    (v : JsonValue) : ReadBack library v := by
  induction v using children_induction with
  | step v ih =>
    intro w hv hw text text' t t' h h' heq ht ht'
    have hkind : v.kind = w.kind := by
      obtain ⟨first, rest, rfl, hfirst⟩ := writeCanonical_head hreads hprints hv.here h
      obtain ⟨first', rest', rfl, hfirst'⟩ := writeCanonical_head hreads hprints hw.here h'
      rw [(cons.inj heq).1] at hfirst
      exact Option.some.inj (hfirst.symm.trans hfirst')
    cases v with
    | null =>
      cases w with
      | null =>
        rw [← ok.inj h, ← ok.inj h'] at heq
        exact ⟨by rw [Alike], append_cancel_left heq⟩
      | _ => cases hkind
    | boolean value =>
      cases w with
      | boolean value' =>
        rw [← ok.inj h, ← ok.inj h'] at heq
        cases value <;> cases value'
        · exact ⟨by rw [Alike], append_cancel_left heq⟩
        · exact absurd (cons.inj heq).1 (by decide)
        · exact absurd (cons.inj heq).1 (by decide)
        · exact ⟨by rw [Alike], append_cancel_left heq⟩
      | _ => cases hkind
    | string value =>
      cases w with
      | string value' =>
        rw [writeCanonical] at h h'
        obtain ⟨rfl, htail⟩ := writeEscapedString_inj h h' heq
        exact ⟨by rw [Alike], htail⟩
      | _ => cases hkind
    | array elements =>
      cases w with
      | array elements' => exact readBack_array hreads hprints ih hv hw h h' heq
      | _ => cases hkind
    | object members =>
      cases w with
      | object members' =>
        exact readBack_object (fun member hmem => ih member.2 (mem_map_of_mem hmem)) hv hw h
          h' heq
      | _ => cases hkind
    | integer value | unsigned value | double value =>
      rw [writeCanonical] at h
      cases w with
      | integer value' | unsigned value' | double value' =>
        rw [writeCanonical] at h'
        exact readBack_number hreads hprints hv hw h h' heq ht ht'
      | _ => cases hkind

end values

end AgenticCircuit.Bindings
