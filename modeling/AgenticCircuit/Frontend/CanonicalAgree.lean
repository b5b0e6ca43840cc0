import AgenticCircuit.Bindings.ConstructedLimits
import AgenticCircuit.Frontend.CanonicalNumbers
import AgenticCircuit.Frontend.CanonicalStrings

/-! # The two canonical encoders agree

A Python value and a value of the DOM that represent one JSON value (`Represents`) have the same
canonical bytes: members are sorted alike because their keys are, and the rest is written alike part
by part (`encodeValue_agrees`).  The contract is `canonicalJsonBytes_agrees`. -/

namespace AgenticCircuit.Frontend

open List
open Bindings

/-! ### Representation -/

mutual

/-- The two values stand for one JSON value.  An integer may be held in either integer kind, and the
members of an object come in any order. -/
def Represents : PythonValue → JsonValue → Prop
  | .none, w => w = .null
  | .bool value, w => w = .boolean value
  | .int value, w => w = .integer value ∨ ∃ n : ℕ, value = n ∧ w = .unsigned n
  | .float value, w => w = .double value
  | .str value, w => w = .string (bytesOf value)
  | .list items, w => ∃ elements, w = .array elements ∧ RepresentsItems items elements
  | .dict items, w => ∃ members members', w = .object members ∧ members.Perm members' ∧
      RepresentsEntries items members'

def RepresentsItems : List PythonValue → List JsonValue → Prop
  | [], elements => elements = []
  | item :: items, elements => ∃ element rest, elements = element :: rest ∧
      Represents item element ∧ RepresentsItems items rest

def RepresentsEntries : List (PythonString × PythonValue) → List (Bytes × JsonValue) → Prop
  | [], members => members = []
  | (key, item) :: items, members => ∃ value rest, members = (bytesOf key, value) :: rest ∧
      Represents item value ∧ RepresentsEntries items rest

end

mutual

/-- The values of I-JSON: integers that a binary64 holds, finite floats but the negative zero,
strings of scalar values, and `dict`s, whose keys are distinct. -/
def Portable : PythonValue → Prop
  | .none | .bool _ => True
  | .int value => -(2 ^ 53 - 1) ≤ value ∧ value ≤ 2 ^ 53 - 1
  | .float value => ∃ x, value = .finite x ∧ IsBinary64 x
  | .str value => Scalar value
  | .list items => PortableItems items
  | .dict items => (items.map Prod.fst).Nodup ∧ PortableEntries items

def PortableItems : List PythonValue → Prop
  | [] => True
  | item :: items => Portable item ∧ PortableItems items

def PortableEntries : List (PythonString × PythonValue) → Prop
  | [] => True
  | (key, item) :: items => Scalar key ∧ Portable item ∧ PortableEntries items

end

mutual

def hasFloat : PythonValue → Bool
  | .float _ => true
  | .list items => hasFloatItems items
  | .dict items => hasFloatEntries items
  | _ => false

def hasFloatItems : List PythonValue → Bool
  | [] => false
  | item :: items => hasFloat item || hasFloatItems items

def hasFloatEntries : List (PythonString × PythonValue) → Bool
  | [] => false
  | (_, item) :: items => hasFloat item || hasFloatEntries items

end

variable {value value' : PythonString} {text : Bytes}

mutual

theorem Portable.validate : ∀ {value : PythonValue}, Portable value →
    validateIJsonValue value = .ok ()
  | .none, _ | .bool value, _ => by rw [validateIJsonValue]
  | .int value, h => by
    rw [Portable] at h
    rw [validateIJsonValue, if_pos h]
  | .float value, h => by
    rw [Portable] at h
    obtain ⟨x, rfl, -⟩ := h
    rw [validateIJsonValue]
    rfl
  | .str value, h => by
    rw [Portable] at h
    rw [validateIJsonValue, validateString_ok.2 h]
  | .list items, h => by
    rw [Portable] at h
    rw [validateIJsonValue, PortableItems.validate h]
  | .dict items, h => by
    rw [Portable] at h
    rw [validateIJsonValue, PortableEntries.validate h.2]

theorem PortableItems.validate : ∀ {items : List PythonValue}, PortableItems items →
    validateItems items = .ok ()
  | [], _ => by rw [validateItems]
  | item :: items, h => by
    rw [PortableItems] at h
    rw [validateItems, h.1.validate, PortableItems.validate h.2]
    rfl

theorem PortableEntries.validate : ∀ {items : List (PythonString × PythonValue)},
    PortableEntries items → validateEntries items = .ok ()
  | [], _ => by rw [validateEntries]
  | (key, item) :: items, h => by
    rw [PortableEntries] at h
    rw [validateEntries, validateString_ok.2 h.1, h.2.1.validate, PortableEntries.validate h.2.2]
    rfl

end

/-! ### Keys -/

theorem codeUnits_inj {c c' : CodePoint} (h : IsScalar c) (h' : IsScalar c') {rest rest' : List ℕ}
    (heq : codeUnits c.val ++ rest = codeUnits c'.val ++ rest') : c = c' ∧ rest = rest' := by
  have hrange := isScalar_range h
  have hrange' := isScalar_range h'
  have hlt := c.isLt
  have hlt' := c'.isLt
  unfold codeUnits at heq
  split_ifs at heq with hone hone' hone'
  · obtain ⟨hvalue, hrest⟩ := cons.inj heq
    exact ⟨Fin.ext hvalue, hrest⟩
  · have hhead := (cons.inj heq).1
    omega
  · have hhead := (cons.inj heq).1
    omega
  · obtain ⟨hhigh, htail⟩ := cons.inj heq
    obtain ⟨hlow, hrest⟩ := cons.inj htail
    exact ⟨Fin.ext (by omega), hrest⟩

theorem codeUnits_ne_nil (c : ℕ) (rest : List ℕ) : codeUnits c ++ rest ≠ [] := by
  unfold codeUnits
  split_ifs <;> simp

theorem keyUnits_inj (h : Scalar value) (h' : Scalar value')
    (heq : keyUnits value = keyUnits value') : value = value' := by
  induction value generalizing value' with
  | nil =>
    cases value' with
    | nil => rfl
    | cons c' value' => exact absurd heq.symm (codeUnits_ne_nil _ _)
  | cons c value ih =>
    cases value' with
    | nil => exact absurd heq (codeUnits_ne_nil _ _)
    | cons c' value' =>
      obtain ⟨rfl, hrest⟩ := codeUnits_inj (h c (mem_cons_self ..))
        (h' c' (mem_cons_self ..)) heq
      rw [ih (fun c hc => h c (mem_cons_of_mem _ hc))
        (fun c hc => h' c (mem_cons_of_mem _ hc)) hrest]

/-- The keys of both sides put strings in the same order. -/
theorem sortKey_le : (keyUnits value).flatMap bigEndian ≤ (keyUnits value').flatMap bigEndian ↔
      keyUnits value ≤ keyUnits value' := by
  rw [← List.not_lt, ← not_lt, bigEndian_mono (keyUnits_lt _) (keyUnits_lt _)]

/-! ### Texts -/

/-- One side writes a text of scalar values and the other side its bytes. -/
def Agrees (text : Encoded PythonString) (bytes : Scanned Bytes) : Prop :=
  ∃ written, text = .ok written ∧ Scalar written ∧ bytes = .ok (bytesOf written)

theorem agrees_ascii (h : text.all (· < 0x80) = true) : Agrees (.ok (ascii text)) (.ok text) :=
  ⟨ascii text, rfl, scalar_ascii text, by rw [bytesOf_ascii h]⟩

theorem agrees_string (h : Scalar value) :
    Agrees (encodeString value) (writeEscapedString (bytesOf value)) := by
  obtain ⟨hencode, hwrite⟩ := encodeString_agrees h
  exact ⟨dumpString value, hencode, scalar_dumpString h, hwrite⟩

theorem joinTexts_agrees {texts : List (Encoded PythonString)} {bytes : List (Scanned Bytes)}
    (h : List.Forall₂ Agrees texts bytes) : Agrees (joinTexts texts) (joinCommas bytes) := by
  induction h with
  | nil => exact ⟨[], rfl, nofun, rfl⟩
  | cons hfirst hrest ih =>
    cases hrest with
    | nil => exact hfirst
    | cons hsecond hmore =>
      obtain ⟨first, rfl, hscalar, rfl⟩ := hfirst
      obtain ⟨rest, htexts, hscalar', hbytes⟩ := ih
      refine ⟨first ++ ascii (utf8 ",") ++ rest, ?_,
        (hscalar.append (scalar_ascii _)).append hscalar', ?_⟩
      · rw [joinTexts, htexts]
        · rfl
        · simp
      · rw [joinCommas, hbytes]
        · simp only [bytesOf_append]
          rw [bytesOf_ascii (by decide), append_assoc]
          rfl
        · simp

/-! ### Members -/

/-- The property of the other side. -/
def canonicalProperty (property : Property) : CanonicalProperty where
  name := bytesOf property.key
  sortKey := keyUnits property.key
  value :=
    match property.value with
    | .ok text => .ok (bytesOf text)
    | .error message => jsonError message

/-- A property that can be written. -/
structure Property.Encodable (property : Property) : Prop where
  key : Scalar property.key
  sortKey : property.sortKey = (keyUnits property.key).flatMap bigEndian
  value : Agrees property.value (canonicalProperty property).value

theorem Property.Encodable.agrees {property : Property} (h : property.Encodable) :
    Agrees property.encode (canonicalProperty property).write := by
  obtain ⟨value, hvalue, hscalar, hwritten⟩ := h.value
  obtain ⟨hencode, hwrite⟩ := encodeString_agrees h.key
  refine ⟨dumpString property.key ++ ascii (utf8 ":") ++ value, ?_,
    ((scalar_dumpString h.key).append (scalar_ascii _)).append hscalar, ?_⟩
  · rw [Property.encode, hencode, hvalue]
    rfl
  · have hname : writeEscapedString (canonicalProperty property).name =
        .ok (bytesOf (dumpString property.key)) := hwrite
    rw [CanonicalProperty.write, hname, hwritten]
    simp only [bytesOf_append]
    rw [bytesOf_ascii (by decide), append_assoc]
    rfl

/-- `sorted` by the keys. -/
def sortEntries (properties : List Property) : List Property :=
  properties.insertionSort fun left right => left.sortKey ≤ right.sortKey

instance : Std.Total fun left right : Property => left.sortKey ≤ right.sortKey where
  total _ _ := List.le_total _ _

instance : IsTrans Property fun left right => left.sortKey ≤ right.sortKey where
  trans _ _ _ := List.le_trans

instance : Std.Total fun left right : CanonicalProperty => left.sortKey ≤ right.sortKey where
  total _ _ := le_total _ _

instance : IsTrans CanonicalProperty fun left right => left.sortKey ≤ right.sortKey where
  trans _ _ _ := le_trans

/-- Both sides sort the members alike. -/
theorem sort_agrees {properties : List Property} {written : List CanonicalProperty}
    (hperm : written.Perm (properties.map canonicalProperty))
    (hall : ∀ property ∈ properties, property.Encodable)
    (hnodup : (properties.map Property.key).Nodup) :
    (written.insertionSort fun left right => left.sortKey ≤ right.sortKey) =
      (sortEntries properties).map canonicalProperty := by
  have hsorted : (sortEntries properties).Perm properties := perm_insertionSort _ _
  have hwritten := perm_insertionSort
    (fun left right : CanonicalProperty => left.sortKey ≤ right.sortKey) written
  have hpairwise : (sortEntries properties).Pairwise fun left right =>
      left.sortKey ≤ right.sortKey := pairwise_insertionSort _ _
  have hcanonical : ((sortEntries properties).map canonicalProperty).Pairwise fun left right =>
      left.sortKey ≤ right.sortKey := by
    rw [pairwise_map]
    refine hpairwise.imp_of_mem fun {left right} hleft hright hle => ?_
    rw [(hall _ (hsorted.mem_iff.1 hleft)).sortKey, (hall _ (hsorted.mem_iff.1 hright)).sortKey,
      sortKey_le] at hle
    exact hle
  refine List.Perm.eq_of_pairwise ?_ (pairwise_insertionSort _ _) hcanonical
    (hwritten.trans (hperm.trans (hsorted.map _).symm))
  -- The keys tell the properties.
  intro a b ha hb hle hle'
  obtain ⟨property, hmem, rfl⟩ := mem_map.1 (hperm.mem_iff.1 (hwritten.mem_iff.1 ha))
  obtain ⟨property', hmem', rfl⟩ := mem_map.1 hb
  have hmem'' := hsorted.mem_iff.1 hmem'
  have hkeys : property.key = property'.key :=
    keyUnits_inj (hall _ hmem).key (hall _ hmem'').key (le_antisymm hle hle')
  rw [inj_on_of_nodup_map hnodup hmem hmem'' hkeys]

/-! ### Numbers -/

theorem isNumberByte_ascii (h : text.all isNumberByte = true) : text.all (· < 0x80) = true := by
  rw [all_eq_true] at h ⊢
  intro byte hbyte
  rw [decide_eq_true_eq, UInt8.lt_iff_toNat_lt]
  have hnumber := h byte hbyte
  simp only [isNumberByte, Bool.or_eq_true, beq_iff_eq] at hnumber
  rcases hnumber with ((((hdigit | rfl) | rfl) | rfl) | rfl) | rfl
  · have hrange := digit_le hdigit
    have : (0x80 : UInt8).toNat = 128 := rfl
    omega
  all_goals decide

section agree

variable {library : JsonLibrary} {repr : ℚ → Bytes}

section

variable (hreads : library.ReadsNearest) (hprints : library.PrintsShortest) {w : JsonValue}

include hreads hprints

theorem agrees_number (hw : w.Stored) {text : Bytes}
    (h : writeNumber library w = .ok text) : Agrees (.ok (ascii text)) (writeNumber library w) := by
  obtain ⟨-, -, -, hall, -⟩ := writeNumber_ok hreads hprints hw h
  rw [h]
  exact agrees_ascii (isNumberByte_ascii hall)

theorem encodeInt_agrees {value : ℤ} (hw : Represents (.int value) w)
    (hportable : Portable (.int value)) :
    Agrees (encodeValue repr (.int value)) (writeCanonical library w) := by
  rw [Portable] at hportable
  have hvalue : |value| < 2 ^ 53 := by
    rw [abs_lt]
    omega
  have hnat : value.natAbs < 2 ^ 53 := by omega
  have hwrite : ∀ number : JsonValue, number.asNumber = some (.finite (roundInt value)) →
      writeNumber library number = .ok (decimalText value) := by
    intro number hnumber
    unfold writeNumber
    rw [hnumber, roundInt_of_lt hnat]
    exact ecmascriptNumber_integer hreads hprints hvalue
  rw [Represents] at hw
  rcases hw with rfl | ⟨n, rfl, rfl⟩
  · rw [writeCanonical]
    have hstored : (JsonValue.integer value).Stored := by
      constructor <;> omega
    exact agrees_number hreads hprints hstored (hwrite _ rfl)
  · rw [writeCanonical]
    have hstored : (JsonValue.unsigned n).Stored := by
      change n < 2 ^ 64
      omega
    exact agrees_number hreads hprints hstored (hwrite _ rfl)

theorem encodeFloatValue_agrees (hshares : SharesDigits library repr) {value : Double}
    (hportable : Portable (.float value)) :
    Agrees (encodeValue repr (.float value)) (writeCanonical library (.double value)) := by
  rw [Portable] at hportable
  obtain ⟨x, rfl, hx⟩ := hportable
  obtain ⟨text, hencode, hwrite⟩ := encodeFloat_agrees hshares hx
  have hstored : (JsonValue.double (.finite x)).Stored := hx
  rw [encodeValue, writeCanonical, hencode]
  exact agrees_number hreads hprints hstored hwrite

end

/-! ### Values -/

/-- A member is written to a property. -/
def WrittenTo (library : JsonLibrary) (member : Bytes × JsonValue) (property : CanonicalProperty) :
    Prop :=
  property.name = member.1 ∧ utf16Units member.1 = .ok property.sortKey ∧
    property.value = writeCanonical library member.2

variable {members members' : List (Bytes × JsonValue)} {properties : List CanonicalProperty}
    {items : List (PythonString × PythonValue)}

theorem writeMembers_of (h : List.Forall₂ (WrittenTo library) members properties) :
    writeMembers library members = .ok properties := by
  induction h with
  | nil => rw [writeMembers]
  | @cons member property members properties hfirst _ ih =>
    obtain ⟨name, value⟩ := member
    obtain ⟨name', key, value'⟩ := property
    obtain ⟨hname, hkey, hvalue⟩ := hfirst
    simp only [] at hname hkey hvalue
    rw [writeMembers, hkey, ih, hname, hvalue]
    rfl

theorem writeMembers_perm (h : members.Perm members')
    (hwritten : writeMembers library members' = .ok properties) :
    ∃ properties', writeMembers library members = .ok properties' ∧ properties'.Perm properties := by
  obtain ⟨properties', hall, hperm⟩ := perm_comp_forall₂ h (writeMembers_ok hwritten)
  exact ⟨properties', writeMembers_of hall, hperm⟩

/-- What the items of a `dict` come to on both sides. -/
structure EntriesAgree (library : JsonLibrary) (repr : ℚ → Bytes)
    (items : List (PythonString × PythonValue)) (members : List (Bytes × JsonValue))
    (properties : List Property) : Prop where
  encoded : encodeEntries repr items = .ok properties
  keys : properties.map Property.key = items.map Prod.fst
  written : writeMembers library members = .ok (properties.map canonicalProperty)
  encodable : ∀ property ∈ properties, property.Encodable

theorem EntriesAgree.cons {key : PythonString} {item : PythonValue} {value : JsonValue}
    {properties : List Property} (hkey : Scalar key)
    (hvalue : Agrees (encodeValue repr item) (writeCanonical library value))
    (h : EntriesAgree library repr items members properties) :
    ∃ properties', EntriesAgree library repr ((key, item) :: items) ((bytesOf key, value) :: members)
      properties' := by
  obtain ⟨text, hencode, hscalar, hwrite⟩ := hvalue
  refine ⟨⟨key, (keyUnits key).flatMap bigEndian, encodeValue repr item⟩ :: properties, ?_, ?_, ?_, ?_⟩
  · rw [encodeEntries, utf16SortKey_scalar hkey, h.encoded]
    rfl
  · rw [map_cons, map_cons, h.keys]
  · rw [writeMembers, utf16Units_scalar hkey, h.written, hwrite, map_cons, canonicalProperty,
      hencode]
    rfl
  · rw [forall_mem_cons]
    refine ⟨⟨hkey, rfl, text, hencode, hscalar, ?_⟩, h.encodable⟩
    rw [canonicalProperty, hencode]

theorem Agrees.enclose {text : Encoded PythonString} {bytes : Scanned Bytes} (h : Agrees text bytes)
    {opening closing : UInt8} (hopening : opening < 0x80) (hclosing : closing < 0x80) :
    Agrees (do pure (ascii [opening] ++ (← text) ++ ascii [closing]))
      (do pure (opening :: (← bytes) ++ [closing])) := by
  obtain ⟨written, rfl, hscalar, rfl⟩ := h
  refine ⟨_, rfl, ((scalar_ascii _).append hscalar).append (scalar_ascii _), ?_⟩
  rw [bytesOf_append, bytesOf_append, bytesOf_ascii (by simpa using hopening),
    bytesOf_ascii (by simpa using hclosing)]
  rfl

theorem encodeDict_agrees {properties : List Property} (hperm : members.Perm members')
    (hnodup : (items.map Prod.fst).Nodup)
    (h : EntriesAgree library repr items members' properties) :
    Agrees (encodeValue repr (.dict items)) (writeCanonical library (.object members)) := by
  obtain ⟨written, hwritten, hwrittenPerm⟩ := writeMembers_perm hperm h.written
  have hsorted := sort_agrees hwrittenPerm h.encodable (by rwa [h.keys])
  have htexts : List.Forall₂ Agrees ((sortEntries properties).map Property.encode)
      (((sortEntries properties).map canonicalProperty).map CanonicalProperty.write) := by
    rw [map_map, forall₂_map_left_iff, forall₂_map_right_iff, forall₂_same]
    intro property hproperty
    have hmem : property ∈ properties := (perm_insertionSort _ _).mem_iff.1 hproperty
    exact (h.encodable property hmem).agrees
  have hjoined := (joinTexts_agrees htexts).enclose (show '\x7b'.toUInt8 < 0x80 by decide)
    (show '\x7d'.toUInt8 < 0x80 by decide)
  rw [← hsorted] at hjoined
  rw [encodeValue, writeCanonical, h.encoded, hwritten]
  exact hjoined

mutual

theorem encodeValue_agrees (hreads : library.ReadsNearest) (hprints : library.PrintsShortest) :
    ∀ (value : PythonValue) (w : JsonValue), Represents value w → Portable value →
      (hasFloat value = true → SharesDigits library repr) →
        Agrees (encodeValue repr value) (writeCanonical library w)
  | .none, w, hw, _, _ => by
    rw [Represents] at hw
    rw [hw, encodeValue, writeCanonical]
    exact agrees_ascii (by decide)
  | .bool value, w, hw, _, _ => by
    rw [Represents] at hw
    rw [hw, encodeValue, writeCanonical]
    cases value <;> exact agrees_ascii (by decide)
  | .int value, w, hw, hportable, _ => encodeInt_agrees hreads hprints hw hportable
  | .float value, w, hw, hportable, hshares => by
    rw [Represents] at hw
    rw [hw]
    exact encodeFloatValue_agrees hreads hprints (hshares (by rw [hasFloat])) hportable
  | .str value, w, hw, hportable, _ => by
    rw [Represents] at hw
    rw [Portable] at hportable
    rw [hw, encodeValue, writeCanonical]
    exact agrees_string hportable
  | .list items, w, hw, hportable, hshares => by
    rw [Represents] at hw
    rw [Portable] at hportable
    rw [hasFloat] at hshares
    obtain ⟨elements, rfl, hitems⟩ := hw
    have hall := encodeItems_agrees hreads hprints items elements hitems hportable hshares
    rw [encodeValue, writeCanonical, writeElements_eq]
    exact (joinTexts_agrees hall).enclose (by decide) (by decide)
  | .dict items, w, hw, hportable, hshares => by
    rw [Represents] at hw
    rw [Portable] at hportable
    rw [hasFloat] at hshares
    obtain ⟨members, members', rfl, hperm, hitems⟩ := hw
    obtain ⟨properties, h⟩ :=
      encodeEntries_agrees hreads hprints items members' hitems hportable.2 hshares
    exact encodeDict_agrees hperm hportable.1 h

theorem encodeItems_agrees (hreads : library.ReadsNearest) (hprints : library.PrintsShortest) :
    ∀ (items : List PythonValue) (elements : List JsonValue), RepresentsItems items elements →
      PortableItems items → (hasFloatItems items = true → SharesDigits library repr) →
        List.Forall₂ Agrees (encodeItems repr items) (elements.map (writeCanonical library))
  | [], elements, hitems, _, _ => by
    rw [RepresentsItems] at hitems
    rw [hitems, encodeItems]
    exact .nil
  | item :: items, elements, hitems, hportable, hshares => by
    rw [RepresentsItems] at hitems
    rw [PortableItems] at hportable
    rw [hasFloatItems, Bool.or_eq_true] at hshares
    obtain ⟨element, rest, rfl, hitem, hrest⟩ := hitems
    rw [encodeItems, map_cons]
    exact .cons (encodeValue_agrees hreads hprints item element hitem hportable.1
        fun hfloat => hshares (.inl hfloat))
      (encodeItems_agrees hreads hprints items rest hrest hportable.2
        fun hfloat => hshares (.inr hfloat))

theorem encodeEntries_agrees (hreads : library.ReadsNearest) (hprints : library.PrintsShortest) :
    ∀ (items : List (PythonString × PythonValue)) (members : List (Bytes × JsonValue)),
      RepresentsEntries items members → PortableEntries items →
      (hasFloatEntries items = true → SharesDigits library repr) →
        ∃ properties, EntriesAgree library repr items members properties
  | [], members, hitems, _, _ => by
    rw [RepresentsEntries] at hitems
    rw [hitems]
    exact ⟨[], by rw [encodeEntries], rfl, by rw [writeMembers]; rfl, nofun⟩
  | (key, item) :: items, members, hitems, hportable, hshares => by
    rw [RepresentsEntries] at hitems
    rw [PortableEntries] at hportable
    rw [hasFloatEntries, Bool.or_eq_true] at hshares
    obtain ⟨value, rest, rfl, hitem, hrest⟩ := hitems
    obtain ⟨hkey, hfirst, hmore⟩ := hportable
    obtain ⟨properties, h⟩ := encodeEntries_agrees hreads hprints items rest hrest hmore
      fun hfloat => hshares (.inr hfloat)
    exact h.cons hkey (encodeValue_agrees hreads hprints item value hitem hfirst
      fun hfloat => hshares (.inl hfloat))

end

/-- **The encoders agree.**  On a value of I-JSON without floats, and on every value of I-JSON where
`repr` and `std::to_chars` give the same digits, the encoder in Python succeeds, and
`canonicalizeJson` writes the same bytes whenever the value is within its limits. -/
theorem canonicalJsonBytes_agrees (hreads : library.ReadsNearest) (hprints : library.PrintsShortest)
    {value : PythonValue} {w : JsonValue} (hw : Represents value w) (hportable : Portable value)
    (hshares : hasFloat value = true → SharesDigits library repr) :
    ∃ bytes, canonicalJsonBytes repr value = .ok bytes ∧
      ∀ limits : JsonParseLimits,
        (w.Fits limits → bytes.length ≤ limits.maxInputBytes →
          canonicalizeJson library limits w = .ok bytes) ∧
        ∀ bytes', canonicalizeJson library limits w = .ok bytes' → bytes' = bytes := by
  obtain ⟨text, hencode, hscalar, hwrite⟩ :=
    encodeValue_agrees hreads hprints value w hw hportable hshares
  refine ⟨bytesOf text, ?_, fun limits => ⟨canonicalizeJson_fits hwrite, fun bytes' h => ?_⟩⟩
  · rw [canonicalJsonBytes, hportable.validate, hencode]
    exact encodeUtf8_scalar hscalar
  · have hwrite' := canonicalizeJson_ok h
    rw [hwrite] at hwrite'
    exact (Except.ok.inj hwrite').symm

end agree

/-! ### A `repr` with the digits of a library -/

/-- The number with a small letter. -/
def lowerCase (number : NumberText) : NumberText :=
  { number with exponent := number.exponent.map fun exponent => (lower exponent.1, exponent.2) }

theorem lower_marks : ∀ mark ∈ NumberText.exponentMarks, lower mark ∈ NumberText.exponentMarks ∧
    'E'.toUInt8 ∉ lower mark ∧ ('-'.toUInt8 ∈ lower mark ↔ '-'.toUInt8 ∈ mark) := by
  decide +kernel

theorem lowerCase_wellFormed {number : NumberText} (h : number.WellFormed) :
    (lowerCase number).WellFormed ∧ LowerCase (lowerCase number) ∧
      (lowerCase number).exponentValue = number.exponentValue := by
  have hexponent : ∀ exponent ∈ (lowerCase number).exponent, ∃ exponent' ∈ number.exponent,
      exponent = (lower exponent'.1, exponent'.2) := by
    intro exponent hmem
    obtain ⟨exponent', hexponent', rfl⟩ := Option.mem_map.1 hmem
    exact ⟨exponent', hexponent', rfl⟩
  refine ⟨⟨h.integer, h.fraction, ?_⟩, ?_, ?_⟩
  · intro exponent hmem
    obtain ⟨exponent', hexponent', rfl⟩ := hexponent exponent hmem
    obtain ⟨hmark, hdigits⟩ := h.exponent exponent' hexponent'
    exact ⟨(lower_marks _ hmark).1, hdigits⟩
  · intro exponent hmem
    obtain ⟨exponent', hexponent', rfl⟩ := hexponent exponent hmem
    exact (lower_marks _ (h.exponent exponent' hexponent').1).2.1
  · unfold lowerCase NumberText.exponentValue
    cases hcase : number.exponent with
    | none => rfl
    | some exponent =>
      simp [(lower_marks _ (h.exponent exponent hcase).1).2.2]

open Classical in
/-- Prints what a library prints, with a small letter. -/
noncomputable def lowerRepr (library : JsonLibrary) (x : ℚ) : Bytes :=
  if h : ∃ number : NumberText, number.WellFormed ∧ number.ExponentFits ∧
      library.toChars x = some number.text then
    (lowerCase h.choose).text
  else []

theorem lowerRepr_shares {library : JsonLibrary} (hreads : library.ReadsNearest)
    (hprints : library.PrintsShortest) : SharesDigits library (lowerRepr library) := by
  intro x hx hne
  obtain ⟨number, hformed, hfits, hchars, hread, -⟩ := hprints.prints x hx hne
  have hex : ∃ number : NumberText, number.WellFormed ∧ number.ExponentFits ∧
      library.toChars x = some number.text := ⟨number, hformed, hfits, hchars⟩
  obtain ⟨hformed', hfits', hchars'⟩ := hex.choose_spec
  obtain ⟨hlower, hcase, hexponent⟩ := lowerCase_wellFormed hformed'
  have htext : number.text = hex.choose.text := Option.some.inj (hchars.symm.trans hchars')
  rw [htext] at hread
  refine ⟨hex.choose, lowerCase hex.choose, hformed', hfits', hlower, hcase,
    value_ne_zero hreads hformed' hne hread, hchars', ?_, rfl, rfl, ?_⟩
  · rw [lowerRepr, dif_pos hex]
  · rw [NumberText.scientificExponent, NumberText.scientificExponent, hexponent]
    rfl

/-- A `dict` with an integer, a float and a list, its members in another order on the other side. -/
theorem canonicalJsonBytes_agrees_dict :
    let key (n : ℕ) (h : n < 0x110000) : PythonString := [⟨n, h⟩]
    let value := PythonValue.dict [(key 0xffff (by decide), .int (-5)),
      (key 0x10000 (by decide), .float (.finite (1 / 2))),
      (key 0x61 (by decide), .list [.none, .bool true, .str []])]
    let w := JsonValue.object [
      (bytesOf (key 0x61 (by decide)), .array [.null, .boolean true, .string []]),
      (bytesOf (key 0xffff (by decide)), .integer (-5)),
      (bytesOf (key 0x10000 (by decide)), .double (.finite (1 / 2)))]
    ∃ bytes, canonicalJsonBytes (lowerRepr printingLibrary) value = .ok bytes ∧
      ∀ limits : JsonParseLimits,
        (w.Fits limits → bytes.length ≤ limits.maxInputBytes →
          canonicalizeJson printingLibrary limits w = .ok bytes) ∧
        ∀ bytes', canonicalizeJson printingLibrary limits w = .ok bytes' → bytes' = bytes := by
  have hhalf : IsBinary64 (1 / 2) := ⟨1, -1, by norm_num, by norm_num, by norm_num, by norm_num⟩
  refine canonicalJsonBytes_agrees printingLibrary_reads printingLibrary_prints ?_ ?_
    fun _ => lowerRepr_shares printingLibrary_reads printingLibrary_prints
  · rw [Represents]
    refine ⟨_, _, rfl, (List.Perm.swap _ _ _).trans (.cons _ (.swap _ _ _)), ?_⟩
    simp [RepresentsEntries, Represents, RepresentsItems]
  · simp only [Portable, PortableEntries]
    refine ⟨by decide, ?_, by omega, ?_, ⟨_, rfl, hhalf⟩, ?_, ⟨trivial, trivial, nofun, trivial⟩,
      trivial⟩
    all_goals
      rw [Scalar, forall_mem_singleton]
      rfl

end AgenticCircuit.Frontend
