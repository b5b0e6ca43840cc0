import AgenticCircuit.Frontend.CanonicalAgree

/-! # Canonical texts

The text that `encodeValue` writes for a value of I-JSON without floats, as a plain function: the
items of every `dict` are put in order (`sortKeys`), and the rest is laid out as it stands
(`compactText`). -/

namespace AgenticCircuit.Frontend

open List Frontend
open Bindings

/-! ### Canonical order -/

/-- The bytes that a key is sorted by. -/
def sortBytes (key : PythonString) : Bytes := (keyUnits key).flatMap bigEndian

def KeyBefore (left right : PythonString × PythonValue) : Prop :=
  sortBytes left.1 ≤ sortBytes right.1

instance : DecidableRel KeyBefore := fun left right => by
  unfold KeyBefore
  infer_instance

mutual

/-- The value with the items of every `dict` in canonical order. -/
def sortKeys : PythonValue → PythonValue
  | .list items => .list (sortKeysItems items)
  | .dict items => .dict ((sortKeysEntries items).insertionSort KeyBefore)
  | .none => .none
  | .bool value => .bool value
  | .int value => .int value
  | .float value => .float value
  | .str value => .str value

def sortKeysItems : List PythonValue → List PythonValue
  | [] => []
  | item :: items => sortKeys item :: sortKeysItems items

def sortKeysEntries : List (PythonString × PythonValue) → List (PythonString × PythonValue)
  | [] => []
  | (key, item) :: items => (key, sortKeys item) :: sortKeysEntries items

end

variable {items : List (PythonString × PythonValue)}

theorem sortKeysEntries_eq (items : List (PythonString × PythonValue)) :
    sortKeysEntries items = items.map fun item => (item.1, sortKeys item.2) := by
  induction items with
  | nil => rw [sortKeysEntries, map_nil]
  | cons item items ih => rw [sortKeysEntries, ih, map_cons]

theorem perm_sortKeys (items : List (PythonString × PythonValue)) :
    ((sortKeysEntries items).insertionSort KeyBefore).Perm
      (items.map fun item => (item.1, sortKeys item.2)) := by
  rw [← sortKeysEntries_eq]
  exact perm_insertionSort _ _

/-! ### What the order leaves alone -/

theorem portableItems_iff {items : List PythonValue} :
    PortableItems items ↔ ∀ item ∈ items, Portable item := by
  induction items with
  | nil => rw [PortableItems]; simp
  | cons item items ih => rw [PortableItems, forall_mem_cons, ih]

theorem portableEntries_iff :
    PortableEntries items ↔ ∀ item ∈ items, Scalar item.1 ∧ Portable item.2 := by
  induction items with
  | nil => rw [PortableEntries]; simp
  | cons item items ih => rw [PortableEntries, forall_mem_cons, ih, and_assoc]

theorem hasFloatItems_iff {items : List PythonValue} :
    hasFloatItems items = false ↔ ∀ item ∈ items, hasFloat item = false := by
  induction items with
  | nil => rw [hasFloatItems]; simp
  | cons item items ih => rw [hasFloatItems, Bool.or_eq_false_iff, forall_mem_cons, ih]

theorem hasFloatEntries_iff :
    hasFloatEntries items = false ↔ ∀ item ∈ items, hasFloat item.2 = false := by
  induction items with
  | nil => rw [hasFloatEntries]; simp
  | cons item items ih => rw [hasFloatEntries, Bool.or_eq_false_iff, forall_mem_cons, ih]

/-- An item stands for a member. -/
def RepresentsEntry (item : PythonString × PythonValue) (member : Bytes × JsonValue) : Prop :=
  member.1 = bytesOf item.1 ∧ Represents item.2 member.2

theorem representsEntries_iff {members : List (Bytes × JsonValue)} :
    RepresentsEntries items members ↔ List.Forall₂ RepresentsEntry items members := by
  induction items generalizing members with
  | nil => rw [RepresentsEntries, forall₂_nil_left_iff]
  | cons item items ih =>
    rw [RepresentsEntries, forall₂_cons_left_iff]
    constructor
    · rintro ⟨value, rest, rfl, hfirst, hrest⟩
      exact ⟨_, rest, ⟨rfl, hfirst⟩, ih.1 hrest, rfl⟩
    · rintro ⟨⟨name, value⟩, rest, ⟨rfl, hfirst⟩, hrest, rfl⟩
      exact ⟨value, rest, rfl, hfirst, ih.2 hrest⟩

mutual

theorem Portable.sortKeys : ∀ {value : PythonValue}, Portable value → Portable (sortKeys value)
  | .none, h | .bool _, h | .int _, h | .float _, h | .str _, h => by
    rw [sortKeys]
    exact h
  | .list items, h => by
    rw [Portable] at h
    rw [sortKeys, Portable]
    exact h.sortKeys
  | .dict items, h => by
    rw [Portable] at h
    rw [sortKeys, Portable]
    have hkeys := (perm_sortKeys items).map Prod.fst
    rw [map_map] at hkeys
    refine ⟨hkeys.nodup_iff.2 h.1, portableEntries_iff.2 fun item hitem => ?_⟩
    exact portableEntries_iff.1 h.2.sortKeys item
      ((perm_insertionSort _ _).mem_iff.1 hitem)

theorem PortableItems.sortKeys : ∀ {items : List PythonValue}, PortableItems items →
    PortableItems (sortKeysItems items)
  | [], _ => by rw [sortKeysItems, PortableItems]; trivial
  | item :: items, h => by
    rw [PortableItems] at h
    rw [sortKeysItems, PortableItems]
    exact ⟨h.1.sortKeys, h.2.sortKeys⟩

theorem PortableEntries.sortKeys : ∀ {items : List (PythonString × PythonValue)},
    PortableEntries items → PortableEntries (sortKeysEntries items)
  | [], _ => by rw [sortKeysEntries, PortableEntries]; trivial
  | (key, item) :: items, h => by
    rw [PortableEntries] at h
    rw [sortKeysEntries, PortableEntries]
    exact ⟨h.1, h.2.1.sortKeys, h.2.2.sortKeys⟩

end

mutual

theorem hasFloat_sortKeys : ∀ {value : PythonValue}, hasFloat value = false →
    hasFloat (sortKeys value) = false
  | .none, h | .bool _, h | .int _, h | .float _, h | .str _, h => by
    rw [sortKeys]
    exact h
  | .list items, h => by
    rw [hasFloat] at h
    rw [sortKeys, hasFloat]
    exact hasFloatItems_sortKeys h
  | .dict items, h => by
    rw [hasFloat] at h
    rw [sortKeys, hasFloat, hasFloatEntries_iff]
    exact fun item hitem => hasFloatEntries_iff.1 (hasFloatEntries_sortKeys h) item
      ((perm_insertionSort _ _).mem_iff.1 hitem)

theorem hasFloatItems_sortKeys : ∀ {items : List PythonValue}, hasFloatItems items = false →
    hasFloatItems (sortKeysItems items) = false
  | [], h => by rw [sortKeysItems]; exact h
  | item :: items, h => by
    rw [hasFloatItems, Bool.or_eq_false_iff] at h
    rw [sortKeysItems, hasFloatItems, hasFloat_sortKeys h.1, hasFloatItems_sortKeys h.2]
    rfl

theorem hasFloatEntries_sortKeys : ∀ {items : List (PythonString × PythonValue)},
    hasFloatEntries items = false → hasFloatEntries (sortKeysEntries items) = false
  | [], h => by rw [sortKeysEntries]; exact h
  | (key, item) :: items, h => by
    rw [hasFloatEntries, Bool.or_eq_false_iff] at h
    rw [sortKeysEntries, hasFloatEntries, hasFloat_sortKeys h.1, hasFloatEntries_sortKeys h.2]
    rfl

end

mutual

theorem Represents.sortKeys : ∀ {value : PythonValue} {w : JsonValue}, Represents value w →
    Represents (sortKeys value) w
  | .none, _, h | .bool _, _, h | .int _, _, h | .float _, _, h | .str _, _, h => by
    rw [sortKeys]
    exact h
  | .list items, w, h => by
    rw [Represents] at h
    obtain ⟨elements, rfl, hitems⟩ := h
    rw [sortKeys, Represents]
    exact ⟨elements, rfl, hitems.sortKeys⟩
  | .dict items, w, h => by
    rw [Represents] at h
    obtain ⟨members, members', rfl, hperm, hitems⟩ := h
    rw [sortKeys, Represents]
    obtain ⟨sorted, hall, hsorted⟩ := perm_comp_forall₂
      (perm_insertionSort KeyBefore (sortKeysEntries items))
      (representsEntries_iff.1 hitems.sortKeys)
    exact ⟨members, sorted, rfl, hperm.trans hsorted.symm, representsEntries_iff.2 hall⟩

theorem RepresentsItems.sortKeys : ∀ {items : List PythonValue} {elements : List JsonValue},
    RepresentsItems items elements → RepresentsItems (sortKeysItems items) elements
  | [], _, h => by rw [sortKeysItems]; exact h
  | item :: items, elements, h => by
    rw [RepresentsItems] at h
    obtain ⟨element, rest, rfl, hfirst, hrest⟩ := h
    rw [sortKeysItems, RepresentsItems]
    exact ⟨element, rest, rfl, hfirst.sortKeys, hrest.sortKeys⟩

theorem RepresentsEntries.sortKeys : ∀ {items : List (PythonString × PythonValue)}
    {members : List (Bytes × JsonValue)}, RepresentsEntries items members →
      RepresentsEntries (sortKeysEntries items) members
  | [], _, h => by rw [sortKeysEntries]; exact h
  | (key, item) :: items, members, h => by
    rw [RepresentsEntries] at h
    obtain ⟨value, rest, rfl, hfirst, hrest⟩ := h
    rw [sortKeysEntries, RepresentsEntries]
    exact ⟨value, rest, rfl, hfirst.sortKeys, hrest.sortKeys⟩

end

/-! ### Texts -/

/-- Texts with commas between them. -/
def commaTexts : List PythonString → PythonString
  | [] => []
  | [text] => text
  | text :: texts => text ++ ascii (utf8 ",") ++ commaTexts texts

mutual

def compactText : PythonValue → PythonString
  | .none => ascii (utf8 "null")
  | .bool value => ascii (utf8 (if value then "true" else "false"))
  | .str value => dumpString value
  | .int value => ascii (decimalText value)
  | .float _ => []
  | .list items => ascii (utf8 "[") ++ commaTexts (compactItems items) ++ ascii (utf8 "]")
  | .dict items =>
    ascii (utf8 "\x7b") ++ commaTexts (compactEntries items) ++ ascii (utf8 "\x7d")

def compactItems : List PythonValue → List PythonString
  | [] => []
  | item :: items => compactText item :: compactItems items

def compactEntries : List (PythonString × PythonValue) → List PythonString
  | [] => []
  | (key, item) :: items =>
    (dumpString key ++ ascii (utf8 ":") ++ compactText item) :: compactEntries items

end

theorem compactItems_eq (items : List PythonValue) :
    compactItems items = items.map compactText := by
  induction items with
  | nil => rw [compactItems, map_nil]
  | cons item items ih => rw [compactItems, ih, map_cons]

theorem compactEntries_eq (items : List (PythonString × PythonValue)) : compactEntries items =
      items.map fun item => dumpString item.1 ++ ascii (utf8 ":") ++ compactText item.2 := by
  induction items with
  | nil => rw [compactEntries, map_nil]
  | cons item items ih => rw [compactEntries, ih, map_cons]

theorem joinTexts_ok (texts : List PythonString) :
    joinTexts (texts.map .ok) = .ok (commaTexts texts) := by
  induction texts with
  | nil => rfl
  | cons text texts ih =>
    cases texts with
    | nil => rfl
    | cons text' texts =>
      have hcons : commaTexts (text :: text' :: texts) =
          text ++ ascii (utf8 ",") ++ commaTexts (text' :: texts) := rfl
      rw [map_cons, joinTexts, ih, hcons]
      · rfl
      · simp

/-! ### The strings of a text -/

mutual

/-- The strings of a value, its keys among them. -/
def strings : PythonValue → List PythonString
  | .str value => [value]
  | .list items => stringsItems items
  | .dict items => stringsEntries items
  | _ => []

def stringsItems : List PythonValue → List PythonString
  | [] => []
  | item :: items => strings item ++ stringsItems items

def stringsEntries : List (PythonString × PythonValue) → List PythonString
  | [] => []
  | (key, item) :: items => key :: strings item ++ stringsEntries items

end

theorem stringsItems_eq (items : List PythonValue) :
    stringsItems items = items.flatMap strings := by
  induction items with
  | nil => rw [stringsItems, flatMap_nil]
  | cons item items ih => rw [stringsItems, ih, flatMap_cons]

theorem stringsEntries_eq (items : List (PythonString × PythonValue)) :
    stringsEntries items = items.flatMap fun item => item.1 :: strings item.2 := by
  induction items with
  | nil => rw [stringsEntries, flatMap_nil]
  | cons item items ih => rw [stringsEntries, ih, flatMap_cons]

/-- A text has no control characters, and its other code points beyond ASCII are those of some
strings. -/
def Shows (text : PythonString) (values : List PythonString) : Prop :=
  ∀ c ∈ text, 0x20 ≤ c.val ∧ (0x80 ≤ c.val → ∃ value ∈ values, c ∈ value)

/-- The code points of some strings that are beyond ASCII stand in a text. -/
def Keeps (text : PythonString) (values : List PythonString) : Prop :=
  ∀ value ∈ values, ∀ c ∈ value, 0x80 ≤ c.val → c ∈ text

/-- Both. -/
def Exhibits (text : PythonString) (values : List PythonString) : Prop :=
  Shows text values ∧ Keeps text values

theorem Exhibits.append {text text' : PythonString} {values values' : List PythonString}
    (h : Exhibits text values) (h' : Exhibits text' values') :
    Exhibits (text ++ text') (values ++ values') := by
  constructor
  · intro c hc
    rcases mem_append.1 hc with hc | hc
    · refine ⟨(h.1 c hc).1, fun hbeyond => ?_⟩
      obtain ⟨value, hvalue, hmem⟩ := (h.1 c hc).2 hbeyond
      exact ⟨value, mem_append_left _ hvalue, hmem⟩
    · refine ⟨(h'.1 c hc).1, fun hbeyond => ?_⟩
      obtain ⟨value, hvalue, hmem⟩ := (h'.1 c hc).2 hbeyond
      exact ⟨value, mem_append_right _ hvalue, hmem⟩
  · intro value hvalue c hc hbeyond
    rcases mem_append.1 hvalue with hvalue | hvalue
    · exact mem_append_left _ (h.2 value hvalue c hc hbeyond)
    · exact mem_append_right _ (h'.2 value hvalue c hc hbeyond)

theorem exhibits_ascii {text : Bytes}
    (h : text.all (fun byte => 0x20 ≤ byte ∧ byte < 0x80) = true) : Exhibits (ascii text) [] := by
  refine ⟨fun c hc => ?_, nofun⟩
  obtain ⟨byte, hbyte, rfl⟩ := mem_map.1 hc
  have hrange := all_eq_true.1 h byte hbyte
  simp only [decide_eq_true_eq, UInt8.le_iff_toNat_le, UInt8.lt_iff_toNat_lt] at hrange
  have hlow : (0x20 : UInt8).toNat = 32 := rfl
  have hhigh : (0x80 : UInt8).toNat = 128 := rfl
  exact ⟨by simp only []; omega, fun hbeyond => absurd hbeyond (by simp only []; omega)⟩

theorem decimalText_visible (value : ℤ) :
    (decimalText value).all (fun byte => 0x20 ≤ byte ∧ byte < 0x80) = true := by
  have hnat (n : ℕ) : (decimalText n).all (fun byte => 0x20 ≤ byte ∧ byte < 0x80) = true := by
    rw [all_eq_true]
    intro byte hbyte
    have hdigit := digit_le (all_eq_true.1 (decimalText_natCast n).digits.2 byte hbyte)
    have hlow : (0x20 : UInt8).toNat = 32 := rfl
    have hhigh : (0x80 : UInt8).toNat = 128 := rfl
    simp only [decide_eq_true_eq, UInt8.le_iff_toNat_le, UInt8.lt_iff_toNat_lt]
    omega
  rcases Int.lt_or_le value 0 with hneg | hpos
  · rw [decimalText_neg hneg, all_cons, hnat]
    rfl
  · rw [← Int.toNat_of_nonneg hpos]
    exact hnat _

theorem exhibits_escape (c : CodePoint) : Exhibits (escapeCodePoint c) [[c]] := by
  have hascii {text : Bytes} (htext : text.all (fun byte => 0x20 ≤ byte ∧ byte < 0x80) = true)
      (hc : c.val < 0x80) : Exhibits (ascii text) [[c]] := by
    refine ⟨fun d hd => ⟨((exhibits_ascii htext).1 d hd).1, fun hbeyond => ?_⟩, ?_⟩
    · obtain ⟨_, hnil, -⟩ := ((exhibits_ascii htext).1 d hd).2 hbeyond
      exact absurd hnil (not_mem_nil)
    · intro value hvalue d hd hbeyond
      rw [mem_singleton.1 hvalue, mem_singleton] at hd
      rw [hd] at hbeyond
      omega
  unfold escapeCodePoint
  split_ifs with h₁ h₂ h₃ h₄ h₅ h₆ h₇ h₈
  · exact hascii (by decide) (by rw [h₁]; decide)
  · exact hascii (by decide) (by rw [h₂]; decide)
  · exact hascii (by decide) (by omega)
  · exact hascii (by decide) (by omega)
  · exact hascii (by decide) (by omega)
  · exact hascii (by decide) (by omega)
  · exact hascii (by decide) (by omega)
  · have hdigits : ∀ n : Fin 0x20, (utf8 "\\u00" ++ [hexDigit (n.val / 16), hexDigit (n.val % 16)]).all
        (fun byte => 0x20 ≤ byte ∧ byte < 0x80) = true := by
      decide +kernel
    exact hascii (hdigits ⟨c.val, h₈⟩) (by omega)
  · refine ⟨fun d hd => ?_, fun value hvalue d hd _ => ?_⟩
    · rw [mem_singleton.1 hd]
      exact ⟨by omega, fun _ => ⟨[c], mem_singleton_self _, mem_singleton_self _⟩⟩
    · rwa [mem_singleton.1 hvalue] at hd

theorem exhibits_dump (value : PythonString) : Exhibits (dumpString value) [value] := by
  have hquote : Exhibits (ascii [quote]) [] := exhibits_ascii (by decide)
  have hbody : Exhibits (value.flatMap escapeCodePoint) [value] := by
    induction value with
    | nil => exact ⟨nofun, fun value hvalue c hc => by rw [mem_singleton.1 hvalue] at hc; cases hc⟩
    | cons c value ih =>
      obtain ⟨hshows, hkeeps⟩ := (exhibits_escape c).append ih
      rw [flatMap_cons]
      refine ⟨fun d hd => ⟨(hshows d hd).1, fun hbeyond => ?_⟩, fun value' hvalue' d hd hbeyond => ?_⟩
      · obtain ⟨part, hpart, hmem⟩ := (hshows d hd).2 hbeyond
        refine ⟨c :: value, mem_singleton_self _, ?_⟩
        simp only [mem_append, mem_singleton] at hpart
        rcases hpart with rfl | rfl
        · exact mem_cons.2 (.inl (mem_singleton.1 hmem))
        · exact mem_cons_of_mem _ hmem
      · rw [mem_singleton.1 hvalue'] at hd
        rcases mem_cons.1 hd with rfl | hd
        · exact hkeeps [d] (by simp) d (mem_singleton_self _) hbeyond
        · exact hkeeps value (by simp) d hd hbeyond
  have hwhole := (hquote.append hbody).append hquote
  rwa [nil_append, List.append_nil] at hwhole

theorem exhibits_comma {ι : Type} {text : ι → PythonString} {values : ι → List PythonString}
    {items : List ι} (h : ∀ item ∈ items, Exhibits (text item) (values item)) :
    Exhibits (commaTexts (items.map text)) (items.flatMap values) := by
  induction items with
  | nil => exact ⟨nofun, nofun⟩
  | cons item items ih =>
    rw [forall_mem_cons] at h
    have hrest := ih h.2
    cases items with
    | nil =>
      rw [flatMap_singleton]
      exact h.1
    | cons item' items =>
      have hcomma : Exhibits (ascii (utf8 ",")) [] := exhibits_ascii (by decide)
      have hwhole := (h.1.append hcomma).append hrest
      rw [List.append_nil] at hwhole
      exact hwhole

mutual

theorem exhibits_compactText : ∀ value : PythonValue, Exhibits (compactText value) (strings value)
  | .none => by
    rw [compactText, strings]
    · exact exhibits_ascii (by decide)
    all_goals exact nofun
  | .bool value => by
    rw [compactText, strings]
    · cases value <;> exact exhibits_ascii (by decide)
    all_goals exact nofun
  | .int value => by
    rw [compactText, strings]
    · exact exhibits_ascii (decimalText_visible value)
    all_goals exact nofun
  | .float _ => by
    rw [compactText, strings]
    · exact ⟨nofun, nofun⟩
    all_goals exact nofun
  | .str value => by
    rw [compactText, strings]
    exact exhibits_dump value
  | .list items => by
    rw [compactText, strings, compactItems_eq, stringsItems_eq]
    have hopen : Exhibits (ascii (utf8 "[")) [] := exhibits_ascii (by decide)
    have hclose : Exhibits (ascii (utf8 "]")) [] := exhibits_ascii (by decide)
    have hwhole := (hopen.append (exhibits_comma (exhibits_compactItems items))).append hclose
    rwa [nil_append, List.append_nil] at hwhole
  | .dict items => by
    rw [compactText, strings, compactEntries_eq, stringsEntries_eq]
    have hopen : Exhibits (ascii (utf8 "\x7b")) [] := exhibits_ascii (by decide)
    have hclose : Exhibits (ascii (utf8 "\x7d")) [] := exhibits_ascii (by decide)
    have hwhole := (hopen.append (exhibits_comma (exhibits_compactEntries items))).append hclose
    rwa [nil_append, List.append_nil] at hwhole

theorem exhibits_compactItems : ∀ items : List PythonValue,
    ∀ item ∈ items, Exhibits (compactText item) (strings item)
  | [] => nofun
  | item :: items =>
    forall_mem_cons.2 ⟨exhibits_compactText item, exhibits_compactItems items⟩

theorem exhibits_compactEntries : ∀ items : List (PythonString × PythonValue),
    ∀ item ∈ items, Exhibits (dumpString item.1 ++ ascii (utf8 ":") ++ compactText item.2)
      (item.1 :: strings item.2)
  | [] => nofun
  | (key, item) :: items => by
    have hcolon : Exhibits (ascii (utf8 ":")) [] := exhibits_ascii (by decide)
    have hfirst := ((exhibits_dump key).append hcolon).append (exhibits_compactText item)
    rw [List.append_nil] at hfirst
    exact forall_mem_cons.2 ⟨hfirst, exhibits_compactEntries items⟩

end

mutual

theorem perm_strings : ∀ value : PythonValue, (strings (sortKeys value)).Perm (strings value)
  | .none | .bool _ | .int _ | .float _ | .str _ => by rw [sortKeys]
  | .list items => by
    rw [sortKeys, strings, strings]
    exact perm_stringsItems items
  | .dict items => by
    rw [sortKeys, strings, strings, stringsEntries_eq]
    refine .trans ((perm_insertionSort _ _).flatMap_right _) ?_
    rw [← stringsEntries_eq]
    exact perm_stringsEntries items

theorem perm_stringsItems : ∀ items : List PythonValue,
    (stringsItems (sortKeysItems items)).Perm (stringsItems items)
  | [] => by rw [sortKeysItems]
  | item :: items => by
    rw [sortKeysItems, stringsItems, stringsItems]
    exact (perm_strings item).append (perm_stringsItems items)

theorem perm_stringsEntries : ∀ items : List (PythonString × PythonValue),
    (stringsEntries (sortKeysEntries items)).Perm (stringsEntries items)
  | [] => by rw [sortKeysEntries]
  | (key, item) :: items => by
    rw [sortKeysEntries, stringsEntries, stringsEntries]
    exact ((perm_strings item).cons key).append (perm_stringsEntries items)

end

mutual

theorem Portable.strings : ∀ {value : PythonValue}, Portable value →
    ∀ s ∈ strings value, Scalar s
  | .none, _ | .bool _, _ | .int _, _ | .float _, _ => by
    rw [strings]
    all_goals exact nofun
  | .str value, h => by
    rw [Portable] at h
    rw [strings, forall_mem_singleton]
    exact h
  | .list items, h => by
    rw [Portable] at h
    rw [strings]
    exact h.strings
  | .dict items, h => by
    rw [Portable] at h
    rw [strings]
    exact h.2.strings

theorem PortableItems.strings : ∀ {items : List PythonValue}, PortableItems items →
    ∀ s ∈ stringsItems items, Scalar s
  | [], _ => by rw [stringsItems]; exact nofun
  | item :: items, h => by
    rw [PortableItems] at h
    rw [stringsItems]
    exact fun s hs => (mem_append.1 hs).elim (h.1.strings s) (h.2.strings s)

theorem PortableEntries.strings : ∀ {items : List (PythonString × PythonValue)},
    PortableEntries items → ∀ s ∈ stringsEntries items, Scalar s
  | [], _ => by rw [stringsEntries]; exact nofun
  | (key, item) :: items, h => by
    rw [PortableEntries] at h
    rw [stringsEntries]
    intro s hs
    rcases mem_append.1 hs with hs | hs
    · exact forall_mem_cons.2 ⟨h.1, h.2.1.strings⟩ s hs
    · exact h.2.2.strings s hs

end

theorem Portable.scalar_compactText {value : PythonValue} (h : Portable value) :
    Scalar (compactText value) := by
  intro c hc
  by_cases hbeyond : 0x80 ≤ c.val
  · obtain ⟨s, hs, hmem⟩ := ((exhibits_compactText value).1 c hc).2 hbeyond
    exact h.strings s hs c hmem
  · simp only [IsScalar, isSurrogate, Bool.and_eq_false_iff, decide_eq_false_iff_not]
    omega

/-! ### What the encoder writes -/

section encode

variable {repr : ℚ → Bytes}

/-- The property of an item whose value is in canonical order. -/
def writtenProperty (item : PythonString × PythonValue) : Property :=
  ⟨item.1, sortBytes item.1, .ok (compactText item.2)⟩

theorem writtenProperty_encode {item : PythonString × PythonValue} (h : Scalar item.1) :
    (writtenProperty item).encode =
      .ok (dumpString item.1 ++ ascii (utf8 ":") ++ compactText item.2) := by
  rw [Property.encode, encodeString, writtenProperty, validateString_ok.2 h]
  rfl

theorem PortableEntries.scalar {items : List (PythonString × PythonValue)}
    (h : PortableEntries items) : ∀ item ∈ items, Scalar item.1 := by
  induction items with
  | nil => exact nofun
  | cons item items ih =>
    rw [PortableEntries] at h
    exact forall_mem_cons.2 ⟨h.1, ih h.2.2⟩

mutual

theorem encodeValue_compact : ∀ {value : PythonValue}, Portable value → hasFloat value = false →
    encodeValue repr value = .ok (compactText (sortKeys value))
  | .none, _, _ | .bool value, _, _ | .int value, _, _ => by rw [encodeValue, sortKeys, compactText]
  | .float value, _, h => by simp [hasFloat] at h
  | .str value, h, _ => by
    rw [Portable] at h
    rw [encodeValue, sortKeys, compactText, encodeString, validateString_ok.2 h]
    rfl
  | .list items, h, hfloat => by
    rw [Portable] at h
    rw [hasFloat] at hfloat
    rw [encodeValue, sortKeys, compactText, encodeItems_compact h hfloat, joinTexts_ok]
    rfl
  | .dict items, h, hfloat => by
    rw [Portable] at h
    rw [hasFloat] at hfloat
    rw [encodeValue, sortKeys, compactText, encodeEntries_compact h.2 hfloat]
    have hsort : ((sortKeysEntries items).insertionSort KeyBefore).map writtenProperty =
        sortEntries ((sortKeysEntries items).map writtenProperty) :=
      map_insertionSort _ _ _ _ fun _ _ _ _ => Iff.rfl
    have htexts : (((sortKeysEntries items).insertionSort KeyBefore).map writtenProperty).map
        Property.encode =
        (compactEntries ((sortKeysEntries items).insertionSort KeyBefore)).map .ok := by
      rw [compactEntries_eq, map_map, map_map]
      refine map_congr_left fun item hitem => writtenProperty_encode ?_
      obtain ⟨item', hitem', rfl⟩ := mem_map.1 ((perm_sortKeys items).mem_iff.1 hitem)
      exact h.2.scalar item' hitem'
    change (do
      let text ← joinTexts
        ((sortEntries ((sortKeysEntries items).map writtenProperty)).map Property.encode)
      pure (ascii (utf8 "\x7b") ++ text ++ ascii (utf8 "\x7d"))) = _
    rw [← hsort, htexts, joinTexts_ok]
    rfl

theorem encodeItems_compact : ∀ {items : List PythonValue}, PortableItems items →
    hasFloatItems items = false →
      encodeItems repr items = (compactItems (sortKeysItems items)).map .ok
  | [], _, _ => by rw [encodeItems, sortKeysItems, compactItems, map_nil]
  | item :: items, h, hfloat => by
    rw [PortableItems] at h
    rw [hasFloatItems, Bool.or_eq_false_iff] at hfloat
    rw [encodeItems, sortKeysItems, compactItems, encodeValue_compact h.1 hfloat.1,
      encodeItems_compact h.2 hfloat.2, map_cons]

theorem encodeEntries_compact : ∀ {items : List (PythonString × PythonValue)},
    PortableEntries items → hasFloatEntries items = false →
      encodeEntries repr items = .ok ((sortKeysEntries items).map writtenProperty)
  | [], _, _ => by rw [encodeEntries, sortKeysEntries, map_nil]
  | (key, item) :: items, h, hfloat => by
    rw [PortableEntries] at h
    rw [hasFloatEntries, Bool.or_eq_false_iff] at hfloat
    rw [encodeEntries, utf16SortKey_scalar h.1, encodeEntries_compact h.2.2 hfloat.2,
      encodeValue_compact h.2.1 hfloat.1, sortKeysEntries, map_cons]
    rfl

end

theorem canonicalJsonBytes_compact {value : PythonValue} (h : Portable value)
    (hfloat : hasFloat value = false) :
    canonicalJsonBytes repr value = .ok (bytesOf (compactText (sortKeys value))) := by
  rw [canonicalJsonBytes, h.validate, encodeValue_compact h hfloat]
  exact encodeUtf8_scalar h.sortKeys.scalar_compactText

end encode

end AgenticCircuit.Frontend
