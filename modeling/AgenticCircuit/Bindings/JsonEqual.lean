import AgenticCircuit.Bindings.Canonical

/-! # Equality of JSON values

What it means that two values of the DOM are the same JSON value: numbers are compared exactly,
whatever kind holds them, arrays in order, and objects as maps.  `JsonValue.Alike` is this up to a
relation on the numbers. -/

namespace AgenticCircuit.Bindings

open List

namespace JsonValue

/-- A property of a value and of all values in it. -/
inductive Every (property : JsonValue → Prop) : JsonValue → Prop where
  | intro {value : JsonValue} (here : property value)
      (children : ∀ child ∈ value.children, Every property child) : Every property value

variable {property : JsonValue → Prop} {value : JsonValue}

theorem Every.here (h : value.Every property) : property value := by
  cases h with
  | intro here _ => exact here

theorem Every.child {child : JsonValue} (h : value.Every property)
    (hchild : child ∈ value.children) : child.Every property := by
  cases h with
  | intro _ children => exact children child hchild

theorem children_induction {motive : JsonValue → Prop}
    (step : ∀ value, (∀ child ∈ value.children, motive child) → motive value) (value : JsonValue) :
    motive value := by
  refine step value fun child hchild => ?_
  have : sizeOf child < sizeOf value := by
    cases value with
    | array elements =>
      have hmem : child ∈ elements := hchild
      have := sizeOf_lt_of_mem hmem
      simp only [JsonValue.array.sizeOf_spec]
      omega
    | object members =>
      obtain ⟨⟨name, child⟩, hmember, rfl⟩ := mem_map.1 hchild
      have := sizeOf_lt_of_mem hmember
      simp only [JsonValue.object.sizeOf_spec, Prod.mk.sizeOf_spec] at this ⊢
      omega
    | _ => cases hchild
  exact children_induction step child
termination_by sizeOf value

/-- What the DOM can hold at one place: a number in the range of its kind, an object that is a
map. -/
def Stored : JsonValue → Prop
  | .integer value => -2 ^ 63 ≤ value ∧ value < 2 ^ 63
  | .unsigned value => value < 2 ^ 64
  | .double (.finite value) => IsBinary64 value
  | .object members => (members.map Prod.fst).Nodup
  | _ => True

theorem exists_related {α β : Type} {related : α → β → Prop} {xs : List α} {ys : List β}
    (h : List.Forall₂ related xs ys) {x : α} (hx : x ∈ xs) : ∃ y ∈ ys, related x y := by
  induction h with
  | nil => cases hx
  | cons hrelated _ ih =>
    rcases mem_cons.1 hx with rfl | hx
    · exact ⟨_, mem_cons_self .., hrelated⟩
    · obtain ⟨y, hy, hrelated⟩ := ih hx
      exact ⟨y, mem_cons_of_mem _ hy, hrelated⟩

/-- A value of the DOM. -/
abbrev Valid (value : JsonValue) : Prop := value.Every Stored

/-- The number that a value is, as it is held. -/
def exactNumber : JsonValue → Option ℚ
  | .integer value => some value
  | .unsigned value => some value
  | .double (.finite value) => some value
  | .double .negativeZero => some 0
  | _ => none

mutual

/-- The same value up to a relation on the numbers. -/
def Alike (same : JsonValue → JsonValue → Prop) : JsonValue → JsonValue → Prop
  | .null, w => w = .null
  | .boolean value, w => w = .boolean value
  | .string value, w => w = .string value
  | .array elements, w => ∃ elements', w = .array elements' ∧ AlikeElements same elements elements'
  | .object members, w =>
    ∃ members', w = .object members' ∧ members.length = members'.length ∧
      AlikeMembers same members members'
  | .integer value, w => same (.integer value) w
  | .unsigned value, w => same (.unsigned value) w
  | .double value, w => same (.double value) w

def AlikeElements (same : JsonValue → JsonValue → Prop) : List JsonValue → List JsonValue → Prop
  | [], elements' => elements' = []
  | element :: elements, elements' => ∃ element' rest, elements' = element' :: rest ∧
      Alike same element element' ∧ AlikeElements same elements rest

/-- Every member has one of its name that is alike. -/
def AlikeMembers (same : JsonValue → JsonValue → Prop) :
    List (Bytes × JsonValue) → List (Bytes × JsonValue) → Prop
  | [], _ => True
  | (name, value) :: members, members' =>
    (∃ value', (name, value') ∈ members' ∧ Alike same value value') ∧
      AlikeMembers same members members'

end

/-- Two values hold the same number. -/
def SameNumber (v w : JsonValue) : Prop := ∃ q, v.exactNumber = some q ∧ w.exactNumber = some q

/-- Two values are rounded to the same binary64. -/
def SameDouble (v w : JsonValue) : Prop := ∃ d, v.asNumber = some d ∧ w.asNumber = some d

/-- Equality as JSON values. -/
abbrev Equal (v w : JsonValue) : Prop := Alike SameNumber v w

variable {same : JsonValue → JsonValue → Prop}

variable {elements : List JsonValue} {members : List (Bytes × JsonValue)} {w : JsonValue}

theorem alikeElements_iff {elements' : List JsonValue} :
    AlikeElements same elements elements' ↔ List.Forall₂ (Alike same) elements elements' := by
  induction elements generalizing elements' with
  | nil => rw [AlikeElements, forall₂_nil_left_iff]
  | cons element elements ih =>
    rw [AlikeElements, forall₂_cons_left_iff]
    simp only [ih]
    constructor
    · rintro ⟨element', rest, rfl, halike, htail⟩
      exact ⟨element', rest, halike, htail, rfl⟩
    · rintro ⟨element', rest, halike, htail, rfl⟩
      exact ⟨element', rest, rfl, halike, htail⟩

theorem alikeMembers_iff {members' : List (Bytes × JsonValue)} :
    AlikeMembers same members members' ↔
      ∀ member ∈ members, ∃ value', (member.1, value') ∈ members' ∧ Alike same member.2 value' := by
  induction members with
  | nil => simp [AlikeMembers]
  | cons member members ih =>
    obtain ⟨name, value⟩ := member
    rw [AlikeMembers, forall_mem_cons, ih]

theorem alike_array : Alike same (.array elements) w ↔
      ∃ elements', w = .array elements' ∧ List.Forall₂ (Alike same) elements elements' := by
  rw [Alike]
  simp only [alikeElements_iff]

theorem alike_object : Alike same (.object members) w ↔
      ∃ members', w = .object members' ∧ members.length = members'.length ∧
        ∀ member ∈ members, ∃ value', (member.1, value') ∈ members' ∧
          Alike same member.2 value' := by
  rw [Alike]
  simp only [alikeMembers_iff]

theorem alike_number {v : JsonValue} (h : v.asNumber.isSome = true) :
    Alike same v w ↔ same v w := by
  cases v with
  | integer value => rw [Alike]
  | unsigned value => rw [Alike]
  | double value => rw [Alike]
  | _ => cases h

end JsonValue

end AgenticCircuit.Bindings
