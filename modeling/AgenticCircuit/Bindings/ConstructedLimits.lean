import AgenticCircuit.Bindings.CanonicalInjective

/-! # The preflight of a constructed value

The counters of `ConstructedJsonPreflight` are sums over the values in a value (`JsonValue.total`).
The stack is drained without an error where each value can be written and the sums stay within the
limits (`drain_ok`), and the bytes that are counted are the length of what is written
(`writeCanonical_length`).  So `canonicalizeJson` writes every value within the limits
(`canonicalizeJson_fits`). -/

namespace AgenticCircuit.Bindings

open List JsonValue

namespace JsonValue

/-! ### Sums over the values in a value -/

mutual

/-- A quantity summed over a value and all values in it. -/
def total (own : JsonValue → ℕ) : JsonValue → ℕ
  | .null => own .null
  | .boolean value => own (.boolean value)
  | .integer value => own (.integer value)
  | .unsigned value => own (.unsigned value)
  | .double value => own (.double value)
  | .string value => own (.string value)
  | .array elements => own (.array elements) + totalElements own elements
  | .object members => own (.object members) + totalMembers own members

def totalElements (own : JsonValue → ℕ) : List JsonValue → ℕ
  | [] => 0
  | element :: elements => total own element + totalElements own elements

def totalMembers (own : JsonValue → ℕ) : List (Bytes × JsonValue) → ℕ
  | [] => 0
  | (_, value) :: members => total own value + totalMembers own members

end

variable (own : JsonValue → ℕ)

theorem totalElements_eq (elements : List JsonValue) :
    totalElements own elements = (elements.map (total own)).sum := by
  induction elements with
  | nil => rw [totalElements, map_nil, sum_nil]
  | cons element elements ih => rw [totalElements, ih, map_cons, sum_cons]

theorem totalMembers_eq (members : List (Bytes × JsonValue)) :
    totalMembers own members = (members.map fun member => total own member.2).sum := by
  induction members with
  | nil => rw [totalMembers, map_nil, sum_nil]
  | cons member members ih =>
    obtain ⟨name, value⟩ := member
    rw [totalMembers, ih, map_cons, sum_cons]

theorem total_eq (value : JsonValue) :
    total own value = own value + (value.children.map (total own)).sum := by
  cases value with
  | array elements => rw [total, totalElements_eq, children]
  | object members =>
    rw [total, totalMembers_eq, children, map_map]
    rfl
  | _ => simp [total, children]

theorem values_eq (value : JsonValue) : value.values = total (fun _ => 1) value := by
  induction value using children_induction with
  | step value ih =>
    cases value with
    | array elements =>
      have hsum : ∀ rest : List JsonValue, (∀ element ∈ rest, element.values =
          total (fun _ => 1) element) → elementValues rest =
            totalElements (fun _ => 1) rest := by
        intro rest hrest
        induction rest with
        | nil => rfl
        | cons element rest ihrest =>
          rw [forall_mem_cons] at hrest
          rw [elementValues, totalElements, hrest.1, ihrest hrest.2]
      rw [values, total, hsum elements ih, Nat.add_comm]
    | object members =>
      have hsum : ∀ rest : List (Bytes × JsonValue), (∀ member ∈ rest, member.2.values =
          total (fun _ => 1) member.2) → memberValues rest =
            totalMembers (fun _ => 1) rest := by
        intro rest hrest
        induction rest with
        | nil => rfl
        | cons member rest ihrest =>
          obtain ⟨name, value⟩ := member
          rw [forall_mem_cons] at hrest
          rw [memberValues, totalMembers, hrest.1, ihrest hrest.2]
      rw [values, total, Nat.add_comm,
        hsum members fun member hmember => ih _ (mem_map_of_mem hmember)]
    | _ => simp [values, total]

/-! ### Limits -/

/-- The bytes of the strings at one place. -/
def ownStringBytes : JsonValue → ℕ
  | .string value => value.length
  | .object members => (members.map fun member => member.1.length).sum
  | _ => 0

/-- Values are nested at most so deep. -/
inductive Nested : ℕ → JsonValue → Prop where
  | intro {depth : ℕ} {value : JsonValue} (children : ∀ child ∈ value.children, Nested depth child) :
      Nested (depth + 1) value

/-- The limits on one value by itself. -/
def OwnFits (limits : JsonParseLimits) : JsonValue → Prop
  | .string value => value.length ≤ limits.maxStringBytes
  | .array elements => elements.length ≤ limits.maxArrayElements
  | .object members => members.length ≤ limits.maxObjectMembers ∧
      ∀ member ∈ members, member.1.length ≤ limits.maxStringBytes
  | _ => True

/-- The limits on a value but for the size of what is written. -/
structure Fits (limits : JsonParseLimits) (value : JsonValue) : Prop where
  depth : value.Nested limits.maxDepth
  work : value.values ≤ limits.maxStructuralWork
  strings : value.total ownStringBytes ≤ limits.maxTotalStringBytes
  own : value.Every (OwnFits limits)

end JsonValue

/-! ### What is written -/

/-- The length of a string as it is written. -/
def escapedSize (string : Bytes) : ℕ := (string.flatMap escapeByte).length + 2

theorem length_escapeByte (byte : UInt8) : (escapeByte byte).length =
      if (escapeLetter byte).isSome then 2 else if byte < 0x20 then 6 else 1 := by
  unfold escapeByte
  cases escapeLetter byte with
  | some letter => rfl
  | none =>
    simp only [Option.isSome_none, Bool.false_eq_true, if_false]
    split_ifs <;> rfl

variable {string : Bytes}

theorem canonicalStringSize_eq {units : List ℕ} (h : utf16Units string = .ok units) :
    canonicalStringSize string = .ok (escapedSize string) := by
  have hfold : ∀ size : ℕ, string.foldl (fun size byte =>
      if (escapeLetter byte).isSome then size + 2
      else if byte < 0x20 then size + 6 else size + 1) size =
        size + (string.flatMap escapeByte).length := by
    clear h
    induction string with
    | nil => exact fun size => rfl
    | cons byte string ih =>
      intro size
      rw [foldl_cons, ih, flatMap_cons, length_append, length_escapeByte]
      split_ifs <;> omega
  unfold canonicalStringSize
  rw [h, ok_bind, hfold, Nat.add_comm]
  rfl

section written

variable (library : JsonLibrary)

/-- The bytes that a value adds to what is written of the values in it. -/
def JsonValue.ownSize : JsonValue → ℕ
  | .null => 4
  | .boolean value => if value then 4 else 5
  | .string value => escapedSize value
  | .array elements => 2 + (elements.length - 1)
  | .object members => 2 + (members.length - 1) + members.length +
      (members.map fun member => escapedSize member.1).sum
  | value =>
    match writeNumber library value with
    | .ok text => text.length
    | .error _ => 0

/-- A value can be written as far as it is there by itself. -/
def JsonValue.OwnWritable : JsonValue → Prop
  | .null | .boolean _ | .array _ => True
  | .string value => ∃ units, utf16Units value = .ok units
  | .object members => ∀ member ∈ members, ∃ units, utf16Units member.1 = .ok units
  | value => ∃ text, writeNumber library value = .ok text

variable {library}

variable {text : Bytes}

theorem writeEscapedString_units (h : writeEscapedString string = .ok text) :
    (∃ units, utf16Units string = .ok units) ∧ text.length = escapedSize string := by
  refine ⟨?_, ?_⟩
  · unfold writeEscapedString at h
    cases hunits : utf16Units string with
    | error e =>
      rw [hunits] at h
      cases h
    | ok units => exact ⟨units, rfl⟩
  · rw [writeEscapedString_ok h, escapedSize]
    simp

/-- The length of texts between commas. -/
theorem joinCommas_length {α : Type} {write : α → Scanned Bytes} {size : α → ℕ} {xs : List α}
    (hsize : ∀ x ∈ xs, ∀ text, write x = .ok text → text.length = size x) {joined : Bytes}
    (h : joinCommas (xs.map write) = .ok joined) :
    joined.length = (xs.map size).sum + (xs.length - 1) ∧ ∀ x ∈ xs, ∃ text, write x = .ok text := by
  induction xs generalizing joined with
  | nil =>
    rw [← Except.ok.inj h]
    exact ⟨rfl, nofun⟩
  | cons x xs ih =>
    rw [forall_mem_cons] at hsize
    obtain ⟨text, rest, hwrite, rfl, hrest⟩ := joinCommas_cons h
    rw [length_append, hsize.1 text hwrite, map_cons, sum_cons, forall_mem_cons, length_cons]
    rcases hrest with ⟨hnil, rfl⟩ | ⟨hne, more, hmore, rfl⟩
    · rw [map_eq_nil_iff.1 hnil]
      exact ⟨rfl, ⟨text, hwrite⟩, nofun⟩
    · obtain ⟨hlength, hall⟩ := ih hsize.2 hmore
      have hpos : 0 < xs.length := length_pos_of_ne_nil (by simpa using hne)
      refine ⟨?_, ⟨text, hwrite⟩, hall⟩
      rw [length_cons, hlength]
      omega

theorem writeArray_length {elements : List JsonValue}
    (ih : ∀ element ∈ elements, ∀ text, writeCanonical library element = .ok text → text.length =
      element.total (ownSize library) ∧ element.Every (OwnWritable library))
    (h : writeCanonical library (.array elements) = .ok text) :
    text.length = (array elements).total (ownSize library) ∧
      (array elements).Every (OwnWritable library) := by
  obtain ⟨inner, hinner, rfl⟩ := writeArray_ok h
  obtain ⟨hlength, hall⟩ :=
    joinCommas_length (fun element helement text htext => (ih element helement text htext).1) hinner
  refine ⟨?_, ⟨trivial, fun element helement => ?_⟩⟩
  · rw [total, totalElements_eq, ownSize, length_cons,
      length_append, hlength, length_singleton]
    omega
  · obtain ⟨text, htext⟩ := hall element helement
    exact (ih element helement text htext).2

variable {members : List (Bytes × JsonValue)}

theorem writeObject_length
    (ih : ∀ member ∈ members, ∀ text, writeCanonical library member.2 = .ok text → text.length =
      member.2.total (ownSize library) ∧ member.2.Every (OwnWritable library))
    (h : writeCanonical library (.object members) = .ok text) :
    text.length = (object members).total (ownSize library) ∧
      (object members).Every (OwnWritable library) := by
  obtain ⟨properties, inner, hproperties, hinner, rfl⟩ := writeObject_ok h
  have hmembers := writeMembers_ok hproperties
  have hperm : (sortProperties properties).Perm properties := perm_insertionSort _ _
  -- A member takes its name, a colon and its value.
  let size (property : CanonicalProperty) : ℕ :=
    escapedSize property.name + 1 +
      match property.value with
      | .ok text => text.length
      | .error _ => 0
  have hsize : ∀ property ∈ sortProperties properties, ∀ text, property.write = .ok text →
      text.length = size property := by
    intro property _ text htext
    obtain ⟨name, value, hname, hvalue, rfl⟩ := property.write_ok htext
    simp only [size, hvalue, length_append, length_cons, (writeEscapedString_units hname).2]
    omega
  obtain ⟨hlength, hall⟩ := joinCommas_length hsize hinner
  have hwritten : ∀ property ∈ properties, ∃ name value,
      writeEscapedString property.name = .ok name ∧ property.value = .ok value := by
    intro property hproperty
    obtain ⟨text, htext⟩ := hall property (hperm.mem_iff.2 hproperty)
    obtain ⟨name, value, hname, hvalue, -⟩ := property.write_ok htext
    exact ⟨name, value, hname, hvalue⟩
  have hmember : ∀ member ∈ members, (∃ units, utf16Units member.1 = .ok units) ∧
      ∃ text, writeCanonical library member.2 = .ok text := by
    intro member hmem
    obtain ⟨property, hproperty, hname, hunits, hvalue⟩ := exists_related hmembers hmem
    obtain ⟨name, value, -, hok⟩ := hwritten property hproperty
    exact ⟨⟨_, hunits⟩, value, by rw [← hvalue, hok]⟩
  have hsum : (properties.map size).sum = members.length +
      (members.map fun member => escapedSize member.1).sum +
        (members.map fun member => member.2.total (ownSize library)).sum := by
    clear hsize hlength hall h hinner hproperties hperm
    induction hmembers with
    | nil => rfl
    | @cons member property members properties hfirst hrest ihrest =>
      obtain ⟨hname, -, hvalue⟩ := hfirst
      rw [forall_mem_cons] at ih hwritten hmember
      obtain ⟨⟨-, text, htext⟩, hmember⟩ := hmember
      have hsize : size property = escapedSize member.1 + 1 + member.2.total (ownSize library) := by
        simp only [size, hname, hvalue, htext, (ih.1 text htext).1]
      simp only [map_cons, sum_cons, length_cons, ihrest ih.2 hwritten.2 hmember]
      omega
  refine ⟨?_, ⟨fun member hmem => (hmember member hmem).1, fun child hchild => ?_⟩⟩
  · rw [total, totalMembers_eq, ownSize, length_cons,
      length_append, hlength, length_singleton, (hperm.map size).sum_eq, hsum,
      hperm.length_eq, ← hmembers.length_eq]
    omega
  · obtain ⟨member, hmem, rfl⟩ := mem_map.1 hchild
    obtain ⟨text, htext⟩ := (hmember member hmem).2
    exact (ih member hmem text htext).2

variable {value : JsonValue}

theorem writeCanonical_length (h : writeCanonical library value = .ok text) :
    text.length = value.total (ownSize library) ∧
      value.Every (OwnWritable library) := by
  induction value using children_induction generalizing text with
  | step value ih =>
    cases value with
    | null =>
      rw [← Except.ok.inj h]
      exact ⟨rfl, trivial, forall_mem_nil _⟩
    | boolean value =>
      rw [← Except.ok.inj h]
      refine ⟨?_, trivial, forall_mem_nil _⟩
      cases value <;> rfl
    | string value =>
      rw [writeCanonical] at h
      obtain ⟨hunits, hlength⟩ := writeEscapedString_units h
      exact ⟨hlength, hunits, forall_mem_nil _⟩
    | array elements => exact writeArray_length (fun element helement text => ih element helement) h
    | object members =>
      exact writeObject_length
        (fun member hmember text => ih _ (mem_map_of_mem hmember)) h
    | integer value | unsigned value | double value =>
      rw [writeCanonical] at h
      refine ⟨?_, ⟨text, h⟩, forall_mem_nil _⟩
      rw [total, ownSize, h]
      all_goals simp

/-! ### The stack -/

variable {limits : JsonParseLimits} {a : Account}

namespace Account

theorem accountCanonicalBytes_ok {bytes : ℕ} (h : a.canonicalBytes + bytes ≤ limits.maxInputBytes) :
    a.accountCanonicalBytes limits bytes = .ok { a with canonicalBytes := a.canonicalBytes + bytes } :=
  if_neg (by omega)

theorem accountString_ok (hunits : ∃ units, utf16Units string = .ok units)
    (hstring : string.length ≤ limits.maxStringBytes)
    (htotal : a.totalStringBytes + string.length ≤ limits.maxTotalStringBytes)
    (hcanonical : a.canonicalBytes + escapedSize string ≤ limits.maxInputBytes) :
    a.accountString limits string = .ok { a with
      totalStringBytes := a.totalStringBytes + string.length
      canonicalBytes := a.canonicalBytes + escapedSize string } := by
  obtain ⟨units, hunits⟩ := hunits
  unfold accountString accountRawString accountCanonicalString
  rw [if_neg (by omega), if_neg (by omega), ok_bind, canonicalStringSize_eq hunits, ok_bind]
  exact accountCanonicalBytes_ok hcanonical

theorem visitNames_ok (hunits : ∀ member ∈ members, ∃ units, utf16Units member.1 = .ok units)
    (hstring : ∀ member ∈ members, member.1.length ≤ limits.maxStringBytes)
    (htotal : a.totalStringBytes + (members.map fun member => member.1.length).sum ≤
      limits.maxTotalStringBytes)
    (hcanonical : a.canonicalBytes + (members.map fun member => escapedSize member.1).sum ≤
      limits.maxInputBytes) :
    a.visitNames limits members = .ok { a with
      totalStringBytes := a.totalStringBytes + (members.map fun member => member.1.length).sum
      canonicalBytes :=
        a.canonicalBytes + (members.map fun member => escapedSize member.1).sum } := by
  induction members generalizing a with
  | nil => rfl
  | cons member members ih =>
    obtain ⟨name, value⟩ := member
    rw [forall_mem_cons] at hunits hstring
    simp only [map_cons, sum_cons] at htotal hcanonical hunits hstring ⊢
    rw [visitNames, accountString_ok hunits.1 hstring.1 (by omega) (by omega), ok_bind,
      ih hunits.2 hstring.2 (by simp only []; omega) (by simp only []; omega)]
    simp only [Nat.add_assoc]

/-- What a value costs by itself. -/
theorem visit_ok {value : JsonValue} (hwritable : value.OwnWritable library)
    (hfits : value.OwnFits limits)
    (htotal : a.totalStringBytes + value.ownStringBytes ≤ limits.maxTotalStringBytes)
    (hcanonical : a.canonicalBytes + value.ownSize library ≤ limits.maxInputBytes) :
    a.visit library limits value = .ok { a with
      totalStringBytes := a.totalStringBytes + value.ownStringBytes
      canonicalBytes := a.canonicalBytes + value.ownSize library } := by
  have hnumber {number : JsonValue} {text : Bytes} (htext : writeNumber library number = .ok text)
      (h : a.canonicalBytes + text.length ≤ limits.maxInputBytes) :
      a.visitNumber library limits number =
        .ok { a with canonicalBytes := a.canonicalBytes + text.length } := by
    unfold writeNumber at htext
    unfold visitNumber
    cases hdouble : number.asNumber with
    | none =>
      rw [hdouble] at htext
      cases htext
    | some double =>
      rw [hdouble] at htext
      simp only [] at htext ⊢
      cases double with
      | finite x =>
        rw [if_neg (by simp [Double.isFinite]), htext, ok_bind, accountCanonicalBytes_ok h]
      | negativeZero | infinite negative | nan => cases htext
  cases value with
  | null | boolean value => exact accountCanonicalBytes_ok hcanonical
  | string value => exact accountString_ok hwritable hfits htotal hcanonical
  | array elements =>
    have hlimit : elements.length ≤ limits.maxArrayElements := hfits
    simp only [ownSize] at hcanonical ⊢
    rw [visit, visitArray, if_neg (by omega), accountCanonicalBytes_ok (by omega), ok_bind]
    cases elements with
    | nil => rfl
    | cons element elements =>
      rw [if_neg (by simp), accountCanonicalBytes_ok (by simp only []; omega)]
      simp [ownStringBytes, Nat.add_assoc]
  | object members =>
    obtain ⟨hlimit, hstring⟩ := hfits
    simp only [ownSize] at hcanonical ⊢
    rw [visit, visitObject, if_neg (by omega), accountCanonicalBytes_ok (by omega), ok_bind]
    cases members with
    | nil => rfl
    | cons member members =>
      rw [if_neg (by simp), accountCanonicalBytes_ok (by simp only []; omega), ok_bind,
        accountCanonicalBytes_ok (by simp only []; omega), ok_bind,
        visitNames_ok hwritable hstring (by exact htotal) (by simp only []; omega)]
      simp only [ownStringBytes, Nat.add_assoc]
  | integer value | unsigned value | double value =>
    obtain ⟨text, htext⟩ := hwritable
    simp only [ownSize, htext] at hcanonical ⊢
    exact hnumber htext hcanonical

end Account

/-- A quantity summed over the stack. -/
def pendingTotal (own : JsonValue → ℕ) (pending : List Frame) : ℕ :=
  (pending.map fun frame => frame.1.total own).sum

theorem pendingTotal_cons (own : JsonValue → ℕ) (value : JsonValue) (depth : ℕ)
    (pending : List Frame) : pendingTotal own ((value, depth) :: pending) =
      own value + pendingTotal own
        ((value.children.map fun child => (child, depth + 1)).reverse ++ pending) := by
  unfold pendingTotal
  rw [map_cons, sum_cons, map_append, sum_append, map_reverse,
    sum_reverse, map_map, total_eq, Nat.add_assoc]
  rfl

/-- A value on the stack that can be written within the limits. -/
structure FrameFits (library : JsonLibrary) (limits : JsonParseLimits) (frame : Frame) : Prop where
  depth : ∃ depth, frame.1.Nested depth ∧ frame.2 + depth ≤ limits.maxDepth + 1
  writable : frame.1.Every (OwnWritable library)
  own : frame.1.Every (OwnFits limits)

theorem FrameFits.child {child : JsonValue} {depth : ℕ}
    (h : FrameFits library limits (value, depth)) (hchild : child ∈ value.children) :
    FrameFits library limits (child, depth + 1) := by
  obtain ⟨⟨nested, hnested, hdepth⟩, hwritable, hown⟩ := h
  cases hnested with
  | @intro nested _ children =>
    exact ⟨⟨nested, children child hchild, by omega⟩,
      hwritable.child hchild, hown.child hchild⟩

/-- The stack is drained within the limits. -/
theorem drain_ok {fuel : ℕ} {pending : List Frame}
    (hframes : ∀ frame ∈ pending, FrameFits library limits frame)
    (hfuel : pendingTotal (fun _ => 1) pending ≤ fuel)
    (hwork : a.structuralWork + pendingTotal (fun _ => 1) pending ≤ limits.maxStructuralWork)
    (hstrings : a.totalStringBytes + pendingTotal ownStringBytes pending ≤
      limits.maxTotalStringBytes)
    (hbytes : a.canonicalBytes + pendingTotal (ownSize library) pending ≤ limits.maxInputBytes) :
    ∃ a', drain library limits fuel pending a = .ok a' := by
  induction fuel generalizing pending a with
  | zero =>
    cases pending with
    | nil => exact ⟨a, rfl⟩
    | cons frame pending =>
      rw [pendingTotal_cons] at hfuel
      omega
  | succ fuel ih =>
    cases pending with
    | nil => exact ⟨a, rfl⟩
    | cons frame pending =>
      obtain ⟨value, depth⟩ := frame
      rw [pendingTotal_cons] at hfuel hwork hstrings hbytes
      rw [forall_mem_cons] at hframes
      obtain ⟨hframe, hrest⟩ := hframes
      obtain ⟨nested, hnested, hdepth⟩ := hframe.depth
      have hpos : 0 < nested := by
        cases hnested with
        | intro children => exact Nat.succ_pos _
      have henter : a.enter limits depth =
          .ok { a with structuralWork := a.structuralWork + 1 } := by
        unfold Account.enter
        rw [if_neg (by omega), if_neg (by omega)]
      have hvisit := @Account.visit_ok library limits
        { a with structuralWork := a.structuralWork + 1 } value hframe.writable.here
        hframe.own.here (by simp only []; omega) (by simp only []; omega)
      rw [drain, henter, ok_bind, hvisit, ok_bind]
      refine ih ?_ (by omega) (by simp only []; omega) (by simp only []; omega)
        (by simp only []; omega)
      intro frame hframe'
      rcases mem_append.1 hframe' with hmem | hmem
      · obtain ⟨child, hchild, rfl⟩ := mem_map.1 (mem_reverse.1 hmem)
        exact hframe.child hchild
      · exact hrest frame hmem

theorem canonicalizeJson_fits {bytes : Bytes} (h : writeCanonical library value = .ok bytes)
    (hfits : value.Fits limits) (hbytes : bytes.length ≤ limits.maxInputBytes) :
    canonicalizeJson library limits value = .ok bytes := by
  obtain ⟨hlength, hwritable⟩ := writeCanonical_length h
  have hone (own : JsonValue → ℕ) : pendingTotal own [(value, 1)] = value.total own := by
    simp [pendingTotal]
  have hwork := hfits.work
  rw [values_eq] at hwork
  obtain ⟨a, ha⟩ : ∃ a, drain library limits value.values [(value, 1)] {} = .ok a := by
    refine drain_ok ?_ ?_ ?_ ?_ ?_
    · rw [forall_mem_singleton]
      exact ⟨⟨_, hfits.depth, by omega⟩, hwritable, hfits.own⟩
    · rw [hone, values_eq]
    · rw [hone]
      simpa using hwork
    · rw [hone]
      simpa using hfits.strings
    · rw [hone]
      simp only []
      omega
  unfold canonicalizeJson preflightConstructedJson
  rw [ha, ok_bind]
  exact h

end written

end AgenticCircuit.Bindings
