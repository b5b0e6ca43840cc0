import AgenticCircuit.Bindings.CanonicalInjective

/-! # What the canonical bytes identify

The canonical form takes every number through one binary64.  The bytes of a value then identify it
exactly when each of its numbers is the only one that is rounded to its binary64
(`canonicalizeJson_identifies_iff`): where another is, it can take the place of the number and the
bytes stay the same (`Twin`). -/

namespace AgenticCircuit.Bindings

open List JsonValue Prod Account

namespace JsonValue

/-- No other number of the DOM is rounded to the same binary64. -/
def Separated (v : JsonValue) : Prop :=
  ∀ w : JsonValue, w.Stored → v.SameDouble w → v.SameNumber w

/-- Two values that differ in one number at most, which is rounded to the same binary64. -/
inductive Twin : JsonValue → JsonValue → Prop where
  | number {v w : JsonValue} (h : v.SameDouble w) : Twin v w
  | array {v w : JsonValue} (before after : List JsonValue) (h : Twin v w) :
      Twin (.array (before ++ v :: after)) (.array (before ++ w :: after))
  | object {v w : JsonValue} (name : Bytes) (before after : List (Bytes × JsonValue))
      (h : Twin v w) :
      Twin (.object (before ++ (name, v) :: after)) (.object (before ++ (name, w) :: after))

/-! ### Numbers that stand for themselves -/

variable {child other v : JsonValue}

theorem Alike.equal : ∀ {w : JsonValue}, v.Alike SameDouble w → v.Every Separated → w.Valid →
      v.Alike SameNumber w := by
  induction v using children_induction with
  | step v ih =>
    intro w h hv hw
    cases v with
    | null | boolean value | string value => rwa [Alike] at h ⊢
    | integer value | unsigned value | double value =>
      rw [Alike] at h ⊢
      exact hv.here w hw.here h
    | array elements =>
      rw [alike_array] at h ⊢
      obtain ⟨elements', rfl, hall⟩ := h
      refine ⟨elements', rfl, ?_⟩
      rw [forall₂_iff_get] at hall ⊢
      refine ⟨hall.1, fun i hi hi' => ?_⟩
      have hmem : elements.get ⟨i, hi⟩ ∈ elements := get_mem _ _
      have hmem' : elements'.get ⟨i, hi'⟩ ∈ elements' := get_mem _ _
      exact ih _ hmem (hall.2 i hi hi') (hv.child hmem) (hw.child hmem')
    | object members =>
      rw [alike_object] at h ⊢
      obtain ⟨members', rfl, hlength, hall⟩ := h
      refine ⟨members', rfl, hlength, fun member hmember => ?_⟩
      obtain ⟨value', hmember', halike⟩ := hall member hmember
      have hchild : member.2 ∈ (object members).children :=
        mem_map_of_mem hmember
      have hchild' : value' ∈ (object members').children :=
        mem_map.2 ⟨_, hmember', rfl⟩
      exact ⟨value', hmember', ih _ hchild halike (hv.child hchild) (hw.child hchild')⟩

/-! ### Twins -/

theorem children_number (h : v.asNumber.isSome = true) : v.children = [] := by
  cases v with
  | integer value | unsigned value | double value => rfl
  | _ => cases h

theorem forall₂_middle {α β : Type} {related : α → β → Prop} {before after : List α}
    {before' after' : List β} {x : α} {y : β} (hlength : before.length = before'.length)
    (h : List.Forall₂ related (before ++ x :: after) (before' ++ y :: after')) : related x y := by
  have hdrop := forall₂_drop before.length h
  rw [drop_left, hlength, drop_left] at hdrop
  cases hdrop with
  | cons hrelated _ => exact hrelated

theorem every_middle {α : Type} {property : α → Prop} {before after : List α} {x y : α}
    (h : ∀ z ∈ before ++ x :: after, property z) (hy : property y) :
    ∀ z ∈ before ++ y :: after, property z := by
  intro z hz
  rcases mem_append.1 hz with hbefore | hrest
  · exact h z (mem_append_left _ hbefore)
  · rcases mem_cons.1 hrest with rfl | hafter
    · exact hy
    · exact h z (mem_append_right _ (mem_cons_of_mem _ hafter))

theorem exists_twin_array {elements : List JsonValue} (hv : (array elements).Valid)
    (hmem : child ∈ elements) (htwin : child.Twin other) (hother : other.Valid)
    (hne : ¬ child.Equal other) : ∃ w : JsonValue, (array elements).Twin w ∧ w.Valid ∧
      ¬ (array elements).Equal w := by
  obtain ⟨before, after, rfl⟩ := append_of_mem hmem
  refine ⟨_, htwin.array before after, ⟨trivial, ?_⟩, ?_⟩
  · exact every_middle (fun element => hv.child) hother
  · intro hequal
    obtain ⟨elements', helements', hall⟩ := alike_array.1 hequal
    rw [← array.inj helements'] at hall
    exact hne (forall₂_middle rfl hall)

theorem exists_twin_object {members : List (Bytes × JsonValue)}
    (hv : (object members).Valid) (hmem : child ∈ members.map snd)
    (htwin : child.Twin other) (hother : other.Valid) (hne : ¬ child.Equal other) :
    ∃ w : JsonValue, (object members).Twin w ∧ w.Valid ∧
      ¬ (object members).Equal w := by
  obtain ⟨⟨name, child⟩, hmember, rfl⟩ := mem_map.1 hmem
  obtain ⟨before, after, rfl⟩ := append_of_mem hmember
  have hnames : (before ++ (name, other) :: after).map fst =
      (before ++ (name, child) :: after).map fst := by
    simp
  have hnodup : ((before ++ (name, other) :: after).map fst).Nodup := by
    rw [hnames]
    exact hv.here
  refine ⟨_, htwin.object name before after, ⟨hnodup, ?_⟩, ?_⟩
  · have hchildren : ∀ member ∈ before ++ (name, other) :: after, member.2.Valid :=
      @every_middle _ (fun member => member.2.Valid) before after (name, child) (name, other)
        (fun member hmem => hv.child (mem_map_of_mem hmem)) hother
    intro value hvalue
    obtain ⟨member, hmem, rfl⟩ := mem_map.1 hvalue
    exact hchildren member hmem
  · intro hequal
    obtain ⟨members', hmembers', -, hall⟩ := alike_object.1 hequal
    rw [← object.inj hmembers'] at hall
    obtain ⟨value, hvalue, halike⟩ := hall (name, child) hmember
    -- The name tells the member of the other object.
    have hsame : (name, value) = (name, other) :=
      inj_on_of_nodup_map hnodup hvalue (by simp) rfl
    rw [(mk.inj hsame).2] at halike
    exact hne halike

theorem exists_twin :
    v.Valid → ¬ v.Every Separated → ∃ w : JsonValue, v.Twin w ∧ w.Valid ∧ ¬ v.Equal w := by
  induction v using children_induction with
  | step v ih =>
    intro hv h
    by_cases hhere : v.Separated
    · have hchild : ∃ child ∈ v.children, ¬ child.Every Separated := by
        by_contra hall
        push Not at hall
        exact h ⟨hhere, hall⟩
      obtain ⟨child, hmem, hchild⟩ := hchild
      obtain ⟨other, htwin, hother, hne⟩ := ih child hmem (hv.child hmem) hchild
      cases v with
      | array elements => exact exists_twin_array hv hmem htwin hother hne
      | object members => exact exists_twin_object hv hmem htwin hother hne
      | _ => cases hmem
    · unfold Separated at hhere
      push Not at hhere
      obtain ⟨w, hw, ⟨d, hd, hd'⟩, hnumber⟩ := hhere
      refine ⟨w, .number ⟨d, hd, hd'⟩, ⟨hw, ?_⟩, ?_⟩
      · rw [children_number (by rw [hd']; rfl)]
        exact nofun
      · unfold Equal
        rwa [alike_number (by rw [hd]; rfl)]

end JsonValue

/-! ### Twins have the same canonical form -/

section twin

variable {library : JsonLibrary} {limits : JsonParseLimits}

variable {v w : JsonValue} {members members' : List (Bytes × JsonValue)}

theorem writeNumber_congr (library : JsonLibrary) (h : v.SameDouble w) :
    writeNumber library v = writeNumber library w := by
  obtain ⟨d, hd, hd'⟩ := h
  unfold writeNumber
  rw [hd, hd']

theorem writeCanonical_number (h : v.asNumber.isSome = true) :
    writeCanonical library v = writeNumber library v := by
  cases v with
  | integer value | unsigned value | double value => rw [writeCanonical]
  | _ => cases h

theorem writeMembers_congr (h : writeCanonical library v = writeCanonical library w) (name : Bytes)
    (before after : List (Bytes × JsonValue)) :
    writeMembers library (before ++ (name, v) :: after) =
      writeMembers library (before ++ (name, w) :: after) := by
  induction before with
  | nil =>
    rw [nil_append, nil_append, writeMembers, writeMembers, h]
  | cons member before ih =>
    obtain ⟨name', value'⟩ := member
    rw [cons_append, cons_append, writeMembers, writeMembers, ih]

theorem JsonValue.Twin.writeCanonical_eq (h : v.Twin w) :
    writeCanonical library v = writeCanonical library w := by
  induction h with
  | number h =>
    have hsame := writeNumber_congr library h
    obtain ⟨d, hd, hd'⟩ := h
    rw [writeCanonical_number (by rw [hd]; rfl), writeCanonical_number (by rw [hd']; rfl), hsame]
  | array before after _ ih =>
    rw [writeCanonical, writeCanonical, writeElements_eq, writeElements_eq, map_append,
      map_append, map_cons, map_cons, ih]
  | object name before after _ ih =>
    rw [writeCanonical, writeCanonical, writeMembers_congr ih]

theorem elementValues_append (before after : List JsonValue) : elementValues (before ++ after) =
      elementValues before + elementValues after := by
  induction before with
  | nil => simp [elementValues]
  | cons element before ih =>
    rw [cons_append, elementValues, elementValues, ih, Nat.add_assoc]

theorem memberValues_append (before after : List (Bytes × JsonValue)) :
    memberValues (before ++ after) = memberValues before + memberValues after := by
  induction before with
  | nil => simp [memberValues]
  | cons member before ih =>
    obtain ⟨name, value⟩ := member
    rw [cons_append, memberValues, memberValues, ih, Nat.add_assoc]

theorem JsonValue.Twin.values_eq (h : v.Twin w) : v.values = w.values := by
  have hone {v : JsonValue} (h : v.asNumber.isSome = true) : v.values = 1 := by
    cases v with
    | integer value | unsigned value | double value =>
      rw [values]
      · exact nofun
      · exact nofun
    | _ => cases h
  induction h with
  | number h =>
    obtain ⟨d, hd, hd'⟩ := h
    rw [hone (by rw [hd]; rfl), hone (by rw [hd']; rfl)]
  | array before after _ ih =>
    rw [values, values, elementValues_append, elementValues_append,
      elementValues, elementValues, ih]
  | object name before after _ ih =>
    rw [values, values, memberValues_append, memberValues_append, memberValues, memberValues, ih]

theorem visitNames_congr (h : members.map fst = members'.map fst) (a : Account) :
    a.visitNames limits members = a.visitNames limits members' := by
  induction members generalizing members' a with
  | nil => rw [map_eq_nil_iff.1 h.symm]
  | cons member members ih =>
    obtain ⟨name, value⟩ := member
    cases members' with
    | nil => cases h
    | cons member' members' =>
      obtain ⟨name', value'⟩ := member'
      obtain ⟨rfl, hrest⟩ := List.cons.inj h
      unfold visitNames
      cases a.accountString limits name with
      | error e => rfl
      | ok a => exact ih hrest a

theorem visitObject_congr (h : members.map fst = members'.map fst) (a : Account) :
    a.visitObject limits members = a.visitObject limits members' := by
  have hlength : members.length = members'.length := by
    simpa using congrArg List.length h
  have hempty : members.isEmpty = members'.isEmpty := by
    simpa using congrArg List.isEmpty h
  unfold visitObject
  simp only [hlength, hempty, visitNames_congr h]

theorem visit_number (h : v.asNumber.isSome = true) (a : Account) :
    a.visit library limits v = a.visitNumber library limits v := by
  cases v with
  | integer value | unsigned value | double value => rfl
  | _ => cases h

theorem JsonValue.Twin.visit_eq (h : v.Twin w) (a : Account) :
    a.visit library limits v = a.visit library limits w := by
  cases h with
  | number h =>
    obtain ⟨d, hd, hd'⟩ := h
    rw [visit_number (by rw [hd]; rfl), visit_number (by rw [hd']; rfl), visitNumber,
      visitNumber, hd, hd']
  | array before after _ =>
    change a.visitArray limits _ = a.visitArray limits _
    unfold visitArray
    simp
  | object name before after _ =>
    exact visitObject_congr (by simp) a

theorem drain_congr (library : JsonLibrary) (limits : JsonParseLimits) (fuel : ℕ)
    (before after : List Frame) (h : v.Twin w) (depth : ℕ) (a : Account) :
    drain library limits fuel (before ++ (v, depth) :: after) a =
      drain library limits fuel (before ++ (w, depth) :: after) a := by
  induction fuel generalizing before after v w depth a with
  | zero => cases before <;> rfl
  | succ fuel ih =>
    cases before with
    | cons frame before =>
      obtain ⟨value, depth'⟩ := frame
      rw [cons_append, cons_append, drain, drain]
      cases a.enter limits depth' with
      | error e => rfl
      | ok a =>
        rw [ok_bind, ok_bind]
        cases a.visit library limits value with
        | error e => rfl
        | ok a =>
          rw [ok_bind, ok_bind, ← List.append_assoc, ← List.append_assoc]
          exact ih _ _ h depth a
    | nil =>
      rw [nil_append, nil_append, drain, drain]
      cases a.enter limits depth with
      | error e => rfl
      | ok a =>
        rw [ok_bind, ok_bind, h.visit_eq]
        cases a.visit library limits w with
        | error e => rfl
        | ok a =>
          rw [ok_bind, ok_bind]
          -- The twins are in the same place among the children.
          cases h with
          | number h =>
            obtain ⟨d, hd, hd'⟩ := h
            rw [children_number (by rw [hd]; rfl),
              children_number (by rw [hd']; rfl)]
          | array elements elements' h | object name members members' h =>
            simp only [children, map_append, map_cons, reverse_append, reverse_cons,
              List.append_assoc]
            exact ih _ _ h (depth + 1) a

theorem JsonValue.Twin.canonicalizeJson_eq (h : v.Twin w) :
    canonicalizeJson library limits v = canonicalizeJson library limits w := by
  have hdrain := drain_congr library limits w.values [] [] h 1 {}
  rw [nil_append, nil_append] at hdrain
  unfold canonicalizeJson preflightConstructedJson
  rw [h.values_eq, hdrain, h.writeCanonical_eq]

end twin

/-! ### Identity -/

/-- **Canonical bytes and values.**  The bytes of a value identify it exactly when none of its
numbers can be replaced by another one that is rounded to the same binary64. -/
theorem canonicalizeJson_identifies_iff {library : JsonLibrary} (hreads : library.ReadsNearest)
    (hprints : library.PrintsShortest) (limits : JsonParseLimits) {v : JsonValue} (hv : v.Valid)
    {bytes : Bytes} (h : canonicalizeJson library limits v = .ok bytes) :
    (∀ w : JsonValue, w.Valid → canonicalizeJson library limits w = .ok bytes → v.Equal w) ↔
      v.Every Separated := by
  constructor
  · intro hall
    by_contra hnot
    obtain ⟨w, htwin, hw, hne⟩ := exists_twin hv hnot
    exact hne (hall w hw (by rw [← htwin.canonicalizeJson_eq, h]))
  · intro hseparated w hw h'
    have hstops : Stops isNumberByte [] := by simp [Stops]
    obtain ⟨halike, -⟩ := writeCanonical_inj hreads hprints v w hv hw bytes bytes [] []
      (canonicalizeJson_ok h) (canonicalizeJson_ok h') rfl hstops hstops
    exact halike.equal hseparated hw

/-- An array of a number, a string and an object. -/
theorem canonicalizeJson_identifies_iff_array :
    let v := array [.integer 0, .string (utf8 "a"), .object [(utf8 "b", .null)]]
    let bytes := utf8 "[0,\"a\",\x7b\"b\":null\x7d]"
    (∀ w : JsonValue, w.Valid → canonicalizeJson printingLibrary {} w = .ok bytes → v.Equal w) ↔
      v.Every Separated := by
  refine canonicalizeJson_identifies_iff printingLibrary_reads printingLibrary_prints {} ?_ rfl
  refine ⟨trivial, fun child hchild => ?_⟩
  simp only [children, mem_cons, not_mem_nil, or_false] at hchild
  rcases hchild with rfl | rfl | rfl
  · exact ⟨⟨by decide, by decide⟩, nofun⟩
  · exact ⟨trivial, nofun⟩
  · refine ⟨by simp [Stored], fun child hchild => ?_⟩
    obtain rfl := mem_singleton.1 hchild
    exact ⟨trivial, nofun⟩

/-! ### A collision -/

/-- Prints one number, as `std::to_chars` does. -/
def collisionLibrary : JsonLibrary where
  parseString _ := none
  fromChars _ := none
  parseDocument _ := .error []
  toChars x := if x = 9007199254740992 then some (utf8 "9.007199254740992e+15") else none
  sha256 _ := []

/-- Two sequence ids with the same canonical bytes. -/
theorem canonicalizeJson_collision :
    let v := object [(utf8 "sequence_id", .integer 9007199254740993)]
    let w := object [(utf8 "sequence_id", .integer 9007199254740992)]
    let bytes := utf8 "\x7b\"sequence_id\":9007199254740992\x7d"
    v.Valid ∧ w.Valid ∧ canonicalizeJson collisionLibrary {} v = .ok bytes ∧
      canonicalizeJson collisionLibrary {} w = .ok bytes ∧ ¬ v.Equal w := by
  have hvalid (n : ℤ) (hn : -2 ^ 63 ≤ n ∧ n < 2 ^ 63) :
      (object [(utf8 "sequence_id", .integer n)]).Valid := by
    refine ⟨by simp [Stored], fun child hchild => ?_⟩
    obtain rfl := mem_singleton.1 hchild
    exact ⟨hn, nofun⟩
  refine ⟨hvalid _ (by decide), hvalid _ (by decide), by decide +kernel, by decide +kernel, ?_⟩
  intro hequal
  obtain ⟨members', hmembers, -, hall⟩ := alike_object.1 hequal
  rw [← object.inj hmembers] at hall
  obtain ⟨value, hvalue, hsame⟩ := hall _ (mem_singleton_self _)
  obtain ⟨-, rfl⟩ := Prod.mk.inj (mem_singleton.1 hvalue)
  rw [Alike] at hsame
  obtain ⟨q, hq, hq'⟩ := hsame
  rw [← hq'] at hq
  simp only [exactNumber] at hq
  norm_num at hq

end AgenticCircuit.Bindings
