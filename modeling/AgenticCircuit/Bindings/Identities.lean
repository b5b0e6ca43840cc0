import AgenticCircuit.Bindings.Preflight

/-! # Identities and resolution keys

`Registry.cpp` and `Binding.cpp` each have an `isIdentity`, a loop that splits a string at its next
dot.  The split gives an empty remainder for a missing separator and for one at the end.  `Binding.cpp`
looks for the dot first; `Registry.cpp` stops at an empty remainder, so its `isIdentity` and its
`isResolutionKey` let a separator pass at the end (`identity_grammars_agree_iff`). -/

namespace AgenticCircuit.Bindings

open List

def isAlpha (c : UInt8) : Bool :=
  (decide ('a'.toUInt8 ≤ c) && decide (c ≤ 'z'.toUInt8)) ||
    (decide ('A'.toUInt8 ≤ c) && decide (c ≤ 'Z'.toUInt8))

def isNameByte (c : UInt8) : Bool := isAlpha c || isDigit c || c == '_'.toUInt8

/-- `isName`, the same in both files. -/
def isName : Bytes → Bool
  | [] => false
  | first :: rest => (isAlpha first || first == '_'.toUInt8) && rest.all isNameByte

/-- `StringRef::split`: what stands before the first separator and what stands behind it. -/
def split (separator : Bytes) : Bytes → Bytes × Bytes
  | [] => ([], [])
  | c :: rest =>
    if separator.isPrefixOf (c :: rest) then ([], (c :: rest).drop separator.length)
    else (c :: (split separator rest).1, (split separator rest).2)

/-- The loop of `Registry.cpp`: every segment begins with `lead` and goes on with a name. -/
def segments (lead separator : Bytes) : ℕ → Bytes → Bool
  | 0, _ => false
  | turns + 1, value =>
    if !lead.isPrefixOf value then false else
    let parts := split separator (value.drop lead.length)
    if !isName parts.1 then false
    else if parts.2.isEmpty then true
    else segments lead separator turns parts.2

namespace Registry

def isIdentity (value : Bytes) : Bool := !value.isEmpty && segments [] (utf8 ".") value.length value

def isResolutionKey (value : Bytes) : Bool := segments (utf8 "@") (utf8 "::") value.length value

end Registry

namespace Binding

/-- The loop of `Binding.cpp`, as long as there is a dot. -/
def isIdentityTail : ℕ → Bytes → Bool
  | 0, _ => true
  | turns + 1, value =>
    if value.contains '.'.toUInt8 then
      let rest := (split (utf8 ".") value).2
      isName (split (utf8 ".") rest).1 && isIdentityTail turns rest
    else true

def isIdentity (value : Bytes) : Bool :=
  !(value.isEmpty || !isName (split (utf8 ".") value).1) && isIdentityTail value.length value

end Binding

/-! ### Sequences of names -/

/-- Names, at least one, each behind `lead`, with separators between them. -/
inductive Names (lead separator : Bytes) : Bytes → Prop
  | last {name : Bytes} : isName name = true → Names lead separator (lead ++ name)
  | more {name rest : Bytes} : isName name = true → Names lead separator rest →
      Names lead separator (lead ++ (name ++ separator ++ rest))

variable {lead separator more name rest value : Bytes} {mark : UInt8} {turns : ℕ}

theorem isNameByte_of_isName (h : isName name = true) : ∀ c ∈ name, isNameByte c = true := by
  cases name with
  | nil => exact nofun
  | cons first rest =>
    rw [isName, Bool.and_eq_true, Bool.or_eq_true] at h
    refine forall_mem_cons.2 ⟨?_, all_eq_true.1 h.2⟩
    rcases h.1 with h | h <;> simp [isNameByte, h]

/-- A name ends before a separator that begins with no byte of names. -/
theorem split_name (more : Bytes) (hmark : isNameByte mark = false)
    (h : ∀ c ∈ name, isNameByte c = true) (rest : Bytes) : split (mark :: more) name = (name, []) ∧
      split (mark :: more) (name ++ (mark :: more ++ rest)) = (name, rest) := by
  induction name with
  | nil => simp [split]
  | cons c name ih =>
    obtain ⟨hc, hname⟩ := forall_mem_cons.1 h
    have hne : (mark == c) = false := by
      rw [beq_eq_false_iff_ne]
      rintro rfl
      rw [hmark] at hc
      cases hc
    obtain ⟨hlast, hmore⟩ := ih hname
    rw [cons_append]
    simp only [split, isPrefixOf, hne, Bool.false_and, Bool.false_eq_true, if_false, hlast, hmore,
      and_self]

theorem split_cases (separator value : Bytes) : split separator value = (value, []) ∨
      value = (split separator value).1 ++ separator ++ (split separator value).2 := by
  induction value with
  | nil => exact .inl rfl
  | cons c value ih =>
    rw [split]
    split
    · rename_i hprefix
      obtain ⟨rest, hrest⟩ := isPrefixOf_iff_prefix.1 hprefix
      rw [← hrest]
      simp
    · refine ih.imp (fun h => by rw [h]) fun h => ?_
      rw [cons_append, cons_append, ← h]

theorem Names.ne_nil (h : Names lead separator value) : value ≠ [] := by
  cases h with
  | last hname | more hname _ =>
    rintro hnil
    obtain ⟨-, hnil⟩ := append_eq_nil_iff.1 hnil
    simp_all [isName]

/-- A sequence, or one with a separator behind it. -/
def Loose (lead separator value : Bytes) : Prop :=
  Names lead separator value ∨ ∃ t, Names lead separator t ∧ value = t ++ separator

/-- **The loop of `Registry.cpp`** lets a separator pass at the end. -/
theorem segments_iff (hmark : isNameByte mark = false) (hturns : value.length ≤ turns) :
    segments lead (mark :: more) turns value = true ↔ Loose lead (mark :: more) value := by
  induction turns generalizing value with
  | zero =>
    obtain rfl : value = [] := length_eq_zero_iff.1 (Nat.le_zero.1 hturns)
    refine iff_of_false (by simp [segments]) ?_
    rintro (h | ⟨t, _, h⟩)
    · exact h.ne_nil rfl
    · simp at h
  | succ turns ih =>
    have hshorter {name rest : Bytes} (hvalue : value = lead ++ (name ++ mark :: more ++ rest)) :
        rest.length ≤ turns := by
      simp only [hvalue, length_append, length_cons] at hturns
      omega
    have hturn (w : Bytes) : segments lead (mark :: more) (turns + 1) (lead ++ w) =
        (isName (split (mark :: more) w).1 && ((split (mark :: more) w).2.isEmpty ||
          segments lead (mark :: more) turns (split (mark :: more) w).2)) := by
      have hlead : lead.isPrefixOf (lead ++ w) = true := isPrefixOf_iff_prefix.2 (prefix_append _ _)
      simp only [segments, hlead, drop_left]
      cases isName (split (mark :: more) w).1 <;> cases (split (mark :: more) w).2.isEmpty <;> rfl
    constructor
    · intro h
      have hlead : lead.isPrefixOf value = true := by
        by_contra hnot
        simp [segments, hnot] at h
      obtain ⟨w, rfl⟩ := isPrefixOf_iff_prefix.1 hlead
      rw [hturn, Bool.and_eq_true, Bool.or_eq_true] at h
      obtain ⟨hname, hrest⟩ := h
      rcases split_cases (mark :: more) w with hsplit | hw
      · rw [hsplit] at hname
        exact .inl (.last hname)
      · generalize split (mark :: more) w = parts at hname hrest hw
        obtain ⟨name, rest⟩ := parts
        subst hw
        rcases hrest with hrest | hrest
        · obtain rfl : rest = [] := isEmpty_iff.1 hrest
          exact .inr ⟨_, .last hname, by simp⟩
        · rcases (ih (hshorter rfl)).1 hrest with hrest | ⟨t, ht, rfl⟩
          · exact .inl (.more hname hrest)
          · exact .inr ⟨_, .more hname ht, by simp⟩
    · -- a name in front of `rest`, which is empty or goes on
      have hstep {name : Bytes} (rest : Bytes) (hname : isName name = true)
          (hvalue : value = lead ++ (name ++ mark :: more ++ rest))
          (hrest : rest = [] ∨ Loose lead (mark :: more) rest) :
          segments lead (mark :: more) (turns + 1) value = true := by
        have hsplit := (split_name more hmark (isNameByte_of_isName hname) rest).2
        rw [← append_assoc] at hsplit
        rw [hvalue, hturn, hsplit, hname]
        rcases hrest with rfl | hrest
        · rfl
        · simp [(ih (hshorter hvalue)).2 hrest]
      rintro (h | ⟨t, h, rfl⟩)
      · cases h with
        | last hname =>
          rw [hturn, (split_name more hmark (isNameByte_of_isName hname) []).1, hname]
          rfl
        | more hname hrest => exact hstep _ hname rfl (.inr (.inl hrest))
      · cases h with
        | last hname => exact hstep [] hname (by simp) (.inl rfl)
        | @more name rest hname hrest =>
          exact hstep (rest ++ mark :: more) hname (by simp) (.inr (.inr ⟨rest, hrest, rfl⟩))

/-- **The loop of `Binding.cpp`** finds exactly the sequences. -/
theorem isIdentityTail_iff (hturns : value.length ≤ turns) :
    (isName (split (utf8 ".") value).1 && Binding.isIdentityTail turns value) = true ↔
      Names [] (utf8 ".") value := by
  have hmark : isNameByte '.'.toUInt8 = false := by decide
  have hdot : utf8 "." = ['.'.toUInt8] := rfl
  induction turns generalizing value with
  | zero =>
    obtain rfl : value = [] := length_eq_zero_iff.1 (Nat.le_zero.1 hturns)
    exact iff_of_false (by simp [split, isName]) fun h => h.ne_nil rfl
  | succ turns ih =>
    rw [Binding.isIdentityTail, hdot]
    constructor
    · intro h
      obtain ⟨hname, htail⟩ := Bool.and_eq_true_iff.1 h
      rcases split_cases ['.'.toUInt8] value with hsplit | hvalue
      · rw [hsplit] at hname
        exact .last hname
      · generalize split ['.'.toUInt8] value = parts at hname htail hvalue
        obtain ⟨name, rest⟩ := parts
        subst hvalue
        have hcontains : (name ++ ['.'.toUInt8] ++ rest).contains '.'.toUInt8 = true := by simp
        rw [if_pos hcontains] at htail
        simp only [length_append, length_singleton] at hturns
        have hlength : rest.length ≤ turns := by omega
        exact .more hname ((ih hlength).1 htail)
    · intro h
      cases h with
      | @last name hname =>
        have hbytes := isNameByte_of_isName hname
        have hcontains : name.contains '.'.toUInt8 = false := by
          rw [Bool.eq_false_iff, ne_eq, contains_iff_mem]
          exact fun hmem => absurd (hbytes _ hmem) (by simp [hmark])
        rw [nil_append, (split_name [] hmark hbytes []).1, hcontains, hname]
        rfl
      | @more name rest hname hrest =>
        have hsplit := (split_name [] hmark (isNameByte_of_isName hname) rest).2
        have hcontains : (name ++ ['.'.toUInt8] ++ rest).contains '.'.toUInt8 = true := by simp
        rw [← append_assoc] at hsplit
        simp only [length_append, length_singleton] at hturns
        have hlength : rest.length ≤ turns := by omega
        rw [nil_append, hsplit, hname, if_pos hcontains]
        exact (ih hlength).2 hrest

theorem Names.getLast? (h : Names lead separator value) :
    ∃ c, value.getLast? = some c ∧ isNameByte c = true := by
  induction h with
  | @last name hname =>
    have hne : name ≠ [] := by
      rintro rfl
      cases hname
    rw [getLast?_append, getLast?_eq_some_getLast hne]
    exact ⟨_, rfl, isNameByte_of_isName hname _ (getLast_mem hne)⟩
  | more _ _ ih =>
    obtain ⟨c, hc, hbyte⟩ := ih
    exact ⟨c, by simp [hc], hbyte⟩

/-- No sequence ends in a separator, so the two differ where one stands at the end. -/
theorem loose_iff_names (mark : UInt8) (hlast : separator.getLast? = some mark)
    (hmark : isNameByte mark = false) : (Loose lead separator value ↔ Names lead separator value) ↔
      ∀ t, Names lead separator t → value ≠ t ++ separator := by
  constructor
  · rintro h t ht rfl
    obtain ⟨c, hc, hbyte⟩ := (h.1 (.inr ⟨t, ht, rfl⟩)).getLast?
    rw [getLast?_append, hlast, Option.some_or] at hc
    cases hc
    rw [hmark] at hbyte
    cases hbyte
  · refine fun h => ⟨?_, .inl⟩
    rintro (hnames | ⟨t, ht, heq⟩)
    · exact hnames
    · exact absurd heq (h t ht)

/-! ### The two files -/

/-- A dotted sequence of names. -/
abbrev Dotted : Bytes → Prop := Names [] (utf8 ".")

/-- Names with an `@`, joined by `::`. -/
abbrev Keyed : Bytes → Prop := Names (utf8 "@") (utf8 "::")

theorem registry_isIdentity_iff : Registry.isIdentity value = true ↔ Loose [] (utf8 ".") value := by
  have hloop : segments [] (utf8 ".") value.length value = true ↔ Loose [] (utf8 ".") value :=
    segments_iff (by decide) le_rfl
  rw [Registry.isIdentity, Bool.and_eq_true, hloop, and_iff_right_iff_imp]
  rintro (h | ⟨t, h, rfl⟩)
  · simpa using h.ne_nil
  · simp [h.ne_nil]

theorem isResolutionKey_iff :
    Registry.isResolutionKey value = true ↔ Loose (utf8 "@") (utf8 "::") value :=
  segments_iff (by decide) le_rfl

theorem binding_isIdentity_iff : Binding.isIdentity value = true ↔ Dotted value := by
  rw [Dotted, ← isIdentityTail_iff le_rfl, Binding.isIdentity]
  cases value <;> simp [split, isName]

/-- **The grammars of identities.**  The two files agree with each other and with the grammars, except
on an identity with a dot behind it and on a resolution key with `::` behind it. -/
theorem identity_grammars_agree_iff (value : Bytes) :
    ((Registry.isIdentity value = true ↔ Binding.isIdentity value = true) ∧
      (Binding.isIdentity value = true ↔ Dotted value) ∧
      (Registry.isResolutionKey value = true ↔ Keyed value)) ↔
    (∀ t, Dotted t → value ≠ t ++ utf8 ".") ∧ ∀ t, Keyed t → value ≠ t ++ utf8 "::" := by
  rw [registry_isIdentity_iff, binding_isIdentity_iff, isResolutionKey_iff,
    loose_iff_names '.'.toUInt8 rfl (by decide),
    loose_iff_names ':'.toUInt8 rfl (by decide)]
  exact and_congr_right fun _ => and_iff_right Iff.rfl

/-- `"a."` -/
theorem trailing_dot_accepted : ¬ ∀ value : Bytes,
    (Registry.isIdentity value = true ↔ Binding.isIdentity value = true) ∧
      (Binding.isIdentity value = true ↔ Dotted value) ∧
      (Registry.isResolutionKey value = true ↔ Keyed value) := by
  intro h
  exact absurd (h (utf8 "a.")).1 (by decide)

end AgenticCircuit.Bindings
