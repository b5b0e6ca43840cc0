import AgenticCircuit.Trace.Parser

/-! # What a parsed trace document satisfies

`Post` states what a method of the parser returns together with the account of decoded bytes, which
stays within its limit also where the method fails.  Most methods only spend (`Spends`); those that
order and declare say what they leave in the other fields of the parser.  `Consistent` collects what
holds of a document, and `parseDocument_post` shows it by one lemma for each method. -/

namespace AgenticCircuit.Trace

open List hiding modify
open Bindings

variable {limits : TraceValidationLimits} {α β : Type}

/-- The account is within the limit. -/
def Decoder.Within (limits : TraceValidationLimits) (s : Decoder) : Prop :=
  s.decodedBytes ≤ limits.maxAggregateDecodedBytes

/-- From the state the method returns with the property, or it fails; in both cases the account is
within the limit. -/
def Post (limits : TraceValidationLimits) (x : Parse α) (s : Decoder)
    (property : α → Decoder → Prop) : Prop :=
  match x s with
  | (.ok a, s') => property a s' ∧ s'.Within limits
  | (.error _, s') => s'.Within limits

namespace Post

variable {s : Decoder} {P : α → Decoder → Prop} {Q : β → Decoder → Prop}

theorem pure {a : α} (hs : s.Within limits) (h : P a s) :
    Post limits (Pure.pure a : Parse α) s P := ⟨h, hs⟩

theorem fail {code : TraceCode} {pointer message : Bytes} {sequenceId : Option ℕ}
    (hs : s.Within limits) :
    Post limits (Trace.fail code pointer sequenceId message : Parse α) s P := hs

variable {x : Parse α}

theorem bind {f : α → Parse β} (h : Post limits x s P)
    (hf : ∀ a s', P a s' → s'.Within limits → Post limits (f a) s' Q) :
    Post limits (x >>= f) s Q := by
  have hbind : (x >>= f) s = ExceptT.bindCont f (x s).1 (x s).2 := rfl
  unfold Post at *
  rw [hbind]
  rcases hx : x s with ⟨e | a, s'⟩
  · rw [hx] at h
    exact h
  · rw [hx] at h
    exact hf a s' h.1 h.2

theorem mono {P' : α → Decoder → Prop} (h : Post limits x s P) (hPP' : ∀ a s', P a s' → P' a s') :
    Post limits x s P' := by
  unfold Post at *
  rcases hx : x s with ⟨e | a, s'⟩
  · rw [hx] at h
    exact h
  · rw [hx] at h
    exact ⟨hPP' a s' h.1, h.2⟩

theorem map {f : α → β} (h : Post limits x s P) (hf : ∀ a s', P a s' → Q (f a) s') :
    Post limits (f <$> x) s Q := by
  rw [map_eq_pure_bind]
  exact h.bind fun a s' ha hs' => Post.pure hs' (hf a s' ha)

theorem get (hs : s.Within limits) :
    Post limits (MonadState.get : Parse Decoder) s fun a s' => a = s ∧ s' = s :=
  ⟨⟨rfl, rfl⟩, hs⟩

theorem set {s' : Decoder} (hs' : s'.Within limits) :
    Post limits (MonadStateOf.set s' : Parse Unit) s fun _ t => t = s' :=
  ⟨rfl, hs'⟩

theorem modify {f : Decoder → Decoder} (hs : (f s).Within limits) :
    Post limits (modify f : Parse Unit) s fun _ t => t = f s :=
  ⟨rfl, hs⟩

end Post

/-- Only the account is changed. -/
structure Spends (s s' : Decoder) : Prop where
  lastSequenceId : s'.lastSequenceId = s.lastSequenceId
  seenSequenceIds : s'.seenSequenceIds = s.seenSequenceIds
  declaredAddressSpaces : s'.declaredAddressSpaces = s.declaredAddressSpaces

theorem Spends.refl (s : Decoder) : Spends s s := ⟨rfl, rfl, rfl⟩

theorem Spends.trans {s s' s'' : Decoder} (h : Spends s s') (h' : Spends s' s'') : Spends s s'' :=
  ⟨h'.1.trans h.1, h'.2.trans h.2, h'.3.trans h.3⟩

variable {s : Decoder}

/-! ### Fields -/

section

variable (hs : s.Within limits)

include hs

variable {bytes : ℕ} {pointer : Bytes} {sequenceId : Option ℕ} {value : Option JsonValue}

theorem spendDecoded_post :
    Post limits (spendDecoded limits bytes pointer sequenceId) s fun _ s' => Spends s s' := by
  refine (Post.get hs).bind ?_
  rintro a s' ⟨ha, hs'⟩ _
  rw [ha, hs']
  split_ifs with h
  · exact Post.fail hs
  · have hwithin : Decoder.Within limits { s with decodedBytes := s.decodedBytes + bytes } := by
      unfold Decoder.Within at *
      simp only
      omega
    refine (Post.set hwithin).mono ?_
    rintro _ _ rfl
    exact ⟨rfl, rfl, rfl⟩

theorem checkObject_post {object : Members} {required allowed : List String} :
    Post limits (checkObject object pointer required allowed sequenceId) s
      fun _ s' => s' = s := by
  unfold checkObject
  split
  · exact Post.fail hs
  · split
    · exact Post.fail hs
    · exact Post.pure hs rfl

theorem readString_post :
    Post limits (readString limits value pointer sequenceId) s fun _ s' => Spends s s' := by
  unfold readString
  split
  · refine (spendDecoded_post hs).bind ?_
    intro _ s' hspends hs'
    exact Post.pure hs' hspends
  · exact Post.fail hs

theorem readUInt_post :
    Post limits (readUInt limits value pointer sequenceId) s fun _ s' => Spends s s' := by
  unfold readUInt
  split
  · refine (spendDecoded_post hs).bind ?_
    intro _ s' hspends hs'
    exact Post.pure hs' hspends
  · exact Post.fail hs

theorem readOptional_post {read : Option JsonValue → Parse α}
    (hread : ∀ value, Post limits (read value) s fun _ s' => Spends s s') :
    Post limits (readOptional value read) s fun _ s' => Spends s s' := by
  unfold readOptional
  split
  · exact Post.pure hs (Spends.refl s)
  · exact (hread _).map fun _ _ h => h

theorem readArray_post {maximum : ℕ} {notArray limitExceeded : String} :
    Post limits (readArray value pointer sequenceId maximum notArray limitExceeded) s
      fun elements s' => elements.length ≤ maximum ∧ s' = s := by
  unfold readArray
  split
  · exact Post.fail hs
  · split_ifs with h
    · exact Post.fail hs
    · exact Post.pure hs ⟨by omega, rfl⟩

/-! ### Attribute values -/

/-- A scalar is paid for with one byte and those of its string. -/
theorem spend_then_post {x : Parse α}
    (hx : ∀ s', Spends s s' → s'.Within limits → Post limits x s' fun _ s'' => Spends s s'') :
    Post limits (do
      spendDecoded limits bytes pointer sequenceId
      x) s fun _ s' => Spends s s' :=
  (spendDecoded_post hs).bind fun _ s' hspends hs' => hx s' hspends hs'

end

variable {pointer : Bytes} {sequenceId : ℕ} {elements values : List JsonValue}
    {record : PtoTraceRecord} {spaces : List Bytes} {earlier : List ℕ} {root : Members}

mutual

theorem parseValue_post (pointer : Bytes) (sequenceId : ℕ) (value : JsonValue) {s : Decoder}
    (hs : s.Within limits) :
    Post limits (parseValue limits pointer sequenceId value) s fun _ s' => Spends s s' := by
  cases value with
  | null | boolean value | integer value | unsigned value =>
    exact spend_then_post hs fun _ h hs' => Post.pure hs' h
  | double value =>
    refine spend_then_post hs fun s' h hs' => ?_
    split
    · exact Post.pure hs' h
    · exact Post.pure hs' h
  | string value =>
    refine spend_then_post hs fun s' h hs' => ?_
    refine (spendDecoded_post hs').bind fun _ s'' h' hs'' => ?_
    exact Post.pure hs'' (h.trans h')
  | array elements =>
    refine spend_then_post hs fun s' h hs' => ?_
    exact (parseElements_post pointer sequenceId 0 elements hs').map fun _ _ h' => h.trans h'
  | object members =>
    refine spend_then_post hs fun s' h hs' => ?_
    exact (parseMembers_post pointer sequenceId [] members hs').map fun _ _ h' => h.trans h'

theorem parseElements_post (pointer : Bytes) (sequenceId index : ℕ) (elements : List JsonValue)
    {s : Decoder} (hs : s.Within limits) :
    Post limits (parseElements limits pointer sequenceId index elements) s
      fun _ s' => Spends s s' := by
  cases elements with
  | nil => exact Post.pure hs (Spends.refl s)
  | cons value elements =>
    refine (parseValue_post _ sequenceId value hs).bind fun _ s' h hs' => ?_
    refine (parseElements_post pointer sequenceId (index + 1) elements hs').bind
      fun _ s'' h' hs'' => ?_
    exact Post.pure hs'' (h.trans h')

theorem parseMembers_post (pointer : Bytes) (sequenceId : ℕ) (output : List (Bytes × PtoValue))
    (members : List (Bytes × JsonValue)) {s : Decoder} (hs : s.Within limits) :
    Post limits (parseMembers limits pointer sequenceId output members) s
      fun _ s' => Spends s s' := by
  cases members with
  | nil => exact Post.pure hs (Spends.refl s)
  | cons member members =>
    obtain ⟨key, value⟩ := member
    refine (parseValue_post _ sequenceId value hs).bind fun _ s' h hs' => ?_
    refine (spendDecoded_post hs').bind fun _ s'' h' hs'' => ?_
    exact (parseMembers_post pointer sequenceId _ members hs'').mono
      fun _ _ h'' => (h.trans h').trans h''

end

theorem parseScalar_post {value : JsonValue} (hs : s.Within limits) :
    Post limits (parseScalar limits pointer sequenceId value) s fun _ s' => Spends s s' := by
  unfold parseScalar
  split_ifs
  · exact parseValue_post pointer sequenceId value hs
  · exact (spendDecoded_post hs).bind fun _ s' _ hs' => Post.fail hs'

/-! ### Operands -/

/-- The references of an operand are declared. -/
structure PtoTraceOperand.Resolved (spaces : List Bytes) (earlier : List ℕ)
    (operand : PtoTraceOperand) : Prop where
  address : operand.kind = .address → operand.addressSpace ∈ spaces
  recordResult : operand.kind = .recordResult → operand.sequenceId ∈ earlier

theorem parseOperand_post {operand : Members} {rootSequenceId : ℕ} (hs : s.Within limits) :
    Post limits (parseOperand limits operand pointer rootSequenceId) s fun decoded s' =>
      Spends s s' ∧ decoded.Resolved s.declaredAddressSpaces s.seenSequenceIds := by
  unfold parseOperand
  refine (readString_post hs).bind fun kind s₁ h₁ hs₁ => ?_
  have href : ∀ kind : PtoOperandKind, kind ≠ .address → kind ≠ .recordResult →
      Post limits (do
        checkObject operand pointer ["kind", "id"] ["kind", "id"] rootSequenceId
        let id ← readString limits (operand.get "id") (field pointer "id") rootSequenceId
        pure { kind, id }) s₁ fun (decoded : PtoTraceOperand) s' =>
      Spends s s' ∧ decoded.Resolved s.declaredAddressSpaces s.seenSequenceIds := by
    intro kind haddress hresult
    refine (checkObject_post hs₁).bind fun _ s₂ h₂ hs₂ => ?_
    refine (readString_post hs₂).bind fun id s₃ h₃ hs₃ => ?_
    subst h₂
    exact Post.pure hs₃ ⟨h₁.trans h₃, fun h => absurd h haddress, fun h => absurd h hresult⟩
  simp only []
  split_ifs
  · refine (checkObject_post hs₁).bind fun _ s₂ h₂ hs₂ => ?_
    refine (readString_post hs₂).bind fun type s₃ h₃ hs₃ => ?_
    refine (parseScalar_post hs₃).bind fun value s₄ h₄ hs₄ => ?_
    subst h₂
    exact Post.pure hs₄ ⟨(h₁.trans h₃).trans h₄, by rintro ⟨⟩, by rintro ⟨⟩⟩
  · exact href .buffer (by decide) (by decide)
  · exact href .tile (by decide) (by decide)
  · exact href .symbol (by decide) (by decide)
  · refine (checkObject_post hs₁).bind fun _ s₂ h₂ hs₂ => ?_
    refine (readString_post hs₂).bind fun space s₃ h₃ hs₃ => ?_
    refine (readUInt_post hs₃).bind fun address s₄ h₄ hs₄ => ?_
    subst h₂
    have hspends := (h₁.trans h₃).trans h₄
    refine (Post.get hs₄).bind fun current s₅ h₅ hs₅ => ?_
    obtain ⟨rfl, rfl⟩ := h₅
    split_ifs with hdeclared
    · refine Post.pure hs₅ ⟨hspends, fun _ => ?_, by rintro ⟨⟩⟩
      rwa [← hspends.declaredAddressSpaces]
    · exact Post.fail hs₅
  · refine (checkObject_post hs₁).bind fun _ s₂ h₂ hs₂ => ?_
    refine (readUInt_post hs₂).bind fun sequenceId s₃ h₃ hs₃ => ?_
    refine (readUInt_post hs₃).bind fun resultIndex s₄ h₄ hs₄ => ?_
    subst h₂
    have hspends := (h₁.trans h₃).trans h₄
    refine (Post.get hs₄).bind fun current s₅ h₅ hs₅ => ?_
    obtain ⟨rfl, rfl⟩ := h₅
    split_ifs with hseen
    · refine Post.pure hs₅ ⟨hspends, by rintro ⟨⟩, fun _ => ?_⟩
      rwa [← hspends.seenSequenceIds]
    · exact Post.fail hs₅
  · exact Post.fail hs₁

theorem parseOperands_post : ∀ {index : ℕ} {s : Decoder}, s.Within limits →
      Post limits (parseOperands limits pointer sequenceId index elements) s fun decoded s' =>
        Spends s s' ∧ decoded.length = elements.length ∧
        ∀ o ∈ decoded, o.Resolved s.declaredAddressSpaces s.seenSequenceIds := by
  induction elements with
  | nil =>
    intro index s hs
    exact Post.pure hs ⟨Spends.refl s, rfl, by simp⟩
  | cons value elements ih =>
    intro index s hs
    unfold parseOperands
    split
    · exact Post.fail hs
    · refine (parseOperand_post hs).bind fun decoded s₁ h₁ hs₁ => ?_
      refine (ih hs₁).bind fun rest s₂ h₂ hs₂ => ?_
      refine Post.pure hs₂ ⟨h₁.1.trans h₂.1, by rw [length_cons, length_cons, h₂.2.1],
        ?_⟩
      intro o ho
      rcases mem_cons.1 ho with rfl | ho
      · exact h₁.2
      · have := h₂.2.2 o ho
        rwa [h₁.1.declaredAddressSpaces, h₁.1.seenSequenceIds] at this

/-! ### Records -/

theorem parseDependencies_post :
    ∀ {index : ℕ} {before : List ℕ} {s : Decoder}, s.Within limits → before.Nodup →
      (∀ id ∈ before, id ∈ s.seenSequenceIds) →
      Post limits (parseDependencies limits pointer sequenceId index before elements) s
        fun decoded s' => Spends s s' ∧ decoded.length = before.length + elements.length ∧
          decoded.Nodup ∧ ∀ id ∈ decoded, id ∈ s.seenSequenceIds := by
  induction elements with
  | nil =>
    intro index before s hs hnodup hseen
    exact Post.pure hs ⟨Spends.refl s, rfl, hnodup, hseen⟩
  | cons value elements ih =>
    intro index before s hs hnodup hseen
    unfold parseDependencies
    refine (readUInt_post hs).bind fun dependency s₁ h₁ hs₁ => ?_
    split_ifs with hduplicate
    · exact Post.fail hs₁
    · refine (Post.get hs₁).bind fun current s₂ h₂ hs₂ => ?_
      obtain ⟨rfl, rfl⟩ := h₂
      split_ifs with hearlier
      · rw [h₁.seenSequenceIds] at hearlier
        refine (ih hs₂ ?_ ?_).mono ?_
        · refine nodup_append.2 ⟨hnodup, nodup_singleton _, ?_⟩
          rintro id hid id' hid' rfl
          exact hduplicate (by rwa [← mem_singleton.1 hid'])
        · intro id hid
          rw [h₁.seenSequenceIds]
          rcases mem_append.1 hid with hid | hid
          · exact hseen id hid
          · rwa [mem_singleton.1 hid]
        · rintro decoded s' ⟨h', hlength, hnodup', hseen'⟩
          refine ⟨h₁.trans h', ?_, hnodup', by rwa [h₁.seenSequenceIds] at hseen'⟩
          rw [hlength, length_append, length_singleton, length_cons]
          omega
      · exact Post.fail hs₂

theorem parseAttributes_post {members : Members} :
    ∀ {before : List (Bytes × PtoValue)} {s : Decoder}, s.Within limits →
      Post limits (parseAttributes limits pointer sequenceId before members) s
        fun decoded s' => Spends s s' ∧ decoded.length ≤ before.length + members.length := by
  induction members with
  | nil =>
    intro before s hs
    exact Post.pure hs ⟨Spends.refl s, le_rfl⟩
  | cons member members ih =>
    intro before s hs
    obtain ⟨key, value⟩ := member
    unfold parseAttributes
    refine (parseValue_post _ sequenceId value hs).bind fun decoded s₁ h₁ hs₁ => ?_
    refine (ih hs₁).mono ?_
    rintro decoded' s' ⟨h', hlength⟩
    have := length_emplace_le key decoded before
    rw [length_cons]
    exact ⟨h₁.trans h', by omega⟩

theorem parseSource_post {source : Members} (hs : s.Within limits) :
    Post limits (parseSource limits source pointer sequenceId) s fun _ s' => Spends s s' := by
  unfold parseSource
  refine (checkObject_post hs).bind fun _ s₁ h₁ hs₁ => ?_
  subst h₁
  refine (readString_post hs₁).bind fun file s₂ h₂ hs₂ => ?_
  refine (readUInt_post hs₂).bind fun line s₃ h₃ hs₃ => ?_
  refine (readUInt_post hs₃).bind fun column s₄ h₄ hs₄ => ?_
  split_ifs
  · exact Post.fail hs₄
  · exact Post.pure hs₄ ((h₂.trans h₃).trans h₄)

theorem parseOptionalSource_post {record : Members} (hs : s.Within limits) :
    Post limits (parseOptionalSource limits record pointer sequenceId) s
      fun _ s' => Spends s s' := by
  unfold parseOptionalSource
  split
  · exact Post.pure hs (Spends.refl s)
  · split
    · exact (parseSource_post hs).map fun _ _ h => h
    · exact Post.fail hs

/-- The state orders the records with the given ids, the last one first. -/
structure Ordered (spaces : List Bytes) (earlier : List ℕ) (s : Decoder) : Prop where
  lastSequenceId : s.lastSequenceId = earlier.head?
  seenSequenceIds : s.seenSequenceIds = earlier
  declaredAddressSpaces : ∀ space ∈ s.declaredAddressSpaces, space ∈ spaces
  decreasing : earlier.Pairwise (· > ·)

/-- What a record keeps to, given the ids of those before it. -/
structure PtoTraceRecord.Follows (limits : TraceValidationLimits) (spaces : List Bytes)
    (earlier : List ℕ) (record : PtoTraceRecord) : Prop where
  increasing : ∀ id ∈ earlier, id < record.sequenceId
  dependencies : ∀ id ∈ record.dependencies, id ∈ earlier
  distinct : record.dependencies.Nodup
  operands : ∀ operand ∈ record.operands, operand.Resolved spaces earlier
  operandCount : record.operands.length ≤ limits.maxOperandsPerRecord
  dependencyCount : record.dependencies.length ≤ limits.maxDependenciesPerRecord
  attributeCount : record.attributes.length ≤ limits.maxAttributeMembers

theorem claimSequenceId_post (hs : s.Within limits) :
    Post limits (claimSequenceId pointer sequenceId) s fun _ s' =>
      (∀ id ∈ s.lastSequenceId, id < sequenceId) ∧
        s' = { s with lastSequenceId := some sequenceId } := by
  unfold claimSequenceId
  refine (Post.get hs).bind fun current s₁ h₁ hs₁ => ?_
  obtain ⟨rfl, rfl⟩ := h₁
  split_ifs with h
  · exact Post.fail hs₁
  · refine (Post.set (by exact hs₁)).mono ?_
    rintro _ _ rfl
    refine ⟨fun id hid => ?_, rfl⟩
    rw [Option.mem_def.1 hid] at h
    simpa using h

theorem parseRecord_post {record : Members} (hs : s.Within limits) (h : Ordered spaces earlier s) :
    Post limits (parseRecord limits record pointer) s fun decoded s' =>
      decoded.Follows limits spaces earlier ∧ Ordered spaces (decoded.sequenceId :: earlier) s' := by
  unfold parseRecord
  refine (checkObject_post hs).bind fun _ s₁ h₁ hs₁ => ?_
  subst h₁
  refine (readUInt_post hs₁).bind fun sequenceId s₂ h₂ hs₂ => ?_
  refine (claimSequenceId_post hs₂).bind fun _ s₃ h₃ hs₃ => ?_
  obtain ⟨hlast, hs₃eq⟩ := h₃
  have hincreasing : ∀ id ∈ earlier, id < sequenceId := by
    rw [h₂.lastSequenceId, h.lastSequenceId] at hlast
    cases earlier with
    | nil => simp
    | cons last earlier =>
      have hfirst := hlast last rfl
      intro id hid
      rcases mem_cons.1 hid with rfl | hid
      · exact hfirst
      · exact lt_trans ((pairwise_cons.1 h.decreasing).1 id hid) hfirst
  have hseen₃ : s₃.seenSequenceIds = earlier := by
    rw [hs₃eq]
    exact h₂.seenSequenceIds.trans h.seenSequenceIds
  have hspaces₃ : s₃.declaredAddressSpaces = s₁.declaredAddressSpaces := by
    rw [hs₃eq]
    exact h₂.declaredAddressSpaces
  have hlast₃ : s₃.lastSequenceId = some sequenceId := by rw [hs₃eq]
  refine (readString_post hs₃).bind fun opcode s₄ h₄ hs₄ => ?_
  split_ifs
  · exact Post.fail hs₄
  refine (readArray_post hs₄).bind fun operandValues s₅ h₅ hs₅ => ?_
  obtain ⟨hoperandCount, rfl⟩ := h₅
  refine (parseOperands_post hs₅).bind fun operands s₆ h₆ hs₆ => ?_
  obtain ⟨h₆, hoperandLength, hoperands⟩ := h₆
  refine (readArray_post hs₆).bind fun dependencyValues s₇ h₇ hs₇ => ?_
  obtain ⟨hdependencyCount, rfl⟩ := h₇
  refine (parseDependencies_post hs₇ nodup_nil (by simp)).bind
    fun dependencies s₈ h₈ hs₈ => ?_
  obtain ⟨h₈, hdependencyLength, hnodup, hdependencies⟩ := h₈
  split
  · exact Post.fail hs₈
  split_ifs with hattributeCount
  · exact Post.fail hs₈
  refine (parseAttributes_post hs₈).bind fun attributes s₉ h₉ hs₉ => ?_
  obtain ⟨h₉, hattributes⟩ := h₉
  refine (readOptional_post hs₉ fun value => readUInt_post hs₉).bind
    fun issueTime s₁₀ h₁₀ hs₁₀ => ?_
  refine (parseOptionalSource_post hs₁₀).bind fun source s₁₁ h₁₁ hs₁₁ => ?_
  have hspends : Spends s₃ s₁₁ :=
    ((((h₄.trans h₆).trans h₈).trans h₉).trans h₁₀).trans h₁₁
  refine (Post.modify (by exact hs₁₁)).bind fun _ s₁₂ h₁₂ hs₁₂ => ?_
  have hspaces : ∀ space ∈ s₅.declaredAddressSpaces, space ∈ spaces := by
    rw [h₄.declaredAddressSpaces, hspaces₃]
    exact h.declaredAddressSpaces
  have hseen₅ : s₅.seenSequenceIds = earlier := h₄.seenSequenceIds.trans hseen₃
  have hseen₇ : s₇.seenSequenceIds = earlier := h₆.seenSequenceIds.trans hseen₅
  refine Post.pure hs₁₂ ⟨?_, ?_⟩
  · exact {
      increasing := hincreasing
      dependencies := by rwa [hseen₇] at hdependencies
      distinct := hnodup
      operands := fun o ho => ⟨fun hkind => hspaces _ ((hoperands o ho).address hkind),
        fun hkind => hseen₅ ▸ (hoperands o ho).recordResult hkind⟩
      operandCount := hoperandLength.trans_le hoperandCount
      dependencyCount := (hdependencyLength.trans (Nat.zero_add _)).trans_le hdependencyCount
      attributeCount := hattributes.trans (by simpa using hattributeCount) }
  · subst h₁₂
    exact {
      lastSequenceId := hspends.lastSequenceId.trans hlast₃
      seenSequenceIds := congrArg _ (hspends.seenSequenceIds.trans hseen₃)
      declaredAddressSpaces := by
        simp only [hspends.declaredAddressSpaces, hspaces₃]
        exact h.declaredAddressSpaces
      decreasing := pairwise_cons.2 ⟨hincreasing, h.decreasing⟩ }

/-- Every record keeps to what `Follows` asks of it. -/
def RecordsFollow (limits : TraceValidationLimits) (spaces : List Bytes) :
    List ℕ → List PtoTraceRecord → Prop
  | _, [] => True
  | earlier, record :: records =>
    record.Follows limits spaces earlier ∧
      RecordsFollow limits spaces (record.sequenceId :: earlier) records

theorem parseRecords_post :
    ∀ {index : ℕ} {earlier : List ℕ} {s : Decoder}, s.Within limits → Ordered spaces earlier s →
      Post limits (parseRecords limits index values) s fun decoded _ =>
        decoded.length = values.length ∧ RecordsFollow limits spaces earlier decoded := by
  induction values with
  | nil =>
    intro index earlier s hs _
    exact Post.pure hs ⟨rfl, trivial⟩
  | cons value values ih =>
    intro index earlier s hs h
    unfold parseRecords
    split
    · exact Post.fail hs
    · refine (parseRecord_post hs h).bind fun decoded s₁ h₁ hs₁ => ?_
      refine (ih hs₁ h₁.2).bind fun rest s₂ h₂ hs₂ => ?_
      refine Post.pure hs₂ ⟨?_, h₁.1, h₂.2⟩
      rw [length_cons, length_cons, h₂.1]

theorem RecordsFollow.follows : ∀ {earlier : List ℕ} {before after : List PtoTraceRecord},
      RecordsFollow limits spaces earlier (before ++ record :: after) →
      record.Follows limits spaces ((before.map (·.sequenceId)).reverse ++ earlier)
  | _, [], _, h => h.1
  | _, _ :: _, _, h => by
    have := RecordsFollow.follows h.2
    simpa using this

/-! ### The document -/

/-- The postcondition of a parse. -/
structure PtoTraceDocument.Consistent (limits : TraceValidationLimits)
    (document : PtoTraceDocument) : Prop where
  follows : ∀ before record after, document.records = before ++ record :: after →
    record.Follows limits document.metadata.addressSpaces (before.map (·.sequenceId))
  addressSpaces : document.metadata.addressSpaces.Nodup
  recordCount : ∀ count ∈ document.metadata.recordCount, count = document.records.length
  maxRecordCount : document.records.length ≤ limits.maxRecordCount

theorem PtoTraceRecord.Follows.of_mem_iff {earlier' : List ℕ}
    (h : record.Follows limits spaces earlier) (heq : ∀ id, id ∈ earlier ↔ id ∈ earlier') :
    record.Follows limits spaces earlier' where
  increasing id hid := h.increasing id ((heq id).2 hid)
  dependencies id hid := (heq id).1 (h.dependencies id hid)
  distinct := h.distinct
  operands o ho := ⟨(h.operands o ho).address, fun hkind =>
    (heq _).1 ((h.operands o ho).recordResult hkind)⟩
  operandCount := h.operandCount
  dependencyCount := h.dependencyCount
  attributeCount := h.attributeCount

/-- The address spaces that are read are those that are declared. -/
theorem parseSpaces_post :
    ∀ {index : ℕ} {before : List Bytes} {s : Decoder}, s.Within limits → before.Nodup →
      (∀ space ∈ s.declaredAddressSpaces, space ∈ before) →
      Post limits (parseSpaces limits index before values) s fun spaces s' =>
        spaces.Nodup ∧ (∀ space ∈ s'.declaredAddressSpaces, space ∈ spaces) ∧
        s'.lastSequenceId = s.lastSequenceId ∧ s'.seenSequenceIds = s.seenSequenceIds := by
  induction values with
  | nil =>
    intro index before s hs hnodup hdeclared
    exact Post.pure hs ⟨hnodup, hdeclared, rfl, rfl⟩
  | cons value values ih =>
    intro index before s hs hnodup hdeclared
    unfold parseSpaces
    refine (readString_post hs).bind fun space s₁ h₁ hs₁ => ?_
    split_ifs with hduplicate
    · exact Post.fail hs₁
    · refine (Post.modify (by exact hs₁)).bind fun _ s₂ h₂ hs₂ => ?_
      refine (ih hs₂ ?_ ?_).mono ?_
      · refine nodup_append.2 ⟨hnodup, nodup_singleton _, ?_⟩
        rintro x hx y hy rfl
        exact hduplicate (by rwa [← mem_singleton.1 hy])
      · subst h₂
        intro x hx
        rcases mem_cons.1 hx with rfl | hx
        · exact mem_append_right _ (mem_singleton_self _)
        · rw [h₁.declaredAddressSpaces] at hx
          exact mem_append_left _ (hdeclared x hx)
      · rintro spaces s' ⟨hnodup', hdeclared', hlast, hseen⟩
        subst h₂
        exact ⟨hnodup', hdeclared', hlast.trans h₁.lastSequenceId, hseen.trans h₁.seenSequenceIds⟩

theorem parseContentHash_post {value : Option JsonValue} (hs : s.Within limits) :
    Post limits (parseContentHash limits value) s fun _ s' => Spends s s' := by
  unfold parseContentHash
  refine (readString_post hs).bind fun text s₁ h₁ hs₁ => ?_
  split_ifs
  · exact Post.pure hs₁ h₁
  · exact Post.fail hs₁

theorem parseMetadata_post {metadata : Members} :
    Post limits (parseMetadata limits metadata) {} fun decoded s' =>
      decoded.addressSpaces.Nodup ∧ Ordered decoded.addressSpaces [] s' := by
  have hs : Decoder.Within limits {} := Nat.zero_le _
  have hstring : ∀ {name : String} {s : Decoder}, s.Within limits →
      Post limits (readOptional (metadata.get name) fun value =>
        readString limits value (field (utf8 "/metadata") name) none) s
        fun _ s' => Spends s s' :=
    fun hs => readOptional_post hs fun _ => readString_post hs
  unfold parseMetadata
  refine (checkObject_post hs).bind fun _ s₁ h₁ hs₁ => ?_
  subst h₁
  refine (hstring hs₁).bind fun producer s₂ h₂ hs₂ => ?_
  refine (hstring hs₂).bind fun ptoIdentity s₃ h₃ hs₃ => ?_
  refine (hstring hs₃).bind fun sourceProgram s₄ h₄ hs₄ => ?_
  refine (hstring hs₄).bind fun dataLayout s₅ h₅ hs₅ => ?_
  refine (readOptional_post hs₅ fun _ => readUInt_post hs₅).bind fun recordCount s₆ h₆ hs₆ => ?_
  refine (readOptional_post hs₆ fun _ => parseContentHash_post hs₆).bind
    fun contentHash s₇ h₇ hs₇ => ?_
  have hspends : Spends {} s₇ :=
    ((((h₂.trans h₃).trans h₄).trans h₅).trans h₆).trans h₇
  have hspaces : Post limits
      (readOptional (metadata.get "address_spaces") (parseAddressSpaces limits)) s₇
      fun spaces s' => (spaces.getD []).Nodup ∧
        (∀ space ∈ s'.declaredAddressSpaces, space ∈ spaces.getD []) ∧
        s'.lastSequenceId = none ∧ s'.seenSequenceIds = [] := by
    unfold readOptional
    split
    · refine Post.pure hs₇ ⟨nodup_nil, ?_, hspends.lastSequenceId, hspends.seenSequenceIds⟩
      rw [hspends.declaredAddressSpaces]
      simp
    · unfold parseAddressSpaces
      split
      · exact (Post.fail hs₇).map fun _ _ h => h
      · refine (parseSpaces_post hs₇ nodup_nil ?_).map ?_
        · rw [hspends.declaredAddressSpaces]
          simp
        · rintro spaces s' ⟨hnodup, hdeclared, hlast, hseen⟩
          exact ⟨hnodup, hdeclared, hlast.trans hspends.lastSequenceId,
            hseen.trans hspends.seenSequenceIds⟩
  refine hspaces.bind fun spaces s₈ h₈ hs₈ => ?_
  obtain ⟨hnodup, hdeclared, hlast, hseen⟩ := h₈
  exact Post.pure hs₈ ⟨hnodup, ⟨hlast, hseen, hdeclared, List.Pairwise.nil⟩⟩

theorem checkRootString_post {name expected : String} (hs : s.Within limits) :
    Post limits (checkRootString root name expected) s fun _ s' => s' = s := by
  unfold checkRootString
  split_ifs
  · exact Post.pure hs rfl
  · exact Post.fail hs

variable {library : JsonLibrary}

theorem validateContentHash_post {records : List JsonValue} {declared : Bytes}
    (hs : s.Within limits) :
    Post limits (validateContentHash limits library records declared) s fun _ s' => s' = s := by
  unfold validateContentHash
  split_ifs
  · exact Post.pure hs rfl
  · split
    · exact Post.fail hs
    · split_ifs
      · exact Post.pure hs rfl
      · exact Post.fail hs

theorem parseRoot_post : Post limits (parseRoot limits library root) {} fun document _ =>
      document.Consistent limits := by
  have hs : Decoder.Within limits {} := Nat.zero_le _
  unfold parseRoot
  refine (checkObject_post hs).bind fun _ s₁ h₁ hs₁ => ?_
  subst h₁
  refine (checkRootString_post hs₁).bind fun _ s₂ h₂ hs₂ => ?_
  subst h₂
  refine (checkRootString_post hs₂).bind fun _ s₃ h₃ hs₃ => ?_
  subst h₃
  refine (checkRootString_post hs₃).bind fun _ s₄ h₄ hs₄ => ?_
  subst h₄
  split
  · exact Post.fail hs₄
  refine parseMetadata_post.bind fun metadata s₅ h₅ hs₅ => ?_
  refine (readArray_post hs₅).bind fun values s₆ h₆ hs₆ => ?_
  obtain ⟨hcount, rfl⟩ := h₆
  refine (parseRecords_post hs₆ h₅.2).bind fun records s₇ h₇ hs₇ => ?_
  split_ifs with hrecordCount
  · exact Post.fail hs₇
  refine (validateContentHash_post hs₇).bind fun _ s₈ h₈ hs₈ => ?_
  refine Post.pure hs₈ ⟨?_, h₅.1, ?_, by simp only; omega⟩
  · intro before record after hrecords
    have hfollow := h₇.2
    simp only at hrecords
    rw [hrecords] at hfollow
    refine hfollow.follows.of_mem_iff fun id => ?_
    simp
  · intro count hmem
    simp only [Option.mem_def] at hmem
    simpa [hmem] using hrecordCount

/-- A parse returns a consistent document or fails, and the account of decoded bytes is within its
limit either way. -/
theorem parseDocument_post (input : Bytes) :
    Post limits (parseDocument limits library input) {} fun document _ =>
      document.Consistent limits := by
  have hs : Decoder.Within limits {} := Nat.zero_le _
  unfold parseDocument
  split
  · exact Post.fail hs
  · split
    · exact Post.fail hs
    · exact parseRoot_post

end AgenticCircuit.Trace
