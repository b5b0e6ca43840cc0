import AgenticCircuit.Bindings.PreflightComplete
import AgenticCircuit.Trace.ParserLaws

/-! # Trace streams

`PtoTraceStream` collects a document in chunks and parses it at the end.  Up to the byte limit it
gives what `parsePtoTrace` gives on the whole document (`finish_within`); above the limit it reports
the limit by itself, and so it does where no diagnostic may be kept (`finish_above`). -/

namespace AgenticCircuit.Trace

open Bindings List

structure PtoTraceStream where
  buffer : Bytes := []
  finished : Bool := false
  exceededByteLimit : Bool := false
deriving DecidableEq

namespace PtoTraceStream

variable (limits : TraceValidationLimits) (library : JsonLibrary)

def append (s : PtoTraceStream) (bytes : Bytes) : Bool × PtoTraceStream :=
  if s.finished ∨ s.exceededByteLimit then (false, s)
  else if s.buffer.length > limits.maxDocumentBytes ∨
      bytes.length > limits.maxDocumentBytes - s.buffer.length then
    (false, { s with exceededByteLimit := true })
  else (true, { s with buffer := s.buffer ++ bytes })

def finish (s : PtoTraceStream) : TraceLoadResult × PtoTraceStream :=
  if s.finished then
    ({ diagnostics := [⟨.stream, [], none, utf8 "trace stream was already finished"⟩] }, s)
  else
    let s := { s with finished := true }
    if s.exceededByteLimit then
      ({ diagnostics := [⟨.limit, [], none, utf8 "document byte limit exceeded"⟩] }, s)
    else (parsePtoTrace limits library s.buffer, s)

/-- The chunks one after the other, then `finish`. -/
def parseChunks (chunks : List Bytes) : TraceLoadResult :=
  (finish limits library (chunks.foldl (fun s bytes => (s.append limits bytes).2) {})).1

variable {limits library} {chunks : List Bytes}

/-- The state after the chunks. -/
def appendAll (limits : TraceValidationLimits) (chunks : List Bytes) (s : PtoTraceStream) :
    PtoTraceStream :=
  chunks.foldl (fun s bytes => (s.append limits bytes).2) s

theorem appendAll_exceeded (limits : TraceValidationLimits) (chunks : List Bytes)
    {s : PtoTraceStream} (h : s.exceededByteLimit = true) : appendAll limits chunks s = s := by
  induction chunks with
  | nil => rfl
  | cons bytes chunks ih =>
    have hstep : (s.append limits bytes).2 = s := by
      unfold append
      rw [if_pos (.inr h)]
    unfold appendAll at *
    rw [foldl_cons, hstep, ih]

theorem appendAll_within (limits : TraceValidationLimits) (chunks : List Bytes) (buffer : Bytes)
    (h : buffer.length + chunks.flatten.length ≤ limits.maxDocumentBytes) :
    appendAll limits chunks { buffer } = { buffer := buffer ++ chunks.flatten } := by
  induction chunks generalizing buffer with
  | nil => simp [appendAll]
  | cons bytes chunks ih =>
    rw [flatten_cons, length_append] at h
    have hstep : (append limits { buffer } bytes).2 = { buffer := buffer ++ bytes } := by
      unfold append
      rw [if_neg (by simp), if_neg (by simp only; omega)]
    have htail := ih (buffer ++ bytes) (by rw [length_append]; omega)
    unfold appendAll at *
    rw [foldl_cons, hstep, htail, flatten_cons, append_assoc]

theorem appendAll_above (limits : TraceValidationLimits) (chunks : List Bytes) (buffer : Bytes)
    (hbuffer : buffer.length ≤ limits.maxDocumentBytes)
    (h : limits.maxDocumentBytes < buffer.length + chunks.flatten.length) :
    ∃ kept, appendAll limits chunks { buffer } = { buffer := kept, exceededByteLimit := true } := by
  induction chunks generalizing buffer with
  | nil =>
    rw [flatten_nil, length_nil] at h
    omega
  | cons bytes chunks ih =>
    rw [flatten_cons, length_append] at h
    rcases Nat.lt_or_ge limits.maxDocumentBytes (buffer.length + bytes.length) with hlt | hge
    · have hstep : (append limits { buffer } bytes).2 =
          { buffer, exceededByteLimit := true } := by
        unfold append
        rw [if_neg (by simp), if_pos (.inr (by simp only; omega))]
      have htail := @appendAll_exceeded limits chunks { buffer, exceededByteLimit := true } rfl
      refine ⟨buffer, ?_⟩
      unfold appendAll at *
      rw [foldl_cons, hstep, htail]
    · have hstep : (append limits { buffer } bytes).2 = { buffer := buffer ++ bytes } := by
        unfold append
        rw [if_neg (by simp), if_neg (by simp only; omega)]
      obtain ⟨kept, htail⟩ := ih (buffer ++ bytes) (by rwa [length_append])
        (by rw [length_append]; omega)
      refine ⟨kept, ?_⟩
      unfold appendAll at *
      rw [foldl_cons, hstep, htail]

theorem parseChunks_within (library : JsonLibrary)
    (h : chunks.flatten.length ≤ limits.maxDocumentBytes) :
    parseChunks limits library chunks = parsePtoTrace limits library chunks.flatten := by
  have hall := appendAll_within limits chunks [] (by rwa [length_nil, Nat.zero_add])
  unfold parseChunks
  rw [show chunks.foldl _ _ = _ from hall]
  rfl

theorem parseChunks_above (library : JsonLibrary)
    (h : limits.maxDocumentBytes < chunks.flatten.length) : parseChunks limits library chunks =
      { diagnostics := [⟨.limit, [], none, utf8 "document byte limit exceeded"⟩] } := by
  obtain ⟨kept, hall⟩ := appendAll_above limits chunks [] (Nat.zero_le _) (by rwa [length_nil, Nat.zero_add])
  unfold parseChunks
  rw [show chunks.foldl _ _ = _ from hall]
  rfl

end PtoTraceStream

variable {limits : TraceValidationLimits}

/-- A document above the byte limit is refused with the code of a limit, where there is room for a
diagnostic. -/
theorem parsePtoTrace_above (library : JsonLibrary) {input : Bytes}
    (h : limits.maxDocumentBytes < input.length) :
    (parsePtoTrace limits library input).document = none ∧
      (parsePtoTrace limits library input).diagnostics.map (·.code) =
        if 0 < limits.maxDiagnostics then [.limit] else [] := by
  have hparse : parseIJson library (jsonLimits limits) input =
      .error (.json (utf8 "ACLOWER-BINDING-JSON: input byte limit exceeded")) := by
    have hrun : IJsonPreflight.run library (jsonLimits limits) input =
        jsonError "input byte limit exceeded" := if_pos h
    unfold parseIJson
    rw [hrun]
    rfl
  have hcode : jsonErrorCode (utf8 "ACLOWER-BINDING-JSON: input byte limit exceeded") = .limit := by
    decide +kernel
  have hdocument : (parseDocument limits library input {}).1 = .error ⟨.limit, [], none,
      utf8 "ACLOWER-BINDING-JSON: input byte limit exceeded"⟩ := by
    unfold parseDocument
    rw [hparse]
    simp only [errorMessage, hcode]
    rfl
  unfold parsePtoTrace
  rw [hdocument]
  refine ⟨rfl, ?_⟩
  unfold loadResult
  split_ifs <;> rfl

/-- Two results succeed with the same document or fail with the same codes. -/
def SameOutcome (result result' : TraceLoadResult) : Prop :=
  (result.succeeded = true ∧ result'.succeeded = true ∧ result.document = result'.document) ∨
    (result.succeeded = false ∧ result'.succeeded = false ∧
      result.diagnostics.map (·.code) = result'.diagnostics.map (·.code))

/-- What a parse that succeeds returns is consistent, and no parse spends more bytes than its
limit. -/
structure ParsesConsistently (limits : TraceValidationLimits) (library : JsonLibrary)
    (input : Bytes) : Prop where
  consistent : (parsePtoTrace limits library input).succeeded = true →
    ∃ document, (parsePtoTrace limits library input).document = some document ∧
      document.Consistent limits
  decodedBytes : (parseDocument limits library input {}).2.decodedBytes ≤
    limits.maxAggregateDecodedBytes

theorem parsePtoTrace_consistent (library : JsonLibrary) (input : Bytes) :
    ParsesConsistently limits library input := by
  have hpost := @parseDocument_post limits library input
  unfold Post at hpost
  constructor
  · intro hsucceeded
    unfold parsePtoTrace at *
    rcases hx : parseDocument limits library input {} with ⟨e | document, s⟩
    · rw [hx] at hsucceeded
      simp [loadResult, TraceLoadResult.succeeded] at hsucceeded
    · rw [hx] at hpost
      exact ⟨document, rfl, hpost.1⟩
  · rcases hx : parseDocument limits library input {} with ⟨e | document, s⟩
    · rw [hx] at hpost
      exact hpost
    · rw [hx] at hpost
      exact hpost.2

/-- **Documents and chunks.**  What a parse returns is consistent on every input.  A document in
chunks comes out as the whole document does, unless it is above the byte limit and no diagnostic may
be kept: `finish` reports the limit all the same. -/
theorem parseChunks_sameOutcome_iff (library : JsonLibrary) (limits : TraceValidationLimits)
    (chunks : List Bytes) :
    ParsesConsistently limits library chunks.flatten ∧
        SameOutcome (PtoTraceStream.parseChunks limits library chunks)
          (parsePtoTrace limits library chunks.flatten) ↔
      0 < limits.maxDiagnostics ∨ chunks.flatten.length ≤ limits.maxDocumentBytes := by
  rw [and_iff_right (parsePtoTrace_consistent library chunks.flatten)]
  rcases Nat.lt_or_ge limits.maxDocumentBytes chunks.flatten.length with habove | hwithin
  · obtain ⟨hdocument, hcodes⟩ := parsePtoTrace_above library habove
    have hfailed : (parsePtoTrace limits library chunks.flatten).succeeded = false := by
      simp [TraceLoadResult.succeeded, hdocument]
    rw [PtoTraceStream.parseChunks_above library habove]
    unfold SameOutcome
    rw [hfailed, hcodes]
    split_ifs with hroom
    · exact iff_of_true (.inr ⟨rfl, rfl, rfl⟩) (.inl hroom)
    · refine iff_of_false ?_ (by omega)
      simp
  · rw [PtoTraceStream.parseChunks_within library hwithin]
    refine iff_of_true ?_ (.inr hwithin)
    cases hsucceeded : (parsePtoTrace limits library chunks.flatten).succeeded with
    | true => exact .inl ⟨hsucceeded, hsucceeded, rfl⟩
    | false => exact .inr ⟨hsucceeded, hsucceeded, rfl⟩

/-- Two bytes where one is allowed and no diagnostic is kept. -/
theorem parseChunks_reports_unkept :
    ¬ SameOutcome
      (PtoTraceStream.parseChunks { maxDocumentBytes := 1, maxDiagnostics := 0 } exactLibrary
        [utf8 "\x7b\x7d"])
      (parsePtoTrace { maxDocumentBytes := 1, maxDiagnostics := 0 } exactLibrary
        [utf8 "\x7b\x7d"].flatten) := by
  rw [PtoTraceStream.parseChunks_above _ (by decide)]
  have habove : 1 < [utf8 "\x7b\x7d"].flatten.length := by decide
  obtain ⟨hdocument, hcodes⟩ := @parsePtoTrace_above
    { maxDocumentBytes := 1, maxDiagnostics := 0 } exactLibrary _ habove
  unfold SameOutcome
  rw [hcodes]
  simp [TraceLoadResult.succeeded]

end AgenticCircuit.Trace
