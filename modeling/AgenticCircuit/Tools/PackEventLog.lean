import AgenticCircuit.Tools.CommittedEvents

/-! # Packing the event log

What the packer does with canonical bytes: the reader of a line gets back the value they were written
for (`canonicalJsonBytes_read`), a turn of the loop takes the line of one event, and the contract of
`pack_event_jsonl` on the bytes of `canonicalEvents` is `packs_iff_unbroken`. -/

namespace AgenticCircuit.Tools

open List Except
open Bindings Frontend Gfsim

/-! ### Reading back -/

/-- **Canonical bytes are read back.**  From the bytes that the encoder writes for a value without
floats the reader of a line gets the value, its items in canonical order; a value with the same bytes
is the same up to that order. -/
theorem canonicalJsonBytes_read (repr : ℚ → Bytes) (parseFloat : PythonString → Double)
    {value : PythonValue} (h : Portable value) (hfloat : hasFloat value = false) :
    ∃ bytes text, canonicalJsonBytes repr value = .ok bytes ∧ decodeUtf8 bytes = .ok text ∧
      (∀ depth ≥ nesting (sortKeys value), ∀ line,
        loadLine parseFloat depth line text = .ok (sortKeys value)) ∧
      ∀ value', Portable value' → hasFloat value' = false →
        canonicalJsonBytes repr value' = .ok bytes → sortKeys value' = sortKeys value := by
  have hkeeps (line : ℕ) : KeepsPairs (lineHooks line) := fun pairs hpairs => rejectDuplicates_nodup hpairs
  have hloads {value : PythonValue} (h : Portable value) (hfloat : hasFloat value = false) {depth : ℕ}
      (hdepth : nesting (sortKeys value) ≤ depth) (line : ℕ) : loads parseFloat (lineHooks line) depth
        (compactText (sortKeys value)) = .ok (sortKeys value) :=
    loads_compact (hkeeps line) h.sortKeys (hasFloat_sortKeys hfloat) hdepth
  have hdecodes {value : PythonValue} (h : Portable value) :
      decodeUtf8 (bytesOf (compactText (sortKeys value))) = .ok (compactText (sortKeys value)) :=
    decodeUtf8_scalar h.sortKeys.scalar_compactText
  refine ⟨_, _, canonicalJsonBytes_compact h hfloat, hdecodes h, fun depth hdepth line => ?_,
    fun value' h' hfloat' hbytes => ?_⟩
  · rw [loadLine, hloads h hfloat hdepth]
  · rw [canonicalJsonBytes_compact h' hfloat'] at hbytes
    have htext : compactText (sortKeys value') = compactText (sortKeys value) := by
      have hboth := hdecodes h'
      rw [ok.inj hbytes, hdecodes h] at hboth
      exact (ok.inj hboth).symm
    have hread := hloads h' hfloat' (le_max_left _ (nesting (sortKeys value))) 0
    rw [htext, hloads h hfloat (le_max_right _ _)] at hread
    exact (ok.inj hread).symm

/-- The encoder writes `{"a":true,"b":[1]}`. -/
theorem canonicalJsonBytes_read_dict :
    ∃ bytes text, canonicalJsonBytes (fun _ => [])
        (.dict [(ascii (utf8 "b"), .list [.int 1]), (ascii (utf8 "a"), .bool true)]) = .ok bytes ∧
      decodeUtf8 bytes = .ok text ∧ loadLine (fun _ => .nan) 2 1 text =
        .ok (.dict [(ascii (utf8 "a"), .bool true), (ascii (utf8 "b"), .list [.int 1])]) := by
  have hportable : Portable
      (.dict [(ascii (utf8 "b"), .list [.int 1]), (ascii (utf8 "a"), .bool true)]) := by
    simp only [Portable, PortableItems, PortableEntries]
    exact ⟨by decide, scalar_ascii _, ⟨by decide, trivial⟩, scalar_ascii _, trivial, trivial⟩
  obtain ⟨bytes, text, hbytes, htext, hread, -⟩ :=
    canonicalJsonBytes_read (fun _ => []) (fun _ => .nan) hportable rfl
  exact ⟨bytes, text, hbytes, htext, hread 2 (by decide) 1⟩

/-! ### The loop -/

section pack

variable {parseFloat : PythonString → Double} {depth : ℕ}
variable {event : CommittedEvent} {limits : PerfettoTraceLimits} {log : List CommittedEvent}
  {state state' : PackState}

variable {value : Items} {line : ℕ}

theorem loadLine_event (h : event.WellFormed)
    (hportable : PortableEvent event) (hdepth : 2 ≤ depth) (line : ℕ) :
    loadLine parseFloat depth line (lineText event) = .ok (.dict (sortedFields event)) := by
  have hkeeps : KeepsPairs (lineHooks line) := fun pairs hpairs => rejectDuplicates_nodup hpairs
  have hloads : loads parseFloat (lineHooks line) depth (compactText (sortKeys (eventValue event))) =
      .ok (sortKeys (eventValue event)) :=
    loads_compact hkeeps (portable_event h hportable).sortKeys
      (hasFloat_sortKeys (hasFloat_event event)) ((nesting_event event).trans hdepth)
  unfold loadLine lineText
  rw [hloads, sortKeys_event]

theorem lineText_head (event : CommittedEvent) :
    ∃ rest, lineText event = ⟨'\x7b'.toNat, by decide⟩ :: rest := by
  rw [lineText, sortKeys_event, compactText]
  exact ⟨_, rfl⟩

/-- A turn of the loop on the line of an event. -/
theorem packLine_event (h : event.WellFormed) (hportable : PortableEvent event)
    (hdelta : event.epoch.delta < kMaxDeltasPerTick) (hdepth : 2 ≤ depth)
    (hbytes : (bytesOf (lineText event)).length ≤ limits.max_line_bytes)
    (hcount : state.events.length < limits.max_event_count)
    (hprevious : ∀ previous ∈ state.previous, previous.before (traceKey event) = true) (line : ℕ) :
    packLine parseFloat depth limits state line (lineText event) =
      .ok { state with
        events := state.events ++ [.dict (sortedFields event)]
        previous := some (traceKey event)
        timelineStarted := true } := by
  have hblank : (lineText event).all isSpace = false := by
    obtain ⟨rest, hhead⟩ := lineText_head event
    rw [hhead, all_cons]
    rfl
  have hphase : getItem (sortedFields event) "ph" =
      some (.str (codePoints (tracePhaseName event.phase))) :=
    getItem_eq (sortedFields_keys event) ((perm_sortedFields event).mem_iff.2 (by simp [eventFields]))
  have hmetadata : equalsText ((getItem (sortedFields event) "ph").getD .none) "M" = false := by
    rw [hphase, Option.getD_some, equalsText_codePoints]
    cases event.phase <;> decide
  have hordered : (state.previous.any fun previous => !previous.before (traceKey event)) = false := by
    cases hcase : state.previous with
    | none => rfl
    | some previous =>
      rw [Option.any_some, hprevious previous hcase]
      rfl
  unfold packLine
  rw [if_neg (by rw [hblank]; decide), if_neg (by omega), if_neg (by omega),
    loadLine_event h hportable hdepth]
  simp only [bind, Except.bind, hmetadata]
  rw [if_neg (by decide), packEvent, checkCommittedEvent_sorted h hportable hdelta]
  simp only [bind, Except.bind, hordered]
  rfl

theorem packMetadata_length (h : packMetadata state value line = .ok state') :
    state'.events.length = state.events.length + 1 := by
  unfold packMetadata at h
  split at h
  · cases h
  · cases hmetadata : checkMetadata value line with
    | error error =>
      rw [hmetadata] at h
      cases h
    | ok kind =>
      rw [hmetadata] at h
      cases kind with
      | processName | threadName thread =>
        simp only [bind, Except.bind] at h
        split at h
        · cases h
        · rw [← ok.inj h, length_append]
          rfl

theorem packEvent_length (h : packEvent state value line = .ok state') :
    state'.events.length = state.events.length + 1 := by
  unfold packEvent at h
  cases hevent : checkCommittedEvent value line with
  | error error =>
    rw [hevent] at h
    cases h
  | ok key =>
    rw [hevent] at h
    simp only [bind, Except.bind] at h
    split_ifs at h
    · cases h
    · rw [← ok.inj h, length_append]
      rfl

/-- A turn of the loop adds one record. -/
theorem packLine_length {text : PythonString}
    (h : packLine parseFloat depth limits state line text = .ok state') :
    state'.events.length = state.events.length + 1 := by
  unfold packLine at h
  split_ifs at h with hblank hbytes hcount
  · cases h
  · cases h
  · cases h
  · cases hload : loadLine parseFloat depth line text with
    | error error =>
      rw [hload] at h
      cases h
    | ok value =>
      rw [hload] at h
      simp only [bind, Except.bind] at h
      cases value with
      | dict value =>
        simp only [] at h
        split_ifs at h
        · exact packMetadata_length h
        · exact packEvent_length h
      | _ => cases h

theorem packLines_length {texts : List PythonString}
    (h : packLines parseFloat depth limits state line texts = .ok state') :
    state'.events.length = state.events.length + texts.length := by
  induction texts generalizing state line with
  | nil =>
    rw [← ok.inj h]
    rfl
  | cons text texts ih =>
    rw [packLines] at h
    cases hline : packLine parseFloat depth limits state line text with
    | error error =>
      rw [hline] at h
      cases h
    | ok middle =>
      rw [hline] at h
      have hrest := ih h
      rw [hrest, packLine_length hline, length_cons]
      omega

/-! ### The log -/

variable {library : JsonLibrary}

/-- What the writer says of a log. -/
structure Written (library : JsonLibrary) (previous : Option CommittedEvent)
    (log : List CommittedEvent) (bytes : Bytes) : Prop where
  text : bytes = bytesOf ((log.map lineText).flatMap fun text => text ++ [lineFeed])
  delta : ∀ event ∈ log, event.epoch.delta < kMaxDeltasPerTick
  line : ∀ event ∈ log, eventLine library event = .ok (bytesOf (lineText event))
  arguments : ∀ event ∈ log, addArguments (runtimeArguments event) event.arguments =
    .ok (runtimeArguments event ++ event.arguments.map argumentMember)
  ordered : (previous.toList ++ log).IsChain fun event later => event.lessEvent later = true

section

variable (hreads : library.ReadsNearest) (hprints : library.PrintsShortest)

include hreads hprints

theorem eventLine_ok (h : event.WellFormed) (hportable : PortableEvent event) {line : Bytes}
    (hline : eventLine library event = .ok line) :
    addArguments (runtimeArguments event) event.arguments =
      .ok (runtimeArguments event ++ event.arguments.map argumentMember) ∧
    line = bytesOf (lineText event) := by
  unfold eventLine at hline
  cases harguments : addArguments (runtimeArguments event) event.arguments with
  | error error =>
    rw [harguments] at hline
    cases hline
  | ok arguments =>
    have hmembers := addArguments_ok harguments
    subst hmembers
    refine ⟨rfl, ?_⟩
    rw [harguments] at hline
    simp only [bind, Except.bind] at hline
    split at hline
    · cases hline
    · rename_i written hwritten
      have hshares : hasFloat (eventValue event) = true → SharesDigits library fun _ => [] := by
        rw [hasFloat_event]
        exact nofun
      obtain ⟨bytes, hbytes, hagrees⟩ := canonicalJsonBytes_agrees hreads hprints
        (represents_event event) (portable_event h hportable) hshares
      rw [canonicalJsonBytes_compact (portable_event h hportable) (hasFloat_event event)] at hbytes
      rw [← ok.inj hline, (hagrees {}).2 written hwritten]
      exact (ok.inj hbytes).symm

/-- An event within the limits of the writer has a line. -/
theorem eventLine_fits (h : event.WellFormed) (hportable : PortableEvent event)
    (harguments : addArguments (runtimeArguments event) event.arguments =
      .ok (runtimeArguments event ++ event.arguments.map argumentMember))
    (hfits :
      (encodedEvent event (runtimeArguments event ++ event.arguments.map argumentMember)).Fits {})
    (hlength : (bytesOf (lineText event)).length ≤ 2 ^ 20) :
    eventLine library event = .ok (bytesOf (lineText event)) := by
  have hshares : hasFloat (eventValue event) = true → SharesDigits library fun _ => [] := by
    rw [hasFloat_event]
    exact nofun
  obtain ⟨bytes, hbytes, hagrees⟩ := canonicalJsonBytes_agrees hreads hprints
    (represents_event event) (portable_event h hportable) hshares
  rw [canonicalJsonBytes_compact (portable_event h hportable) (hasFloat_event event)] at hbytes
  obtain rfl := ok.inj hbytes
  have hline := (hagrees {}).1 hfits hlength
  unfold eventLine
  rw [harguments]
  simp only [bind, Except.bind, hline]
  rfl

theorem canonicalEventsAfter_ok (hwell : ∀ event ∈ log, event.WellFormed)
    (hportable : ∀ event ∈ log, PortableEvent event) {previous : Option CommittedEvent}
    {bytes : Bytes} (h : canonicalEventsAfter library previous log = .ok bytes) :
    Written library previous log bytes := by
  induction log generalizing previous bytes with
  | nil =>
    rw [canonicalEventsAfter] at h
    refine ⟨(ok.inj h).symm, nofun, nofun, nofun, ?_⟩
    cases previous <;> simp
  | cons event log ih =>
    rw [forall_mem_cons] at hwell hportable
    rw [canonicalEventsAfter] at h
    split at h
    · cases h
    split at h
    · cases h
    rename_i horder htime
    cases hline : eventLine library event with
    | error error =>
      rw [hline] at h
      cases h
    | ok line =>
      obtain ⟨harguments, rfl⟩ := eventLine_ok hreads hprints hwell.1 hportable.1 hline
      cases hrest : canonicalEventsAfter library (some event) log with
      | error error =>
        rw [hline, hrest] at h
        cases h
      | ok rest =>
        obtain ⟨htext, hdelta, hlines, hmembers, hordered⟩ :=
          ih hwell.2 hportable.2 hrest
        rw [hline, hrest] at h
        simp only [Bool.or_eq_true, decide_eq_true_eq, not_or, not_le] at horder
        refine ⟨?_, forall_mem_cons.2 ⟨horder.1.2, hdelta⟩, forall_mem_cons.2 ⟨hline, hlines⟩,
          forall_mem_cons.2 ⟨harguments, hmembers⟩, ?_⟩
        · rw [← ok.inj h, htext, map_cons, flatMap_cons, bytesOf_append,
            bytesOf_append, List.append_assoc]
          rfl
        · cases previous with
          | none => exact hordered
          | some last =>
            refine List.IsChain.cons_cons ?_ hordered
            simpa using horder.2

end

variable (parseFloat) in
/-- The loop on the lines of a log. -/
theorem packLines_log
    (hwell : ∀ event ∈ log, event.WellFormed) (hportable : ∀ event ∈ log, PortableEvent event)
    (hdelta : ∀ event ∈ log, event.epoch.delta < kMaxDeltasPerTick)
    {previous : Option CommittedEvent}
    (hordered : (previous.toList ++ log).IsChain fun event later => event.lessEvent later = true)
    (hdepth : 2 ≤ depth)
    (hlines : ∀ event ∈ log, (bytesOf (lineText event)).length ≤ limits.max_line_bytes)
    (state : PackState) (hcount : state.events.length + log.length ≤ limits.max_event_count)
    (hprevious : state.previous = previous.map traceKey) (line : ℕ) :
    ∃ state', packLines parseFloat depth limits state line (log.map lineText) = .ok state' ∧
      state'.events = state.events ++ log.map fun event => .dict (sortedFields event) := by
  induction log generalizing previous state line with
  | nil => exact ⟨state, rfl, by simp⟩
  | cons event log ih =>
    rw [forall_mem_cons] at hwell hportable hdelta hlines
    rw [length_cons] at hcount
    have hlater : ((some event).toList ++ log).IsChain fun event later =>
        event.lessEvent later = true := by
      cases previous with
      | none => exact hordered
      | some previous => exact (isChain_cons_cons.1 hordered).2
    have hkey : ∀ last ∈ state.previous, last.before (traceKey event) = true := by
      intro last hlast
      cases previous with
      | none =>
        rw [hprevious] at hlast
        cases hlast
      | some previous =>
        rw [hprevious] at hlast
        obtain rfl := Option.some.inj hlast
        rw [before_traceKey]
        exact (isChain_cons_cons.1 hordered).1
    have hline : packLine parseFloat depth limits state line (lineText event) = .ok _ :=
      packLine_event hwell.1 hportable.1 hdelta.1 hdepth hlines.1 (by omega) hkey line
    obtain ⟨state', hpacked, hevents⟩ := ih hwell.2 hportable.2 hdelta.2 hlater hlines.2
      ({ state with
        events := state.events ++ [.dict (sortedFields event)]
        previous := some (traceKey event)
        timelineStarted := true })
      (by simp only [length_append, length_singleton]; omega) rfl (line + 1)
    refine ⟨state', ?_, ?_⟩
    · rw [map_cons, packLines, hline]
      exact hpacked
    · rw [hevents, List.append_assoc, map_cons]
      rfl

/-! ### The bytes of a log -/

/-- The value stands for the object that the writer made of the event. -/
def StandsFor (event : CommittedEvent) (value : PythonValue) : Prop :=
  ∃ arguments, addArguments (runtimeArguments event) event.arguments = .ok arguments ∧
    Represents value (encodedEvent event arguments)

/-- The bytes of a log are within the limits of the packer. -/
structure WithinLimits (library : JsonLibrary) (limits : PerfettoTraceLimits)
    (log : List CommittedEvent) (bytes : Bytes) : Prop where
  document : bytes.length ≤ limits.max_document_bytes
  nonnegative : 0 ≤ limits.max_line_bytes
  lines : ∀ event ∈ log, ∀ line, eventLine library event = .ok line →
    line.length ≤ limits.max_line_bytes
  count : log.length ≤ limits.max_event_count

variable {repr : ℚ → Bytes}

variable (parseFloat depth repr) in
/-- The packer accepts the bytes, and its trace holds the events of the log in their order. -/
def PacksLog (limits : PerfettoTraceLimits) (log : List CommittedEvent) (bytes : Bytes) : Prop :=
  ∃ events trace, packedEvents parseFloat depth limits bytes = .ok events ∧
    List.Forall₂ StandsFor log events ∧
    canonicalJsonBytes repr (.dict [(codePoints "traceEvents", .list events)]) = .ok trace ∧
    packEventJsonl parseFloat depth repr limits bytes = .ok (trace ++ utf8 "\n")

theorem checkLimits_ok (hdocument : 0 ≤ limits.max_document_bytes)
    (hline : 0 ≤ limits.max_line_bytes) (hcount : 0 ≤ limits.max_event_count) :
    checkLimits limits = .ok () := by
  unfold checkLimits checkLimit
  rw [if_neg (by omega), if_neg (by omega), if_neg (by omega)]
  rfl

theorem scalar_lines (hwell : ∀ event ∈ log, event.WellFormed)
    (hportable : ∀ event ∈ log, PortableEvent event) :
    Scalar ((log.map lineText).flatMap fun text => text ++ [lineFeed]) := by
  intro c hc
  obtain ⟨text, htext, hmem⟩ := mem_flatMap.1 hc
  obtain ⟨event, hevent, rfl⟩ := mem_map.1 htext
  rcases mem_append.1 hmem with hmem | hmem
  · exact (portable_event (hwell event hevent) (hportable event hevent)).sortKeys.scalar_compactText
      c hmem
  · rw [mem_singleton.1 hmem]
    rfl

theorem canonicalJsonBytes_trace (repr : ℚ → Bytes) (events : List PythonValue)
    (h : ∀ event ∈ events, Portable event) (hfloat : ∀ event ∈ events, hasFloat event = false) :
    ∃ trace, canonicalJsonBytes repr (.dict [(codePoints "traceEvents", .list events)]) =
      .ok trace := by
  refine ⟨_, canonicalJsonBytes_compact ?_ ?_⟩
  · simp only [Portable]
    exact ⟨nodup_singleton _, scalar_codePoints _, portableItems_iff.2 h, trivial⟩
  · simp only [hasFloat, hasFloatEntries, Bool.or_false]
    exact hasFloatItems_iff.2 hfloat

section

variable (hwell : ∀ event ∈ log, event.WellFormed) (hportable : ∀ event ∈ log, PortableEvent event)

include hwell hportable

theorem packsLog_of_unbroken {bytes : Bytes} (h : Written library none log bytes)
    (hlimits : WithinLimits library limits log bytes) (hdepth : 2 ≤ depth)
    (hunbroken : ∀ event ∈ log, Unbroken event) :
    PacksLog parseFloat depth repr limits log bytes := by
  have hdocument := hlimits.document
  have hcount := hlimits.count
  have hlines : ∀ event ∈ log, (bytesOf (lineText event)).length ≤ limits.max_line_bytes :=
    fun event hevent => hlimits.lines event hevent _ (h.line event hevent)
  obtain ⟨state, hstate, hevents⟩ := packLines_log parseFloat hwell hportable h.delta
    h.ordered hdepth hlines {} (by simpa using hcount) rfl 1
  have hsplit : splitLines ((log.map lineText).flatMap fun text => text ++ [lineFeed]) =
      log.map lineText := by
    refine splitLines_lines fun text htext => ?_
    obtain ⟨event, hevent, rfl⟩ := mem_map.1 htext
    exact (lineText_unbroken (hwell event hevent)).2 (hunbroken event hevent)
  have hpacked : packedEvents parseFloat depth limits bytes =
      .ok (log.map fun event => .dict (sortedFields event)) := by
    unfold packedEvents
    rw [checkLimits_ok (by omega) hlimits.nonnegative (by omega)]
    simp only [bind, Except.bind]
    rw [if_neg (by omega), h.text, decodeUtf8_scalar (scalar_lines hwell hportable)]
    simp only [hsplit, hstate, hevents]
    rfl
  have hvalue (event : CommittedEvent) :
      PythonValue.dict (sortedFields event) = sortKeys (eventValue event) :=
    (sortKeys_event event).symm
  obtain ⟨trace, htrace⟩ := canonicalJsonBytes_trace repr (log.map fun event => .dict (sortedFields event))
    (fun value hvalue' => by
      obtain ⟨event, hevent, rfl⟩ := mem_map.1 hvalue'
      rw [hvalue]
      exact (portable_event (hwell event hevent) (hportable event hevent)).sortKeys)
    (fun value hvalue' => by
      obtain ⟨event, -, rfl⟩ := mem_map.1 hvalue'
      rw [hvalue]
      exact hasFloat_sortKeys (hasFloat_event event))
  refine ⟨_, trace, hpacked, ?_, htrace, ?_⟩
  · rw [forall₂_map_right_iff, forall₂_same]
    intro event hevent
    refine ⟨_, h.arguments event hevent, ?_⟩
    rw [hvalue]
    exact (represents_event event).sortKeys
  · rw [packEventJsonl, hpacked]
    simp only [bind, Except.bind]
    rw [canonicalBytes, htrace]
    rfl

/-- A line break in a text argument gives the packer more lines than events. -/
theorem unbroken_of_packsLog {bytes : Bytes} (h : Written library none log bytes)
    (hpacks : PacksLog parseFloat depth repr limits log bytes) : ∀ event ∈ log, Unbroken event := by
  obtain ⟨events, -, hpacked, hall, -, -⟩ := hpacks
  intro event hevent
  rw [← lineText_unbroken (hwell event hevent)]
  intro c hc
  by_contra hbreak
  rw [Bool.not_eq_false] at hbreak
  have hreturn : ∀ text ∈ log.map lineText, ∀ c ∈ text, c.val ≠ 0x0d := by
    intro text htext c hc
    obtain ⟨event, -, rfl⟩ := mem_map.1 htext
    have := lineText_visible event c hc
    omega
  have hmore := length_splitLines hreturn (mem_map_of_mem hevent) hc hbreak
  have hlength := hall.length_eq
  unfold packedEvents at hpacked
  cases hchecked : checkLimits limits with
  | error error =>
    rw [hchecked] at hpacked
    cases hpacked
  | ok =>
    rw [hchecked] at hpacked
    simp only [bind, Except.bind] at hpacked
    split at hpacked
    · cases hpacked
    · rw [h.text, decodeUtf8_scalar (scalar_lines hwell hportable)] at hpacked
      simp only [] at hpacked
      split at hpacked
      · cases hpacked
      · rename_i state hstate
        have hcount := packLines_length hstate
        rw [← ok.inj hpacked] at hlength
        rw [length_map] at hmore
        omega

end

/-- **The packer reads the event log back.**  For every log that the recorder publishes in a run,
with portable integers and within the limits of the packer, the packer accepts the bytes of the
writer and its trace holds the events of the log in their order exactly if no text argument has a
NEL, a LINE SEPARATOR or a PARAGRAPH SEPARATOR: `splitlines` cuts a line there, and the canonical
writer leaves them in place. -/
theorem packs_iff_unbroken (hreads : library.ReadsNearest) (hprints : library.PrintsShortest)
    {recorder : ObservationRecorder} (hrecorded : recorder.Recorded)
    (hportable : ∀ event ∈ recorder.committed, PortableEvent event) {bytes : Bytes}
    (hbytes : canonicalEvents library recorder.committed = .ok bytes)
    (hlimits : WithinLimits library limits recorder.committed bytes)
    (hdepth : 2 ≤ depth) :
    PacksLog parseFloat depth repr limits recorder.committed bytes ↔
      ∀ event ∈ recorder.committed, Unbroken event := by
  have hwritten := canonicalEventsAfter_ok hreads hprints hrecorded.wellFormed hportable hbytes
  exact ⟨unbroken_of_packsLog hrecorded.wellFormed hportable hwritten,
    packsLog_of_unbroken hrecorded.wellFormed hportable hwritten hlimits hdepth⟩

end pack

/-! ### A log of one event -/

/-- An event with one text argument. -/
def notedEvent (text : String) : CommittedEvent where
  epoch := ⟨2, 1⟩
  ownerId := 7
  localCommittedIndex := 0
  category := "noc"
  name := "hop"
  phase := .instant
  rootSequenceId := none
  duration := none
  flowId := none
  arguments := [⟨"note", .text text⟩]

/-- A recorder that has published it. -/
def notedRecorder (text : String) : ObservationRecorder :=
  ((({} : ObservationRecorder).propose
    { ownerId := 7, category := "noc", name := "hop", arguments := [⟨"note", .text text⟩] }).1.commitOwner
      7 ⟨2, 1⟩).1

variable {text : String}

theorem notedRecorder_recorded (text : String) : (notedRecorder text).Recorded :=
  .commitOwner _ _ (.propose _ .fresh)

theorem notedRecorder_committed (text : String) :
    (notedRecorder text).committed = [notedEvent text] := by
  have hcategory : validName "noc" = true := by decide +kernel
  have hname : validName "hop" = true := by decide +kernel
  have hargument : validName "note" = true := by decide +kernel
  have hprefix : "note".startsWith "gfsim_" = false := by decide +kernel
  simp [notedRecorder, notedEvent, ObservationRecorder.propose, ObservationRecorder.argumentsOk,
    ObservationRecorder.isFlow, ObservationRecorder.commitOwner, ObservationRecorder.stepFlows,
    ObservationRecorder.stamp, ObservationRecorder.insertLower, kInvalidObjectId, uint64Max,
    hcategory, hname, hargument]

theorem notedEvent_portable (text : String) : PortableEvent (notedEvent text) := by
  constructor <;> simp [notedEvent, PortableArgument, kMaxDeltasPerTick]

theorem notedEvent_wellFormed (text : String) : (notedEvent text).WellFormed := by
  have h := (notedRecorder_recorded text).wellFormed
  rw [notedRecorder_committed] at h
  exact h _ (mem_singleton_self _)

/-- The object of the event. -/
def notedObject (text : String) : JsonValue :=
  encodedEvent (notedEvent text) (runtimeArguments (notedEvent text) ++
    (notedEvent text).arguments.map argumentMember)

theorem notedObject_members (text : String) : notedObject text = .object
    [(utf8 "name", .string (utf8 "hop")), (utf8 "cat", .string (utf8 "noc")),
      (utf8 "ph", .string (utf8 "i")), (utf8 "ts", .unsigned 2049), (utf8 "pid", .integer 0),
      (utf8 "tid", .integer 7),
      (utf8 "args", .object
        [(utf8 "gfsim_epoch_time", .unsigned 2), (utf8 "gfsim_epoch_delta", .unsigned 1),
          (utf8 "gfsim_object_id", .integer 7), (utf8 "gfsim_local_committed_index", .unsigned 0),
          (utf8 "note", .string (utf8 text))]),
      (utf8 "s", .string (utf8 "t"))] := by
  simp [notedObject, encodedEvent, notedEvent, runtimeArguments, optionalMember, argumentMember,
    observationValue, tracePhaseName, kMaxDeltasPerTick]

theorem notedObject_fits (h : (utf8 text).length ≤ 2 ^ 16) : (notedObject text).Fits {} := by
  have hnames : ∀ name ∈ ["name", "cat", "ph", "ts", "pid", "tid", "args", "s", "gfsim_epoch_time",
      "gfsim_epoch_delta", "gfsim_object_id", "gfsim_local_committed_index", "note", "hop", "noc", "i",
      "t"], (utf8 name).length ≤ 27 := by
    decide +kernel
  simp only [forall_mem_cons] at hnames
  have hchildren : ∀ child ∈ (notedObject text).children, JsonValue.OwnFits {} child ∧
      ∀ child' ∈ child.children, JsonValue.OwnFits {} child' ∧ child'.children = [] := by
    rw [notedObject_members]
    simp only [JsonValue.children, map_cons, forall_mem_cons, JsonValue.OwnFits, length_cons,
      length_nil]
    have hnil {p : JsonValue → Prop} : ∀ child ∈ ([] : List JsonValue), p child := forall_mem_nil _
    refine ⟨⟨?_, hnil⟩, ⟨?_, hnil⟩, ⟨?_, hnil⟩, ⟨trivial, hnil⟩, ⟨trivial, hnil⟩, ⟨trivial, hnil⟩,
      ⟨⟨by omega, by omega, by omega, by omega, by omega, by omega, forall_mem_nil _⟩,
        ⟨trivial, trivial⟩, ⟨trivial, trivial⟩, ⟨trivial, trivial⟩, ⟨trivial, trivial⟩,
        ⟨by omega, trivial⟩, hnil⟩,
      ⟨?_, hnil⟩, hnil⟩
    all_goals omega
  have hleaf : ∀ child ∈ (notedObject text).children, ∀ child' ∈ child.children,
      ∀ child'' ∈ child'.children, False := fun child hchild child' hchild' child'' hchild'' => by
    rw [((hchildren child hchild).2 child' hchild').2] at hchild''
    cases hchild''
  refine ⟨.intro fun child hchild => .intro fun child' hchild' => .intro fun child'' hchild'' =>
    (hleaf child hchild child' hchild' child'' hchild'').elim, ?_, ?_,
    .intro ?_ fun child hchild => .intro (hchildren child hchild).1 fun child' hchild' =>
      .intro ((hchildren child hchild).2 child' hchild').1 fun child'' hchild'' =>
        (hleaf child hchild child' hchild' child'' hchild'').elim⟩
  · rw [notedObject_members]
    simp [JsonValue.values, JsonValue.memberValues]
  · rw [notedObject_members]
    simp only [JsonValue.total, JsonValue.totalMembers, JsonValue.ownStringBytes, map_cons,
      map_nil, sum_cons, sum_nil]
    omega
  · rw [notedObject_members]
    simp only [JsonValue.OwnFits, length_cons, length_nil, forall_mem_cons]
    refine ⟨by omega, by omega, by omega, by omega, by omega, by omega, by omega, by omega, by omega,
      forall_mem_nil _⟩

theorem notedEvent_line (h : (utf8 text).length ≤ 2 ^ 16)
    (hlength : (bytesOf (lineText (notedEvent text))).length ≤ 2 ^ 20) :
    eventLine printingLibrary (notedEvent text) = .ok (bytesOf (lineText (notedEvent text))) := by
  refine eventLine_fits printingLibrary_reads printingLibrary_prints (notedEvent_wellFormed text)
    (notedEvent_portable text) ?_ (notedObject_fits h) hlength
  have hprefix : "note".startsWith "gfsim_" = false := by decide +kernel
  have hnew : ((runtimeArguments (notedEvent text)).any fun member => member.1 == utf8 "note") =
      false := by
    rw [any_eq_false]
    intro member hmember
    have hnames : ∀ name ∈ committedArguments, ¬ (utf8 name == utf8 "note") = true := by
      decide +kernel
    simp only [committedArguments, forall_mem_cons] at hnames
    change member ∈ [_, _, _, _] at hmember
    simp only [mem_cons, not_mem_nil, or_false] at hmember
    rcases hmember with rfl | rfl | rfl | rfl
    · exact hnames.1
    · exact hnames.2.1
    · exact hnames.2.2.1
    · exact hnames.2.2.2.1
  change addArguments _ [⟨"note", .text text⟩] = _
  rw [addArguments, hprefix, hnew]
  rfl

/-- The bytes of the log. -/
def notedBytes (text : String) : Bytes := bytesOf (lineText (notedEvent text) ++ [lineFeed])

theorem notedRecorder_bytes (h : (utf8 text).length ≤ 2 ^ 16)
    (hlength : (notedBytes text).length ≤ 2 ^ 20) :
    canonicalEvents printingLibrary (notedRecorder text).committed = .ok (notedBytes text) := by
  have hline : (bytesOf (lineText (notedEvent text))).length ≤ 2 ^ 20 := by
    rw [notedBytes, bytesOf_append, length_append] at hlength
    omega
  have htime : ¬ (uint64Max - (notedEvent text).epoch.delta) / kMaxDeltasPerTick <
      (notedEvent text).epoch.time := by
    change ¬ (uint64Max - 1) / kMaxDeltasPerTick < 2
    decide
  rw [notedRecorder_committed, canonicalEvents, canonicalEventsAfter,
    if_neg (by simp [notedEvent, kInvalidObjectId, kMaxDeltasPerTick]), if_neg htime,
    notedEvent_line h hline, canonicalEventsAfter, notedBytes, bytesOf_append]
  have hfeed : bytesOf [lineFeed] = ['\n'.toUInt8] := by decide
  simp only [bind]
  rfl

theorem notedRecorder_within (h : (utf8 text).length ≤ 2 ^ 16)
    (hlength : (notedBytes text).length ≤ 2 ^ 20) :
    WithinLimits printingLibrary {} (notedRecorder text).committed (notedBytes text) := by
  have hline : (bytesOf (lineText (notedEvent text))).length ≤ 2 ^ 20 := by
    rw [notedBytes, bytesOf_append, length_append] at hlength
    omega
  rw [notedRecorder_committed]
  refine ⟨?_, by decide, ?_, ?_⟩
  · change ((notedBytes text).length : ℤ) ≤ 2 ^ 26
    omega
  · intro event hevent line hwritten
    rw [mem_singleton.1 hevent, notedEvent_line h hline] at hwritten
    obtain rfl := ok.inj hwritten
    change ((bytesOf (lineText (notedEvent text))).length : ℤ) ≤ 2 ^ 20
    omega
  · rw [length_singleton]
    decide

theorem notedRecorder_portable (text : String) :
    ∀ event ∈ (notedRecorder text).committed, PortableEvent event := by
  rw [notedRecorder_committed]
  exact forall_mem_singleton.2 (notedEvent_portable text)

theorem packs_iff_unbroken_ok :
    PacksLog (fun _ => .finite 0) 1000 (fun _ => []) {} (notedRecorder "ok").committed
        (notedBytes "ok") ↔
      ∀ event ∈ (notedRecorder "ok").committed, Unbroken event :=
  packs_iff_unbroken printingLibrary_reads printingLibrary_prints (notedRecorder_recorded "ok")
    (notedRecorder_portable "ok")
    (notedRecorder_bytes (by decide +kernel) (by decide +kernel))
    (notedRecorder_within (by decide +kernel) (by decide +kernel)) (by decide)

/-- A log whose bytes the packer does not take: a note with a LINE SEPARATOR. -/
theorem separator_not_packed :
    (notedRecorder "a\u2028b").Recorded ∧
    (∀ event ∈ (notedRecorder "a\u2028b").committed, PortableEvent event) ∧
    canonicalEvents printingLibrary (notedRecorder "a\u2028b").committed =
      .ok (notedBytes "a\u2028b") ∧
    WithinLimits printingLibrary {} (notedRecorder "a\u2028b").committed (notedBytes "a\u2028b") ∧
    ¬ PacksLog (fun _ => .finite 0) 1000 (fun _ => []) {} (notedRecorder "a\u2028b").committed
      (notedBytes "a\u2028b") := by
  have hbytes : canonicalEvents printingLibrary (notedRecorder "a\u2028b").committed =
      .ok (notedBytes "a\u2028b") :=
    notedRecorder_bytes (by decide +kernel) (by decide +kernel)
  have hwell := (notedRecorder_recorded "a\u2028b").wellFormed
  refine ⟨notedRecorder_recorded _, notedRecorder_portable _, hbytes,
    notedRecorder_within (by decide +kernel) (by decide +kernel), fun hpacks => ?_⟩
  have hwritten := canonicalEventsAfter_ok printingLibrary_reads printingLibrary_prints hwell
    (notedRecorder_portable _) hbytes
  have hunbroken := unbroken_of_packsLog hwell (notedRecorder_portable _) hwritten hpacks
  rw [notedRecorder_committed] at hunbroken
  have hnote := hunbroken _ (mem_singleton_self _) ⟨"note", .text "a\u2028b"⟩
    (mem_singleton_self _) _ rfl
  exact hnote.2.1 (by decide)

end AgenticCircuit.Tools
