import AgenticCircuit.Tools.EventText

/-! # Committed events

The checks of the packer on one record.  What is read back of the line of an event is its value
with the items in canonical order; a portable event passes `_committed_event` with its own key. -/

namespace AgenticCircuit.Tools

open List Prod
open Bindings Frontend Gfsim

variable {event : CommittedEvent} {items : Items} {key : String} {value : PythonValue} {line n : ℕ}

/-! ### Reading items -/

theorem getItem_eq (hnodup : (items.map fst).Nodup) (h : (codePoints key, value) ∈ items) :
    getItem items key = some value := by
  induction items with
  | nil => cases h
  | cons first items ih =>
    rw [map_cons, nodup_cons] at hnodup
    rcases mem_cons.1 h with rfl | h
    · simp [getItem]
    · have hne : first.1 ≠ codePoints key := fun heq =>
        hnodup.1 (heq ▸ mem_map_of_mem h)
      have hrest := ih hnodup.2 h
      unfold getItem at hrest ⊢
      rwa [find?_cons_of_neg (by simpa using hne)]

theorem getItem_none (h : codePoints key ∉ items.map fst) : getItem items key = none := by
  rw [getItem, find?_eq_none.2, Option.map_none]
  intro item hitem heq
  have hkey : item.1 = codePoints key := by simpa using heq
  exact h (hkey ▸ mem_map_of_mem hitem)

theorem item_eq (hnodup : (items.map fst).Nodup) (h : (codePoints key, value) ∈ items) :
    item items key = value := by
  rw [item, getItem_eq hnodup h, Option.getD_some]

/-- The hook takes pairs with distinct keys as they come. -/
theorem rejectDuplicates_nodup {result pairs : Items} (h : ((result ++ pairs).map fst).Nodup) :
    rejectDuplicates line result pairs = .ok (.dict (result ++ pairs)) := by
  induction pairs generalizing result with
  | nil => rw [rejectDuplicates, List.append_nil]
  | cons pair pairs ih =>
    have hnot : pair.1 ∉ result.map fst := by
      rw [map_append, map_cons, nodup_append] at h
      exact fun hmem => h.2.2 _ hmem _ (mem_cons_self ..) rfl
    have hsplit : result ++ pair :: pairs = (result ++ [pair]) ++ pairs := by simp
    rw [hsplit] at h ⊢
    rw [rejectDuplicates, if_neg (by simpa using hnot)]
    exact ih h

theorem exactObject_eq (items : Items) (keys : List String) (line : ℕ) (description : String)
    (h : ∀ key, key ∈ items.map fst ↔ key ∈ keys.map codePoints) :
    exactObject (.dict items) keys line description = .ok items := by
  rw [exactObject, if_pos]
  simp only [Bool.and_eq_true, all_eq_true, contains_iff_mem]
  exact ⟨fun key hkey => (h key).1 hkey, fun key hkey => (h _).2 (mem_map_of_mem hkey)⟩

theorem safeUint_int (h : n ≤ 2 ^ 53 - 1) (line : ℕ) (name : String) :
    safeUint (.int n) line name = .ok (n : ℤ) :=
  if_pos (by omega)

theorem checkName_codePoints {name : String} (h : validName name = true) (line : ℕ)
    (field : String) : checkName (.str (codePoints name)) line field = .ok () := by
  rw [checkName, matchesName_codePoints, if_pos h]

theorem equalsText_codePoints (text text' : String) :
    equalsText (.str (codePoints text)) text' = decide (text = text') := by
  rw [equalsText, Bool.eq_iff_iff, decide_eq_true_eq, decide_eq_true_eq]
  exact ⟨codePoints_inj, fun h => by rw [h]⟩

/-! ### The arguments of an event -/

variable {item : PythonString × PythonValue}

theorem mem_argumentItems : item ∈ argumentItems event ↔
      (item = (codePoints "gfsim_epoch_time", .int event.epoch.time) ∨
        item = (codePoints "gfsim_epoch_delta", .int event.epoch.delta) ∨
        item = (codePoints "gfsim_object_id", .int event.ownerId) ∨
        item = (codePoints "gfsim_local_committed_index", .int event.localCommittedIndex)) ∨
      (∃ id, event.rootSequenceId = some id ∧
        item = (codePoints "gfsim_root_sequence_id", .int id)) ∨
      ∃ argument ∈ event.arguments, item = argumentItem argument := by
  unfold argumentItems runtimeItems optionalItem
  simp [or_assoc, eq_comm]

/-- The arguments as they are read back. -/
def sortedArguments (event : CommittedEvent) : Items :=
  (sortKeysEntries (argumentItems event)).insertionSort KeyBefore

theorem perm_sortedArguments (event : CommittedEvent) :
    (sortedArguments event).Perm (argumentItems event) := by
  have hsame : sortKeysEntries (argumentItems event) = argumentItems event := by
    rw [sortKeysEntries_eq]
    refine (map_congr_left fun item hitem => ?_).trans (map_id _)
    have hvalue : sortKeys item.2 = item.2 := by
      rcases mem_argumentItems.1 hitem with (rfl | rfl | rfl | rfl) | ⟨id, -, rfl⟩ |
        ⟨argument, -, rfl⟩
      · simp only [sortKeys]
      · simp only [sortKeys]
      · simp only [sortKeys]
      · simp only [sortKeys]
      · simp only [sortKeys]
      · unfold argumentItem
        cases argument.value <;> simp only [sortKeys]
    rw [hvalue]
    rfl
  unfold sortedArguments
  rw [hsame]
  exact perm_insertionSort _ _

theorem mem_sortedArguments : item ∈ sortedArguments event ↔ item ∈ argumentItems event :=
  (perm_sortedArguments event).mem_iff

theorem sortedArguments_keys (h : event.WellFormed) : ((sortedArguments event).map fst).Nodup :=
  ((perm_sortedArguments event).map fst).nodup_iff.2 (argumentItems_keys h)

theorem argumentValue_argument {argument : ObservationArgument}
    (h : PortableArgument argument.value) (line : ℕ) (name : PythonString) :
    argumentValue (argumentItem argument).2 line name = .ok () := by
  unfold argumentItem
  cases hvalue : argument.value with
  | bool value => rfl
  | signed value =>
    rw [hvalue, PortableArgument] at h
    exact if_pos h
  | unsigned value =>
    rw [hvalue, PortableArgument] at h
    exact if_pos (by omega)
  | text value =>
    have hscalar := scalar_iff.2 (scalar_codePoints value)
    simp only [argumentValue, unicodeString, hscalar]
    rfl

theorem argumentValue_int (h : n ≤ 2 ^ 53 - 1) (line : ℕ) (name : PythonString) :
    argumentValue (.int n) line name = .ok () :=
  if_pos (by omega)

theorem checkArguments_ok {arguments : Items}
    (h : ∀ item ∈ arguments, checkName (.str item.1) line "argument name" = .ok () ∧
      argumentValue item.2 line item.1 = .ok ()) : checkArguments line arguments = .ok () := by
  induction arguments with
  | nil => rfl
  | cons item arguments ih =>
    obtain ⟨⟨hname, hvalue⟩, hrest⟩ := forall_mem_cons.1 h
    rw [checkArguments, hname, hvalue, ih hrest]
    rfl

theorem PortableEvent.epoch (h : PortableEvent event)
    (hdelta : event.epoch.delta < kMaxDeltasPerTick) :
    event.epoch.time ≤ 2 ^ 53 - 1 ∧ event.epoch.delta < 1024 ∧
      event.epoch.time * 1024 + event.epoch.delta ≤ 2 ^ 53 - 1 := by
  have htimestamp := h.timestamp
  rw [show kMaxDeltasPerTick = 1024 from rfl] at htimestamp hdelta
  omega

theorem checkArguments_sorted (h : event.WellFormed)
    (hportable : PortableEvent event) (hdelta : event.epoch.delta < kMaxDeltasPerTick) (line : ℕ) :
    checkArguments line (sortedArguments event) = .ok () := by
  obtain ⟨htime, hdelta, -⟩ := hportable.epoch hdelta
  obtain ⟨hall, -⟩ := argumentsOk_iff h.arguments
  refine checkArguments_ok fun item hitem => ?_
  rcases mem_argumentItems.1 (mem_sortedArguments.1 hitem) with (rfl | rfl | rfl | rfl) |
    ⟨id, hid, rfl⟩ | ⟨argument, hargument, rfl⟩
  · exact ⟨checkName_codePoints (by decide +kernel) _ _, argumentValue_int htime _ _⟩
  · exact ⟨checkName_codePoints (by decide +kernel) _ _, argumentValue_int (by omega) _ _⟩
  · exact ⟨checkName_codePoints (by decide +kernel) _ _, argumentValue_int hportable.owner _ _⟩
  · exact ⟨checkName_codePoints (by decide +kernel) _ _,
      argumentValue_int hportable.localIndex _ _⟩
  · exact ⟨checkName_codePoints (by decide +kernel) _ _,
      argumentValue_int (hportable.root id hid) _ _⟩
  · exact ⟨checkName_codePoints (hall argument hargument).1 _ _,
      argumentValue_argument (hportable.arguments argument hargument) _ _⟩

/-- The key of an event. -/
def traceKey (event : CommittedEvent) : TraceKey where
  time := event.epoch.time
  delta := event.epoch.delta
  owner := event.ownerId
  localIndex := event.localCommittedIndex

theorem committedArguments_sorted (event : CommittedEvent) :
    committedArguments.all (fun key =>
      ((sortedArguments event).map fst).contains (codePoints key)) = true := by
  have hmem {item : PythonString × PythonValue} (hitem : item ∈ argumentItems event) :
      ((sortedArguments event).map fst).contains item.1 = true :=
    contains_iff_mem.2 (mem_map_of_mem (mem_sortedArguments.2 hitem))
  simp only [committedArguments, all_cons, all_nil, Bool.and_true, Bool.and_eq_true]
  exact ⟨hmem (mem_argumentItems.2 (.inl (.inl rfl))),
    hmem (mem_argumentItems.2 (.inl (.inr (.inl rfl)))),
    hmem (mem_argumentItems.2 (.inl (.inr (.inr (.inl rfl))))),
    hmem (mem_argumentItems.2 (.inl (.inr (.inr (.inr rfl)))))⟩

theorem reservedArguments_sorted (h : event.WellFormed) :
    (((sortedArguments event).map fst).filter fun key => codePoints "gfsim_" <+: key).all
      (fun key =>
        ((committedArguments ++ optionalCommittedArguments).map codePoints).contains key) = true := by
  obtain ⟨hall, -⟩ := argumentsOk_iff h.arguments
  rw [all_eq_true]
  intro key hkey
  obtain ⟨hkey, hprefix⟩ := mem_filter.1 hkey
  obtain ⟨item, hitem, rfl⟩ := mem_map.1 hkey
  rw [decide_eq_true_eq] at hprefix
  rw [contains_iff_mem]
  rcases mem_argumentItems.1 (mem_sortedArguments.1 hitem) with (rfl | rfl | rfl | rfl) |
    ⟨id, hid, rfl⟩ | ⟨argument, hargument, rfl⟩
  · exact mem_map_of_mem (by decide)
  · exact mem_map_of_mem (by decide)
  · exact mem_map_of_mem (by decide)
  · exact mem_map_of_mem (by decide)
  · exact mem_map_of_mem (by decide)
  · rw [argumentItem, codePoints_prefix, (hall argument hargument).2.1] at hprefix
    exact absurd hprefix Bool.false_ne_true

theorem getItem_root (h : event.WellFormed) :
    getItem (sortedArguments event) "gfsim_root_sequence_id" =
      event.rootSequenceId.map fun id => .int id := by
  cases hroot : event.rootSequenceId with
  | some id =>
    refine getItem_eq (sortedArguments_keys h) (mem_sortedArguments.2 ?_)
    exact mem_argumentItems.2 (.inr (.inl ⟨id, hroot, rfl⟩))
  | none =>
    refine getItem_none fun hkey => ?_
    obtain ⟨hall, -⟩ := argumentsOk_iff h.arguments
    obtain ⟨item, hitem, hkey⟩ := mem_map.1 hkey
    rcases mem_argumentItems.1 (mem_sortedArguments.1 hitem) with (rfl | rfl | rfl | rfl) |
      ⟨id, hid, rfl⟩ | ⟨argument, hargument, rfl⟩
    · exact absurd (codePoints_inj hkey) (by decide)
    · exact absurd (codePoints_inj hkey) (by decide)
    · exact absurd (codePoints_inj hkey) (by decide)
    · exact absurd (codePoints_inj hkey) (by decide)
    · rw [hroot] at hid
      cases hid
    · have hname : argument.name = "gfsim_root_sequence_id" := codePoints_inj hkey
      have hprefix := (hall argument hargument).2.1
      rw [hname] at hprefix
      exact absurd hprefix (by decide +kernel)

theorem committedKey_sorted (h : event.WellFormed)
    (hportable : PortableEvent event) (hdelta : event.epoch.delta < kMaxDeltasPerTick) (line : ℕ) :
    committedKey (sortedArguments event)
      (event.epoch.time * kMaxDeltasPerTick + event.epoch.delta : ℕ) event.ownerId line =
        .ok (traceKey event) := by
  have hnodup := sortedArguments_keys h
  have hmem {item : PythonString × PythonValue} (hitem : item ∈ argumentItems event) :
      item ∈ sortedArguments event := mem_sortedArguments.2 hitem
  have htime := item_eq hnodup (hmem (mem_argumentItems.2 (.inl (.inl rfl))))
  have hdelta' := item_eq hnodup (hmem (mem_argumentItems.2 (.inl (.inr (.inl rfl)))))
  have howner := item_eq hnodup (hmem (mem_argumentItems.2 (.inl (.inr (.inr (.inl rfl))))))
  have hindex := item_eq hnodup (hmem (mem_argumentItems.2 (.inl (.inr (.inr (.inr rfl))))))
  obtain ⟨htime', hlow, hstamp⟩ := hportable.epoch hdelta
  have hdeltas : kMaxDeltasPerTick = 1024 := rfl
  unfold committedKey
  simp only [committedArguments_sorted, reservedArguments_sorted h, Bool.not_true,
    Bool.false_eq_true, if_false, checkArguments_sorted h hportable hdelta, htime, hdelta', howner,
    hindex, safeUint_int htime', safeUint_int (show event.epoch.delta ≤ 2 ^ 53 - 1 by omega),
    safeUint_int hportable.owner, safeUint_int hportable.localIndex, getItem_root h, bind,
    Except.bind]
  rw [if_neg (by rw [hdeltas]; omega)]
  cases hroot : event.rootSequenceId with
  | none => rfl
  | some id =>
    simp only [Option.map_some, safeUint_int (hportable.root id hroot)]
    rfl

/-! ### The fields of an event -/

/-- The fields as they are read back. -/
def sortedFields (event : CommittedEvent) : Items :=
  (sortKeysEntries (eventItems event)).insertionSort KeyBefore

theorem sortKeys_event (event : CommittedEvent) :
    sortKeys (eventValue event) = .dict (sortedFields event) := by
  rw [eventValue, sortKeys, sortedFields]

theorem sortKeys_optional (name : String) (field : Option ℕ) :
    ((optionalItem name field).map fun item => (item.1, sortKeys item.2)) =
      optionalItem name field := by
  cases field with
  | none => rfl
  | some n => simp [optionalItem, sortKeys]

theorem perm_sortedFields (event : CommittedEvent) :
    (sortedFields event).Perm (eventFields event (sortedArguments event)) := by
  have hsame : sortKeysEntries (eventItems event) = eventFields event (sortedArguments event) := by
    rw [sortKeysEntries_eq]
    unfold eventItems eventFields
    simp only [map_append, sortKeys_optional]
    congr 1
    · congr 3
      split_ifs
      · simp [sortKeys]
      · rfl
    · split_ifs
      · simp [sortKeys]
      · rfl
  rw [← hsame]
  exact perm_insertionSort _ _

theorem sortedFields_keys (event : CommittedEvent) : ((sortedFields event).map fst).Nodup :=
  ((perm_sortedFields event).map fst).nodup_iff.2 (eventFields_keys event _)

/-- The fields that a phase adds. -/
def extraFields : TraceEventPhase → List String
  | .instant => ["s"]
  | .complete => ["dur"]
  | .counter => []
  | .flowStart => ["id"]
  | .flowEnd => ["id", "bp"]

theorem find_phase (phase : TraceEventPhase) :
    (phaseFields.find? fun fields => decide (tracePhaseName phase = fields.1)) =
      some (tracePhaseName phase, extraFields phase) := by
  cases phase <;> decide

theorem eventFields_names (h : event.WellFormed) (arguments : Items) :
    (eventFields event arguments).map fst =
      (["name", "cat", "ph", "ts", "pid", "tid", "args"] ++ extraFields event.phase).map
        codePoints := by
  have hduration := h.duration
  have hflow := h.flowId
  unfold eventFields optionalItem
  generalize event.phase = phase at hduration hflow ⊢
  generalize event.duration = duration at hduration ⊢
  generalize event.flowId = flow at hflow ⊢
  cases phase <;> cases duration <;> cases flow <;>
    first
    | rfl
    | exact absurd hduration Bool.false_ne_true
    | exact absurd hduration.symm Bool.false_ne_true
    | exact absurd hflow Bool.false_ne_true
    | exact absurd hflow.symm Bool.false_ne_true

theorem checkPhase_sorted (h : event.WellFormed) (hportable : PortableEvent event) (line : ℕ) :
    checkPhase (tracePhaseName event.phase) (sortedFields event) line = .ok () := by
  have hfield (key : String) (value : PythonValue)
      (hmem : (codePoints key, value) ∈ eventFields event (sortedArguments event)) :
      item (sortedFields event) key = value :=
    item_eq (sortedFields_keys event) ((perm_sortedFields event).mem_iff.2 hmem)
  have hduration := h.duration
  have hflow := h.flowId
  cases hphase : event.phase with
  | instant =>
    have hscope := hfield "s" (.str (codePoints "t"))
      (by simp [eventFields, hphase])
    simp only [checkPhase, hscope]
    rfl
  | complete =>
    rw [hphase] at hduration
    obtain ⟨duration, hsome⟩ := Option.isSome_iff_exists.1 (hduration.trans (decide_eq_true rfl))
    have hdur := hfield "dur" (.int duration)
      (by simp [eventFields, optionalItem, hsome])
    simp only [checkPhase, hdur, safeUint_int (hportable.duration duration hsome)]
    rfl
  | counter => rfl
  | flowStart =>
    rw [hphase] at hflow
    obtain ⟨id, hsome⟩ := Option.isSome_iff_exists.1 hflow
    have hid := hfield "id" (.int id)
      (by simp [eventFields, optionalItem, hsome])
    simp only [checkPhase, hid, safeUint_int (hportable.flow id hsome)]
    rfl
  | flowEnd =>
    rw [hphase] at hflow
    obtain ⟨id, hsome⟩ := Option.isSome_iff_exists.1 hflow
    have hid := hfield "id" (.int id)
      (by simp [eventFields, optionalItem, hsome])
    have hbinding := hfield "bp" (.str (codePoints "e"))
      (by simp [eventFields, hphase])
    simp only [checkPhase, hid, safeUint_int (hportable.flow id hsome), hbinding]
    rfl

/-- **An event passes.** -/
theorem checkCommittedEvent_sorted (h : event.WellFormed)
    (hportable : PortableEvent event) (hdelta : event.epoch.delta < kMaxDeltasPerTick) (line : ℕ) :
    checkCommittedEvent (sortedFields event) line = .ok (traceKey event) := by
  have hperm := perm_sortedFields event
  have hget (key : String) (value : PythonValue)
      (hmem : (codePoints key, value) ∈ eventFields event (sortedArguments event)) :
      getItem (sortedFields event) key = some value :=
    getItem_eq (sortedFields_keys event) (hperm.mem_iff.2 hmem)
  have hitem (key : String) (value : PythonValue)
      (hmem : (codePoints key, value) ∈ eventFields event (sortedArguments event)) :
      item (sortedFields event) key = value := by
    rw [item, hget key value hmem, Option.getD_some]
  have hname := hitem "name" (.str (codePoints event.name)) (by simp [eventFields])
  have hcat := hitem "cat" (.str (codePoints event.category))
    (by simp [eventFields])
  have hphase := hget "ph" (.str (codePoints (tracePhaseName event.phase)))
    (by simp [eventFields])
  have hts := hitem "ts" (.int (event.epoch.time * kMaxDeltasPerTick + event.epoch.delta : ℕ))
    (by simp [eventFields])
  have hpid := hitem "pid" (.int 0) (by simp [eventFields])
  have htid := hitem "tid" (.int event.ownerId) (by simp [eventFields])
  have hargs := hitem "args" (.dict (sortedArguments event))
    (by simp [eventFields])
  have hobject := exactObject_eq (sortedFields event)
    (["name", "cat", "ph", "ts", "pid", "tid", "args"] ++ extraFields event.phase) line "event"
    fun key => by rw [(hperm.map fst).mem_iff, eventFields_names h]
  unfold checkCommittedEvent
  simp only [hphase, Option.getD_some, equalsText_codePoints, find_phase, hobject, hname, hcat, hpid,
    htid, hts, hargs, checkName_codePoints h.name, checkName_codePoints h.category,
    safeUint_int hportable.timestamp, safeUint_int hportable.owner,
    committedKey_sorted h hportable hdelta, checkPhase_sorted h hportable, bind, Except.bind]
  rfl

/-! ### Order and depth -/

theorem before_traceKey {previous : CommittedEvent} :
    (traceKey previous).before (traceKey event) = previous.lessEvent event := by
  rw [Bool.eq_iff_iff]
  simp only [TraceKey.before, traceKey, CommittedEvent.lessEvent, Epoch.lt_def, Epoch.eq_iff,
    Bool.or_eq_true, Bool.and_eq_true, decide_eq_true_eq, Nat.cast_lt, Nat.cast_inj]
  tauto

theorem nestingEntries_le (h : ∀ item ∈ items, nesting item.2 ≤ n) : nestingEntries items ≤ n := by
  induction items with
  | nil => exact Nat.zero_le n
  | cons item items ih =>
    rw [forall_mem_cons] at h
    rw [nestingEntries]
    exact max_le h.1 (ih h.2)

theorem FieldOf.nesting {dict : Option Items} (h : FieldOf event dict item)
    (hdict : ∀ items ∈ dict, Tools.nesting (.dict items) ≤ n) : Tools.nesting item.2 ≤ n := by
  cases h with
  | int | text => exact Nat.zero_le n
  | @argument argument =>
    unfold argumentItem
    cases argument.value <;> exact Nat.zero_le n
  | arguments hitems => exact hdict _ hitems

theorem nesting_event (event : CommittedEvent) : nesting (sortKeys (eventValue event)) ≤ 2 := by
  have harguments : nestingEntries (sortedArguments event) ≤ 0 := nestingEntries_le fun item hitem =>
    (fieldOf_arguments event item (mem_sortedArguments.1 hitem)).nesting nofun
  rw [sortKeys_event, nesting]
  refine Nat.succ_le_succ (nestingEntries_le fun item hitem => ?_)
  refine (fieldOf_event event item ((perm_sortedFields event).mem_iff.1 hitem)).nesting ?_
  rintro _ ⟨⟩
  exact Nat.succ_le_succ harguments

end AgenticCircuit.Tools
