import AgenticCircuit.Gfsim.EventLog
import AgenticCircuit.Tools.LoadsCanonical
import AgenticCircuit.Tools.TextLines

/-! # The text of an event

A line of the event log is the canonical text of one value (`eventValue`).  The value is portable
where the integers of the event are, and its strings beyond ASCII are the text arguments of the
event: a line is cut by `splitlines` exactly where a text argument has a line break that the
canonical writer leaves in place (`lineText_unbroken`). -/

namespace AgenticCircuit.Tools

open List
open Bindings Frontend Gfsim

/-! ### Texts of the source -/

theorem scalar_codePoints (text : String) : Scalar (codePoints text) := by
  intro c hc
  obtain ⟨char, -, rfl⟩ := mem_map.1 hc
  have hvalid := char.valid
  simp only [IsScalar, isSurrogate, Bool.and_eq_false_iff, decide_eq_false_iff_not, Char.toNat]
  omega

theorem bytesOf_codePoints (text : String) : bytesOf (codePoints text) = utf8 text := by
  unfold bytesOf codePoints utf8
  rw [flatMap_map]
  congr 1
  funext char
  unfold Bindings.encodeUtf8
  simp

theorem codePoints_inj {text text' : String} (h : codePoints text = codePoints text') :
    text = text' := by
  apply String.toList_inj.1
  refine map_injective_iff.2 (fun char char' heq => ?_) h
  have hval := congrArg Fin.val heq
  exact Char.toNat_inj.1 hval

/-! ### Names -/

theorem isNameStart_char (char : Char) (h : char.toNat < 0x110000) :
    isNameStart ⟨char.toNat, h⟩ = (char.isAlpha || char == '_') := by
  have halpha : char.isAlpha = (decide (char.val ≥ 'A'.val ∧ char.val ≤ 'Z'.val) ||
      (decide (char.val ≥ 'a'.val) && decide (char.val ≤ 'z'.val))) := rfl
  rw [halpha, Bool.eq_iff_iff]
  simp only [isNameStart, Bool.or_eq_true, Bool.and_eq_true, decide_eq_true_eq, beq_iff_eq,
    ← Char.toNat_inj]
  rfl

theorem isNamePart_char (char : Char) (h : char.toNat < 0x110000) : isNamePart ⟨char.toNat, h⟩ =
      (char.isAlpha || char.isDigit || char == '_' || char == '.' || char == '-') := by
  rw [isNamePart, isNameStart_char, Bool.eq_iff_iff]
  simp only [Bool.or_eq_true, decide_eq_true_eq, beq_iff_eq, ← Char.toNat_inj]
  tauto

theorem isNamePart_ascii {c : CodePoint} (h : isNamePart c = true) : c.val < 0x80 := by
  simp only [isNamePart, isNameStart, isDecimal] at h
  simp at h
  omega

/-- Both sides take the same names. -/
theorem matchesName_codePoints (name : String) :
    matchesName (codePoints name) = validName name := by
  unfold validName codePoints
  cases name.toList with
  | nil => rfl
  | cons char chars =>
    rw [map_cons, matchesName, isNameStart_char, all_map]
    congr 2
    funext char
    exact isNamePart_char char _

theorem validName_ascii {name : String} (h : validName name = true) :
    ∀ c ∈ codePoints name, c.val < 0x80 := by
  rw [← matchesName_codePoints] at h
  generalize codePoints name = text at h
  cases text with
  | nil => exact forall_mem_nil _
  | cons c text =>
    rw [matchesName, Bool.and_eq_true] at h
    refine forall_mem_cons.2 ⟨isNamePart_ascii ?_, fun c hc =>
      isNamePart_ascii (all_eq_true.1 h.2 c hc)⟩
    rw [isNamePart, h.1]
    rfl

/-! ### The value of an event -/

section event

variable {event : CommittedEvent}

/-- What is read back of a runtime scalar. -/
def argumentItem (argument : ObservationArgument) : PythonString × PythonValue :=
  (codePoints argument.name,
    match argument.value with
    | .bool value => .bool value
    | .signed value => .int value
    | .unsigned value => .int value
    | .text value => .str (codePoints value))

def optionalItem (name : String) (field : Option ℕ) : Items :=
  field.toList.map fun (value : ℕ) => (codePoints name, .int value)

def runtimeItems (event : CommittedEvent) : Items :=
  [(codePoints "gfsim_epoch_time", .int event.epoch.time),
    (codePoints "gfsim_epoch_delta", .int event.epoch.delta),
    (codePoints "gfsim_object_id", .int event.ownerId),
    (codePoints "gfsim_local_committed_index", .int event.localCommittedIndex)] ++
  optionalItem "gfsim_root_sequence_id" event.rootSequenceId

def argumentItems (event : CommittedEvent) : Items :=
  runtimeItems event ++ event.arguments.map argumentItem

/-- The fields of an event with its arguments. -/
def eventFields (event : CommittedEvent) (arguments : Items) : Items :=
  [(codePoints "name", .str (codePoints event.name)),
    (codePoints "cat", .str (codePoints event.category)),
    (codePoints "ph", .str (codePoints (tracePhaseName event.phase))),
    (codePoints "ts", .int (event.epoch.time * kMaxDeltasPerTick + event.epoch.delta : ℕ)),
    (codePoints "pid", .int 0),
    (codePoints "tid", .int event.ownerId),
    (codePoints "args", .dict arguments)] ++
    (if event.phase = .instant then [(codePoints "s", .str (codePoints "t"))] else []) ++
    optionalItem "dur" event.duration ++ optionalItem "id" event.flowId ++
    (if event.phase = .flowEnd then [(codePoints "bp", .str (codePoints "e"))] else [])

def eventItems (event : CommittedEvent) : Items := eventFields event (argumentItems event)

def eventValue (event : CommittedEvent) : PythonValue := .dict (eventItems event)

/-- The members that `addArguments` adds. -/
def argumentMember (argument : ObservationArgument) : Bytes × JsonValue :=
  (utf8 argument.name, observationValue argument.value)

variable {arguments : List ObservationArgument} {text : String} {argument : ObservationArgument}

theorem addArguments_ok {members members' : List (Bytes × JsonValue)}
    (h : addArguments members arguments = .ok members') :
    members' = members ++ arguments.map argumentMember := by
  induction arguments generalizing members with
  | nil =>
    rw [map_nil, List.append_nil]
    exact (Except.ok.inj h).symm
  | cons argument arguments ih =>
    rw [addArguments] at h
    split_ifs at h with hcollides
    · cases h
    · rw [ih h, map_cons, List.append_assoc]
      rfl

variable (name : String)

theorem representsEntry_int (n : ℕ) :
    RepresentsEntry (codePoints name, .int n) (utf8 name, .unsigned n) := by
  refine ⟨(bytesOf_codePoints name).symm, ?_⟩
  rw [Represents]
  exact .inr ⟨n, rfl, rfl⟩

theorem representsEntry_id (n : ℕ) :
    RepresentsEntry (codePoints name, .int n) (utf8 name, .integer n) := by
  refine ⟨(bytesOf_codePoints name).symm, ?_⟩
  rw [Represents]
  exact .inl rfl

theorem representsEntry_text (value : String) :
    RepresentsEntry (codePoints name, .str (codePoints value)) (utf8 name, .string (utf8 value)) := by
  refine ⟨(bytesOf_codePoints name).symm, ?_⟩
  rw [Represents, bytesOf_codePoints]

variable (field : Option ℕ)

theorem represents_optional :
    List.Forall₂ RepresentsEntry (optionalItem name field) (optionalMember name .unsigned field) := by
  cases field with
  | none => exact .nil
  | some n => exact .cons (representsEntry_int name n) .nil

theorem represents_argument (argument : ObservationArgument) :
    RepresentsEntry (argumentItem argument) (argumentMember argument) := by
  refine ⟨(bytesOf_codePoints argument.name).symm, ?_⟩
  unfold argumentItem argumentMember
  cases argument.value with
  | bool value => simp only [Represents, observationValue]
  | signed value => simp [Represents, observationValue]
  | unsigned value => simp only [Represents]; exact .inr ⟨value, rfl, rfl⟩
  | text value => simp only [Represents, observationValue, bytesOf_codePoints]

theorem represents_arguments (event : CommittedEvent) :
    List.Forall₂ RepresentsEntry (argumentItems event)
      (runtimeArguments event ++ event.arguments.map argumentMember) := by
  refine rel_append (rel_append ?_ (represents_optional _ _)) ?_
  · exact .cons (representsEntry_int _ _) (.cons (representsEntry_int _ _)
      (.cons (representsEntry_id _ _) (.cons (representsEntry_int _ _) .nil)))
  · rw [forall₂_map_left_iff, forall₂_map_right_iff, forall₂_same]
    exact fun argument _ => represents_argument argument

theorem represents_event (event : CommittedEvent) : Represents (eventValue event)
      (encodedEvent event (runtimeArguments event ++ event.arguments.map argumentMember)) := by
  rw [eventValue, Represents]
  refine ⟨_, _, rfl, List.Perm.refl _, representsEntries_iff.2 ?_⟩
  have harguments : RepresentsEntry (codePoints "args", .dict (argumentItems event))
      (utf8 "args", .object (runtimeArguments event ++ event.arguments.map argumentMember)) := by
    refine ⟨(bytesOf_codePoints "args").symm, ?_⟩
    rw [Represents]
    exact ⟨_, _, rfl, List.Perm.refl _, representsEntries_iff.2 (represents_arguments event)⟩
  have hpid : RepresentsEntry (codePoints "pid", .int 0) (utf8 "pid", .integer 0) :=
    representsEntry_id "pid" 0
  refine rel_append (rel_append (rel_append (rel_append ?_ ?_)
    (represents_optional _ _)) (represents_optional _ _)) ?_
  · exact .cons (representsEntry_text _ _) (.cons (representsEntry_text _ _)
      (.cons (representsEntry_text _ _) (.cons (representsEntry_int _ _) (.cons hpid
        (.cons (representsEntry_id _ _) (.cons harguments .nil))))))
  · split_ifs
    · exact .cons (representsEntry_text _ _) .nil
    · exact .nil
  · split_ifs
    · exact .cons (representsEntry_text _ _) .nil
    · exact .nil

/-! ### What is portable -/

def PortableArgument : ObservationValue → Prop
  | .signed value => -(2 ^ 53 - 1) ≤ value ∧ value ≤ 2 ^ 53 - 1
  | .unsigned value => value ≤ 2 ^ 53 - 1
  | .bool _ | .text _ => True

/-- The integers of an event and its timestamp are at most `2^53 - 1`. -/
structure PortableEvent (event : CommittedEvent) : Prop where
  timestamp : event.epoch.time * kMaxDeltasPerTick + event.epoch.delta ≤ 2 ^ 53 - 1
  owner : event.ownerId ≤ 2 ^ 53 - 1
  localIndex : event.localCommittedIndex ≤ 2 ^ 53 - 1
  root : ∀ id ∈ event.rootSequenceId, id ≤ 2 ^ 53 - 1
  duration : ∀ duration ∈ event.duration, duration ≤ 2 ^ 53 - 1
  flow : ∀ id ∈ event.flowId, id ≤ 2 ^ 53 - 1
  arguments : ∀ argument ∈ event.arguments, PortableArgument argument.value

/-- What the recorder asks of the arguments. -/
theorem argumentsOk_iff {previous : Option String}
    (h : ObservationRecorder.argumentsOk previous arguments = true) :
    (∀ argument ∈ arguments, validName argument.name = true ∧
      argument.name.startsWith "gfsim_" = false ∧ ∀ name ∈ previous, name < argument.name) ∧
    arguments.Pairwise fun argument later => argument.name < later.name := by
  induction arguments generalizing previous with
  | nil => exact ⟨forall_mem_nil _, .nil⟩
  | cons argument arguments ih =>
    simp only [ObservationRecorder.argumentsOk, Bool.and_eq_true, Bool.not_eq_true'] at h
    obtain ⟨⟨⟨hname, hprefix⟩, hprevious⟩, hrest⟩ := h
    obtain ⟨hall, hpairwise⟩ := ih hrest
    have hbefore : ∀ name ∈ previous, name < argument.name := by
      rintro name rfl
      simpa using hprevious
    refine ⟨forall_mem_cons.2 ⟨⟨hname, hprefix, hbefore⟩, fun later hlater => ?_⟩,
      pairwise_cons.2 ⟨fun later hlater => (hall later hlater).2.2 _ rfl, hpairwise⟩⟩
    obtain ⟨hname', hprefix', hlater'⟩ := hall later hlater
    exact ⟨hname', hprefix', fun name hmem => String.lt_trans (hbefore name hmem) (hlater' _ rfl)⟩

/-- The runtime's own names. -/
def runtimeNames : List String := committedArguments ++ optionalCommittedArguments

theorem runtimeItems_keys (event : CommittedEvent) :
    ((runtimeItems event).map Prod.fst).Sublist (runtimeNames.map codePoints) := by
  unfold runtimeItems optionalItem
  cases event.rootSequenceId with
  | none => exact sublist_append_left (committedArguments.map codePoints) _
  | some id => exact List.Sublist.refl _

theorem runtimeName_prefix : ∀ name ∈ runtimeNames.map codePoints,
    codePoints "gfsim_" <+: name := by
  decide +kernel

theorem codePoints_prefix {text' : String} :
    codePoints text <+: codePoints text' ↔ text'.startsWith text = true := by
  rw [String.startsWith_string_iff]
  unfold codePoints
  constructor
  · intro h
    refine (prefix_map_iff_of_injective fun char char' heq => ?_).1 h
    have hval := congrArg Fin.val heq
    exact Char.toNat_inj.1 hval
  · exact fun h => h.map _

theorem argumentItems_keys (h : event.WellFormed) : ((argumentItems event).map Prod.fst).Nodup := by
  obtain ⟨hall, hpairwise⟩ := argumentsOk_iff h.arguments
  rw [argumentItems, map_append, nodup_append, map_map]
  refine ⟨(runtimeItems_keys event).nodup (by decide +kernel), ?_, ?_⟩
  · rw [nodup_iff_pairwise_ne, pairwise_map]
    refine hpairwise.imp fun {argument later} hlt heq => ?_
    rw [codePoints_inj heq] at hlt
    exact String.lt_irrefl _ hlt
  · rintro key hkey _ hkey' rfl
    obtain ⟨argument, hargument, rfl⟩ := mem_map.1 hkey'
    have hprefix := runtimeName_prefix _ ((runtimeItems_keys event).subset hkey)
    rw [Function.comp_apply, argumentItem, codePoints_prefix, (hall argument hargument).2.1] at hprefix
    exact Bool.false_ne_true hprefix

theorem optionalItem_keys : ((optionalItem name field).map Prod.fst).Sublist [codePoints name] := by
  cases field with
  | none => exact nil_sublist _
  | some n => exact List.Sublist.refl _

theorem eventFields_keys (event : CommittedEvent) (arguments : Items) :
    ((eventFields event arguments).map Prod.fst).Nodup := by
  have hnodup : (["name", "cat", "ph", "ts", "pid", "tid", "args"].map codePoints ++
      [codePoints "s"] ++ [codePoints "dur"] ++ [codePoints "id"] ++ [codePoints "bp"]).Nodup := by
    decide +kernel
  refine List.Sublist.nodup ?_ hnodup
  unfold eventFields
  simp only [map_append]
  refine ((((List.Sublist.refl _).append ?_).append (optionalItem_keys _ _)).append
    (optionalItem_keys _ _)).append ?_
  · split_ifs
    · exact List.Sublist.refl _
    · exact nil_sublist _
  · split_ifs
    · exact List.Sublist.refl _
    · exact nil_sublist _

theorem ascii_literal (h : text.toList.all (fun char => char.toNat < 0x80) = true) :
    ∀ c ∈ codePoints text, c.val < 0x80 := by
  intro c hc
  obtain ⟨char, hchar, rfl⟩ := mem_map.1 hc
  simpa using all_eq_true.1 h char hchar

/-- The items of an event: its integers and texts under the names of the runtime, its arguments one
by one, and the dict of them. -/
inductive FieldOf (event : CommittedEvent) (dict : Option Items) :
    PythonString × PythonValue → Prop
  | int {name : String} {n : ℕ} (hname : ∀ c ∈ codePoints name, c.val < 0x80)
      (h : PortableEvent event → n ≤ 2 ^ 53 - 1) : FieldOf event dict (codePoints name, .int n)
  | text {name text : String} (hname : ∀ c ∈ codePoints name, c.val < 0x80)
      (h : event.WellFormed → ∀ c ∈ codePoints text, c.val < 0x80) :
      FieldOf event dict (codePoints name, .str (codePoints text))
  | argument {argument : ObservationArgument} (h : argument ∈ event.arguments) :
      FieldOf event dict (argumentItem argument)
  | arguments {items : Items} (h : items ∈ dict) :
      FieldOf event dict (codePoints "args", .dict items)

variable {dict : Option Items} {items : Items} {item : PythonString × PythonValue}

theorem fieldOf_optional (hname : ∀ c ∈ codePoints name, c.val < 0x80)
    (h : PortableEvent event → ∀ n ∈ field, n ≤ 2 ^ 53 - 1) :
    ∀ item ∈ optionalItem name field, FieldOf event dict item := by
  cases field with
  | none => exact forall_mem_nil _
  | some n => exact forall_mem_singleton.2 (.int hname fun hportable => h hportable n rfl)

theorem fieldOf_arguments (event : CommittedEvent) :
    ∀ item ∈ argumentItems event, FieldOf event none item := by
  simp only [argumentItems, runtimeItems, forall_mem_append, forall_mem_cons, forall_mem_map]
  have htimestamp {n : ℕ} (hn : n ≤ event.epoch.time * 1024 + event.epoch.delta)
      (h : PortableEvent event) : n ≤ 2 ^ 53 - 1 := hn.trans h.timestamp
  refine ⟨⟨⟨.int (ascii_literal (by decide)) (htimestamp (by omega)),
    .int (ascii_literal (by decide)) (htimestamp (by omega)),
    .int (ascii_literal (by decide)) (·.owner), .int (ascii_literal (by decide)) (·.localIndex),
    forall_mem_nil _⟩, fieldOf_optional _ _ (ascii_literal (by decide)) (·.root)⟩, fun argument => .argument⟩

theorem fieldOf_event (event : CommittedEvent) :
    ∀ item ∈ eventFields event items, FieldOf event (some items) item := by
  simp only [eventFields, forall_mem_append, forall_mem_cons]
  refine ⟨⟨⟨⟨⟨.text (ascii_literal (by decide)) fun h => validName_ascii h.name,
    .text (ascii_literal (by decide)) fun h => validName_ascii h.category,
    .text (ascii_literal (by decide)) fun _ => ascii_literal ?_,
    .int (ascii_literal (by decide)) (·.timestamp),
    .int (n := 0) (ascii_literal (by decide)) fun _ => Nat.zero_le _,
    .int (ascii_literal (by decide)) (·.owner), .arguments rfl, forall_mem_nil _⟩, ?_⟩,
    fieldOf_optional _ _ (ascii_literal (by decide)) (·.duration)⟩,
    fieldOf_optional _ _ (ascii_literal (by decide)) (·.flow)⟩, ?_⟩
  · cases event.phase <;> decide
  · split_ifs
    · exact forall_mem_singleton.2
        (.text (ascii_literal (by decide)) fun _ => ascii_literal (by decide))
    · exact forall_mem_nil _
  · split_ifs
    · exact forall_mem_singleton.2
        (.text (ascii_literal (by decide)) fun _ => ascii_literal (by decide))
    · exact forall_mem_nil _

theorem FieldOf.portable (h : FieldOf event dict item) (hportable : PortableEvent event)
    (hdict : ∀ items ∈ dict, Portable (.dict items)) : Scalar item.1 ∧ Portable item.2 := by
  cases h with
  | int _ hn =>
    refine ⟨scalar_codePoints _, ?_⟩
    have := hn hportable
    rw [Portable]
    omega
  | text =>
    refine ⟨scalar_codePoints _, ?_⟩
    rw [Portable]
    exact scalar_codePoints _
  | @argument argument hargument =>
    refine ⟨scalar_codePoints _, ?_⟩
    have h := hportable.arguments argument hargument
    unfold argumentItem
    cases hvalue : argument.value with
    | bool value => simp only [Portable]
    | signed value =>
      rw [hvalue, PortableArgument] at h
      simpa only [Portable] using h
    | unsigned value =>
      rw [hvalue, PortableArgument] at h
      simp only [Portable]
      omega
    | text value => simpa only [Portable] using scalar_codePoints value
  | arguments hitems => exact ⟨scalar_codePoints _, hdict _ hitems⟩

theorem portable_event (h : event.WellFormed)
    (hportable : PortableEvent event) : Portable (eventValue event) := by
  have harguments : Portable (.dict (argumentItems event)) := by
    rw [Portable]
    refine ⟨argumentItems_keys h, portableEntries_iff.2 fun item hitem => ?_⟩
    exact (fieldOf_arguments event item hitem).portable hportable nofun
  rw [eventValue, Portable]
  exact ⟨eventFields_keys event _, portableEntries_iff.2 fun item hitem =>
    (fieldOf_event event item hitem).portable hportable (by rintro _ ⟨⟩; exact harguments)⟩

/-! ### The text of an event -/

theorem FieldOf.hasFloat (h : FieldOf event dict item)
    (hdict : ∀ items ∈ dict, Frontend.hasFloat (.dict items) = false) : Frontend.hasFloat item.2 = false := by
  cases h with
  | int | text => rfl
  | @argument argument =>
    unfold argumentItem
    cases argument.value <;> rfl
  | arguments hitems => exact hdict _ hitems

theorem hasFloat_event (event : CommittedEvent) : hasFloat (eventValue event) = false := by
  have harguments : hasFloat (.dict (argumentItems event)) = false := by
    rw [hasFloat, hasFloatEntries_iff]
    exact fun item hitem => (fieldOf_arguments event item hitem).hasFloat nofun
  rw [eventValue, hasFloat, hasFloatEntries_iff]
  exact fun item hitem => (fieldOf_event event item hitem).hasFloat (by rintro _ ⟨⟩; exact harguments)

/-- The line of an event, as text. -/
def lineText (event : CommittedEvent) : PythonString := compactText (sortKeys (eventValue event))

/-- A string of ASCII, or one of the text arguments of an event. -/
def AsciiOrArgument (event : CommittedEvent) (value : PythonString) : Prop :=
  (∀ c ∈ value, c.val < 0x80) ∨
    ∃ argument ∈ event.arguments, ∃ text, argument.value = .text text ∧ value = codePoints text

theorem FieldOf.strings (hfield : FieldOf event dict item) (h : event.WellFormed)
    (hdict : ∀ items ∈ dict, ∀ value ∈ stringsEntries items, AsciiOrArgument event value) :
    ∀ value ∈ item.1 :: Frontend.strings item.2, AsciiOrArgument event value := by
  rw [forall_mem_cons]
  cases hfield with
  | int hname => exact ⟨.inl hname, by simp [Frontend.strings]⟩
  | text hname htext =>
    refine ⟨.inl hname, ?_⟩
    rw [Frontend.strings, forall_mem_singleton]
    exact .inl (htext h)
  | @argument argument hargument =>
    refine ⟨.inl (validName_ascii ((argumentsOk_iff h.arguments).1 argument hargument).1), ?_⟩
    unfold argumentItem
    cases hvalue : argument.value with
    | text text =>
      simp only [Frontend.strings, forall_mem_singleton]
      exact .inr ⟨argument, hargument, text, hvalue, rfl⟩
    | _ =>
      simp only [Frontend.strings]
      exact forall_mem_nil _
  | arguments hitems =>
    refine ⟨.inl (ascii_literal (by decide)), ?_⟩
    rw [Frontend.strings]
    exact hdict _ hitems

theorem strings_event (h : event.WellFormed) :
    ∀ value ∈ strings (eventValue event), AsciiOrArgument event value := by
  have harguments : ∀ value ∈ stringsEntries (argumentItems event), AsciiOrArgument event value := by
    rw [stringsEntries_eq, forall_mem_flatMap]
    exact fun item hitem => (fieldOf_arguments event item hitem).strings h nofun
  rw [eventValue, strings, stringsEntries_eq, forall_mem_flatMap]
  exact fun item hitem => (fieldOf_event event item hitem).strings h (by rintro _ ⟨⟩; exact harguments)

theorem argument_mem_strings (hargument : argument ∈ event.arguments)
    (hvalue : argument.value = .text text) : codePoints text ∈ strings (eventValue event) := by
  have hitem : codePoints text ∈ strings (argumentItem argument).2 := by
    unfold argumentItem
    simp [hvalue, strings]
  have harguments : codePoints text ∈ strings (.dict (argumentItems event)) := by
    rw [strings, stringsEntries_eq]
    exact mem_flatMap.2 ⟨argumentItem argument,
      mem_append_right _ (mem_map_of_mem hargument), mem_cons_of_mem _ hitem⟩
  rw [eventValue, strings, stringsEntries_eq]
  refine mem_flatMap.2 ⟨(codePoints "args", .dict (argumentItems event)), ?_,
    mem_cons_of_mem _ harguments⟩
  simp [eventItems, eventFields]

/-! ### Line breaks -/

/-- No text argument has a line break that the canonical writer leaves in place. -/
def Unbroken (event : CommittedEvent) : Prop :=
  ∀ argument ∈ event.arguments, ∀ text, argument.value = .text text →
    '\u0085' ∉ text.toList ∧ '\u2028' ∉ text.toList ∧ '\u2029' ∉ text.toList

theorem mem_codePoints {char : Char} :
    char ∈ text.toList ↔ ∃ c ∈ codePoints text, c.val = char.toNat := by
  unfold codePoints
  simp only [mem_map]
  constructor
  · exact fun h => ⟨_, ⟨char, h, rfl⟩, rfl⟩
  · rintro ⟨c, ⟨char', hmem, rfl⟩, hval⟩
    rwa [← Char.toNat_inj.1 hval]

theorem isLineBreak_beyond {c : CodePoint} (h : 0x80 ≤ c.val) :
    isLineBreak c = true ↔ c.val = 0x85 ∨ c.val = 0x2028 ∨ c.val = 0x2029 := by
  simp only [isLineBreak, Bool.or_eq_true, Bool.and_eq_true, decide_eq_true_eq]
  omega

theorem unbroken_iff :
    Unbroken event ↔ ∀ argument ∈ event.arguments, ∀ text, argument.value = .text text →
      ∀ c ∈ codePoints text, 0x80 ≤ c.val → isLineBreak c = false := by
  have hnext : '\u0085'.toNat = 0x85 := rfl
  have hline : '\u2028'.toNat = 0x2028 := rfl
  have hparagraph : '\u2029'.toNat = 0x2029 := rfl
  refine forall_congr' fun argument => forall_congr' fun _ => forall_congr' fun text =>
    forall_congr' fun _ => ?_
  simp only [mem_codePoints, not_exists, not_and]
  constructor
  · rintro ⟨hnot, hnot', hnot''⟩ c hc hbeyond
    rw [← Bool.not_eq_true, isLineBreak_beyond hbeyond]
    rintro (heq | heq | heq)
    · exact hnot c hc heq
    · exact hnot' c hc heq
    · exact hnot'' c hc heq
  · intro hall
    have hnone {c : CodePoint} (hc : c ∈ codePoints text)
        (hbreak : c.val = 0x85 ∨ c.val = 0x2028 ∨ c.val = 0x2029) : False := by
      have hbeyond : 0x80 ≤ c.val := by omega
      have hfalse := hall c hc hbeyond
      rw [(isLineBreak_beyond hbeyond).2 hbreak] at hfalse
      exact Bool.noConfusion hfalse
    exact ⟨fun c hc heq => hnone hc (.inl heq), fun c hc heq => hnone hc (.inr (.inl heq)),
      fun c hc heq => hnone hc (.inr (.inr heq))⟩

theorem lineText_visible (event : CommittedEvent) : ∀ c ∈ lineText event, 0x20 ≤ c.val :=
  fun c hc => ((exhibits_compactText _).1 c hc).1

theorem lineText_unbroken (h : event.WellFormed) :
    (∀ c ∈ lineText event, isLineBreak c = false) ↔ Unbroken event := by
  obtain ⟨hshows, hkeeps⟩ := exhibits_compactText (sortKeys (eventValue event))
  have hstrings := perm_strings (eventValue event)
  rw [unbroken_iff]
  constructor
  · intro hall argument hargument text hvalue c hc hbeyond
    have hmem := hstrings.mem_iff.2 (argument_mem_strings hargument hvalue)
    exact hall c (hkeeps _ hmem c hc hbeyond)
  · intro hall c hc
    have hvisible := lineText_visible event c hc
    by_cases hbeyond : 0x80 ≤ c.val
    · obtain ⟨value, hvalue, hmem⟩ := (hshows c hc).2 hbeyond
      rcases strings_event h value (hstrings.mem_iff.1 hvalue) with hascii | hargument
      · exact absurd (hascii c hmem) (by omega)
      · obtain ⟨argument, hargument, text, htext, rfl⟩ := hargument
        exact hall argument hargument text htext c hmem hbeyond
    · simp [isLineBreak]
      omega

end event

end AgenticCircuit.Tools
