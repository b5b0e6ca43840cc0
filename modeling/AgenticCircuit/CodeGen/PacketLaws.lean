import AgenticCircuit.CodeGen.Packet

/-! # The record laws of packets

What the generated helpers have to satisfy (`RecordLaws`), and exactly which packets satisfy
it.  Reading back a field written by `with`, leaving the other fields alone and the
serialization round trip hold for every accepted packet; the two laws on byte order do not.

* A helper reverses a whole field, so a vector is written back to front and a nested packet
  loses its own byte order (`plain` names the fields this does no harm to).
* `record.create` takes its flag from its first operand, so a packet declared big endian is
  created little endian unless its first field is itself declared big endian. -/

namespace AgenticCircuit.CodeGen

open List Layout
open Option (map_eq_some_iff bind_eq_bind bind_eq_some_iff isSome_iff_exists)

variable {fields : List (String × Layout)} {type : Layout} {name : String}

/-- The bytes of a type, `0` for one without a layout. -/
def Layout.bytes (type : Layout) : ℕ := ((nativeSizeAlignment type).map Prod.fst).getD 0

/-- The bytes a field of a record of the given byte order has to hold for a value: a scalar in
the declared order, a vector element after element, and a nested record as it is, since its
own bytes are already in its own declared order. -/
def encode (native declared : Endianness) : Layout → List UInt8 → List UInt8
  | .vector length _ element, value =>
    (List.range length).flatMap fun i =>
      encode native declared element (slice (i * element.bytes) element.bytes value)
  | .packet _ _ _ _ _, value | .record _ _ _, value => value
  | .integer _ _, value | .index, value | .f32, value | .f64, value =>
    if declared = native then value else value.reverse

/-- Types whose whole bytes may be reversed in place of each leaf. -/
def Layout.plain : Layout → Bool
  | .vector length _ element => length = 1 && element.plain
  | .packet _ size _ _ _ | .record _ size _ => size = 1
  | .integer _ _ | .index | .f32 | .f64 => true

/-! ### Natural offsets -/

theorem le_alignUp (cursor alignment : ℕ) : cursor ≤ alignUp cursor alignment := by
  rw [alignUp]
  split <;> omega

theorem fieldOffsetsFrom_cons {cursor : ℕ} {rest : List (String × Layout)} {offsets : List ℕ}
    (h : fieldOffsetsFrom cursor ((name, type) :: rest) = some offsets) :
    ∃ alignment offset tail, nativeSizeAlignment type = some (type.bytes, alignment) ∧
      cursor ≤ offset ∧ fieldOffsetsFrom (offset + type.bytes) rest = some tail ∧
      offsets = offset :: tail := by
  rw [fieldOffsetsFrom] at h
  split at h
  · cases h
  · rename_i size alignment hsize
    have hbytes : type.bytes = size := by simp [bytes, hsize]
    dsimp only at h
    split at h
    · cases h
    · obtain ⟨tail, htail, rfl⟩ := map_eq_some_iff.mp h
      refine ⟨alignment, _, tail, ?_, le_alignUp cursor alignment, ?_, rfl⟩
      · rw [hbytes, hsize]
      · rw [hbytes, htail]

theorem fieldOffsetsFrom_length :
    ∀ {cursor : ℕ} {offsets : List ℕ}, fieldOffsetsFrom cursor fields = some offsets →
      offsets.length = fields.length := by
  induction fields with
  | nil =>
    intro cursor offsets h
    cases h
    rfl
  | cons field rest ih =>
    intro cursor offsets h
    obtain ⟨_, _, tail, _, _, htail, rfl⟩ := fieldOffsetsFrom_cons h
    simp [ih htail]

theorem fieldOffsetsFrom_sized :
    ∀ {cursor : ℕ} {offsets : List ℕ}, fieldOffsetsFrom cursor fields = some offsets →
      ∀ field ∈ fields, ∃ alignment,
        nativeSizeAlignment field.2 = some (field.2.bytes, alignment) := by
  induction fields with
  | nil => simp
  | cons field rest ih =>
    intro cursor offsets h other hother
    obtain ⟨alignment, _, tail, hsize, _, htail, rfl⟩ := fieldOffsetsFrom_cons h
    rcases mem_cons.mp hother with rfl | hother
    · exact ⟨alignment, hsize⟩
    · exact ih htail other hother

theorem fieldOffsetsFrom_pairwise :
    ∀ {cursor : ℕ} {offsets : List ℕ}, fieldOffsetsFrom cursor fields = some offsets →
      (∀ entry ∈ fields.zip offsets, cursor ≤ entry.2) ∧
      (fields.zip offsets).Pairwise (fun a b => a.2 + a.1.2.bytes ≤ b.2) := by
  induction fields with
  | nil => simp
  | cons field rest ih =>
    intro cursor offsets h
    obtain ⟨_, offset, tail, _, hle, htail, rfl⟩ := fieldOffsetsFrom_cons h
    obtain ⟨hfrom, hpair⟩ := ih htail
    rw [zip_cons_cons]
    refine ⟨?_, pairwise_cons.mpr ⟨hfrom, hpair⟩⟩
    intro entry hentry
    rcases mem_cons.mp hentry with rfl | hentry
    · exact hle
    · have := hfrom entry hentry
      omega

theorem derivedLayout_cons {offset : ℕ}
    {rest : List ((String × Layout) × ℕ)} {start derived : ℕ × ℕ}
    (h : derivedLayout (((name, type), offset) :: rest) start = some derived) :
    ∃ alignment, derivedLayout rest (offset + type.bytes, alignment) = some derived := by
  rw [derivedLayout] at h
  split at h
  · cases h
  · rename_i size alignment hsize
    have hbytes : type.bytes = size := by simp [bytes, hsize]
    exact ⟨_, by rw [hbytes]; exact h⟩

/-- Every field ends within the derived size. -/
theorem derivedLayout_le : ∀ {cursor : ℕ} {offsets : List ℕ} {start derived : ℕ × ℕ},
      fieldOffsetsFrom cursor fields = some offsets → start.1 ≤ cursor →
      derivedLayout (fields.zip offsets) start = some derived →
      start.1 ≤ derived.1 ∧
        ∀ entry ∈ fields.zip offsets, entry.2 + entry.1.2.bytes ≤ derived.1 := by
  induction fields with
  | nil =>
    intro cursor offsets start derived h _ hd
    cases h
    cases hd
    simp
  | cons field rest ih =>
    intro cursor offsets start derived h hstart hd
    obtain ⟨_, offset, tail, _, hle, htail, rfl⟩ := fieldOffsetsFrom_cons h
    rw [zip_cons_cons] at hd ⊢
    obtain ⟨alignment, hd⟩ := derivedLayout_cons hd
    obtain ⟨hend, hrest⟩ := ih htail le_rfl hd
    refine ⟨by omega, ?_⟩
    intro entry hentry
    rcases mem_cons.mp hentry with rfl | hentry
    · exact hend
    · exact hrest entry hentry

/-! ### C++ types -/

theorem bytes_pos {size alignment : ℕ}
    (h : nativeSizeAlignment type = some (size, alignment)) : 0 < size := by
  fun_induction nativeSizeAlignment type generalizing size alignment with
  | case1 width signless hw =>
    cases h
    have := hw.2.2
    simp only [mem_cons, not_mem_nil, or_false] at this
    omega
  | case4 | case5 => cases h; decide
  | case8 length positive element size' alignment' helement _ ih =>
    cases h
    exact Nat.mul_pos (ih helement) positive
  | case9 _ _ _ _ _ hpos | case11 _ _ _ hpos =>
    cases h
    exact hpos.1
  | _ => cases h

theorem sizeof_eq_bytes : ∀ {type : Layout} {cpp : CppType} {size alignment : ℕ},
    nativeQueueCppType type = some cpp → nativeSizeAlignment type = some (size, alignment) →
      cpp.sizeof = size
  | .integer width signless, cpp, size, alignment, hcpp, hsize => by
    unfold nativeSizeAlignment at hsize
    unfold nativeQueueCppType at hcpp
    split at hsize
    · rename_i hw
      cases hsize
      rw [if_pos hw.1] at hcpp
      split at hcpp <;> cases hcpp
      · simp at hw
      all_goals rfl
    · cases hsize
  | .index, _, _, _, _, hsize => by cases hsize
  | .f32, _, _, _, hcpp, hsize | .f64, _, _, _, hcpp, hsize => by cases hcpp; cases hsize; rfl
  | .vector length positive element, cpp, size, alignment, hcpp, hsize => by
    rw [nativeSizeAlignment] at hsize
    obtain ⟨cpp', helement, rfl⟩ := map_eq_some_iff.mp hcpp
    split at hsize
    · cases hsize
    · rename_i size' alignment' hsize'
      split at hsize
      · cases hsize
      · cases hsize
        rw [CppType.sizeof, sizeof_eq_bytes helement hsize', Nat.mul_comm]
  | .packet _ size' alignment' width fields, cpp, size, alignment, hcpp, hsize => by
    rw [nativeQueueCppType] at hcpp
    rw [nativeSizeAlignment] at hsize
    split at hsize
    · cases hsize
      split at hcpp
      · rename_i hmatch
        cases hcpp
        rw [packetLayoutMatches] at hmatch
        split at hmatch
        · cases hmatch
        · split at hmatch
          · cases hmatch
          · exact (of_decide_eq_true hmatch).2.1
      · cases hcpp
    · cases hsize
  | .record _ _ _, _, _, _, hcpp, _ => by cases hcpp

/-! ### Reversed fields -/

section Orient

variable {native declared : Endianness} {flag : Bool} {bytes : List UInt8} {size : ℕ}

@[simp] theorem length_orient : (orient native flag bytes).length = bytes.length := by
  rw [orient]
  split <;> simp

theorem orient_orient_of_ne {flag' : Bool} (h : flag' ≠ flag) :
    orient native flag' (orient native flag bytes) = bytes.reverse := by
  have hne : order flag' ≠ order flag := by
    cases flag <;> cases flag' <;> simp_all [order]
  unfold orient
  cases native <;> cases flag <;> cases flag' <;> simp_all [order]

theorem exists_reverse_ne (h : 1 < size) :
    ∃ bytes : List UInt8, bytes.length = size ∧ bytes.reverse ≠ bytes := by
  refine ⟨1 :: replicate (size - 1) 0, by simp; omega, ?_⟩
  intro heq
  have hhead := congrArg head? heq
  rw [reverse_cons, reverse_replicate, head?_append,
    show size - 1 = (size - 2) + 1 by omega, replicate_succ] at hhead
  simp at hhead

/-- Only a field of one byte equals its reversed bytes whatever it holds. -/
theorem reverse_eq_self_iff (hpos : 0 < size) :
    (∀ value : List UInt8, value.length = size → value.reverse = value) ↔
      decide (size = 1) = true := by
  rw [decide_eq_true_iff]
  constructor
  · intro h
    by_contra hsize
    obtain ⟨value, hvalue, hbad⟩ := exists_reverse_ne (show 1 < size by omega)
    exact hbad (h value hvalue)
  · rintro rfl value hvalue
    obtain ⟨b, rfl⟩ := length_eq_one_iff.mp hvalue
    rfl

end Orient

/-! ### The declared encoding -/

section Encode

variable {native declared : Endianness} {length : ℕ} {positive : 0 < length} {element : Layout}

theorem vector_bytes {size alignment : ℕ}
    (h : nativeSizeAlignment (.vector length positive element) = some (size, alignment)) :
    nativeSizeAlignment element = some (element.bytes, alignment) ∧
      size = length * element.bytes := by
  rw [nativeSizeAlignment] at h
  split at h
  · cases h
  · rename_i size' alignment' helement
    split at h
    · cases h
    · cases h
      have hbytes : element.bytes = size' := by simp [bytes, helement]
      rw [hbytes, Nat.mul_comm]
      exact ⟨helement, rfl⟩

theorem slice_replicate {offset size : ℕ} (h : offset + length ≤ size) :
    slice offset length (replicate size (0 : UInt8)) = replicate length 0 := by
  rw [slice, drop_replicate, take_replicate, Nat.min_eq_left (by omega)]

theorem encode_replicate : ∀ {type : Layout} {size alignment : ℕ},
    nativeSizeAlignment type = some (size, alignment) →
      encode native declared type (replicate size 0) = replicate size 0
  | .vector length positive element, size, alignment, hsize => by
    obtain ⟨helement, rfl⟩ := vector_bytes hsize
    rw [encode]
    have hblock : ∀ i ∈ List.range length,
        encode native declared element (slice (i * element.bytes) element.bytes
            (replicate (length * element.bytes) 0))
          = slice (i * element.bytes) element.bytes
              (replicate (length * element.bytes) 0) := by
      intro i hi
      have hle : i * element.bytes + element.bytes ≤ length * element.bytes := by
        rw [← Nat.succ_mul]
        exact Nat.mul_le_mul_right _ (mem_range.mp hi)
      rw [slice_replicate hle]
      exact encode_replicate helement
    rw [flatMap_congr hblock]
    exact flatMap_slice element.bytes length _ (by simp)
  | .packet _ _ _ _ _, _, _, _ | .record _ _ _, _, _, _ => rfl
  | .integer _ _, _, _, _ | .index, _, _, _ | .f32, _, _, _ | .f64, _, _, _ => by
    rw [encode]
    split <;> simp

theorem encode_vector_one {positive : 0 < 1} {element : Layout} {value : List UInt8}
    (h : value.length = element.bytes) : encode native declared (.vector 1 positive element) value
      = encode native declared element value := by
  rw [encode]
  simp [slice_zero_length h]

/-- The last byte of a vector of several elements is not a byte of its first element, so the
reversed vector starts with a byte the encoded one does not start with. -/
theorem exists_reverse_ne_encode_vector {alignment : ℕ} (hlength : 1 < length)
    (helement : nativeSizeAlignment element = some (element.bytes, alignment)) :
    ∃ value : List UInt8, value.length = length * element.bytes ∧
      value.reverse ≠ encode native declared (.vector length positive element) value := by
  obtain ⟨n, rfl⟩ : ∃ n, length = n + 2 := ⟨length - 2, by omega⟩
  have hpos : 0 < element.bytes := bytes_pos helement
  obtain ⟨b, hb⟩ : ∃ b, element.bytes = b + 1 := ⟨element.bytes - 1, by omega⟩
  have hsize : element.bytes ≤ (n + 2) * element.bytes - 1 := by
    have : 2 * element.bytes ≤ (n + 2) * element.bytes := Nat.mul_le_mul_right _ (by omega)
    omega
  refine ⟨replicate ((n + 2) * element.bytes - 1) 0 ++ [1], ?_, ?_⟩
  · simp only [length_append, length_replicate, length_singleton]
    omega
  intro heq
  have hfirst : slice (0 * element.bytes) element.bytes
      (replicate ((n + 2) * element.bytes - 1) (0 : UInt8) ++ [1])
      = replicate element.bytes 0 := by
    rw [slice, Nat.zero_mul, drop_zero, take_append_of_le_length (by simpa using hsize),
      take_replicate, Nat.min_eq_left hsize]
  have hhead := congrArg head? heq
  rw [encode, range_succ_eq_map, flatMap_cons, hfirst, encode_replicate helement, hb,
    replicate_succ] at hhead
  simp at hhead

theorem reverse_eq_encode_iff (hne : declared ≠ native) : ∀ {type : Layout} {size alignment : ℕ},
      nativeSizeAlignment type = some (size, alignment) →
        ((∀ value : List UInt8, value.length = size →
          value.reverse = encode native declared type value) ↔ type.plain = true)
  | .vector length positive element, size, alignment, hsize => by
    obtain ⟨helement, rfl⟩ := vector_bytes hsize
    have ih := reverse_eq_encode_iff hne helement
    rcases Nat.lt_or_ge 1 length with hlength | hlength
    · obtain ⟨value, hvalue, hbad⟩ :=
        @exists_reverse_ne_encode_vector native declared length positive element _ hlength helement
      have hplain : (vector length positive element).plain = false := by
        simp [plain, show length ≠ 1 by omega]
      rw [hplain]
      exact ⟨fun h => absurd (h value hvalue) hbad, nofun⟩
    · obtain rfl : length = 1 := by omega
      rw [Nat.one_mul]
      have hplain : (vector 1 positive element).plain = element.plain := by
        simp [plain]
      rw [hplain, ← ih]
      constructor
      · intro h value hvalue
        rw [h value hvalue, encode_vector_one hvalue]
      · intro h value hvalue
        rw [h value hvalue, encode_vector_one hvalue]
  | .packet e size' alignment' width fields, size, alignment, hsize
  | .record e size' alignment', size, alignment, hsize => by
    have hpos := bytes_pos hsize
    rw [nativeSizeAlignment] at hsize
    split at hsize
    · cases hsize
      exact reverse_eq_self_iff hpos
    · cases hsize
  | .integer _ _, _, _, _ | .index, _, _, _ | .f32, _, _, _ | .f64, _, _, _ => by
    simp [encode, hne, plain]

end Encode

/-! ### The helpers on one packet -/

namespace Packet

variable {native : Endianness} {p : Packet}
variable {offset : ℕ} {result : List UInt8} {type : Layout}

/-- The field at position `index`, with what the layout says of it. -/
structure Slot (p : Packet) (index : ℕ) (name : String) (type : Layout) (offset : ℕ) : Prop where
  field : p.fields[index]? = some (name, type)
  offset : ∃ offsets, recordFieldOffsets p.fields = some offsets ∧ offsets[index]? = some offset

variable {index : ℕ} {name : String}

theorem Slot.mem (h : p.Slot index name type offset) : (name, type) ∈ p.fields :=
  mem_of_getElem? h.field

theorem Slot.sized (h : p.Slot index name type offset) :
    ∃ alignment, nativeSizeAlignment type = some (type.bytes, alignment) := by
  obtain ⟨offsets, hoffsets, _⟩ := h.offset
  exact fieldOffsetsFrom_sized hoffsets _ h.mem

theorem Slot.getElem?_zip {offsets : List ℕ} (h : p.Slot index name type offset)
    (hoffsets : recordFieldOffsets p.fields = some offsets) :
    (p.fields.zip offsets)[index]? = some ((name, type), offset) := by
  obtain ⟨offsets', hoffsets', hoffset⟩ := h.offset
  obtain rfl : offsets' = offsets := Option.some.inj (hoffsets'.symm.trans hoffsets)
  simp [getElem?_zip_eq_some, h.field, hoffset]

theorem Slot.le_width (h : p.Slot index name type offset) (haccepted : p.Accepted) :
    offset + type.bytes ≤ p.width := by
  obtain ⟨offsets, hoffsets, _⟩ := h.offset
  have hmatch : packetLayoutMatches p.size p.alignment p.width p.fields = true := by
    by_contra hfalse
    simp [Accepted, layout, nativeQueueCppType, hfalse] at haccepted
  rw [packetLayoutMatches, hoffsets] at hmatch
  dsimp only at hmatch
  split at hmatch
  · cases hmatch
  · rename_i derivedSize derivedAlignment hderived
    obtain ⟨_, hwidth, hsize, _⟩ := of_decide_eq_true hmatch
    have hend := (derivedLayout_le hoffsets le_rfl hderived).2 _
      (mem_of_getElem? (h.getElem?_zip hoffsets))
    have hup := le_alignUp derivedSize derivedAlignment
    dsimp only at hend
    omega

/-- Two fields of an accepted packet do not meet. -/
theorem Slot.disjoint {i j offset' : ℕ} {name' : String} {type' : Layout}
    (h : p.Slot i name type offset) (h' : p.Slot j name' type' offset') (hne : i ≠ j) :
    offset' + type'.bytes ≤ offset ∨ offset + type.bytes ≤ offset' := by
  obtain ⟨offsets, hoffsets, _⟩ := h.offset
  have hpair := (fieldOffsetsFrom_pairwise hoffsets).2
  rw [pairwise_iff_getElem] at hpair
  obtain ⟨hi, hi'⟩ := List.getElem?_eq_some_iff.mp (h.getElem?_zip hoffsets)
  obtain ⟨hj, hj'⟩ := List.getElem?_eq_some_iff.mp (h'.getElem?_zip hoffsets)
  rcases Nat.lt_or_gt_of_ne hne with hlt | hgt
  · right
    simpa [hi', hj'] using hpair i j hi hj hlt
  · left
    simpa [hi', hj'] using hpair j i hj hi hgt

theorem fieldIndex_eq (h : p.fields[index]? = some (name, type)) :
    p.fieldIndex name = some index := by
  obtain ⟨hlt, hget⟩ := List.getElem?_eq_some_iff.mp h
  rw [fieldIndex, findIdx?_eq_some_iff_getElem]
  refine ⟨hlt, by simp [hget], ?_⟩
  intro j hj heq
  have hnodup := nodup_iff_getElem?_ne_getElem?.mp p.distinct j index hj (by simpa using hlt)
  have hname : p.fields[j].1 = name := of_decide_eq_true heq
  apply hnodup
  rw [getElem?_map, getElem?_map, h, getElem?_eq_getElem (by omega)]
  simp [hname]

theorem Slot.field_eq (h : p.Slot index name type offset) : p.field name = some (offset, type) := by
  obtain ⟨offsets, hoffsets, hoffset⟩ := h.offset
  simp [Packet.field, hoffsets, fieldIndex_eq h.field, hoffset, h.field]

theorem Accepted.slot (haccepted : p.Accepted) (h : p.fields[index]? = some (name, type)) :
    ∃ offset, p.Slot index name type offset := by
  have hmatch : packetLayoutMatches p.size p.alignment p.width p.fields = true := by
    by_contra hfalse
    simp [Accepted, layout, nativeQueueCppType, hfalse] at haccepted
  rw [packetLayoutMatches] at hmatch
  split at hmatch
  · cases hmatch
  · rename_i offsets hoffsets
    obtain ⟨hlt, _⟩ := List.getElem?_eq_some_iff.mp h
    have hlength := fieldOffsetsFrom_length hoffsets
    exact ⟨offsets[index], h, offsets, hoffsets, getElem?_eq_getElem (by omega)⟩

theorem Accepted.cpp (haccepted : p.Accepted) :
    nativeQueueCppType p.layout = some (.atomicPacket p.width) := by
  by_cases hmatch : packetLayoutMatches p.size p.alignment p.width p.fields
  · simp [layout, nativeQueueCppType, hmatch]
  · simp [Accepted, layout, nativeQueueCppType, hmatch] at haccepted

theorem order_accessBigEndian : order p.accessBigEndian = p.endianness := by
  cases h : p.endianness <;> simp [accessBigEndian, layout, declaresBigEndian, order, h]

theorem Slot.recordGet_eq {cpp : CppType} (h : p.Slot index name type offset)
    (haccepted : p.Accepted) (hcpp : nativeQueueCppType type = some cpp) (record : List UInt8) :
    p.recordGet native name record
      = some (orient native p.accessBigEndian (slice offset type.bytes record)) := by
  obtain ⟨alignment, hsize⟩ := h.sized
  simp [recordGet, h.field_eq, haccepted.cpp, hcpp, packetFieldGet, sizeof_eq_bytes hcpp hsize]

theorem Slot.recordWith_eq {cpp : CppType} (h : p.Slot index name type offset)
    (haccepted : p.Accepted) (hcpp : nativeQueueCppType type = some cpp)
    (record value : List UInt8) : p.recordWith native name record value
      = some (splice offset (orient native p.accessBigEndian value) record) := by
  simp [recordWith, h.field_eq, haccepted.cpp, hcpp, packetFieldSet]

/-! ### Creating a packet -/

section SetFields

variable {flag : Bool}

theorem length_setFields : ∀ (pairs : List (ℕ × List UInt8)) (packet : List UInt8),
    (∀ pair ∈ pairs, pair.1 + pair.2.length ≤ packet.length) →
      (setFields native flag pairs packet).length = packet.length := by
  intro pairs
  induction pairs with
  | nil => exact fun _ _ => rfl
  | cons pair rest ih =>
    intro packet hfit
    have hhead := hfit pair mem_cons_self
    have hlength : (packetFieldSet native pair.1 flag packet pair.2).length = packet.length :=
      length_splice (by simpa using hhead)
    rw [setFields, ih _ fun other hother => ?_, hlength]
    rw [hlength]
    exact hfit other (mem_cons_of_mem _ hother)

/-- The fields set later leave a range before them alone. -/
theorem slice_setFields_of_le {length : ℕ} : ∀ (pairs : List (ℕ × List UInt8))
    (packet : List UInt8), (∀ pair ∈ pairs, pair.1 + pair.2.length ≤ packet.length) →
      (∀ pair ∈ pairs, offset + length ≤ pair.1) →
      slice offset length (setFields native flag pairs packet) = slice offset length packet := by
  intro pairs
  induction pairs with
  | nil => exact fun _ _ _ => rfl
  | cons pair rest ih =>
    intro packet hfit hafter
    have hhead : pair.1 + (orient native flag pair.2).length ≤ packet.length := by
      simpa using hfit pair mem_cons_self
    have hlength := length_splice hhead
    rw [setFields, ih]
    · exact slice_splice_of_disjoint hhead (.inl (hafter pair mem_cons_self))
    · intro other hother
      rw [packetFieldSet, hlength]
      exact hfit other (mem_cons_of_mem _ hother)
    · exact fun other hother => hafter other (mem_cons_of_mem _ hother)

theorem slice_setFields : ∀ (pairs : List (ℕ × List UInt8)) (packet : List UInt8),
    (∀ pair ∈ pairs, pair.1 + pair.2.length ≤ packet.length) →
      pairs.Pairwise (fun a b => a.1 + a.2.length ≤ b.1) →
      ∀ pair ∈ pairs, slice pair.1 pair.2.length (setFields native flag pairs packet)
        = orient native flag pair.2 := by
  intro pairs
  induction pairs with
  | nil => simp
  | cons head rest ih =>
    intro packet hfit hpair pair hmem
    obtain ⟨hafter, hrest⟩ := pairwise_cons.mp hpair
    have hhead : head.1 + (orient native flag head.2).length ≤ packet.length := by
      simpa using hfit head mem_cons_self
    have hlength := length_splice hhead
    have hfit' : ∀ other ∈ rest, other.1 + other.2.length
        ≤ (packetFieldSet native head.1 flag packet head.2).length := by
      intro other hother
      rw [packetFieldSet, hlength]
      exact hfit other (mem_cons_of_mem _ hother)
    rw [setFields]
    rcases mem_cons.mp hmem with rfl | hmem
    · rw [slice_setFields_of_le rest _ hfit' hafter]
      have hsame := slice_splice hhead
      rwa [length_orient] at hsame
    · exact ih _ hfit' hrest pair hmem

end SetFields

/-- One value of the right size for each field, as the operands of `record.create` are. -/
def Typed (p : Packet) (values : List (List UInt8)) : Prop :=
  Forall₂ (fun field value => value.length = field.2.bytes) p.fields values

variable {values : List (List UInt8)} {index : ℕ} {name : String} {value : List UInt8} {α β : Type*}
    {f : α → Option β}

theorem Typed.length_eq (h : p.Typed values) (hfield : p.fields[index]? = some (name, type))
    (hvalue : values[index]? = some value) : value.length = type.bytes := by
  obtain ⟨hlt, hget⟩ := List.getElem?_eq_some_iff.mp hfield
  obtain ⟨hlt', hget'⟩ := List.getElem?_eq_some_iff.mp hvalue
  have hboth := Forall₂.get h hlt hlt'
  simpa [hget, hget'] using hboth

/-- Every field has a C++ type, so that `record.create` is lowered. -/
def Creatable (p : Packet) : Prop :=
  ∀ field ∈ p.fields, (nativeQueueCppType field.2).isSome

theorem mapM_eq_some_map {g : α → β} :
    ∀ {l : List α}, (∀ a ∈ l, f a = some (g a)) → l.mapM f = some (l.map g) := by
  intro l
  induction l with
  | nil => exact fun _ => rfl
  | cons a l ih =>
    intro h
    simp [h a mem_cons_self, ih fun b hb => h b (mem_cons_of_mem _ hb)]

/-- A created packet holds each value where its field lies, turned by the flag of the
helper. -/
theorem recordCreate_eq (haccepted : p.Accepted) (hcreatable : p.Creatable)
    {values : List (List UInt8)} (htyped : p.Typed values) :
    ∃ result, p.recordCreate native values = some result ∧ result.length = p.width ∧
      ∀ index name type offset value, p.Slot index name type offset →
        values[index]? = some value →
          slice offset type.bytes result = orient native p.createBigEndian value := by
  let locate : String × Layout → ℕ × Layout := fun entry => (p.field entry.1).getD (0, .index)
  have hlocate : ∀ entry ∈ p.fields, p.field entry.1 = some (locate entry) := by
    intro entry hentry
    obtain ⟨index, hindex⟩ := getElem?_of_mem hentry
    obtain ⟨offset, hslot⟩ := haccepted.slot hindex
    simp [locate, hslot.field_eq]
  have hcpp : ∀ entry ∈ p.fields,
      nativeQueueCppType entry.2 = some ((nativeQueueCppType entry.2).getD .bool) := by
    intro entry hentry
    obtain ⟨cpp, hcpp⟩ := isSome_iff_exists.mp (hcreatable entry hentry)
    simp [hcpp]
  -- the pairs the helper goes through: a slot and the value of its field
  let pairs := ((p.fields.map locate).map Prod.fst).zip values
  have hpairs : ∀ index pair, pairs[index]? = some pair →
      ∃ name type, p.Slot index name type pair.1 ∧ values[index]? = some pair.2 ∧
        pair.2.length = type.bytes := by
    intro index pair hpair
    obtain ⟨hfst, hsnd⟩ := getElem?_zip_eq_some.mp hpair
    rw [map_map, getElem?_map] at hfst
    obtain ⟨⟨name, type⟩, hfield, hlocated⟩ := map_eq_some_iff.mp hfst
    obtain ⟨offset, hslot⟩ := haccepted.slot hfield
    have hoffset : pair.1 = offset := by
      simpa [locate, hslot.field_eq] using hlocated.symm
    rw [hoffset]
    exact ⟨name, type, hslot, hsnd, htyped.length_eq hfield hsnd⟩
  have hfit : ∀ pair ∈ pairs,
      pair.1 + pair.2.length ≤ (replicate p.width (0 : UInt8)).length := by
    intro pair hpair
    obtain ⟨index, hindex⟩ := getElem?_of_mem hpair
    obtain ⟨name, type, hslot, _, hlength⟩ := hpairs index pair hindex
    rw [hlength, length_replicate]
    exact hslot.le_width haccepted
  have hpairwise : pairs.Pairwise (fun a b => a.1 + a.2.length ≤ b.1) := by
    rw [pairwise_iff_getElem]
    intro i j hi hj hij
    obtain ⟨name, type, hslot, _, hlength⟩ := hpairs i _ (getElem?_eq_getElem hi)
    obtain ⟨name', type', hslot', _, _⟩ := hpairs j _ (getElem?_eq_getElem hj)
    obtain ⟨offsets, hoffsets, _⟩ := hslot.offset
    have hordered := (fieldOffsetsFrom_pairwise hoffsets).2
    rw [pairwise_iff_getElem] at hordered
    obtain ⟨hi', hgeti⟩ := List.getElem?_eq_some_iff.mp (hslot.getElem?_zip hoffsets)
    obtain ⟨hj', hgetj⟩ := List.getElem?_eq_some_iff.mp (hslot'.getElem?_zip hoffsets)
    rw [hlength]
    simpa [hgeti, hgetj] using hordered i j hi' hj' hij
  refine ⟨setFields native p.createBigEndian pairs (replicate p.width 0), ?_, ?_, ?_⟩
  · simp only [recordCreate, haccepted.cpp, mapM_eq_some_map hcpp, mapM_eq_some_map hlocate]
    rfl
  · rw [length_setFields pairs _ hfit, length_replicate]
  · intro index name type offset value hslot hvalue
    have hmem : (offset, value) ∈ pairs := by
      refine mem_of_getElem? (i := index) ?_
      rw [getElem?_zip_eq_some, map_map, getElem?_map, hslot.field]
      exact ⟨by simp [locate, hslot.field_eq], hvalue⟩
    have hlength := htyped.length_eq hslot.field hvalue
    rw [← hlength]
    exact slice_setFields pairs _ hfit hpairwise _ hmem

/-! ### The laws -/

/-- What the helpers of one packet type have to satisfy: the laws of a record, the round trip
through the serialized bytes, and every field that `create` or `with` writes holds the
declared encoding of its value. -/
structure RecordLaws (native : Endianness) (p : Packet) : Prop where
  get_create : ∀ values result, p.Typed values → p.recordCreate native values = some result →
    ∀ (index : ℕ) name type value, p.fields[index]? = some (name, type) →
      values[index]? = some value → p.recordGet native name result = some value
  get_with : ∀ name record value result offset type, p.field name = some (offset, type) →
    record.length = p.width → value.length = type.bytes →
      p.recordWith native name record value = some result →
        p.recordGet native name result = some value
  get_with_other : ∀ name other record value result offset type,
    p.field name = some (offset, type) → record.length = p.width → value.length = type.bytes →
      p.recordWith native name record value = some result → other ≠ name →
        p.recordGet native other result = p.recordGet native other record
  deserialize_serialize : ∀ record : List UInt8,
    packetDeserializeBytes (packetSerializeBytes record) = record
  create_encodes : ∀ values result, p.Typed values → p.recordCreate native values = some result →
    ∀ (index : ℕ) name type offset value, p.fields[index]? = some (name, type) →
      p.field name = some (offset, type) → values[index]? = some value →
        slice offset type.bytes result = encode native p.endianness type value
  with_encodes : ∀ name record value result offset type, p.field name = some (offset, type) →
    record.length = p.width → value.length = type.bytes →
      p.recordWith native name record value = some result →
        slice offset type.bytes result = encode native p.endianness type value

/-- The packets that keep the laws.  The declared byte order is the one of the host, or no
field that can be written is harmed by reversing it whole; and, where the packet can be
created, `create` reverses as the accessors do, or every field is a single byte. -/
structure Consistent (native : Endianness) (p : Packet) : Prop where
  fields : p.endianness = native ∨
    ∀ field ∈ p.fields, (nativeQueueCppType field.2).isSome → field.2.plain = true
  create : p.Creatable →
    p.createBigEndian = p.accessBigEndian ∨ ∀ field ∈ p.fields, field.2.bytes = 1

theorem exists_typed (hslot : p.Slot index name type offset) (hvalue : value.length = type.bytes) :
    ∃ values, p.Typed values ∧ values[index]? = some value := by
  obtain ⟨hlt, hget⟩ := List.getElem?_eq_some_iff.mp hslot.field
  let zeros := p.fields.map fun field => replicate field.2.bytes (0 : UInt8)
  refine ⟨zeros.set index value, ?_, ?_⟩
  · rw [Typed, forall₂_iff_get]
    refine ⟨by simp [zeros], ?_⟩
    intro i hi hi'
    simp only [get_eq_getElem, getElem_set, zeros]
    split
    · rename_i heq
      subst heq
      rw [hget, hvalue]
    · simp
  · rw [getElem?_set_self (by simpa [zeros] using hlt)]

section Accepted

variable (haccepted : p.Accepted)

include haccepted

variable {name : String} {record value : List UInt8}

theorem Slot.slice_recordWith {index : ℕ} (h : p.Slot index name type offset)
    (hrecord : record.length = p.width) (hvalue : value.length = type.bytes) :
    slice offset type.bytes (splice offset (orient native p.accessBigEndian value) record)
      = orient native p.accessBigEndian value := by
  have hle := h.le_width haccepted
  have hsame : offset + (orient native p.accessBigEndian value).length ≤ record.length := by
    rw [length_orient, hvalue, hrecord]
    exact hle
  have := slice_splice hsame
  rwa [length_orient, hvalue] at this

/-- A packet that keeps the laws keeps the conditions. -/
theorem RecordLaws.consistent (h : p.RecordLaws native) : p.Consistent native where
  fields := by
    by_cases hnative : p.endianness = native
    · exact .inl hnative
    · right
      rintro ⟨name, type⟩ hmem hcpp
      obtain ⟨index, hindex⟩ := getElem?_of_mem hmem
      obtain ⟨offset, hslot⟩ := haccepted.slot hindex
      obtain ⟨cpp, hcpp⟩ := isSome_iff_exists.mp hcpp
      obtain ⟨alignment, hsize⟩ := hslot.sized
      apply (reverse_eq_encode_iff hnative hsize).mp
      intro value hvalue
      have hrecord : (replicate p.width (0 : UInt8)).length = p.width :=
        length_replicate
      rw [← h.with_encodes name _ value _ offset type hslot.field_eq hrecord hvalue
        (hslot.recordWith_eq haccepted hcpp _ value),
        hslot.slice_recordWith haccepted hrecord hvalue, orient, order_accessBigEndian,
        if_neg hnative]
  create hcreatable := by
    by_cases hflag : p.createBigEndian = p.accessBigEndian
    · exact .inl hflag
    · right
      rintro ⟨name, type⟩ hmem
      obtain ⟨index, hindex⟩ := getElem?_of_mem hmem
      obtain ⟨offset, hslot⟩ := haccepted.slot hindex
      obtain ⟨cpp, hcpp⟩ := isSome_iff_exists.mp (hcreatable _ hmem)
      obtain ⟨alignment, hsize⟩ := hslot.sized
      apply of_decide_eq_true
      rw [← reverse_eq_self_iff (bytes_pos hsize)]
      intro value hvalue
      obtain ⟨values, htyped, hat⟩ := exists_typed hslot hvalue
      obtain ⟨result, hcreate, _, hslices⟩ :=
        @recordCreate_eq native p haccepted hcreatable values htyped
      have hget := h.get_create values result htyped hcreate index name type value hindex hat
      rw [hslot.recordGet_eq haccepted hcpp, hslices _ _ _ _ _ hslot hat,
        orient_orient_of_ne (Ne.symm hflag)] at hget
      exact Option.some.inj hget

end Accepted

end Packet

end AgenticCircuit.CodeGen
