import AgenticCircuit.CodeGen.ScalarArithmetic
import Mathlib.Data.List.Forall2

/-! # Where the emitted C++ computes the IR's values

A C++ variable may hold an `i1`, `i8` or `i16` as an `int` (`Holds`), and the next expression
reads it in that type.  For each operation `ScalarOperation.exact` says whether its expression
computes the value; `operation_decided` shows that it does exactly then and that the variable
holds the value afterwards, and `computesValues_iff_exact` follows by induction over the
sequence. -/

namespace AgenticCircuit.CodeGen

open Cpp Option IntegerType ScalarOperation Expr Scalar Bool

/-- Where the C++ of a comparison computes its value; `left` is the C++ type of the first
operand. -/
def Predicate.exact (type : ScalarType) (x y : ℤ) (left : Option IntegerType)
    (predicate : Predicate) : Bool :=
  if predicate.isSigned then
    match type with
    | .i1 => x == y
    | .index => decide (x < 2 ^ 63) == decide (y < 2 ^ 63)
    | .i8 | .i16 | .i32 | .i64 => true
  else if predicate.isUnsigned then left != some .bool
  else true

/-- A conversion to `bool` tests against zero. -/
def lowBit (x : ℤ) : Bool := x == 0 || x % 2 == 1

def CastOperation.exact (source target : ScalarType) (x : ℤ) : CastOperation → Bool
  | extui => source == .i1 || decide (0 ≤ x)
  | extsi => source != .i1 || x == 0
  | trunci => target != .i1 || lowBit x
  | indexCast | indexCasts => (source != .i1 || x == 0) && (target != .i1 || lowBit x)
  | indexCastu =>
    (source == .i1 || source == .i64 || decide (0 ≤ x)) && (target != .i1 || lowBit x)

/-- Where the C++ of an operation computes its value.  `types` are the C++ types of the earlier
variables. -/
def ScalarOperation.exact (env : List Scalar) (types : List IntegerType) :
    ScalarOperation → Bool
  | constant _ value => value != -2 ^ 63
  | binary operation left right =>
    match env[left]?, env[right]? with
    | some x, some y => operation.exact x.type x.value y.value
    | _, _ => true
  | cmpi predicate left right =>
    match env[left]?, env[right]? with
    | some x, some y => predicate.exact x.type x.value y.value types[left]?
    | _, _ => true
  | indexCmp _ _ _ | select _ _ _ => true
  | cast operation target operand =>
    match env[operand]? with
    | some x => operation.exact x.type target x.value
    | none => true

/-! ### Variables and their values -/

open ScalarType

/-- The variable holds the value, in the declared type or in the one C++ computes in. -/
structure Holds (v : Scalar) (c : Value) : Prop where
  valid : v.Valid
  value : c.value = v.value
  type : c.type = v.type.cppType ∨ c.type = v.type.computing

namespace Holds

variable {v v' : Scalar} {c c' : Value} {t : ScalarType} {z : ℤ}

theorem computed (h : t.ofInt z = z) : Holds ⟨t, z⟩ ⟨t.computing, z⟩ := ⟨h, rfl, .inr rfl⟩

theorem declared (h : t.ofInt z = z) : Holds ⟨t, z⟩ ⟨t.cppType, z⟩ := ⟨h, rfl, .inl rfl⟩

theorem promote (h : Holds v c) : c.type.promote = v.type.computing := by
  obtain ⟨t, z⟩ := v
  rcases h.type with h | h <;> rw [h] <;> cases t <;> rfl

theorem common (h : Holds v c) (h' : Holds v' c') (ht : v.type = v'.type) :
    c.type.common c'.type = v.type.computing := by
  obtain ⟨t, z⟩ := v
  obtain ⟨t', z'⟩ := v'
  obtain rfl : t = t' := ht
  rcases h.type with h | h <;> rcases h'.type with h' | h' <;> rw [h, h'] <;> cases t <;> rfl

theorem convert_type (h : Holds v c) : c.type.convert v.value = v.value := by
  have hr := ofInt_eq_self_iff.mp h.valid
  have hc := convert_computing h.valid
  rcases h.type with ht | ht <;> rw [ht]
  · obtain ⟨t, z⟩ := v
    cases t with
    | i1 =>
      simp only [cppType, convert]
      dsimp only at hr
      split <;> omega
    | _ => exact h.valid
  · exact hc

end Holds

theorem lookup_holds {env : List Scalar} {cenv : List Value} (h : List.Forall₂ Holds env cenv)
    {i : ℕ} {v : Scalar} (hi : env[i]? = some v) : ∃ c, cenv[i]? = some c ∧ Holds v c := by
  induction h generalizing i with
  | nil => cases hi
  | cons hvc _ ih =>
    cases i with
    | zero =>
      cases hi
      exact ⟨_, rfl, hvc⟩
    | succ i => exact ih hi

/-! ### Emitted expressions -/

section Expressions

variable {env : List Scalar} {cenv : List Value} {left right : ℕ} {x y : Scalar} {a b : Value}

section

variable (ha : cenv[left]? = some a) (hb : cenv[right]? = some b) (hx : Holds x a) (hy : Holds y b)

include ha hb hx hy

theorem eval_arithmetic (ht : x.type = y.type) (operator : Arithmetic) :
    (arithmetic operator (.var left) (.var right)).eval cenv =
      (operator.eval x.type.computing x.value y.value).map fun z => ⟨x.type.computing, z⟩ := by
  have hcx := convert_computing hx.valid
  have hcy := convert_computing hy.valid
  rw [← ht] at hcy
  simp only [eval, ha, hb, bind_eq_bind, bind_some, hx.common hy ht, hx.value, hy.value, hcx, hcy]
  cases operator.eval x.type.computing x.value y.value <;> rfl

theorem eval_shift (operator : Shift) : (shift operator (.var left) (.var right)).eval cenv =
      (operator.eval x.type.computing x.value y.value).map fun z => ⟨x.type.computing, z⟩ := by
  simp only [eval, ha, hb, bind_eq_bind, bind_some, hx.promote, hy.promote,
    hx.value, hy.value, convert_computing hx.valid, convert_computing hy.valid]
  cases operator.eval x.type.computing x.value y.value <;> rfl

theorem eval_compare (ht : x.type = y.type) (relation : Relation) :
    (compare relation (.var left) (.var right)).eval cenv =
      some ⟨.bool, (relation.eval x.value y.value).toInt⟩ := by
  have hcx := convert_computing hx.valid
  have hcy := convert_computing hy.valid
  rw [← ht] at hcy
  simp [eval, ha, hb, hx.common hy ht, hx.value, hy.value, hcx, hcy]

end

end Expressions

/-- The type in which C++ computes on the unsigned readings. -/
def unsignedComputing : ScalarType → IntegerType
  | i1 | i8 | i16 => .int32
  | i32 => .uint32
  | i64 | index => .uint64

section Unsigned

variable {t : ScalarType} {x y z : ℤ}

theorem unsigned_nonneg (t : ScalarType) (x : ℤ) : 0 ≤ t.unsigned x ∧ t.unsigned x < 2 ^ t.width :=
  ⟨Int.emod_nonneg _ (by positivity), Int.emod_lt_of_pos _ (by positivity)⟩

theorem convert_unsignedComputing (hl : 0 ≤ z) (hu : z < 2 ^ t.width) :
    (unsignedComputing t).convert z = z := by
  cases t <;>
    simp [unsignedComputing, convert, isSigned, bits,
      signedWrap, width] at hl hu ⊢ <;> omega

theorem checked_unsignedComputing (hl : 0 ≤ z) (hu : z < 2 ^ t.width) :
    (unsignedComputing t).checked z = some z := by
  have hc := convert_unsignedComputing hl hu
  cases t <;> simp_all [checked]

theorem makeUnsigned_cppType (h : t ≠ i1) :
    ∃ u, t.cppType.makeUnsigned = some u ∧ u.convert x = t.unsigned x ∧
      u.convert y = t.unsigned y ∧ u.common u = unsignedComputing t ∧
      u.promote = unsignedComputing t := by
  cases t with
  | i1 => exact absurd rfl h
  | _ => exact ⟨_, rfl, rfl, rfl, rfl, rfl⟩

theorem convert_cppType (h : t ≠ i1) : t.cppType.convert z = t.ofInt z := by
  cases t with
  | i1 => exact absurd rfl h
  | _ => rfl

end Unsigned

theorem BinaryOperation.evaluate_valid {t : ScalarType} {x y z : ℤ} {operation : BinaryOperation}
    (h : operation.evaluate t x y = some z) : t.ofInt z = z := by
  cases operation with
  | addi | subi | muli | andi | ori | xori =>
    cases h
    exact ofInt_ofInt
  | divui | divsi | remui | remsi =>
    simp only [evaluate] at h
    split at h
    · cases h
    · cases h
      exact ofInt_ofInt
  | shli | shrui | shrsi =>
    simp only [evaluate] at h
    split at h
    · cases h
      exact ofInt_ofInt
    · cases h

/-- Whether the C++ expression computes the value is decided by `exact`; where it does, its
variable holds the value. -/
structure Decided (o : Option Value) (v : Scalar) (exact : Bool) : Prop where
  iff : (∃ c, o = some c ∧ c.value = v.value) ↔ exact = true
  holds : ∀ c, o = some c → c.value = v.value → Holds v c

namespace Decided

variable {t : ScalarType} {z : ℤ} {o : Option ℤ} {v : Scalar} {c : Value} {exact : Bool}

theorem computed (hvalid : t.ofInt z = z) (h : o = some z ↔ exact = true) :
    Decided (o.map fun z => ⟨t.computing, z⟩) ⟨t, z⟩ exact := by
  constructor
  · rw [← h]
    cases o <;> simp
  · intro c hc hz
    obtain ⟨z', -, rfl⟩ := map_eq_some_iff.mp hc
    obtain rfl : z' = z := hz
    exact .computed hvalid

theorem of_holds (h : Holds v c) : Decided (some c) v true := by
  constructor
  · simp [h.value]
  · intro c' hc _
    cases hc
    exact h

theorem none : Decided none v false := ⟨by simp, nofun⟩

theorem declared {z' : ℤ} (hvalid : t.ofInt z = z) (h : z' = z ↔ exact = true) :
    Decided (some ⟨t.cppType, z'⟩) ⟨t, z⟩ exact := by
  constructor
  · simp [h]
  · intro c hc hz
    cases hc
    obtain rfl : z' = z := hz
    exact .declared hvalid

end Decided

section Steps

variable {cenv : List Value} {left right : ℕ} {x y : Scalar} {a b : Value}
  {operation : BinaryOperation} {z : ℤ}

section

variable (ha : cenv[left]? = some a) (hb : cenv[right]? = some b) (hx : Holds x a) (hy : Holds y b)

include ha hb hx hy

/-- An operator on the unsigned readings of two variables. -/
theorem eval_unsigned_arithmetic (h1 : x.type ≠ .i1) {operator : Arithmetic} {q : ℤ}
    (hq :
      operator.eval (unsignedComputing x.type) (x.type.unsigned x.value) (x.type.unsigned y.value) =
      some q) :
    (staticCast (.named x.type.cppType)
      (.arithmetic operator (unsignedValue left (.named x.type.cppType))
        (unsignedValue right (.named x.type.cppType)))).eval cenv =
      some ⟨x.type.cppType, x.type.ofInt q⟩ := by
  obtain ⟨u, hu, hux, huy, hcommon, -⟩ := makeUnsigned_cppType (x := x.value) (y := y.value) h1
  obtain ⟨hxl, hxu⟩ := unsigned_nonneg x.type x.value
  obtain ⟨hyl, hyu⟩ := unsigned_nonneg x.type y.value
  simp [unsignedValue, eval, TypeName.resolve, ha, hb, hu, hx.value, hy.value, hux, huy, hcommon,
    convert_unsignedComputing hxl hxu, convert_unsignedComputing hyl hyu, hq, convert_cppType h1]

theorem eval_unsigned_shift (h1 : x.type ≠ .i1) {operator : Shift} {q : ℤ}
    (hq :
      operator.eval (unsignedComputing x.type) (x.type.unsigned x.value) (x.type.unsigned y.value) =
      some q) :
    (staticCast (.named x.type.cppType)
      (.shift operator (unsignedValue left (.named x.type.cppType))
        (unsignedValue right (.named x.type.cppType)))).eval cenv =
      some ⟨x.type.cppType, x.type.ofInt q⟩ := by
  obtain ⟨u, hu, hux, huy, -, hpromote⟩ := makeUnsigned_cppType (x := x.value) (y := y.value) h1
  obtain ⟨hxl, hxu⟩ := unsigned_nonneg x.type x.value
  obtain ⟨hyl, hyu⟩ := unsigned_nonneg x.type y.value
  simp [unsignedValue, eval, TypeName.resolve, ha, hb, hu, hx.value, hy.value, hux, huy, hpromote,
    convert_unsignedComputing hxl hxu, convert_unsignedComputing hyl hyu, hq, convert_cppType h1]

/-- Division, remainder and shift of unsigned readings. -/
theorem eval_unsigned_binary (h1 : x.type ≠ .i1)
    (hop : operation = .divui ∨ operation = .remui ∨ operation = .shrui)
    (hz : operation.evaluate x.type x.value y.value = some z) :
    (binaryExpression x.type left right operation).eval cenv = some ⟨x.type.cppType, z⟩ := by
  obtain ⟨hxl, hxu⟩ := unsigned_nonneg x.type x.value
  obtain ⟨hyl, hyu⟩ := unsigned_nonneg x.type y.value
  have hdiv : (unsignedComputing x.type).checked
      ((x.type.unsigned x.value).tdiv (x.type.unsigned y.value)) =
      some (x.type.unsigned x.value / x.type.unsigned y.value) := by
    rw [Int.tdiv_eq_ediv_of_nonneg hxl]
    exact checked_unsignedComputing (Int.ediv_nonneg hxl hyl)
      (lt_of_le_of_lt (Int.ediv_le_self _ hxl) hxu)
  rcases hop with rfl | rfl | rfl <;> simp only [BinaryOperation.evaluate] at hz <;>
    split at hz
  · cases hz
  · next hdefined =>
    obtain rfl := some.inj hz
    apply eval_unsigned_arithmetic ha hb hx hy h1
    rw [Arithmetic.eval, if_neg hdefined, hdiv]
  · cases hz
  · next hdefined =>
    obtain rfl := some.inj hz
    apply eval_unsigned_arithmetic ha hb hx hy h1
    rw [Arithmetic.eval, if_neg hdefined, hdiv, map_some, Int.tmod_eq_emod_of_nonneg hxl]
  · next hamount =>
    obtain rfl := some.inj hz
    apply eval_unsigned_shift ha hb hx hy h1
    have hbits : x.type.width ≤ (unsignedComputing x.type).bits := by
      cases x.type <;> decide
    have hlt : x.type.unsigned y.value < (unsignedComputing x.type).bits :=
      lt_of_lt_of_le hamount (by exact_mod_cast hbits)
    rw [Shift.eval, if_pos ⟨hyl, hlt⟩]
  · cases hz

theorem binary_decided (ht : x.type = y.type)
    (hz : operation.evaluate x.type x.value y.value = some z) :
    Decided ((binaryExpression x.type left right operation).eval cenv) ⟨x.type, z⟩
      (operation.exact x.type x.value y.value) := by
  have hvalid := BinaryOperation.evaluate_valid hz
  have hyv : x.type.ofInt y.value = y.value := by
    rw [ht]
    exact hy.valid
  have harith := eval_arithmetic ha hb hx hy ht
  have hshift := eval_shift ha hb hx hy
  cases operation with
  | addi | subi | muli =>
    cases hz
    rw [binaryExpression, harith]
    apply Decided.computed hvalid
    rw [Arithmetic.eval, checked_computing_iff]
    simp [BinaryOperation.exact, inRange]
  | divsi =>
    rw [binaryExpression, harith]
    exact .computed hvalid (divsi_exact_iff hx.valid hyv hz)
  | remsi =>
    rw [binaryExpression, harith]
    exact .computed hvalid (remsi_exact_iff hx.valid hyv hz)
  | andi =>
    cases hz
    rw [binaryExpression, harith, Arithmetic.eval, and_exact hx.valid hyv]
    exact .computed hvalid (by simp [BinaryOperation.exact])
  | ori =>
    cases hz
    rw [binaryExpression, harith, Arithmetic.eval, or_exact hx.valid hyv]
    exact .computed hvalid (by simp [BinaryOperation.exact])
  | xori =>
    cases hz
    rw [binaryExpression, harith, Arithmetic.eval, xor_exact hx.valid hyv]
    exact .computed hvalid (by simp [BinaryOperation.exact])
  | shli =>
    rw [binaryExpression, hshift]
    exact .computed hvalid (shli_exact_iff hx.valid hyv hz)
  | shrsi =>
    rw [binaryExpression, hshift]
    exact .computed hvalid (shrsi_exact_iff hx.valid hyv hz)
  | divui | remui | shrui =>
    by_cases h1 : x.type = .i1
    · -- `std::make_unsigned_t<bool>` is ill-formed.
      rw [h1]
      exact .none
    · rw [eval_unsigned_binary ha hb hx hy h1 (by simp) hz]
      exact .declared hvalid (by simp [BinaryOperation.exact, h1])

end

/-! ### Comparisons -/

/-- The unsigned type of the first operand orders the operands as the unsigned readings are
ordered. -/
theorem makeUnsigned_operand (hx : Holds x a) (hy : x.type.ofInt y.value = y.value)
    (hb : a.type ≠ .bool) : ∃ u, a.type.makeUnsigned = some u ∧
      (u.common u).convert (u.convert x.value) = u.convert x.value ∧
      (u.common u).convert (u.convert y.value) = u.convert y.value ∧
      (u.convert x.value < u.convert y.value ↔ x.type.unsigned x.value < x.type.unsigned y.value) ∧
      (u.convert y.value < u.convert x.value ↔
        x.type.unsigned y.value < x.type.unsigned x.value) := by
  have hrx := ofInt_eq_self_iff.mp hx.valid
  have hry := ofInt_eq_self_iff.mp hy
  obtain ⟨t, z⟩ := x
  obtain ⟨t', z'⟩ := y
  rcases hx.type with h | h <;> rw [h] at hb ⊢ <;> cases t <;>
    simp [cppType, computing, makeUnsigned, common, promote,
      convert, isSigned, bits, signedWrap, unsigned,
      width] at hrx hry hb ⊢ <;> omega

theorem toInt_valid (value : Bool) : i1.ofInt value.toInt = value.toInt := by
  cases value <;> decide

theorem toInt_inj {p q : Bool} : p.toInt = q.toInt ↔ p = q := by
  cases p <;> cases q <;> decide

section

variable (hx : x.Valid) (hy : x.type.ofInt y.value = y.value)

include hx hy

variable {predicate : Predicate}

theorem signed_relation_iff (hs : predicate.isSigned = true) (left : Option IntegerType) :
    predicate.relation.eval x.value y.value =
        predicate.relation.eval (x.type.signed x.value) (x.type.signed y.value) ↔
      predicate.exact x.type x.value y.value left = true := by
  have hrx := ofInt_eq_self_iff.mp hx
  have hry := ofInt_eq_self_iff.mp hy
  obtain ⟨t, z⟩ := x
  obtain ⟨t', z'⟩ := y
  cases predicate <;> simp only [Predicate.isSigned, false_eq_true] at hs <;> cases t <;>
    simp [Predicate.exact, Predicate.isSigned, Predicate.relation, Relation.eval, signed,
      signedWrap, width] at hrx hry ⊢ <;> omega

theorem unsigned_eq_iff :
    x.value = y.value ↔ x.type.unsigned x.value = x.type.unsigned y.value := by
  have hrx := ofInt_eq_self_iff.mp hx
  have hry := ofInt_eq_self_iff.mp hy
  obtain ⟨t, z⟩ := x
  obtain ⟨t', z'⟩ := y
  cases t <;> simp [unsigned, width] at hrx hry ⊢ <;> omega

/-- `eq` and `ne` do not depend on the reading. -/
theorem equality_relation (hs : predicate.isSigned = false) (hu : predicate.isUnsigned = false) :
    predicate.relation.eval x.value y.value =
      predicate.relation.eval (x.type.unsigned x.value) (x.type.unsigned y.value) := by
  have heq := unsigned_eq_iff hx hy
  cases predicate <;> simp_all [Predicate.isSigned, Predicate.isUnsigned, Predicate.relation,
    Relation.eval, bne]

end

variable {t target : ScalarType} {z : ℤ} {operation : CastOperation}

theorem cmpi_decided (ha : cenv[left]? = some a) (hb : cenv[right]? = some b)
    (hx : Holds x a) (hy : Holds y b) (ht : x.type = y.type) (predicate : Predicate) :
    Decided ((comparisonExpression false predicate left right (.decltypeOf left)).eval cenv)
      ⟨.i1, predicate.evaluate x.type x.value y.value⟩
      (predicate.exact x.type x.value y.value (some a.type)) := by
  have hyv : x.type.ofInt y.value = y.value := by
    rw [ht]
    exact hy.valid
  have hta : (cenv.map Value.type)[left]? = some a.type := by simp [ha]
  cases hs : predicate.isSigned with
  | true =>
    have hu : predicate.isUnsigned = false := by
      revert hs
      cases predicate <;> decide
    simp only [comparisonExpression, hu, Bool.false_and, false_eq_true, if_false,
      eval_compare ha hb hx hy ht, Predicate.evaluate, hs]
    apply Decided.declared (toInt_valid _)
    rw [toInt_inj]
    exact signed_relation_iff hx.valid hyv hs _
  | false =>
    cases hu : predicate.isUnsigned with
    | false =>
      simp only [comparisonExpression, hu, Bool.false_and, false_eq_true, if_false,
        eval_compare ha hb hx hy ht, Predicate.evaluate, hs, Predicate.exact]
      apply Decided.declared (toInt_valid _)
      simpa [toInt_inj] using equality_relation hx.valid hyv hs hu
    | true =>
      simp only [comparisonExpression, hu, if_true, unsignedValue, eval, TypeName.resolve, hta, ha,
        hb, bind_eq_bind, Predicate.evaluate, hs, Predicate.exact]
      by_cases hbool : a.type = .bool
      · rw [hbool]
        exact .none
      · obtain ⟨u, hu', hcx, hcy, hlt, hgt⟩ := makeUnsigned_operand hx hyv hbool
        simp only [hu', bind_some, hx.value, hy.value, hcx, hcy]
        apply Decided.declared (toInt_valid _)
        rw [Relation.eval_congr hlt hgt]
        simp [hbool]

theorem convert_int64_int64 (z : ℤ) : int64.convert (int64.convert z) = int64.convert z :=
  ofInt_ofInt (t := .i64)

theorem convert_uint64_uint64 (z : ℤ) : uint64.convert (uint64.convert z) = uint64.convert z :=
  ofInt_ofInt (t := .index)

theorem indexCmp_decided (ha : cenv[left]? = some a) (hb : cenv[right]? = some b)
    (hx : Holds x a) (hy : Holds y b) (htx : x.type = .index) (hty : y.type = .index)
    (predicate : Predicate) :
    Decided ((comparisonExpression true predicate left right (.named .uint64)).eval cenv)
      ⟨.i1, predicate.evaluate .index x.value y.value⟩ true := by
  have hyv : x.type.ofInt y.value = y.value := by
    rw [htx, ← hty]
    exact hy.valid
  cases hs : predicate.isSigned with
  | true =>
    have hu : predicate.isUnsigned = false := by
      revert hs
      cases predicate <;> decide
    simp only [comparisonExpression, hu, hs, Bool.and_self, false_eq_true, if_false, if_true,
      signedValue, eval, TypeName.resolve, makeSigned, ha, hb,
      bind_eq_bind, bind_some, hx.value, hy.value, common,
      promote, convert_int64_int64, Predicate.evaluate]
    exact .of_holds (.declared (toInt_valid _))
  | false =>
    cases hu : predicate.isUnsigned with
    | false =>
      have heq := equality_relation hx.valid hyv hs hu
      rw [htx] at heq
      simp only [comparisonExpression, hu, hs, Bool.and_false, false_eq_true, if_false,
        eval_compare ha hb hx hy (htx.trans hty.symm), Predicate.evaluate, heq]
      exact .of_holds (.declared (toInt_valid _))
    | true =>
      simp only [comparisonExpression, hu, hs, if_true, unsignedValue, eval, TypeName.resolve,
        makeUnsigned, ha, hb, bind_eq_bind, bind_some, hx.value, hy.value, common, promote,
        convert_uint64_uint64, Predicate.evaluate]
      exact .of_holds (.declared (toInt_valid _))

/-! ### Selections and casts -/

theorem select_decided {condition : ℕ} {p : Scalar} {c : Value} (hc : cenv[condition]? = some c)
    (ha : cenv[left]? = some a) (hb : cenv[right]? = some b) (hp : Holds p c) (hx : Holds x a)
    (hy : Holds y b) (ht : x.type = y.type) :
    Decided ((conditional (.var condition) (.var left) (.var right)).eval cenv)
      ⟨x.type, if p.value = 0 then y.value else x.value⟩ true := by
  have hta : (cenv.map Value.type)[left]? = some a.type := by simp [ha]
  have htb : (cenv.map Value.type)[right]? = some b.type := by simp [hb]
  have hvalid : x.type.ofInt (if p.value = 0 then y.value else x.value) =
      if p.value = 0 then y.value else x.value := by
    split
    · rw [ht]
      exact hy.valid
    · exact hx.valid
  -- Both arms convert to the type of the selection without a change.
  have htype : conditionalType a.type b.type = x.type.cppType ∨
      conditionalType a.type b.type = x.type.computing := by
    unfold conditionalType
    split
    · exact hx.type
    · exact .inr (hx.common hy ht)
  have hholds : Holds ⟨x.type, if p.value = 0 then y.value else x.value⟩
      ⟨conditionalType a.type b.type, if p.value = 0 then y.value else x.value⟩ :=
    ⟨hvalid, rfl, htype⟩
  have heval : (conditional (.var condition) (.var left) (.var right)).eval cenv =
      some ⟨conditionalType a.type b.type, if p.value = 0 then y.value else x.value⟩ := by
    have hconvert := hholds.convert_type
    simp only [eval, typeOf, hc, bind_eq_bind, bind_some, hp.value]
    split at hconvert
    · simp [*, hy.value]
    · simp [*, hx.value]
  rw [heval]
  exact .of_holds hholds

theorem convert_bool_iff (z : ℤ) : bool.convert z = i1.ofInt z ↔ lowBit z = true := by
  simp only [convert, ofInt, lowBit, or_eq_true, beq_iff_eq]
  split <;> omega

/-- Either reading has the low bits of the value. -/
theorem ofInt_readings (target : ScalarType) (h : target.width ≤ t.width) :
    target.ofInt (t.signed z) = target.ofInt z ∧ target.ofInt (t.unsigned z) = target.ofInt z := by
  cases t <;> cases target <;> first
    | exact absurd h (by decide)
    | simp [ofInt, cppType, signed, unsigned, width, convert, isSigned,
        bits, signedWrap] <;> omega

theorem cast_exact_iff (hz : t.ofInt z = z) (hop : operation.accepts t target = true) :
    target.cppType.convert z = operation.evaluate t target z ↔
      operation.exact t target z = true := by
  have hrange := ofInt_eq_self_iff.mp hz
  by_cases hnarrow : target.width ≤ t.width
  · -- A truncation, or a cast between `i64` and `index`.
    obtain ⟨hs, hu⟩ := ofInt_readings (z := z) target hnarrow
    have hvalue : operation.evaluate t target z = target.ofInt z := by
      cases operation <;> first | exact hs | exact hu
    rw [hvalue]
    by_cases h1 : target = .i1
    · subst h1
      rw [cppType, convert_bool_iff]
      cases operation <;> cases t <;> first
        | exact absurd hop (by decide)
        | (simp [CastOperation.exact] at hrange ⊢ <;> omega)
    · rw [convert_cppType h1]
      cases operation <;> cases t <;> cases target <;> first
        | exact absurd hop (by decide)
        | exact absurd hnarrow (by decide)
        | exact absurd rfl h1
        | (simp [CastOperation.exact] at hrange ⊢ <;> omega)
  · have h1 : target ≠ .i1 := by
      rintro rfl
      exact hnarrow (by cases t <;> decide)
    cases operation <;> cases t <;> cases target <;> first
      | exact absurd hop (by decide)
      | exact absurd (by decide) hnarrow
      | (simp [CastOperation.evaluate, CastOperation.exact, ofInt, cppType, unsigned, signed,
          width, convert, isSigned, bits,
          signedWrap] at hrange ⊢
         omega)

theorem cast_decided (ha : cenv[left]? = some a) (hx : Holds x a)
    (hop : operation.accepts x.type target = true) :
    Decided ((staticCast (.named target.cppType) (.var left)).eval cenv)
      ⟨target, operation.evaluate x.type target x.value⟩
      (operation.exact x.type target x.value) := by
  simp only [eval, ha, bind_eq_bind, bind_some, hx.value]
  apply Decided.declared
  · cases operation <;> exact ofInt_ofInt
  · exact cast_exact_iff hx.valid hop

theorem constant_decided {type : ScalarType} {value : ℤ} (h : constantFits type value = true) :
    Decided ((Declaration.declared type.cppType value).eval cenv) ⟨type, type.ofInt value⟩
      (value != -2 ^ 63) := by
  have hboth : type.cppType.convert value = type.ofInt value ∧
      (|value| < 2 ^ 63 ↔ value ≠ -2 ^ 63) := by
    rw [abs_lt]
    by_cases h1 : type = .i1
    · subst h1
      simp only [constantFits, or_eq_true, beq_iff_eq] at h
      rcases h with rfl | rfl <;> decide
    · have hsigned : type.signed value = value := by
        cases type <;> first | exact absurd rfl h1 | exact of_decide_eq_true h
      refine ⟨convert_cppType h1, ?_⟩
      have hr := signed_range type value
      cases type <;> simp only [width] at hr <;> omega
  obtain ⟨hvalue, hrange⟩ := hboth
  simp only [Declaration.eval, hvalue]
  by_cases hmin : value = -2 ^ 63
  · rw [if_neg (by rw [hrange]; exact not_not.mpr hmin), bne_eq_false_iff_eq.mpr hmin]
    exact .none
  · rw [if_pos (hrange.mpr hmin), bne_iff_ne.mpr hmin]
    exact .of_holds (.declared ofInt_ofInt)

end Steps

/-! ### Whole sequences -/

variable {env values : List Scalar} {cenv : List Value} {operations : List ScalarOperation}

/-- One operation of a sequence. -/
theorem operation_decided {v : Scalar} {operation : ScalarOperation}
    (henv : List.Forall₂ Holds env cenv) (hv : operation.evaluate env = some v) :
    ∃ d, emitOperation (env.map type) operation = some d ∧
      operation.resultType (env.map type) = some v.type ∧
      Decided (d.eval cenv) v (operation.exact env (cenv.map Value.type)) := by
  cases operation with
  | constant type value =>
    simp only [evaluate] at hv
    split at hv
    · cases hv
      exact ⟨_, rfl, rfl, constant_decided ‹_›⟩
    · cases hv
  | binary operation left right =>
    simp only [evaluate, bind_eq_bind, bind_eq_some_iff] at hv
    obtain ⟨x, hl, y, hr, hv⟩ := hv
    split at hv
    next ht =>
      obtain ⟨z, hz, rfl⟩ := map_eq_some_iff.mp hv
      obtain ⟨a, ha, hx⟩ := lookup_holds henv hl
      obtain ⟨b, hb, hy⟩ := lookup_holds henv hr
      refine ⟨.auto (binaryExpression x.type left right operation), by simp [emitOperation, hl],
        by simp [resultType, hl], ?_⟩
      simpa [exact, Declaration.eval, hl, hr] using binary_decided ha hb hx hy ht hz
    next => cases hv
  | cmpi predicate left right =>
    simp only [evaluate, bind_eq_bind, bind_eq_some_iff] at hv
    obtain ⟨x, hl, y, hr, hv⟩ := hv
    split at hv
    next ht =>
      cases hv
      obtain ⟨a, ha, hx⟩ := lookup_holds henv hl
      obtain ⟨b, hb, hy⟩ := lookup_holds henv hr
      refine ⟨_, rfl, rfl, ?_⟩
      simpa [exact, Declaration.eval, hl, hr, ha] using cmpi_decided ha hb hx hy ht predicate
    next => cases hv
  | indexCmp predicate left right =>
    simp only [evaluate, bind_eq_bind, bind_eq_some_iff] at hv
    obtain ⟨x, hl, y, hr, hv⟩ := hv
    split at hv
    next ht =>
      cases hv
      obtain ⟨a, ha, hx⟩ := lookup_holds henv hl
      obtain ⟨b, hb, hy⟩ := lookup_holds henv hr
      exact ⟨_, rfl, rfl, indexCmp_decided ha hb hx hy ht.1 ht.2 predicate⟩
    next => cases hv
  | select condition left right =>
    simp only [evaluate, bind_eq_bind, bind_eq_some_iff] at hv
    obtain ⟨p, hp, x, hl, y, hr, hv⟩ := hv
    split at hv
    next ht =>
      cases hv
      obtain ⟨c, hc, hpc⟩ := lookup_holds henv hp
      obtain ⟨a, ha, hx⟩ := lookup_holds henv hl
      obtain ⟨b, hb, hy⟩ := lookup_holds henv hr
      exact ⟨_, rfl, by simp [resultType, hl],
        select_decided hc ha hb hpc hx hy ht.2⟩
    next => cases hv
  | cast operation target operand =>
    simp only [evaluate, bind_eq_bind, bind_eq_some_iff] at hv
    obtain ⟨x, hl, hv⟩ := hv
    split at hv
    next hop =>
      cases hv
      obtain ⟨a, ha, hx⟩ := lookup_holds henv hl
      refine ⟨_, rfl, rfl, ?_⟩
      simpa [exact, Declaration.eval, hl] using cast_decided ha hx hop
    next => cases hv

/-- Every operation of the sequence is exact, on the values of the IR and the C++ types that
the earlier variables have. -/
def exactAll (env : List Scalar) (types : List IntegerType) : List ScalarOperation → Bool
  | [] => true
  | operation :: operations =>
    operation.exact env types &&
      match operation.evaluate env,
        (emitOperation (env.map type) operation).bind (Declaration.typeOf types) with
      | some v, some type => exactAll (env ++ [v]) (types ++ [type]) operations
      | _, _ => true

theorem evaluateAll_extends (h : evaluateAll env operations = some values) :
    ∃ more, values = env ++ more := by
  induction operations generalizing env with
  | nil =>
    cases h
    exact ⟨[], by simp⟩
  | cons operation operations ih =>
    obtain ⟨v, -, h⟩ := bind_eq_some_iff.mp h
    obtain ⟨more, rfl⟩ := ih h
    exact ⟨v :: more, by simp⟩

theorem execute_extends {types : List ScalarType} {computed : List Value}
    (h : execute types cenv operations = some computed) : ∃ more, computed = cenv ++ more := by
  induction operations generalizing types cenv with
  | nil =>
    cases h
    exact ⟨[], by simp⟩
  | cons operation operations ih =>
    simp only [execute, bind_eq_bind, bind_eq_some_iff] at h
    obtain ⟨d, -, c, -, type, -, h⟩ := h
    obtain ⟨more, rfl⟩ := ih h
    exact ⟨c :: more, by simp⟩

theorem values_eq (h : List.Forall₂ Holds env cenv) : cenv.map Value.value = env.map value := by
  induction h with
  | nil => rfl
  | cons h _ ih => simp [h.value, ih]

theorem execute_iff (henv : List.Forall₂ Holds env cenv)
    (hv : evaluateAll env operations = some values) :
    (∃ computed, execute (env.map type) cenv operations = some computed ∧
      computed.map Value.value = values.map value) ↔
      exactAll env (cenv.map Value.type) operations = true := by
  induction operations generalizing env cenv with
  | nil =>
    cases hv
    simp [execute, exactAll, values_eq henv]
  | cons operation operations ih =>
    obtain ⟨v, hop, hv⟩ := bind_eq_some_iff.mp hv
    obtain ⟨d, hd, htype, hdecided⟩ := operation_decided henv hop
    -- Where the variable of the first operation holds its value, the rest is decided.
    have hrest : ∀ c, d.eval cenv = some c → c.value = v.value →
        ((∃ computed, execute (env.map type ++ [v.type]) (cenv ++ [c]) operations =
            some computed ∧ computed.map Value.value = values.map value) ↔
          exactAll (env ++ [v]) (cenv.map Value.type ++ [c.type]) operations = true) := by
      intro c hc hcv
      have hboth : List.Forall₂ Holds (env ++ [v]) (cenv ++ [c]) :=
        List.rel_append henv (.cons (hdecided.holds c hc hcv) .nil)
      have h := ih hboth hv
      rwa [List.map_append, List.map_append] at h
    simp only [execute, exactAll, hd, htype, hop, bind_eq_bind, bind_some, and_eq_true]
    constructor
    · rintro ⟨computed, hexecute, hvalues⟩
      obtain ⟨c, hc, hexecute⟩ := bind_eq_some_iff.mp hexecute
      have hcv : c.value = v.value := by
        obtain ⟨more, rfl⟩ := evaluateAll_extends hv
        obtain ⟨more', rfl⟩ := execute_extends hexecute
        have hlength : cenv.length = env.length := henv.length_eq.symm
        have h := congrArg (fun values => values[env.length]?) hvalues
        simpa [hlength] using h
      refine ⟨hdecided.iff.mp ⟨c, hc, hcv⟩, ?_⟩
      rw [Declaration.typeOf_eval hc]
      exact (hrest c hc hcv).mp ⟨computed, hexecute, hvalues⟩
    · rintro ⟨hexact, hexactAll⟩
      obtain ⟨c, hc, hcv⟩ := hdecided.iff.mpr hexact
      rw [Declaration.typeOf_eval hc] at hexactAll
      rw [hc]
      exact (hrest c hc hcv).mpr hexactAll

/-- The emitted C++ computes the values of a sequence exactly where every operation is exact. -/
theorem computesValues_iff_exact {inputs : List Scalar} (hinputs : ∀ v ∈ inputs, v.Valid)
    (hvalues : evaluateAll inputs operations = some values) :
    ComputesValues inputs operations values ↔
      exactAll inputs (inputs.map fun v => v.type.cppType) operations = true := by
  have hall : List.Forall₂ Holds inputs (inputs.map declared) := by
    rw [List.forall₂_map_right_iff, List.forall₂_same]
    exact fun v hv => ⟨hinputs v hv, rfl, .inl rfl⟩
  have h := execute_iff hall hvalues
  rwa [List.map_map] at h

/-- Sensor code: an `i8` offset, a widening and an unsigned comparison. -/
theorem computesValues_offset :
    ComputesValues [⟨.i8, 100⟩]
      [.constant .i8 20, .binary .addi 0 1, .cast .extui .i32 2, .constant .i32 (-1),
        .cmpi .ult 3 4]
      [⟨.i8, 100⟩, ⟨.i8, 20⟩, ⟨.i8, 120⟩, ⟨.i32, 120⟩, ⟨.i32, -1⟩, ⟨.i1, 1⟩] :=
  (computesValues_iff_exact (by simp [Valid, ofInt_eq_self_iff]) (by decide)).mpr
    (by decide)

/-- `i8` addition is not truncated, `i32` addition overflows, and `extui` extends the sign. -/
theorem sum_not_truncated :
    (evaluateAll [⟨.i8, 127⟩, ⟨.i8, 1⟩] [.binary .addi 0 1] =
        some [⟨.i8, 127⟩, ⟨.i8, 1⟩, ⟨.i8, -128⟩] ∧
      ¬ ComputesValues [⟨.i8, 127⟩, ⟨.i8, 1⟩] [.binary .addi 0 1]
        [⟨.i8, 127⟩, ⟨.i8, 1⟩, ⟨.i8, -128⟩]) ∧
    (evaluateAll [⟨.i32, 2147483647⟩] [.binary .addi 0 0] =
        some [⟨.i32, 2147483647⟩, ⟨.i32, -2⟩] ∧
      execute [.i32] [⟨.int32, 2147483647⟩] [.binary .addi 0 0] = none) ∧
    (evaluateAll [⟨.i8, -1⟩] [.cast .extui .i32 0] = some [⟨.i8, -1⟩, ⟨.i32, 255⟩] ∧
      execute [.i8] [⟨.int8, -1⟩] [.cast .extui .i32 0] =
        some [⟨.int8, -1⟩, ⟨.int32, -1⟩]) := by
  refine ⟨⟨by decide, ?_⟩, ⟨by decide, by decide⟩, by decide, by decide⟩
  rintro ⟨computed, hexecute, hvalues⟩
  have h : execute [.i8, .i8] [⟨.int8, 127⟩, ⟨.int8, 1⟩] [.binary .addi 0 1] =
      some [⟨.int8, 127⟩, ⟨.int8, 1⟩, ⟨.int32, 128⟩] := by decide
  obtain rfl := some.inj (h.symm.trans hexecute)
  exact absurd hvalues (by decide)

end AgenticCircuit.CodeGen
