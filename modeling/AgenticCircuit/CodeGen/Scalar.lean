import AgenticCircuit.Lib.CppInteger

/-! # Scalar operations and the C++ emitted for them

Straight-line sequences of `arith` and `index` integer operations over `i1`, `i8`, `i16`,
`i32`, `i64` and `index`, their meaning in the IR, and the C++ of `ProcessGenerator.cpp`.

* **Values.**  An IR value is the integer that its C++ variable should hold: `0` or `1` for `i1`,
  the signed value for `i8` to `i64`, the unsigned value for `index` (64 bits).  `ofInt` reduces
  an integer to this form, `unsigned` and `signed` read the bits.
* **Meaning.**  `evaluate` is partial: division by zero, overflow of `divsi` and shift amounts
  of at least the width are undefined.
* **Emission.**  `scalarExpression` and `emitOperation` are the generator's; results are `auto`
  variables, so that an operation on `i1`, `i8` or `i16` may leave an `int`. -/

namespace AgenticCircuit.CodeGen

open Cpp

inductive ScalarType where
  | i1
  | i8
  | i16
  | i32
  | i64
  | index
deriving DecidableEq

namespace ScalarType

def width : ScalarType → ℕ
  | i1 => 1
  | i8 => 8
  | i16 => 16
  | i32 => 32
  | i64 | index => 64

/-- `cppType`, on scalars. -/
def cppType : ScalarType → IntegerType
  | i1 => .bool
  | i8 => .int8
  | i16 => .int16
  | i32 => .int32
  | i64 => .int64
  | index => .uint64

def ofInt : ScalarType → ℤ → ℤ
  | i1, z => z % 2
  | type, z => type.cppType.convert z

def unsigned (type : ScalarType) (z : ℤ) : ℤ := z % 2 ^ type.width

def signed (type : ScalarType) (z : ℤ) : ℤ := signedWrap type.width z

def isInteger (type : ScalarType) : Bool := type != index

end ScalarType

open ScalarType

/-- The binary operations of `arith`; those of `index` are the same ones on `index`
(`index.add` is `addi`, `index.divs` is `divsi`, and so on). -/
inductive BinaryOperation where
  | addi
  | subi
  | muli
  | divui
  | divsi
  | remui
  | remsi
  | andi
  | ori
  | xori
  | shli
  | shrui
  | shrsi
deriving DecidableEq

def BinaryOperation.evaluate (type : ScalarType) (x y : ℤ) : BinaryOperation → Option ℤ
  | addi => some (type.ofInt (x + y))
  | subi => some (type.ofInt (x - y))
  | muli => some (type.ofInt (x * y))
  | divui =>
    if type.unsigned y = 0 then none
    else some (type.ofInt (type.unsigned x / type.unsigned y))
  | divsi =>
    if type.signed y = 0 ∨ type.signed x = -2 ^ (type.width - 1) ∧ type.signed y = -1 then none
    else some (type.ofInt ((type.signed x).tdiv (type.signed y)))
  | remui =>
    if type.unsigned y = 0 then none
    else some (type.ofInt (type.unsigned x % type.unsigned y))
  | remsi =>
    if type.signed y = 0 then none
    else some (type.ofInt ((type.signed x).tmod (type.signed y)))
  | andi => some (type.ofInt (BitVec.ofInt type.width x &&& BitVec.ofInt type.width y).toInt)
  | ori => some (type.ofInt (BitVec.ofInt type.width x ||| BitVec.ofInt type.width y).toInt)
  | xori => some (type.ofInt (BitVec.ofInt type.width x ^^^ BitVec.ofInt type.width y).toInt)
  | shli =>
    if type.unsigned y < type.width then some (type.ofInt (x * 2 ^ (type.unsigned y).toNat))
    else none
  | shrui =>
    if type.unsigned y < type.width then
      some (type.ofInt (type.unsigned x / 2 ^ (type.unsigned y).toNat))
    else none
  | shrsi =>
    if type.unsigned y < type.width then
      some (type.ofInt (type.signed x / 2 ^ (type.unsigned y).toNat))
    else none

/-- Predicates of `arith.cmpi` and `index.cmp`. -/
inductive Predicate where
  | eq
  | ne
  | slt
  | sle
  | sgt
  | sge
  | ult
  | ule
  | ugt
  | uge
deriving DecidableEq

namespace Predicate

def isSigned : Predicate → Bool
  | slt | sle | sgt | sge => true
  | _ => false

def isUnsigned : Predicate → Bool
  | ult | ule | ugt | uge => true
  | _ => false

/-- The C++ operator of the predicate. -/
def relation : Predicate → Relation
  | eq => .eq
  | ne => .ne
  | slt | ult => .lt
  | sle | ule => .le
  | sgt | ugt => .gt
  | sge | uge => .ge

def evaluate (type : ScalarType) (x y : ℤ) (predicate : Predicate) : ℤ :=
  if predicate.isSigned then (predicate.relation.eval (type.signed x) (type.signed y)).toInt
  else (predicate.relation.eval (type.unsigned x) (type.unsigned y)).toInt

end Predicate

inductive CastOperation where
  | extui
  | extsi
  | trunci
  | indexCast
  | indexCasts
  | indexCastu
deriving DecidableEq

namespace CastOperation

/-- The types the operation is defined for. -/
def accepts (source target : ScalarType) : CastOperation → Bool
  | extui | extsi => source.isInteger && target.isInteger && source.width < target.width
  | trunci => source.isInteger && target.isInteger && target.width < source.width
  | indexCast | indexCasts | indexCastu => source.isInteger != target.isInteger

/-- Zero extension, sign extension or truncation; a truncation reads the low bits either
way. -/
def evaluate (source target : ScalarType) (x : ℤ) : CastOperation → ℤ
  | extui | indexCastu => target.ofInt (source.unsigned x)
  | extsi | trunci | indexCast | indexCasts => target.ofInt (source.signed x)

end CastOperation

/-- An operation of a sequence; operands are the numbers of earlier values. -/
inductive ScalarOperation where
  | constant (type : ScalarType) (value : ℤ)
  | binary (operation : BinaryOperation) (left right : ℕ)
  | cmpi (predicate : Predicate) (left right : ℕ)
  | indexCmp (predicate : Predicate) (left right : ℕ)
  | select (condition left right : ℕ)
  | cast (operation : CastOperation) (target : ScalarType) (operand : ℕ)
deriving DecidableEq

/-- A value with its type. -/
structure Scalar where
  type : ScalarType
  value : ℤ
deriving DecidableEq

/-- The value is one of its type. -/
def Scalar.Valid (v : Scalar) : Prop := v.type.ofInt v.value = v.value

/-- A constant attribute holds the signed value of the type (`0` or `1` for `i1`), which is also
what the literal prints. -/
def constantFits (type : ScalarType) (value : ℤ) : Bool :=
  match type with
  | .i1 => value == 0 || value == 1
  | type => decide (type.signed value = value)

/-- The meaning of a well-typed operation, where it is defined. -/
def ScalarOperation.evaluate (env : List Scalar) : ScalarOperation → Option Scalar
  | constant type value =>
    if constantFits type value then some ⟨type, type.ofInt value⟩ else none
  | binary operation left right => do
      let x ← env[left]?
      let y ← env[right]?
      if x.type = y.type then
        (operation.evaluate x.type x.value y.value).map fun z => ⟨x.type, z⟩
      else none
  | cmpi predicate left right => do
      let x ← env[left]?
      let y ← env[right]?
      if x.type = y.type then some ⟨.i1, predicate.evaluate x.type x.value y.value⟩ else none
  | indexCmp predicate left right => do
      let x ← env[left]?
      let y ← env[right]?
      if x.type = .index ∧ y.type = .index then
        some ⟨.i1, predicate.evaluate .index x.value y.value⟩
      else none
  | select condition left right => do
      let c ← env[condition]?
      let x ← env[left]?
      let y ← env[right]?
      if c.type = .i1 ∧ x.type = y.type then
        some ⟨x.type, if c.value = 0 then y.value else x.value⟩
      else none
  | cast operation target operand => do
      let x ← env[operand]?
      if operation.accepts x.type target then
        some ⟨target, operation.evaluate x.type target x.value⟩
      else none

/-- The values of a sequence. -/
def evaluateAll (env : List Scalar) : List ScalarOperation → Option (List Scalar)
  | [] => some env
  | operation :: operations => do
      let v ← operation.evaluate env
      evaluateAll (env ++ [v]) operations

/-! ### Emission -/

/-- `unsignedValue` of a variable. -/
def unsignedValue (value : ℕ) (type : TypeName) : Expr :=
  .staticCast (.makeUnsigned type) (.var value)

def signedValue (value : ℕ) (type : TypeName) : Expr :=
  .staticCast (.makeSigned type) (.var value)

/-- `comparisonExpression`. -/
def comparisonExpression (isIndexCmp : Bool) (predicate : Predicate) (left right : ℕ)
    (operandType : TypeName) : Expr :=
  if predicate.isUnsigned then
    .compare predicate.relation (unsignedValue left operandType) (unsignedValue right operandType)
  else if isIndexCmp && predicate.isSigned then
    .compare predicate.relation (signedValue left operandType) (signedValue right operandType)
  else .compare predicate.relation (.var left) (.var right)

/-- `scalarExpression`, on binary operations with the given result type. -/
def binaryExpression (result : ScalarType) (left right : ℕ) : BinaryOperation → Expr
  | .addi => .arithmetic .add (.var left) (.var right)
  | .subi => .arithmetic .sub (.var left) (.var right)
  | .muli => .arithmetic .mul (.var left) (.var right)
  | .divsi => .arithmetic .div (.var left) (.var right)
  | .remsi => .arithmetic .rem (.var left) (.var right)
  | .andi => .arithmetic .bitAnd (.var left) (.var right)
  | .ori => .arithmetic .bitOr (.var left) (.var right)
  | .xori => .arithmetic .bitXor (.var left) (.var right)
  | .shli => .shift .left (.var left) (.var right)
  | .shrsi => .shift .right (.var left) (.var right)
  | .divui => .staticCast (.named result.cppType)
      (.arithmetic .div (unsignedValue left (.named result.cppType))
        (unsignedValue right (.named result.cppType)))
  | .remui => .staticCast (.named result.cppType)
      (.arithmetic .rem (unsignedValue left (.named result.cppType))
        (unsignedValue right (.named result.cppType)))
  | .shrui => .staticCast (.named result.cppType)
      (.shift .right (unsignedValue left (.named result.cppType))
        (unsignedValue right (.named result.cppType)))

/-- `scalarExpression` and `emitOperation`.  The types of the values give the result type of a
binary operation. -/
def emitOperation (types : List ScalarType) : ScalarOperation → Option Declaration
  | .constant type value => some (.declared type.cppType value)
  | .binary operation left right =>
    types[left]?.map fun result => .auto (binaryExpression result left right operation)
  | .cmpi predicate left right =>
    some (.auto (comparisonExpression false predicate left right (.decltypeOf left)))
  | .indexCmp predicate left right =>
    some (.auto (comparisonExpression true predicate left right (.named .uint64)))
  | .select condition left right =>
    some (.auto (.conditional (.var condition) (.var left) (.var right)))
  | .cast _ target operand =>
    some (.auto (.staticCast (.named target.cppType) (.var operand)))

/-- The type of the result. -/
def ScalarOperation.resultType (types : List ScalarType) : ScalarOperation → Option ScalarType
  | constant type _ => some type
  | binary _ left _ | select _ left _ => types[left]?
  | cmpi _ _ _ | indexCmp _ _ _ => some .i1
  | cast _ target _ => some target

/-- The C++ variables of the emitted sequence. -/
def execute (types : List ScalarType) (env : List Value) :
    List ScalarOperation → Option (List Value)
  | [] => some env
  | operation :: operations => do
      let declaration ← emitOperation types operation
      let v ← declaration.eval env
      let type ← operation.resultType types
      execute (types ++ [type]) (env ++ [v]) operations

/-- A variable of the declared type, such as a block argument or a live load. -/
def Scalar.declared (v : Scalar) : Value := ⟨v.type.cppType, v.value⟩

/-- Every C++ variable holds the value of its operation, and no expression is ill-formed or
undefined. -/
def ComputesValues (inputs : List Scalar) (operations : List ScalarOperation)
    (values : List Scalar) : Prop :=
  ∃ computed, execute (inputs.map Scalar.type) (inputs.map Scalar.declared) operations =
      some computed ∧ computed.map Value.value = values.map Scalar.value

end AgenticCircuit.CodeGen
