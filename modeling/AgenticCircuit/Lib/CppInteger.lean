import Mathlib.Tactic.Linarith

/-! # C++ integer expressions

Values and expressions of the integer types of C++20 on an LP64 target: `int` is
`std::int32_t`, `long` is `std::int64_t` and `std::size_t` is `std::uint64_t`.

* **Conversions.**  Integral promotion, the usual arithmetic conversions and `static_cast`;
  conversion to a signed type is modulo `2 ^ bits`, conversion to `bool` a test against zero.
* **Evaluation** is partial: `none` stands for undefined behaviour (signed overflow, division by
  zero, a shift amount out of range) and for ill-formed programs (`std::make_unsigned_t<bool>`).
* **Types are static**: the type of an expression depends on the types of its variables only
  (`Expr.typeOf`). -/

namespace AgenticCircuit.Cpp

open Option

/-- Two's complement in `bits` bits. -/
def signedWrap (bits : ℕ) (z : ℤ) : ℤ := (z + 2 ^ (bits - 1)) % 2 ^ bits - 2 ^ (bits - 1)

inductive IntegerType where
  | bool
  | int8
  | uint8
  | int16
  | uint16
  | int32
  | uint32
  | int64
  | uint64
deriving DecidableEq

namespace IntegerType

def bits : IntegerType → ℕ
  | bool => 1
  | int8 | uint8 => 8
  | int16 | uint16 => 16
  | int32 | uint32 => 32
  | int64 | uint64 => 64

def isSigned : IntegerType → Bool
  | int8 | int16 | int32 | int64 => true
  | bool | uint8 | uint16 | uint32 | uint64 => false

/-- Integral promotion: every narrower type fits `int`. -/
def promote : IntegerType → IntegerType
  | bool | int8 | uint8 | int16 | uint16 => int32
  | type => type

/-- The usual arithmetic conversions. -/
def common (a b : IntegerType) : IntegerType :=
  match a.promote, b.promote with
  | uint64, _ | _, uint64 => uint64
  | int64, _ | _, int64 => int64
  | uint32, _ | _, uint32 => uint32
  | _, _ => int32

/-- `std::make_unsigned_t`, which `bool` does not have. -/
def makeUnsigned : IntegerType → Option IntegerType
  | bool => none
  | int8 | uint8 => some uint8
  | int16 | uint16 => some uint16
  | int32 | uint32 => some uint32
  | int64 | uint64 => some uint64

def makeSigned : IntegerType → Option IntegerType
  | bool => none
  | int8 | uint8 => some int8
  | int16 | uint16 => some int16
  | int32 | uint32 => some int32
  | int64 | uint64 => some int64

/-- Conversion of an integer to the type. -/
def convert (type : IntegerType) (z : ℤ) : ℤ :=
  match type with
  | bool => if z = 0 then 0 else 1
  | type => if type.isSigned then signedWrap type.bits z else z % 2 ^ type.bits

/-- The result of an arithmetic operation: signed overflow is undefined, unsigned results
wrap. -/
def checked (type : IntegerType) (z : ℤ) : Option ℤ :=
  if type.isSigned then if type.convert z = z then some z else none
  else some (type.convert z)

variable {type : IntegerType} {z : ℤ}

theorem convert_of_signed_range (hs : type.isSigned = true) (hl : -2 ^ (type.bits - 1) ≤ z)
    (hu : z < 2 ^ (type.bits - 1)) : type.convert z = z := by
  cases type <;> simp [isSigned, convert, signedWrap, bits] at hs hl hu ⊢ <;> omega

theorem checked_of_signed_range (hs : type.isSigned = true) (hl : -2 ^ (type.bits - 1) ≤ z)
    (hu : z < 2 ^ (type.bits - 1)) : type.checked z = some z := by
  rw [checked, if_pos hs, if_pos (convert_of_signed_range hs hl hu)]

theorem checked_of_unsigned_range (hs : type.isSigned = false) (hb : type ≠ bool) (hl : 0 ≤ z)
    (hu : z < 2 ^ type.bits) : type.checked z = some z := by
  have hconvert : type.convert z = z % 2 ^ type.bits := by
    cases type <;> simp_all [convert]
  rw [checked, hs, hconvert, Int.emod_eq_of_lt hl hu]
  rfl

end IntegerType

open IntegerType

structure Value where
  type : IntegerType
  value : ℤ
deriving DecidableEq

inductive Arithmetic where
  | add
  | sub
  | mul
  | div
  | rem
  | bitAnd
  | bitOr
  | bitXor
deriving DecidableEq

/-- An operation on two values of one promoted type. -/
def Arithmetic.eval (type : IntegerType) (x y : ℤ) : Arithmetic → Option ℤ
  | add => type.checked (x + y)
  | sub => type.checked (x - y)
  | mul => type.checked (x * y)
  | div => if y = 0 then none else type.checked (x.tdiv y)
  | rem => if y = 0 then none else (type.checked (x.tdiv y)).map fun _ => x.tmod y
  | bitAnd => some (type.convert (BitVec.ofInt type.bits x &&& BitVec.ofInt type.bits y).toInt)
  | bitOr => some (type.convert (BitVec.ofInt type.bits x ||| BitVec.ofInt type.bits y).toInt)
  | bitXor => some (type.convert (BitVec.ofInt type.bits x ^^^ BitVec.ofInt type.bits y).toInt)

inductive Shift where
  | left
  | right
deriving DecidableEq

/-- A shift of a value of a promoted type. -/
def Shift.eval (type : IntegerType) (x amount : ℤ) (shift : Shift) : Option ℤ :=
  if 0 ≤ amount ∧ amount < type.bits then
    match shift with
    | left => some (type.convert (x * 2 ^ amount.toNat))
    | right => some (x / 2 ^ amount.toNat)
  else none

inductive Relation where
  | eq
  | ne
  | lt
  | le
  | gt
  | ge
deriving DecidableEq

def Relation.eval (x y : ℤ) : Relation → Bool
  | eq => x == y
  | ne => x != y
  | lt => x < y
  | le => x ≤ y
  | gt => y < x
  | ge => y ≤ x

theorem Relation.eval_congr {x y x' y' : ℤ} (hlt : x < y ↔ x' < y') (hgt : y < x ↔ y' < x')
    (relation : Relation) : relation.eval x y = relation.eval x' y' := by
  have heq : x = y ↔ x' = y' := by omega
  have hle : x ≤ y ↔ x' ≤ y' := by omega
  have hge : y ≤ x ↔ y' ≤ x' := by omega
  cases relation with
  | eq => simp [eval, heq]
  | ne => simp [eval, heq, bne]
  | lt => simp [eval, hlt]
  | le => simp [eval, hle]
  | gt => simp [eval, hgt]
  | ge => simp [eval, hge]

/-- Names of types in an expression. -/
inductive TypeName where
  | named (type : IntegerType)
  | decltypeOf (var : ℕ)
  | makeUnsigned (type : TypeName)
  | makeSigned (type : TypeName)
deriving DecidableEq

/-- Expressions over variables, which are numbered. -/
inductive Expr where
  | var (index : ℕ)
  | staticCast (type : TypeName) (operand : Expr)
  | arithmetic (operator : Arithmetic) (left right : Expr)
  | shift (operator : Shift) (left right : Expr)
  | compare (relation : Relation) (left right : Expr)
  | conditional (condition left right : Expr)
deriving DecidableEq

def TypeName.resolve (types : List IntegerType) : TypeName → Option IntegerType
  | named type => some type
  | decltypeOf index => types[index]?
  | makeUnsigned type => (type.resolve types).bind IntegerType.makeUnsigned
  | makeSigned type => (type.resolve types).bind IntegerType.makeSigned

/-- The type of a conditional expression with arms of the two types. -/
def conditionalType (left right : IntegerType) : IntegerType :=
  if left = right then left else left.common right

def Expr.typeOf (types : List IntegerType) : Expr → Option IntegerType
  | var index => types[index]?
  | staticCast type operand => (operand.typeOf types).bind fun _ => type.resolve types
  | arithmetic _ left right => do
      let a ← left.typeOf types
      let b ← right.typeOf types
      some (a.common b)
  | shift _ left right => do
      let a ← left.typeOf types
      let _ ← right.typeOf types
      some a.promote
  | compare _ left right => do
      let _ ← left.typeOf types
      let _ ← right.typeOf types
      some .bool
  | conditional condition left right => do
      let _ ← condition.typeOf types
      let a ← left.typeOf types
      let b ← right.typeOf types
      some (conditionalType a b)

/-- The value of an expression, of the type it has. -/
def Expr.eval (env : List Value) : Expr → Option Value
  | var index => env[index]?
  | staticCast type operand => do
      let target ← type.resolve (env.map Value.type)
      let v ← operand.eval env
      some ⟨target, target.convert v.value⟩
  | arithmetic operator left right => do
      let a ← left.eval env
      let b ← right.eval env
      let type := a.type.common b.type
      let z ← operator.eval type (type.convert a.value) (type.convert b.value)
      some ⟨type, z⟩
  | shift operator left right => do
      let a ← left.eval env
      let b ← right.eval env
      let z ← operator.eval a.type.promote (a.type.promote.convert a.value)
        (b.type.promote.convert b.value)
      some ⟨a.type.promote, z⟩
  | compare relation left right => do
      let a ← left.eval env
      let b ← right.eval env
      let type := a.type.common b.type
      some ⟨.bool, (relation.eval (type.convert a.value) (type.convert b.value)).toInt⟩
  | conditional condition left right => do
      let a ← left.typeOf (env.map Value.type)
      let b ← right.typeOf (env.map Value.type)
      let c ← condition.eval env
      let chosen ← (if c.value = 0 then right.eval env else left.eval env : Option Value)
      let type := conditionalType a b
      some ⟨type, type.convert chosen.value⟩

/-- `auto` variables and variables with a declared type that are initialised by an integer
literal.  A literal whose digits exceed every signed type is ill-formed. -/
inductive Declaration where
  | auto (initializer : Expr)
  | declared (type : IntegerType) (literal : ℤ)
deriving DecidableEq

def Declaration.typeOf (types : List IntegerType) : Declaration → Option IntegerType
  | auto initializer => initializer.typeOf types
  | declared type _ => some type

def Declaration.eval (env : List Value) : Declaration → Option Value
  | auto initializer => initializer.eval env
  | declared type literal =>
    if |literal| < 2 ^ 63 then some ⟨type, type.convert literal⟩ else none

theorem Expr.typeOf_eval {env : List Value} {e : Expr} {v : Value} (h : e.eval env = some v) :
    e.typeOf (env.map Value.type) = some v.type := by
  induction e generalizing v with
  | var index =>
    simp only [eval] at h
    simp [typeOf, h]
  | staticCast type operand ih =>
    simp only [eval, bind_eq_bind, bind_eq_some_iff] at h
    obtain ⟨target, htarget, w, hw, hv⟩ := h
    cases hv
    simp [typeOf, ih hw, htarget]
  | arithmetic operator left right ihl ihr | shift operator left right ihl ihr =>
    simp only [eval, bind_eq_bind, bind_eq_some_iff] at h
    obtain ⟨a, ha, b, hb, z, -, hv⟩ := h
    cases hv
    simp [typeOf, ihl ha, ihr hb]
  | compare relation left right ihl ihr =>
    simp only [eval, bind_eq_bind, bind_eq_some_iff] at h
    obtain ⟨a, ha, b, hb, hv⟩ := h
    cases hv
    simp [typeOf, ihl ha, ihr hb]
  | conditional condition left right ihc ihl ihr =>
    simp only [eval, bind_eq_bind, bind_eq_some_iff] at h
    obtain ⟨a, ha, b, hb, c, hc, chosen, -, hv⟩ := h
    cases hv
    simp [typeOf, ha, hb, ihc hc]

theorem Declaration.typeOf_eval {env : List Value} {d : Declaration} {v : Value}
    (h : d.eval env = some v) : d.typeOf (env.map Value.type) = some v.type := by
  cases d with
  | auto initializer => exact initializer.typeOf_eval h
  | declared type literal =>
    simp only [eval] at h
    split at h
    · cases h
      rfl
    · cases h

end AgenticCircuit.Cpp
