import Mathlib.Algebra.GroupWithZero.Nat
import Mathlib.Data.Rat.Defs

/-! # JSON values

The values of `llvm::json::Value` as the bindings see them, and the limits of
`acir/Bindings/Binding.h`.  Strings are bytes in UTF-8; the members of an object stand in the order
in which its table is walked. -/

namespace AgenticCircuit.Bindings

abbrev Bytes := List UInt8

instance bytes_lawfulBEq : LawfulBEq (List UInt8) := inferInstance

/-- The bytes of a text. -/
def utf8 (text : String) : Bytes := text.toList.flatMap String.utf8EncodeChar

/-- The binary64 values, a finite one but the negative zero by the number it stands for. -/
inductive Double where
  | finite (value : ℚ)
  | negativeZero
  | infinite (negative : Bool)
  | nan
deriving DecidableEq

def Double.isFinite : Double → Bool
  | .finite _ | .negativeZero => true
  | .infinite _ | .nan => false

/-- `value == 0.0` -/
def Double.isZero : Double → Bool
  | .finite value => decide (value = 0)
  | .negativeZero => true
  | .infinite _ | .nan => false

/-- The kinds of `llvm::json::Value`.  `integer` holds an `int64_t` and `unsigned` a
`uint64_t`. -/
inductive JsonValue where
  | null
  | boolean (value : Bool)
  | integer (value : ℤ)
  | unsigned (value : ℕ)
  | double (value : Double)
  | string (value : Bytes)
  | array (elements : List JsonValue)
  | object (members : List (Bytes × JsonValue))

structure JsonParseLimits where
  maxInputBytes : ℕ := 2 ^ 20
  maxDepth : ℕ := 64
  maxStructuralWork : ℕ := 100000
  maxStringBytes : ℕ := 2 ^ 18
  maxTotalStringBytes : ℕ := 2 ^ 20
  maxArrayElements : ℕ := 65536
  maxObjectMembers : ℕ := 4096
deriving DecidableEq

end AgenticCircuit.Bindings
