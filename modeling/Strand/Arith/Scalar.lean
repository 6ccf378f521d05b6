import Strand.Binary64.Remainder
import Strand.Fault
import Strand.Value

/-!
# Operators on numbers

Integers are 64 bits wide and wrap around; their division goes toward zero, and the remainder has
the sign of the dividend. Only an integer division by zero is a fault. An operation is on floats if
it is asked to be, and then an integer operand is converted first.
-/

set_option autoImplicit false

namespace Strand.Arith

/-- An operator on two floats. -/
def floatOp (op : BinaryOp) (l r : Float) : Except Cause Value :=
  match op with
  | .mul => .ok (.float (l * r))
  | .div => .ok (.float (l / r))
  | .rem => .ok (.float (Binary64.remainder l r))
  | .add => .ok (.float (l + r))
  | .sub => .ok (.float (l - r))
  | .gt => .ok (.bool (r < l))
  | .lt => .ok (.bool (l < r))
  | .ge => .ok (.bool (r ≤ l))
  | .le => .ok (.bool (l ≤ r))
  | .eq => .ok (.bool (l == r))
  | .ne => .ok (.bool (l != r))
  | .and | .or | .matmul => .error (.invalidBinaryOp op.symbol "Float")

/-- An operator on two integers. -/
def intOp (op : BinaryOp) (l r : Int64) : Except Cause Value :=
  match op with
  | .mul => .ok (.int (l * r))
  | .div => if r == 0 then .error .divisionByZero else .ok (.int (l / r))
  | .rem => if r == 0 then .error .moduloByZero else .ok (.int (l % r))
  | .add => .ok (.int (l + r))
  | .sub => .ok (.int (l - r))
  | .gt => .ok (.bool (r < l))
  | .lt => .ok (.bool (l < r))
  | .ge => .ok (.bool (r ≤ l))
  | .le => .ok (.bool (l ≤ r))
  | .eq => .ok (.bool (l == r))
  | .ne => .ok (.bool (l != r))
  | .and | .or | .matmul => .error (.invalidBinaryOp op.symbol "Int")

@[inline] def expectNumber (v : Value) : Except Cause Float :=
  match v.asFloat? with
  | some x => .ok x
  | none => .error (.typeMismatch "number" v.typeName)

@[inline] def expectInt (v : Value) : Except Cause Int64 :=
  match v.asInt? with
  | some n => .ok n
  | none => .error (.typeMismatch "Int" v.typeName)

@[inline] def expectBool (v : Value) : Except Cause Bool :=
  match v.asBool? with
  | some b => .ok b
  | none => .error (.typeMismatch "Bool" v.typeName)

/-- The array that a value refers to. -/
def expectArray : Value → Except Cause ArrayId
  | .array a => .ok a
  | .null => .error (.nullDereference "indexing null array")
  | v => .error (.typeMismatch "array" v.typeName)

/-- An operator on two scalars, as floats or as integers. The left operand is checked first. -/
def numericOp (op : BinaryOp) (floating : Bool) (l r : Value) : Except Cause Value := do
  if floating then
    let x ← expectNumber l
    let y ← expectNumber r
    floatOp op x y
  else
    let m ← expectInt l
    let n ← expectInt r
    intOp op m n

end Strand.Arith
