import Strand.Arith.Elementwise
import Strand.Value.Render

/-!
# Binary operators on values

The static types of the operands choose the meaning of an operator, in this order: `+` with a string
concatenates texts; a float on either side, or an integer on the left, makes it an operator on
numbers; two arrays are combined element by element by the operators that allow it; and what is left
is equality, of primitives by content and of everything else by identity.

`&&`, `||` and the matrix product are not handled here: the first two evaluate their right operand
only if they need it, and the third does not depend on static types.
-/

set_option autoImplicit false

namespace Strand.Arith

/-- Equality, by the static type of the left operand. -/
def equals (l r : Value) (leftTy : Ty) : Bool :=
  if leftTy.isPrimitive then l.primitiveEq r else l.sameReference r

/-- The texts of two values, one after the other. -/
def concat (p : Program) (h : Heap) (l r : Value) : Except Abort Nest := do
  let left ← Abort.ofRead (render p h l)
  let right ← Abort.ofRead (render p h r)
  return .leaf (.str (left ++ right))

/-- A binary operator on two values with the static types of the operands. -/
def binary (p : Program) (h : Heap) (op : BinaryOp) (l r : Value) (leftTy rightTy : Ty) :
    Except Abort Nest :=
  if op = .add && (leftTy.isString || rightTy.isString) then concat p h l r
  else
    let floating := leftTy.isFloat || rightTy.isFloat
    if floating || leftTy = .int then Abort.ofFault ((numericOp op floating l r).map .leaf)
    else if leftTy.isArray && rightTy.isArray && op.isElementwise then do
      let left ← Abort.ofFault (expectArray l)
      let right ← Abort.ofFault (expectArray r)
      elementwise h op (leftTy.leaf.isFloat || rightTy.leaf.isFloat) left right
    else
      match op with
      | .eq => .ok (.leaf (.bool (equals l r leftTy)))
      | .ne => .ok (.leaf (.bool (!equals l r leftTy)))
      | _ => .error (.fault (.invalidBinaryOp op.symbol l.typeName))

end Strand.Arith
