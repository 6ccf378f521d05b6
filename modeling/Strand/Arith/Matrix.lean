import Strand.Arith.Scalar
import Strand.Heap

/-!
# The matrix product

A matrix is an array of rows. The product is defined for a left matrix with as many rows as the
right one has columns, the length of its first row. The entry in row `i` and column `j` is the sum,
taken from left to right and started at zero, of the products of the entries `(i, t)` and `(t, j)`
for the rows `t` of the right matrix. It is always a float.
-/

set_option autoImplicit false

namespace Strand.Arith

/-- The rows of a matrix. -/
def rowsOf (h : Heap) (v : Value) : Except Cause (List (Array Value)) := do
  let a ← expectArray v
  (h.elements a).toList.mapM fun row => do return h.elements (← expectArray row)

/-- An entry of a left row that is known to be long enough. -/
def entryOf (row : Array Value) (i : Nat) : Except Abort Value :=
  match row[i]? with
  | some v => .ok v
  | none => .error (.outOfRange ⟨row.size, i⟩)

/-- The sum of the products of a row's entries with the entries of a column, continued from `sum` at
the row's position `i`. -/
def dotFrom (row : Array Value) (columns column : Nat) :
    Nat → List (Array Value) → Float → Except Abort Float
  | _, [], sum => .ok sum
  | i, below :: rest, sum => do
    let r ←
      match below[column]? with
      | some v => .ok v
      | none => .error (.fault (.lengthMismatch below.size columns))
    let x ← Abort.ofFault (expectNumber (← entryOf row i))
    let y ← Abort.ofFault (expectNumber r)
    dotFrom row columns column (i + 1) rest (sum + x * y)

/-- One row of the product. -/
def productRow (right : List (Array Value)) (columns : Nat) (row : Array Value) :
    Except Abort Nest := do
  if row.size < right.length then throw (.fault (.lengthMismatch row.size right.length))
  let cells ← (List.range columns).mapM fun column => dotFrom row columns column 0 right 0.0
  return .row (cells.map fun x => .leaf (.float x))

/-- The matrix product of two values. -/
def matrixProduct (h : Heap) (l r : Value) : Except Abort Nest := do
  let left ← Abort.ofFault (rowsOf h l)
  let right ← Abort.ofFault (rowsOf h r)
  match left, right with
  | firstLeft :: _, firstRight :: _ =>
    if firstLeft.isEmpty then throw (.fault .emptyArray)
    let columns := firstRight.size
    if left.length ≠ columns then throw (.fault (.matrixDimension left.length columns))
    return .row (← left.mapM (productRow right columns))
  | _, _ => throw (.fault .emptyArray)

end Strand.Arith
