import Strand.Arith.Scalar
import Strand.Heap

/-!
# Element-wise operators

Two arrays are combined position by position, and arrays at the same position are combined in turn.
The two must have the same shape, and no array in them may be empty. A position is combined as
floats if the operation is one on floats, or if one of the two elements there is a float.

An array may contain itself. The combination of two such arrays need not end: it meets a pair of
arrays that it is still combining. There are no more pairs than the square of the number of arrays,
so a combination that nests deeper than that never ends, and is reported as such.
-/

set_option autoImplicit false

namespace Strand.Arith

/-- Combines two elements, given how two arrays are combined. -/
def combineElement (combineArrays : ArrayId → ArrayId → Except Abort Nest) (op : BinaryOp)
    (floating : Bool) : Value → Value → Except Abort Nest
  | .array l, .array r => combineArrays l r
  | .array _, _ | _, .array _ => .error (.fault .nestingMismatch)
  | .null, _ | _, .null => .error (.fault (.nullDereference "indexing null array"))
  | l, r =>
    let floating := floating || isFloat l || isFloat r
    Abort.ofFault ((numericOp op floating l r).map .leaf)
where
  isFloat : Value → Bool
    | .float _ => true
    | _ => false

/-- Combines two arrays that nest at most `depth` deep. -/
def combineTo (h : Heap) (op : BinaryOp) (floating : Bool) :
    Nat → ArrayId → ArrayId → Except Abort Nest
  | 0, _, _ => .error .diverges
  | depth + 1, l, r =>
    let left := h.elements l
    let right := h.elements r
    if left.size ≠ right.size then .error (.fault (.lengthMismatch left.size right.size))
    else if left.isEmpty then .error (.fault .emptyArray)
    else
      let elements := (left.toList.zip right.toList).mapM fun (l, r) =>
        combineElement (combineTo h op floating depth) op floating l r
      elements.map .row

/-- Combines two arrays. -/
def elementwise (h : Heap) (op : BinaryOp) (floating : Bool) (l r : ArrayId) : Except Abort Nest :=
  combineTo h op floating (h.arrays.size * h.arrays.size + 1) l r

end Strand.Arith
