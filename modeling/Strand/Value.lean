import Strand.Syntax
import Strand.Ty

/-!
# Values

Scalars are immutable. Arrays and struct instances are objects of the heap, and a value only refers
to them: copying a value never copies an object. Functions, types and constructors are values too;
they refer to declarations of the program.

`void` is the absent value. It is what a statement gives, and what a launched variable holds until
its task has stored a result.
-/

set_option autoImplicit false

namespace Strand

/-- The identity of an array object. -/
structure ArrayId where
  index : Nat
deriving DecidableEq, Inhabited, Repr

/-- The identity of a struct instance. -/
structure RecordId where
  index : Nat
deriving DecidableEq, Inhabited, Repr

/-- A value at run time. -/
inductive Value where
  | int (n : Int64)
  | float (x : Float)
  | bool (b : Bool)
  | str (s : String)
  | null
  | void
  | array (a : ArrayId)
  | struct (r : RecordId)
  | function (d : Decl)
  | type (d : Decl)
  | constructor (struct : NodeId)
deriving Inhabited

namespace Value

/-- The word for a value's kind in messages. -/
def typeName : Value → String
  | int _ => "Int"
  | float _ => "Float"
  | bool _ => "Bool"
  | str _ => "String"
  | null => "null"
  | array _ => "array"
  | struct _ => "struct"
  | function _ => "function"
  | constructor _ => "constructor"
  | type _ => "Type"
  | void => "Void"

def isVoid : Value → Bool
  | void => true
  | _ => false

@[inline] def asBool? : Value → Option Bool
  | bool b => some b
  | _ => none

@[inline] def asInt? : Value → Option Int64
  | int n => some n
  | _ => none

/-- A number as a float; an integer is rounded to the nearest one. -/
@[inline] def asFloat? : Value → Option Float
  | int n => some n.toFloat
  | float x => some x
  | _ => none

/-- Identity: the same object, the same declaration, or both `null` or both void. Scalars have no
identity. -/
def sameReference : Value → Value → Bool
  | null, null | void, void => true
  | array a, array b => a == b
  | struct a, struct b => a == b
  | function a, function b => a == b
  | type a, type b => a == b
  | constructor a, constructor b => a == b
  | _, _ => false

/-- Equality of scalars by content, with an integer and a float compared as floats; of all other
values by identity. -/
def primitiveEq : Value → Value → Bool
  | int a, int b => a == b
  | bool a, bool b => a == b
  | str a, str b => a == b
  | int a, float b => a.toFloat == b
  | float a, int b => a == b.toFloat
  | float a, float b => a == b
  | a, b => a.sameReference b

/-- An integer that is stored where a float is declared becomes a float. -/
def widen (v : Value) (ty : Ty) : Value :=
  match v, ty with
  | int n, .float => float n.toFloat
  | v, _ => v

end Value

end Strand
