import Strand.Ident

/-!
# Static types

The types that the program builder records on nodes. The evaluator reads them for two purposes
only: to choose the meaning of an operator, and to widen an integer that is stored where a float is
declared.
-/

set_option autoImplicit false

namespace Strand

/-- A static type. Structs are named, not structural. -/
inductive Ty where
  | int
  | float
  | bool
  | string
  | void
  | null
  | type
  | function
  | array (element : Ty)
  | struct (name : Name)
deriving DecidableEq, Inhabited, Repr

namespace Ty

/-- The types that are written as one word. -/
def words : List (String × Ty) :=
  [("Int", int), ("Float", float), ("Bool", bool), ("String", string), ("Void", void),
    ("Null", null), ("Type", type), ("Fun", function)]

/-- The type that a word stands for. -/
def ofWord? (word : String) : Option Ty := words.lookup word

/-- The word for a type. -/
def word? (ty : Ty) : Option String := (words.find? fun entry => entry.2 = ty).map Prod.fst

/-- The types whose values are compared by content. -/
def isPrimitive : Ty → Bool
  | int | float | bool | string => true
  | _ => false

def isFloat : Ty → Bool
  | float => true
  | _ => false

def isString : Ty → Bool
  | string => true
  | _ => false

def isArray : Ty → Bool
  | array _ => true
  | _ => false

/-- What remains of a type when every array level is taken off. -/
def leaf : Ty → Ty
  | array element => element.leaf
  | ty => ty

/-- The number of array levels around the leaf. -/
def dimensions : Ty → Nat
  | array element => element.dimensions + 1
  | _ => 0

/-- A type inside `depth` array levels. -/
def nested (ty : Ty) : Nat → Ty
  | 0 => ty
  | depth + 1 => array (nested ty depth)

@[simp] theorem leaf_nested (ty : Ty) (depth : Nat) : (ty.nested depth).leaf = ty.leaf := by
  induction depth with
  | zero => rfl
  | succ depth ih => simpa [nested, leaf] using ih

@[simp] theorem dimensions_nested (ty : Ty) (depth : Nat) :
    (ty.nested depth).dimensions = ty.dimensions + depth := by
  induction depth with
  | zero => rfl
  | succ depth ih => simp [nested, dimensions, ih, Nat.add_assoc]

end Ty

end Strand
