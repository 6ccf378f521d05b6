/-!
# Operators

The binary operators of the language with their symbols. The only unary operator, logical negation,
is a syntax node of its own.
-/

set_option autoImplicit false

namespace Strand

/-- A binary operator. -/
inductive BinaryOp where
  | mul
  | div
  | rem
  | add
  | sub
  | gt
  | lt
  | ge
  | le
  | eq
  | ne
  | and
  | or
  | matmul
deriving DecidableEq, Inhabited, Repr

namespace BinaryOp

/-- Every operator, in the order of its declaration. -/
def all : List BinaryOp :=
  [mul, div, rem, add, sub, gt, lt, ge, le, eq, ne, and, or, matmul]

/-- The operator as it is written. -/
def symbol : BinaryOp → String
  | mul => "*"
  | div => "/"
  | rem => "%"
  | add => "+"
  | sub => "-"
  | gt => ">"
  | lt => "<"
  | ge => ">="
  | le => "<="
  | eq => "=="
  | ne => "!="
  | and => "&&"
  | or => "||"
  | matmul => "@"

/-- The operator's name in diagnostics. -/
def name : BinaryOp → String
  | mul => "Mul"
  | div => "Div"
  | rem => "Rem"
  | add => "Add"
  | sub => "Sub"
  | gt => "Gt"
  | lt => "Lt"
  | ge => "GtEq"
  | le => "LtEq"
  | eq => "Eq"
  | ne => "NotEq"
  | and => "And"
  | or => "Or"
  | matmul => "MatProduct"

/-- The operator that is written `s`. -/
def ofSymbol? (s : String) : Option BinaryOp := all.find? (·.symbol == s)

/-- No two operators are written alike. -/
theorem ofSymbol?_symbol (op : BinaryOp) : ofSymbol? op.symbol = some op := by
  cases op <;> rfl

/-- The operators that may leave their right operand unevaluated. -/
def isShortCircuit : BinaryOp → Bool
  | and | or => true
  | _ => false

/-- The operators that combine two arrays element by element. The remainder is not one of them. -/
def isElementwise : BinaryOp → Bool
  | mul | div | add | sub => true
  | _ => false

end BinaryOp

end Strand
