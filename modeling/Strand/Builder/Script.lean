import Strand.Builder

/-!
# Scripts

A script is a program as data: the sequence of the building steps that make it. Operands are built
before the expression that uses them, from left to right, and a condition before the branches.

A label names the node that an expression was built to, so that a later expression can use the same
node again. Without labels every node is used once, where it was built.
-/

set_option autoImplicit false

namespace Strand

/-- A type as it is written, with structs named by their text. -/
inductive TypeExpr where
  | plain (ty : Ty)
  | array (element : TypeExpr)
  | struct (name : String)
deriving Inhabited

/-- The type that is written; the name of a struct is interned. -/
def TypeExpr.build : TypeExpr → BuildM Ty
  | plain ty => return ty
  | array element => return .array (← element.build)
  | struct name => return .struct (← Builder.intern name)

/-- An expression to be built. -/
inductive Expr where
  | int (value : Int64)
  | float (value : Float)
  | string (value : String)
  | boolean (value : Bool)
  | null
  | reference (name : String)
  | constructor (name : String)
  | paren (inner : Expr)
  | array (elements : List Expr)
  | index (array position : Expr)
  | field (stem : Expr) (name : String)
  /-- A call of a named function; the arguments are built before the reference to it. -/
  | call (callee : String) (arguments : List Expr)
  /-- A call of any callee, which is built before the arguments. -/
  | callWith (callee : Expr) (arguments : List Expr)
  | not (operand : Expr)
  | binary (op : BinaryOp) (left right : Expr)
  | assign (target value : Expr)
  /-- Builds an expression and gives its node a label. -/
  | label (key : String) (inner : Expr)
  /-- The node with a label, once more. -/
  | labelled (key : String)
  /-- Builds an expression whose nodes have a span. -/
  | located (span : Span) (inner : Expr)
deriving Inhabited

mutual

/-- Builds an expression and gives its node. A label that nobody has gives the invalid node. -/
def Expr.build : Expr → BuildM NodeId
  | .int value => Builder.int value
  | .float value => Builder.float value
  | .string value => Builder.string value
  | .boolean value => Builder.boolean value
  | .null => Builder.null
  | .reference name => Builder.reference name
  | .constructor name => Builder.constructor name
  | .paren inner => do Builder.paren (← inner.build)
  | .array elements => do Builder.array (← buildAll elements)
  | .index stem position => do
    let stem ← stem.build
    Builder.index stem (← position.build)
  | .field stem name => do Builder.field (← stem.build) name
  | .call callee arguments => do Builder.call callee (← buildAll arguments)
  | .callWith callee arguments => do
    let callee ← callee.build
    Builder.callWith callee (← buildAll arguments)
  | .not operand => do Builder.not (← operand.build)
  | .binary op left right => do
    let left ← left.build
    Builder.binary op left (← right.build)
  | .assign target value => do
    let target ← target.build
    Builder.assign target (← value.build)
  | .label key inner => do
    let node ← inner.build
    Builder.label key node
    return node
  | .labelled key => return ((← get).labelled? key).getD .invalid
  | .located span inner => Builder.located span inner.build

/-- Builds expressions from left to right. -/
def Expr.buildAll : List Expr → BuildM (List NodeId)
  | [] => return []
  | expr :: rest => do
    let node ← expr.build
    return node :: (← buildAll rest)

end

/-- A statement to be built. -/
inductive Stmt where
  | expression (inner : Expr)
  | set (name : String) (value : Expr)
  /-- An expression that is built and not used here. -/
  | unused (inner : Expr)
  | var (name : String) (ty : TypeExpr) (initializer : Expr)
  | launch (callee : String) (arguments : List Expr)
  | launchVar (name : String) (ty : TypeExpr) (callee : String) (arguments : List Expr)
  | ret (value : Option Expr)
  | block (body : List Stmt)
  | protect (body : List Stmt)
  | ifThen (condition : Expr) (thenBranch : List Stmt)
  | ifElse (condition : Expr) (thenBranch elseBranch : List Stmt)
  | whileLoop (condition : Expr) (body : List Stmt)
  | function (name : String) (parameters : List (String × TypeExpr)) (returns : TypeExpr)
      (body : List Stmt)
  | struct (name : String) (fields : List (String × TypeExpr))
  /-- The declaration of a builtin function by its result type. -/
  | builtin (name : String) (returns : TypeExpr)
  /-- Builds a statement whose nodes have a span. -/
  | located (span : Span) (inner : Stmt)
deriving Inhabited

/-- The types of parameters or fields, in order. -/
def buildTypes (typed : List (String × TypeExpr)) : BuildM (List (String × Ty)) :=
  typed.mapM fun (name, ty) => return (name, ← ty.build)

mutual

/-- Builds a statement. -/
def Stmt.build : Stmt → BuildM Unit
  | .expression inner => do discard (Builder.expression (← inner.build))
  | .set name value => do discard (Builder.set name (← value.build))
  | .unused inner => discard inner.build
  | .var name ty initializer => do
    let initializer ← initializer.build
    discard (Builder.var name (← ty.build) initializer)
  | .launch callee arguments => do
    discard (Builder.launch callee (← Expr.buildAll arguments))
  | .launchVar name ty callee arguments => do
    let arguments ← Expr.buildAll arguments
    discard (Builder.launchVar name (← ty.build) callee arguments)
  | .ret none => discard (Builder.ret none)
  | .ret (some value) => do discard (Builder.ret (some (← value.build)))
  | .block body => discard (Builder.block (buildAll body))
  | .protect body => discard (Builder.protect (buildAll body))
  | .ifThen condition thenBranch => do
    discard (Builder.ifThen (← condition.build) (buildAll thenBranch))
  | .ifElse condition thenBranch elseBranch => do
    let condition ← condition.build
    discard (Builder.ifElse condition (buildAll thenBranch) (buildAll elseBranch))
  | .whileLoop condition body => do
    discard (Builder.whileLoop (← condition.build) (buildAll body))
  | .function name parameters returns body => do
    let parameters ← buildTypes parameters
    discard (Builder.function name parameters (← returns.build) (buildAll body))
  | .struct name fields => do discard (Builder.struct name (← buildTypes fields))
  | .builtin name returns => do Builder.builtin name (← returns.build)
  | .located span inner => Builder.located span inner.build

/-- Builds statements in order. -/
def Stmt.buildAll : List Stmt → BuildM Unit
  | [] => return
  | stmt :: rest => do
    stmt.build
    buildAll rest

end

/-- The statements of a program. -/
abbrev Script := List Stmt

namespace Script

/-- The builder after the steps of a script. -/
def builder (script : Script) : Builder := ((Stmt.buildAll script).run .new).2

/-- The program that a script makes, or its first problem. -/
def program (script : Script) : Except BuildError Program := script.builder.finish

end Script

end Strand
