import Strand.Program

/-!
# Building programs

The builder makes a program from calls: expressions bottom-up, statements in order. It keeps the
lexical scopes that are open, resolves every reference when it is made, and records the scope, the
type and the denoted declaration of the nodes it allocates.

Three rules shape everything else:

* a reference denotes the declaration that the innermost open scope with that name holds;
* a statement goes to the innermost open block;
* a problem does not stop the building. The first one is kept, and `finish` returns it.

A construct that opens a scope takes the building of its body as an argument. The globals and the
top-level statements are kept apart from the stacks of inner scopes and blocks, so there always is
an innermost one.
-/

set_option autoImplicit false

namespace Strand

/-- Why a program cannot be built. -/
inductive BuildError where
  | unresolved (name : String)
  | redeclared (name : String)
  | notAStruct (name : String)
deriving DecidableEq, Inhabited, Repr

/-- The name of the kind of a problem. -/
def BuildError.kind : BuildError → String
  | unresolved _ => "Unresolved"
  | redeclared _ => "Redeclared"
  | notAStruct _ => "NotAStruct"

def BuildError.message : BuildError → String
  | unresolved name => s!"cannot find `{name}` in this scope"
  | redeclared name => s!"`{name}` is already declared in this scope"
  | notAStruct name => s!"`{name}` is not a struct"

/-- A lexical scope under construction, with what it declares so far, latest first. -/
structure OpenScope where
  id : ScopeId
  names : List (Name × Decl)
deriving Inhabited

namespace OpenScope

def find? (scope : OpenScope) (name : Name) : Option Decl := scope.names.lookup name

/-- The latest declaration of a name hides an earlier one. -/
def insert (scope : OpenScope) (name : Name) (decl : Decl) : OpenScope :=
  { scope with names := (name, decl) :: scope.names }

end OpenScope

/-- A program under construction. `inner` and `blocks` hold the innermost first; the statements of a
block are kept in reverse until it is closed. -/
structure Builder where
  arena : Arena
  attrs : Attributes
  interner : Interner
  globals : OpenScope
  inner : List OpenScope
  statements : List NodeId
  blocks : List (List NodeId)
  hostTypes : List (Host × Ty)
  returns : List (Decl × Ty)
  structFields : List (Name × List (Name × Ty))
  span : Span
  /-- Nodes that the caller wants to find again. -/
  labels : List (String × NodeId)
  error : Option BuildError
deriving Inhabited

/-- A step of building. -/
abbrev BuildM := StateM Builder

namespace Builder

/-! ## State -/

/-- The innermost open scope. -/
def currentScope (b : Builder) : OpenScope := b.inner.headD b.globals

/-- The declaration that a name denotes here, and the scope that holds it. -/
def resolve (b : Builder) (name : Name) : Option (Decl × ScopeId) :=
  (b.inner ++ [b.globals]).findSome? fun scope => (scope.find? name).map fun decl => (decl, scope.id)

/-- The type that a declaration was given. -/
def declType? (b : Builder) : Decl → Option Ty
  | .node id => b.attrs.type? id
  | .host host => b.hostTypes.lookup host

def declName? (b : Builder) : Decl → Option Name
  | .node id => (b.arena.kind? id).bind NodeKind.declaredName?
  | .host host => some host.name

/-- The type that the application of an operator is given. -/
def binaryType (op : BinaryOp) (left right : Ty) : Ty :=
  match op with
  | .and | .or | .gt | .lt | .ge | .le | .eq | .ne => .bool
  | .matmul => .array (.array .float)
  | .add => if left.isString || right.isString then .string else arithmetic
  | .mul | .div | .rem | .sub => arithmetic
where
  arithmetic : Ty :=
    if left.isArray && right.isArray then
      let leaf := if left.leaf.isFloat || right.leaf.isFloat then Ty.float else Ty.int
      leaf.nested left.dimensions
    else if left.isFloat || right.isFloat then .float
    else .int

/-- The type of a field: the length of an array, or the field that the latest struct of the stem's
name declares. -/
def fieldType (b : Builder) (stem : Ty) (field : Name) : Ty :=
  match stem with
  | .array _ => .int
  | .struct name =>
    match (b.structFields.lookup name).bind fun fields => fields.lookup field with
    | some ty => ty
    | none => .void
  | _ => .void

/-- The type of a call, by its callee's node. -/
def callType (b : Builder) (callee : NodeId) : Ty :=
  match b.arena.kind? callee with
  | some (.constructor reference) =>
    match (b.attrs.decl? reference).bind b.declName? with
    | some name => .struct name
    | none => .void
  | _ => ((b.attrs.decl? callee).bind fun decl => b.returns.lookup decl).getD .void

/-! ## Internal steps -/

def intern (text : String) : BuildM Name :=
  modifyGet fun b =>
    let (name, interner) := b.interner.intern text
    (name, { b with interner })

/-- Allocates a node at the current span. -/
def alloc (kind : NodeKind) : BuildM NodeId :=
  modifyGet fun b =>
    let (id, arena) := b.arena.alloc kind b.span
    (id, { b with arena })

def setType (node : NodeId) (ty : Ty) : BuildM Unit :=
  modify fun b => { b with attrs := b.attrs.setType node ty }

def setScope (node : NodeId) (scope : ScopeId) : BuildM Unit :=
  modify fun b => { b with attrs := b.attrs.setScope node scope }

/-- Keeps the first problem. -/
def fail (error : BuildError) : BuildM Unit :=
  modify fun b => { b with error := b.error.or (some error) }

def typeOf (node : NodeId) : BuildM Ty := do
  return (← get).attrs.typeOf node

/-- Allocates an expression of a type. -/
def expr (kind : NodeKind) (ty : Ty) : BuildM NodeId := do
  let node ← alloc kind
  setType node ty
  return node

/-- Appends a statement to the innermost open block. -/
def emit (statement : NodeId) : BuildM NodeId := do
  modify fun b =>
    match b.blocks with
    | [] => { b with statements := statement :: b.statements }
    | block :: outer => { b with blocks := (statement :: block) :: outer }
  return statement

/-- Opens a scope inside the current one. -/
def openScope : BuildM ScopeId :=
  modifyGet fun b =>
    let (id, attrs) := b.attrs.newScope (some b.currentScope.id)
    (id, { b with attrs, inner := ⟨id, []⟩ :: b.inner })

def closeScope : BuildM Unit :=
  modify fun b => { b with inner := b.inner.tail }

def openBlock : BuildM Unit :=
  modify fun b => { b with blocks := [] :: b.blocks }

/-- Closes the innermost block and returns its statements in order. -/
def closeBlock : BuildM (List NodeId) :=
  modifyGet fun b => ((b.blocks.headD []).reverse, { b with blocks := b.blocks.tail })

/-- A block with a scope of its own around what `body` emits. -/
def scopedBlock (body : BuildM Unit) : BuildM NodeId := do
  let scope ← openScope
  openBlock
  body
  let statements ← closeBlock
  closeScope
  let block ← alloc (.block statements)
  setScope block scope
  return block

/-- Declares a name in the current scope. A second declaration there is a problem, and still the
one that later references find. -/
def declare (name : Name) (node : NodeId) : BuildM Unit := do
  let scope := (← get).currentScope
  setScope node scope.id
  modify fun b =>
    match b.inner with
    | [] => { b with globals := b.globals.insert name (.node node) }
    | current :: outer => { b with inner := current.insert name (.node node) :: outer }
  if (scope.find? name).isSome then
    fail (.redeclared ((← get).interner.lookup name))

/-- Declares a host name among the globals, in place of what the name meant there. -/
def host (name : String) (kind : HostKind) (ty : Ty) : BuildM Decl := do
  let host : Host := ⟨← intern name, kind⟩
  modify fun b =>
    { b with
      hostTypes := (host, ty) :: b.hostTypes
      globals := b.globals.insert host.name (.host host) }
  return .host host

/-- Declares a builtin function by its result type. -/
def builtin (name : String) (returns : Ty) : BuildM Unit := do
  let decl ← host name .function .function
  modify fun b => { b with returns := (decl, returns) :: b.returns }

/-- The node of a variable declaration, not yet emitted. The initializer does not see the name. -/
def declareVar (name : String) (ty : Ty) (initializer : NodeId) : BuildM NodeId := do
  let name ← intern name
  let node ← alloc (.varDecl name initializer)
  setType node ty
  declare name node
  return node

/-! ## Places -/

/-- Nodes that are allocated from here on have this span. -/
def setSpan (span : Span) : BuildM Unit :=
  modify fun b => { b with span }

/-- Builds something at a span and goes back to the span before it. -/
def located {α : Type} (span : Span) (body : BuildM α) : BuildM α := do
  let previous := (← get).span
  setSpan span
  let result ← body
  setSpan previous
  return result

/-! ## Labels -/

/-- Gives a node a label, which an earlier node loses. -/
def label (key : String) (node : NodeId) : BuildM Unit :=
  modify fun b => { b with labels := (key, node) :: b.labels }

/-- The node with a label. -/
def labelled? (b : Builder) (key : String) : Option NodeId := b.labels.lookup key

/-! ## Expressions -/

def int (value : Int64) : BuildM NodeId := expr (.intLiteral value) .int

def float (value : Float) : BuildM NodeId := expr (.floatLiteral value) .float

def string (value : String) : BuildM NodeId := expr (.stringLiteral value) .string

/-- A reference takes its scope and its type from the declaration it denotes. -/
def reference (name : String) : BuildM NodeId := do
  let interned ← intern name
  let node ← alloc (.reference interned)
  match (← get).resolve interned with
  | some (decl, scope) =>
    modify fun b =>
      let attrs := (b.attrs.setDecl node decl).setScope node scope
      match b.declType? decl with
      | some ty => { b with attrs := attrs.setType node ty }
      | none => { b with attrs }
  | none => fail (.unresolved name)
  return node

/-- The truth values are names like any other. -/
def boolean (value : Bool) : BuildM NodeId := reference (if value then "true" else "false")

def null : BuildM NodeId := reference "null"

/-- The constructor of a struct, as a callee. -/
def constructor (name : String) : BuildM NodeId := do
  let reference ← reference name
  let b ← get
  let isStruct :=
    match b.attrs.decl? reference with
    | some (.node decl) => (b.arena.kind? decl).any NodeKind.isStructDecl
    | _ => false
  unless isStruct do fail (.notAStruct name)
  expr (.constructor reference) .function

def paren (inner : NodeId) : BuildM NodeId := do
  expr (.parenthesized inner) (← typeOf inner)

/-- An array literal has the element type of its first element. -/
def array (elements : List NodeId) : BuildM NodeId := do
  let element ←
    match elements with
    | [] => pure Ty.void
    | first :: _ => typeOf first
  expr (.arrayLiteral elements) (.array element)

def index (array index : NodeId) : BuildM NodeId := do
  let element :=
    match ← typeOf array with
    | .array element => element
    | _ => .void
  expr (.arrayAccess array index) element

def field (stem : NodeId) (field : String) : BuildM NodeId := do
  let field ← intern field
  let ty := (← get).fieldType (← typeOf stem) field
  expr (.fieldAccess stem field) ty

def callWith (callee : NodeId) (arguments : List NodeId) : BuildM NodeId := do
  let ty := (← get).callType callee
  expr (.call callee arguments) ty

/-- A call of a named function; the arguments are built before the reference to it. -/
def call (callee : String) (arguments : List NodeId) : BuildM NodeId := do
  callWith (← reference callee) arguments

def not (operand : NodeId) : BuildM NodeId := expr (.not operand) .bool

def binary (op : BinaryOp) (left right : NodeId) : BuildM NodeId := do
  expr (.binary op left right) (binaryType op (← typeOf left) (← typeOf right))

def assign (target value : NodeId) : BuildM NodeId := do
  expr (.assignment target value) (← typeOf target)

/-! ## Statements -/

def expression (inner : NodeId) : BuildM NodeId := do
  emit (← alloc (.expression inner))

/-- The statement that assigns to a name. -/
def set (name : String) (value : NodeId) : BuildM NodeId := do
  let target ← reference name
  expression (← assign target value)

def var (name : String) (ty : Ty) (initializer : NodeId) : BuildM NodeId := do
  emit (← declareVar name ty initializer)

/-- The statement that launches a call as a task. -/
def launch (callee : String) (arguments : List NodeId) : BuildM NodeId := do
  let call ← call callee arguments
  let node ← alloc (.launch call)
  setType node .void
  emit node

/-- The statement that declares a variable and launches the call that computes it. -/
def launchVar (name : String) (ty : Ty) (callee : String) (arguments : List NodeId) :
    BuildM NodeId := do
  let call ← call callee arguments
  let declaration ← declareVar name ty call
  let node ← alloc (.launchDecl declaration)
  setType node .void
  emit node

def ret (value : Option NodeId) : BuildM NodeId := do
  emit (← alloc (.ret value))

def block (body : BuildM Unit) : BuildM NodeId := do
  emit (← scopedBlock body)

def protect (body : BuildM Unit) : BuildM NodeId := do
  let block ← scopedBlock body
  emit (← alloc (.protect block))

def ifThen (condition : NodeId) (thenBranch : BuildM Unit) : BuildM NodeId := do
  let thenBranch ← scopedBlock thenBranch
  emit (← alloc (.conditional condition thenBranch none))

def ifElse (condition : NodeId) (thenBranch elseBranch : BuildM Unit) : BuildM NodeId := do
  let thenBranch ← scopedBlock thenBranch
  let elseBranch ← scopedBlock elseBranch
  emit (← alloc (.conditional condition thenBranch (some elseBranch)))

def whileLoop (condition : NodeId) (body : BuildM Unit) : BuildM NodeId := do
  let body ← scopedBlock body
  emit (← alloc (.loop condition body))

/-- Declares a parameter in the parameter scope that is open. -/
def parameter (name : String) (ty : Ty) : BuildM NodeId := do
  let name ← intern name
  let node ← alloc (.parameter name)
  setType node ty
  declare name node
  return node

/-- A function is declared before its parameters and its body are built, so it may call itself. Its
node is allocated first and gets its parameters and body at the end. -/
def function (name : String) (parameters : List (String × Ty)) (returns : Ty)
    (body : BuildM Unit) : BuildM NodeId := do
  let name ← intern name
  let node ← alloc (.funDecl name [] .invalid)
  setType node .function
  modify fun b => { b with returns := (.node node, returns) :: b.returns }
  declare name node
  let bodyScope ← openScope
  modify fun b => { b with attrs := b.attrs.setBodyScope node bodyScope }
  let parameters ← parameters.mapM fun (name, ty) => parameter name ty
  let body ← scopedBlock body
  closeScope
  modify fun b => { b with arena := b.arena.setKind node (.funDecl name parameters body) }
  emit node

/-- The node of a field declaration, with the field's name and type. -/
def fieldDecl (name : String) (ty : Ty) : BuildM (NodeId × Name × Ty) := do
  let name ← intern name
  let node ← alloc (.fieldDecl name)
  setType node ty
  return (node, name, ty)

/-- A struct is known by its name to the fields that are read from its instances. -/
def struct (name : String) (fields : List (String × Ty)) : BuildM NodeId := do
  let name ← intern name
  let fields ← fields.mapM fun (field, ty) => fieldDecl field ty
  let node ← alloc (.structDecl name (fields.map Prod.fst))
  setType node .type
  modify fun b =>
    { b with
      returns := (.node node, .struct name) :: b.returns
      structFields := (name, fields.map Prod.snd) :: b.structFields }
  declare name node
  emit node

/-! ## Start and end -/

/-- The builder before any declaration, in its root scope. -/
def blank : Builder :=
  let (root, attrs) := Attributes.empty.newScope none
  { arena := .empty, attrs, interner := .new, globals := ⟨root, []⟩, inner := [],
    statements := [], blocks := [], hostTypes := [], returns := [], structFields := [],
    span := .dummy, labels := [], error := none }

/-- The names that every program starts with. -/
def prelude : BuildM Unit := do
  for (name, ty) in [("true", Ty.bool), ("false", .bool), ("null", .null)] do
    let _ ← host name .value ty
  builtin "print" .string
  builtin "wait" .void
  for name in ["Int", "Float", "Bool", "String", "Void", "Type"] do
    let _ ← host name .type .type

/-- A builder that knows the host's constants, builtins and types. -/
def new : Builder := (prelude.run blank).2

/-- The finished program, or the first problem. -/
def finish (b : Builder) : Except BuildError Program :=
  match b.error with
  | some error => .error error
  | none =>
    let (root, arena) := b.arena.alloc (.root b.statements.reverse) b.span
    .ok ⟨arena, b.attrs.setScope root b.globals.id, b.interner, root⟩

/-- The program that a sequence of building steps makes. -/
def build (steps : BuildM Unit) : Except BuildError Program := (steps.run new).2.finish

end Builder

end Strand
