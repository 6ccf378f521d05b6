import Mathlib.Data.List.Infix
import Strand.Builder

/-!
# Calls of the builder, and what they mean

Whoever builds a program calls the builder, and hands it the calls that make a body. So what is called is a
tree, `Call`. It can mention any node, also one that was made elsewhere.

What the calls mean is said without the builder. They have a *record*: the events of the building in their
order (`Event`), with the nodes and the scopes numbered as they come. The scopes around a call are those of
the bodies around it in the tree. What a name denotes is read off the record (`resolve`): the latest
declaration, among the events before, in the innermost scope around that has one. So are the problems of a
program (`problems`), and the statements of a block (`statementsAt`).
-/

set_option autoImplicit false

namespace Strand

/-! ## 1. Calls -/

/-- An expression that has no name to resolve. -/
inductive Plain where
  | int (value : Int64)
  | float (value : Float)
  | string (value : String)
  | paren (inner : NodeId)
  | array (elements : List NodeId)
  | index (stem position : NodeId)
  | field (stem : NodeId) (name : String)
  | callWith (callee : NodeId) (arguments : List NodeId)
  | not (operand : NodeId)
  | binary (op : BinaryOp) (left right : NodeId)
  | assign (target value : NodeId)
deriving Inhabited

def Plain.build : Plain → BuildM NodeId
  | int value => Builder.int value
  | float value => Builder.float value
  | string value => Builder.string value
  | paren inner => Builder.paren inner
  | array elements => Builder.array elements
  | index stem position => Builder.index stem position
  | field stem name => Builder.field stem name
  | callWith callee arguments => Builder.callWith callee arguments
  | not operand => Builder.not operand
  | binary op left right => Builder.binary op left right
  | assign target value => Builder.assign target value

/-- The nodes that an expression is made of. -/
def Plain.operands : Plain → List NodeId
  | int _ | float _ | string _ => []
  | paren inner | not inner => [inner]
  | array elements => elements
  | index stem position => [stem, position]
  | field stem _ => [stem]
  | callWith callee arguments => callee :: arguments
  | binary _ left right => [left, right]
  | assign target value => [target, value]

/-- A call of the builder. A construct that opens a scope comes with the calls that make its body. -/
inductive Call where
  | builtin (name : String) (returns : Ty)
  | setSpan (span : Span)
  | name (text : String)
  | plain (expression : Plain)
  | reference (name : String)
  | boolean (value : Bool)
  | null
  | constructor (name : String)
  | call (callee : String) (arguments : List NodeId)
  | expression (inner : NodeId)
  | set (name : String) (value : NodeId)
  | var (name : String) (ty : Ty) (initializer : NodeId)
  | launch (callee : String) (arguments : List NodeId)
  | launchVar (name : String) (ty : Ty) (callee : String) (arguments : List NodeId)
  | ret (value : Option NodeId)
  | block (body : List Call)
  | protect (body : List Call)
  | ifThen (condition : NodeId) (thenBranch : List Call)
  | ifElse (condition : NodeId) (thenBranch elseBranch : List Call)
  | whileLoop (condition : NodeId) (body : List Call)
  | function (name : String) (parameters : List (String × Ty)) (returns : Ty) (body : List Call)
  | struct (name : String) (fields : List (String × Ty))
deriving Inhabited

mutual

/-- Calls the builder. Most calls return a node. -/
def Call.run : Call → BuildM (Option NodeId)
  | .builtin text returns => do
    Builder.builtin text returns
    return none
  | .setSpan span => do
    Builder.setSpan span
    return none
  | .name text => do
    discard (Builder.intern text)
    return none
  | .plain e => some <$> e.build
  | .reference text => some <$> Builder.reference text
  | .boolean value => some <$> Builder.boolean value
  | .null => some <$> Builder.null
  | .constructor text => some <$> Builder.constructor text
  | .call callee arguments => some <$> Builder.call callee arguments
  | .expression inner => some <$> Builder.expression inner
  | .set text value => some <$> Builder.set text value
  | .var text ty initializer => some <$> Builder.var text ty initializer
  | .launch callee arguments => some <$> Builder.launch callee arguments
  | .launchVar text ty callee arguments => some <$> Builder.launchVar text ty callee arguments
  | .ret value => some <$> Builder.ret value
  | .block body => some <$> Builder.block (discard (runAll body))
  | .protect body => some <$> Builder.protect (discard (runAll body))
  | .ifThen condition thenBranch =>
    some <$> Builder.ifThen condition (discard (runAll thenBranch))
  | .ifElse condition thenBranch elseBranch =>
    some <$> Builder.ifElse condition (discard (runAll thenBranch)) (discard (runAll elseBranch))
  | .whileLoop condition body => some <$> Builder.whileLoop condition (discard (runAll body))
  | .function text parameters returns body =>
    some <$> Builder.function text parameters returns (discard (runAll body))
  | .struct text fields => some <$> Builder.struct text fields

/-- Calls the builder several times in order. -/
def Call.runAll : List Call → BuildM (List (Option NodeId))
  | [] => return []
  | first :: rest => do
    let result ← first.run
    return result :: (← runAll rest)

end

/-- The program that calls make, or its first problem. -/
def Call.program (calls : List Call) : Except BuildError Program :=
  ((Call.runAll calls).run Builder.new).2.finish

/-! ## 2. Events -/

/-- What happens while a program is built. -/
inductive Event where
  /-- The builder is called with these nodes. -/
  | call (arguments : List NodeId)
  /-- The builder has returned a node to its caller. -/
  | returned (node : NodeId)
  /-- There is a new node, and it has these children. -/
  | node (id : NodeId) (children : List NodeId)
  /-- There is a new reference to a name, inside these scopes, the innermost first. -/
  | reference (id : NodeId) (path : List ScopeId) (text : String)
  /-- The constructor of a struct of a name is asked for. -/
  | constructor (path : List ScopeId) (text : String)
  /-- There is a new node that declares a name in a scope. -/
  | declaration (id : NodeId) (scope : ScopeId) (text : String) (isStruct : Bool)
      (children : List NodeId)
  /-- There is a new function, declared in a scope. Its parameters and its body are still to come. -/
  | function (id : NodeId) (scope : ScopeId) (text : String)
  /-- The host declares a name. -/
  | host (text : String) (kind : HostKind)
  /-- A scope opens inside another one. -/
  | scope (id outside : ScopeId)
  /-- The scope that has just been opened is for the parameters of a function. -/
  | parameters (function : NodeId) (scope : ScopeId)
  /-- A scope is closed, and there is a new block with its statements. -/
  | block (id : NodeId) (scope : ScopeId) (statements : List NodeId)
  /-- A function has its parameters and its body. -/
  | finished (function : NodeId) (parameters : List NodeId) (body : NodeId)
  /-- A statement goes to the block of a scope. -/
  | statement (scope : ScopeId) (id : NodeId)

/-- The outermost scope. -/
def ScopeId.outermost : ScopeId := ⟨0⟩

/-- What a name means: a node that declares it, a struct, or something of the host. -/
inductive Meaning where
  | node (id : NodeId)
  | struct (id : NodeId)
  | host (kind : HostKind)
deriving DecidableEq, Inhabited

namespace Meaning

/-- The declaration that a name of this meaning denotes. -/
def decl (name : Name) : Meaning → Decl
  | node id | struct id => .node id
  | host kind => .host ⟨name, kind⟩

def isStruct : Meaning → Bool
  | struct _ => true
  | _ => false

end Meaning

namespace Event

/-- The node that is made. -/
def made? : Event → Option NodeId
  | node id _ | reference id _ _ | declaration id _ _ _ _ | function id _ _ | block id _ _ => some id
  | _ => none

/-- The node that has its children from now on, with the children. -/
def completed? : Event → Option (NodeId × List NodeId)
  | node id children | declaration id _ _ _ children => some (id, children)
  | reference id _ _ => some (id, [])
  | block id _ statements => some (id, statements)
  | finished id declared body => some (id, declared ++ [body])
  | _ => none

def isScope : Event → Bool
  | scope _ _ => true
  | _ => false

/-- The meaning that a name gets in a scope. -/
def meaning? (scope : ScopeId) (text : String) : Event → Option Meaning
  | declaration id s t isStruct _ =>
    if s = scope ∧ t = text then some (if isStruct then .struct id else .node id) else none
  | function id s t => if s = scope ∧ t = text then some (.node id) else none
  | host t kind => if scope = .outermost ∧ t = text then some (.host kind) else none
  | _ => none

/-- The statement that goes to a block. -/
def emitted? : Event → Option NodeId
  | statement _ id => some id
  | _ => none

/-- The statement that goes to the block of a scope. -/
def statement? (scope : ScopeId) : Event → Option NodeId
  | statement s id => if s = scope then some id else none
  | _ => none

end Event

/-! ## 3. Reading a record -/

/-- The number of nodes that have been made. -/
def nodesIn (events : List Event) : Nat := events.countP fun e => e.made?.isSome

/-- The number of scopes that there are, with the outermost one. -/
def scopesIn (events : List Event) : Nat := events.countP Event.isScope + 1

/-- The latest meaning of a name in a scope. -/
def latest (events : List Event) (scope : ScopeId) (text : String) : Option Meaning :=
  events.reverse.findSome? (Event.meaning? scope text)

/-- What a name denotes inside these scopes, the innermost first, and the scope that declares it. -/
def resolve (events : List Event) (path : List ScopeId) (text : String) : Option (Meaning × ScopeId) :=
  path.findSome? fun scope => (latest events scope text).map fun meaning => (meaning, scope)

/-- The statements that have gone to the block of a scope, in their order. -/
def statementsAt (events : List Event) (scope : ScopeId) : List NodeId :=
  events.filterMap (Event.statement? scope)

/-- An event is a problem if, after the events before it, a name denotes nothing, or no struct, or if it is
declared again in the same scope. The host may declare a name again. -/
def Event.problem? (before : List Event) : Event → Option BuildError
  | .reference _ path text =>
    if (resolve before path text).isNone then some (.unresolved text) else none
  | .constructor path text =>
    if (resolve before path text).any fun found => found.1.isStruct then none
    else some (.notAStruct text)
  | .declaration _ s text _ _ | .function _ s text =>
    if (latest before s text).isSome then some (.redeclared text) else none
  | _ => none

/-- The problems of some events after others, in their order. -/
def problemsAfter (before : List Event) : List Event → List BuildError
  | [] => []
  | e :: events => (e.problem? before).toList ++ problemsAfter (before ++ [e]) events

/-- The problems of a program. -/
def problems (events : List Event) : List BuildError := problemsAfter [] events

/-- An event happens just after the events before it. -/
def Happens (events before : List Event) (e : Event) : Prop := before ++ [e] <+: events

/-! ## 4. Recording -/

/-- Where in the tree of calls a call is: the scopes around it, and those of the blocks around it, the
innermost first. The outermost scope is not listed. -/
structure Position where
  scopes : List ScopeId
  blocks : List ScopeId

namespace Position

def top : Position := ⟨[], []⟩

/-- The scopes around a place, with the outermost one. -/
def path (place : Position) : List ScopeId := place.scopes ++ [.outermost]

/-- The innermost scope around a place. -/
def here (place : Position) : ScopeId := place.scopes.headD .outermost

/-- The innermost block around a place. -/
def block (place : Position) : ScopeId := place.blocks.headD .outermost

/-- A place inside a scope that is no block. -/
def inside (place : Position) (scope : ScopeId) : Position := { place with scopes := scope :: place.scopes }

/-- A place inside a block. -/
def within (place : Position) (scope : ScopeId) : Position :=
  ⟨scope :: place.scopes, scope :: place.blocks⟩

end Position

/-- Something that adds events to a record. -/
abbrev Recording := StateM (List Event)

namespace Recording

def add (e : Event) : Recording Unit := modify fun events => events ++ [e]

/-- Adds an event that makes a node. -/
def make (e : NodeId → Event) : Recording NodeId :=
  modifyGet fun events => (⟨nodesIn events⟩, events ++ [e ⟨nodesIn events⟩])

/-- Adds the event that opens a scope. -/
def openScope (outside : ScopeId) : Recording ScopeId :=
  modifyGet fun events => (⟨scopesIn events⟩, events ++ [.scope ⟨scopesIn events⟩ outside])

def node (children : List NodeId) : Recording NodeId := make (.node · children)

/-- A call of the builder with some nodes, which returns a node. -/
def returning (arguments : List NodeId) (body : Recording NodeId) : Recording (Option NodeId) := do
  add (.call arguments)
  let node ← body
  add (.returned node)
  return some node

end Recording

namespace Position

open Recording

variable (place : Position)

def reference (text : String) : Recording NodeId := make (.reference · place.path text)

def declaration (text : String) (isStruct : Bool) (children : List NodeId) : Recording NodeId :=
  make (.declaration · place.here text isStruct children)

/-- A node goes to the innermost block, as a statement. -/
def statement (id : NodeId) : Recording NodeId := do
  add (.statement place.block id)
  return id

/-- A call of a named function. -/
def call (callee : String) (arguments : List NodeId) : Recording NodeId := do
  node ((← place.reference callee) :: arguments)

/-- A block around what a body adds. -/
def inBlock (body : Position → Recording Unit) : Recording NodeId := do
  let scope ← openScope place.here
  body (place.within scope)
  let statements := statementsAt (← get) scope
  make (.block · scope statements)

/-- A function is declared first. Its parameters have a scope around that of its body. -/
def function (text : String) (parameters : List (String × Ty))
    (body : Position → Recording Unit) : Recording NodeId := do
  let declared ← make (.function · place.here text)
  let scope ← openScope place.here
  add (.parameters declared scope)
  let place' := place.inside scope
  let parameters ← parameters.mapM fun parameter => place'.declaration parameter.1 false []
  let body ← place'.inBlock body
  add (.finished declared parameters body)
  return declared

/-- A struct is declared after its fields. -/
def struct (text : String) (fields : List (String × Ty)) : Recording NodeId := do
  let fields ← fields.mapM fun _ => node []
  place.declaration text true fields

end Position

open Recording in
mutual

/-- What a call at a place adds to the record. -/
def Call.record (place : Position) : Call → Recording (Option NodeId)
  | .builtin text _ => do
    add (.host text .function)
    return none
  | .setSpan _ | .name _ => return none
  | .plain e => returning e.operands (node e.operands)
  | .reference text => returning [] (place.reference text)
  | .boolean value => returning [] (place.reference (if value then "true" else "false"))
  | .null => returning [] (place.reference "null")
  | .constructor text => returning [] do
    let callee ← place.reference text
    add (.constructor place.path text)
    node [callee]
  | .call callee arguments => returning arguments (place.call callee arguments)
  | .expression inner => returning [inner] do place.statement (← node [inner])
  | .set text value => returning [value] do
    let target ← place.reference text
    let assignment ← node [target, value]
    place.statement (← node [assignment])
  | .var text _ initializer => returning [initializer] do
    place.statement (← place.declaration text false [initializer])
  | .launch callee arguments => returning arguments do
    let called ← place.call callee arguments
    place.statement (← node [called])
  | .launchVar text _ callee arguments => returning arguments do
    let called ← place.call callee arguments
    let declared ← place.declaration text false [called]
    place.statement (← node [declared])
  | .ret value => returning value.toList do place.statement (← node value.toList)
  | .block body => returning [] do
    place.statement (← place.inBlock fun place => discard (recordAll place body))
  | .protect body => returning [] do
    let block ← place.inBlock fun place => discard (recordAll place body)
    place.statement (← node [block])
  | .ifThen condition thenBranch => returning [condition] do
    let thenBranch ← place.inBlock fun place => discard (recordAll place thenBranch)
    place.statement (← node [condition, thenBranch])
  | .ifElse condition thenBranch elseBranch => returning [condition] do
    let thenBranch ← place.inBlock fun place => discard (recordAll place thenBranch)
    let elseBranch ← place.inBlock fun place => discard (recordAll place elseBranch)
    place.statement (← node [condition, thenBranch, elseBranch])
  | .whileLoop condition body => returning [condition] do
    let body ← place.inBlock fun place => discard (recordAll place body)
    place.statement (← node [condition, body])
  | .function text parameters _ body => returning [] do
    place.statement (← place.function text parameters fun place => discard (recordAll place body))
  | .struct text fields => returning [] do place.statement (← place.struct text fields)

/-- What several calls at a place add to the record. -/
def Call.recordAll (place : Position) : List Call → Recording (List (Option NodeId))
  | [] => return []
  | first :: rest => do
    let result ← first.record place
    return result :: (← recordAll place rest)

end

/-- What has happened before the first call: the host has declared its names. -/
def preludeEvents : List Event :=
  ["true", "false", "null"].map (.host · .value) ++ ["print", "wait"].map (.host · .function) ++
    ["Int", "Float", "Bool", "String", "Void", "Type"].map (.host · .type)

/-- The record of a program. -/
def Call.events (calls : List Call) : List Event :=
  ((Call.recordAll .top calls).run preludeEvents).2

end Strand
