import Strand.Ident
import Strand.Operator
import Strand.Span

/-!
# The syntax arena

A program is a flat array of nodes that refer to each other by position. A node's position is also
its identity at run time: one protected block is one lock site because it is one node.

Nothing here forces a child to exist. A position outside the arena is a fact about the program that
the evaluator meets only when it visits the child.
-/

set_option autoImplicit false

namespace Strand

/-- What kind of thing a host declaration, which has no node, declares. -/
inductive HostKind where
  | value
  | function
  | type
deriving DecidableEq, Inhabited, Repr

/-- A name that the host declares: a constant, a builtin function or a builtin type. -/
structure Host where
  name : Name
  kind : HostKind
deriving DecidableEq, Inhabited, Repr

/-- What a reference denotes: a declaring node, or a host declaration. -/
inductive Decl where
  | node (id : NodeId)
  | host (host : Host)
deriving DecidableEq, Inhabited, Repr

/-- The shape of a node: expressions, then statements, concurrency and declarations. -/
inductive NodeKind where
  | intLiteral (value : Int64)
  | floatLiteral (value : Float)
  | stringLiteral (value : String)
  | reference (name : Name)
  | constructor (reference : NodeId)
  | parenthesized (inner : NodeId)
  | arrayLiteral (elements : List NodeId)
  | arrayAccess (array index : NodeId)
  | fieldAccess (stem : NodeId) (field : Name)
  | call (callee : NodeId) (arguments : List NodeId)
  | not (operand : NodeId)
  | binary (op : BinaryOp) (left right : NodeId)
  | assignment (target value : NodeId)
  | root (statements : List NodeId)
  | block (statements : List NodeId)
  | expression (inner : NodeId)
  | conditional (condition thenBranch : NodeId) (elseBranch : Option NodeId)
  | loop (condition body : NodeId)
  | ret (value : Option NodeId)
  | launch (call : NodeId)
  | launchDecl (declaration : NodeId)
  | protect (block : NodeId)
  | varDecl (name : Name) (initializer : NodeId)
  | funDecl (name : Name) (parameters : List NodeId) (body : NodeId)
  | parameter (name : Name)
  | structDecl (name : Name) (fields : List NodeId)
  | fieldDecl (name : Name)
deriving DecidableEq, Inhabited

namespace NodeKind

/-- The name that a declaration declares. -/
def declaredName? : NodeKind → Option Name
  | varDecl name _ | funDecl name _ _ | parameter name | structDecl name _ | fieldDecl name =>
    some name
  | _ => none

def isRoot : NodeKind → Bool
  | root _ => true
  | _ => false

def isStructDecl : NodeKind → Bool
  | structDecl _ _ => true
  | _ => false

end NodeKind

/-- A node: its shape and its place in the source. -/
structure Node where
  kind : NodeKind
  span : Span
deriving Inhabited

/-- The nodes of a program in the order of their allocation. -/
structure Arena where
  nodes : Array Node
deriving Inhabited

namespace Arena

/-- The arena without nodes. -/
def empty : Arena := ⟨#[]⟩

/-- The number of nodes. -/
def size (arena : Arena) : Nat := arena.nodes.size

/-- Adds a node at the end; its position is its identity. -/
def alloc (arena : Arena) (kind : NodeKind) (span : Span) : NodeId × Arena :=
  (⟨arena.size⟩, ⟨arena.nodes.push ⟨kind, span⟩⟩)

@[inline] def node? (arena : Arena) (id : NodeId) : Option Node := arena.nodes[id.index]?

@[inline] def kind? (arena : Arena) (id : NodeId) : Option NodeKind := (arena.node? id).map Node.kind

/-- Gives an allocated node its final shape. -/
def setKind (arena : Arena) (id : NodeId) (kind : NodeKind) : Arena :=
  ⟨arena.nodes.modify id.index fun node => { node with kind }⟩

/-- A new node has the first position that was free, and the old ones stay where they are. -/
theorem node?_alloc (arena : Arena) (kind : NodeKind) (span : Span) (id : NodeId) :
    (arena.alloc kind span).2.node? id =
      if id = (arena.alloc kind span).1 then some ⟨kind, span⟩ else arena.node? id := by
  obtain ⟨i⟩ := id
  simp only [node?, alloc, size, Array.getElem?_push, NodeId.mk.injEq]

@[simp] theorem size_setKind (arena : Arena) (id : NodeId) (kind : NodeKind) :
    (arena.setKind id kind).size = arena.size := by
  simp [setKind, size]

theorem kind?_setKind (arena : Arena) (id other : NodeId) (kind : NodeKind) :
    (arena.setKind id kind).kind? other =
      if other = id then (arena.kind? other).map fun _ => kind else arena.kind? other := by
  obtain ⟨i⟩ := id
  obtain ⟨j⟩ := other
  simp only [kind?, node?, setKind, Array.getElem?_modify, NodeId.mk.injEq]
  by_cases same : i = j
  · simp [same, Function.comp_def]
  · simp [same, Ne.symm same]

end Arena

end Strand
