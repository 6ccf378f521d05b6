import Strand.Attributes
import Strand.Interner

/-!
# Programs

A program is an arena with its attributes, its interner and its root node. It does not change while
it runs. A program may also be put together by hand, with attributes that contradict the nodes; the
evaluator has an answer for each of those.

A position outside the arena has no node. Reading one is not a fault of the language but the end of
the evaluation that read it, and `OutOfRange` says how such a read is reported.
-/

set_option autoImplicit false

namespace Strand

/-- An array was read, unguarded, at a position that it does not have. -/
structure OutOfRange where
  length : Nat
  index : Nat
deriving DecidableEq, Inhabited, Repr

def OutOfRange.message (e : OutOfRange) : String :=
  s!"index out of bounds: the len is {e.length} but the index is {e.index}"

/-- An arena, what is known of its nodes, the texts of its names, and the node to run. -/
structure Program where
  arena : Arena
  attrs : Attributes
  interner : Interner
  root : NodeId
deriving Inhabited

namespace Program

def node (p : Program) (id : NodeId) : Except OutOfRange Node :=
  match p.arena.node? id with
  | some node => .ok node
  | none => .error ⟨p.arena.size, id.index⟩

@[inline] def kind (p : Program) (id : NodeId) : Except OutOfRange NodeKind :=
  match p.arena.kind? id with
  | some kind => .ok kind
  | none => .error ⟨p.arena.size, id.index⟩

/-- The text of a name. -/
def text (p : Program) (name : Name) : String := p.interner.lookup name

/-- The span of a node; a node outside the arena has the dummy span. -/
def span (p : Program) (id : NodeId) : Span :=
  match p.arena.node? id with
  | some node => node.span
  | none => .dummy

/-- The name that a declaration declares, as text; empty for a node that declares nothing. -/
def declName (p : Program) : Decl → Except OutOfRange String
  | .host host => .ok (p.text host.name)
  | .node id => (p.kind id).map fun kind =>
    match kind.declaredName? with
    | some name => p.text name
    | none => ""

def isRoot (p : Program) (id : NodeId) : Except OutOfRange Bool :=
  (p.kind id).map NodeKind.isRoot

/-- Interns a text into the program's interner. -/
def intern (p : Program) (text : String) : Name × Program :=
  let (name, interner) := p.interner.intern text
  (name, { p with interner })

/-- For diagnostics, as in `Program \x7b nodes: 7, root: NodeId(6), .. \x7d`. -/
def describe (p : Program) : String :=
  "Program \x7b nodes: " ++ toString p.arena.size ++ ", root: " ++ p.root.describe ++ ", .. \x7d"

end Program

end Strand
