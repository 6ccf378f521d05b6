import Std.Data.TreeMap

/-!
# Identities

Nodes, scopes and names are addressed by numbers. Each kind of number has its own type, so a scope
is never looked up as a node. The largest 32-bit number is kept free: as a node or a scope it is the
*invalid* identity, which no arena or scope table ever hands out.

`NodeId` and `Name` are ordered by their number and serve as keys of tree maps.
-/

set_option autoImplicit false

namespace Strand

/-- The number that stands for "no such node" and "no such scope". -/
def invalidIndex : Nat := 4294967295

/-- The identity of a node of the syntax arena: its position. -/
structure NodeId where
  index : Nat
deriving DecidableEq, Inhabited, Repr

/-- The identity of a lexical scope: its position in the scope table. -/
structure ScopeId where
  index : Nat
deriving DecidableEq, Inhabited, Repr

/-- An interned identifier: the position of its text in the interner. -/
structure Name where
  index : Nat
deriving DecidableEq, Inhabited, Repr

namespace NodeId

/-- The node that no arena contains. -/
def invalid : NodeId := ⟨invalidIndex⟩

def isValid (n : NodeId) : Bool := n.index != invalidIndex

/-- For diagnostics: `NodeId(3)`, or `NodeId::INVALID`. -/
def describe (n : NodeId) : String :=
  if n.isValid then s!"NodeId({n.index})" else "NodeId::INVALID"

instance : Ord NodeId := ⟨fun a b => compare a.index b.index⟩

instance : Std.TransOrd NodeId := inferInstanceAs (Std.TransCmp (compareOn NodeId.index))

instance : Std.LawfulEqOrd NodeId where
  eq_of_compare {a b} h := by
    have key : a.index = b.index := Nat.compare_eq_eq.mp h
    cases a; cases b; simp_all

end NodeId

namespace ScopeId

/-- The scope that no scope table contains. -/
def invalid : ScopeId := ⟨invalidIndex⟩

def isValid (s : ScopeId) : Bool := s.index != invalidIndex

/-- For diagnostics: `ScopeId(3)`, or `ScopeId::INVALID`. -/
def describe (s : ScopeId) : String :=
  if s.isValid then s!"ScopeId({s.index})" else "ScopeId::INVALID"

end ScopeId

namespace Name

/-- The name of the empty text, which every interner holds from the start. -/
def empty : Name := ⟨0⟩

/-- For diagnostics: `Name(3)`. -/
def describe (n : Name) : String := s!"Name({n.index})"

end Name

end Strand
