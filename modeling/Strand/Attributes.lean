import Strand.Syntax
import Strand.Ty

/-!
# Attributes

What analysis finds out about nodes is kept beside the arena: the scope a node lives in, the
parameter scope of a function, the static type, and the declaration that a reference denotes. The
scope table gives every scope its enclosing scope; the first scope made without one is the root
scope.
-/

set_option autoImplicit false

namespace Strand

/-- The scope table and the four attributes of nodes. -/
structure Attributes where
  parents : Array (Option ScopeId)
  rootScope : ScopeId
  scopes : Std.TreeMap NodeId ScopeId
  bodyScopes : Std.TreeMap NodeId ScopeId
  types : Std.TreeMap NodeId Ty
  decls : Std.TreeMap NodeId Decl

namespace Attributes

/-- No scopes, no attributes; the root scope is invalid until a scope without parent is made. -/
def empty : Attributes := ⟨#[], .invalid, .empty, .empty, .empty, .empty⟩

instance : Inhabited Attributes := ⟨empty⟩

/-- Makes a scope inside `parent`. -/
def newScope (attrs : Attributes) (parent : Option ScopeId) : ScopeId × Attributes :=
  let scope : ScopeId := ⟨attrs.parents.size⟩
  let rootScope :=
    if parent.isNone && !attrs.rootScope.isValid then scope else attrs.rootScope
  (scope, { attrs with parents := attrs.parents.push parent, rootScope })

def scopeCount (attrs : Attributes) : Nat := attrs.parents.size

def setScope (attrs : Attributes) (node : NodeId) (scope : ScopeId) : Attributes :=
  { attrs with scopes := attrs.scopes.insert node scope }

def setBodyScope (attrs : Attributes) (function : NodeId) (scope : ScopeId) : Attributes :=
  { attrs with bodyScopes := attrs.bodyScopes.insert function scope }

def setType (attrs : Attributes) (node : NodeId) (ty : Ty) : Attributes :=
  { attrs with types := attrs.types.insert node ty }

def setDecl (attrs : Attributes) (node : NodeId) (decl : Decl) : Attributes :=
  { attrs with decls := attrs.decls.insert node decl }

/-- The scope that a node's name belongs to, or that a block opens. -/
def scope? (attrs : Attributes) (node : NodeId) : Option ScopeId := attrs.scopes[node]?

/-- The scope that holds the parameters of a function. -/
def bodyScope? (attrs : Attributes) (function : NodeId) : Option ScopeId :=
  attrs.bodyScopes[function]?

/-- The scope that encloses a scope. -/
def parent? (attrs : Attributes) (scope : ScopeId) : Option ScopeId :=
  (attrs.parents[scope.index]?).join

def type? (attrs : Attributes) (node : NodeId) : Option Ty := attrs.types[node]?

/-- The static type of a node; `Void` where analysis recorded none. -/
def typeOf (attrs : Attributes) (node : NodeId) : Ty := (attrs.type? node).getD .void

/-- What a reference denotes. -/
def decl? (attrs : Attributes) (node : NodeId) : Option Decl := attrs.decls[node]?

/-! ### What is recorded reads back -/

theorem scope?_setScope (attrs : Attributes) (node other : NodeId) (scope : ScopeId) :
    (attrs.setScope node scope).scope? other =
      if other = node then some scope else attrs.scope? other := by
  simp only [scope?, setScope, Std.TreeMap.getElem?_insert, Std.LawfulEqCmp.compare_eq_iff_eq]
  simp only [eq_comm]

theorem bodyScope?_setBodyScope (attrs : Attributes) (function other : NodeId) (scope : ScopeId) :
    (attrs.setBodyScope function scope).bodyScope? other =
      if other = function then some scope else attrs.bodyScope? other := by
  simp only [bodyScope?, setBodyScope, Std.TreeMap.getElem?_insert,
    Std.LawfulEqCmp.compare_eq_iff_eq]
  simp only [eq_comm]

theorem type?_setType (attrs : Attributes) (node other : NodeId) (ty : Ty) :
    (attrs.setType node ty).type? other =
      if other = node then some ty else attrs.type? other := by
  simp only [type?, setType, Std.TreeMap.getElem?_insert, Std.LawfulEqCmp.compare_eq_iff_eq]
  simp only [eq_comm]

theorem decl?_setDecl (attrs : Attributes) (node other : NodeId) (decl : Decl) :
    (attrs.setDecl node decl).decl? other =
      if other = node then some decl else attrs.decl? other := by
  simp only [decl?, setDecl, Std.TreeMap.getElem?_insert, Std.LawfulEqCmp.compare_eq_iff_eq]
  simp only [eq_comm]

/-- A new scope has the parent it was made with, and the old ones keep theirs. -/
theorem parent?_newScope (attrs : Attributes) (parent : Option ScopeId) (scope : ScopeId) :
    (attrs.newScope parent).2.parent? scope =
      if scope = (attrs.newScope parent).1 then parent else attrs.parent? scope := by
  obtain ⟨i⟩ := scope
  simp only [parent?, newScope, Array.getElem?_push, ScopeId.mk.injEq]
  split <;> rfl

end Attributes

end Strand
