import Mathlib.Data.List.Chain
import Mathlib.Data.List.Forall2
import Mathlib.Order.Defs.PartialOrder
import Strand.Program

/-!
# What a node may count on

A node is made somewhere: in certain scopes, after certain variables. Its `Context` says in which
scopes and after which variables, and a tree is *well-scoped* if every node asks for no more than its
context has, and if the nodes that it evaluates ask for no more than it has itself.

Nothing in a program tells the context of a node. A `Scoping` is a tree together with a context for
every node, and what is stated here holds of a program if there is such a choice of contexts.

An expression may be used deeper than where it was made: what it counts on is still around it there.
Whether it is used elsewhere too is left open by `Scoping.inPlace`. A statement opens scopes, and these
must not be around it already; it is used just where it was made, and once: among the statements of a
block it has a position.
-/

set_option autoImplicit false

namespace Strand

theorem mem_of_lookup {α β : Type} [BEq α] [LawfulBEq α] {l : List (α × β)} {a : α} {b : β}
    (found : l.lookup a = some b) : (a, b) ∈ l := by
  obtain ⟨before, after, rfl, -⟩ := List.lookup_eq_some_iff.mp found
  exact List.mem_append_right _ List.mem_cons_self

/-! ## 1. Contexts -/

/-- The scopes around a place, innermost first, the variables that are declared in them by then, and
how many statements of the innermost block come before. -/
structure Context where
  scopes : List ScopeId
  names : List (ScopeId × Name)
  position : Nat

namespace Context

/-- What the first context has, the second has too. -/
instance : Preorder Context where
  le Γ Δ := Γ.scopes <:+ Δ.scopes ∧ Γ.names ⊆ Δ.names
  le_refl Γ := ⟨List.suffix_refl _, List.Subset.refl _⟩
  le_trans _ _ _ h h' := ⟨h.1.trans h'.1, List.Subset.trans h.2 h'.2⟩

/-- Every variable belongs to one of the scopes. -/
def WellFormed (Γ : Context) : Prop := ∀ x ∈ Γ.names, x.1 ∈ Γ.scopes

/-- One scope further in, with names of its own. -/
def push (Γ : Context) (scope : ScopeId) (names : List Name) : Context :=
  ⟨scope :: Γ.scopes, names.map (scope, ·) ++ Γ.names, 0⟩

/-- After a declaration. -/
def declare (Γ : Context) (names : List (ScopeId × Name)) : Context :=
  { Γ with names := names ++ Γ.names }

/-- After a statement. -/
def next (Γ : Context) : Context := { Γ with position := Γ.position + 1 }

variable {Γ Δ Θ : Context}

@[simp] theorem scopes_push (Γ : Context) (scope : ScopeId) (names : List Name) :
    (Γ.push scope names).scopes = scope :: Γ.scopes := rfl

@[simp] theorem scopes_declare (Γ : Context) (names : List (ScopeId × Name)) :
    (Γ.declare names).scopes = Γ.scopes := rfl

@[simp] theorem scopes_next (Γ : Context) : Γ.next.scopes = Γ.scopes := rfl

@[simp] theorem declare_nil (Γ : Context) : Γ.declare [] = Γ := rfl

theorem le_next (Γ : Context) : Γ ≤ Γ.next := ⟨List.suffix_refl _, List.Subset.refl _⟩

theorem le_declare (Γ : Context) (names : List (ScopeId × Name)) : Γ ≤ Γ.declare names :=
  ⟨List.suffix_refl _, List.subset_append_right _ _⟩

theorem le_push (Γ : Context) (scope : ScopeId) (names : List Name) : Γ ≤ Γ.push scope names :=
  ⟨List.suffix_cons _ _, List.subset_append_right _ _⟩

theorem WellFormed.push (h : Γ.WellFormed) (scope : ScopeId) (names : List Name) :
    (Γ.push scope names).WellFormed := by
  intro x member
  rcases List.mem_append.mp member with new | old
  · obtain ⟨name, -, rfl⟩ := List.mem_map.mp new
    exact List.mem_cons_self
  · exact List.mem_cons_of_mem _ (h x old)

/-- `Δ` is `Γ` after declarations in its innermost scope. -/
structure Later (Γ Δ : Context) : Prop where
  scopes : Δ.scopes = Γ.scopes
  names : Γ.names ⊆ Δ.names
  new : ∀ x ∈ Δ.names, x ∈ Γ.names ∨ Γ.scopes.head? = some x.1

theorem Later.refl (Γ : Context) : Later Γ Γ := ⟨rfl, List.Subset.refl _, fun _ h => .inl h⟩

theorem Later.trans (h : Later Γ Δ) (h' : Later Δ Θ) : Later Γ Θ := by
  refine ⟨h'.scopes.trans h.scopes, List.Subset.trans h.names h'.names, fun x member => ?_⟩
  rcases h'.new x member with old | new
  · exact h.new x old
  · rw [h.scopes] at new
    exact .inr new

theorem later_declare {scope : ScopeId} (inside : Γ.scopes.head? = some scope)
    (names : List Name) : Later Γ (Γ.declare (names.map (scope, ·))) := by
  refine ⟨rfl, List.subset_append_right _ _, fun x member => ?_⟩
  rcases List.mem_append.mp member with new | old
  · obtain ⟨name, -, rfl⟩ := List.mem_map.mp new
    exact .inr inside
  · exact .inl old

theorem later_next (Γ : Context) : Later Γ Γ.next :=
  ⟨rfl, List.Subset.refl _, fun _ member => .inl member⟩

theorem Later.wellFormed (h : Later Γ Δ) (wf : Γ.WellFormed) : Δ.WellFormed := by
  intro x member
  rw [h.scopes]
  rcases h.new x member with old | new
  · exact wf x old
  · exact List.mem_of_mem_head? new

/-- When a scope is closed, only its own variables are lost. -/
theorem mem_of_close {scope : ScopeId} {names : List Name} {x : ScopeId × Name}
    (inside : Later (Γ.push scope names) Δ) (member : x ∈ Δ.names) (outside : x.1 ≠ scope) :
    x ∈ Γ.names := by
  rcases inside.new x member with before | new
  · rcases List.mem_append.mp before with own | before
    · obtain ⟨name, -, rfl⟩ := List.mem_map.mp own
      exact absurd rfl outside
    · exact before
  · exact absurd (Option.some.inj new).symm outside

/-- When a scope is closed, what did not count on the scope itself counts on nothing that is lost. -/
theorem le_of_close {scope : ScopeId} {names : List Name}
    (inside : Later (Γ.push scope names) Δ) (h : Θ ≤ Δ) (wf : Θ.WellFormed)
    (outside : Θ.scopes ≠ scope :: Γ.scopes) (fresh : scope ∉ Γ.scopes) : Θ ≤ Γ := by
  have scopes : Θ.scopes <:+ Γ.scopes := by
    have within := h.1
    rw [inside.scopes, scopes_push, List.suffix_cons_iff] at within
    exact within.resolve_left outside
  refine ⟨scopes, fun x member => mem_of_close inside (h.2 member) ?_⟩
  rintro rfl
  exact fresh (scopes.subset (wf x member))

end Context

/-! ## 2. What a node evaluates -/

namespace NodeKind

/-- Whether a node is an expression. The others are statements, declarations and blocks. -/
def isExpression : NodeKind → Bool
  | intLiteral _ | floatLiteral _ | stringLiteral _ | reference _ | constructor _ | parenthesized _
  | arrayLiteral _ | arrayAccess .. | fieldAccess .. | call .. | not _ | binary .. | assignment .. =>
    true
  | _ => false

/-- Whether a node is a statement, a declaration or a block. The root of a program is none of them. -/
def isStatement (kind : NodeKind) : Bool := !kind.isExpression && !kind.isRoot

/-- The nodes that a node of this kind refers to. -/
def children : NodeKind → List NodeId
  | intLiteral _ | floatLiteral _ | stringLiteral _ | reference _ | parameter _ | fieldDecl _ => []
  | constructor n | parenthesized n | not n | expression n | launch n | launchDecl n | protect n
  | varDecl _ n => [n]
  | arrayLiteral elements => elements
  | arrayAccess stem position => [stem, position]
  | fieldAccess stem _ => [stem]
  | call callee arguments => callee :: arguments
  | binary _ left right => [left, right]
  | assignment target value => [target, value]
  | root statements | block statements => statements
  | conditional condition thenBranch elseBranch => condition :: thenBranch :: elseBranch.toList
  | loop condition body => [condition, body]
  | ret value => value.toList
  | funDecl _ parameters body => parameters ++ [body]
  | structDecl _ fields => fields

/-- The expression that a call calls. -/
def callee? : NodeKind → Option NodeId
  | call callee _ => some callee
  | _ => none

/-- The expressions whose value a node uses, other than to call it. -/
def operands : NodeKind → List NodeId
  | parenthesized inner | fieldAccess inner _ | not inner | expression inner | launch inner
  | varDecl _ inner => [inner]
  | arrayLiteral elements => elements
  | call _ arguments => arguments
  | arrayAccess left right | binary _ left right | assignment left right => [left, right]
  | conditional condition _ _ | loop condition _ => [condition]
  | ret value => value.toList
  | _ => []

/-- The statements that are parts of a node and run in the same frame. -/
def substatements : NodeKind → List NodeId
  | conditional _ thenBranch elseBranch => thenBranch :: elseBranch.toList
  | loop _ body => [body]
  | protect inner => [inner]
  | launchDecl declaration => [declaration]
  | _ => []

/-- The kind of statement that a part of a node is: what is launched is the declaration of a variable,
and everything else is a block. -/
def hosts : NodeKind → NodeKind → Bool
  | launchDecl _, varDecl .. => true
  | launchDecl _, _ => false
  | _, block _ => true
  | _, _ => false

end NodeKind

/-- Whether a node is a reference to a function that is declared in a scope other than the root
scope. -/
def Program.refersInside (p : Program) (n : NodeId) : Bool :=
  match p.arena.kind? n, p.attrs.decl? n with
  | some (.reference _), some (.node function) =>
    match p.arena.kind? function with
    | some (.funDecl ..) => p.attrs.scope? function != some p.attrs.rootScope
    | _ => false
  | _, _ => false

/-- A function of an inner scope is referenced only to be called or launched. -/
def Program.OnlyCallsInside (p : Program) : Prop :=
  ∀ node ∈ p.arena.nodes.toList, ∀ operand ∈ node.kind.operands, p.refersInside operand = false

instance (p : Program) : Decidable p.OnlyCallsInside :=
  inferInstanceAs (Decidable (∀ node ∈ p.arena.nodes.toList,
    ∀ operand ∈ node.kind.operands, p.refersInside operand = false))

/-! ## 3. Well-scoped nodes -/

/-- A tree with a context for every node, and whether expressions are used in place: where they were
made, or further in. -/
structure Scoping where
  arena : Arena
  attrs : Attributes
  context : NodeId → Context
  inPlace : Bool

namespace Scoping

variable (G : Scoping)

/-- A context whose variables belong to its scopes, and whose scopes lie one inside the next up to the
root scope. -/
structure Proper (Γ : Context) : Prop where
  wellFormed : Γ.WellFormed
  inside : Γ.scopes.IsChain fun scope outside => G.attrs.parent? scope = some outside
  last : Γ.scopes.getLast? = some G.attrs.rootScope
  distinct : Γ.scopes.Nodup

/-- An expression that can be evaluated in a context, if it has to be in place at all. -/
structure Operand (Γ : Context) (n : NodeId) : Prop where
  kind : ∃ kind, G.arena.kind? n = some kind ∧ kind.isExpression = true
  within : G.inPlace = true → G.context n ≤ Γ

/-- A statement that can be run in a context, whose scopes and position are those of its own. -/
structure Statement (Γ : Context) (n : NodeId) : Prop where
  kind : ∃ kind, G.arena.kind? n = some kind ∧ kind.isStatement = true
  scopes : (G.context n).scopes = Γ.scopes
  position : (G.context n).position = Γ.position
  names : (G.context n).names ⊆ Γ.names

/-- A block that can be run in a context. -/
structure Block (Γ : Context) (n : NodeId) : Prop extends G.Statement Γ n where
  block : ∃ statements, G.arena.kind? n = some (.block statements)

/-- A variable that a statement has declared when it is done. -/
inductive Declares : NodeId → ScopeId × Name → Prop
  | stored (n initializer : NodeId) (name : Name) (scope : ScopeId)
      (kind : G.arena.kind? n = some (.varDecl name initializer))
      (here : G.attrs.scope? n = some scope) : Declares n (scope, name)
  | launched (n declaration initializer : NodeId) (name : Name) (scope : ScopeId)
      (kind : G.arena.kind? n = some (.launchDecl declaration))
      (declared : G.arena.kind? declaration = some (.varDecl name initializer))
      (here : G.attrs.scope? declaration = some scope) : Declares n (scope, name)

/-- Statements that can be run one after the other, and the context after them. -/
inductive Sequence : Context → List NodeId → Context → Prop
  | nil (Γ : Context) : Sequence Γ [] Γ
  | cons {Γ Δ : Context} {n : NodeId} {rest : List NodeId} (names : List (ScopeId × Name))
      (first : G.Statement Γ n) (declares : ∀ x ∈ names, G.Declares n x)
      (others : Sequence (Γ.declare names).next rest Δ) : Sequence Γ (n :: rest) Δ

/-- A function that can be called in a context. -/
structure Callable (Γ : Context) (scope : ScopeId) (function : NodeId) : Prop where
  declared : G.attrs.scope? function = some scope
  head : (G.context function).scopes.head? = some scope
  within : G.context function ≤ Γ
  wellFormed : (G.context function).WellFormed

/-- What a name of a scope denotes can be read in a context. -/
def Denotes (Γ : Context) (scope : ScopeId) (name : Name) : Decl → Prop
  | .host ⟨_, .value⟩ => (G.attrs.rootScope, name) ∈ Γ.names
  | .host _ => True
  | .node declaration =>
    match G.arena.kind? declaration with
    | some (.varDecl ..) | some (.parameter _) => (scope, name) ∈ Γ.names
    | some (.funDecl ..) => G.Callable Γ scope declaration
    | some (.structDecl ..) => True
    | _ => False

/-- What the attributes of a node say fits to its context. -/
def Fits (n : NodeId) : NodeKind → Prop
  | .reference name =>
    ∃ scope decl, G.attrs.scope? n = some scope ∧ G.attrs.decl? n = some decl ∧
      scope ∈ (G.context n).scopes ∧ G.Denotes (G.context n) scope name decl
  | .root statements => ∃ Δ, G.Sequence (G.context n) statements Δ
  | .block statements =>
    ∃ outside scope Δ, (G.context n).scopes.head? = some outside ∧ G.attrs.scope? n = some scope ∧
      G.attrs.parent? scope = some outside ∧ scope ∉ (G.context n).scopes ∧
      G.Sequence ((G.context n).push scope []) statements Δ
  | .varDecl .. => ∃ scope, G.attrs.scope? n = some scope ∧ (G.context n).scopes.head? = some scope
  | .funDecl _ parameters body =>
    ∃ outside scope names, (G.context n).scopes.head? = some outside ∧
      G.attrs.scope? n = some outside ∧ G.attrs.bodyScope? n = some scope ∧
      G.attrs.parent? scope = some outside ∧
      scope ∉ (G.context n).scopes ∧
      List.Forall₂ (fun m name => G.arena.kind? m = some (.parameter name)) parameters names ∧
      G.Block ((G.context n).push scope names) body
  | _ => True

/-- What a node of a kind evaluates can be evaluated in a context. -/
structure Parts (Γ : Context) (kind : NodeKind) : Prop where
  callee : ∀ m, kind.callee? = some m → G.Operand Γ m
  operands : ∀ m ∈ kind.operands, G.Operand Γ m
  substatements : ∀ m ∈ kind.substatements, G.Statement Γ m
  shapes : ∀ m ∈ kind.substatements, ∃ part, G.arena.kind? m = some part ∧ kind.hosts part = true

/-- Most kinds have nothing but operands. -/
theorem Parts.of_operands {G : Scoping} {Γ : Context} {kind : NodeKind} (callee : kind.callee? = none)
    (substatements : kind.substatements = []) (operands : ∀ m ∈ kind.operands, G.Operand Γ m) :
    G.Parts Γ kind := by
  have none : ∀ m, m ∉ kind.substatements := fun m runs => by
    rw [substatements] at runs
    cases runs
  refine ⟨fun m calls => ?_, operands, fun m runs => absurd runs (none m),
    fun m runs => absurd runs (none m)⟩
  rw [callee] at calls
  cases calls

/-- A node of a kind that asks for no more than its context has. -/
structure Scoped (n : NodeId) (kind : NodeKind) : Prop extends G.Parts (G.context n) kind where
  proper : G.Proper (G.context n)
  fits : G.Fits n kind

theorem Scoped.wellFormed {G : Scoping} {n : NodeId} {kind : NodeKind} (h : G.Scoped n kind) :
    (G.context n).WellFormed := h.proper.wellFormed

theorem Proper.later {G : Scoping} {Γ Δ : Context} (h : G.Proper Γ) (later : Context.Later Γ Δ) :
    G.Proper Δ := by
  refine ⟨later.wellFormed h.wellFormed, ?_, ?_, ?_⟩
  all_goals rw [later.scopes]
  · exact h.inside
  · exact h.last
  · exact h.distinct

/-- A new scope is inside the innermost one. -/
theorem Proper.push {G : Scoping} {Γ : Context} (h : G.Proper Γ) {scope outside : ScopeId}
    (head : Γ.scopes.head? = some outside) (parent : G.attrs.parent? scope = some outside)
    (fresh : scope ∉ Γ.scopes) (names : List Name) : G.Proper (Γ.push scope names) := by
  refine ⟨h.wellFormed.push scope names, ?_, ?_, List.nodup_cons.mpr ⟨fresh, h.distinct⟩⟩
  · refine List.isChain_cons.mpr ⟨fun inner same => ?_, h.inside⟩
    cases head.symm.trans same
    exact parent
  · rw [Context.scopes_push, List.getLast?_cons, h.last, Option.getD_some]

/-- Every node asks for no more than its context has. -/
def WellScoped : Prop := ∀ n kind, G.arena.kind? n = some kind → G.Scoped n kind

end Scoping

/-! ## 4. Trees that grow -/

/-- A node keeps its kind, except that a function may get its parameters and its body later. -/
def NodeKind.Becomes (kind kind' : NodeKind) : Prop :=
  kind' = kind ∨ ∃ name parameters body parameters' body',
    kind = .funDecl name parameters body ∧ kind' = .funDecl name parameters' body'

theorem NodeKind.Becomes.isExpression {kind kind' : NodeKind} (h : kind.Becomes kind') :
    kind'.isExpression = kind.isExpression := by
  rcases h with rfl | ⟨name, _, _, _, _, rfl, rfl⟩ <;> rfl

theorem NodeKind.Becomes.isStatement {kind kind' : NodeKind} (h : kind.Becomes kind') :
    kind'.isStatement = kind.isStatement := by
  rcases h with rfl | ⟨name, _, _, _, _, rfl, rfl⟩ <;> rfl

theorem NodeKind.Becomes.eq {kind kind' : NodeKind} (h : kind.Becomes kind')
    (fixed : ∀ name parameters body, kind ≠ .funDecl name parameters body) : kind' = kind := by
  rcases h with same | ⟨name, parameters, body, _, _, changes, -⟩
  · exact same
  · exact absurd changes (fixed name parameters body)

namespace Scoping

/-- `G'` has the nodes of `G` and maybe others, and of the nodes of `G` it says the same. -/
structure Grows (G G' : Scoping) : Prop where
  kind : ∀ n kind, G.arena.kind? n = some kind →
    ∃ kind', G'.arena.kind? n = some kind' ∧ kind.Becomes kind'
  context : ∀ n, (G.arena.kind? n).isSome → G'.context n = G.context n
  scope : ∀ n, (G.arena.kind? n).isSome → G'.attrs.scope? n = G.attrs.scope? n
  decl : ∀ n, (G.arena.kind? n).isSome → G'.attrs.decl? n = G.attrs.decl? n
  bodyScope : ∀ n, (G.arena.kind? n).isSome → G'.attrs.bodyScope? n = G.attrs.bodyScope? n
  parent : ∀ s outside, G.attrs.parent? s = some outside → G'.attrs.parent? s = some outside
  root : G'.attrs.rootScope = G.attrs.rootScope
  inPlace : G'.inPlace = G.inPlace

variable {G G' G'' : Scoping} {Γ Δ : Context} {n : NodeId} {kind : NodeKind}

theorem Grows.refl (G : Scoping) : G.Grows G :=
  ⟨fun _ kind found => ⟨kind, found, .inl rfl⟩, fun _ _ => rfl, fun _ _ => rfl, fun _ _ => rfl,
    fun _ _ => rfl, fun _ _ h => h, rfl, rfl⟩

theorem Grows.isSome (h : G.Grows G') (found : (G.arena.kind? n).isSome) :
    (G'.arena.kind? n).isSome := by
  obtain ⟨kind, found⟩ := Option.isSome_iff_exists.mp found
  obtain ⟨kind', found', -⟩ := h.kind n kind found
  rw [found']
  rfl

theorem Grows.trans (h : G.Grows G') (h' : G'.Grows G'') : G.Grows G'' := by
  refine ⟨fun n kind found => ?_, fun n found => ?_, fun n found => ?_, fun n found => ?_,
    fun n found => ?_, fun s outside parent => h'.parent s _ (h.parent s _ parent),
    h'.root.trans h.root, h'.inPlace.trans h.inPlace⟩
  · obtain ⟨kind', found', becomes⟩ := h.kind n kind found
    obtain ⟨kind'', found'', becomes'⟩ := h'.kind n kind' found'
    refine ⟨kind'', found'', ?_⟩
    rcases becomes with rfl | ⟨name, _, _, _, _, rfl, rfl⟩
    · exact becomes'
    · rcases becomes' with rfl | ⟨_, _, _, _, _, same, rfl⟩
      · exact .inr ⟨_, _, _, _, _, rfl, rfl⟩
      · cases same
        exact .inr ⟨_, _, _, _, _, rfl, rfl⟩
  · rw [h'.context n (h.isSome found), h.context n found]
  · rw [h'.scope n (h.isSome found), h.scope n found]
  · rw [h'.decl n (h.isSome found), h.decl n found]
  · rw [h'.bodyScope n (h.isSome found), h.bodyScope n found]

theorem Grows.kind_eq (h : G.Grows G') (found : G.arena.kind? n = some kind)
    (fixed : ∀ name parameters body, kind ≠ .funDecl name parameters body) :
    G'.arena.kind? n = some kind := by
  obtain ⟨kind', found', becomes⟩ := h.kind n kind found
  rw [found', becomes.eq fixed]

theorem Operand.grows (operand : G.Operand Γ n) (h : G.Grows G') : G'.Operand Γ n := by
  obtain ⟨⟨kind, found, shape⟩, within⟩ := operand
  obtain ⟨kind', found', becomes⟩ := h.kind n kind found
  refine ⟨⟨kind', found', becomes.isExpression.trans shape⟩, ?_⟩
  rw [h.context n (found ▸ rfl), h.inPlace]
  exact within

theorem Proper.grows (proper : G.Proper Γ) (h : G.Grows G') : G'.Proper Γ :=
  ⟨proper.wellFormed, proper.inside.imp fun s outside parent => h.parent s outside parent,
    h.root.symm ▸ proper.last, proper.distinct⟩

theorem Statement.grows (statement : G.Statement Γ n) (h : G.Grows G') : G'.Statement Γ n := by
  obtain ⟨⟨kind, found, shape⟩, scopes, position, names⟩ := statement
  obtain ⟨kind', found', becomes⟩ := h.kind n kind found
  rw [← h.context n (found ▸ rfl)] at scopes position names
  exact ⟨⟨kind', found', becomes.isStatement.trans shape⟩, scopes, position, names⟩

theorem Block.grows (block : G.Block Γ n) (h : G.Grows G') : G'.Block Γ n :=
  ⟨block.toStatement.grows h, block.block.imp fun _ found => h.kind_eq found (by simp)⟩

theorem Declares.grows {x : ScopeId × Name} (declares : G.Declares n x) (h : G.Grows G') :
    G'.Declares n x := by
  cases declares with
  | stored initializer name scope kind here =>
    refine .stored _ initializer name scope (h.kind_eq kind (by simp)) ?_
    rw [h.scope n (kind ▸ rfl)]
    exact here
  | launched declaration initializer name scope kind declared here =>
    refine .launched _ declaration initializer name scope (h.kind_eq kind (by simp))
      (h.kind_eq declared (by simp)) ?_
    rw [h.scope declaration (declared ▸ rfl)]
    exact here

theorem Sequence.grows {statements : List NodeId} (sequence : G.Sequence Γ statements Δ)
    (h : G.Grows G') : G'.Sequence Γ statements Δ := by
  induction sequence with
  | nil Γ => exact .nil Γ
  | cons names first declares _ ih =>
    exact .cons names (first.grows h) (fun x member => (declares x member).grows h) ih

theorem Sequence.append {before after : List NodeId} {Θ : Context}
    (h : G.Sequence Γ before Δ) (h' : G.Sequence Δ after Θ) : G.Sequence Γ (before ++ after) Θ := by
  induction h with
  | nil Γ => exact h'
  | cons names first declares _ ih => exact .cons names first declares (ih h')

theorem Callable.of_context {scope : ScopeId} {function : NodeId}
    (declared : G.attrs.scope? function = some scope) (own : G.context function = Γ)
    (head : Γ.scopes.head? = some scope) (wf : Γ.WellFormed) : G.Callable Γ scope function :=
  ⟨declared, own.symm ▸ head, own ▸ le_refl _, own.symm ▸ wf⟩

theorem Callable.grows {scope : ScopeId} {function : NodeId}
    (callable : G.Callable Γ scope function) (found : (G.arena.kind? function).isSome)
    (h : G.Grows G') : G'.Callable Γ scope function := by
  obtain ⟨declared, head, within, wellFormed⟩ := callable
  rw [← h.scope function found] at declared
  rw [← h.context function found] at head within wellFormed
  exact ⟨declared, head, within, wellFormed⟩

theorem Denotes.grows {scope : ScopeId} {name : Name} {decl : Decl}
    (denotes : G.Denotes Γ scope name decl) (h : G.Grows G') : G'.Denotes Γ scope name decl := by
  cases decl with
  | host host =>
    obtain ⟨text, kind⟩ := host
    cases kind with
    | value =>
      simp only [Denotes, h.root]
      exact denotes
    | function | type => trivial
  | node declaration =>
    simp only [Denotes] at denotes ⊢
    cases found : G.arena.kind? declaration with
    | none =>
      rw [found] at denotes
      exact denotes.elim
    | some kind =>
      rw [found] at denotes
      obtain ⟨kind', found', becomes⟩ := h.kind declaration kind found
      rw [found']
      rcases becomes with rfl | ⟨_, _, _, _, _, rfl, rfl⟩
      · cases kind' with
        | funDecl => exact Callable.grows denotes (found ▸ rfl) h
        | _ => exact denotes
      · exact Callable.grows denotes (found ▸ rfl) h

/-- A name that can be read can be read further in, and later. -/
theorem Denotes.mono {scope : ScopeId} {name : Name} {decl : Decl}
    (denotes : G.Denotes Γ scope name decl) (h : Γ ≤ Δ) : G.Denotes Δ scope name decl := by
  cases decl with
  | host host =>
    obtain ⟨text, kind⟩ := host
    cases kind with
    | value => exact h.2 denotes
    | function | type => trivial
  | node declaration =>
    simp only [Denotes] at denotes ⊢
    split at denotes
    · exact h.2 denotes
    · exact h.2 denotes
    · exact ⟨denotes.declared, denotes.head, le_trans denotes.within h, denotes.wellFormed⟩
    · trivial
    · exact denotes

theorem Fits.grows (fits : G.Fits n kind) (found : (G.arena.kind? n).isSome) (h : G.Grows G') :
    G'.Fits n kind := by
  cases kind with
  | reference name =>
    obtain ⟨scope, decl, here, denoted, inside, denotes⟩ := fits
    refine ⟨scope, decl, (h.scope n found).trans here, (h.decl n found).trans denoted, ?_⟩
    rw [h.context n found]
    exact ⟨inside, denotes.grows h⟩
  | root statements =>
    obtain ⟨Δ, sequence⟩ := fits
    refine ⟨Δ, ?_⟩
    rw [h.context n found]
    exact sequence.grows h
  | block statements =>
    obtain ⟨outside, scope, Δ, head, here, parent, fresh, sequence⟩ := fits
    refine ⟨outside, scope, Δ, ?_, (h.scope n found).trans here, h.parent _ _ parent, ?_⟩
    · rw [h.context n found]
      exact head
    · rw [h.context n found]
      exact ⟨fresh, sequence.grows h⟩
  | varDecl name initializer =>
    obtain ⟨scope, here, head⟩ := fits
    refine ⟨scope, (h.scope n found).trans here, ?_⟩
    rw [h.context n found]
    exact head
  | funDecl name parameters body =>
    obtain ⟨outside, scope, names, head, here, opens, parent, fresh, declared, block⟩ := fits
    refine ⟨outside, scope, names, ?_, (h.scope n found).trans here,
      (h.bodyScope n found).trans opens, h.parent _ _ parent, ?_⟩
    · rw [h.context n found]
      exact head
    · rw [h.context n found]
      refine ⟨fresh, declared.imp fun m name parameter => ?_, block.grows h⟩
      exact h.kind_eq parameter (by simp)
  | _ => trivial

theorem Parts.grows (parts : G.Parts Γ kind) (h : G.Grows G') : G'.Parts Γ kind :=
  ⟨fun m calls => (parts.callee m calls).grows h, fun m uses => (parts.operands m uses).grows h,
    fun m runs => (parts.substatements m runs).grows h, fun m runs => by
      obtain ⟨part, found, shape⟩ := parts.shapes m runs
      refine ⟨part, h.kind_eq found fun name parameters body same => ?_, shape⟩
      subst same
      cases kind <;> cases shape⟩

theorem Scoped.of_context (own : G.context n = Γ) (parts : G.Parts Γ kind) (proper : G.Proper Γ)
    (fits : G.Fits n kind) : G.Scoped n kind :=
  ⟨own.symm ▸ parts, own.symm ▸ proper, fits⟩

theorem Scoped.grows (fine : G.Scoped n kind) (found : (G.arena.kind? n).isSome)
    (h : G.Grows G') : G'.Scoped n kind := by
  obtain ⟨parts, proper, fits⟩ := fine
  rw [← h.context n found] at parts proper
  exact ⟨parts.grows h, proper.grows h, fits.grows found h⟩

end Scoping

end Strand
