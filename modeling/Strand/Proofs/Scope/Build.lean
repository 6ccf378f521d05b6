import Mathlib.Logic.Function.Basic
import Strand.Proofs.Scope.Names

/-!
# Builders make well-scoped nodes

The context of a node is known when the node is made: the scopes that are open, and the variables that
they have by then. `Builder.Inv` says that what the open scopes hold can be read in that context, and
`Builder.Step` that the nodes made along the way are well-scoped.

A problem does not stop a builder, so nothing is known of what it makes after one. `Makes` therefore
speaks of operations that end without a problem, and says besides that no operation takes a problem
back.
-/

set_option autoImplicit false

namespace Strand

/-- What a program is asked to keep to: whether nodes are used in place, and which texts the host
declares no name of. -/
structure Rules where
  inPlace : Bool
  reserved : List String

/-- The labels, with the number of scopes that were open where their node was made. A label whose scope
has been closed has none. -/
abbrev Marks := List (String × Option Nat)

/-- The rules of a program, and its labels so far. -/
structure Levels extends Rules where
  entries : Marks

def Levels.insert (levels : Levels) (key : String) (level : Option Nat) : Levels :=
  { levels with entries := (key, level) :: levels.entries }

/-- An expression that can be used in a context, if the level where it was made is known. -/
structure Scoping.Known (G : Scoping) (Γ : Context) (level : Option Nat) (n : NodeId) : Prop where
  kind : ∃ kind, G.arena.kind? n = some kind ∧ kind.isExpression = true
  within : ∀ depth, level = some depth →
    G.context n ≤ Γ ∧ (G.context n).scopes.length = depth ∧ (G.context n).WellFormed

theorem Scoping.Known.grows {G G' : Scoping} {Γ : Context} {level : Option Nat} {n : NodeId}
    (known : G.Known Γ level n) (h : G.Grows G') : G'.Known Γ level n := by
  obtain ⟨⟨kind, found, shape⟩, within⟩ := known
  obtain ⟨kind', found', becomes⟩ := h.kind n kind found
  refine ⟨⟨kind', found', becomes.isExpression.trans shape⟩, ?_⟩
  rw [h.context n (found ▸ rfl)]
  exact within

theorem Scoping.Known.mono {G : Scoping} {Γ Δ : Context} {level : Option Nat} {n : NodeId}
    (known : G.Known Γ level n) (h : Γ ≤ Δ) : G.Known Δ level n := by
  refine ⟨known.kind, fun depth same => ?_⟩
  obtain ⟨within, rest⟩ := known.within depth same
  exact ⟨le_trans within h, rest⟩

/-- A node of a known level is in place. -/
theorem Scoping.Known.operand {G : Scoping} {Γ : Context} {depth : Nat} {n : NodeId}
    (known : G.Known Γ (some depth) n) : G.Operand Γ n :=
  ⟨known.kind, fun _ => (known.within depth rfl).1⟩

/-- A node of a kind that was made in a context. -/
structure Scoping.Made (G : Scoping) (Γ : Context) (kind : NodeKind) (n : NodeId) : Prop where
  kind : G.arena.kind? n = some kind
  context : G.context n = Γ
  wellFormed : Γ.WellFormed

namespace Scoping.Made

variable {G G' : Scoping} {Γ : Context} {kind : NodeKind} {n : NodeId}

theorem known (made : G.Made Γ kind n) (shape : kind.isExpression = true) :
    G.Known Γ (some Γ.scopes.length) n := by
  obtain ⟨found, context, wf⟩ := made
  refine ⟨⟨kind, found, shape⟩, fun depth same => ?_⟩
  cases same
  exact ⟨context ▸ le_refl _, by rw [context], context.symm ▸ wf⟩

theorem statement (made : G.Made Γ kind n) (shape : kind.isStatement = true) :
    G.Statement Γ n := by
  obtain ⟨found, context, wf⟩ := made
  subst context
  exact ⟨⟨kind, found, shape⟩, rfl, rfl, List.Subset.refl _⟩

theorem grows (made : G.Made Γ kind n) (h : G.Grows G')
    (fixed : ∀ name parameters body, kind ≠ .funDecl name parameters body) : G'.Made Γ kind n :=
  ⟨h.kind_eq made.kind fixed, (h.context n (made.kind ▸ rfl)).trans made.context, made.wellFormed⟩

end Scoping.Made

/-- The contexts that nodes get when they are made, and whether nodes are to be used in place. -/
structure Contexts where
  of : NodeId → Context
  inPlace : Bool

instance : CoeFun Contexts fun _ => NodeId → Context := ⟨Contexts.of⟩

namespace Builder

/-! ## 1. What holds while a program is built -/

def scoping (b : Builder) (context : Contexts) : Scoping :=
  ⟨b.arena, b.attrs, context, context.inPlace⟩

/-- What the open scopes hold can be read in the context, and so can what the labels mark. -/
structure Inv (b : Builder) (context : Contexts) (Γ : Context) (levels : Levels) : Prop where
  scopes : Γ.scopes = b.inner.map OpenScope.id ++ [b.globals.id]
  root : b.globals.id = b.attrs.rootScope
  made : ∀ s ∈ Γ.scopes, s.index < b.attrs.scopeCount
  proper : (b.scoping context).Proper Γ
  names : ∀ scope ∈ b.inner ++ [b.globals], ∀ x ∈ scope.names,
    (b.scoping context).Denotes Γ scope.id x.1 x.2
  labels : List.Forall₂
    (fun label level => label.1 = level.1 ∧ (b.scoping context).Known Γ level.2 label.2)
    b.labels levels.entries
  inPlace : context.inPlace = levels.inPlace
  tidy : b.Tidy levels.reserved
  outermost : b.attrs.parent? b.attrs.rootScope = none

/-- `b'` has the nodes of `b`, and of these it says the same. -/
structure Extends (b : Builder) (context : Contexts) (b' : Builder)
    (context' : Contexts) : Prop where
  grows : (b.scoping context).Grows (b'.scoping context')
  fixed : ∀ n kind, b.arena.kind? n = some kind → b'.arena.kind? n = some kind
  count : b.attrs.scopeCount ≤ b'.attrs.scopeCount
  parent : ∀ s : ScopeId, s.index < b.attrs.scopeCount → b'.attrs.parent? s = b.attrs.parent? s
  interner : ∀ text name, b.interner.find? text = some name → b'.interner.find? text = some name

/-- All nodes made from `b` to `b'` are well-scoped. -/
structure Adds (b : Builder) (context : Contexts) (b' : Builder)
    (context' : Contexts) : Prop extends b.Extends context b' context' where
  fine : ∀ n kind, b'.arena.kind? n = some kind → b.arena.kind? n = none →
    (b'.scoping context').Scoped n kind

/-- The statements that are appended to the innermost open block. -/
def Emits (b : Builder) (new : List NodeId) (b' : Builder) : Prop :=
  match b.blocks with
  | [] => b'.blocks = [] ∧ b'.statements = new.reverse ++ b.statements
  | block :: outer => b'.blocks = (new.reverse ++ block) :: outer ∧ b'.statements = b.statements

/-- From `b` to `b'` these statements are emitted, and all nodes made are well-scoped. -/
structure Step (b : Builder) (context : Contexts) (new : List NodeId) (b' : Builder)
    (context' : Contexts) : Prop extends b.Adds context b' context' where
  emits : b.Emits new b'

variable {b b' b'' : Builder} {context context' context'' : Contexts} {Γ Δ : Context}
  {levels levels' levels'' : Levels} {new new' : List NodeId}

theorem Inv.wellFormed (inv : b.Inv context Γ levels) : Γ.WellFormed := inv.proper.wellFormed

theorem Inv.rootScope_lt (inv : b.Inv context Γ levels) :
    b.attrs.rootScope.index < b.attrs.scopeCount :=
  inv.made _ (List.mem_of_getLast? inv.proper.last)

theorem Emits.none (blocks : b'.blocks = b.blocks) (statements : b'.statements = b.statements) :
    b.Emits [] b' := by
  unfold Emits
  split
  · next same => exact ⟨blocks.trans same, statements⟩
  · next same => exact ⟨blocks.trans same, statements⟩

theorem Emits.trans (h : b.Emits new b') (h' : b'.Emits new' b'') : b.Emits (new ++ new') b'' := by
  unfold Emits at *
  cases blocks : b.blocks with
  | nil =>
    rw [blocks] at h
    rw [h.1] at h'
    exact ⟨h'.1, by rw [h'.2, h.2, List.reverse_append, List.append_assoc]⟩
  | cons block outer =>
    rw [blocks] at h
    rw [h.1] at h'
    exact ⟨by rw [h'.1, List.reverse_append, List.append_assoc], h'.2.trans h.2⟩

theorem Extends.trans (h : b.Extends context b' context') (h' : b'.Extends context' b'' context'') :
    b.Extends context b'' context'' :=
  ⟨h.grows.trans h'.grows, fun n kind found => h'.fixed n kind (h.fixed n kind found),
    Nat.le_trans h.count h'.count, fun s old =>
      (h'.parent s (Nat.lt_of_lt_of_le old h.count)).trans (h.parent s old),
    fun text name found => h'.interner text name (h.interner text name found)⟩

theorem Adds.trans (h : b.Adds context b' context') (h' : b'.Adds context' b'' context'') :
    b.Adds context b'' context'' := by
  refine ⟨h.toExtends.trans h'.toExtends, fun n kind found fresh => ?_⟩
  cases before : b'.arena.kind? n with
  | none => exact h'.fine n kind found before
  | some kind' =>
    have same : kind' = kind := Option.some.inj ((h'.fixed n kind' before).symm.trans found)
    subst same
    exact (h.fine n kind' before fresh).grows (before ▸ rfl) h'.grows

theorem Step.trans (h : b.Step context new b' context') (h' : b'.Step context' new' b'' context'') :
    b.Step context (new ++ new') b'' context'' :=
  ⟨h.toAdds.trans h'.toAdds, h.emits.trans h'.emits⟩

/-- Without a new node, and with the same attributes of the old ones, everything is as before. -/
theorem adds_none (context : Contexts) (arena : b'.arena = b.arena)
    (attrs : ∀ n, Attributes.Only n b.attrs b'.attrs)
    (interner : ∀ text name, b.interner.find? text = some name →
      b'.interner.find? text = some name) : b.Adds context b' context := by
  have kind : ∀ n, b'.arena.kind? n = b.arena.kind? n := fun n => by rw [arena]
  have other : ∀ n : NodeId, n ≠ ⟨n.index + 1⟩ := fun n same =>
    absurd (congrArg NodeId.index same) (Nat.ne_of_lt (Nat.lt_succ_self _))
  have any := attrs .invalid
  refine ⟨⟨⟨fun n kind' found => ⟨kind', (kind n).trans found, .inl rfl⟩, fun _ _ => rfl,
    fun n _ => (attrs _).scope n (other n), fun n _ => (attrs _).decl n (other n),
    fun n _ => (attrs _).bodyScope n (other n), fun s outside parent =>
      (any.parent s (Attributes.lt_of_parent? parent)).trans parent, any.root, rfl⟩,
    fun n kind' found => (kind n).trans found, any.count, any.parent, interner⟩,
    fun n kind' found fresh => ?_⟩
  cases ((kind n).symm.trans found).symm.trans fresh

theorem Step.refl (b : Builder) (context : Contexts) : b.Step context [] b context :=
  ⟨adds_none context rfl (.refl · _) fun _ _ => id, .none rfl rfl⟩

/-- The context of a new node can be chosen. -/
theorem Allocates.extends {kind : NodeKind} (h : b.Allocates kind b')
    (context : Contexts) (Θ : Context) :
    ∃ context', b.Extends context b' context' ∧
      b'.arena.kind? ⟨b.arena.size⟩ = some kind ∧ context' ⟨b.arena.size⟩ = Θ := by
  have old : ∀ n, (b.arena.kind? n).isSome → n ≠ ⟨b.arena.size⟩ := fun n some =>
    (Option.isSome_iff_exists.mp some).elim fun _ => Arena.ne_of_kind?
  have kept : ∀ n kind, b.arena.kind? n = some kind → b'.arena.kind? n = some kind :=
    fun n kind found => by rw [h.arena, Arena.kind?_alloc, if_neg (Arena.ne_of_kind? found), found]
  refine ⟨⟨Function.update context ⟨b.arena.size⟩ Θ, context.inPlace⟩, ⟨⟨fun n kind found =>
    ⟨kind, kept n kind found, .inl rfl⟩, fun n some => Function.update_of_ne (old n some) ..,
    fun n some => h.attrs.scope n (old n some), fun n some => h.attrs.decl n (old n some),
    fun n some => h.attrs.bodyScope n (old n some), fun s outside parent =>
      (h.attrs.parent s (Attributes.lt_of_parent? parent)).trans parent, h.attrs.root, rfl⟩,
    kept, h.attrs.count, h.attrs.parent, h.interner⟩, ?_, Function.update_self ..⟩
  rw [h.arena, Arena.kind?_alloc, if_pos rfl]

/-- If the new node is well-scoped, all is well. -/
theorem Allocates.adds {kind : NodeKind} (h : b.Allocates kind b')
    (extended : b.Extends context b' context')
    (fine : (b'.scoping context').Scoped ⟨b.arena.size⟩ kind) : b.Adds context b' context' := by
  refine ⟨extended, fun n kind' found fresh => ?_⟩
  rw [h.arena, Arena.kind?_alloc] at found
  split at found
  · next same =>
    cases found
    exact same ▸ fine
  · cases found.symm.trans fresh

/-- The root scope stays the outermost one. -/
theorem Extends.outermost (h : b.Extends context b' context') (inv : b.Inv context Γ levels) :
    b'.attrs.parent? b'.attrs.rootScope = none := by
  rw [show b'.attrs.rootScope = b.attrs.rootScope from h.grows.root,
    h.parent _ inv.rootScope_lt, inv.outermost]

/-- What does not touch the open scopes and the labels leaves them readable. -/
theorem Inv.extend (inv : b.Inv context Γ levels) (h : b.Extends context b' context')
    (same : b.Same b') (tidy : b'.Tidy levels.reserved) : b'.Inv context' Γ levels := by
  refine ⟨?_, ?_, fun s member => Nat.lt_of_lt_of_le (inv.made s member) h.count,
    inv.proper.grows h.grows, ?_, ?_, h.grows.inPlace.trans inv.inPlace, tidy, h.outermost inv⟩
  · rw [same.inner, same.globals]
    exact inv.scopes
  · rw [same.globals]
    exact inv.root.trans h.grows.root.symm
  · rw [same.inner, same.globals]
    exact fun scope member x inside => (inv.names scope member x inside).grows h.grows
  · rw [same.labels]
    exact inv.labels.imp fun label level known => ⟨known.1, known.2.grows h.grows⟩

/-! ## 2. Operations that make nodes -/

/-- An operation that stays in its context and emits nothing. What holds before it is `pre`, and `post`
holds after it, of its result. -/
structure Makes {α : Type} (Γ : Context) (levels levels' : Levels) (op : BuildM α)
    (pre : Scoping → Prop) (post : α → Scoping → Prop) : Prop where
  sticky : ∀ b, (op.run b).2.error = none → b.error = none
  makes : ∀ b context, b.Inv context Γ levels → pre (b.scoping context) →
    (op.run b).2.error = none → ∃ context', (op.run b).2.Inv context' Γ levels' ∧
      b.Step context [] (op.run b).2 context' ∧ post (op.run b).1 ((op.run b).2.scoping context')

section

variable {α β : Type} {pre pre' : Scoping → Prop} {post post' : α → Scoping → Prop}
  {post'' : β → Scoping → Prop} {op : BuildM α} {next : α → BuildM β}

theorem makes_pure (a : α) (h : ∀ G, pre G → post a G) :
    Makes Γ levels levels (pure a) pre post :=
  ⟨fun _ h => h, fun b context inv holds _ => ⟨context, inv, .refl b context, h _ holds⟩⟩

theorem Makes.bind (first : Makes Γ levels levels' op pre post)
    (second : ∀ a, Makes Γ levels' levels'' (next a) (post a) post'') :
    Makes Γ levels levels'' (op >>= next) pre post'' := by
  refine ⟨fun b ended => first.sticky b ((second _).sticky _ ended),
    fun b context inv holds ended => ?_⟩
  obtain ⟨context', inv', step, holds'⟩ :=
    first.makes b context inv holds ((second _).sticky _ ended)
  obtain ⟨context'', inv'', step', holds''⟩ := (second _).makes _ context' inv' holds' ended
  exact ⟨context'', inv'', step.trans step', holds''⟩

theorem Makes.mono (h : Makes Γ levels levels' op pre post) (before : ∀ G, pre' G → pre G)
    (after : ∀ a G, post a G → post' a G) : Makes Γ levels levels' op pre' post' := by
  refine ⟨h.sticky, fun b context inv holds ended => ?_⟩
  obtain ⟨context', inv', step, holds'⟩ := h.makes b context inv (before _ holds) ended
  exact ⟨context', inv', step, after _ _ holds'⟩

/-- What stays true while trees grow stays true while an operation makes nodes. -/
theorem Makes.frame (h : Makes Γ levels levels' op pre post) {holds : Scoping → Prop}
    (kept : ∀ G G', G.Grows G' → holds G → holds G') :
    Makes Γ levels levels' op (fun G => holds G ∧ pre G) (fun a G => holds G ∧ post a G) := by
  refine ⟨h.sticky, fun b context inv before ended => ?_⟩
  obtain ⟨context', inv', step, after⟩ := h.makes b context inv before.2 ended
  exact ⟨context', inv', step, kept _ _ step.grows before.1, after⟩

/-- An operation that asks for nothing, before one that still needs what held before it. -/
theorem Makes.before (first : Makes Γ levels levels' op (fun _ => True) post)
    {holds : Scoping → Prop} (kept : ∀ G G', G.Grows G' → holds G → holds G')
    (second : ∀ a, Makes Γ levels' levels'' (next a) (fun G => holds G ∧ post a G) post'') :
    Makes Γ levels levels'' (op >>= next) holds post'' :=
  ((first.frame kept).mono (fun _ h => ⟨h, trivial⟩) fun _ _ h => h).bind second

end

/-- An operation that makes nothing. -/
theorem makes_nothing {α : Type} {op : BuildM α}
    (adds : ∀ (b : Builder) (context), b.Adds context (op.run b).2 context)
    (same : ∀ b : Builder, b.Same (op.run b).2)
    (blocks : ∀ b : Builder, (op.run b).2.blocks = b.blocks)
    (statements : ∀ b : Builder, (op.run b).2.statements = b.statements)
    (error : ∀ b : Builder, (op.run b).2.error = b.error)
    (tidy : ∀ (b : Builder) reserved, b.Tidy reserved → (op.run b).2.Tidy reserved) :
    Makes Γ levels levels op (fun _ => True) (fun _ _ => True) :=
  ⟨fun b ended => (error b).symm.trans ended, fun b context inv _ _ => ⟨context,
    inv.extend (adds b context).toExtends (same b) (tidy b _ inv.tidy),
    ⟨adds b context, .none (blocks b) (statements b)⟩, trivial⟩⟩

theorem makes_intern (text : String) :
    Makes Γ levels levels (intern text) (fun _ => True) (fun _ _ => True) :=
  makes_nothing (fun _ _ => adds_none _ rfl (.refl · _) fun _ _ => Interner.find?_intern text)
    (fun _ => ⟨rfl, rfl, rfl⟩) (fun _ => rfl) (fun _ => rfl) (fun _ => rfl) fun _ _ tidy =>
      tidy.same rfl (fun _ => rfl) (fun _ => rfl) (Nat.le_refl _)
        (fun _ _ => Interner.find?_intern text) (tidy.interner.intern text) rfl fun _ => .inl

theorem makes_setType (n : NodeId) (ty : Ty) :
    Makes Γ levels levels (setType n ty) (fun _ => True) (fun _ _ => True) :=
  makes_nothing
    (fun _ _ => adds_none _ rfl (fun m => (Attributes.Only.refl m _).setType n ty) fun _ _ => id)
    (fun _ => ⟨rfl, rfl, rfl⟩) (fun _ => rfl) (fun _ => rfl) (fun _ => rfl) fun _ _ tidy =>
      tidy.same rfl (fun _ => rfl) (fun _ => rfl) (Nat.le_refl _) (fun _ _ => id)
        tidy.interner rfl fun _ => .inl

/-! ## 3. Expressions -/

/-- Allocating a node whose parts can be evaluated, and which has nothing to do with attributes. Its
context need not be that of the builder. -/
theorem makes_alloc_in (Θ : Context) (kind : NodeKind) (fits : ∀ (G : Scoping) n, G.Fits n kind) :
    Makes Γ levels levels (alloc kind) (fun G => G.Proper Θ ∧ G.Parts Θ kind)
      fun n G => G.Made Θ kind n := by
  refine ⟨fun _ h => h, fun b context inv ⟨proper, parts⟩ _ => ?_⟩
  have made : b.Allocates kind ((alloc kind).run b).2 := ⟨rfl, .refl _ _, fun _ _ => id⟩
  obtain ⟨context', extended, found, own⟩ := made.extends context Θ
  have fine := Scoping.Scoped.of_context own (parts.grows extended.grows)
    (proper.grows extended.grows) (fits _ _)
  -- the new node has no scope yet
  have none : b.attrs.scope? ⟨b.arena.size⟩ = none := inv.tidy.fresh _ (Arena.kind?_size _)
  have tidy := inv.tidy.allocates made (.inl rfl) rfl inv.tidy.interner (.inr none)
    (fun scope here => by cases none.symm.trans here)
    fun scope name decl refers => by cases none.symm.trans refers.scope
  exact ⟨context', inv.extend extended ⟨rfl, rfl, rfl⟩ tidy,
    ⟨made.adds extended fine, .none rfl rfl⟩, found, own, proper.wellFormed⟩

theorem makes_alloc (kind : NodeKind) (fits : ∀ (G : Scoping) n, G.Fits n kind) :
    Makes Γ levels levels (alloc kind) (·.Parts Γ kind) fun n G => G.Made Γ kind n :=
  ⟨fun _ h => h, fun b context inv parts =>
    (makes_alloc_in Γ kind fits).makes b context inv ⟨inv.proper, parts⟩⟩

theorem makes_expr (kind : NodeKind) (ty : Ty) (shape : kind.isExpression = true)
    (fits : ∀ (G : Scoping) n, G.Fits n kind) :
    Makes Γ levels levels (expr kind ty) (·.Parts Γ kind)
      fun n G => G.Known Γ (some Γ.scopes.length) n := by
  refine (makes_alloc kind fits).bind fun n => (makes_setType n ty).before ?_ fun _ => ?_
  · exact fun G G' grows made => made.grows grows fun _ _ _ same => by rw [same] at shape; cases shape
  · exact makes_pure n fun G h => h.1.known shape

theorem mem_of_resolve {name : Name} {decl : Decl} {scope : ScopeId}
    (found : b.resolve name = some (decl, scope)) :
    ∃ sc ∈ b.inner ++ [b.globals], (name, decl) ∈ sc.names ∧ sc.id = scope := by
  obtain ⟨sc, member, here⟩ := List.exists_of_findSome?_eq_some found
  obtain ⟨_, entry, same⟩ := Option.map_eq_some_iff.mp here
  cases same
  exact ⟨sc, member, mem_of_lookup entry, rfl⟩

theorem run_intern (text : String) (b : Builder) : (intern text).run b =
    pure ((b.interner.intern text).1, { b with interner := (b.interner.intern text).2 }) := rfl

theorem run_alloc (kind : NodeKind) (b : Builder) : (alloc kind).run b =
    pure (⟨b.arena.size⟩, { b with arena := (b.arena.alloc kind b.span).2 }) := rfl

/-- A reference that is not resolved is a problem; else its scope is that of the declaration. -/
theorem reference_run (name : String) (b : Builder) :
    ∃ b', (reference name).run b = (⟨b.arena.size⟩, b') ∧
      (b'.error = none → b.error = none ∧ b.Same b' ∧ b.Emits [] b' ∧
        b'.interner = (b.interner.intern name).2 ∧
        b.Allocates (.reference (b.interner.intern name).1) b' ∧
        ∃ decl scope, b.resolve (b.interner.intern name).1 = some (decl, scope) ∧
          b'.attrs.scope? ⟨b.arena.size⟩ = some scope ∧
          b'.attrs.decl? ⟨b.arena.size⟩ = some decl) := by
  have same : ∀ arena interner, resolve { b with arena, interner } = b.resolve := fun _ _ => rfl
  simp only [reference, StateT.run_bind, run_intern, run_alloc, StateT.run_get, pure_bind, same]
  cases resolved : b.resolve (b.interner.intern name).1 with
  | none =>
    refine ⟨_, rfl, fun ended => ?_⟩
    have failed : b.error.or (some (.unresolved name)) = none := ended
    cases before : b.error <;> simp [before] at failed
  | some found =>
    obtain ⟨decl, scope⟩ := found
    have only := ((Attributes.Only.refl ⟨b.arena.size⟩ b.attrs).setDecl decl).setScope scope
    have here : ((b.attrs.setDecl ⟨b.arena.size⟩ decl).setScope ⟨b.arena.size⟩ scope).scope?
        ⟨b.arena.size⟩ = some scope := by rw [Attributes.scope?_setScope, if_pos rfl]
    have denoted : ((b.attrs.setDecl ⟨b.arena.size⟩ decl).setScope ⟨b.arena.size⟩ scope).decl?
        ⟨b.arena.size⟩ = some decl :=
      (Attributes.decl?_setDecl ..).trans (if_pos rfl)
    have known : ∀ text other, b.interner.find? text = some other →
        (b.interner.intern name).2.find? text = some other := fun _ _ => Interner.find?_intern name
    simp only [StateT.run_bind, pure_bind, StateT.run_modify]
    split
    · next ty _ =>
      exact ⟨_, rfl, fun ended => ⟨ended, ⟨rfl, rfl, rfl⟩, .none rfl rfl, rfl,
        ⟨rfl, only.setType _ ty, known⟩, decl, scope, rfl, here, denoted⟩⟩
    · exact ⟨_, rfl, fun ended => ⟨ended, ⟨rfl, rfl, rfl⟩, .none rfl rfl, rfl,
        ⟨rfl, only, known⟩, decl, scope, rfl, here, denoted⟩⟩

/-- A reference can be evaluated where it was made. -/
theorem makes_reference (name : String) :
    Makes Γ levels levels (reference name) (fun _ => True)
      fun n G => G.Known Γ (some Γ.scopes.length) n := by
  refine ⟨fun b ended => ?_, fun b context inv _ ended => ?_⟩
  all_goals
    obtain ⟨b', run, made⟩ := reference_run name b
    rw [run] at ended
  · exact (made ended).1
  · obtain ⟨-, same, emits, interner, allocates, decl, scope, resolved, here, denoted⟩ := made ended
    rw [run]
    obtain ⟨sc, member, entry, rfl⟩ := mem_of_resolve resolved
    obtain ⟨context', extended, found, own⟩ := allocates.extends context Γ
    have inside : sc.id ∈ Γ.scopes := by
      rw [inv.scopes, ← List.map_singleton, ← List.map_append]
      exact List.mem_map_of_mem member
    have inside' := inside
    have denotes := (inv.names sc member _ entry).grows extended.grows
    rw [← own] at inside denotes
    have fine : (b'.scoping context').Scoped _ (.reference (b.interner.intern name).1) :=
      .of_context own ⟨nofun, nofun, nofun, nofun⟩ (inv.proper.grows extended.grows)
        ⟨sc.id, decl, here, denoted, inside, denotes⟩
    have wf : b'.interner.WellFormed := interner ▸ inv.tidy.interner.intern name
    have tidy := inv.tidy.allocates allocates (.inl same.inner) same.globals wf (.inl rfl)
      (fun other here' => by
        cases here.symm.trans here'
        exact Nat.lt_of_lt_of_le (inv.made _ inside') allocates.attrs.count)
      fun other name' decl' refers => by
        cases found.symm.trans refers.kind
        cases here.symm.trans refers.scope
        cases denoted.symm.trans refers.decl
        exact (inv.tidy.entries sc member _ entry).grows
          (allocates.grows (congrArg OpenScope.id same.globals))
    exact ⟨context', inv.extend extended same tidy, ⟨allocates.adds extended fine, emits⟩,
      Scoping.Made.known ⟨found, own, inv.wellFormed⟩ rfl⟩

/-- An operation after one that only reads the builder. -/
theorem Makes.reading {α β : Type} {op : BuildM α} {next : α → BuildM β} {pre : Scoping → Prop}
    {post : β → Scoping → Prop} (reads : ∀ b, (op.run b).2 = b)
    (h : ∀ a, Makes Γ levels levels' (next a) pre post) :
    Makes Γ levels levels' (op >>= next) pre post := by
  have run : ∀ b, (op >>= next).run b = (next (op.run b).1).run b := fun b => by
    show (next (op.run b).1).run (op.run b).2 = _
    rw [reads]
  refine ⟨fun b ended => ?_, fun b context inv holds ended => ?_⟩
  all_goals rw [run] at ended
  · exact (h _).sticky b ended
  · rw [run]
    exact (h _).makes b context inv holds ended

theorem makes_fail {pre : Scoping → Prop} {post : Unit → Scoping → Prop} (error : BuildError) :
    Makes Γ levels levels' (fail error) pre post := by
  have failed : ∀ b, ((fail error).run b).2.error ≠ none := fun b ended => by
    have ended : b.error.or (some error) = none := ended
    cases before : b.error <;> simp [before] at ended
  exact ⟨fun b ended => absurd ended (failed b), fun b _ _ _ ended => absurd ended (failed b)⟩

/-- Literals and the like. -/
theorem makes_leaf (kind : NodeKind) (ty : Ty) (shape : kind.isExpression = true)
    (callee : kind.callee? = none) (operands : kind.operands = [])
    (substatements : kind.substatements = []) (fits : ∀ (G : Scoping) n, G.Fits n kind) :
    Makes Γ levels levels (expr kind ty) (fun _ => True)
      fun n G => G.Known Γ (some Γ.scopes.length) n :=
  (makes_expr kind ty shape fits).mono
    (fun _ _ => .of_operands callee substatements (by simp [operands])) fun _ _ h => h

theorem makes_constructor (name : String) :
    Makes Γ levels levels (constructor name) (fun _ => True)
      fun n G => G.Known Γ (some Γ.scopes.length) n := by
  refine (makes_reference name).bind fun reference => .reading (fun _ => rfl) fun b => ?_
  have made : Makes Γ levels levels (expr (.constructor reference) .function)
      (fun _ => True) fun n G => G.Known Γ (some Γ.scopes.length) n :=
    makes_leaf (.constructor reference) _ rfl rfl rfl rfl fun _ _ => trivial
  dsimp only
  split
  all_goals
    split
    · exact made.mono (fun _ _ => trivial) fun _ _ h => h
    · exact (makes_fail _).bind fun _ => made

/-- Expressions that have nothing but operands. -/
theorem makes_operands (kind : NodeKind) (ty : Ty) (shape : kind.isExpression = true)
    (callee : kind.callee? = none) (substatements : kind.substatements = [])
    (fits : ∀ (G : Scoping) n, G.Fits n kind) :
    Makes Γ levels levels (expr kind ty) (fun G => ∀ m ∈ kind.operands, G.Operand Γ m)
      fun n G => G.Known Γ (some Γ.scopes.length) n :=
  (makes_expr kind ty shape fits).mono (fun _ => .of_operands callee substatements) fun _ _ h => h

theorem makes_paren (inner : NodeId) :
    Makes Γ levels levels (paren inner) (·.Operand Γ inner)
      fun n G => G.Known Γ (some Γ.scopes.length) n :=
  .reading (fun _ => rfl) fun _ => (makes_operands (.parenthesized inner) _ rfl rfl rfl
    fun _ _ => trivial).mono (fun _ h => List.forall_mem_singleton.mpr h) fun _ _ h => h

theorem makes_array (elements : List NodeId) :
    Makes Γ levels levels (array elements) (fun G => ∀ m ∈ elements, G.Operand Γ m)
      fun n G => G.Known Γ (some Γ.scopes.length) n := by
  unfold array
  split <;> exact .reading (fun _ => rfl) fun _ =>
    makes_operands (.arrayLiteral _) _ rfl rfl rfl fun _ _ => trivial

theorem makes_index (stem position : NodeId) :
    Makes Γ levels levels (index stem position)
      (fun G => G.Operand Γ stem ∧ G.Operand Γ position)
      fun n G => G.Known Γ (some Γ.scopes.length) n :=
  .reading (fun _ => rfl) fun _ => (makes_operands (.arrayAccess stem position) _ rfl rfl rfl
    fun _ _ => trivial).mono (fun _ h => by simpa [NodeKind.operands] using h) fun _ _ h => h

theorem makes_field (stem : NodeId) (name : String) :
    Makes Γ levels levels (field stem name) (·.Operand Γ stem)
      fun n G => G.Known Γ (some Γ.scopes.length) n :=
  (makes_intern name).before (fun _ _ grows h => h.grows grows) fun field =>
    .reading (fun _ => rfl) fun _ => .reading (fun _ => rfl) fun _ =>
      (makes_operands (.fieldAccess stem field) _ rfl rfl rfl fun _ _ => trivial).mono
        (fun _ h => List.forall_mem_singleton.mpr h.1) fun _ _ h => h

theorem makes_callWith (callee : NodeId) (arguments : List NodeId) :
    Makes Γ levels levels (callWith callee arguments)
      (fun G => G.Operand Γ callee ∧ ∀ m ∈ arguments, G.Operand Γ m)
      fun n G => G.Known Γ (some Γ.scopes.length) n := by
  refine .reading (fun _ => rfl) fun _ => (makes_expr (.call callee arguments) _ rfl
    fun _ _ => trivial).mono (fun G h => ⟨fun m calls => ?_, h.2, nofun, nofun⟩) fun _ _ h => h
  cases calls
  exact h.1

theorem makes_call (callee : String) (arguments : List NodeId) :
    Makes Γ levels levels (call callee arguments) (fun G => ∀ m ∈ arguments, G.Operand Γ m)
      fun n G => G.Known Γ (some Γ.scopes.length) n :=
  (makes_reference callee).before (fun _ _ grows h m uses => (h m uses).grows grows)
    fun reference => (makes_callWith reference arguments).mono
      (fun _ h => ⟨h.2.operand, h.1⟩) fun _ _ h => h

theorem makes_not (operand : NodeId) :
    Makes Γ levels levels (not operand) (·.Operand Γ operand)
      fun n G => G.Known Γ (some Γ.scopes.length) n :=
  (makes_operands (.not operand) _ rfl rfl rfl fun _ _ => trivial).mono
    (fun _ h => List.forall_mem_singleton.mpr h) fun _ _ h => h

theorem makes_binary (op : BinaryOp) (left right : NodeId) :
    Makes Γ levels levels (binary op left right)
      (fun G => G.Operand Γ left ∧ G.Operand Γ right)
      fun n G => G.Known Γ (some Γ.scopes.length) n :=
  .reading (fun _ => rfl) fun _ => .reading (fun _ => rfl) fun _ =>
    (makes_operands (.binary op left right) _ rfl rfl rfl fun _ _ => trivial).mono
      (fun _ h => by simpa [NodeKind.operands] using h) fun _ _ h => h

theorem makes_assign (target value : NodeId) :
    Makes Γ levels levels (assign target value)
      (fun G => G.Operand Γ target ∧ G.Operand Γ value)
      fun n G => G.Known Γ (some Γ.scopes.length) n :=
  .reading (fun _ => rfl) fun _ => (makes_operands (.assignment target value) _ rfl rfl rfl
    fun _ _ => trivial).mono (fun _ h => by simpa [NodeKind.operands] using h) fun _ _ h => h

/-! ### Labels and places -/

theorem makes_label (key : String) (n : NodeId) (level : Option Nat) :
    Makes Γ levels (levels.insert key level) (label key n) (·.Known Γ level n)
      fun _ G => G.Known Γ level n :=
  ⟨fun _ h => h, fun _ context inv known _ => ⟨context,
    ⟨inv.scopes, inv.root, inv.made, inv.proper, inv.names, .cons ⟨rfl, known⟩ inv.labels,
      inv.inPlace, inv.tidy.same rfl (fun _ => rfl) (fun _ => rfl) (Nat.le_refl _) (fun _ _ => id)
        inv.tidy.interner rfl fun _ => .inl, inv.outermost⟩,
    ⟨adds_none context rfl (.refl · _) fun _ _ => id, .none rfl rfl⟩, known⟩⟩

theorem known_of_lookup {G : Scoping} {labels : List (String × NodeId)}
    {entries : List (String × Option Nat)}
    (known : List.Forall₂ (fun label level => label.1 = level.1 ∧ G.Known Γ level.2 label.2)
      labels entries) {key : String} {level : Option Nat} (found : entries.lookup key = some level) :
    G.Known Γ level ((labels.lookup key).getD .invalid) := by
  induction known with
  | nil => cases found
  | @cons label entry labels entries first others ih =>
    obtain ⟨name, n⟩ := label
    obtain ⟨_, level'⟩ := entry
    obtain ⟨rfl, first⟩ := first
    simp only [List.lookup_cons] at found ⊢
    split at found
    · cases found
      exact first
    · exact ih found

theorem makes_labelled {key : String} {level : Option Nat}
    (found : levels.entries.lookup key = some level) :
    Makes Γ levels levels (do return ((← get).labelled? key).getD .invalid : BuildM NodeId)
      (fun _ => True) fun n G => G.Known Γ level n :=
  ⟨fun _ h => h, fun b context inv _ _ => ⟨context, inv, .refl b context,
    known_of_lookup inv.labels found⟩⟩

theorem makes_setSpan (span : Span) {pre : Scoping → Prop} :
    Makes Γ levels levels (setSpan span) pre fun _ => pre :=
  ⟨fun _ h => h, fun _ context inv holds _ => ⟨context,
    ⟨inv.scopes, inv.root, inv.made, inv.proper, inv.names, inv.labels, inv.inPlace,
      inv.tidy.same rfl (fun _ => rfl) (fun _ => rfl) (Nat.le_refl _) (fun _ _ => id)
        inv.tidy.interner rfl fun _ => .inl, inv.outermost⟩,
    ⟨adds_none context rfl (.refl · _) fun _ _ => id, .none rfl rfl⟩, holds⟩⟩

theorem Makes.located {α : Type} {op : BuildM α} {pre : Scoping → Prop} {post : α → Scoping → Prop}
    (h : Makes Γ levels levels' op pre post) (span : Span) :
    Makes Γ levels levels' (located span op) pre post :=
  .reading (fun _ => rfl) fun _ => (makes_setSpan span).bind fun _ => h.bind fun a =>
    (makes_setSpan _).bind fun _ => makes_pure a fun _ h => h

end Builder

end Strand
