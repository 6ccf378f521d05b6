import Strand.Proofs.Scope.Blocks

/-!
# Builders make well-scoped declarations

The node of a declaration is declared after it has been allocated, so a name may be read in every
context but that of its own node. What can be read of it depends on the kind of the node: a variable
has to be in the context, a struct does not.

A function has its node before it has a body, and until then nothing says that its node is well-scoped.
But what is built in the body needs of the function only where it was declared.
-/

set_option autoImplicit false

namespace Strand

open Context (Later)

namespace Builder

variable {b b' b'' : Builder} {context context' context'' : Contexts} {Γ Δ : Context}
  {levels levels' levels'' : Levels}

/-! ## 1. The node of a declaration -/

/-- A new node declares a name in the innermost open scope, which did not have the name. -/
structure Declares (b : Builder) (name : Name) (kind : NodeKind) (b' : Builder) : Prop
    extends b.Allocates kind b' where
  declares : kind.declaredName? = some name
  here : b'.attrs.scope? ⟨b.arena.size⟩ = some b.currentScope.id
  free : b.currentScope.find? name = none
  scopes : ∃ outer, b.inner ++ [b.globals] = b.currentScope :: outer ∧
    b'.inner ++ [b'.globals] = b.currentScope.insert name (.node ⟨b.arena.size⟩) :: outer
  inner : b'.inner.map OpenScope.id = b.inner.map OpenScope.id
  globals : b'.globals.id = b.globals.id
  hosts : ∀ other, (b.globals.find? other).isSome → (b'.globals.find? other).isSome
  labels : b'.labels = b.labels
  texts : b'.interner = b.interner
  emits : b.Emits [] b'

/-- What the open scopes hold afterwards. -/
theorem Declares.names {name : Name} {kind : NodeKind} (h : b.Declares name kind b') :
    ∀ scope ∈ b'.inner ++ [b'.globals], ∀ x ∈ scope.names,
      (∃ old ∈ b.inner ++ [b.globals], old.id = scope.id ∧ x ∈ old.names) ∨
        scope.id = b.currentScope.id ∧ x = (name, .node ⟨b.arena.size⟩) := by
  obtain ⟨outer, before, after⟩ := h.scopes
  rw [before, after]
  intro scope member x here
  rcases List.mem_cons.mp member with rfl | others
  · rcases List.mem_cons.mp here with new | old
    · exact .inr ⟨rfl, new⟩
    · exact .inl ⟨b.currentScope, List.mem_cons_self, rfl, old⟩
  · exact .inl ⟨scope, List.mem_cons_of_mem _ others, rfl, here⟩

/-- A name that the innermost scope has already is a problem, and still gets its new meaning. -/
theorem run_declare (name : Name) (n : NodeId) (b : Builder) : ∃ inner globals error,
    (declare name n).run b = ((), { b with
      attrs := b.attrs.setScope n b.currentScope.id, inner, globals, error }) ∧
    (error = if (b.currentScope.find? name).isSome then
      b.error.or (some (.redeclared (b.interner.lookup name))) else b.error) ∧
    (∃ outer, b.inner ++ [b.globals] = b.currentScope :: outer ∧
      inner ++ [globals] = b.currentScope.insert name (.node n) :: outer) ∧
    inner.map OpenScope.id = b.inner.map OpenScope.id ∧ globals.id = b.globals.id ∧
    ∀ other, (b.globals.find? other).isSome → (globals.find? other).isSome := by
  obtain ⟨_, _, _, _, _ | ⟨first, outer⟩, _⟩ := b
  all_goals
    simp only [declare, setScope, StateT.run_bind, StateT.run_get, StateT.run_modify, pure_bind]
    split
  · exact ⟨_, _, _, rfl, rfl, ⟨[], rfl, rfl⟩, rfl, rfl,
      fun _ known => OpenScope.isSome_find?_insert (.inr known)⟩
  · exact ⟨_, _, _, rfl, rfl, ⟨[], rfl, rfl⟩, rfl, rfl,
      fun _ known => OpenScope.isSome_find?_insert (.inr known)⟩
  · exact ⟨_, _, _, rfl, rfl, ⟨_, rfl, rfl⟩, rfl, rfl, fun _ => id⟩
  · exact ⟨_, _, _, rfl, rfl, ⟨_, rfl, rfl⟩, rfl, rfl, fun _ => id⟩

/-- To declare a node that has just been allocated. -/
theorem Allocates.declares {kind : NodeKind} {name : Name} (h : b.Allocates kind b')
    (declares : kind.declaredName? = some name) (same : b.Same b') (texts : b'.interner = b.interner)
    (emits : b.Emits [] b') (ended : ((declare name ⟨b.arena.size⟩).run b').2.error = none) :
    b'.error = none ∧ b.Declares name kind ((declare name ⟨b.arena.size⟩).run b').2 := by
  obtain ⟨inner, globals, error, run, problem, scopes, innerIds, globalsId, hosts⟩ :=
    run_declare name ⟨b.arena.size⟩ b'
  have current : b'.currentScope = b.currentScope := by
    rw [currentScope, currentScope, same.inner, same.globals]
  rw [run] at ended ⊢
  -- without a problem, the name was free
  have sticky : b'.error = none ∧ b'.currentScope.find? name = none := by
    rw [show error = none from ended] at problem
    split at problem
    · cases (Option.or_eq_none_iff.mp problem.symm).2
    · next free => exact ⟨problem.symm, Option.not_isSome_iff_eq_none.mp free⟩
  rw [same.inner] at innerIds scopes
  rw [same.globals] at globalsId scopes hosts
  rw [current] at sticky scopes ⊢
  exact ⟨sticky.1, ⟨⟨h.arena, h.attrs.setScope _, h.interner⟩, declares,
    (Attributes.scope?_setScope ..).trans (if_pos rfl), sticky.2, scopes, innerIds, globalsId,
    hosts, same.labels, texts, emits⟩⟩

theorem Declares.tidy {name : Name} {kind : NodeKind} (h : b.Declares name kind b')
    (inv : b.Inv context Γ levels) : b'.Tidy levels.reserved := by
  obtain ⟨outer, before, after⟩ := h.scopes
  have ids : Γ.scopes = b.currentScope.id :: outer.map OpenScope.id := by
    rw [inv.scopes, ← List.map_singleton, ← List.map_append, before, List.map_cons]
  have apart : ∀ sc ∈ outer, sc.id ≠ b.currentScope.id := fun sc member same => by
    have distinct := inv.proper.distinct
    rw [ids] at distinct
    exact (List.nodup_cons.mp distinct).1 (same ▸ List.mem_map_of_mem member)
  have wf : b'.interner.WellFormed := h.texts.symm ▸ inv.tidy.interner
  refine inv.tidy.declares h.toAllocates h.declares h.here (inv.made _ ?_) h.free wf h.globals
    h.hosts (fun sc member => ?_) fun root => ?_
  · rw [ids]
    exact List.mem_cons_self
  · rw [after] at member
    rcases List.mem_cons.mp member with rfl | others
    · exact .inr rfl
    · refine .inl ⟨?_, apart sc others⟩
      rw [before]
      exact List.mem_cons_of_mem _ others
  · have bottom : b.globals ∈ b.currentScope :: outer :=
      before ▸ List.mem_append_right _ List.mem_cons_self
    rcases List.mem_cons.mp bottom with same | others
    · exact same.symm
    · exact absurd root.symm (apart _ others)

/-- What a declared node denotes can be read afterwards. -/
theorem Declares.inv {name : Name} {kind : NodeKind} (h : b.Declares name kind b')
    (inv : b.Inv context Γ levels) (extended : b.Extends context b' context') (names : List Name)
    (denotes : (b'.scoping context').Denotes (Γ.declare (names.map (b.currentScope.id, ·)))
      b.currentScope.id name (.node ⟨b.arena.size⟩)) :
    b'.Inv context' (Γ.declare (names.map (b.currentScope.id, ·))) levels := by
  refine inv.grow extended.grows (Context.le_declare ..) ?_ h.globals
    (fun s member => Nat.lt_of_lt_of_le (inv.made s member) extended.count)
    ((inv.proper.grows extended.grows).later (Context.later_declare inv.head names))
    (fun scope member x here => ?_) h.labels (h.tidy inv) (extended.outermost inv)
  · rw [Context.scopes_declare, inv.scopes, h.inner, h.globals]
  · rcases h.names scope member x here with before | ⟨same, rfl⟩
    · exact .inl before
    · exact .inr (same ▸ denotes)

/-- Its own context is the one before the declaration. -/
theorem Declares.step {name : Name} {kind : NodeKind} (h : b.Declares name kind b')
    (inv : b.Inv context Γ levels) (names : List Name) (parts : (b.scoping context).Parts Γ kind)
    (denotes : ∀ (G : Scoping) Δ scope n, G.arena.kind? n = some kind →
      names.map (scope, ·) ⊆ Δ.names → G.Denotes Δ scope name (.node n))
    (fits : ∀ (G : Scoping) n scope, G.attrs.scope? n = some scope →
      (G.context n).scopes.head? = some scope → G.Fits n kind) :
    ∃ context', b'.Inv context' (Γ.declare (names.map (b.currentScope.id, ·))) levels ∧
      b.Step context [] b' context' ∧ (b'.scoping context').Made Γ kind ⟨b.arena.size⟩ ∧
      (b'.scoping context').Proper Γ := by
  obtain ⟨context', extended, found, own⟩ := h.toAllocates.extends context Γ
  have readable := denotes (b'.scoping context') (Γ.declare (names.map (b.currentScope.id, ·)))
    b.currentScope.id ⟨b.arena.size⟩ found (List.subset_append_left _ _)
  have proper := inv.proper.grows extended.grows
  refine ⟨context', h.inv inv extended names readable,
    ⟨h.toAllocates.adds extended (.of_context own (parts.grows extended.grows) proper
      (fits _ _ _ h.here ?_)), h.emits⟩, ⟨found, own, inv.wellFormed⟩, proper⟩
  show (context' ⟨b.arena.size⟩).scopes.head? = some b.currentScope.id
  rw [own, inv.head]

/-! ## 2. Variables -/

/-- A node of a type has been allocated. -/
def allocated (b : Builder) (kind : NodeKind) (ty : Ty) : Builder :=
  { b with
    arena := (b.arena.alloc kind b.span).2
    attrs := b.attrs.setType ⟨b.arena.size⟩ ty }

theorem allocates_allocated (b : Builder) (kind : NodeKind) (ty : Ty) :
    b.Allocates kind (b.allocated kind ty) :=
  ⟨rfl, (Attributes.Only.refl ..).setType _ _, fun _ _ => id⟩

/-- Allocates a node of a type, and declares it. -/
def declaration (name : Name) (kind : NodeKind) (ty : Ty) : BuildM NodeId := do
  let node ← alloc kind
  setType node ty
  declare name node
  return node

theorem declareVar_eq (name : String) (ty : Ty) (initializer : NodeId) :
    declareVar name ty initializer = (do
      let interned ← intern name
      declaration interned (.varDecl interned initializer) ty) := rfl

theorem parameter_eq (name : String) (ty : Ty) :
    parameter name ty = (do
      let interned ← intern name
      declaration interned (.parameter interned) ty) := rfl

theorem run_declaration (name : Name) (kind : NodeKind) (ty : Ty) (b : Builder) :
    (declaration name kind ty).run b =
      (⟨b.arena.size⟩, ((declare name ⟨b.arena.size⟩).run (b.allocated kind ty)).2) := rfl

/-- An operation that makes a node of a kind and declares it as a variable of the innermost scope. -/
structure Introduces (Γ : Context) (levels : Levels) (op : BuildM NodeId) (kind : Name → NodeKind)
    (pre : Scoping → Prop) : Prop where
  sticky : ∀ b, (op.run b).2.error = none → b.error = none
  introduces : ∀ b context, b.Inv context Γ levels → pre (b.scoping context) →
    (op.run b).2.error = none → ∃ context' scope name, Γ.scopes.head? = some scope ∧
      (op.run b).2.Inv context' (Γ.declare [(scope, name)]) levels ∧
      b.Step context [] (op.run b).2 context' ∧
      ((op.run b).2.scoping context').Made Γ (kind name) (op.run b).1 ∧
      (op.run b).2.attrs.scope? (op.run b).1 = some scope ∧
      ((op.run b).2.scoping context').Proper Γ

theorem introduces_declaration (text : String) (ty : Ty) (kind : Name → NodeKind)
    (declares : ∀ name, (kind name).declaredName? = some name) {pre : Scoping → Prop}
    (kept : ∀ G G', G.Grows G' → pre G → pre G')
    (parts : ∀ G name, pre G → G.Parts Γ (kind name))
    (denotes : ∀ (G : Scoping) Δ scope name n, G.arena.kind? n = some (kind name) →
      (scope, name) ∈ Δ.names → G.Denotes Δ scope name (.node n))
    (fits : ∀ (G : Scoping) n scope name, G.attrs.scope? n = some scope →
      (G.context n).scopes.head? = some scope → G.Fits n (kind name)) :
    Introduces Γ levels (do let name ← intern text; declaration name (kind name) ty) kind pre := by
  have declared : ∀ b : Builder, ∀ name,
      ((declaration name (kind name) ty).run b).2.error = none →
      b.error = none ∧ b.Declares name (kind name) ((declaration name (kind name) ty).run b).2 :=
    fun b name ended => by
      rw [run_declaration] at ended ⊢
      exact (allocates_allocated b (kind name) ty).declares (declares name) ⟨rfl, rfl, rfl⟩ rfl
        (.none rfl rfl) ended
  refine ⟨fun b ended => (declared _ _ ended).1, fun b context inv holds ended => ?_⟩
  obtain ⟨context', inv', step, holds', -⟩ :=
    ((makes_intern text).frame kept).makes b context inv
      ⟨holds, trivial⟩ (declared _ _ ended).1
  obtain ⟨context'', inv'', step', made, proper⟩ := (declared _ _ ended).2.step inv' [_]
    (parts _ _ holds') (fun G Δ scope n kind here => denotes G Δ scope _ n kind (here List.mem_cons_self))
    fun G n scope => fits G n scope _
  exact ⟨context'', _, _, inv'.head, inv'', step.trans step', made, (declared _ _ ended).2.here,
    proper⟩

theorem introduces_var (name : String) (ty : Ty) (initializer : NodeId) :
    Introduces Γ levels (declareVar name ty initializer) (.varDecl · initializer)
      (·.Operand Γ initializer) := by
  rw [declareVar_eq]
  refine introduces_declaration name ty (.varDecl · initializer) (fun _ => rfl)
    (fun _ _ grows h => h.grows grows)
    (fun G name operand => .of_operands rfl rfl (List.forall_mem_singleton.mpr operand))
    (fun G Δ scope name n kind here => ?_) fun G n scope name here head => ⟨scope, here, head⟩
  simpa only [Scoping.Denotes, kind] using here

theorem introduces_parameter (name : String) (ty : Ty) :
    Introduces Γ levels (parameter name ty) .parameter fun _ => True := by
  rw [parameter_eq]
  refine introduces_declaration name ty .parameter (fun _ => rfl) (fun _ _ _ _ => trivial)
    (fun G name _ => .of_operands rfl rfl nofun) (fun G Δ scope name n kind here => ?_)
    fun _ _ _ _ _ _ => trivial
  simpa only [Scoping.Denotes, kind] using here

/-- The statement that declares the variable comes after the declaration, and belongs to the context
before it. -/
theorem Introduces.builds {op : BuildM NodeId} {kind : Name → NodeKind} {pre : Scoping → Prop}
    {next : NodeId → BuildM NodeId} (first : Introduces Γ levels op kind pre)
    (second : ∀ n name scope, Makes (Γ.declare [(scope, name)]) levels levels (next n)
      (fun G => G.Made Γ (kind name) n ∧ G.attrs.scope? n = some scope ∧ G.Proper Γ)
      fun m G => G.Statement Γ m ∧ G.Declares m (scope, name)) :
    Builds Γ levels levels (do emit (← next (← op))) pre := by
  refine ⟨fun b ended => first.sticky b ((second _ ⟨0⟩ ⟨0⟩).sticky _ (none_of_emit ended)),
    fun b context inv holds ended => ?_⟩
  have ended' := none_of_emit ended
  obtain ⟨context', scope, name, head, inv', step, made⟩ :=
    first.introduces b context inv holds ((second _ ⟨0⟩ ⟨0⟩).sticky _ ended')
  obtain ⟨context'', inv'', step', statement, declares⟩ :=
    (second _ name scope).makes _ context' inv' made ended'
  obtain ⟨-, -, step''⟩ := emits_one _ _ context''
  refine ⟨context'', _, _, (inv''.emit _).next, step.trans (step'.trans step''),
    (Context.later_declare head [name]).trans (Context.later_next _),
    .cons [(scope, name)] (statement.grows step''.grows) (fun x member => ?_) (.nil _)⟩
  cases List.mem_singleton.mp member
  exact declares.grows step''.grows

theorem builds_var (name : String) (ty : Ty) (initializer : NodeId) :
    Builds Γ levels levels (var name ty initializer) (·.Operand Γ initializer) :=
  (introduces_var name ty initializer).builds fun n name scope => makes_pure n fun _ h =>
    ⟨h.1.statement rfl, .stored n initializer name scope h.1.kind h.2.1⟩

theorem builds_launchVar (name : String) (ty : Ty) (callee : String) (arguments : List NodeId) :
    Builds Γ levels levels (launchVar name ty callee arguments)
      fun G => ∀ m ∈ arguments, G.Operand Γ m := by
  refine (makes_call callee arguments).builds fun call => ?_
  have made : ∀ n interned scope, Makes (Γ.declare [(scope, interned)]) levels levels
      (do
        let node ← alloc (.launchDecl n)
        setType node .void
        return node)
      (fun G => G.Made Γ (.varDecl interned call) n ∧ G.attrs.scope? n = some scope ∧ G.Proper Γ)
      fun m G => G.Statement Γ m ∧ G.Declares m (scope, interned) := by
    intro n interned scope
    have kept : ∀ G G' : Scoping, G.Grows G' →
        G.Made Γ (.varDecl interned call) n ∧ G.attrs.scope? n = some scope →
        G'.Made Γ (.varDecl interned call) n ∧ G'.attrs.scope? n = some scope :=
      fun G G' grows h => ⟨h.1.grows grows nofun, (grows.scope n (h.1.kind ▸ rfl)).trans h.2⟩
    refine (((makes_alloc_in Γ (.launchDecl n) fun _ _ => trivial).frame kept).mono
      (fun G h => ⟨⟨h.1, h.2.1⟩, h.2.2, nofun, nofun, ?_, ?_⟩) fun _ _ h => h).bind
        fun m => (makes_setType m _).before (fun G G' grows h =>
          ⟨kept G G' grows h.1, h.2.grows grows nofun⟩) fun _ =>
            makes_pure m fun G h => ⟨h.1.2.statement rfl, ?_⟩
    · exact List.forall_mem_singleton.mpr (h.1.statement rfl)
    · exact List.forall_mem_singleton.mpr ⟨_, h.1.kind, rfl⟩
    · exact .launched m n call interned scope h.1.2.kind h.1.1.1.kind h.1.1.2
  exact ((introduces_var name ty call).builds made).mono fun G known => known.operand

/-! ## 3. Structs and builtins -/

theorem makes_mapM {α β : Type} {f : α → BuildM β}
    (h : ∀ a, Makes Γ levels levels (f a) (fun _ => True) fun _ _ => True) (as : List α) :
    Makes Γ levels levels (as.mapM f) (fun _ => True) fun _ _ => True := by
  induction as with
  | nil => exact makes_pure [] fun _ h => h
  | cons a rest ih =>
    rw [List.mapM_cons]
    exact (h a).bind fun _ => ih.bind fun _ => makes_pure _ fun _ h => h

theorem makes_fieldDecl (name : String) (ty : Ty) :
    Makes Γ levels levels (fieldDecl name ty) (fun _ => True) fun _ _ => True := by
  refine (makes_intern name).bind fun interned => ?_
  refine ((makes_alloc (.fieldDecl interned) fun _ _ => trivial).mono
    (fun _ _ => .of_operands rfl rfl nofun) fun _ _ _ => trivial).bind fun n => ?_
  exact (makes_setType n ty).bind fun _ => makes_pure _ fun _ h => h

theorem builds_struct (name : String) (fields : List (String × Ty)) :
    Builds Γ levels levels (struct name fields) fun _ => True := by
  refine (makes_intern name).builds fun interned => ?_
  refine (makes_mapM ?_ fields).builds fun fields => ?_
  · exact fun field => makes_fieldDecl field.1 field.2
  have declared : ∀ b : Builder, ∀ returns structFields,
      let b' := ((declare interned ⟨b.arena.size⟩).run { b.allocated (.structDecl interned
        (fields.map Prod.fst)) .type with returns, structFields }).2
      b'.error = none →
      b.error = none ∧ b.Declares interned (.structDecl interned (fields.map Prod.fst)) b' := by
    intro b returns structFields b' ended
    have made := allocates_allocated b (.structDecl interned (fields.map Prod.fst)) .type
    have allocates : b.Allocates (.structDecl interned (fields.map Prod.fst)) { b.allocated
      (.structDecl interned (fields.map Prod.fst)) .type with returns, structFields } :=
        ⟨made.arena, made.attrs, made.interner⟩
    exact allocates.declares rfl ⟨rfl, rfl, rfl⟩ rfl (.none rfl rfl) ended
  refine ⟨fun b ended => (declared b _ _ (none_of_emit ended)).1,
    fun b context inv _ ended => ?_⟩
  obtain ⟨-, declares⟩ := declared b _ _ (none_of_emit ended)
  obtain ⟨context', inv', step, made, -⟩ := declares.step inv [] (.of_operands rfl rfl (List.forall_mem_nil _))
    (fun G Δ scope n kind _ => by simp only [Scoping.Denotes, kind]) fun _ _ _ _ _ => trivial
  obtain ⟨-, -, step'⟩ := emits_one _ _ context'
  exact ⟨context', _, _, (inv'.emit _).next, step.trans step', Context.later_next Γ,
    .cons [] ((made.statement rfl).grows step'.grows) (by simp) (.nil _)⟩

/-- A builtin hides what its name meant among the globals. -/
theorem builds_builtin (name : String) (returns : Ty) (free : name ∉ levels.reserved) :
    Builds Γ levels levels (builtin name returns) fun _ => True := by
  refine ⟨fun _ h => h, fun b context inv _ _ => ?_⟩
  have adds : b.Adds context ((builtin name returns).run b).2 context :=
    adds_none context rfl (.refl · _) fun _ _ => Interner.find?_intern name
  have tidy : ((builtin name returns).run b).2.Tidy levels.reserved :=
    inv.tidy.host free .function rfl rfl rfl rfl rfl
  refine ⟨context, Γ, [], inv.grow adds.grows (le_refl Γ) inv.scopes rfl inv.made inv.proper
    (fun scope member x here => ?_) rfl tidy inv.outermost, ⟨adds, .none rfl rfl⟩, .refl Γ, .nil Γ⟩
  rcases List.mem_append.mp member with inner | bottom
  · exact .inl ⟨scope, List.mem_append_left _ inner, rfl, here⟩
  · cases List.mem_singleton.mp bottom
    rcases List.mem_cons.mp here with rfl | before
    · exact .inr trivial
    · exact .inl ⟨b.globals, List.mem_append_right _ List.mem_cons_self, rfl, before⟩

/-! ## 4. Functions -/

section

variable {s : ScopeId} {names : List Name}

theorem parameters_sticky (parameters : List (String × Ty)) : ∀ b : Builder,
    ((parameters.mapM fun (name, ty) => parameter name ty).run b).2.error = none →
      b.error = none := by
  induction parameters with
  | nil => exact fun b ended => ended
  | cons first rest ih =>
    intro b ended
    rw [List.mapM_cons] at ended
    have one : Introduces ⟨[], [], 0⟩ ⟨⟨false, []⟩, []⟩ (parameter first.1 first.2) .parameter fun _ => True :=
      introduces_parameter first.1 first.2
    exact one.sticky b (ih _ ended)

/-- The parameters are variables of the scope that is open. -/
theorem parameters_made (parameters : List (String × Ty)) (inv : b.Inv context (Γ.push s names) levels) :
    let made := (parameters.mapM fun (name, ty) => parameter name ty).run b
    made.2.error = none → ∃ context' new,
      made.2.Inv context' (Γ.push s (new.reverse ++ names)) levels ∧
      b.Step context [] made.2 context' ∧
      List.Forall₂ (fun m name => made.2.arena.kind? m = some (.parameter name)) made.1 new := by
  induction parameters generalizing b context names with
  | nil => exact fun ended => ⟨context, [], inv, .refl b context, .nil⟩
  | cons first rest ih =>
    rw [List.mapM_cons]
    intro made ended
    obtain ⟨context', scope, name, head, inv', step, declared, -⟩ :=
      (introduces_parameter first.1 first.2).introduces b context inv trivial
        (parameters_sticky rest _ ended)
    cases head
    have inv' : ((parameter first.1 first.2).run b).2.Inv context' (Γ.push s (name :: names))
      levels := inv'
    obtain ⟨context'', new, inv'', step', others⟩ := ih inv' ended
    refine ⟨context'', name :: new, ?_, step.trans step',
      .cons (step'.fixed _ _ declared.kind) others⟩
    rw [List.reverse_cons, List.append_assoc]
    exact inv''

end

/-- The parameter scope of a function has been opened. -/
def entered (b : Builder) (function : NodeId) : Builder :=
  { b with
    attrs := (b.attrs.newScope (some b.currentScope.id)).2.setBodyScope function ⟨b.attrs.scopeCount⟩
    inner := ⟨⟨b.attrs.scopeCount⟩, []⟩ :: b.inner }

/-- What holds when the parameter scope `s` of a function is open. -/
structure Enters (b : Builder) (context : Contexts) (Γ : Context) (levels : Levels)
    (name : Name) (s : ScopeId) (b' : Builder) (context' : Contexts) : Prop where
  allocates : b.Allocates (.funDecl name [] .invalid) b'
  extended : b.Extends context b' context'
  found : b'.arena.kind? ⟨b.arena.size⟩ = some (.funDecl name [] .invalid)
  own : context' ⟨b.arena.size⟩ = Γ
  fresh : s ∉ Γ.scopes
  here : b'.attrs.scope? ⟨b.arena.size⟩ = some b.currentScope.id
  opens : b'.attrs.bodyScope? ⟨b.arena.size⟩ = some s
  parent : b'.attrs.parent? s = some b.currentScope.id
  inv : b'.Inv context' (Γ.push s []) levels
  emits : b.Emits [] b'

theorem currentScope_id (b : Builder) :
    b.currentScope.id = (b.inner.map OpenScope.id).headD b.globals.id := by
  rw [currentScope]
  cases b.inner <;> rfl

/-- The function can be called where it was declared. -/
theorem Declares.enters {name : Name} (h : b.Declares name (.funDecl name [] .invalid) b')
    (inv : b.Inv context Γ levels) : ∃ context', b.Enters context Γ levels name
      ⟨b'.attrs.scopeCount⟩ (b'.entered ⟨b.arena.size⟩) context' := by
  have current : b'.currentScope.id = b.currentScope.id := by
    rw [currentScope_id, currentScope_id, h.inner, h.globals]
  have allocates : b.Allocates (.funDecl name [] .invalid) (b'.entered ⟨b.arena.size⟩) :=
    ⟨h.arena, (h.attrs.newScope _).setBodyScope _, h.interner⟩
  obtain ⟨context', extended, found, own⟩ := allocates.extends context Γ
  have count : (b'.entered ⟨b.arena.size⟩).attrs.scopeCount = b'.attrs.scopeCount + 1 :=
    Attributes.Only.scopeCount_newScope ..
  have older : ∀ s ∈ Γ.scopes, s.index < b'.attrs.scopeCount := fun s member =>
    Nat.lt_of_lt_of_le (inv.made s member) h.attrs.count
  have callable : ((b'.entered ⟨b.arena.size⟩).scoping context').Denotes
      (Γ.push ⟨b'.attrs.scopeCount⟩ []) b.currentScope.id name (.node ⟨b.arena.size⟩) := by
    refine Scoping.Denotes.mono ?_ (Context.le_push ..)
    have found : ((b'.entered ⟨b.arena.size⟩).scoping context').arena.kind? ⟨b.arena.size⟩ =
      some (.funDecl name [] .invalid) := found
    simp only [Scoping.Denotes, found]
    exact .of_context h.here own inv.head inv.wellFormed
  have parent : (b'.entered ⟨b.arena.size⟩).attrs.parent? ⟨b'.attrs.scopeCount⟩ =
      some b.currentScope.id := by
    rw [← current]
    exact (Attributes.parent?_newScope ..).trans (if_pos rfl)
  have fresh : (⟨b'.attrs.scopeCount⟩ : ScopeId) ∉ Γ.scopes :=
    fun member => Nat.lt_irrefl _ (older _ member)
  have tidy : (b'.entered ⟨b.arena.size⟩).Tidy levels.reserved := by
    refine (h.tidy inv).same rfl (fun _ => rfl) (fun _ => rfl) (count ▸ Nat.le_succ _)
      (fun _ _ => id) (h.tidy inv).interner rfl fun sc member => ?_
    rcases List.mem_cons.mp member with rfl | before
    · exact .inr ⟨rfl, Nat.le_refl _⟩
    · exact .inl before
  refine ⟨context', allocates, extended, found, own, fresh, h.here,
    (Attributes.bodyScope?_setBodyScope ..).trans (if_pos rfl), parent, ?_,
    h.emits.trans (.none rfl rfl)⟩
  · refine inv.grow extended.grows (Context.le_push ..) ?_ h.globals (fun s member => ?_)
      ((inv.proper.grows extended.grows).push inv.head parent fresh [])
      (fun scope member x here => ?_) h.labels tidy (extended.outermost inv)
    · show _ :: Γ.scopes = _ :: (b'.inner.map OpenScope.id ++ [b'.globals.id])
      rw [inv.scopes, h.inner, h.globals]
    · rw [count]
      rcases List.mem_cons.mp member with rfl | outer
      · exact Nat.lt_succ_self _
      · exact Nat.lt_succ_of_lt (older s outer)
    · rcases List.mem_cons.mp member with rfl | outer
      · cases here
      · rcases h.names scope outer x here with before | ⟨same, rfl⟩
        · exact .inl before
        · exact .inr (same ▸ callable)

/-- The parameter scope has been closed, and the function has its parameters and its body. -/
def left (b : Builder) (function : NodeId) (kind : NodeKind) : Builder :=
  { b with inner := b.inner.tail, arena := b.arena.setKind function kind }

theorem grows_left {function : NodeId} {name : Name} {parameters parameters' : List NodeId}
    {body body' : NodeId} (found : b.arena.kind? function = some (.funDecl name parameters body)) :
    (b.scoping context).Grows
      ((b.left function (.funDecl name parameters' body')).scoping context) := by
  refine ⟨fun n kind same => ?_, fun _ _ => rfl, fun _ _ => rfl, fun _ _ => rfl, fun _ _ => rfl,
    fun _ _ h => h, rfl, rfl⟩
  have after : ((b.left function (.funDecl name parameters' body')).scoping context).arena.kind? n =
      _ := Arena.kind?_setKind ..
  rw [after]
  by_cases here : n = function
  · subst here
    cases same.symm.trans found
    exact ⟨_, by rw [if_pos rfl, found]; rfl, .inr ⟨_, _, _, _, _, rfl, rfl⟩⟩
  · exact ⟨kind, by rw [if_neg here]; exact same, .inl rfl⟩

/-- The function gets its parameters and its body. -/
theorem Enters.left {name : Name} {s : ScopeId} {names new : List Name} {parameters : List NodeId}
    {body : NodeId} (h : b.Enters context Γ levels name s b' context')
    (adds : b'.Adds context' b'' context'') (emits : b'.Emits [] b'')
    (inv : b''.Inv context'' (Γ.push s names) levels'') (declared : names ⊆ new)
    (kinds : List.Forall₂ (fun m name => b''.arena.kind? m = some (.parameter name)) parameters new)
    (block : (b''.scoping context'').Block (Γ.push s names) body)
    (proper : (b.scoping context).Proper Γ) (head : Γ.scopes.head? = some b.currentScope.id) :
    let kind := NodeKind.funDecl name parameters body
    (b''.left ⟨b.arena.size⟩ kind).Inv context'' Γ (levels''.close Γ.scopes.length) ∧
      b.Step context [] (b''.left ⟨b.arena.size⟩ kind) context'' ∧
      ((b''.left ⟨b.arena.size⟩ kind).scoping context'').Made Γ kind ⟨b.arena.size⟩ := by
  intro kind
  have found := adds.fixed _ _ h.found
  have own : context'' ⟨b.arena.size⟩ = Γ := (adds.grows.context _ (h.found ▸ rfl)).trans h.own
  have grows : (b''.scoping context'').Grows ((b''.left ⟨b.arena.size⟩ kind).scoping context'') :=
    grows_left found
  have after : ∀ n, (b''.left ⟨b.arena.size⟩ kind).arena.kind? n = if n = ⟨b.arena.size⟩ then
      (b''.arena.kind? n).map fun _ => kind else b''.arena.kind? n :=
    fun n => Arena.kind?_setKind ..
  have here : (b''.left ⟨b.arena.size⟩ kind).arena.kind? ⟨b.arena.size⟩ = some kind := by
    rw [after, if_pos rfl, found]
    rfl
  have extended : b.Extends context (b''.left ⟨b.arena.size⟩ kind) context'' := by
    have both := h.extended.trans adds.toExtends
    refine ⟨both.grows.trans grows, fun n kind' before => ?_, both.count, both.parent,
      both.interner⟩
    rw [after, if_neg (Arena.ne_of_kind? before)]
    exact both.fixed n kind' before
  have proper : ((b''.left ⟨b.arena.size⟩ kind).scoping context'').Proper Γ :=
    proper.grows extended.grows
  have fine : ((b''.left ⟨b.arena.size⟩ kind).scoping context'').Scoped ⟨b.arena.size⟩ kind := by
    have block := block.grows grows
    have inside : ((b''.left ⟨b.arena.size⟩ kind).scoping context'').Block (Γ.push s new) body := by
      refine ⟨⟨block.kind, block.scopes, block.position, ?_⟩, block.block⟩
      refine List.Subset.trans block.names (List.append_subset.mpr ⟨?_, ?_⟩)
      · exact List.Subset.trans (List.map_subset _ declared) (List.subset_append_left _ _)
      · exact List.subset_append_right _ _
    have fresh := h.fresh
    rw [← own] at head fresh inside
    exact .of_context own (.of_operands rfl rfl nofun) proper ⟨_, s, new, head,
      (adds.grows.scope _ (h.found ▸ rfl)).trans h.here,
      (adds.grows.bodyScope _ (h.found ▸ rfl)).trans h.opens, adds.grows.parent _ _ h.parent, fresh,
      kinds.imp fun m name parameter => grows.kind_eq parameter (by simp), inside⟩
  have tidy : (b''.left ⟨b.arena.size⟩ kind).Tidy levels''.reserved :=
    inv.tidy.setKind found rfl (by simp [kind])
  have isSome : Γ.scopes ≠ [] := fun empty => by
    rw [empty] at head
    cases head
  refine ⟨inv.close (.refl _) h.fresh isSome proper grows (Nat.le_refl _) rfl rfl rfl tidy
    inv.outermost, ⟨⟨extended, fun n kind' known fresh => ?_⟩,
      h.emits.trans (emits.trans (.none rfl rfl))⟩, here, own, proper.wellFormed⟩
  by_cases same : n = ⟨b.arena.size⟩
  · subst same
    cases known.symm.trans here
    exact fine
  · rw [after, if_neg same] at known
    have new : b'.arena.kind? n = none := by
      rw [h.allocates.arena, Arena.kind?_alloc, if_neg same, fresh]
    exact (adds.fine n kind' known new).grows (known ▸ rfl) grows

/-- The body of a function is two scopes further in. -/
theorem builds_function (name : String) (parameters : List (String × Ty)) (returns : Ty)
    {body : BuildM Unit} (h : ∀ Δ, Δ.scopes.length = Γ.scopes.length + 2 →
      Builds Δ levels levels' body fun _ => True) :
    Builds Γ levels (levels'.close Γ.scopes.length) (function name parameters returns body)
      fun _ => True := by
  rw [← Levels.close_close levels' (Nat.le_succ _)]
  refine (makes_intern name).builds fun interned => ?_
  have made : ∀ s names, Makes (Γ.push s names) levels (levels'.close (Γ.scopes.length + 1))
      (scopedBlock body) (fun _ => True) fun n G => G.Block (Γ.push s names) n :=
    fun s names => makes_scopedBlock (Γ := Γ.push s names) h
  have declared : ∀ b : Builder, ∀ returns,
      let b' := ((declare interned ⟨b.arena.size⟩).run { b.allocated
        (.funDecl interned [] .invalid) .function with returns }).2
      (b'.entered ⟨b.arena.size⟩).error = none →
      b.error = none ∧ b.Declares interned (.funDecl interned [] .invalid) b' := by
    intro b returns b' ended
    have made := allocates_allocated b (.funDecl interned [] .invalid) .function
    have allocates : b.Allocates (.funDecl interned [] .invalid) { b.allocated
      (.funDecl interned [] .invalid) .function with returns } :=
        ⟨made.arena, made.attrs, made.interner⟩
    exact allocates.declares rfl ⟨rfl, rfl, rfl⟩ rfl (.none rfl rfl) ended
  refine ⟨fun b ended => ?_, fun b context inv _ ended => ?_⟩
  all_goals
    have bodyEnded := none_of_emit ended
    have entered := (made ⟨0⟩ []).sticky _ bodyEnded
    obtain ⟨before, declares⟩ := declared b _ (parameters_sticky parameters _ entered)
  · exact before
  · obtain ⟨context₁, enters⟩ := declares.enters inv
    obtain ⟨context₂, new, inv₂, step₂, kinds⟩ := parameters_made parameters enters.inv entered
    obtain ⟨context₃, inv₃, step₃, block⟩ :=
      (made _ _).makes _ context₂ inv₂ trivial bodyEnded
    obtain ⟨inv₄, step₄, function⟩ := enters.left (step₂.trans step₃).toAdds
      (step₂.trans step₃).emits inv₃ (by simp)
      (kinds.imp fun m name parameter => step₃.fixed _ _ parameter) block inv.proper inv.head
    obtain ⟨-, -, step⟩ := emits_one _ _ context₃
    exact ⟨context₃, _, _, (inv₄.emit _).next, step₄.trans step, Context.later_next Γ,
      .cons [] ((function.statement rfl).grows step.grows) nofun (.nil _)⟩

end Builder

end Strand
