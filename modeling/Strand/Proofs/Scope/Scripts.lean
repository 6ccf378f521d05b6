import Strand.Builder.Script
import Strand.Proofs.Scope.Declarations

/-!
# Programs of scripts are well-scoped

A script names its nodes with labels only. A label may be used before it is set, and `Script.Labelled`
excludes that. A label may also be used where its node cannot be evaluated, after the scope has been
closed in which the node was made; `Script.InPlace` excludes that as well, and nothing else. Both follow
the labels through a script, and know of each whether the scope of its node is still open.

A script that is built without a problem makes a well-scoped program, whose root counts on the constants
of the host alone, and in which names are declared once.
-/

set_option autoImplicit false

namespace Strand

open Context (Later)

/-! ## 1. Scripts that use their nodes in place -/

/-- The labels after an expression that may be used: if nodes are to be used in place, the scope where
it was made has to be open. -/
def Rules.used (rules : Rules) : Option Nat × Marks → Option Marks
  | (some _, marks) => some marks
  | (none, marks) => if rules.inPlace then none else some marks

mutual

/-- How many scopes were open where the node of an expression was made, and the labels afterwards;
nothing if a node may not be used. -/
def Expr.scan (rules : Rules) (depth : Nat) (marks : Marks) : Expr → Option (Option Nat × Marks)
  | .int _ | .float _ | .string _ | .boolean _ | .null | .reference _ | .constructor _ =>
    some (some depth, marks)
  | .paren inner | .field inner _ | .not inner => do
    let marks ← rules.used (← inner.scan rules depth marks)
    return (some depth, marks)
  | .array elements | .call _ elements => do
    let marks ← scanAll rules depth marks elements
    return (some depth, marks)
  | .index left right | .binary _ left right | .assign left right => do
    let marks ← rules.used (← left.scan rules depth marks)
    let marks ← rules.used (← right.scan rules depth marks)
    return (some depth, marks)
  | .callWith callee arguments => do
    let marks ← rules.used (← callee.scan rules depth marks)
    let marks ← scanAll rules depth marks arguments
    return (some depth, marks)
  | .label key inner => do
    let (level, marks) ← inner.scan rules depth marks
    return (level, (key, level) :: marks)
  | .labelled key => (marks.lookup key).map (·, marks)
  | .located _ inner => inner.scan rules depth marks

/-- The labels after expressions that are all used where they are built. -/
def Expr.scanAll (rules : Rules) (depth : Nat) (marks : Marks) : List Expr → Option Marks
  | [] => some marks
  | expr :: rest => do
    let marks ← rules.used (← expr.scan rules depth marks)
    scanAll rules depth marks rest

end

mutual

/-- The labels after a statement; nothing if it uses a node that may not be used, or if it takes a
reserved name for the host. -/
def Stmt.scan (rules : Rules) (depth : Nat) (marks : Marks) : Stmt → Option Marks
  | .expression inner | .set _ inner | .var _ _ inner | .ret (some inner) => do
    rules.used (← inner.scan rules depth marks)
  | .unused inner => (inner.scan rules depth marks).map Prod.snd
  | .launch _ arguments | .launchVar _ _ _ arguments => Expr.scanAll rules depth marks arguments
  | .ret none | .struct .. => some marks
  | .builtin name _ => if name ∈ rules.reserved then none else some marks
  | .block body | .protect body => (scanAll rules (depth + 1) marks body).map (·.close depth)
  | .ifThen condition body | .whileLoop condition body => do
    let marks ← rules.used (← condition.scan rules depth marks)
    (scanAll rules (depth + 1) marks body).map (·.close depth)
  | .ifElse condition thenBranch elseBranch => do
    let marks ← rules.used (← condition.scan rules depth marks)
    let marks ← (scanAll rules (depth + 1) marks thenBranch).map (·.close depth)
    (scanAll rules (depth + 1) marks elseBranch).map (·.close depth)
  | .function _ _ _ body => (scanAll rules (depth + 2) marks body).map (·.close depth)
  | .located _ inner => inner.scan rules depth marks

/-- The labels after statements. -/
def Stmt.scanAll (rules : Rules) (depth : Nat) (marks : Marks) : List Stmt → Option Marks
  | [] => some marks
  | stmt :: rest => do
    let marks ← stmt.scan rules depth marks
    scanAll rules depth marks rest

end

/-- The rules are kept to, and every label has been set where it is used. -/
def Script.Keeps (script : Script) (rules : Rules) : Prop :=
  (Stmt.scanAll rules 1 [] script).isSome

instance (script : Script) (rules : Rules) : Decidable (script.Keeps rules) :=
  inferInstanceAs (Decidable ((Stmt.scanAll rules 1 [] script).isSome = true))

/-- Every node is used in the scope where it was made, or further in. -/
def Script.InPlace (script : Script) : Prop := script.Keeps ⟨true, []⟩

/-- Every label has been set where it is used. -/
def Script.Labelled (script : Script) : Prop := script.Keeps ⟨false, []⟩

/-- Besides, no builtin is declared with one of these names. -/
def Script.Reserves (script : Script) (names : List String) : Prop := script.Keeps ⟨false, names⟩

instance (script : Script) : Decidable script.InPlace :=
  inferInstanceAs (Decidable (script.Keeps ⟨true, []⟩))

instance (script : Script) : Decidable script.Labelled :=
  inferInstanceAs (Decidable (script.Keeps ⟨false, []⟩))

instance (script : Script) (names : List String) : Decidable (script.Reserves names) :=
  inferInstanceAs (Decidable (script.Keeps ⟨false, names⟩))

/-! ## 2. What the steps make -/

namespace Builder

variable {Γ : Context} {levels : Levels} {rules : Rules} {marks : Marks}

theorem Makes.used {op : BuildM NodeId} {found : Option Nat × Marks}
    (h : Makes Γ levels ⟨rules, found.2⟩ op (fun _ => True) fun n G => G.Known Γ found.1 n)
    (used : rules.used found = some marks) :
    Makes Γ levels ⟨rules, marks⟩ op (fun _ => True) fun n G => G.Operand Γ n := by
  obtain ⟨_ | level, after⟩ := found
  · simp only [Rules.used] at used
    split at used
    · cases used
    · next anywhere =>
      cases used
      refine ⟨h.sticky, fun b context inv holds ended => ?_⟩
      obtain ⟨context', inv', step, known⟩ := h.makes b context inv holds ended
      refine ⟨context', inv', step, known.kind, fun inPlace => ?_⟩
      exact absurd (inv'.inPlace.symm.trans inPlace) anywhere
  · cases used
    exact h.mono (fun _ h => h) fun n G known => known.operand

end Builder

open Builder

mutual

theorem Expr.makes {Γ : Context} {rules : Rules} {marks : Marks} {found : Option Nat × Marks}
    (e : Expr) (scanned : e.scan rules Γ.scopes.length marks = some found) :
    Makes Γ ⟨rules, marks⟩ ⟨rules, found.2⟩ e.build (fun _ => True)
      fun n G => G.Known Γ found.1 n := by
  cases e with
  | int value =>
    cases scanned
    exact makes_leaf (.intLiteral value) _ rfl rfl rfl rfl fun _ _ => trivial
  | float value =>
    cases scanned
    exact makes_leaf (.floatLiteral value) _ rfl rfl rfl rfl fun _ _ => trivial
  | string value =>
    cases scanned
    exact makes_leaf (.stringLiteral value) _ rfl rfl rfl rfl fun _ _ => trivial
  | boolean value | null | reference name =>
    cases scanned
    exact makes_reference _
  | constructor name =>
    cases scanned
    exact makes_constructor name
  | paren inner =>
    simp only [scan, Option.bind_eq_bind, Option.bind_eq_some_iff, Option.pure_def] at scanned
    obtain ⟨one, scanned, two, used, ⟨⟩⟩ := scanned
    exact ((Expr.makes inner scanned).used used).bind makes_paren
  | field inner name =>
    simp only [scan, Option.bind_eq_bind, Option.bind_eq_some_iff, Option.pure_def] at scanned
    obtain ⟨one, scanned, two, used, ⟨⟩⟩ := scanned
    exact ((Expr.makes inner scanned).used used).bind fun n => makes_field n name
  | not inner =>
    simp only [scan, Option.bind_eq_bind, Option.bind_eq_some_iff, Option.pure_def] at scanned
    obtain ⟨one, scanned, two, used, ⟨⟩⟩ := scanned
    exact ((Expr.makes inner scanned).used used).bind makes_not
  | array elements =>
    simp only [scan, Option.bind_eq_bind, Option.bind_eq_some_iff, Option.pure_def] at scanned
    obtain ⟨one, scanned, ⟨⟩⟩ := scanned
    exact (Expr.makesAll elements scanned).bind makes_array
  | call callee arguments =>
    simp only [scan, Option.bind_eq_bind, Option.bind_eq_some_iff, Option.pure_def] at scanned
    obtain ⟨one, scanned, ⟨⟩⟩ := scanned
    exact (Expr.makesAll arguments scanned).bind (makes_call callee)
  | index left right =>
    simp only [scan, Option.bind_eq_bind, Option.bind_eq_some_iff, Option.pure_def] at scanned
    obtain ⟨one, scanned, two, used, three, scanned', four, used', ⟨⟩⟩ := scanned
    exact ((Expr.makes left scanned).used used).bind fun l =>
      ((Expr.makes right scanned').used used').before (fun _ _ grows h => h.grows grows) (makes_index l)
  | binary op left right =>
    simp only [scan, Option.bind_eq_bind, Option.bind_eq_some_iff, Option.pure_def] at scanned
    obtain ⟨one, scanned, two, used, three, scanned', four, used', ⟨⟩⟩ := scanned
    exact ((Expr.makes left scanned).used used).bind fun l =>
      ((Expr.makes right scanned').used used').before (fun _ _ grows h => h.grows grows) (makes_binary op l)
  | assign target value =>
    simp only [scan, Option.bind_eq_bind, Option.bind_eq_some_iff, Option.pure_def] at scanned
    obtain ⟨one, scanned, two, used, three, scanned', four, used', ⟨⟩⟩ := scanned
    exact ((Expr.makes target scanned).used used).bind fun l =>
      ((Expr.makes value scanned').used used').before (fun _ _ grows h => h.grows grows) (makes_assign l)
  | callWith callee arguments =>
    simp only [scan, Option.bind_eq_bind, Option.bind_eq_some_iff, Option.pure_def] at scanned
    obtain ⟨one, scanned, two, used, three, scanned', ⟨⟩⟩ := scanned
    exact ((Expr.makes callee scanned).used used).bind fun l =>
      (Expr.makesAll arguments scanned').before (fun _ _ grows h => h.grows grows) (makes_callWith l)
  | label key inner =>
    simp only [scan, Option.bind_eq_bind, Option.bind_eq_some_iff, Option.pure_def] at scanned
    obtain ⟨⟨level, after⟩, scanned, ⟨⟩⟩ := scanned
    exact (Expr.makes inner scanned).bind fun n =>
      (makes_label key n level).bind fun _ => makes_pure n fun _ h => h
  | labelled key =>
    obtain ⟨level, known, rfl⟩ := Option.map_eq_some_iff.mp scanned
    exact makes_labelled known
  | located span inner => exact (Expr.makes inner scanned).located span

theorem Expr.makesAll {Γ : Context} {rules : Rules} {marks marks' : Marks} (es : List Expr)
    (scanned : Expr.scanAll rules Γ.scopes.length marks es = some marks') :
    Makes Γ ⟨rules, marks⟩ ⟨rules, marks'⟩ (Expr.buildAll es) (fun _ => True)
      fun ns G => ∀ n ∈ ns, G.Operand Γ n := by
  cases es with
  | nil =>
    cases scanned
    exact makes_pure [] fun _ _ => nofun
  | cons e rest =>
    simp only [scanAll, Option.bind_eq_bind, Option.bind_eq_some_iff] at scanned
    obtain ⟨one, scanned, two, used, scanned'⟩ := scanned
    exact ((Expr.makes e scanned).used used).bind fun n =>
      (Expr.makesAll rest scanned').before (fun _ _ grows h => h.grows grows) fun ns =>
        makes_pure (n :: ns) fun _ h => List.forall_mem_cons.mpr h

end

theorem TypeExpr.makes {Γ : Context} {levels : Levels} (ty : TypeExpr) :
    Makes Γ levels levels ty.build (fun _ => True) fun _ _ => True := by
  induction ty with
  | plain ty => exact makes_pure ty fun _ h => h
  | array element ih => exact ih.bind fun _ => makes_pure _ fun _ h => h
  | struct name => exact (makes_intern name).bind fun _ => makes_pure _ fun _ h => h

theorem makes_buildTypes {Γ : Context} {levels : Levels} (typed : List (String × TypeExpr)) :
    Makes Γ levels levels (buildTypes typed) (fun _ => True) fun _ _ => True := by
  refine makes_mapM (fun field => ?_) typed
  exact field.2.makes.bind fun _ => makes_pure _ fun _ h => h

theorem Builder.Builds.located {Γ : Context} {levels levels' : Levels} {op : BuildM Unit}
    {pre : Scoping → Prop} (h : Builds Γ levels levels' op pre) (span : Span) :
    Builds Γ levels levels' (located span op) pre := by
  refine ⟨fun b ended => h.sticky { b with span } ended, fun b context inv holds ended => ?_⟩
  obtain ⟨context₁, inv₁, step₁, holds₁⟩ :=
    (makes_setSpan span).makes b context inv holds (h.sticky _ ended)
  obtain ⟨context₂, Δ, new, inv₂, step₂, later, sequence⟩ := h.builds _ context₁ inv₁ holds₁ ended
  have back : Makes Δ levels' levels' (setSpan b.span) (·.Sequence Γ new Δ)
    fun _ G => G.Sequence Γ new Δ := makes_setSpan b.span
  obtain ⟨context₃, inv₃, step₃, sequence₃⟩ := back.makes _ context₂ inv₂ sequence ended
  have step := step₁.trans (step₂.trans step₃)
  rw [List.nil_append, List.append_nil] at step
  exact ⟨context₃, Δ, new, inv₃, step, later, sequence₃⟩

mutual

theorem Stmt.builds {Γ : Context} {rules : Rules} {marks marks' : Marks} (stmt : Stmt)
    (scanned : stmt.scan rules Γ.scopes.length marks = some marks') :
    Builds Γ ⟨rules, marks⟩ ⟨rules, marks'⟩ stmt.build fun _ => True := by
  cases stmt with
  | expression inner =>
    simp only [scan, Option.bind_eq_bind, Option.bind_eq_some_iff] at scanned
    obtain ⟨one, scanned, used⟩ := scanned
    exact ((inner.makes scanned).used used).builds fun n => (builds_expression n).discard
  | set name value =>
    simp only [scan, Option.bind_eq_bind, Option.bind_eq_some_iff] at scanned
    obtain ⟨one, scanned, used⟩ := scanned
    exact ((value.makes scanned).used used).builds fun n => (builds_set name n).discard
  | unused inner =>
    obtain ⟨one, inside, rfl⟩ := Option.map_eq_some_iff.mp scanned
    exact (inner.makes inside).discard
  | var name ty initializer =>
    simp only [scan, Option.bind_eq_bind, Option.bind_eq_some_iff] at scanned
    obtain ⟨one, scanned, used⟩ := scanned
    exact ((initializer.makes scanned).used used).builds fun n =>
      ty.makes.then (fun _ _ grows h => h.grows grows) fun ty =>
        ((builds_var name ty n).mono fun _ h => h.1).discard
  | launch callee arguments =>
    exact (Expr.makesAll arguments scanned).builds fun ns => (builds_launch callee ns).discard
  | launchVar name ty callee arguments =>
    exact (Expr.makesAll arguments scanned).builds fun ns =>
      ty.makes.then (fun _ _ grows h n uses => (h n uses).grows grows) fun ty =>
        ((builds_launchVar name ty callee ns).mono fun _ h => h.1).discard
  | ret value =>
    cases value with
    | none =>
      cases scanned
      exact ((builds_ret none).mono fun _ _ => nofun).discard
    | some value =>
      simp only [scan, Option.bind_eq_bind, Option.bind_eq_some_iff] at scanned
      obtain ⟨one, scanned, used⟩ := scanned
      exact ((value.makes scanned).used used).builds fun n =>
        ((builds_ret (some n)).mono fun _ h _ same => Option.some.inj same ▸ h).discard
  | block body =>
    obtain ⟨after, inside, rfl⟩ := Option.map_eq_some_iff.mp scanned
    exact (builds_block fun Δ length => Stmt.buildsAll body (length ▸ inside)).discard
  | protect body =>
    obtain ⟨after, inside, rfl⟩ := Option.map_eq_some_iff.mp scanned
    exact (builds_protect fun Δ length => Stmt.buildsAll body (length ▸ inside)).discard
  | ifThen condition body =>
    simp only [scan, Option.bind_eq_bind, Option.bind_eq_some_iff, Option.map_eq_some_iff] at scanned
    obtain ⟨one, scanned, two, used, inner, scanned', rfl⟩ := scanned
    exact ((condition.makes scanned).used used).builds fun n =>
      (builds_ifThen n fun Δ length => Stmt.buildsAll body (length ▸ scanned')).discard
  | whileLoop condition body =>
    simp only [scan, Option.bind_eq_bind, Option.bind_eq_some_iff, Option.map_eq_some_iff] at scanned
    obtain ⟨one, scanned, two, used, inner, scanned', rfl⟩ := scanned
    exact ((condition.makes scanned).used used).builds fun n =>
      (builds_whileLoop n fun Δ length => Stmt.buildsAll body (length ▸ scanned')).discard
  | ifElse condition thenBranch elseBranch =>
    simp only [scan, Option.bind_eq_bind, Option.bind_eq_some_iff, Option.map_eq_some_iff] at scanned
    obtain ⟨one, scanned, two, used, _, ⟨inner, scanned', rfl⟩, other, scanned'', rfl⟩ := scanned
    exact ((condition.makes scanned).used used).builds fun n =>
      (builds_ifElse n (fun Δ length => Stmt.buildsAll thenBranch (length ▸ scanned'))
        fun Δ length => Stmt.buildsAll elseBranch (length ▸ scanned'')).discard
  | function name parameters returns body =>
    obtain ⟨after, inside, rfl⟩ := Option.map_eq_some_iff.mp scanned
    exact (makes_buildTypes parameters).builds fun parameters => returns.makes.builds fun returns =>
      (builds_function name parameters returns fun Δ length =>
        Stmt.buildsAll body (length ▸ inside)).discard
  | struct name fields =>
    cases scanned
    exact (makes_buildTypes fields).builds fun fields => (builds_struct name fields).discard
  | builtin name returns =>
    simp only [scan] at scanned
    split at scanned
    · cases scanned
    · next free =>
      cases scanned
      exact returns.makes.builds fun returns =>
        (builds_builtin name returns free).mono fun _ _ => trivial
  | located span inner => exact (Stmt.builds inner scanned).located span

theorem Stmt.buildsAll {Γ : Context} {rules : Rules} {marks marks' : Marks} (stmts : List Stmt)
    (scanned : Stmt.scanAll rules Γ.scopes.length marks stmts = some marks') :
    Builds Γ ⟨rules, marks⟩ ⟨rules, marks'⟩ (Stmt.buildAll stmts) fun _ => True := by
  cases stmts with
  | nil =>
    cases scanned
    exact builds_pure ()
  | cons stmt rest =>
    simp only [scanAll, Option.bind_eq_bind, Option.bind_eq_some_iff] at scanned
    obtain ⟨one, scanned, scanned'⟩ := scanned
    exact (Stmt.builds stmt scanned).bind fun _ Δ later =>
      Stmt.buildsAll rest (later.scopes ▸ scanned')

end

/-! ## 3. Before the first statement -/

namespace Builder

/-- An operation after which holds what held before. -/
def Keeps {α : Type} (holds : Builder → Prop) (op : BuildM α) : Prop :=
  ∀ b, holds b → holds (op.run b).2

section
variable {α β : Type} {holds : Builder → Prop}

theorem keeps_pure (a : α) : Keeps holds (pure a) := fun _ h => h

theorem Keeps.bind {op : BuildM α} {next : α → BuildM β} (first : Keeps holds op)
    (second : ∀ a, Keeps holds (next a)) : Keeps holds (op >>= next) :=
  fun b h => second _ _ (first b h)

theorem Keeps.forIn {f : α → PUnit → BuildM (ForInStep PUnit)}
    (each : ∀ a u, Keeps holds (f a u)) (as : List α) (u : PUnit) : Keeps holds (forIn as u f) := by
  induction as generalizing u with
  | nil => exact keeps_pure u
  | cons a rest ih =>
    rw [List.forIn_cons]
    refine (each a u).bind fun step => ?_
    cases step with
    | done u => exact keeps_pure u
    | yield u => exact ih u

/-- What holds of a blank builder and is kept by declarations of the host holds of a new builder. -/
theorem keeps_prelude (host : ∀ text kind ty, Keeps holds (host text kind ty))
    (returns : ∀ (b : Builder) r, holds b → holds { b with returns := r }) : Keeps holds prelude := by
  have builtin : ∀ text ty, Keeps holds (builtin text ty) := fun text ty b before =>
    returns _ _ (host text .function .function b before)
  have values : ∀ (a : String × Ty) (u : PUnit), Keeps holds (do
      let _ ← Builder.host a.1 .value a.2
      pure (ForInStep.yield u)) := fun a u => (host _ _ _).bind fun _ => keeps_pure _
  have types : ∀ (a : String) (u : PUnit), Keeps holds (do
      let _ ← Builder.host a .type .type
      pure (ForInStep.yield u)) := fun a u => (host _ _ _).bind fun _ => keeps_pure _
  refine (Keeps.forIn values _ _).bind fun _ => ?_
  refine (builtin "print" .string).bind fun _ => (builtin "wait" .void).bind fun _ => ?_
  exact (Keeps.forIn types _ _).bind fun _ => keeps_pure _
end

/-- A builder that has made nothing yet; its globals are the host's. -/
structure Untouched (b : Builder) : Prop where
  attrs : b.attrs = blank.attrs
  arena : b.arena = .empty
  inner : b.inner = []
  blocks : b.blocks = []
  statements : b.statements = []
  labels : b.labels = []
  root : b.globals.id = b.attrs.rootScope
  interner : b.interner.WellFormed
  entries : ∀ x ∈ b.globals.names, ∃ kind, x.2 = .host ⟨x.1, kind⟩

theorem untouched_new : Untouched new := by
  refine keeps_prelude (fun text kind ty b h => ?_) (fun b r h => ?_) blank ?_
  · obtain ⟨attrs, arena, inner, blocks, statements, labels, root, interner, entries⟩ := h
    refine ⟨attrs, arena, inner, blocks, statements, labels, root, interner.intern text, ?_⟩
    intro x here
    rcases List.mem_cons.mp here with rfl | before
    · exact ⟨kind, rfl⟩
    · exact entries x before
  · exact ⟨h.attrs, h.arena, h.inner, h.blocks, h.statements, h.labels, h.root, h.interner, h.entries⟩
  · exact ⟨rfl, rfl, rfl, rfl, rfl, rfl, rfl, Interner.wellFormed_new, nofun⟩

end Builder

/-- The constants of the host that a program may mention, by name. -/
def constantNames : List Name := ["true", "false", "null"].filterMap Builder.new.interner.find?

/-- Whether a declaration is the host's, and one of these names if it is a constant. -/
def Decl.isHosts (names : List Name) (name : Name) : Decl → Bool
  | .host ⟨_, .value⟩ => names.contains name
  | .host _ => true
  | .node _ => false

/-- Where a program begins: in the root scope, where the constants of the host are. -/
def Context.base : Context := (⟨[], [], 0⟩ : Context).push Builder.new.globals.id constantNames

namespace Builder

namespace Untouched

variable {b : Builder}

theorem scope? (h : Untouched b) (n : NodeId) : b.attrs.scope? n = none := by
  rw [h.attrs]
  rfl

theorem tidy (h : Untouched b) (prelude : preludeNames = b.globals.names.map Prod.fst)
    (reserved : List String) : b.Tidy reserved := by
  have none : ∀ n scope name, ¬ (b.naming reserved).Declared n scope name :=
    fun n scope name declared => nomatch (h.scope? n).symm.trans declared.scope
  have globals : b.inner ++ [b.globals] = [b.globals] := by
    rw [h.inner]
    rfl
  refine ⟨⟨fun m n s name first => absurd first (none m s name), fun n s name d refers => ?_,
    fun n name declared => absurd declared (none n _ name), h.interner⟩, fun n _ => h.scope? n,
    fun n s here => ?_, fun n s name declared => absurd declared (none n s name),
    fun sc member x here => ?_, fun name known => ?_⟩
  · cases (h.scope? n).symm.trans refers.scope
  · cases (h.scope? n).symm.trans here
  · rw [globals] at member
    cases List.mem_singleton.mp member
    obtain ⟨kind, same⟩ := h.entries x here
    rw [same]
    exact ⟨rfl, rfl, .inl (prelude ▸ List.mem_map_of_mem here)⟩
  · rw [prelude] at known
    obtain ⟨x, here, rfl⟩ := List.mem_map.mp known
    cases found : b.globals.names.lookup x.1 with
    | none =>
      have differ := List.lookup_eq_none_iff.mp found x here
      exact absurd differ (by simp)
    | some decl =>
      rw [OpenScope.find?, found]
      rfl

/-- A program may begin with the constants of the host. -/
theorem inv (h : Untouched b) (prelude : preludeNames = b.globals.names.map Prod.fst)
    (count : b.globals.id.index < b.attrs.scopeCount) {names : List Name}
    (constants : ∀ x ∈ b.globals.names, x.2.isHosts names x.1 = true) (context : Contexts)
    (reserved : List String) : b.Inv context ((⟨[], [], 0⟩ : Context).push b.globals.id names)
      ⟨⟨context.inPlace, reserved⟩, []⟩ := by
  have wf : Context.WellFormed ⟨[], [], 0⟩ := fun _ member => absurd member List.not_mem_nil
  have proper : (b.scoping context).Proper ((⟨[], [], 0⟩ : Context).push b.globals.id names) :=
    ⟨wf.push _ _, .singleton _, congrArg some h.root, List.nodup_cons.mpr ⟨nofun, .nil⟩⟩
  refine ⟨?_, h.root, fun s member => ?_, proper, fun scope member x here => ?_, ?_, rfl,
    h.tidy prelude reserved, ?_⟩
  · rw [h.inner]
    rfl
  · cases List.mem_singleton.mp member
    exact count
  · rw [h.inner] at member
    cases List.mem_singleton.mp member
    have known := constants x here
    obtain ⟨name, n | ⟨_, _ | _ | _⟩⟩ := x
    · cases known
    · refine List.mem_append_left _ ?_
      show (b.attrs.rootScope, name) ∈ names.map (b.globals.id, ·)
      rw [← h.root]
      exact List.mem_map_of_mem (List.contains_iff_mem.mp known)
    · trivial
    · trivial
  · rw [h.labels]
    exact .nil
  · rw [h.attrs]
    rfl

end Untouched

theorem inv_new (context : Contexts) (reserved : List String) :
    Builder.new.Inv context .base ⟨⟨context.inPlace, reserved⟩, []⟩ :=
  untouched_new.inv rfl (by decide +kernel) (by decide +kernel) context reserved

end Builder

/-! ## 4. Whole programs -/

def Program.naming (p : Program) (reserved : List String) : Naming :=
  ⟨p.arena, p.attrs, p.interner, p.attrs.rootScope, reserved⟩

/-- What is known of a program that a script has made. -/
structure Program.Made (p : Program) (context : NodeId → Context) (rules : Rules) : Prop where
  nodes : Scoping.WellScoped ⟨p.arena, p.attrs, context, rules.inPlace⟩
  base : context p.root = .base
  root : ∃ statements, p.arena.kind? p.root = some (.root statements)
  rootScope : p.attrs.rootScope = Builder.new.attrs.rootScope
  outermost : p.attrs.parent? p.attrs.rootScope = none
  interner : ∀ text name, Builder.new.interner.find? text = some name →
    p.interner.find? text = some name
  names : (p.naming rules.reserved).Tidy

/-- A program runs its statements in the root scope. -/
theorem Program.Made.scopes_root {p : Program} {context : NodeId → Context} {rules : Rules}
    (made : p.Made context rules) : (context p.root).scopes = [p.attrs.rootScope] := by
  rw [made.base]
  show [Builder.new.globals.id] = [p.attrs.rootScope]
  rw [Builder.untouched_new.root, made.rootScope]

namespace Builder

/-- The root gets the statements that have been emitted since nothing had been made yet. -/
theorem Step.made {start b : Builder} {context context' : Contexts} {Γ Δ : Context}
    {rules : Rules} {marks marks' : Marks} {new : List NodeId} {p : Program}
    (step : start.Step context new b context') (untouched : Untouched start)
    (before : start.Inv context Γ ⟨rules, marks⟩) (inv : b.Inv context' Δ ⟨rules, marks'⟩)
    (sequence : (b.scoping context').Sequence Γ new Δ) (built : b.finish = .ok p) :
    ∃ context : NodeId → Context,
      Scoping.WellScoped ⟨p.arena, p.attrs, context, rules.inPlace⟩ ∧ context p.root = Γ ∧
      (∃ statements, p.arena.kind? p.root = some (.root statements)) ∧
      p.attrs.rootScope = start.attrs.rootScope ∧ p.attrs.parent? p.attrs.rootScope = none ∧
      (∀ text name, start.interner.find? text = some name → p.interner.find? text = some name) ∧
      (p.naming rules.reserved).Tidy := by
  have emitted : b.statements.reverse = new := by
    have emits := step.emits
    rw [Emits, untouched.blocks] at emits
    rw [emits.2, untouched.statements, List.append_nil, List.reverse_reverse]
  rw [finish, emitted] at built
  split at built
  · cases built
  cases built
  let b' : Builder := { b with
    arena := (b.arena.alloc (.root new) b.span).2
    attrs := b.attrs.setScope ⟨b.arena.size⟩ b.globals.id }
  have allocates : b.Allocates (.root new) b' :=
    ⟨rfl, (Attributes.Only.refl ..).setScope _, fun _ _ => id⟩
  obtain ⟨context'', extended, found, own⟩ := allocates.extends context' Γ
  have sequence := sequence.grows extended.grows
  rw [← own] at sequence
  have adds := step.toAdds.trans (allocates.adds extended (.of_context own
    (.of_operands rfl rfl nofun) (before.proper.grows (step.grows.trans extended.grows))
    ⟨Δ, sequence⟩))
  have here : b'.attrs.scope? ⟨b.arena.size⟩ = some b.globals.id :=
    (Attributes.scope?_setScope ..).trans (if_pos rfl)
  have tidy := inv.tidy.allocates allocates (.inl rfl) rfl inv.tidy.interner (.inl rfl)
    (fun scope same => by
      cases here.symm.trans same
      rw [inv.root]
      exact inv.rootScope_lt)
    fun name scope decl refers => by cases found.symm.trans refers.kind
  have names := tidy.toTidy
  rw [naming, show b'.globals.id = b'.attrs.rootScope from inv.root] at names
  have fresh : ∀ n, start.arena.kind? n = none := fun n => by
    rw [untouched.arena]
    rfl
  have inPlace : context''.inPlace = rules.inPlace := extended.grows.inPlace.trans inv.inPlace
  exact ⟨context'', inPlace ▸ fun n kind found => adds.fine n kind found (fresh n), own,
    ⟨new, found⟩, adds.grows.root, extended.outermost inv, adds.interner, names⟩

end Builder

theorem Script.program_eq_ok (script : Script) (built : script.program.toOption.isSome = true) :
    script.program = .ok (script.program.toOption.getD default) := by
  cases result : script.program with
  | ok p => rfl
  | error e =>
    rw [result] at built
    cases built

/-- A script that keeps to the rules and is built without a problem makes a well-scoped program. -/
theorem Script.Keeps.made {script : Script} {rules : Rules} {p : Program} (keeps : script.Keeps rules)
    (built : script.program = .ok p) : ∃ context, p.Made context rules := by
  obtain ⟨marks, scanned⟩ := Option.isSome_iff_exists.mp keeps
  have builds : Builds .base ⟨rules, []⟩ ⟨rules, marks⟩ (Stmt.buildAll script) fun _ => True :=
    Stmt.buildsAll script scanned
  have ended : script.builder.error = none := by
    simp only [program, Builder.finish] at built
    split at built
    · cases built
    · next ended => exact ended
  have start := inv_new ⟨fun _ => .base, rules.inPlace⟩ rules.reserved
  obtain ⟨context', Δ, new, inv, step, later, sequence⟩ :=
    builds.builds Builder.new ⟨fun _ => .base, rules.inPlace⟩ start trivial ended
  obtain ⟨context, nodes, base, root, rootScope, outermost, interner, names⟩ :=
    step.made untouched_new start inv sequence built
  exact ⟨context, nodes, base, root, rootScope, outermost, interner, names⟩

end Strand
