import Strand.Proofs.Calls.Agrees

/-!
# Calls do what they record

Every operation of the builder keeps the agreement with the record, and returns what the record says
(`Simulates`). The operations are built from others, and so are their records: what is proved of the parts
gives what is proved of the whole, up to all the calls of a program (`Call.simulates`).
-/

set_option autoImplicit false

namespace Strand

namespace Recording

open Builder

variable {events : List Event} {place : Position} {functions : List NodeId} {b b' : Builder}

/-! ## 1. Single events -/

theorem head?_problems_concat (events : List Event) (e : Event) :
    (problems (events ++ [e])).head? = (problems events).head?.or (e.problem? events) := by
  rw [problems_concat, List.head?_append]
  cases e.problem? events <;> rfl

/-- What neither the nodes nor their attributes notice. -/
theorem keeps_of_eq (arena : b'.arena = b.arena) (attrs : b'.attrs = b.attrs)
    (interner : ∀ text name, b.interner.find? text = some name → b'.interner.find? text = some name) :
    Keeps b b' := by
  refine ⟨?_, fun _ _ => ?_, fun _ _ => ?_, fun _ _ => ?_, fun _ _ _ => ?_, ?_, interner⟩
  · intro n kind found
    rw [arena, found]
  all_goals rw [attrs]
  · exact id
  · exact fun _ _ => id

namespace Agrees

/-- Most of what a builder remembers is not in the record. -/
theorem forget (h : Agrees events place functions b) (hostTypes : List (Host × Ty))
    (returns : List (Decl × Ty)) (structFields : List (Name × List (Name × Ty))) (span : Span)
    (labels : List (String × NodeId)) :
    Agrees events place functions { b with hostTypes, returns, structFields, span, labels } := by
  obtain ⟨scopes, names, nodes, lists, error⟩ := h
  refine ⟨⟨scopes.count, scopes.inner, scopes.globals, scopes.root, scopes.outermost, scopes.parent,
    scopes.opened, scopes.path, scopes.made, scopes.blocks⟩, ⟨names.interner, names.known,
    names.declared, names.older, names.interned⟩, ⟨nodes.size, ?_, nodes.origin, nodes.refers,
    nodes.bodies, nodes.pending, nodes.complete⟩, ⟨lists.blocks, lists.bottom, lists.closed, lists.parameters,
    lists.owned, lists.owner, lists.owners, lists.bound, lists.pending, lists.once⟩, error⟩
  intro before e happens
  exact holds_of_keeps (nodes.holds before e happens) (keeps_of_eq rfl rfl fun _ _ => id)

theorem intern (h : Agrees events place functions b) (text : String) :
    Agrees events place functions { b with interner := (b.interner.intern text).2 } := by
  obtain ⟨scopes, names, nodes, lists, error⟩ := h
  refine ⟨⟨scopes.count, scopes.inner, scopes.globals, scopes.root, scopes.outermost, scopes.parent,
    scopes.opened, scopes.path, scopes.made, scopes.blocks⟩, names.intern text, ⟨nodes.size, ?_,
    nodes.origin, nodes.refers, nodes.bodies, nodes.pending, nodes.complete⟩, ⟨lists.blocks, lists.bottom,
    lists.closed, lists.parameters, lists.owned, lists.owner, lists.owners, lists.bound,
    lists.pending, lists.once⟩, error⟩
  intro before e happens
  exact holds_of_keeps (nodes.holds before e happens)
    (keeps_of_eq rfl rfl fun _ _ => Interner.find?_intern text)

/-- An event that changes nothing, except that it may be a problem. -/
theorem mark (h : Agrees events place functions b) (e : Event) (makes : e.made? = none)
    (completes : e.completed? = none) (unscoped : e.isScope = false) (quiet : e.isListed = false)
    (silent : ∀ s text, e.meaning? s text = none) (holds : ∀ b, e.Holds events b) :
    Agrees (events ++ [e]) place functions { b with error := b.error.or (e.problem? events) } := by
  refine ⟨h.scopes.same e unscoped rfl rfl rfl rfl, h.names.same e silent rfl rfl rfl,
    h.nodes.add e makes completes rfl (fun _ => rfl) (fun _ _ => .inl) (keeps_of_eq rfl rfl fun _ _ => id) (holds _),
    h.lists.same e quiet unscoped rfl rfl fun n => .inl, ?_⟩
  rw [head?_problems_concat, ← h.error]

/-- An event that changes nothing. -/
theorem notice (h : Agrees events place functions b) (e : Event) (makes : e.made? = none)
    (completes : e.completed? = none) (unscoped : e.isScope = false) (quiet : e.isListed = false)
    (silent : ∀ s text, e.meaning? s text = none) (holds : ∀ b, e.Holds events b)
    (fine : ∀ before, e.problem? before = none) : Agrees (events ++ [e]) place functions b := by
  have marked := h.mark e makes completes unscoped quiet silent holds
  rw [fine, Option.or_none] at marked
  exact marked

/-- A new node that declares no name. -/
theorem make {kind : NodeKind} (h : Agrees events place functions b) (made : Makes b kind b')
    (e : Event) (is : e.made? = some ⟨b.arena.size⟩) (holds : e.Holds events b')
    (completes : ∃ children, e.completed? = some (⟨b.arena.size⟩, children))
    (silent : ∀ s text, e.meaning? s text = none) (quiet : e.isListed = false)
    (inner : b'.inner = b.inner) (globals : b'.globals = b.globals) (blocks : b'.blocks = b.blocks)
    (statements : b'.statements = b.statements) (error : b'.error = b.error.or (e.problem? events)) :
    Agrees (events ++ [e]) place functions b' := by
  have unscoped : e.isScope = false := by
    cases e <;> first | rfl | cases is
  refine ⟨h.scopes.same e unscoped made.attrs.parents made.attrs.root (congrArg _ inner)
    (congrArg _ globals), h.names.same e silent made.interner inner globals,
    h.nodes.make made e is holds (.inl ⟨completes, rfl⟩),
    h.lists.same e quiet unscoped blocks statements fun n => .inl, ?_⟩
  rw [error, head?_problems_concat, h.error]

/-- A name means a node that declares it, in the scope where it was found. -/
theorem declared (h : Agrees events place functions b) {before : List Event} (earlier : before ⊆ events)
    {text : String} {meaning : Meaning} {s : ScopeId} {name : Name} {d : NodeId}
    (found : latest before s text = some meaning) (isNode : meaning.decl name = .node d) :
    (∃ kind, b.arena.kind? d = some kind ∧ kind.isStructDecl = meaning.isStruct ∧ kind.binds?.isSome) ∧
      b.attrs.scope? d = some s ∧ (b.attrs.type? d).isSome := by
  obtain ⟨e, member, means⟩ := mem_of_latest found
  obtain ⟨before, happens⟩ := exists_happens (earlier member)
  have holds := h.nodes.holds before e happens
  cases e with
  | declaration n s' text' isStruct children =>
    simp only [Event.meaning?] at means
    split at means
    · next both =>
      obtain ⟨rfl, rfl⟩ := both
      obtain ⟨_, kind, there, _, _, binds, struct, _, scope, type⟩ := holds
      have bound : kind.binds?.isSome := by rw [binds, Option.isSome_some]
      cases isStruct <;> cases means <;> cases isNode
      · exact ⟨⟨kind, there, struct, bound⟩, scope, type⟩
      · exact ⟨⟨kind, there, struct, bound⟩, scope, type⟩
    · cases means
  | function n s' text' =>
    simp only [Event.meaning?] at means
    split at means
    · next both =>
      obtain ⟨rfl, rfl⟩ := both
      cases means
      cases isNode
      obtain ⟨_, _, _, there, _, scope, type⟩ := holds
      exact ⟨⟨_, there, rfl, rfl⟩, scope, type⟩
    · cases means
  | host text' kind =>
    simp only [Event.meaning?] at means
    split at means
    · cases means
      cases isNode
    · cases means
  | _ => cases means

end Agrees

theorem latest_of_resolve {path : List ScopeId} {text : String} {meaning : Meaning} {s : ScopeId}
    (found : resolve events path text = some (meaning, s)) :
    s ∈ path ∧ latest events s text = some meaning := by
  obtain ⟨s', member, same⟩ := List.exists_of_findSome?_eq_some found
  obtain ⟨meaning', known, same⟩ := Option.map_eq_some_iff.mp same
  cases same
  exact ⟨member, known⟩

/-! ## 2. Operations -/

/-- An operation of the builder does what a recording says, and returns the same. No event is taken back,
and no name is forgotten. -/
structure Simulates (place : Position) (functions : List NodeId) {α : Type} (op : BuildM α)
    (spec : Recording α) : Prop where
  result : ∀ {events b}, Agrees events place functions b → (op.run b).1 = (spec.run events).1
  agrees : ∀ {events b}, Agrees events place functions b →
    Agrees (spec.run events).2 place functions (op.run b).2
  grows : ∀ {events b}, Agrees events place functions b → events <+: (spec.run events).2
  knows : ∀ b {text name}, b.interner.find? text = some name →
    (op.run b).2.interner.find? text = some name

/-- A node that can go to a block: it has its children, and it has gone to no block before. -/
structure Emittable (events : List Event) (functions : List NodeId) (n : NodeId) : Prop where
  made : n.index < nodesIn events
  complete : n ∉ functions
  new : ∀ s, .statement s n ∉ events

/-- An operation that returns a node that can go to a block. -/
structure Yields (place : Position) (functions : List NodeId) (op : BuildM NodeId)
    (spec : Recording NodeId) : Prop extends Simulates place functions op spec where
  emittable : ∀ {events b}, Agrees events place functions b →
    Emittable (spec.run events).2 functions (spec.run events).1

section

variable {α β : Type} {op : BuildM α} {spec : Recording α} {next : α → BuildM β}
  {next' : α → Recording β}

theorem simulates_pure (a : α) : Simulates place functions (pure a) (pure a) :=
  ⟨fun _ => rfl, id, fun _ => List.prefix_rfl, fun _ _ _ => id⟩

theorem Simulates.bind (first : Simulates place functions op spec)
    (second : ∀ a, Simulates place functions (next a) (next' a)) :
    Simulates place functions (op >>= next) (spec >>= next') := by
  have run' : ∀ {events b}, Agrees events place functions b → (spec >>= next').run events =
      (next' (op.run b).1).run (spec.run events).2 := by
    intro events b h
    rw [first.result h]
    rfl
  refine ⟨?_, ?_, ?_, fun b _ _ known => (second _).knows _ (first.knows b known)⟩
  · intro events b h
    rw [run' h]
    exact (second _).result (first.agrees h)
  · intro events b h
    rw [run' h]
    exact (second _).agrees (first.agrees h)
  · intro events b h
    rw [run' h]
    exact (first.grows h).trans ((second _).grows (first.agrees h))

theorem Simulates.map {f : α → β} (h : Simulates place functions op spec) :
    Simulates place functions (f <$> op) (f <$> spec) :=
  ⟨fun agrees => congrArg f (h.result agrees), h.agrees, h.grows, h.knows⟩

theorem Yields.bind {next : α → BuildM NodeId} {next' : α → Recording NodeId}
    (first : Simulates place functions op spec)
    (second : ∀ a, Yields place functions (next a) (next' a)) :
    Yields place functions (op >>= next) (spec >>= next') :=
  ⟨first.bind fun a => (second a).toSimulates, fun h => (second _).emittable (first.agrees h)⟩

/-- An operation may look at the builder first. -/
theorem Yields.looking {next : α → BuildM NodeId} {spec : Recording NodeId}
    (looks : ∀ b, (op.run b).2 = b) (h : ∀ a, Yields place functions (next a) spec) :
    Yields place functions (op >>= next) spec := by
  have run : ∀ b, (op >>= next).run b = (next (op.run b).1).run b := by
    intro b
    show (next (op.run b).1).run (op.run b).2 = _
    rw [looks]
  refine ⟨⟨?_, ?_, ?_, ?_⟩, ?_⟩
  · intro events b agrees
    rw [run]
    exact (h _).result agrees
  · intro events b agrees
    rw [run]
    exact (h _).agrees agrees
  · intro events b agrees
    exact (h (op.run b).1).grows agrees
  · intro b text name known
    rw [run]
    exact (h _).knows b known
  · intro events b agrees
    exact (h (op.run b).1).emittable agrees

/-- A text gets a name first, which the record does not know. -/
theorem Yields.interning {next : Name → BuildM NodeId} {spec : Recording NodeId} {text : String}
    (h : ∀ name, Yields place functions (next name) spec) :
    Yields place functions (Builder.intern text >>= next) spec :=
  ⟨⟨fun agrees => (h _).result (agrees.intern text), fun agrees => (h _).agrees (agrees.intern text),
    @fun _ b agrees => (h (b.interner.intern text).1).grows (agrees.intern text),
    fun _ _ _ known => (h _).knows _ (Interner.find?_intern text known)⟩,
    @fun _ b agrees => (h (b.interner.intern text).1).emittable (agrees.intern text)⟩

end

/-! ## 3. New nodes -/

/-- A new node is no function that is still being built. -/
theorem Agrees.new_notMem (h : Agrees events place functions b) : ⟨b.arena.size⟩ ∉ functions := by
  intro member
  have found := (h.nodes.pending _ member).1
  rw [Arena.kind?_size] at found
  cases found

/-- A new node has gone to no block. -/
theorem Agrees.emittable (h : Agrees events place functions b) (e : Event)
    (makes : e.made? = some ⟨b.arena.size⟩) :
    Emittable (events ++ [e]) functions ⟨b.arena.size⟩ := by
  refine ⟨?_, h.new_notMem, ?_⟩
  · rw [nodesIn_concat, makes, ← h.nodes.size]
    exact Nat.lt_succ_self _
  · intro s member
    rcases List.mem_append.mp member with before | new
    · have bound := (h.lists.bound s _ before).2
      rw [← h.nodes.size] at bound
      exact Nat.lt_irrefl _ bound
    · rw [← List.mem_singleton.mp new] at makes
      cases makes

/-- An operation that makes a node, and adds the event that says so. -/
theorem yields_make {op : BuildM NodeId} (e : NodeId → Event) (makes : ∀ n, (e n).made? = some n)
    (result : ∀ b, (op.run b).1 = ⟨b.arena.size⟩)
    (knows : ∀ b {text name}, b.interner.find? text = some name →
      (op.run b).2.interner.find? text = some name)
    (h : ∀ {events b}, Agrees events place functions b →
      Agrees (events ++ [e ⟨b.arena.size⟩]) place functions (op.run b).2) :
    Yields place functions op (Recording.make e) := by
  have run : ∀ {events b}, Agrees events place functions b → (Recording.make e).run events =
      (⟨b.arena.size⟩, events ++ [e ⟨b.arena.size⟩]) := by
    intro events b agrees
    rw [agrees.nodes.size]
    rfl
  refine ⟨⟨?_, ?_, ?_, knows⟩, ?_⟩
  · intro events b agrees
    rw [run agrees, result]
  · intro events b agrees
    rw [run agrees]
    exact h agrees
  · intro events b agrees
    rw [run agrees]
    exact List.prefix_append _ _
  · intro events b agrees
    rw [run agrees]
    exact agrees.emittable _ (makes _)

theorem Agrees.node {kind : NodeKind} (h : Agrees events place functions b)
    (silent : kind.isSilent = true) (made : Makes b kind b') (inner : b'.inner = b.inner)
    (globals : b'.globals = b.globals) (blocks : b'.blocks = b.blocks)
    (statements : b'.statements = b.statements) (error : b'.error = b.error) :
    Agrees (events ++ [.node ⟨b.arena.size⟩ kind.children]) place functions b' :=
  h.make made _ rfl ⟨kind, made.own, rfl, silent⟩ ⟨_, rfl⟩ (fun _ _ => rfl) rfl inner globals blocks
    statements (error.trans (Option.or_none).symm)

theorem yields_alloc (kind : NodeKind) (silent : kind.isSilent = true) :
    Yields place functions (alloc kind) (Recording.node kind.children) := by
  refine yields_make _ (fun _ => rfl) (fun _ => rfl) (fun _ _ _ => id) fun h => ?_
  exact h.node silent ⟨rfl, .refl _ _, rfl, .inl rfl⟩ rfl rfl rfl rfl rfl

theorem yields_expr (kind : NodeKind) (ty : Ty) (silent : kind.isSilent = true) :
    Yields place functions (expr kind ty) (Recording.node kind.children) := by
  refine yields_make _ (fun _ => rfl) (fun _ => rfl) (fun _ _ _ => id) fun h => ?_
  exact h.node silent ⟨rfl, (Beside.refl _ _).setType ty, rfl, .inl rfl⟩ rfl rfl rfl rfl rfl

/-- An expression without a name is a node with its operands. -/
theorem yields_plain (e : Plain) :
    Yields place functions e.build (Recording.node e.operands) := by
  have typeOf : ∀ n b, ((typeOf n).run b).2 = b := fun _ _ => rfl
  have get : ∀ b, ((MonadState.get : BuildM Builder).run b).2 = b := fun _ => rfl
  cases e with
  | int value => exact yields_expr (.intLiteral value) .int rfl
  | float value => exact yields_expr (.floatLiteral value) .float rfl
  | string value => exact yields_expr (.stringLiteral value) .string rfl
  | paren inner => exact .looking (typeOf inner) fun ty => yields_expr (.parenthesized inner) ty rfl
  | array elements =>
    cases elements with
    | nil => exact yields_expr (.arrayLiteral []) (.array .void) rfl
    | cons first others =>
      exact .looking (typeOf first) fun ty => yields_expr (.arrayLiteral (first :: others)) _ rfl
  | index stem position =>
    exact .looking (typeOf stem) fun ty => yields_expr (.arrayAccess stem position) _ rfl
  | field stem name =>
    refine .interning fun name => .looking get fun b => .looking (typeOf stem) fun ty => ?_
    exact yields_expr (.fieldAccess stem name) _ rfl
  | callWith callee arguments =>
    exact .looking get fun b => yields_expr (.call callee arguments) _ rfl
  | not operand => exact yields_expr (.not operand) .bool rfl
  | binary op left right =>
    refine .looking (typeOf left) fun ty => .looking (typeOf right) fun ty' => ?_
    exact yields_expr (.binary op left right) _ rfl
  | assign target value =>
    exact .looking (typeOf target) fun ty => yields_expr (.assignment target value) ty rfl

/-! ## 4. Names -/

/-- A reference denotes what the name means here, and has the scope and the type of its declaration. -/
theorem run_reference (text : String) (b : Builder) : ∃ attrs error,
    (reference text).run b = (⟨b.arena.size⟩, { b with
      arena := (b.arena.alloc (.reference (b.interner.intern text).1) b.span).2
      interner := (b.interner.intern text).2, attrs, error }) ∧
    Beside ⟨b.arena.size⟩ b.attrs attrs ∧
    (b.resolve (b.interner.intern text).1 = none → attrs = b.attrs ∧
      error = b.error.or (some (.unresolved text))) ∧
    ∀ decl s, b.resolve (b.interner.intern text).1 = some (decl, s) → error = b.error ∧
      attrs.decl? ⟨b.arena.size⟩ = some decl ∧ attrs.scope? ⟨b.arena.size⟩ = some s ∧
      ∀ ty, b.declType? decl = some ty → attrs.type? ⟨b.arena.size⟩ = some ty := by
  have same : ∀ arena interner, Builder.resolve { b with arena, interner } = b.resolve :=
    fun _ _ => rfl
  have types : ∀ arena interner, Builder.declType? { b with arena, interner } = b.declType? :=
    fun _ _ => rfl
  simp only [reference, StateT.run_bind, run_intern, run_alloc, StateT.run_get, pure_bind, same]
  have beside := Beside.refl ⟨b.arena.size⟩ b.attrs
  cases resolved : b.resolve (b.interner.intern text).1 with
  | none => exact ⟨_, _, rfl, beside, fun _ => ⟨rfl, rfl⟩, by simp⟩
  | some found =>
    obtain ⟨decl, s⟩ := found
    have beside := (beside.setDecl decl).setScope s
    have denotes : ((b.attrs.setDecl ⟨b.arena.size⟩ decl).setScope ⟨b.arena.size⟩ s).decl?
        ⟨b.arena.size⟩ = some decl := (Attributes.decl?_setDecl ..).trans (if_pos rfl)
    have scope : ((b.attrs.setDecl ⟨b.arena.size⟩ decl).setScope ⟨b.arena.size⟩ s).scope?
        ⟨b.arena.size⟩ = some s := (Attributes.scope?_setScope ..).trans (if_pos rfl)
    simp only [StateT.run_bind, pure_bind, StateT.run_modify, types]
    cases known : b.declType? decl with
    | none =>
      refine ⟨_, _, rfl, beside, by simp, ?_⟩
      rintro _ _ ⟨⟩
      refine ⟨rfl, denotes, scope, ?_⟩
      intro ty same
      rw [known] at same
      cases same
    | some ty =>
      refine ⟨_, _, rfl, beside.setType ty, by simp, ?_⟩
      rintro _ _ ⟨⟩
      refine ⟨rfl, denotes, scope, ?_⟩
      intro ty' same
      rw [known] at same
      cases same
      exact (Attributes.type?_setType ..).trans (if_pos rfl)

theorem yields_reference (text : String) :
    Yields place functions (reference text) (place.reference text) := by
  refine yields_make _ (fun _ => rfl) ?_ ?_ @fun events b h => ?_
  · intro b
    obtain ⟨attrs, error, run, -⟩ := run_reference text b
    rw [run]
  · intro b other name known
    obtain ⟨attrs, error, run, -⟩ := run_reference text b
    rw [run]
    exact Interner.find?_intern text known
  obtain ⟨attrs, error, run, beside, unresolved, resolved⟩ := run_reference text b
  rw [run]
  have known := Interner.find?_intern_self b.interner text
  have h := h.intern text
  have found := h.names.resolve_eq h.scopes known
  have made : Makes { b with interner := (b.interner.intern text).2 }
      (.reference (b.interner.intern text).1) { b with
        arena := (b.arena.alloc (.reference (b.interner.intern text).1) b.span).2
        interner := (b.interner.intern text).2, attrs, error } := ⟨rfl, beside, rfl, .inr ⟨_, rfl⟩⟩
  refine h.make made _ rfl ?_ ⟨[], rfl⟩ (fun _ _ => rfl) rfl rfl rfl rfl rfl ?_
  · refine ⟨_, made.own, known, ?_, ?_⟩
    · cases same : resolve events place.path text with
      | none =>
        rw [same] at found
        rw [(unresolved found).1]
        exact h.nodes.fresh (Arena.kind?_size _)
      | some result =>
        rw [same] at found
        exact (resolved _ _ found).2.1
    · intro meaning s same
      rw [same] at found
      obtain ⟨-, -, scope, type⟩ := resolved _ _ found
      refine ⟨scope, ?_⟩
      intro d isNode
      obtain ⟨⟨kind, there, -⟩, scope', ty⟩ := h.declared (List.Subset.refl _) (latest_of_resolve same).2 isNode
      obtain ⟨ty, type'⟩ := Option.isSome_iff_exists.mp ty
      have there : (b.arena.kind? d).isSome := by simp [there]
      have keeps := made.keeps
      refine ⟨keeps.isSome there, (keeps.scope d there).trans scope', ?_⟩
      rw [keeps.type d there, type', type ty]
      rw [isNode]
      exact type'
  · simp only [Event.problem?]
    cases same : resolve events place.path text with
    | none =>
      rw [same] at found
      exact (unresolved found).2
    | some result =>
      rw [same] at found
      rw [(resolved _ _ found).1]
      exact Option.or_none.symm

/-- A new node that declares a name. -/
theorem Agrees.declares {kind : NodeKind} {functions' : List NodeId} {text : String} {name : Name}
    (h : Agrees events place functions b) (made : Makes b kind b') (e : Event)
    (known : b.interner.find? text = some name) (is : e.made? = some ⟨b.arena.size⟩)
    (holds : ∀ b'', b''.arena = b'.arena → b''.interner = b'.interner →
      b''.attrs = b'.attrs.setScope ⟨b.arena.size⟩ place.here → e.Holds events b'')
    (completes : (∃ children, e.completed? = some (⟨b.arena.size⟩, children)) ∧
        functions' = functions ∨
      e.completed? = none ∧ functions' = ⟨b.arena.size⟩ :: functions)
    {meaning : Meaning} (isNode : meaning.decl name = .node ⟨b.arena.size⟩)
    (means : ∀ s text', e.meaning? s text' =
      if place.here = s ∧ text = text' then some meaning else none)
    (quiet : e.isListed = false) (problem : e.problem? events =
      if (latest events place.here text).isSome then some (.redeclared text) else none)
    (inner : b'.inner = b.inner) (globals : b'.globals = b.globals) (blocks : b'.blocks = b.blocks)
    (statements : b'.statements = b.statements) (error : b'.error = b.error) :
    Agrees (events ++ [e]) place functions' ((declare name ⟨b.arena.size⟩).run b').2 := by
  obtain ⟨inner', globals', error', run, failed, ⟨outer, before, after⟩, ids, bottom, -⟩ :=
    run_declare name ⟨b.arena.size⟩ b'
  have current : b'.currentScope = b.currentScope := by
    rw [Builder.currentScope, Builder.currentScope, inner, globals]
  have here : b'.currentScope.id = place.here := by
    rw [current, h.scopes.here_eq]
  rw [inner, globals] at before
  have member : b'.currentScope ∈ b.inner ++ [b.globals] := before ▸ List.mem_cons_self
  -- the scopes further out are older, and so they are others
  have apart : ∀ sc ∈ outer, sc.id ≠ place.here := by
    have path := h.scopes.path
    rw [← h.scopes.path_eq, before, List.map_cons, List.pairwise_cons] at path
    intro sc there same
    have older := path.1 sc.id (List.mem_map_of_mem there)
    rw [here, same] at older
    exact Nat.lt_irrefl _ older
  have made' : Makes b kind ((declare name ⟨b.arena.size⟩).run b').2 := by
    rw [run]
    exact ⟨made.arena, made.attrs.setScope _, made.interner, made.decl⟩
  have unscoped : e.isScope = false := by
    cases e <;> first | rfl | cases is
  have told : e.Holds events ((declare name ⟨b.arena.size⟩).run b').2 := by
    rw [run]
    exact holds _ rfl rfl (by rw [here])
  refine ⟨h.scopes.same e unscoped made'.attrs.parents made'.attrs.root ?_ ?_, ?_,
    h.nodes.make made' e is told completes, h.lists.same e quiet unscoped ?_ ?_ ?_, ?_⟩
  · rw [run, ← inner]
    exact ids
  · rw [run, ← globals]
    exact bottom
  · refine h.names.declare e known ?_ means made'.interner ?_
    · rw [← here]
      apply h.scopes.made
      rw [← h.scopes.path_eq]
      exact List.mem_map_of_mem member
    · rw [run]
      intro sc there
      rw [after] at there
      rcases List.mem_cons.mp there with rfl | others
      · exact .inr ⟨_, member, here, by rw [isNode]⟩
      · refine .inl ⟨?_, apart sc others⟩
        rw [before]
        exact List.mem_cons_of_mem _ others
  · rw [run]
    exact blocks
  · rw [run]
    exact statements
  · intro n function
    rcases completes with ⟨-, rfl⟩ | ⟨-, rfl⟩
    · exact .inl function
    · rcases List.mem_cons.mp function with rfl | old
      · exact .inr (Nat.le_of_eq h.nodes.size.symm)
      · exact .inl old
  · have isSome : (b'.currentScope.find? name).isSome = (latest events place.here text).isSome := by
      rw [h.names.known _ member text name known, Option.isSome_map, here]
    rw [run, head?_problems_concat, ← h.error, problem]
    rw [isSome, error, made.interner, Interner.lookup_of_find? h.names.interner known] at failed
    rw [failed]
    split
    · rfl
    · exact Option.or_none.symm

theorem Agrees.declaration {kind : NodeKind} {text : String} {name : Name}
    (h : Agrees events place functions b) (known : b.interner.find? text = some name)
    (made : Makes b kind b') (plain : kind.isPlain = true) (declares : kind.binds? = some name)
    (typed : (b'.attrs.type? ⟨b.arena.size⟩).isSome) (inner : b'.inner = b.inner)
    (globals : b'.globals = b.globals) (blocks : b'.blocks = b.blocks)
    (statements : b'.statements = b.statements) (error : b'.error = b.error) :
    Agrees (events ++
        [.declaration ⟨b.arena.size⟩ place.here text kind.isStructDecl kind.children])
      place functions ((declare name ⟨b.arena.size⟩).run b').2 := by
  let meaning : Meaning :=
    if kind.isStructDecl then .struct ⟨b.arena.size⟩ else .node ⟨b.arena.size⟩
  have isNode : meaning.decl name = .node ⟨b.arena.size⟩ := by
    simp only [meaning]
    split <;> rfl
  refine h.declares made _ known rfl ?_ (.inl ⟨⟨_, rfl⟩, rfl⟩) isNode (fun _ _ => rfl) rfl rfl inner
    globals blocks statements error
  intro b'' arena interner attrs
  refine ⟨name, kind, ?_, rfl, plain, declares, rfl, ?_, ?_, ?_⟩
  · rw [arena, made.own]
  · rw [interner, made.interner, known]
  · rw [attrs]
    exact (Attributes.scope?_setScope ..).trans (if_pos rfl)
  · rw [attrs]
    exact typed

theorem knows_declare {name known : Name} {n : NodeId} {text : String}
    (h : b.interner.find? text = some known) :
    ((declare name n).run b).2.interner.find? text = some known := by
  obtain ⟨inner, globals, error, run, -⟩ := run_declare name n b
  rw [run]
  exact h

/-- A variable or a parameter is declared in the innermost scope. -/
theorem yields_declaration (text : String) (ty : Ty) (kind : Name → NodeKind)
    (children : List NodeId) (plain : ∀ name, (kind name).isPlain = true)
    (declares : ∀ name, (kind name).binds? = some name)
    (variable_ : ∀ name, (kind name).isStructDecl = false)
    (same : ∀ name, (kind name).children = children) :
    Yields place functions (Builder.intern text >>= fun name => Builder.declaration name (kind name) ty)
      (place.declaration text false children) := by
  refine yields_make _ (fun _ => rfl) (fun _ => rfl) ?_ @fun events b h => ?_
  · intro b other name known
    exact knows_declare (Interner.find?_intern text known)
  have made : ∀ b kind, Makes b kind (b.allocated kind ty) :=
    fun b kind => ⟨rfl, (Beside.refl _ _).setType ty, rfl, .inl rfl⟩
  have after := (h.intern text).declaration (Interner.find?_intern_self b.interner text) (made _ _)
    (plain _) (declares _) ?_ rfl rfl rfl rfl rfl
  · rw [variable_, same] at after
    exact after
  · simp [Builder.allocated, Attributes.type?_setType]

theorem Agrees.host (h : Agrees events place functions b) (text : String) (kind : HostKind) :
    Agrees (events ++ [.host text kind]) place functions { b with
      interner := (b.interner.intern text).2
      globals := b.globals.insert (b.interner.intern text).1
        (.host ⟨(b.interner.intern text).1, kind⟩) } := by
  have known := Interner.find?_intern_self b.interner text
  have h := h.intern text
  -- the scopes further in are younger than the outermost one
  have apart : ∀ sc ∈ b.inner, sc.id ≠ .outermost := by
    intro sc member same
    have path := h.scopes.path
    rw [Position.path, List.pairwise_append] at path
    have younger := path.2.2 sc.id ?_ .outermost (List.mem_singleton_self _)
    · rw [same] at younger
      exact Nat.lt_irrefl _ younger
    · rw [← h.scopes.inner]
      exact List.mem_map_of_mem member
  refine ⟨h.scopes.same _ rfl rfl rfl rfl rfl, ?_,
    h.nodes.add _ rfl rfl rfl (fun _ => rfl) (fun _ _ => .inl) (keeps_of_eq rfl rfl fun _ _ => id)
      trivial, h.lists.same _ rfl rfl rfl rfl fun n => .inl, ?_⟩
  · have means : ∀ s text', (Event.host text kind).meaning? s text' =
        if .outermost = s ∧ text = text' then some (.host kind) else none := by
      intro s text'
      simp only [Event.meaning?, eq_comm]
    refine h.names.declare _ known ?_ means rfl ?_
    · apply h.scopes.made
      exact List.mem_append_right _ (List.mem_singleton_self _)
    · intro sc member
      rcases List.mem_append.mp member with inner | bottom
      · exact .inl ⟨List.mem_append_left _ inner, apart sc inner⟩
      · rw [List.mem_singleton.mp bottom]
        refine .inr ⟨b.globals, List.mem_append_right _ (List.mem_singleton_self _),
          h.scopes.globals, rfl⟩
  · rw [head?_problems_concat, ← h.error]
    exact Option.or_none.symm

/-- What comes after a declaration of the host. -/
theorem Simulates.hosting {α : Type} {next : Decl → BuildM α} {spec : Recording α} (text : String)
    (kind : HostKind) (ty : Ty) (h : ∀ d, Simulates place functions (next d) spec) :
    Simulates place functions (host text kind ty >>= next)
      (add (.host text kind) >>= fun _ => spec) := by
  refine ⟨fun agrees => (h _).result ((agrees.host text kind).forget ..),
    fun agrees => (h _).agrees ((agrees.host text kind).forget ..), @fun events b agrees => ?_,
    fun _ _ _ known => (h _).knows _ (Interner.find?_intern text known)⟩
  have after := (agrees.host text kind).forget b.hostTypes b.returns b.structFields b.span b.labels
  exact (List.prefix_append _ _).trans ((h (.host ⟨.empty, kind⟩)).grows after)

theorem simulates_builtin (text : String) (ty : Ty) :
    Simulates place functions (builtin text ty) (add (.host text .function)) :=
  ⟨fun _ => rfl, fun agrees => (agrees.host text .function).forget ..,
    fun _ => List.prefix_append _ _, fun _ _ _ => Interner.find?_intern text⟩

theorem simulates_setSpan (span : Span) : Simulates place functions (setSpan span) (pure ()) :=
  ⟨fun _ => rfl, fun agrees => agrees.forget .., fun _ => List.prefix_rfl, fun _ _ _ => id⟩

/-- It is a problem if a reference denotes no struct. -/
def checkStruct (text : String) (reference : NodeId) : BuildM Unit := do
  let b ← get
  let isStruct :=
    match b.attrs.decl? reference with
    | some (.node decl) => (b.arena.kind? decl).any NodeKind.isStructDecl
    | _ => false
  unless isStruct do fail (.notAStruct text)

theorem constructor_eq (text : String) : constructor text =
    (reference text >>= fun n => checkStruct text n >>= fun _ => pure n) >>= fun n =>
      expr (.constructor n) .function := by
  simp only [constructor, checkStruct, bind_assoc, pure_bind]
  refine bind_congr fun n => bind_congr fun b => ?_
  cases b.attrs.decl? n with
  | none => rfl
  | some decl =>
    cases decl with
    | host host => rfl
    | node d =>
      simp only
      split <;> rfl

theorem interner_checkStruct (text : String) (n : NodeId) (b : Builder) :
    ((checkStruct text n).run b).2.interner = b.interner := by
  simp only [checkStruct, StateT.run_bind, StateT.run_get, pure_bind]
  split <;> rfl

theorem Agrees.checkStruct {before : List Event} {n : NodeId} {text : String} {path : List ScopeId}
    (h : Agrees events place functions b) (happens : Happens events before (.reference n path text))
    (same : resolve events path text = resolve before path text) :
    Agrees (events ++ [.constructor path text]) place functions
      ((Recording.checkStruct text n).run b).2 := by
  have marked := h.mark (.constructor path text) rfl rfl rfl rfl (fun _ _ => rfl) fun _ => trivial
  obtain ⟨name, -, -, denotes, -⟩ := h.nodes.holds _ _ happens
  have isStruct : (match b.attrs.decl? n with
      | some (.node decl) => (b.arena.kind? decl).any NodeKind.isStructDecl
      | _ => false) = (resolve events path text).any fun found => found.1.isStruct := by
    rw [denotes, same]
    cases found : resolve before path text with
    | none => rfl
    | some result =>
      obtain ⟨meaning, s⟩ := result
      rw [← same] at found
      simp only [Option.map_some, Option.any_some]
      cases isNode : meaning.decl name with
      | host host =>
        cases meaning with
        | host kind => rfl
        | _ => cases isNode
      | node d =>
        obtain ⟨⟨kind, there, struct, -⟩, -⟩ := h.declared (List.Subset.refl _) (latest_of_resolve found).2 isNode
        simp only [there, Option.any_some, struct]
  simp only [Recording.checkStruct, StateT.run_bind, StateT.run_get, pure_bind, isStruct]
  simp only [Event.problem?] at marked
  cases known : (resolve events path text).any fun found => found.1.isStruct with
  | true =>
    rw [known, if_pos rfl, Option.or_none] at marked
    exact marked
  | false =>
    rw [known, if_neg (by decide)] at marked
    exact marked

/-- The constructor of a struct is asked for by its name. -/
theorem yields_constructor (text : String) : Yields place functions (constructor text) (do
    let callee ← place.reference text
    add (.constructor place.path text)
    Recording.node [callee]) := by
  have asked : Yields place functions (reference text) (place.reference text) := yields_reference text
  have asks : Simulates place functions
      (reference text >>= fun n => Recording.checkStruct text n >>= fun _ => pure n)
      (place.reference text >>= fun n => add (.constructor place.path text) >>= fun _ => pure n) := by
    refine ⟨asked.result, ?_, fun agrees => (asked.grows agrees).trans (List.prefix_append _ _),
      fun b _ _ known => ?_⟩
    · intro events b agrees
      have same : resolve ((place.reference text).run events).2 place.path text =
          resolve events place.path text := by
        show resolve (events ++ [.reference ⟨nodesIn events⟩ place.path text]) place.path text = _
        simp [resolve, Event.meaning?]
      have checked := (asked.agrees agrees).checkStruct List.prefix_rfl same
      rw [show (⟨nodesIn events⟩ : NodeId) = _ from (asked.result agrees).symm] at checked
      exact checked
    · exact (congrArg (Interner.find? · _) (interner_checkStruct text _ _)).trans (asked.knows _ known)
  have both : Yields place functions _ _ :=
    Yields.bind asks fun n => yields_expr (.constructor n) .function rfl
  rw [constructor_eq]
  exact both

/-! ## 5. Statements -/

/-- A node goes to the innermost block. -/
theorem Agrees.emit {n : NodeId} (h : Agrees events place functions b)
    (emittable : Emittable events functions n) :
    Agrees (events ++ [.statement place.block n]) place functions ((emit n).run b).2 := by
  obtain ⟨statements, blocks, run, emits⟩ := run_emit n b
  rw [run]
  have distinct : place.path.Nodup := by
    refine List.Pairwise.imp ?_ h.scopes.path
    rintro inner outer older rfl
    exact Nat.lt_irrefl _ older
  have inside : place.blocks.Sublist place.scopes := h.scopes.blocks
  rw [Position.path, List.nodup_append] at distinct
  have outermost : ScopeId.outermost ∉ place.blocks := by
    intro member
    exact distinct.2.2 _ (inside.subset member) _ (List.mem_singleton_self _) rfl
  have known : place.block.index < scopesIn events := by
    apply h.scopes.made
    simp only [Position.block, Position.path]
    cases same : place.blocks with
    | nil => exact List.mem_append_right _ (List.mem_singleton_self _)
    | cons s others =>
      rw [same] at inside
      exact List.mem_append_left _ (inside.subset List.mem_cons_self)
  refine ⟨h.scopes.same _ rfl rfl rfl rfl rfl, h.names.same _ (fun _ _ => rfl) rfl rfl rfl,
    h.nodes.add _ rfl rfl rfl (fun _ => rfl) (fun _ _ => .inl) (keeps_of_eq rfl rfl fun _ _ => id)
      trivial, ?_, ?_⟩
  · refine h.lists.emit (inside.nodup distinct.1) outermost known emittable.made emittable.complete
      emittable.new ?_
    unfold Builder.Emits at emits
    cases same : b.blocks with
    | nil =>
      rw [same] at emits
      exact .inl ⟨rfl, emits⟩
    | cons first outer =>
      rw [same] at emits
      exact .inr ⟨first, outer, rfl, emits⟩
  · rw [head?_problems_concat, ← h.error]
    exact Option.or_none.symm

theorem Yields.emit {op : BuildM NodeId} {spec : Recording NodeId}
    (h : Yields place functions op spec) :
    Simulates place functions (op >>= Builder.emit) (spec >>= place.statement) := by
  have run : ∀ b, ∃ statements blocks, (op >>= Builder.emit).run b =
      ((op.run b).1, { (op.run b).2 with statements, blocks }) := by
    intro b
    obtain ⟨statements, blocks, same, -⟩ := run_emit (op.run b).1 (op.run b).2
    exact ⟨statements, blocks, same⟩
  refine ⟨?_, ?_, fun agrees => (h.grows agrees).trans (List.prefix_append _ _), ?_⟩
  · intro events b agrees
    obtain ⟨statements, blocks, same⟩ := run b
    rw [same]
    exact h.result agrees
  · intro events b agrees
    have emitted := (h.agrees agrees).emit (h.emittable agrees)
    rw [← h.result agrees] at emitted
    show Agrees ((spec.run events).2 ++ [.statement place.block (spec.run events).1]) _ _ _
    rw [← h.result agrees]
    exact emitted
  · intro b text name known
    obtain ⟨statements, blocks, same⟩ := run b
    rw [same]
    exact h.knows b known

/-! ## 6. Scopes -/

/-- A scope opens inside the innermost one. -/
theorem Agrees.enter {place' : Position} (h : Agrees events place functions b)
    (arena : b'.arena = b.arena) (attrs : b'.attrs = (b.attrs.newScope (some b.currentScope.id)).2)
    (interner : b'.interner = b.interner) (inner : b'.inner = ⟨⟨b.attrs.scopeCount⟩, []⟩ :: b.inner)
    (globals : b'.globals = b.globals) (scopes : place'.scopes = ⟨scopesIn events⟩ :: place.scopes)
    (statements : b'.statements = b.statements)
    (blocks : place'.blocks = place.blocks ∧ b'.blocks = b.blocks ∨
      place'.blocks = ⟨scopesIn events⟩ :: place.blocks ∧ b'.blocks = [] :: b.blocks)
    (error : b'.error = b.error) :
    Agrees (events ++ [.scope ⟨scopesIn events⟩ place.here]) place' functions b' := by
  rw [h.scopes.here_eq] at attrs
  rw [h.scopes.count] at inner
  have parent? : ∀ s, b'.attrs.parent? s =
      if s = ⟨scopesIn events⟩ then some place.here else b.attrs.parent? s := by
    intro s
    rw [attrs, Attributes.parent?_newScope, ← h.scopes.count]
    rfl
  have keeps : Keeps b b' := by
    refine ⟨?_, fun _ _ => by rw [attrs]; rfl, fun _ _ => by rw [attrs]; rfl,
      fun _ _ => by rw [attrs]; rfl, fun _ _ _ same => by rw [attrs]; exact same, ?_, ?_⟩
    · intro n kind found
      rw [arena, found]
    · intro s outside parent
      rw [parent?, if_neg, parent]
      rintro rfl
      have known := Attributes.lt_of_parent? parent
      rw [h.scopes.count] at known
      exact Nat.lt_irrefl _ known
    · intro text name found
      rw [interner, found]
  refine ⟨?_, ?_, ?_, h.lists.enter _ scopes statements blocks, ?_⟩
  · refine h.scopes.enter (congrArg _ attrs) ?_ ?_ (congrArg _ globals) scopes ?_
    · -- only a scope without parent can become the root
      rw [attrs]
      rfl
    · rw [inner, List.map_cons]
    · rw [scopes]
      rcases blocks with ⟨same, -⟩ | ⟨same, -⟩
      · rw [same]
        exact h.scopes.blocks.cons _
      · rw [same]
        exact h.scopes.blocks.cons_cons _
  · refine h.names.add _ (fun _ _ => rfl) interner ?_
    rw [inner, globals]
    intro sc member
    rcases List.mem_cons.mp member with rfl | before
    · exact .inr ⟨rfl, Nat.le_refl _⟩
    · exact .inl before
  · refine h.nodes.add _ rfl rfl arena ?_ ?_ keeps trivial
    · intro n
      rw [attrs]
      rfl
    · intro n s same
      rw [attrs] at same
      exact .inl same
  · rw [error, head?_problems_concat, ← h.error]
    exact Option.or_none.symm

/-- The innermost scope is none of the others. -/
theorem Agrees.innermost {s : ScopeId} {scopes blocks : List ScopeId}
    (h : Agrees events ⟨s :: scopes, blocks⟩ functions b) :
    s ∉ scopes ∧ s ≠ .outermost ∧ s.index < scopesIn events := by
  have path := h.scopes.path
  have made := h.scopes.made s List.mem_cons_self
  rw [Position.path, List.cons_append, List.pairwise_cons] at path
  refine ⟨?_, ?_, made⟩
  · intro member
    exact Nat.lt_irrefl _ (path.1 s (List.mem_append_left _ member))
  · rintro rfl
    exact Nat.lt_irrefl _ (path.1 _ (List.mem_append_right _ (List.mem_singleton_self _)))

theorem Agrees.opened (h : Agrees events place functions b) :
    Agrees (events ++ [.scope ⟨scopesIn events⟩ place.here]) (place.within ⟨scopesIn events⟩) functions
      b.opened :=
  h.enter rfl rfl rfl rfl rfl rfl rfl (.inr ⟨rfl, rfl⟩) rfl

/-- The innermost block is closed, and has the statements that have gone to it. -/
theorem Agrees.closed {s : ScopeId} (h : Agrees events (place.within s) functions b)
    (blocks : place.blocks.Sublist place.scopes) :
    Agrees (events ++ [.block ⟨b.arena.size⟩ s (statementsAt events s)]) place functions
      (b.closed s) := by
  obtain ⟨distinct, inner, known⟩ := h.innermost
  have statements : (b.blocks.headD []).reverse = statementsAt events s := by
    have all := h.lists.blocks
    rw [Position.within, List.map_cons] at all
    cases same : b.blocks with
    | nil =>
      rw [same] at all
      cases all
    | cons first outer =>
      rw [same, List.map_cons] at all
      exact (List.cons.inj all).1
  have made : Makes b (.block (statementsAt events s)) (b.closed s) := by
    refine ⟨?_, (Beside.refl _ _).setScope s, rfl, .inl rfl⟩
    rw [← statements]
    rfl
  have scopes : b.inner.tail.map OpenScope.id = place.scopes := by
    rw [List.map_tail, h.scopes.inner]
    rfl
  refine ⟨h.scopes.add _ rfl rfl rfl scopes rfl (List.sublist_cons_self _ _) blocks,
    h.names.add _ (fun _ _ => rfl) rfl ?_, h.nodes.make made _ rfl ⟨made.own, ?_⟩
      (.inl ⟨⟨_, rfl⟩, rfl⟩), h.lists.leave ?_ inner known rfl rfl, ?_⟩
  · intro sc member
    refine .inl ?_
    rcases List.mem_append.mp member with outer | bottom
    · exact List.mem_append_left _ (List.mem_of_mem_tail outer)
    · exact List.mem_append_right _ bottom
  · exact (Attributes.scope?_setScope ..).trans (if_pos rfl)
  · intro member
    exact distinct (blocks.subset member)
  · rw [head?_problems_concat, ← h.error]
    exact Option.or_none.symm

/-- What is in the record once a block is closed. -/
theorem Simulates.inBlock {body : BuildM Unit} {record : Position → Recording Unit}
    (h : ∀ place, Simulates place functions body (record place))
    (agrees : Agrees events place functions b) : ∃ events' b', let s : ScopeId := ⟨scopesIn events⟩
    Agrees events' (place.within s) functions b' ∧ events ++ [.scope s place.here] <+: events' ∧
      (scopedBlock body).run b = (⟨b'.arena.size⟩, b'.closed s) ∧
      (place.inBlock record).run events = (⟨b'.arena.size⟩, events' ++
        [.block ⟨b'.arena.size⟩ s (statementsAt events' s)]) := by
  have inside := h (place.within ⟨scopesIn events⟩)
  have after := inside.agrees agrees.opened
  refine ⟨_, _, after, inside.grows agrees.opened, ?_, ?_⟩
  · rw [run_scopedBlock, agrees.scopes.count]
  · rw [after.nodes.size]
    rfl

/-- A block does what its body does, in a scope of its own. -/
theorem yields_scopedBlock {body : BuildM Unit} {record : Position → Recording Unit}
    (h : ∀ place, Simulates place functions body (record place)) :
    Yields place functions (scopedBlock body) (place.inBlock record) := by
  refine ⟨⟨?_, ?_, ?_, ?_⟩, ?_⟩
  · intro events b agrees
    obtain ⟨events', b', after, more, same, same'⟩ := Simulates.inBlock h agrees
    rw [same, same']
  · intro events b agrees
    obtain ⟨events', b', after, more, same, same'⟩ := Simulates.inBlock h agrees
    rw [same, same']
    exact after.closed agrees.scopes.blocks
  · intro events b agrees
    obtain ⟨events', b', after, more, same, same'⟩ := Simulates.inBlock h agrees
    rw [same']
    exact ((List.prefix_append _ _).trans more).trans (List.prefix_append _ _)
  · intro b text name known
    rw [run_scopedBlock]
    exact (h place).knows _ known
  · intro events b agrees
    obtain ⟨events', b', after, more, same, same'⟩ := Simulates.inBlock h agrees
    rw [same']
    exact after.emittable _ rfl

/-! ## 7. Functions and structs -/

/-- A function is there from its declaration on; its parameters and its body are still to come. -/
theorem Agrees.function {text : String} {name : Name} (h : Agrees events place functions b)
    (known : b.interner.find? text = some name) (made : Makes b (.funDecl name [] .invalid) b')
    (typed : (b'.attrs.type? ⟨b.arena.size⟩).isSome) (inner : b'.inner = b.inner)
    (globals : b'.globals = b.globals) (blocks : b'.blocks = b.blocks)
    (statements : b'.statements = b.statements) (error : b'.error = b.error) :
    Agrees (events ++ [.function ⟨b.arena.size⟩ place.here text]) place
      (⟨b.arena.size⟩ :: functions) ((declare name ⟨b.arena.size⟩).run b').2 := by
  have isNode : (Meaning.node ⟨b.arena.size⟩).decl name = .node ⟨b.arena.size⟩ := rfl
  refine h.declares made _ known rfl ?_ (.inr ⟨rfl, rfl⟩) isNode (fun _ _ => rfl) rfl rfl inner
    globals blocks statements error
  intro b'' arena interner attrs
  refine ⟨name, [], .invalid, ?_, ?_, ?_, ?_⟩
  · rw [arena, made.own]
  · rw [interner, made.interner, known]
  · rw [attrs]
    exact (Attributes.scope?_setScope ..).trans (if_pos rfl)
  · rw [attrs]
    exact typed

/-- The scope that has just been opened is for the parameters of a function. -/
theorem Agrees.parameters {f : NodeId} {s : ScopeId} (h : Agrees events (place.inside s) functions b)
    (blocks : place.blocks.Sublist place.scopes)
    (function : ∃ name declared body, b.arena.kind? f = some (.funDecl name declared body))
    (first : ∀ s', .parameters f s' ∉ events) (free : ∀ n, ¬ Owns events n s)
    (none : statementsAt events s = []) :
    Agrees (events ++ [.parameters f s]) (place.inside s) functions
      { b with attrs := b.attrs.setBodyScope f s } := by
  obtain ⟨distinct, inner, known⟩ := h.innermost
  have keeps : Keeps b { b with attrs := b.attrs.setBodyScope f s } := by
    refine ⟨fun _ _ => id, fun _ _ => rfl, fun _ _ => rfl, fun _ _ => rfl, ?_, fun _ _ => id,
      fun _ _ => id⟩
    intro n s' _ same
    rw [Attributes.bodyScope?_setBodyScope, if_neg, same]
    rintro rfl
    exact first s' (h.nodes.bodies n s' same)
  refine ⟨h.scopes.same _ rfl rfl rfl rfl rfl, h.names.same _ (fun _ _ => rfl) rfl rfl rfl,
    h.nodes.add _ rfl rfl rfl (fun _ => rfl) ?_ keeps ⟨function, ?_⟩,
    h.lists.parametersOf known free ?_ inner none rfl rfl, ?_⟩
  · intro n s' same
    rw [Attributes.bodyScope?_setBodyScope] at same
    split at same
    · next is =>
      cases same
      exact .inr (is ▸ rfl)
    · exact .inl same
  · exact (Attributes.bodyScope?_setBodyScope ..).trans (if_pos rfl)
  · intro member
    exact distinct (blocks.subset member)
  · rw [head?_problems_concat, ← h.error]
    exact Option.or_none.symm

/-- The parameter scope is closed, and the function has its parameters and its body. -/
theorem Agrees.finished {f body : NodeId} {s : ScopeId} {declared : List NodeId} {name : Name}
    (h : Agrees events (place.inside s) (f :: functions) b) (blocks : place.blocks.Sublist place.scopes)
    (alone : f ∉ functions) (found : ∃ declared₀ body₀, b.arena.kind? f = some (.funDecl name declared₀ body₀))
    (own : .parameters f s ∈ events) (outside : b.attrs.parent? s = b.attrs.scope? f)
    (scope : (b.attrs.scope? f).isSome) (block : ∃ inner statements, .block body inner statements ∈ events ∧
      .scope inner s ∈ events) (each : ∀ m ∈ declared, ∃ text isStruct children,
        .declaration m s text isStruct children ∈ events) :
    Agrees (events ++ [.finished f declared body]) place functions
      (b.left f (.funDecl name declared body)) := by
  have finishes : Finishes b f name declared body (b.left f (.funDecl name declared body)) :=
    ⟨found, rfl, rfl, rfl⟩
  have holds : ∀ e ∈ events, ∃ before, e.Holds before b := by
    intro e member
    obtain ⟨before, happens⟩ := exists_happens member
    exact ⟨before, h.nodes.holds before e happens⟩
  have scopes : b.inner.tail.map OpenScope.id = place.scopes := by
    rw [List.map_tail, h.scopes.inner]
    rfl
  refine ⟨h.scopes.add _ rfl rfl rfl scopes rfl (List.sublist_cons_self _ _) blocks,
    h.names.add _ (fun _ _ => rfl) rfl ?_, h.nodes.finish alone finishes ?_,
    h.lists.add _ rfl h.lists.blocks rfl (fun _ => .inl) ?_ ?_, ?_⟩
  · intro sc member
    refine .inl ?_
    rcases List.mem_append.mp member with outer | bottom
    · exact List.mem_append_left _ (List.mem_of_mem_tail outer)
    · exact List.mem_append_right _ bottom
  · obtain ⟨inner, statements, isBlock, opens⟩ := block
    obtain ⟨-, kind, scope'⟩ := holds _ isBlock
    obtain ⟨-, -, bodyScope⟩ := holds _ own
    refine ⟨name, s, inner, (finishes.kind? f).trans (if_pos rfl), bodyScope, outside,
      ⟨statements, finishes.other kind nofun⟩, scope', (h.scopes.parent _ _ opens).1, scope, ?_⟩
    intro m member
    obtain ⟨text, isStruct, children, declaration⟩ := each m member
    obtain ⟨-, -, kind, there, -, -, -, -, -, scope, -⟩ := holds _ declaration
    exact ⟨(finishes.isSome m).trans (by simp [there]), scope⟩
  · intro s' inside
    refine .inl ⟨by simpa [Event.isScope] using inside, ?_⟩
    intro member
    rcases List.mem_cons.mp member with rfl | outer
    · exact .inr ⟨f, .inr own⟩
    · exact .inl outer
  · intro n function
    exact .inl (List.mem_cons_of_mem _ function)
  · rw [head?_problems_concat, ← h.error]
    exact Option.or_none.symm

/-- The node of a function, not yet emitted. -/
def functionNode (text : String) (parameters : List (String × Ty)) (returns : Ty)
    (body : BuildM Unit) : BuildM NodeId := do
  let name ← Builder.intern text
  let node ← alloc (.funDecl name [] .invalid)
  setType node .function
  modify fun b => { b with returns := (.node node, returns) :: b.returns }
  declare name node
  let bodyScope ← Builder.openScope
  modify fun b => { b with attrs := b.attrs.setBodyScope node bodyScope }
  let parameters ← parameters.mapM fun (name, ty) => parameter name ty
  let body ← scopedBlock body
  closeScope
  modify fun b => { b with arena := b.arena.setKind node (.funDecl name parameters body) }
  return node

theorem simulates_parameters (place : Position) (functions : List NodeId)
    (parameters : List (String × Ty)) : Simulates place functions
    (parameters.mapM fun (name, ty) => parameter name ty)
    (parameters.mapM fun parameter => place.declaration parameter.1 false []) := by
  induction parameters with
  | nil => exact simulates_pure []
  | cons first rest ih =>
    rw [List.mapM_cons, List.mapM_cons]
    have one : Yields place functions (parameter first.1 first.2) (place.declaration first.1 false []) := by
      rw [parameter_eq]
      exact yields_declaration first.1 first.2 .parameter [] (fun _ => rfl) (fun _ => rfl)
        (fun _ => rfl) fun _ => rfl
    exact one.toSimulates.bind fun n => ih.bind fun others => simulates_pure _

/-- The parameters are declared in the innermost scope. -/
theorem mem_declarations (place : Position) (parameters : List (String × Ty)) (events : List Event) :
    let declared := (parameters.mapM fun parameter => place.declaration parameter.1 false []).run events
    events <+: declared.2 ∧
      ∀ m ∈ declared.1, ∃ text, .declaration m place.here text false [] ∈ declared.2 := by
  induction parameters generalizing events with
  | nil => exact ⟨List.prefix_rfl, nofun⟩
  | cons first rest ih =>
    obtain ⟨more, others⟩ := ih (events ++ [.declaration ⟨nodesIn events⟩ place.here first.1 false []])
    rw [List.mapM_cons]
    refine ⟨(List.prefix_append _ _).trans more, ?_⟩
    intro m member
    rcases List.mem_cons.mp member with rfl | before
    · exact ⟨first.1, more.subset (List.mem_append_right _ (List.mem_singleton_self _))⟩
    · exact others m before

/-- A function has been declared, and its parameter scope has been opened. -/
def started (text : String) (returns : Ty) (b : Builder) : Builder :=
  let name := (b.interner.intern text).1
  let allocated := Builder.allocated { b with interner := (b.interner.intern text).2 }
    (.funDecl name [] .invalid) .function
  ((declare name ⟨b.arena.size⟩).run
    { allocated with returns := (.node ⟨b.arena.size⟩, returns) :: b.returns }).2.entered ⟨b.arena.size⟩

theorem run_functionNode (text : String) (parameters : List (String × Ty)) (returns : Ty)
    (body : BuildM Unit) (b : Builder) : (functionNode text parameters returns body).run b =
      let declared := (parameters.mapM fun (name, ty) => parameter name ty).run (started text returns b)
      let block := (scopedBlock body).run declared.2
      (⟨b.arena.size⟩, block.2.left ⟨b.arena.size⟩
        (.funDecl (b.interner.intern text).1 declared.1 block.1)) := rfl

theorem knows_started {text other : String} {returns : Ty} {name : Name}
    (known : (b.interner.intern text).2.find? other = some name) :
    (started text returns b).interner.find? other = some name := knows_declare known

/-- The parameter scope of a function is opened. -/
theorem Agrees.entered {f : NodeId} (h : Agrees events place (f :: functions) b)
    (function : ∃ name declared body, b.arena.kind? f = some (.funDecl name declared body))
    (first : ∀ s, .parameters f s ∉ events) :
    Agrees (events ++ [.scope ⟨scopesIn events⟩ place.here] ++ [.parameters f ⟨scopesIn events⟩])
      (place.inside ⟨scopesIn events⟩) (f :: functions) (b.entered f) := by
  have opened : Agrees (events ++ [.scope ⟨scopesIn events⟩ place.here])
      (place.inside ⟨scopesIn events⟩) (f :: functions) { b with
        attrs := (b.attrs.newScope (some b.currentScope.id)).2
        inner := ⟨⟨b.attrs.scopeCount⟩, []⟩ :: b.inner } :=
    h.enter rfl rfl rfl rfl rfl rfl rfl (.inl ⟨rfl, rfl⟩) rfl
  have unused := h.lists.unused ⟨scopesIn events⟩ (Nat.le_refl _)
  have after := opened.parameters h.scopes.blocks function ?_ ?_ ?_
  · rw [← h.scopes.count] at after ⊢
    exact after
  · intro s member
    rcases List.mem_append.mp member with before | new
    · exact first s before
    · cases List.mem_singleton.mp new
  · intro n owns
    rcases Lists.owns_concat.mp owns with before | ⟨l, new⟩ | new
    · exact unused.2 n before
    · cases new
    · cases new
  · rw [statementsAt_concat, unused.1]
    rfl

/-- The record of a function that has been declared, and whose parameter scope has been opened. -/
def begun (place : Position) (text : String) (events : List Event) (f : NodeId) :
    ScopeId × List Event :=
  let declared := events ++ [.function f place.here text]
  let s : ScopeId := ⟨scopesIn declared⟩
  (s, declared ++ [.scope s place.here] ++ [.parameters f s])

theorem run_function (place : Position) (text : String) (parameters : List (String × Ty))
    (record : Position → Recording Unit) (events : List Event) :
    (place.function text parameters record).run events =
      let f : NodeId := ⟨nodesIn events⟩
      let place' := place.inside (begun place text events f).1
      let declared := (parameters.mapM fun parameter => place'.declaration parameter.1 false []).run
        (begun place text events f).2
      let block := (place'.inBlock record).run declared.2
      (f, block.2 ++ [.finished f declared.1 block.1]) := rfl

theorem Agrees.started (h : Agrees events place functions b) (text : String) (returns : Ty) :
    Agrees (begun place text events ⟨b.arena.size⟩).2
      (place.inside (begun place text events ⟨b.arena.size⟩).1) (⟨b.arena.size⟩ :: functions)
      (Recording.started text returns b) := by
  have interned := h.intern text
  have made : Makes { b with interner := (b.interner.intern text).2 }
      (.funDecl (b.interner.intern text).1 [] .invalid) { Builder.allocated
        { b with interner := (b.interner.intern text).2 }
        (.funDecl (b.interner.intern text).1 [] .invalid) .function with
        returns := (.node ⟨b.arena.size⟩, returns) :: b.returns } :=
    ⟨rfl, (Beside.refl _ _).setType .function, rfl, .inl rfl⟩
  have declared := interned.function (Interner.find?_intern_self b.interner text) made
    (by simp [Builder.allocated, Attributes.type?_setType]) rfl rfl rfl rfl rfl
  -- the function is new, and has had no parameters
  have first : ∀ s, .parameters ⟨b.arena.size⟩ s ∉
      events ++ [.function ⟨b.arena.size⟩ place.here text] := by
    intro s member
    rcases List.mem_append.mp member with before | new
    · obtain ⟨_, happens⟩ := exists_happens before
      obtain ⟨_, _, _, found⟩ := (h.nodes.holds _ _ happens).1
      rw [Arena.kind?_size] at found
      cases found
    · cases List.mem_singleton.mp new
  -- what the record says of it is true
  obtain ⟨name, parameters, body, found, -⟩ := declared.nodes.holds _ _ List.prefix_rfl
  exact declared.entered ⟨name, parameters, body, found⟩ first

/-- What is in the record once a function has its parameters and its body. -/
theorem Simulates.function {body : BuildM Unit} {record : Position → Recording Unit} (text : String)
    (parameters : List (String × Ty)) (returns : Ty)
    (h : ∀ place functions, Simulates place functions body (record place))
    (agrees : Agrees events place functions b) : ∃ events' b' declared block,
    let f : NodeId := ⟨b.arena.size⟩
    let s := (begun place text events f).1
    let name := (b.interner.intern text).1
    Agrees events' (place.inside s) (f :: functions) b' ∧
      (begun place text events f).2 <+: events' ∧
      (functionNode text parameters returns body).run b = (f, b'.left f (.funDecl name declared block)) ∧
      (place.function text parameters record).run events = (f, events' ++ [.finished f declared block]) ∧
      b'.interner.find? text = some name ∧
      (∃ inner statements, .block block inner statements ∈ events' ∧ .scope inner s ∈ events') ∧
      ∀ m ∈ declared, ∃ text, .declaration m s text false [] ∈ events' := by
  have started := agrees.started text returns
  rw [run_function, ← agrees.nodes.size, run_functionNode]
  dsimp only
  generalize same : begun place text events ⟨b.arena.size⟩ = begun at started ⊢
  obtain ⟨s, events₁⟩ := begun
  have declares := simulates_parameters (place.inside s) (⟨b.arena.size⟩ :: functions) parameters
  obtain ⟨more, declared⟩ := mem_declarations (place.inside s) parameters events₁
  have after := declares.agrees started
  have inside : Yields (place.inside s) _ _ _ :=
    yields_scopedBlock fun place => h place (⟨b.arena.size⟩ :: functions)
  obtain ⟨events₂, b₂, -, opens, -, block⟩ :=
    Simulates.inBlock (fun place => h place (⟨b.arena.size⟩ :: functions)) after
  have grows := inside.grows after
  refine ⟨_, _, _, _, inside.agrees after, more.trans grows, ?_, rfl, ?_, ?_, ?_⟩
  · rw [inside.result after, declares.result started]
  · exact inside.knows _ (declares.knows _ (knows_started (Interner.find?_intern_self b.interner text)))
  · rw [block]
    refine ⟨_, _, List.mem_append_right _ (List.mem_singleton_self _), ?_⟩
    apply List.mem_append_left
    exact opens.subset (List.mem_append_right _ (List.mem_singleton_self _))
  · intro m member
    obtain ⟨text, declaration⟩ := declared m member
    exact ⟨text, grows.subset declaration⟩

/-- A function is declared before its parameters and its body, and is finished after them. -/
theorem yields_function {body : BuildM Unit} {record : Position → Recording Unit} (text : String)
    (parameters : List (String × Ty)) (returns : Ty)
    (h : ∀ place functions, Simulates place functions body (record place)) :
    Yields place functions (functionNode text parameters returns body)
      (place.function text parameters record) := by
  refine ⟨⟨?_, ?_, ?_, ?_⟩, ?_⟩
  · intro events b agrees
    obtain ⟨events', b', declared, block, after, more, run, run', -⟩ :=
      Simulates.function text parameters returns h agrees
    rw [run, run']
  · intro events b agrees
    obtain ⟨events', b', declared, block, after, more, run, run', known, isBlock, each⟩ :=
      Simulates.function text parameters returns h agrees
    rw [run, run']
    have holds : ∀ e ∈ events', ∃ before, e.Holds before b' := by
      intro e member
      obtain ⟨before, happens⟩ := exists_happens member
      exact ⟨before, after.nodes.holds before e happens⟩
    obtain ⟨_, name, declared₀, body₀, found, known', scope, -⟩ :=
      holds (.function ⟨b.arena.size⟩ place.here text) (more.subset (by simp [begun]))
    rw [known] at known'
    cases known'
    have opens := after.scopes.parent (begun place text events ⟨b.arena.size⟩).1 place.here
      (more.subset (by simp [begun]))
    refine after.finished agrees.scopes.blocks agrees.new_notMem ⟨_, _, found⟩
      (more.subset (by simp [begun])) ?_ ?_ isBlock ?_
    · rw [opens.1, scope]
    · rw [scope]
      rfl
    · intro m member
      obtain ⟨text, declaration⟩ := each m member
      exact ⟨text, _, _, declaration⟩
  · intro events b agrees
    obtain ⟨events', b', declared, block, after, more, run, run', -⟩ :=
      Simulates.function text parameters returns h agrees
    rw [run']
    have first : events <+: (begun place text events ⟨b.arena.size⟩).2 :=
      ((List.prefix_append _ _).trans (List.prefix_append _ _)).trans (List.prefix_append _ _)
    exact (first.trans more).trans (List.prefix_append _ _)
  · intro b other name known
    rw [run_functionNode]
    have block : Yields place functions _ _ := yields_scopedBlock fun place => h place functions
    have declares := simulates_parameters place functions parameters
    exact block.knows _ (declares.knows _ (knows_started (Interner.find?_intern text known)))
  · intro events b agrees
    obtain ⟨events', b', declared, block, after, more, run, run', -⟩ :=
      Simulates.function text parameters returns h agrees
    rw [run']
    refine ⟨?_, agrees.new_notMem, ?_⟩
    · have there := Arena.isSome_kind?.mp (after.nodes.pending _ List.mem_cons_self).1
      rw [nodesIn_concat, ← after.nodes.size]
      exact Nat.lt_of_lt_of_le there (Nat.le_add_right _ _)
    · intro s member
      rcases List.mem_append.mp member with before | new
      · exact after.lists.pending s _ before List.mem_cons_self
      · cases List.mem_singleton.mp new

/-- The node of a struct, not yet emitted. -/
def structNode (text : String) (fields : List (String × Ty)) : BuildM NodeId := do
  let name ← Builder.intern text
  let fields ← fields.mapM fun (field, ty) => fieldDecl field ty
  let node ← alloc (.structDecl name (fields.map Prod.fst))
  setType node .type
  modify fun b =>
    { b with
      returns := (.node node, .struct name) :: b.returns
      structFields := (name, fields.map Prod.snd) :: b.structFields }
  declare name node
  return node

theorem simulates_fields (place : Position) (functions : List NodeId) (fields : List (String × Ty)) :
    Simulates place functions
    (List.map Prod.fst <$> fields.mapM fun (field, ty) => fieldDecl field ty)
    (fields.mapM fun _ => Recording.node []) := by
  induction fields with
  | nil => exact simulates_pure []
  | cons first rest ih =>
    rw [List.mapM_cons, List.mapM_cons]
    have field : ∀ text ty, Yields place functions (Builder.intern text >>= fun name =>
        expr (.fieldDecl name) ty) (Recording.node []) :=
      fun text ty => .interning fun name => yields_expr (.fieldDecl name) ty rfl
    have one : Yields place functions (Prod.fst <$> fieldDecl first.1 first.2) (Recording.node []) :=
      field first.1 first.2
    exact one.toSimulates.bind fun n => ih.bind fun others => simulates_pure (n :: others)

theorem run_structNode {text : String} {fields : List (String × Ty)} {made : List (NodeId × Name × Ty)}
    (run : (fields.mapM fun (field, ty) => fieldDecl field ty).run
      { b with interner := (b.interner.intern text).2 } = (made, b')) :
    let name := (b.interner.intern text).1
    let node : NodeId := ⟨b'.arena.size⟩
    let allocated := b'.allocated (.structDecl name (made.map Prod.fst)) .type
    (structNode text fields).run b = (node, ((declare name node).run { allocated with
      returns := (.node node, .struct name) :: b'.returns
      structFields := (name, made.map Prod.snd) :: b'.structFields }).2) := by
  simp only [structNode, StateT.run_bind, run_intern, pure_bind, run]
  rfl

/-- What is in the record once a struct is declared. -/
theorem Agrees.struct (agrees : Agrees events place functions b) (text : String)
    (fields : List (String × Ty)) : ∃ events' children b', events <+: events' ∧
      Agrees events' place functions b' ∧
      ((structNode text fields).run b).1 = ⟨b'.arena.size⟩ ∧
      (place.struct text fields).run events = (⟨b'.arena.size⟩, events' ++
        [.declaration ⟨b'.arena.size⟩ place.here text true children]) ∧
      Agrees (events' ++ [.declaration ⟨b'.arena.size⟩ place.here text true children]) place functions
        ((structNode text fields).run b).2 := by
  have made := simulates_fields place functions fields
  have interned := agrees.intern text
  have same := made.result interned
  have after := made.agrees interned
  have grows := made.grows interned
  have known := made.knows { b with interner := (b.interner.intern text).2 }
    (Interner.find?_intern_self b.interner text)
  have run : (place.struct text fields).run events =
      let parts := (fields.mapM fun _ => Recording.node []).run events
      (⟨nodesIn parts.2⟩, parts.2 ++ [.declaration ⟨nodesIn parts.2⟩ place.here text true parts.1]) :=
    rfl
  rw [StateT.run_map] at same after known
  cases parts : (fields.mapM fun (field, ty) => fieldDecl field ty).run
    { b with interner := (b.interner.intern text).2 } with
  | mk made b' =>
    rw [parts] at same after known
    have after : Agrees _ place functions b' := after
    have known : b'.interner.find? text = some (b.interner.intern text).1 := known
    rw [run, run_structNode parts]
    dsimp only
    rw [← after.nodes.size, ← same]
    refine ⟨_, _, b', grows, after, rfl, rfl, ?_⟩
    have allocated : ∀ kind ty returns structFields,
        Makes b' kind { b'.allocated kind ty with returns, structFields } :=
      fun _ ty _ _ => ⟨rfl, (Beside.refl _ _).setType ty, rfl, .inl rfl⟩
    exact after.declaration known (allocated (.structDecl _ (made.map Prod.fst)) .type _ _) rfl rfl
      (by simp [Builder.allocated, Attributes.type?_setType]) rfl rfl rfl rfl rfl

/-- A struct is declared after its fields. -/
theorem yields_struct (text : String) (fields : List (String × Ty)) :
    Yields place functions (structNode text fields) (place.struct text fields) := by
  refine ⟨⟨?_, ?_, ?_, ?_⟩, ?_⟩
  · intro events b agrees
    obtain ⟨events', children, b', grows, before, run, run', after⟩ := agrees.struct text fields
    rw [run, run']
  · intro events b agrees
    obtain ⟨events', children, b', grows, before, run, run', after⟩ := agrees.struct text fields
    rw [run']
    exact after
  · intro events b agrees
    obtain ⟨events', children, b', grows, before, run, run', after⟩ := agrees.struct text fields
    rw [run']
    exact grows.trans (List.prefix_append _ _)
  · intro b other name known
    have made := simulates_fields place functions fields
    have kept := made.knows { b with interner := (b.interner.intern text).2 }
      (Interner.find?_intern text known)
    cases parts : (fields.mapM fun (field, ty) => fieldDecl field ty).run
      { b with interner := (b.interner.intern text).2 } with
    | mk made b' =>
      rw [StateT.run_map, parts] at kept
      rw [run_structNode parts]
      exact knows_declare kept
  · intro events b agrees
    obtain ⟨events', children, b', grows, before, run, run', after⟩ := agrees.struct text fields
    rw [run']
    exact before.emittable _ rfl

/-! ## 8. The start -/

theorem agrees_blank : Agrees [] .top [] Builder.blank := by
  have empty : ∀ n : NodeId, Builder.blank.arena.kind? n = none := by
    intro n
    simp [Builder.blank, Arena.kind?, Arena.node?, Arena.empty]
  have outermost : ∀ s : ScopeId, s.index < scopesIn [] → s = .outermost := by
    rintro ⟨i⟩ (known : i < 1)
    obtain rfl : i = 0 := Nat.lt_one_iff.mp known
    rfl
  have unowned : ∀ n s, ¬ Owns [] n s := by
    rintro n s (⟨l, member⟩ | member)
    · cases member
    · cases member
  have nothing : ∀ {e : Event} {q : Prop}, e ∈ [] → q := fun member => absurd member List.not_mem_nil
  have older : ∀ s text, (latest [] s text).isSome → s.index < scopesIn [] :=
    fun _ _ some => absurd some Bool.false_ne_true
  refine ⟨⟨rfl, rfl, rfl, rfl, rfl, fun _ _ => nothing, fun s known => .inl (outermost s known),
    List.pairwise_singleton _ _, ?_, .slnil⟩, ⟨Interner.wellFormed_new, ?_, fun _ _ _ => rfl, older, ?_⟩,
    ⟨rfl, ?_, ?_, ?_, ?_, List.forall_mem_nil _, ?_⟩, ⟨rfl, rfl, fun _ _ _ => nothing,
    fun _ _ => nothing, ?_, ?_, ?_, fun _ _ => nothing, fun _ _ => nothing, .nil⟩, rfl⟩
  · intro s member
    rw [List.mem_singleton.mp member]
    exact Nat.zero_lt_one
  · intro sc member text name found
    rw [List.mem_singleton.mp member]
    rfl
  · intro sc member x inside
    rw [List.mem_singleton.mp member] at inside
    cases inside
  · intro before e happens
    have none := List.prefix_nil.mp happens
    simp at none
  · intro n found
    rw [empty] at found
    cases found
  · intro n denotes
    simp [Builder.blank, Attributes.newScope, Attributes.empty, Attributes.decl?] at denotes
  · intro n s same
    simp [Builder.blank, Attributes.newScope, Attributes.empty, Attributes.bodyScope?] at same
  · intro n found
    rw [empty] at found
    cases found
  · intro n s owns
    exact absurd owns (unowned n s)
  · intro m n s owns
    exact absurd owns (unowned m s)
  · intro s known
    exact .inl (outermost s known)

/-- The host declares several names. -/
theorem simulates_hosts {α : Type} (l : List α) (text : α → String) (kind : HostKind) (ty : α → Ty) :
    Simulates place functions (forIn l PUnit.unit fun a u => do
        let _ ← host (text a) kind (ty a)
        pure (ForInStep.yield u))
      (modify (· ++ l.map fun a => Event.host (text a) kind)) := by
  induction l with
  | nil =>
    refine ⟨fun _ => rfl, fun agrees => ?_, fun _ => List.prefix_append _ _, fun _ _ _ => id⟩
    show Agrees (_ ++ []) _ _ _
    rw [List.append_nil]
    exact agrees
  | cons first rest ih =>
    have spec : (modify (· ++ (first :: rest).map fun a => Event.host (text a) kind) : Recording PUnit) =
        add (.host (text first) kind) >>= fun _ => modify (· ++ rest.map fun a => Event.host (text a) kind) := by
      funext events
      show (PUnit.unit, _) = (PUnit.unit, _)
      simp
    rw [spec, List.forIn_cons, bind_assoc]
    refine Simulates.hosting (text first) kind (ty first) fun _ => ?_
    rw [pure_bind]
    exact ih

/-- The names that the host declares before the first call. -/
theorem agrees_new : Agrees preludeEvents .top [] Builder.new := by
  have values : Simulates .top [] _ _ := simulates_hosts
    [("true", Ty.bool), ("false", .bool), ("null", .null)] Prod.fst .value Prod.snd
  have print : Simulates .top [] _ _ := simulates_builtin "print" .string
  have wait : Simulates .top [] _ _ := simulates_builtin "wait" .void
  have types : Simulates .top [] _ _ := simulates_hosts
    ["Int", "Float", "Bool", "String", "Void", "Type"] id .type fun _ => .type
  have prelude : Simulates .top [] Builder.prelude _ := values.bind fun _ =>
    print.bind fun _ => wait.bind fun _ => types.bind fun _ => simulates_pure PUnit.unit
  exact prelude.agrees agrees_blank

/-! ## 9. Calls -/

/-- A call is noticed by its caller. -/
theorem Simulates.returning {op : BuildM NodeId} {spec : Recording NodeId} (arguments : List NodeId)
    (h : Simulates place functions op spec) :
    Simulates place functions (some <$> op) (Recording.returning arguments spec) := by
  have called : ∀ {events b}, Agrees events place functions b →
      Agrees (events ++ [.call arguments]) place functions b :=
    fun agrees => agrees.notice _ rfl rfl rfl rfl (fun _ _ => rfl) (fun _ => trivial) fun _ => rfl
  refine ⟨fun agrees => congrArg some (h.result (called agrees)), ?_, ?_, h.knows⟩
  · intro events b agrees
    exact (h.agrees (called agrees)).notice (.returned _) rfl rfl rfl rfl (fun _ _ => rfl)
      (fun _ => trivial) fun _ => rfl
  · intro events b agrees
    exact ((List.prefix_append _ _).trans (h.grows (called agrees))).trans (List.prefix_append _ _)

theorem yields_call (callee : String) (arguments : List NodeId) :
    Yields place functions (call callee arguments) (place.call callee arguments) :=
  .bind (yields_reference callee).toSimulates fun n => yields_plain (.callWith n arguments)

theorem yields_declareVar (text : String) (ty : Ty) (initializer : NodeId) :
    Yields place functions (declareVar text ty initializer)
      (place.declaration text false [initializer]) := by
  rw [declareVar_eq]
  exact yields_declaration text ty (.varDecl · initializer) [initializer] (fun _ => rfl)
    (fun _ => rfl) (fun _ => rfl) fun _ => rfl

/-- A body is made by calls. -/
theorem yields_body (place : Position) {body : List Call}
    (h : ∀ place, Simulates place functions (Call.runAll body) (Call.recordAll place body)) :
    Yields place functions (scopedBlock (discard (Call.runAll body)))
      (place.inBlock fun place => discard (Call.recordAll place body)) :=
  yields_scopedBlock fun place => (h place).map

end Recording

open Recording in
mutual

/-- A call does what it records. -/
theorem Call.simulates (place : Position) (functions : List NodeId) :
    (c : Call) → Simulates place functions c.run (c.record place)
  | .builtin text returns => by
    rw [Call.run, Call.record]
    exact (simulates_builtin text returns).bind fun _ => simulates_pure none
  | .setSpan span => by
    rw [Call.run, Call.record]
    exact (simulates_setSpan span).bind fun _ => simulates_pure none
  | .name text => by
    rw [Call.run, Call.record]
    exact ⟨fun _ => rfl, fun agrees => agrees.intern text, fun _ => List.prefix_rfl,
      fun _ _ _ => Interner.find?_intern text⟩
  | .plain e => by
    rw [Call.run, Call.record]
    exact (yields_plain e).returning e.operands
  | .reference text => by
    rw [Call.run, Call.record]
    exact (yields_reference text).returning []
  | .boolean value => by
    rw [Call.run, Call.record]
    exact (yields_reference _).returning []
  | .null => by
    rw [Call.run, Call.record]
    exact (yields_reference "null").returning []
  | .constructor text => by
    rw [Call.run, Call.record]
    exact (yields_constructor text).returning []
  | .call callee arguments => by
    rw [Call.run, Call.record]
    exact (yields_call callee arguments).returning arguments
  | .expression inner => by
    rw [Call.run, Call.record]
    exact (yields_alloc (.expression inner) rfl).emit.returning [inner]
  | .set text value => by
    rw [Call.run, Call.record]
    refine Simulates.returning [value] ?_
    refine (yields_reference text).toSimulates.bind fun target => ?_
    refine (yields_plain (.assign target value)).toSimulates.bind fun assignment => ?_
    exact (yields_alloc (.expression assignment) rfl).emit
  | .var text ty initializer => by
    rw [Call.run, Call.record]
    exact (yields_declareVar text ty initializer).emit.returning [initializer]
  | .launch callee arguments => by
    rw [Call.run, Call.record]
    refine Simulates.returning arguments ?_
    refine (yields_call callee arguments).toSimulates.bind fun called => ?_
    exact (yields_expr (.launch called) .void rfl).emit
  | .launchVar text ty callee arguments => by
    rw [Call.run, Call.record]
    refine Simulates.returning arguments ?_
    refine (yields_call callee arguments).toSimulates.bind fun called => ?_
    refine (yields_declareVar text ty called).toSimulates.bind fun declared => ?_
    exact (yields_expr (.launchDecl declared) .void rfl).emit
  | .ret value => by
    rw [Call.run, Call.record]
    exact (yields_alloc (.ret value) rfl).emit.returning value.toList
  | .block body => by
    rw [Call.run, Call.record]
    exact (yields_body place fun place => Call.simulatesAll place functions body).emit.returning []
  | .protect body => by
    rw [Call.run, Call.record]
    have body := yields_body place fun place => Call.simulatesAll place functions body
    refine Simulates.returning [] (body.toSimulates.bind fun block => ?_)
    exact (yields_alloc (.protect block) rfl).emit
  | .ifThen condition thenBranch => by
    rw [Call.run, Call.record]
    have body := yields_body place fun place => Call.simulatesAll place functions thenBranch
    refine Simulates.returning [condition] (body.toSimulates.bind fun block => ?_)
    exact (yields_alloc (.conditional condition block none) rfl).emit
  | .ifElse condition thenBranch elseBranch => by
    rw [Call.run, Call.record]
    have body := yields_body place fun place => Call.simulatesAll place functions thenBranch
    have body' := yields_body place fun place => Call.simulatesAll place functions elseBranch
    refine Simulates.returning [condition] (body.toSimulates.bind fun block => ?_)
    refine body'.toSimulates.bind fun block' => ?_
    exact (yields_alloc (.conditional condition block (some block')) rfl).emit
  | .whileLoop condition body => by
    rw [Call.run, Call.record]
    have body := yields_body place fun place => Call.simulatesAll place functions body
    refine Simulates.returning [condition] (body.toSimulates.bind fun block => ?_)
    exact (yields_alloc (.loop condition block) rfl).emit
  | .function text parameters returns body => by
    rw [Call.run, Call.record]
    exact (yields_function text parameters returns fun place functions =>
      (Call.simulatesAll place functions body).map).emit.returning []
  | .struct text fields => by
    rw [Call.run, Call.record]
    exact (yields_struct text fields).emit.returning []

/-- Calls do what they record. -/
theorem Call.simulatesAll (place : Position) (functions : List NodeId) :
    (calls : List Call) → Simulates place functions (Call.runAll calls) (Call.recordAll place calls)
  | [] => by
    rw [Call.runAll, Call.recordAll]
    exact simulates_pure []
  | first :: rest => by
    rw [Call.runAll, Call.recordAll]
    exact (Call.simulates place functions first).bind fun result =>
      (Call.simulatesAll place functions rest).bind fun results => simulates_pure _

end

/-! ## 10. Programs -/

namespace Builder

/-- The builder with the root node, which has the statements outside of all blocks. -/
def rooted (b : Builder) : Builder :=
  { b with
    arena := (b.arena.alloc (.root b.statements.reverse) b.span).2
    attrs := b.attrs.setScope ⟨b.arena.size⟩ b.globals.id }

def program (b : Builder) : Program := ⟨b.rooted.arena, b.rooted.attrs, b.interner, ⟨b.arena.size⟩⟩

theorem makes_rooted (b : Builder) : Recording.Makes b (.root b.statements.reverse) b.rooted :=
  ⟨rfl, (Recording.Beside.refl _ _).setScope _, rfl, .inl rfl⟩

end Builder

/-- The builder after some calls. -/
def Call.built (calls : List Call) : Builder := ((Call.runAll calls).run Builder.new).2

open Recording in
/-- The builder agrees with the record of a program. -/
theorem Call.agrees (calls : List Call) : Agrees (Call.events calls) .top [] (Call.built calls) :=
  (Call.simulatesAll .top [] calls).agrees agrees_new

/-- The calls return the nodes that the record says. -/
theorem Call.results_eq (calls : List Call) : ((Call.runAll calls).run Builder.new).1 =
    ((Call.recordAll .top calls).run preludeEvents).1 :=
  (Call.simulatesAll .top [] calls).result Recording.agrees_new

/-- There is a program if there is no problem. -/
theorem Call.program_eq (calls : List Call) : Call.program calls =
    match (problems (Call.events calls)).head? with
    | some problem => .error problem
    | none => .ok (Call.built calls).program := by
  rw [← (Call.agrees calls).error]
  rfl

end Strand
