import Strand.Proofs.Calls.Record
import Strand.Proofs.Scope.Declarations

/-!
# Builders that agree with a record

A builder agrees with a record of events if what the events say is true of it: of its nodes and their
attributes (`Nodes`), of its scopes (`Scopes`), of the names that are known in the open ones (`Names`), of
the statements of its blocks (`Lists`), and of its problem. Whatever the builder does adds an event, and
what the earlier events say stays true. There is one lemma for each thing that a builder can do.
-/

set_option autoImplicit false

namespace Strand

/-! ## 1. Records that grow -/

section Growth

variable (events : List Event) (e : Event)

@[simp] theorem nodesIn_concat :
    nodesIn (events ++ [e]) = nodesIn events + if e.made?.isSome then 1 else 0 := by
  simp [nodesIn, List.countP_append, List.countP_cons]

@[simp] theorem scopesIn_concat :
    scopesIn (events ++ [e]) = scopesIn events + if e.isScope then 1 else 0 := by
  simp only [scopesIn, List.countP_append, List.countP_cons, List.countP_nil]
  omega

@[simp] theorem latest_concat (scope : ScopeId) (text : String) :
    latest (events ++ [e]) scope text = (e.meaning? scope text).or (latest events scope text) := by
  simp only [latest, List.reverse_append, List.reverse_singleton, List.singleton_append,
    List.findSome?_cons]
  cases e.meaning? scope text <;> rfl

@[simp] theorem statementsAt_concat (scope : ScopeId) :
    statementsAt (events ++ [e]) scope = statementsAt events scope ++ (e.statement? scope).toList := by
  simp only [statementsAt, List.filterMap_append]
  cases same : e.statement? scope <;> simp [same]

theorem problemsAfter_append (before later : List Event) :
    problemsAfter before (events ++ later) =
      problemsAfter before events ++ problemsAfter (before ++ events) later := by
  induction events generalizing before with
  | nil => simp [problemsAfter]
  | cons first events ih => simp [problemsAfter, ih]

@[simp] theorem problems_concat :
    problems (events ++ [e]) = problems events ++ (e.problem? events).toList := by
  simp [problems, problemsAfter_append, problemsAfter]

variable {events e}

theorem happens_concat {before : List Event} {other : Event} :
    Happens (events ++ [e]) before other ↔ (before = events ∧ other = e) ∨ Happens events before other := by
  rw [Happens, List.prefix_concat_iff]
  refine or_congr ?_ Iff.rfl
  constructor
  · intro same
    have parts := List.append_inj' same rfl
    exact ⟨parts.1, List.singleton_inj.mp parts.2⟩
  · rintro ⟨rfl, rfl⟩
    rfl

theorem happens_cons {before : List Event} {first : Event} : Happens (first :: events) before e ↔
    (before = [] ∧ e = first) ∨ ∃ rest, before = first :: rest ∧ Happens events rest e := by
  cases before with
  | nil => simp [Happens, List.cons_prefix_cons]
  | cons other rest => simp [Happens, List.cons_prefix_cons, and_assoc]

theorem Happens.mem {before : List Event} (happens : Happens events before e) : e ∈ events :=
  happens.subset (List.mem_append_right _ (List.mem_singleton_self e))

theorem Happens.subset {before : List Event} (happens : Happens events before e) : before ⊆ events :=
  fun _ member => List.IsPrefix.subset happens (List.mem_append_left _ member)

theorem exists_happens (member : e ∈ events) : ∃ before, Happens events before e := by
  obtain ⟨before, after, rfl⟩ := List.append_of_mem member
  exact ⟨before, after, by simp⟩

/-- A name means what an event says. -/
theorem mem_of_latest {scope : ScopeId} {text : String} {meaning : Meaning}
    (found : latest events scope text = some meaning) :
    ∃ e ∈ events, e.meaning? scope text = some meaning := by
  obtain ⟨e, member, means⟩ := List.exists_of_findSome?_eq_some found
  exact ⟨e, List.mem_reverse.mp member, means⟩

end Growth

/-! ## 2. Agreement -/

/-- A node that resolves no name and opens no scope. -/
def NodeKind.isPlain : NodeKind → Bool
  | reference _ | root _ | block _ | funDecl _ _ _ => false
  | _ => true

/-- A declaration of something that can be assigned. -/
def NodeKind.isVariable : NodeKind → Bool
  | varDecl _ _ | parameter _ => true
  | _ => false

/-- A node that says nothing of names: it neither resolves nor declares one, and opens no scope. -/
def NodeKind.isSilent (kind : NodeKind) : Bool := kind.isPlain && !kind.isVariable

/-- The name that a declaration gives a meaning. A field has a name, but that means nothing by itself. -/
def NodeKind.binds? : NodeKind → Option Name
  | varDecl name _ | funDecl name _ _ | parameter name | structDecl name _ => some name
  | _ => none

theorem NodeKind.declaredName?_of_binds? {kind : NodeKind} {name : Name} (binds : kind.binds? = some name) :
    kind.declaredName? = some name := by
  cases kind <;> first | exact binds | cases binds

theorem NodeKind.isPlain_of_isSilent {kind : NodeKind} (silent : kind.isSilent = true) :
    kind.isPlain = true :=
  (Bool.and_eq_true_iff.mp silent).1

/-- What an event says of a builder, after the events before it. -/
def Event.Holds (before : List Event) (b : Builder) : Event → Prop
  | node n children =>
    ∃ kind, b.arena.kind? n = some kind ∧ kind.children = children ∧ kind.isSilent = true
  | reference n path text => ∃ name, b.arena.kind? n = some (.reference name) ∧
      b.interner.find? text = some name ∧
      b.attrs.decl? n = (resolve before path text).map (fun found => found.1.decl name) ∧
      ∀ meaning s, resolve before path text = some (meaning, s) → b.attrs.scope? n = some s ∧
        ∀ d, meaning.decl name = .node d → (b.arena.kind? d).isSome ∧
          b.attrs.scope? d = some s ∧ b.attrs.type? n = b.attrs.type? d
  | declaration n s text isStruct children => ∃ name kind, b.arena.kind? n = some kind ∧
      kind.children = children ∧ kind.isPlain = true ∧ kind.binds? = some name ∧
      kind.isStructDecl = isStruct ∧ b.interner.find? text = some name ∧ b.attrs.scope? n = some s ∧
      (b.attrs.type? n).isSome
  | function n s text => ∃ name declared body, b.arena.kind? n = some (.funDecl name declared body) ∧
      b.interner.find? text = some name ∧ b.attrs.scope? n = some s ∧ (b.attrs.type? n).isSome
  | parameters n s => (∃ name declared body, b.arena.kind? n = some (.funDecl name declared body)) ∧
      b.attrs.bodyScope? n = some s
  | block n s statements => b.arena.kind? n = some (.block statements) ∧ b.attrs.scope? n = some s
  | finished n declared body => ∃ name s inner, b.arena.kind? n = some (.funDecl name declared body) ∧
      b.attrs.bodyScope? n = some s ∧ b.attrs.parent? s = b.attrs.scope? n ∧
      (∃ statements, b.arena.kind? body = some (.block statements)) ∧
      b.attrs.scope? body = some inner ∧ b.attrs.parent? inner = some s ∧
      (b.attrs.scope? n).isSome ∧
      ∀ m ∈ declared, (b.arena.kind? m).isSome ∧ b.attrs.scope? m = some s
  | _ => True

/-- An event that gives a scope to a node, or a statement to a block. -/
def Event.isListed : Event → Bool
  | parameters _ _ | block _ _ _ | statement _ _ => true
  | _ => false

theorem Event.statement?_of_quiet {e : Event} (quiet : e.isListed = false) (s : ScopeId) :
    e.statement? s = none := by
  cases e <;> first | rfl | cases quiet

theorem Event.emitted?_of_quiet {e : Event} (quiet : e.isListed = false) : e.emitted? = none := by
  cases e <;> first | rfl | cases quiet

/-- A block or a function has a scope. -/
def Owns (events : List Event) (n : NodeId) (s : ScopeId) : Prop :=
  (∃ statements, .block n s statements ∈ events) ∨ .parameters n s ∈ events

namespace Recording

/-- The scope table is the one that the record tells of, and so are the open scopes. -/
structure Scopes (events : List Event) (place : Position) (b : Builder) : Prop where
  count : b.attrs.scopeCount = scopesIn events
  inner : b.inner.map OpenScope.id = place.scopes
  globals : b.globals.id = .outermost
  root : b.attrs.rootScope = .outermost
  outermost : b.attrs.parent? .outermost = none
  parent : ∀ s outside, .scope s outside ∈ events →
    b.attrs.parent? s = some outside ∧ outside.index < s.index
  opened : ∀ s, s.index < scopesIn events → s = .outermost ∨ ∃ outside, .scope s outside ∈ events
  path : place.path.Pairwise fun inner outer => outer.index < inner.index
  made : ∀ s ∈ place.path, s.index < scopesIn events
  blocks : place.blocks.Sublist place.scopes

/-- In the open scopes names mean what the record says. -/
structure Names (events : List Event) (b : Builder) : Prop where
  interner : b.interner.WellFormed
  known : ∀ sc ∈ b.inner ++ [b.globals], ∀ text name, b.interner.find? text = some name →
    sc.find? name = (latest events sc.id text).map (Meaning.decl name)
  declared : ∀ text, b.interner.find? text = none → ∀ s, latest events s text = none
  older : ∀ s text, (latest events s text).isSome → s.index < scopesIn events
  interned : ∀ sc ∈ b.inner ++ [b.globals], ∀ x ∈ sc.names, ∃ text, b.interner.find? text = some x.1

/-- What has been said of nodes is true. Only the functions that are still being built lack their
children. -/
structure Nodes (events : List Event) (functions : List NodeId) (b : Builder) : Prop where
  size : b.arena.size = nodesIn events
  holds : ∀ before e, Happens events before e → e.Holds before b
  origin : ∀ n, (b.arena.kind? n).isSome → ∃ e ∈ events, e.made? = some n
  refers : ∀ n, (b.attrs.decl? n).isSome → ∃ name, b.arena.kind? n = some (.reference name)
  bodies : ∀ n s, b.attrs.bodyScope? n = some s → .parameters n s ∈ events
  pending : ∀ n ∈ functions, (b.arena.kind? n).isSome ∧
    ∀ e ∈ events, ∀ children, e.completed? ≠ some (n, children)
  complete : ∀ n, (b.arena.kind? n).isSome →
    n ∈ functions ∨ ∃ e ∈ events, ∃ children, e.completed? = some (n, children)

/-- The blocks have the statements that the record says, the closed ones for good, and no statement has
gone to two places. -/
structure Lists (events : List Event) (place : Position) (functions : List NodeId) (b : Builder) :
    Prop where
  blocks : b.blocks.map List.reverse = place.blocks.map (statementsAt events)
  bottom : b.statements.reverse = statementsAt events .outermost
  closed : ∀ n s statements, .block n s statements ∈ events →
    s ∉ place.blocks ∧ s ≠ .outermost ∧ statements = statementsAt events s
  parameters : ∀ n s, .parameters n s ∈ events →
    s ∉ place.blocks ∧ s ≠ .outermost ∧ statementsAt events s = []
  owned : ∀ n s, Owns events n s → s.index < scopesIn events
  owner : ∀ m n s, Owns events m s → Owns events n s → m = n
  owners : ∀ s, s.index < scopesIn events → s = .outermost ∨ s ∈ place.scopes ∨ ∃ n, Owns events n s
  bound : ∀ s n, .statement s n ∈ events → s.index < scopesIn events ∧ n.index < nodesIn events
  pending : ∀ s n, .statement s n ∈ events → n ∉ functions
  once : (events.filterMap Event.emitted?).Nodup

/-- A builder agrees with a record. -/
structure Agrees (events : List Event) (place : Position) (functions : List NodeId) (b : Builder) :
    Prop where
  scopes : Scopes events place b
  names : Names events b
  nodes : Nodes events functions b
  lists : Lists events place functions b
  error : b.error = (problems events).head?

/-! ## 3. What stays true -/

/-- The attributes are the same but for those of one node. -/
structure Beside (n : NodeId) (attrs attrs' : Attributes) : Prop where
  parents : attrs'.parents = attrs.parents
  root : attrs'.rootScope = attrs.rootScope
  scope : ∀ m ≠ n, attrs'.scope? m = attrs.scope? m
  decl : ∀ m ≠ n, attrs'.decl? m = attrs.decl? m
  type : ∀ m ≠ n, attrs'.type? m = attrs.type? m
  body : ∀ m, attrs'.bodyScope? m = attrs.bodyScope? m

namespace Beside

variable {n : NodeId} {attrs attrs' : Attributes}

theorem refl (n : NodeId) (attrs : Attributes) : Beside n attrs attrs :=
  ⟨rfl, rfl, fun _ _ => rfl, fun _ _ => rfl, fun _ _ => rfl, fun _ => rfl⟩

theorem setType (h : Beside n attrs attrs') (ty : Ty) : Beside n attrs (attrs'.setType n ty) := by
  refine ⟨h.parents, h.root, h.scope, h.decl, ?_, h.body⟩
  intro m other
  rw [Attributes.type?_setType, if_neg other, h.type m other]

theorem setScope (h : Beside n attrs attrs') (s : ScopeId) :
    Beside n attrs (attrs'.setScope n s) := by
  refine ⟨h.parents, h.root, ?_, h.decl, h.type, h.body⟩
  intro m other
  rw [Attributes.scope?_setScope, if_neg other, h.scope m other]

theorem setDecl (h : Beside n attrs attrs') (d : Decl) : Beside n attrs (attrs'.setDecl n d) := by
  refine ⟨h.parents, h.root, h.scope, ?_, h.type, h.body⟩
  intro m other
  rw [Attributes.decl?_setDecl, if_neg other, h.decl m other]

theorem parent? (h : Beside n attrs attrs') (s : ScopeId) : attrs'.parent? s = attrs.parent? s := by
  simp only [Attributes.parent?, h.parents]

theorem scopeCount (h : Beside n attrs attrs') : attrs'.scopeCount = attrs.scopeCount := by
  simp only [Attributes.scopeCount, h.parents]

end Beside

/-- The nodes of `b` are nodes of `b'`, and what has been found out about them stays. -/
structure Keeps (b b' : Builder) : Prop where
  kind : ∀ n kind, b.arena.kind? n = some kind → b'.arena.kind? n = some kind
  scope : ∀ n, (b.arena.kind? n).isSome → b'.attrs.scope? n = b.attrs.scope? n
  decl : ∀ n, (b.arena.kind? n).isSome → b'.attrs.decl? n = b.attrs.decl? n
  type : ∀ n, (b.arena.kind? n).isSome → b'.attrs.type? n = b.attrs.type? n
  body : ∀ n s, (b.arena.kind? n).isSome → b.attrs.bodyScope? n = some s →
    b'.attrs.bodyScope? n = some s
  parent : ∀ s outside, b.attrs.parent? s = some outside → b'.attrs.parent? s = some outside
  interner : ∀ text name, b.interner.find? text = some name → b'.interner.find? text = some name

variable {events : List Event} {place : Position} {functions : List NodeId} {b b' : Builder} {e : Event}

theorem Keeps.isSome (keeps : Keeps b b') {n : NodeId} (found : (b.arena.kind? n).isSome) :
    (b'.arena.kind? n).isSome := by
  obtain ⟨kind, found⟩ := Option.isSome_iff_exists.mp found
  rw [keeps.kind n kind found]
  rfl

/-- What an event says stays true. -/
theorem holds_of_keeps {before : List Event} (holds : e.Holds before b) (keeps : Keeps b b') :
    e.Holds before b' := by
  cases e with
  | node n children =>
    obtain ⟨kind, found, rest⟩ := holds
    exact ⟨kind, keeps.kind n kind found, rest⟩
  | reference n path text =>
    obtain ⟨name, found, known, decl, resolved⟩ := holds
    have here : (b.arena.kind? n).isSome := by simp [found]
    refine ⟨name, keeps.kind n _ found, keeps.interner text name known, ?_, ?_⟩
    · rw [keeps.decl n here, decl]
    · intro meaning s same
      obtain ⟨scope, declares⟩ := resolved meaning s same
      refine ⟨(keeps.scope n here).trans scope, ?_⟩
      intro d isNode
      obtain ⟨there, scope', type⟩ := declares d isNode
      refine ⟨keeps.isSome there, (keeps.scope d there).trans scope', ?_⟩
      rw [keeps.type n here, keeps.type d there, type]
  | declaration n s text isStruct children =>
    obtain ⟨name, kind, found, rest, plain, declares, struct, known, scope, type⟩ := holds
    have here : (b.arena.kind? n).isSome := by simp [found]
    exact ⟨name, kind, keeps.kind n _ found, rest, plain, declares, struct,
      keeps.interner text name known, (keeps.scope n here).trans scope,
      (congrArg Option.isSome (keeps.type n here)).trans type⟩
  | function n s text =>
    obtain ⟨name, declared, body, found, known, scope, type⟩ := holds
    have here : (b.arena.kind? n).isSome := by simp [found]
    exact ⟨name, declared, body, keeps.kind n _ found, keeps.interner text name known,
      (keeps.scope n here).trans scope, (congrArg Option.isSome (keeps.type n here)).trans type⟩
  | parameters n s =>
    obtain ⟨⟨name, declared, body, found⟩, bodyScope⟩ := holds
    have here : (b.arena.kind? n).isSome := by simp [found]
    exact ⟨⟨name, declared, body, keeps.kind n _ found⟩, keeps.body n s here bodyScope⟩
  | block n s statements =>
    have here : (b.arena.kind? n).isSome := by simp [holds.1]
    exact ⟨keeps.kind n _ holds.1, (keeps.scope n here).trans holds.2⟩
  | finished n declared body =>
    obtain ⟨name, s, inner, found, bodyScope, outside, ⟨statements, block⟩, scope, parent, own,
      each⟩ := holds
    have here : (b.arena.kind? n).isSome := by simp [found]
    have there : (b.arena.kind? body).isSome := by simp [block]
    obtain ⟨around, own⟩ := Option.isSome_iff_exists.mp own
    have own' := (keeps.scope n here).trans own
    refine ⟨name, s, inner, keeps.kind n _ found, keeps.body n s here bodyScope, ?_,
      ⟨statements, keeps.kind body _ block⟩, (keeps.scope body there).trans scope,
      keeps.parent _ _ parent, by simp [own'], ?_⟩
    · rw [own', keeps.parent s around (outside.trans own)]
    · intro m member
      obtain ⟨known, scope⟩ := each m member
      exact ⟨keeps.isSome known, (keeps.scope m known).trans scope⟩
  | _ => trivial

/-- A node that is complete is there, and its children are those of its kind. -/
theorem children_of_completed {before : List Event} {n : NodeId} {children : List NodeId}
    (holds : e.Holds before b) (completed : e.completed? = some (n, children)) :
    ∃ kind, b.arena.kind? n = some kind ∧ kind.children = children ∧ ∀ statements,
      kind ≠ .root statements := by
  cases e with
  | node n' children' =>
    cases completed
    obtain ⟨kind, found, same, silent⟩ := holds
    exact ⟨kind, found, same, by rintro statements rfl; cases silent⟩
  | reference n' path text =>
    cases completed
    obtain ⟨name, found, -⟩ := holds
    exact ⟨_, found, rfl, nofun⟩
  | declaration n' s text isStruct children' =>
    cases completed
    obtain ⟨name, kind, found, same, plain, -⟩ := holds
    exact ⟨kind, found, same, by rintro statements rfl; cases plain⟩
  | block n' s statements =>
    cases completed
    exact ⟨_, holds.1, rfl, nofun⟩
  | finished n' declared body =>
    cases completed
    obtain ⟨name, s, inner, found, -⟩ := holds
    exact ⟨_, found, rfl, nofun⟩
  | _ => cases completed

theorem isSome_of_completed {before : List Event} {n : NodeId} {children : List NodeId}
    (holds : e.Holds before b) (completed : e.completed? = some (n, children)) :
    (b.arena.kind? n).isSome := by
  obtain ⟨kind, found, -⟩ := children_of_completed holds completed
  simp [found]

/-- A new node, of which alone something new has been found out. Only a reference denotes something. -/
structure Makes (b : Builder) (kind : NodeKind) (b' : Builder) : Prop where
  arena : b'.arena = (b.arena.alloc kind b.span).2
  attrs : Beside ⟨b.arena.size⟩ b.attrs b'.attrs
  interner : b'.interner = b.interner
  decl : b'.attrs.decl? ⟨b.arena.size⟩ = b.attrs.decl? ⟨b.arena.size⟩ ∨ ∃ name, kind = .reference name

theorem Makes.kind? {kind : NodeKind} (made : Makes b kind b') (n : NodeId) :
    b'.arena.kind? n = if n = ⟨b.arena.size⟩ then some kind else b.arena.kind? n := by
  rw [made.arena, Arena.kind?_alloc]

theorem Makes.own {kind : NodeKind} (made : Makes b kind b') :
    b'.arena.kind? ⟨b.arena.size⟩ = some kind := by
  rw [made.kind?, if_pos rfl]

theorem Makes.keeps {kind : NodeKind} (made : Makes b kind b') : Keeps b b' := by
  have other : ∀ n, (b.arena.kind? n).isSome → n ≠ ⟨b.arena.size⟩ := by
    intro n found
    obtain ⟨kind', found⟩ := Option.isSome_iff_exists.mp found
    exact Arena.ne_of_kind? found
  refine ⟨?_, fun n found => made.attrs.scope n (other n found),
    fun n found => made.attrs.decl n (other n found), fun n found => made.attrs.type n (other n found),
    fun n s found same => (made.attrs.body n).trans same,
    fun s outside same => (made.attrs.parent? s).trans same, fun text name found => ?_⟩
  · intro n kind' found
    rw [made.kind?, if_neg (Arena.ne_of_kind? found), found]
  · rw [made.interner, found]

/-- A function that has been declared gets its parameters and its body. -/
structure Finishes (b : Builder) (f : NodeId) (name : Name) (declared : List NodeId) (body : NodeId)
    (b' : Builder) : Prop where
  found : ∃ declared₀ body₀, b.arena.kind? f = some (.funDecl name declared₀ body₀)
  arena : b'.arena = b.arena.setKind f (.funDecl name declared body)
  attrs : b'.attrs = b.attrs
  interner : b'.interner = b.interner

namespace Finishes

variable {f body : NodeId} {name : Name} {declared : List NodeId}

theorem kind? (h : Finishes b f name declared body b') (n : NodeId) : b'.arena.kind? n =
    if n = f then some (.funDecl name declared body) else b.arena.kind? n := by
  obtain ⟨declared₀, body₀, found⟩ := h.found
  rw [h.arena, Arena.kind?_setKind]
  split
  · next same => rw [same, found, Option.map_some]
  · rfl

theorem isSome (h : Finishes b f name declared body b') (n : NodeId) :
    (b'.arena.kind? n).isSome = (b.arena.kind? n).isSome := by
  obtain ⟨declared₀, body₀, found⟩ := h.found
  rw [h.kind?]
  split
  · next same =>
    rw [same, found]
    rfl
  · rfl

/-- A node that is no function has the shape that it had. -/
theorem other (h : Finishes b f name declared body b') {n : NodeId} {kind : NodeKind}
    (there : b.arena.kind? n = some kind) (differs : ∀ a p q, kind ≠ .funDecl a p q) :
    b'.arena.kind? n = some kind := by
  obtain ⟨declared₀, body₀, found⟩ := h.found
  rw [h.kind?, if_neg, there]
  rintro rfl
  rw [found] at there
  cases there
  exact differs _ _ _ rfl

/-- What an event says stays true if it has not completed the function. -/
theorem holds (h : Finishes b f name declared body b') {before : List Event}
    (holds : e.Holds before b) (incomplete : ∀ children, e.completed? ≠ some (f, children)) :
    e.Holds before b' := by
  have attrs := h.attrs
  have interner := h.interner
  cases e with
  | node n children =>
    obtain ⟨kind, there, same, silent⟩ := holds
    exact ⟨kind, h.other there (by rintro a p q rfl; cases silent), same, silent⟩
  | reference n path text =>
    obtain ⟨known, there, text', decl, resolved⟩ := holds
    rw [← attrs] at decl resolved
    refine ⟨known, h.other there nofun, interner ▸ text', decl, ?_⟩
    intro meaning s same
    obtain ⟨scope, declares⟩ := resolved meaning s same
    refine ⟨scope, ?_⟩
    intro d isNode
    obtain ⟨there, rest⟩ := declares d isNode
    exact ⟨(h.isSome d).trans there, rest⟩
  | declaration n s text isStruct children =>
    obtain ⟨known, kind, there, same, plain, declares, struct, text', rest⟩ := holds
    rw [← attrs] at rest
    exact ⟨known, kind, h.other there (by rintro a p q rfl; cases plain), same, plain, declares,
      struct, interner ▸ text', rest⟩
  | function n s text =>
    obtain ⟨known, declared', body', there, text', rest⟩ := holds
    rw [← attrs] at rest
    by_cases same : n = f
    · subst same
      obtain ⟨declared₀, body₀, found⟩ := h.found
      rw [found] at there
      cases there
      exact ⟨name, declared, body, (h.kind? n).trans (if_pos rfl), interner ▸ text', rest⟩
    · exact ⟨known, declared', body', (h.kind? n).trans ((if_neg same).trans there), interner ▸ text',
        rest⟩
  | parameters n s =>
    obtain ⟨⟨known, declared', body', there⟩, bodyScope⟩ := holds
    by_cases same : n = f
    · exact ⟨⟨_, _, _, (h.kind? n).trans (if_pos same)⟩, attrs ▸ bodyScope⟩
    · exact ⟨⟨_, _, _, (h.kind? n).trans ((if_neg same).trans there)⟩, attrs ▸ bodyScope⟩
  | block n s statements => exact ⟨h.other holds.1 nofun, attrs ▸ holds.2⟩
  | finished n declared' body' =>
    obtain ⟨known, s, inner, there, bodyScope, outside, ⟨statements, block⟩, scope, parent, own,
      each⟩ := holds
    have differs : n ≠ f := by
      rintro rfl
      exact incomplete _ rfl
    rw [← attrs] at bodyScope outside scope parent own each
    refine ⟨known, s, inner, (h.kind? n).trans ((if_neg differs).trans there), bodyScope, outside,
      ⟨statements, h.other block nofun⟩, scope, parent, own, ?_⟩
    intro m member
    exact ⟨(h.isSome m).trans (each m member).1, (each m member).2⟩
  | _ => trivial

end Finishes

/-! ## 4. The parts, event by event -/

namespace Scopes

/-- An event that opens no scope, while some scopes may be closed. -/
theorem add {place' : Position} (h : Scopes events place b) (e : Event) (quiet : e.isScope = false)
    (parents : b'.attrs.parents = b.attrs.parents) (root : b'.attrs.rootScope = b.attrs.rootScope)
    (inner : b'.inner.map OpenScope.id = place'.scopes) (globals : b'.globals.id = b.globals.id)
    (outside : place'.scopes.Sublist place.scopes) (blocks : place'.blocks.Sublist place'.scopes) :
    Scopes (events ++ [e]) place' b' := by
  have parent? : ∀ s, b'.attrs.parent? s = b.attrs.parent? s := by
    intro s
    simp only [Attributes.parent?, parents]
  have count : scopesIn (events ++ [e]) = scopesIn events := by
    rw [scopesIn_concat, quiet]
    rfl
  have old : ∀ s outside, .scope s outside ∈ events ++ [e] → .scope s outside ∈ events := by
    intro s outside member
    rcases List.mem_append.mp member with before | new
    · exact before
    · rw [← List.mem_singleton.mp new] at quiet
      cases quiet
  have path : place'.path.Sublist place.path := outside.append_right [.outermost]
  refine ⟨?_, inner, globals.trans h.globals, root.trans h.root, (parent? _).trans h.outermost, ?_, ?_,
    h.path.sublist path, ?_, blocks⟩
  · rw [count, ← h.count]
    simp only [Attributes.scopeCount, parents]
  · intro s outside member
    rw [parent?]
    exact h.parent s outside (old s outside member)
  · intro s inside
    rw [count] at inside
    rcases h.opened s inside with outermost | ⟨outside, member⟩
    · exact .inl outermost
    · exact .inr ⟨outside, List.mem_append_left _ member⟩
  · intro s member
    rw [count]
    exact h.made s (path.subset member)

/-- An event that opens no scope, while nothing happens to the scopes. -/
theorem same (h : Scopes events place b) (e : Event) (quiet : e.isScope = false)
    (parents : b'.attrs.parents = b.attrs.parents) (root : b'.attrs.rootScope = b.attrs.rootScope)
    (inner : b'.inner.map OpenScope.id = b.inner.map OpenScope.id)
    (globals : b'.globals.id = b.globals.id) : Scopes (events ++ [e]) place b' :=
  h.add e quiet parents root (inner.trans h.inner) globals (.refl _) h.blocks

/-- A scope opens inside the innermost one. -/
theorem enter {place' : Position} (h : Scopes events place b)
    (attrs : b'.attrs.parents = (b.attrs.newScope (some place.here)).2.parents)
    (root : b'.attrs.rootScope = b.attrs.rootScope)
    (inner : b'.inner.map OpenScope.id = ⟨scopesIn events⟩ :: b.inner.map OpenScope.id)
    (globals : b'.globals.id = b.globals.id) (inside : place'.scopes = ⟨scopesIn events⟩ :: place.scopes)
    (blocks : place'.blocks.Sublist place'.scopes) :
    Scopes (events ++ [.scope ⟨scopesIn events⟩ place.here]) place' b' := by
  have count : scopesIn (events ++ [.scope ⟨scopesIn events⟩ place.here]) = scopesIn events + 1 := by
    simp [Event.isScope]
  have fresh : (b.attrs.newScope (some place.here)).1 = ⟨scopesIn events⟩ := by
    rw [← h.count]
    rfl
  have parent? : ∀ s, b'.attrs.parent? s =
      if s = ⟨scopesIn events⟩ then some place.here else b.attrs.parent? s := by
    intro s
    rw [← fresh, ← Attributes.parent?_newScope]
    simp only [Attributes.parent?, attrs]
  have path : place'.path = ⟨scopesIn events⟩ :: place.path := by
    simp only [Position.path, inside, List.cons_append]
  have here : place.here ∈ place.path := by
    simp only [Position.here, Position.path]
    cases place.scopes with
    | nil => exact List.mem_cons_self
    | cons first outer => exact List.mem_cons_self
  have pos : (ScopeId.outermost).index < scopesIn events := by
    apply h.made
    exact List.mem_append_right _ (List.mem_singleton_self _)
  refine ⟨?_, ?_, globals.trans h.globals, root.trans h.root, ?_, ?_, ?_, ?_, ?_, blocks⟩
  · rw [count, ← h.count, Attributes.scopeCount, attrs]
    exact Attributes.Only.scopeCount_newScope b.attrs _
  · rw [inner, h.inner, inside]
  · rw [parent?, if_neg, h.outermost]
    intro same
    rw [same] at pos
    exact Nat.lt_irrefl _ pos
  · intro s outside member
    rcases List.mem_append.mp member with before | new
    · obtain ⟨parent, older⟩ := h.parent s outside before
      rw [parent?, if_neg, parent]
      · exact ⟨rfl, older⟩
      · rintro rfl
        have known := Attributes.lt_of_parent? parent
        rw [h.count] at known
        exact Nat.lt_irrefl _ known
    · cases List.mem_singleton.mp new
      rw [parent?, if_pos rfl]
      exact ⟨rfl, h.made _ here⟩
  · intro s known
    rw [count] at known
    rcases Nat.lt_succ_iff_lt_or_eq.mp known with before | new
    · rcases h.opened s before with outermost | ⟨outside, member⟩
      · exact .inl outermost
      · exact .inr ⟨outside, List.mem_append_left _ member⟩
    · refine .inr ⟨place.here, List.mem_append_right _ (List.mem_singleton.mpr ?_)⟩
      rw [← new]
  · rw [path, List.pairwise_cons]
    exact ⟨h.made, h.path⟩
  · intro s member
    rw [count]
    rw [path] at member
    rcases List.mem_cons.mp member with rfl | before
    · exact Nat.lt_succ_self _
    · exact Nat.lt_succ_of_lt (h.made s before)

theorem here_eq (h : Scopes events place b) : b.currentScope.id = place.here := by
  have inner := h.inner
  rw [Position.here, ← inner]
  unfold Builder.currentScope
  cases b.inner with
  | nil => exact h.globals
  | cons first outer => rfl

theorem path_eq (h : Scopes events place b) :
    (b.inner ++ [b.globals]).map OpenScope.id = place.path := by
  rw [List.map_append, h.inner, List.map_singleton, h.globals, Position.path]

end Scopes

namespace Names

theorem scopesIn_le (events : List Event) (e : Event) : scopesIn events ≤ scopesIn (events ++ [e]) := by
  rw [scopesIn_concat]
  exact Nat.le_add_right _ _

/-- An event that gives no name a meaning, while scopes are closed, or new ones opened. -/
theorem add (h : Names events b) (e : Event) (silent : ∀ s text, e.meaning? s text = none)
    (interner : b'.interner = b.interner)
    (opens : ∀ sc ∈ b'.inner ++ [b'.globals], sc ∈ b.inner ++ [b.globals] ∨
      sc.names = [] ∧ scopesIn events ≤ sc.id.index) : Names (events ++ [e]) b' := by
  refine ⟨interner ▸ h.interner, ?_, ?_, ?_, ?_⟩
  · intro sc member text name found
    rw [latest_concat, silent, Option.none_or]
    rw [interner] at found
    rcases opens sc member with old | ⟨empty, new⟩
    · exact h.known sc old text name found
    · have unknown : latest events sc.id text = none := by
        apply Option.not_isSome_iff_eq_none.mp
        intro known
        exact absurd (h.older sc.id text known) (Nat.not_lt.mpr new)
      rw [unknown, OpenScope.find?, empty]
      rfl
  · intro text missing s
    rw [latest_concat, silent, Option.none_or]
    rw [interner] at missing
    exact h.declared text missing s
  · intro s text known
    rw [latest_concat, silent, Option.none_or] at known
    exact Nat.lt_of_lt_of_le (h.older s text known) (scopesIn_le events e)
  · intro sc member x inside
    rw [interner]
    rcases opens sc member with old | ⟨empty, -⟩
    · exact h.interned sc old x inside
    · rw [empty] at inside
      cases inside

/-- An event that gives no name a meaning, while nothing happens to the scopes. -/
theorem same (h : Names events b) (e : Event) (silent : ∀ s text, e.meaning? s text = none)
    (interner : b'.interner = b.interner) (inner : b'.inner = b.inner)
    (globals : b'.globals = b.globals) : Names (events ++ [e]) b' := by
  apply h.add e silent interner
  intro sc member
  rw [inner, globals] at member
  exact .inl member

/-- One more text has a name, which no scope knows. -/
theorem intern (h : Names events b) (text : String) :
    Names events { b with interner := (b.interner.intern text).2 } := by
  have before : ∀ other name, (b.interner.intern text).2.find? other = some name →
      b.interner.find? other = some name ∨ b.interner.find? other = none ∧
        ∀ known name', b.interner.find? known = some name' → name' ≠ name := by
    intro other name found
    cases old : b.interner.find? other with
    | some name' =>
      rw [Interner.find?_intern text old] at found
      cases found
      exact .inl rfl
    | none =>
      refine .inr ⟨rfl, ?_⟩
      rintro known name' there rfl
      have wf := h.interner.intern text
      have first := (Interner.find?_eq_some_iff wf).mp (Interner.find?_intern text there)
      have second := (Interner.find?_eq_some_iff wf).mp found
      rw [first] at second
      cases second
      rw [there] at old
      cases old
  refine ⟨h.interner.intern text, ?_, ?_, h.older, ?_⟩
  · intro sc member other name found
    rcases before other name found with known | ⟨missing, new⟩
    · exact h.known sc member other name known
    · rw [h.declared other missing, Option.map_none]
      -- a name that a scope knows is the name of a text
      cases known : sc.find? name with
      | none => rfl
      | some d =>
        obtain ⟨text', there⟩ := h.interned sc member (name, d) (mem_of_lookup known)
        exact absurd rfl (new text' name there)
  · intro other missing s
    cases old : b.interner.find? other with
    | none => exact h.declared other old s
    | some name =>
      rw [Interner.find?_intern text old] at missing
      cases missing
  · intro sc member x inside
    obtain ⟨other, found⟩ := h.interned sc member x inside
    exact ⟨other, Interner.find?_intern text found⟩

/-- A name gets a meaning in one of the open scopes. -/
theorem declare (h : Names events b) (e : Event) {s : ScopeId} {text : String} {name : Name}
    {meaning : Meaning} (known : b.interner.find? text = some name) (made : s.index < scopesIn events)
    (means : ∀ s' text', e.meaning? s' text' = if s = s' ∧ text = text' then some meaning else none)
    (interner : b'.interner = b.interner)
    (opens : ∀ sc ∈ b'.inner ++ [b'.globals], (sc ∈ b.inner ++ [b.globals] ∧ sc.id ≠ s) ∨
      ∃ old ∈ b.inner ++ [b.globals], old.id = s ∧ sc = old.insert name (meaning.decl name)) :
    Names (events ++ [e]) b' := by
  have same : ∀ text', b.interner.find? text' = some name → text' = text := by
    intro text' found
    have first := (Interner.find?_eq_some_iff h.interner).mp found
    rw [(Interner.find?_eq_some_iff h.interner).mp known] at first
    exact (Option.some.inj first).symm
  refine ⟨interner ▸ h.interner, ?_, ?_, ?_, ?_⟩
  · intro sc member text' name' found
    rw [interner] at found
    rw [latest_concat, means]
    rcases opens sc member with ⟨old, other⟩ | ⟨old, there, rfl, rfl⟩
    · rw [if_neg fun both => other both.1.symm, Option.none_or]
      exact h.known sc old text' name' found
    · have before := h.known old there text' name' found
      simp only [OpenScope.find?, OpenScope.insert, List.lookup_cons] at before ⊢
      by_cases names : name' = name
      · subst names
        obtain rfl := same text' found
        simp
      · have texts : text ≠ text' := by
          rintro rfl
          exact names (Option.some.inj (found.symm.trans known))
        rw [beq_eq_false_iff_ne.mpr names, if_neg fun both => texts both.2, Option.none_or]
        exact before
  · intro text' missing s'
    rw [interner] at missing
    rw [latest_concat, means, if_neg, Option.none_or]
    · exact h.declared text' missing s'
    · rintro ⟨-, rfl⟩
      rw [known] at missing
      cases missing
  · intro s' text' isSome
    rw [latest_concat, means] at isSome
    apply Nat.lt_of_lt_of_le ?_ (scopesIn_le events e)
    by_cases both : s = s' ∧ text = text'
    · exact both.1 ▸ made
    · rw [if_neg both, Option.none_or] at isSome
      exact h.older s' text' isSome
  · intro sc member x inside
    rw [interner]
    rcases opens sc member with ⟨old, -⟩ | ⟨old, there, -, rfl⟩
    · exact h.interned sc old x inside
    · rcases List.mem_cons.mp inside with rfl | before
      · exact ⟨text, known⟩
      · exact h.interned old there x before

/-- What a name denotes here. -/
theorem resolve_eq (h : Names events b) (scopes : Scopes events place b) {text : String} {name : Name}
    (known : b.interner.find? text = some name) :
    b.resolve name =
      (resolve events place.path text).map fun found => (found.1.decl name, found.2) := by
  rw [Builder.resolve, resolve, ← scopes.path_eq]
  generalize same : b.inner ++ [b.globals] = opens
  have all : ∀ sc ∈ opens, sc.find? name = (latest events sc.id text).map (Meaning.decl name) := by
    intro sc member
    exact h.known sc (same ▸ member) text name known
  clear same
  induction opens with
  | nil => rfl
  | cons sc opens ih =>
    have first := all sc List.mem_cons_self
    have others := ih fun sc member => all sc (List.mem_cons_of_mem _ member)
    simp only [List.findSome?_cons, List.map_cons, first]
    cases latest events sc.id text with
    | some meaning => rfl
    | none => exact others

end Names

namespace Nodes

/-- What is no node denotes nothing. -/
theorem fresh (h : Nodes events functions b) {n : NodeId} (missing : b.arena.kind? n = none) :
    b.attrs.decl? n = none := by
  apply Option.not_isSome_iff_eq_none.mp
  intro denotes
  obtain ⟨name, found⟩ := h.refers n denotes
  rw [found] at missing
  cases missing

/-- An event that makes no node and completes none. -/
theorem add (h : Nodes events functions b) (e : Event) (makes : e.made? = none)
    (completes : e.completed? = none) (arena : b'.arena = b.arena)
    (decl : ∀ n, b'.attrs.decl? n = b.attrs.decl? n)
    (bodies : ∀ n s, b'.attrs.bodyScope? n = some s →
      b.attrs.bodyScope? n = some s ∨ e = .parameters n s)
    (keeps : Keeps b b') (holds : e.Holds events b') : Nodes (events ++ [e]) functions b' := by
  refine ⟨?_, ?_, ?_, ?_, ?_, ?_, ?_⟩
  · rw [arena, h.size, nodesIn_concat, makes]
    rfl
  · intro before other happens
    rcases happens_concat.mp happens with ⟨rfl, rfl⟩ | earlier
    · exact holds
    · exact holds_of_keeps (h.holds before other earlier) keeps
  · intro n found
    rw [arena] at found
    obtain ⟨other, member, made⟩ := h.origin n found
    exact ⟨other, List.mem_append_left _ member, made⟩
  · intro n denotes
    rw [decl] at denotes
    rw [arena]
    exact h.refers n denotes
  · intro n s same
    rcases bodies n s same with old | new
    · exact List.mem_append_left _ (h.bodies n s old)
    · exact List.mem_append_right _ (List.mem_singleton.mpr new.symm)
  · intro n member
    obtain ⟨found, open_⟩ := h.pending n member
    refine ⟨keeps.isSome found, ?_⟩
    intro other member children
    rcases List.mem_append.mp member with before | new
    · exact open_ other before children
    · rw [List.mem_singleton.mp new, completes]
      exact nofun
  · intro n found
    rw [arena] at found
    exact (h.complete n found).imp_right fun ⟨other, member, children, same⟩ =>
      ⟨other, List.mem_append_left _ member, children, same⟩

/-- A new node, which is complete, or a function that is not. -/
theorem make {kind : NodeKind} {functions' : List NodeId} (h : Nodes events functions b)
    (made : Makes b kind b') (e : Event) (is : e.made? = some ⟨b.arena.size⟩)
    (holds : e.Holds events b')
    (completes : (∃ children, e.completed? = some (⟨b.arena.size⟩, children)) ∧
        functions' = functions ∨
      e.completed? = none ∧ functions' = ⟨b.arena.size⟩ :: functions) :
    Nodes (events ++ [e]) functions' b' := by
  have keeps := made.keeps
  -- what was there is not the new node
  have old : ∀ n, (b.arena.kind? n).isSome → n ≠ ⟨b.arena.size⟩ := by
    rintro n found rfl
    rw [Arena.kind?_size] at found
    cases found
  have back : ∀ n, (b'.arena.kind? n).isSome → n = ⟨b.arena.size⟩ ∨ (b.arena.kind? n).isSome := by
    intro n found
    rw [made.kind?] at found
    split at found
    · next same => exact .inl same
    · exact .inr found
  have open_ : ∀ n ∈ functions, (b'.arena.kind? n).isSome ∧
      ∀ other ∈ events ++ [e], ∀ children, other.completed? ≠ some (n, children) := by
    intro n member
    obtain ⟨found, open_⟩ := h.pending n member
    refine ⟨keeps.isSome found, ?_⟩
    intro other member children same
    rcases List.mem_append.mp member with before | new
    · exact open_ other before children same
    · rw [List.mem_singleton.mp new] at same
      rcases completes with ⟨⟨children', completes⟩, -⟩ | ⟨completes, -⟩
      · rw [completes] at same
        cases same
        exact old _ found rfl
      · rw [completes] at same
        cases same
  refine ⟨?_, ?_, ?_, ?_, ?_, ?_, ?_⟩
  · rw [made.arena, nodesIn_concat, is, ← h.size]
    simp [Arena.alloc, Arena.size]
  · intro before other happens
    rcases happens_concat.mp happens with ⟨rfl, rfl⟩ | earlier
    · exact holds
    · exact holds_of_keeps (h.holds before other earlier) keeps
  · intro n found
    rcases back n found with rfl | found
    · exact ⟨e, List.mem_append_right _ (List.mem_singleton_self e), is⟩
    · obtain ⟨other, member, made⟩ := h.origin n found
      exact ⟨other, List.mem_append_left _ member, made⟩
  · intro n denotes
    rw [made.kind?]
    split
    · next same =>
      subst same
      rcases made.decl with unknown | ⟨name, rfl⟩
      · rw [unknown, h.fresh (Arena.kind?_size _)] at denotes
        cases denotes
      · exact ⟨name, rfl⟩
    · next other =>
      rw [made.attrs.decl n other] at denotes
      exact h.refers n denotes
  · intro n s same
    rw [made.attrs.body] at same
    exact List.mem_append_left _ (h.bodies n s same)
  · rcases completes with ⟨-, rfl⟩ | ⟨completes, rfl⟩
    · exact open_
    · intro n member
      rcases List.mem_cons.mp member with rfl | member
      · refine ⟨by simp [made.own], ?_⟩
        intro other member children same
        rcases List.mem_append.mp member with before | new
        · obtain ⟨before, happens⟩ := exists_happens before
          exact old _ (isSome_of_completed (h.holds _ other happens) same) rfl
        · rw [List.mem_singleton.mp new, completes] at same
          cases same
      · exact open_ n member
  · intro n found
    rcases back n found with rfl | found
    · rcases completes with ⟨⟨children, same⟩, -⟩ | ⟨-, rfl⟩
      · exact .inr ⟨e, List.mem_append_right _ (List.mem_singleton_self e), children, same⟩
      · exact .inl List.mem_cons_self
    · rcases h.complete n found with member | ⟨other, member, children, same⟩
      · refine .inl ?_
        rcases completes with ⟨-, rfl⟩ | ⟨-, rfl⟩
        · exact member
        · exact List.mem_cons_of_mem _ member
      · exact .inr ⟨other, List.mem_append_left _ member, children, same⟩

/-- A function that was pending gets its children. -/
theorem finish {f body : NodeId} {declared : List NodeId} {name : Name}
    (h : Nodes events (f :: functions) b) (alone : f ∉ functions) (finishes : Finishes b f name declared body b')
    (holds : (Event.finished f declared body).Holds events b') :
    Nodes (events ++ [.finished f declared body]) functions b' := by
  refine ⟨?_, ?_, ?_, ?_, ?_, ?_, ?_⟩
  · rw [nodesIn_concat, ← h.size, finishes.arena, Arena.size_setKind]
    rfl
  · intro before e happens
    rcases happens_concat.mp happens with ⟨rfl, rfl⟩ | earlier
    · exact holds
    · apply finishes.holds (h.holds before e earlier)
      exact (h.pending f List.mem_cons_self).2 e earlier.mem
  · intro n there
    obtain ⟨e, member, made⟩ := h.origin n ((finishes.isSome n).symm.trans there)
    exact ⟨e, List.mem_append_left _ member, made⟩
  · intro n denotes
    rw [finishes.attrs] at denotes
    obtain ⟨name, found⟩ := h.refers n denotes
    exact ⟨name, finishes.other found nofun⟩
  · intro n s same
    rw [finishes.attrs] at same
    exact List.mem_append_left _ (h.bodies n s same)
  · intro n member
    obtain ⟨there, open_⟩ := h.pending n (List.mem_cons_of_mem _ member)
    refine ⟨(finishes.isSome n).trans there, ?_⟩
    intro e inside children same
    rcases List.mem_append.mp inside with before | new
    · exact open_ e before children same
    · rw [List.mem_singleton.mp new] at same
      cases same
      exact alone member
  · intro n there
    rcases h.complete n ((finishes.isSome n).symm.trans there) with member | ⟨e, member, children, same⟩
    · rcases List.mem_cons.mp member with rfl | member
      · exact .inr ⟨_, List.mem_append_right _ (List.mem_singleton_self _), _, rfl⟩
      · exact .inl member
    · exact .inr ⟨e, List.mem_append_left _ member, children, same⟩

end Nodes

namespace Lists

/-- The statements that have been emitted are those of some block. -/
theorem mem_emitted {n : NodeId} : n ∈ events.filterMap Event.emitted? ↔ ∃ s, .statement s n ∈ events := by
  rw [List.mem_filterMap]
  constructor
  · rintro ⟨e, member, same⟩
    cases e with
    | statement s n' =>
      cases same
      exact ⟨s, member⟩
    | _ => cases same
  · rintro ⟨s, member⟩
    exact ⟨_, member, rfl⟩

/-- A scope that has just been opened has nothing yet. -/
theorem unused (h : Lists events place functions b) (s : ScopeId) (new : scopesIn events ≤ s.index) :
    statementsAt events s = [] ∧ ∀ n, ¬ Owns events n s := by
  refine ⟨?_, ?_⟩
  · rw [statementsAt, List.filterMap_eq_nil_iff]
    intro e member
    cases e with
    | statement s' n =>
      have bound := (h.bound s' n member).1
      apply if_neg
      rintro rfl
      exact absurd bound (Nat.not_lt.mpr new)
    | _ => rfl
  · intro n owns
    exact absurd (h.owned n s owns) (Nat.not_lt.mpr new)

theorem owns_concat {n : NodeId} {s : ScopeId} : Owns (events ++ [e]) n s ↔
    Owns events n s ∨ (∃ l, e = .block n s l) ∨ e = .parameters n s := by
  simp only [Owns, List.mem_append, List.mem_singleton]
  constructor
  · rintro (⟨l, before | new⟩ | before | new)
    · exact .inl (.inl ⟨l, before⟩)
    · exact .inr (.inl ⟨l, new.symm⟩)
    · exact .inl (.inr before)
    · exact .inr (.inr new.symm)
  · rintro ((⟨l, before⟩ | before) | ⟨l, new⟩ | new)
    · exact .inl ⟨l, .inl before⟩
    · exact .inr (.inl before)
    · exact .inl ⟨l, .inr new.symm⟩
    · exact .inr (.inr new.symm)

/-- An event that gives no node a scope and no block a statement. A scope may be opened or closed. -/
theorem add {place' : Position} {functions' : List NodeId} (h : Lists events place functions b)
    (e : Event) (quiet : e.isListed = false)
    (blocks : b'.blocks.map List.reverse = place'.blocks.map (statementsAt events))
    (statements : b'.statements = b.statements)
    (within : ∀ s ∈ place'.blocks, s ∈ place.blocks ∨ scopesIn events ≤ s.index)
    (inside : ∀ s, s.index < scopesIn (events ++ [e]) → s.index < scopesIn events ∧
      (s ∈ place.scopes → s ∈ place'.scopes ∨ ∃ n, Owns events n s) ∨ s ∈ place'.scopes)
    (fewer : ∀ n ∈ functions', n ∈ functions ∨ nodesIn events ≤ n.index) :
    Lists (events ++ [e]) place' functions' b' := by
  have nodes : nodesIn events ≤ nodesIn (events ++ [e]) := by
    rw [nodesIn_concat]
    exact Nat.le_add_right _ _
  have scopes := Names.scopesIn_le events e
  have at_ : ∀ s, statementsAt (events ++ [e]) s = statementsAt events s := by
    intro s
    rw [statementsAt_concat, Event.statement?_of_quiet quiet, Option.toList_none, List.append_nil]
  have old : ∀ other, other.isListed = true → other ∈ events ++ [e] → other ∈ events := by
    intro other listed member
    rcases List.mem_append.mp member with before | new
    · exact before
    · rw [List.mem_singleton.mp new, quiet] at listed
      cases listed
  have owns : ∀ n s, Owns (events ++ [e]) n s ↔ Owns events n s := by
    intro n s
    rw [owns_concat]
    refine ⟨?_, .inl⟩
    rintro (before | ⟨l, rfl⟩ | rfl)
    · exact before
    · cases quiet
    · cases quiet
  have closed : ∀ s, s.index < scopesIn events → s ∉ place.blocks → s ∉ place'.blocks := by
    intro s known closed member
    rcases within s member with before | new
    · exact closed before
    · exact absurd known (Nat.not_lt.mpr new)
  refine ⟨?_, ?_, ?_, ?_, ?_, ?_, ?_, ?_, ?_, ?_⟩
  · rw [blocks]
    apply List.map_congr_left
    intro s _
    exact (at_ s).symm
  · rw [statements, at_, h.bottom]
  · intro n s l member
    have before := old _ rfl member
    obtain ⟨outside, inner, same⟩ := h.closed n s l before
    rw [at_]
    exact ⟨closed s (h.owned n s (.inl ⟨l, before⟩)) outside, inner, same⟩
  · intro n s member
    have before := old _ rfl member
    obtain ⟨outside, inner, none⟩ := h.parameters n s before
    exact ⟨closed s (h.owned n s (.inr before)) outside, inner, (at_ s).trans none⟩
  · intro n s owner
    exact Nat.lt_of_lt_of_le (h.owned n s ((owns n s).mp owner)) scopes
  · intro m n s first second
    exact h.owner m n s ((owns m s).mp first) ((owns n s).mp second)
  · intro s known
    simp only [owns]
    rcases inside s known with ⟨before, kept⟩ | new
    · rcases h.owners s before with outermost | open_ | owner
      · exact .inl outermost
      · exact .inr (kept open_)
      · exact .inr (.inr owner)
    · exact .inr (.inl new)
  · intro s n member
    obtain ⟨scope, node⟩ := h.bound s n (old _ rfl member)
    exact ⟨Nat.lt_of_lt_of_le scope scopes, Nat.lt_of_lt_of_le node nodes⟩
  · intro s n member function
    have before := old _ rfl member
    rcases fewer n function with old | new
    · exact h.pending s n before old
    · exact absurd (h.bound s n before).2 (Nat.not_lt.mpr new)
  · simp only [List.filterMap_append, List.filterMap_cons, Event.emitted?_of_quiet quiet,
      List.filterMap_nil, List.append_nil]
    exact h.once

/-- An event that gives no node a scope and no block a statement, while nothing happens to them. -/
theorem same {functions' : List NodeId} (h : Lists events place functions b) (e : Event)
    (quiet : e.isListed = false) (unscoped : e.isScope = false) (blocks : b'.blocks = b.blocks)
    (statements : b'.statements = b.statements)
    (fewer : ∀ n ∈ functions', n ∈ functions ∨ nodesIn events ≤ n.index) :
    Lists (events ++ [e]) place functions' b' := by
  refine h.add e quiet (blocks ▸ h.blocks) statements (fun s => .inl) ?_ fewer
  intro s known
  rw [scopesIn_concat, unscoped] at known
  exact .inl ⟨known, .inl⟩

/-- A scope opens, for a block or not. -/
theorem enter {place' : Position} (h : Lists events place functions b) (outside : ScopeId)
    (scopes : place'.scopes = ⟨scopesIn events⟩ :: place.scopes)
    (statements : b'.statements = b.statements)
    (blocks : place'.blocks = place.blocks ∧ b'.blocks = b.blocks ∨
      place'.blocks = ⟨scopesIn events⟩ :: place.blocks ∧ b'.blocks = [] :: b.blocks) :
    Lists (events ++ [.scope ⟨scopesIn events⟩ outside]) place' functions b' := by
  obtain ⟨none, -⟩ := h.unused ⟨scopesIn events⟩ (Nat.le_refl _)
  refine h.add _ rfl ?_ statements ?_ ?_ fun n => .inl
  · rcases blocks with ⟨same, same'⟩ | ⟨more, more'⟩
    · rw [same, same', h.blocks]
    · rw [more, more', List.map_cons, List.map_cons, h.blocks, none, List.reverse_nil]
  · intro s member
    rcases blocks with ⟨same, -⟩ | ⟨more, -⟩
    · exact .inl (same ▸ member)
    · rw [more] at member
      rcases List.mem_cons.mp member with rfl | before
      · exact .inr (Nat.le_refl _)
      · exact .inl before
  · intro s known
    rw [scopes]
    simp only [scopesIn_concat, Event.isScope, if_true] at known
    rcases Nat.lt_succ_iff_lt_or_eq.mp known with before | new
    · exact .inl ⟨before, fun open_ => .inl (List.mem_cons_of_mem _ open_)⟩
    · refine .inr ?_
      rw [← new]
      exact List.mem_cons_self

/-- The scope of the parameters of a function. -/
theorem parametersOf (h : Lists events place functions b) {f : NodeId} {s : ScopeId}
    (known : s.index < scopesIn events) (free : ∀ n, ¬ Owns events n s) (outside : s ∉ place.blocks)
    (inner : s ≠ .outermost) (none : statementsAt events s = []) (blocks : b'.blocks = b.blocks)
    (statements : b'.statements = b.statements) :
    Lists (events ++ [.parameters f s]) place functions b' := by
  have at_ : ∀ s', statementsAt (events ++ [.parameters f s]) s' = statementsAt events s' := by
    intro s'
    simp [Event.statement?]
  have count : scopesIn (events ++ [.parameters f s]) = scopesIn events := by
    simp [Event.isScope]
  have nodes : nodesIn (events ++ [.parameters f s]) = nodesIn events := by
    simp [Event.made?]
  have owns : ∀ n s', Owns (events ++ [.parameters f s]) n s' ↔
      Owns events n s' ∨ (f = n ∧ s = s') := by
    intro n s'
    rw [owns_concat]
    simp
  refine ⟨?_, ?_, ?_, ?_, ?_, ?_, ?_, ?_, ?_, ?_⟩
  · rw [blocks, h.blocks]
    apply List.map_congr_left
    intro s _
    exact (at_ s).symm
  · rw [statements, at_, h.bottom]
  · intro n s' l member
    rw [at_]
    exact h.closed n s' l (by simpa using member)
  · intro n s' member
    rw [at_]
    rcases List.mem_append.mp member with before | new
    · exact h.parameters n s' before
    · cases List.mem_singleton.mp new
      exact ⟨outside, inner, none⟩
  · intro n s' owner
    rw [count]
    rcases (owns n s').mp owner with before | ⟨-, rfl⟩
    · exact h.owned n s' before
    · exact known
  · intro m n s' first second
    rcases (owns m s').mp first with first | ⟨rfl, rfl⟩ <;>
      rcases (owns n _).mp second with second | ⟨rfl, same⟩
    · exact h.owner m n s' first second
    · exact absurd first (same ▸ free m)
    · exact absurd second (free n)
    · rfl
  · intro s' inside
    rw [count] at inside
    rcases h.owners s' inside with outermost | open_ | ⟨n, owner⟩
    · exact .inl outermost
    · exact .inr (.inl open_)
    · exact .inr (.inr ⟨n, (owns n s').mpr (.inl owner)⟩)
  · intro s' n member
    rw [count, nodes]
    exact h.bound s' n (by simpa using member)
  · intro s' n member
    exact h.pending s' n (by simpa using member)
  · simpa [List.filterMap_append, List.filterMap_cons, Event.emitted?] using h.once

/-- A block is closed, and gets the statements that have gone to it. -/
theorem leave {n : NodeId} {s : ScopeId} (h : Lists events (place.within s) functions b)
    (distinct : s ∉ place.blocks) (inner : s ≠ .outermost) (known : s.index < scopesIn events)
    (blocks : b'.blocks = b.blocks.tail) (statements : b'.statements = b.statements) :
    Lists (events ++ [.block n s (statementsAt events s)]) place functions b' := by
  have at_ : ∀ s', statementsAt (events ++ [.block n s (statementsAt events s)]) s' =
      statementsAt events s' := by
    intro s'
    simp [Event.statement?]
  have count : scopesIn (events ++ [.block n s (statementsAt events s)]) = scopesIn events := by
    simp [Event.isScope]
  have nodes : nodesIn events ≤ nodesIn (events ++ [.block n s (statementsAt events s)]) := by
    simp
  have owns : ∀ m s', Owns (events ++ [.block n s (statementsAt events s)]) m s' ↔
      Owns events m s' ∨ (n = m ∧ s = s') := by
    intro m s'
    rw [owns_concat]
    simp
  -- while it was open, the scope belonged to no node
  have free : ∀ m, ¬ Owns events m s := by
    rintro m (⟨l, member⟩ | member)
    · exact (h.closed m s l member).1 List.mem_cons_self
    · exact (h.parameters m s member).1 List.mem_cons_self
  refine ⟨?_, ?_, ?_, ?_, ?_, ?_, ?_, ?_, ?_, ?_⟩
  · have all := congrArg List.tail h.blocks
    rw [Position.within, List.map_cons, List.tail_cons, ← List.map_tail] at all
    rw [blocks, all]
    apply List.map_congr_left
    intro s _
    exact (at_ s).symm
  · rw [statements, at_, h.bottom]
  · intro m s' l member
    rw [at_]
    rcases List.mem_append.mp member with before | new
    · obtain ⟨outside, rest⟩ := h.closed m s' l before
      exact ⟨fun inside => outside (List.mem_cons_of_mem _ inside), rest⟩
    · cases List.mem_singleton.mp new
      exact ⟨distinct, inner, rfl⟩
  · intro m s' member
    rw [at_]
    obtain ⟨outside, rest⟩ := h.parameters m s' (by simpa using member)
    exact ⟨fun inside => outside (List.mem_cons_of_mem _ inside), rest⟩
  · intro m s' owner
    rw [count]
    rcases (owns m s').mp owner with before | ⟨-, rfl⟩
    · exact h.owned m s' before
    · exact known
  · intro m m' s' first second
    rcases (owns m s').mp first with first | ⟨rfl, rfl⟩ <;>
      rcases (owns m' _).mp second with second | ⟨rfl, same⟩
    · exact h.owner m m' s' first second
    · exact absurd first (same ▸ free m)
    · exact absurd second (free m')
    · rfl
  · intro s' inside
    rw [count] at inside
    rcases h.owners s' inside with outermost | open_ | ⟨m, owner⟩
    · exact .inl outermost
    · rcases List.mem_cons.mp open_ with rfl | outer
      · exact .inr (.inr ⟨n, (owns n s').mpr (.inr ⟨rfl, rfl⟩)⟩)
      · exact .inr (.inl outer)
    · exact .inr (.inr ⟨m, (owns m s').mpr (.inl owner)⟩)
  · intro s' m member
    obtain ⟨scope, node⟩ := h.bound s' m (by simpa using member)
    rw [count]
    exact ⟨scope, Nat.lt_of_lt_of_le node nodes⟩
  · intro s' m member
    exact h.pending s' m (by simpa using member)
  · simpa [List.filterMap_append, List.filterMap_cons, Event.emitted?] using h.once

/-- A statement goes to the innermost block, and it has gone to no block before. -/
theorem emit {n : NodeId} (h : Lists events place functions b) (distinct : place.blocks.Nodup)
    (inner : .outermost ∉ place.blocks) (known : place.block.index < scopesIn events)
    (node : n.index < nodesIn events) (complete : n ∉ functions)
    (new : ∀ s, .statement s n ∉ events)
    (lists : b.blocks = [] ∧ b'.blocks = [] ∧ b'.statements = n :: b.statements ∨
      ∃ first outer, b.blocks = first :: outer ∧ b'.blocks = (n :: first) :: outer ∧
        b'.statements = b.statements) :
    Lists (events ++ [.statement place.block n]) place functions b' := by
  have at_ : ∀ s, statementsAt (events ++ [.statement place.block n]) s =
      statementsAt events s ++ if place.block = s then [n] else [] := by
    intro s
    rw [statementsAt_concat, Event.statement?]
    split <;> rfl
  have count : scopesIn (events ++ [.statement place.block n]) = scopesIn events := by
    simp [Event.isScope]
  have nodes : nodesIn (events ++ [.statement place.block n]) = nodesIn events := by
    simp [Event.made?]
  have owns : ∀ m s, Owns (events ++ [.statement place.block n]) m s ↔ Owns events m s := by
    intro m s
    rw [owns_concat]
    simp
  have mapped := h.blocks
  have open_ : ∀ s, s ∉ place.blocks → s ≠ .outermost → place.block ≠ s := by
    rintro s outside inner' rfl
    cases opens : place.blocks with
    | nil => exact inner' (by rw [Position.block, opens]; rfl)
    | cons s' others =>
      apply outside
      rw [Position.block, opens]
      exact List.mem_cons_self
  refine ⟨?_, ?_, ?_, ?_, ?_, ?_, ?_, ?_, ?_, ?_⟩
  · rcases lists with ⟨before, after, -⟩ | ⟨first, outer, before, after, -⟩
    · rw [before, List.map_nil] at mapped
      rw [after, List.map_eq_nil_iff.mp mapped.symm]
      rfl
    · rw [before] at mapped
      cases same : place.blocks with
      | nil =>
        rw [same] at mapped
        cases mapped
      | cons s others =>
        rw [same, List.map_cons, List.map_cons] at mapped
        injection mapped with top rest
        have block : place.block = s := by rw [Position.block, same]; rfl
        rw [after, List.map_cons, List.map_cons, List.reverse_cons, top, rest, at_, if_pos block]
        congr 1
        apply List.map_congr_left
        intro s' member
        rw [at_, if_neg, List.append_nil]
        rw [same] at distinct
        rintro eq
        exact (List.nodup_cons.mp distinct).1 (block ▸ eq ▸ member)
  · rcases lists with ⟨before, -, after⟩ | ⟨first, outer, before, -, after⟩
    · rw [before, List.map_nil] at mapped
      have block : place.block = .outermost := by
        rw [Position.block, List.map_eq_nil_iff.mp mapped.symm]
        rfl
      rw [after, List.reverse_cons, h.bottom, at_, if_pos block]
    · rw [before] at mapped
      rw [after, at_, if_neg, List.append_nil, h.bottom]
      cases same : place.blocks with
      | nil =>
        rw [same] at mapped
        cases mapped
      | cons s others =>
        rw [Position.block, same]
        rintro (eq : s = .outermost)
        exact inner (same ▸ eq ▸ List.mem_cons_self)
  · intro m s l member
    obtain ⟨outside, inner', same⟩ := h.closed m s l (by simpa using member)
    refine ⟨outside, inner', ?_⟩
    rw [at_, if_neg (open_ s outside inner'), List.append_nil, same]
  · intro m s member
    obtain ⟨outside, inner', none⟩ := h.parameters m s (by simpa using member)
    refine ⟨outside, inner', ?_⟩
    rw [at_, if_neg (open_ s outside inner'), List.append_nil, none]
  · intro m s owner
    rw [count]
    exact h.owned m s ((owns m s).mp owner)
  · intro m m' s first second
    exact h.owner m m' s ((owns m s).mp first) ((owns m' s).mp second)
  · intro s inside
    rw [count] at inside
    simpa only [owns] using h.owners s inside
  · intro s m member
    rw [count, nodes]
    rcases List.mem_append.mp member with before | new
    · exact h.bound s m before
    · cases List.mem_singleton.mp new
      exact ⟨known, node⟩
  · intro s m member
    rcases List.mem_append.mp member with before | new
    · exact h.pending s m before
    · cases List.mem_singleton.mp new
      exact complete
  · simp only [List.filterMap_append, List.filterMap_cons, Event.emitted?, List.filterMap_nil]
    rw [List.nodup_append]
    refine ⟨h.once, by simp, ?_⟩
    intro m before m' same
    rw [List.mem_singleton.mp same]
    rintro rfl
    obtain ⟨s, member⟩ := mem_emitted.mp before
    exact new s member

end Lists

end Recording

end Strand
