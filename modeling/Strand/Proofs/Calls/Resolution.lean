import Strand.Proofs.Calls.Simulation

/-!
# Lexical resolution

The attributes of a program are those that a reader of the calls would give. A reference denotes the latest
declaration of its name in the innermost scope around it that has one (`Program.Refers`), and the scope table
is the nesting of the blocks and functions (`Program.Nested`). There is no program exactly if a name denotes
nothing, or no struct, or is declared twice in a scope.
-/

set_option autoImplicit false

namespace Strand

/-! ## 1. Problems -/

theorem mem_problemsAfter {problem : BuildError} (events before : List Event) :
    problem ∈ problemsAfter before events ↔ ∃ earlier e, Happens events earlier e ∧
      e.problem? (before ++ earlier) = some problem := by
  induction events generalizing before with
  | nil =>
    constructor
    · nofun
    · rintro ⟨earlier, e, happens, -⟩
      cases happens.mem
  | cons first events ih =>
    simp only [problemsAfter, List.mem_append, Option.mem_toList, ih, happens_cons]
    constructor
    · rintro (here | ⟨rest, e, happens, problem⟩)
      · exact ⟨[], first, .inl ⟨rfl, rfl⟩, by simpa using here⟩
      · exact ⟨first :: rest, e, .inr ⟨rest, rfl, happens⟩, by simpa using problem⟩
    · rintro ⟨earlier, e, ⟨rfl, rfl⟩ | ⟨rest, rfl, happens⟩, problem⟩
      · exact .inl (by simpa using problem)
      · exact .inr ⟨rest, e, happens, by simpa using problem⟩

/-- The problems of a program are those of its events. -/
theorem mem_problems {problem : BuildError} {events : List Event} : problem ∈ problems events ↔
    ∃ before e, Happens events before e ∧ e.problem? before = some problem := by
  rw [problems, mem_problemsAfter]
  simp only [List.nil_append]

/-! ## 2. Names and scopes of programs -/

namespace Program

/-- A reference has the declaration of what was found, and the scope and the type that this has. -/
structure Refers (p : Program) (n : NodeId) (name : Name) (found : Meaning × ScopeId) : Prop where
  kind : p.arena.kind? n = some (.reference name)
  decl : p.attrs.decl? n = some (found.1.decl name)
  scope : p.attrs.scope? n = some found.2
  node : ∀ d, found.1.decl name = .node d → (p.arena.kind? d).isSome ∧
    p.attrs.scope? n = p.attrs.scope? d ∧ p.attrs.type? n = p.attrs.type? d

/-- The references are those that were recorded, and denote what their names meant there. -/
structure Resolved (p : Program) (events : List Event) : Prop where
  recorded : ∀ n name, p.arena.kind? n = some (.reference name) →
    ∃ path, .reference n path (p.text name) ∈ events
  refers : ∀ before n path text, Happens events before (.reference n path text) →
    ∃ name found, p.text name = text ∧ resolve before path text = some found ∧ p.Refers n name found

/-- The scope that a block opens, or a function for its parameters. -/
def opens? (p : Program) (n : NodeId) : Option ScopeId :=
  match p.arena.kind? n with
  | some (.block _) => p.attrs.scope? n
  | some (.funDecl _ _ _) => p.attrs.bodyScope? n
  | _ => none

/-- The scope table is the nesting of the blocks and the functions. -/
structure Nested (p : Program) (events : List Event) : Prop where
  root : p.attrs.rootScope = .outermost ∧ p.attrs.parent? .outermost = none
  /-- Every other scope lies in the one that was recorded, which is older. -/
  parent : ∀ s, s.index < p.attrs.scopeCount → s ≠ .outermost →
    ∃ outside, .scope s outside ∈ events ∧ p.attrs.parent? s = some outside ∧ outside.index < s.index
  /-- Every other scope belongs to one block or function. -/
  owner : ∀ s, s.index < p.attrs.scopeCount → s ≠ .outermost → ∃! n, p.opens? n = some s
  /-- Blocks and functions have scopes. -/
  opens : ∀ n kind, p.arena.kind? n = some kind →
    (∃ statements, kind = .block statements) ∨ (∃ name parameters body, kind = .funDecl name parameters body) →
    ∃ s, p.opens? n = some s ∧ s ≠ .outermost ∧ s.index < p.attrs.scopeCount
  /-- They have the scopes that were recorded for them. -/
  owns : ∀ n s, p.opens? n = some s ↔ Owns events n s
  /-- The parameter scope of a function is between the function and its body. -/
  function : ∀ n name parameters body, p.arena.kind? n = some (.funDecl name parameters body) →
    ∃ s inner, p.opens? n = some s ∧ p.opens? body = some inner ∧ p.attrs.parent? inner = some s ∧
      p.attrs.parent? s = p.attrs.scope? n ∧ (p.attrs.scope? n).isSome ∧
      ∀ m ∈ parameters, p.attrs.scope? m = some s

end Program

namespace Recording

/-- A node has the shape that its event says. -/
theorem shape_of_made {b : Builder} {before : List Event} {e : Event} {n : NodeId} {kind : NodeKind}
    (holds : e.Holds before b) (made : e.made? = some n) (found : b.arena.kind? n = some kind) :
    kind.isPlain = true ∨ (∃ path text name, e = .reference n path text ∧ kind = .reference name) ∨
      (∃ s text name parameters body, e = .function n s text ∧ kind = .funDecl name parameters body) ∨
      ∃ s statements, e = .block n s statements ∧ kind = .block statements := by
  cases e with
  | node n' children =>
    cases made
    obtain ⟨kind', there, -, silent⟩ := holds
    rw [found] at there
    cases there
    exact .inl (NodeKind.isPlain_of_isSilent silent)
  | declaration n' s text isStruct children =>
    cases made
    obtain ⟨name, kind', there, -, plain, -⟩ := holds
    rw [found] at there
    cases there
    exact .inl plain
  | reference n' path text =>
    cases made
    obtain ⟨name, there, -⟩ := holds
    rw [found] at there
    cases there
    exact .inr (.inl ⟨path, text, name, rfl, rfl⟩)
  | function n' s text =>
    cases made
    obtain ⟨name, parameters, body, there, -⟩ := holds
    rw [found] at there
    cases there
    exact .inr (.inr (.inl ⟨s, text, name, parameters, body, rfl, rfl⟩))
  | block n' s statements =>
    cases made
    have there := holds.1
    rw [found] at there
    cases there
    exact .inr (.inr (.inr ⟨s, statements, rfl, rfl⟩))
  | _ => cases made

/-- A function is complete once it has its parameters and its body. -/
theorem finished_of_completed {b : Builder} {before : List Event} {e : Event} {n body : NodeId}
    {children parameters : List NodeId} {name : Name} (holds : e.Holds before b)
    (completes : e.completed? = some (n, children))
    (found : b.arena.kind? n = some (.funDecl name parameters body)) :
    e = .finished n parameters body := by
  cases e with
  | finished n' parameters' body' =>
    cases completes
    obtain ⟨_, _, _, there, -⟩ := holds
    cases there.symm.trans found
    rfl
  | node n' children' =>
    cases completes
    obtain ⟨_, there, -, silent⟩ := holds
    cases there.symm.trans found
    cases silent
  | declaration n' s text isStruct children' =>
    cases completes
    obtain ⟨_, _, there, -, plain, -⟩ := holds
    cases there.symm.trans found
    cases plain
  | reference n' path text =>
    cases completes
    obtain ⟨_, there, -⟩ := holds
    cases there.symm.trans found
  | block n' s statements =>
    cases completes
    cases holds.1.symm.trans found
  | _ => cases completes

namespace Agrees

variable {events : List Event} {b : Builder}

theorem holds_program (h : Agrees events .top [] b) {before : List Event} {e : Event}
    (happens : Happens events before e) : e.Holds before b.rooted :=
  holds_of_keeps (h.nodes.holds before e happens) b.makes_rooted.keeps

theorem exists_holds (h : Agrees events .top [] b) {e : Event} (member : e ∈ events) :
    ∃ before, e.Holds before b.rooted := by
  obtain ⟨before, happens⟩ := exists_happens member
  exact ⟨before, h.holds_program happens⟩

/-- Every node of a program was recorded, but for the root. -/
theorem exists_made (h : Agrees events .top [] b) {n : NodeId} {kind : NodeKind}
    (found : b.rooted.arena.kind? n = some kind) (inner : ∀ statements, kind ≠ .root statements) :
    ∃ e ∈ events, e.made? = some n := by
  rw [b.makes_rooted.kind?] at found
  split at found
  · cases found
    exact absurd rfl (inner _)
  · exact h.nodes.origin n (by simp [found])

theorem text_eq (h : Agrees events .top [] b) {text : String} {name : Name}
    (known : b.rooted.interner.find? text = some name) : b.program.text name = text :=
  Interner.lookup_of_find? h.names.interner known

/-- Without a problem, the references denote what their names mean. -/
theorem resolved (h : Agrees events .top [] b)
    (fine : ∀ before e, Happens events before e → e.problem? before = none) :
    b.program.Resolved events := by
  refine ⟨?_, ?_⟩
  · intro n name found
    obtain ⟨e, member, made⟩ := h.exists_made found nofun
    obtain ⟨before, holds⟩ := h.exists_holds member
    rcases shape_of_made holds made found with plain | ⟨path, text, name', rfl, -⟩ |
      ⟨_, _, _, _, _, -, other⟩ | ⟨_, _, -, other⟩
    · cases plain
    · obtain ⟨name', there, known, -⟩ := holds
      cases there.symm.trans found
      exact ⟨path, (h.text_eq known).symm ▸ member⟩
    · cases other
    · cases other
  · intro before n path text happens
    obtain ⟨name, kind, known, decl, denotes⟩ := h.holds_program happens
    have found := fine _ _ happens
    cases same : resolve before path text with
    | none => simp [Event.problem?, same] at found
    | some result =>
      obtain ⟨meaning, s⟩ := result
      obtain ⟨scope, node⟩ := denotes meaning s same
      rw [same] at decl
      refine ⟨name, (meaning, s), h.text_eq known, rfl, kind, decl, scope, ?_⟩
      intro d isNode
      obtain ⟨there, scope', type⟩ := node d isNode
      exact ⟨there, scope.trans scope'.symm, type⟩

/-- The blocks and functions have the scopes that were recorded for them. -/
theorem opens?_iff (h : Agrees events .top [] b) (n : NodeId) (s : ScopeId) :
    b.program.opens? n = some s ↔ Owns events n s := by
  constructor
  · intro opens
    unfold Program.opens? at opens
    split at opens
    · next statements found =>
      obtain ⟨e, member, made⟩ := h.exists_made found nofun
      obtain ⟨before, holds⟩ := h.exists_holds member
      rcases shape_of_made holds made found with plain | ⟨_, _, _, -, other⟩ |
        ⟨_, _, _, _, _, -, other⟩ | ⟨s', l, rfl, -⟩
      · cases plain
      · cases other
      · cases other
      · cases holds.2.symm.trans opens
        exact .inl ⟨l, member⟩
    · exact .inr (h.nodes.bodies n s ((b.makes_rooted.attrs.body n).symm.trans opens))
    · cases opens
  · rintro (⟨l, member⟩ | member)
    · obtain ⟨before, found, scope⟩ := h.exists_holds member
      rw [Program.opens?, show b.program.arena.kind? n = _ from found]
      exact scope
    · obtain ⟨before, ⟨name, parameters, body, found⟩, scope⟩ := h.exists_holds member
      rw [Program.opens?, show b.program.arena.kind? n = _ from found]
      exact scope

/-- A function of a program has its parameters and its body. -/
theorem finished_of_function (h : Agrees events .top [] b) {n body : NodeId} {name : Name}
    {parameters : List NodeId} (found : b.rooted.arena.kind? n = some (.funDecl name parameters body)) :
    .finished n parameters body ∈ events := by
  have there : (b.arena.kind? n).isSome := by
    rw [b.makes_rooted.kind?] at found
    split at found
    · cases found
    · simp [found]
  rcases h.nodes.complete n there with none | ⟨e, member, children, completes⟩
  · cases none
  · obtain ⟨before, holds⟩ := h.exists_holds member
    exact finished_of_completed holds completes found ▸ member

theorem nested (h : Agrees events .top [] b) : b.program.Nested events := by
  have parent? := b.makes_rooted.attrs.parent?
  have count : b.program.attrs.scopeCount = scopesIn events :=
    b.makes_rooted.attrs.scopeCount.trans h.scopes.count
  have proper : ∀ n s, Owns events n s → s ≠ .outermost ∧ s.index < scopesIn events := by
    rintro n s owns
    refine ⟨?_, h.lists.owned n s owns⟩
    rcases owns with ⟨l, member⟩ | member
    · exact (h.lists.closed n s l member).2.1
    · exact (h.lists.parameters n s member).2.1
  refine ⟨⟨h.scopes.root, (parent? _).trans h.scopes.outermost⟩, ?_, ?_, ?_, h.opens?_iff, ?_⟩
  · intro s known inner
    rw [count] at known
    rcases h.scopes.opened s known with outermost | ⟨outside, member⟩
    · exact absurd outermost inner
    · obtain ⟨parent, older⟩ := h.scopes.parent s outside member
      exact ⟨outside, member, (parent? s).trans parent, older⟩
  · intro s known inner
    rw [count] at known
    rcases h.lists.owners s known with outermost | open_ | ⟨n, owns⟩
    · exact absurd outermost inner
    · cases open_
    · refine ⟨n, (h.opens?_iff n s).mpr owns, ?_⟩
      intro m opens
      exact h.lists.owner m n s ((h.opens?_iff m s).mp opens) owns
  · intro n kind found shape
    have owned : ∃ s, Owns events n s := by
      rcases shape with ⟨statements, rfl⟩ | ⟨name, parameters, body, rfl⟩
      · obtain ⟨e, member, made⟩ := h.exists_made found nofun
        obtain ⟨before, holds⟩ := h.exists_holds member
        rcases shape_of_made holds made found with plain | ⟨_, _, _, -, other⟩ |
          ⟨_, _, _, _, _, -, other⟩ | ⟨s, l, rfl, -⟩
        · cases plain
        · cases other
        · cases other
        · exact ⟨s, .inl ⟨l, member⟩⟩
      · obtain ⟨before, _, s, inner, -, bodyScope, -⟩ := h.exists_holds (h.finished_of_function found)
        exact ⟨s, .inr (h.nodes.bodies n s ((b.makes_rooted.attrs.body n).symm.trans bodyScope))⟩
    obtain ⟨s, owns⟩ := owned
    rw [count]
    exact ⟨s, (h.opens?_iff n s).mpr owns, proper n s owns⟩
  · intro n name parameters body found
    obtain ⟨before, _, s, inner, there, bodyScope, outside, ⟨l, block⟩, scope, parent, own, each⟩ :=
      h.exists_holds (h.finished_of_function found)
    refine ⟨s, inner, ?_, ?_, parent, outside, own, fun m member => (each m member).2⟩
    · rw [Program.opens?, found]
      exact bodyScope
    · rw [Program.opens?, show b.program.arena.kind? body = _ from block]
      exact scope

end Agrees

end Recording

/-! ## 3. Resolution -/

/-- What the calls mean is what is built. There is no program exactly if some name denotes nothing when it is
mentioned, or no struct when its constructor is asked for, or is declared in a scope that has it already. -/
theorem Call.program_lexical (calls : List Call) :
    match Call.program calls with
    | .error problem => (problems (Call.events calls)).head? = some problem ∧
        ∃ before e, Happens (Call.events calls) before e ∧ e.problem? before = some problem
    | .ok p => (∀ before e, Happens (Call.events calls) before e → e.problem? before = none) ∧
        p.Resolved (Call.events calls) ∧ p.Nested (Call.events calls) := by
  have agrees := Call.agrees calls
  rw [Call.program_eq]
  cases found : (problems (Call.events calls)).head? with
  | some problem => exact ⟨rfl, mem_problems.mp (List.mem_of_head? found)⟩
  | none =>
    have fine : ∀ before e, Happens (Call.events calls) before e → e.problem? before = none := by
      intro before e happens
      cases problem : e.problem? before with
      | none => rfl
      | some problem' =>
        have member := mem_problems.mpr ⟨before, e, happens, problem⟩
        rw [List.head?_eq_none_iff.mp found] at member
        cases member
    exact ⟨fine, agrees.resolved fine, agrees.nested⟩

/-- A parameter may have the name of a variable around its function, but not that of another parameter. -/
example : problems (Call.events [.function "f" [("print", .int), ("x", .int), ("x", .int)] .int
    [.constructor "print"]]) = [.redeclared "x", .notAStruct "print"] := by decide

end Strand
