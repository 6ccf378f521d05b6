import Strand.Proofs.Scope.Threads

/-!
# Steps of threads that see what they need

What a step of a thread keeps: a thread that stands where it sees what it needs, in a world that is in
order, stands so after the step, and the step raises no fault because a name is unbound. The sections
follow the evaluator, one lemma for each of its functions.
-/

set_option autoImplicit false

namespace Strand.ScopedProgram

variable {q : ScopedProgram} {fs : Frames} {f : FrameId} {n m : NodeId} {kind : NodeKind}

/-! ## 1. The parts of a node -/

theorem Evaluable.callee (can : q.Evaluable fs f n)
    (found : q.program.arena.kind? n = some kind) (calls : kind.callee? = some m) :
    q.Evaluable fs f m := by
  obtain ⟨⟨kind', found', shape⟩, within⟩ := (q.nodes n kind found).callee m calls
  refine ⟨can.sees.anti (within rfl), fun kind'' found'' statement => ?_⟩
  cases found'.symm.trans found''
  exact absurd shape (by simp [statement])

theorem Evaluable.operand (can : q.Evaluable fs f n)
    (found : q.program.arena.kind? n = some kind) (uses : m ∈ kind.operands) :
    q.Usable fs f m := by
  obtain ⟨⟨kind', found', shape⟩, within⟩ := (q.nodes n kind found).operands m uses
  refine ⟨⟨can.sees.anti (within rfl), fun kind'' found'' statement => ?_⟩, ?_⟩
  · cases found'.symm.trans found''
    exact absurd shape (by simp [statement])
  · obtain ⟨node, here, rfl⟩ := Option.map_eq_some_iff.mp found
    exact q.calls node (Array.mem_toList_iff.mpr (Array.mem_of_getElem? here)) m uses

theorem Usable.top (can : q.Usable fs f n) {top : Prop}
    (inside : q.program.refersInside n = true) : top := by
  rw [can.outside] at inside
  cases inside

/-- A statement can be run wherever its context is. -/
theorem usable_of_statement {Γ : Context} (statement : q.scoping.Statement Γ m)
    (path : fs.path f = Γ.scopes) (bound : ∀ x ∈ Γ.names, fs.Bound f x) : q.Usable fs f m := by
  obtain ⟨⟨kind, found, shape⟩, scopes, -, names⟩ := statement
  refine ⟨⟨⟨?_, fun x member => bound x (names member)⟩, fun _ _ _ => path.trans scopes.symm⟩, ?_⟩
  · show (q.scoping.context m).scopes <:+ fs.path f
    exact (scopes.trans path.symm) ▸ List.suffix_refl _
  · unfold Program.refersInside
    rw [show q.program.arena.kind? m = some kind from found]
    cases kind <;> first | rfl | cases shape

theorem Evaluable.substatement (can : q.Evaluable fs f n)
    (found : q.program.arena.kind? n = some kind) (shape : kind.isExpression = false)
    (runs : m ∈ kind.substatements) : q.Usable fs f m :=
  usable_of_statement ((q.nodes n kind found).substatements m runs) (can.stands kind found shape)
    can.sees.2

/-! ## 2. Reading and writing names -/

theorem WorldFine.define {w : World} (h : q.WorldFine w) (g : FrameId) (name : Name) {v : Value}
    (fine : q.Fine w.frames v) : q.WorldFine { w with frames := w.frames.define g name v } := by
  have later := h.frames.toLinked.onward_define g name v
  refine ⟨h.frames.define g name v, fun f other value bound => Fine.onward later ?_,
    h.heap.mono fun _ => Fine.onward later⟩
  rw [Frames.lookup_define] at bound
  split at bound
  · cases bound
    exact fine
  · exact h.bindings f other value bound

theorem WorldFine.push {w : World} (h : q.WorldFine w) {g : FrameId} (live : w.frames.Live g)
    {scope : ScopeId} (new : scope ∉ w.frames.path g) (bindings : Bindings)
    (fine : ∀ name v, bindings.find? name = some v → q.Fine w.frames v) :
    q.WorldFine { w with frames := (w.frames.push scope bindings (some g)).2 } := by
  have later := h.frames.toLinked.onward_push live scope bindings
  refine ⟨h.frames.push live new bindings, fun f name value bound => Fine.onward later ?_,
    h.heap.mono fun _ => Fine.onward later⟩
  rw [Frames.lookup_push_eq] at bound
  split at bound
  · exact fine name value bound
  · exact h.bindings f name value bound

/-- A scope of the path is found, also where its name is only to be written. -/
theorem frameToSet_ok (sound : fs.Sound q.rootScope) {env : Env} (rooted : env.root = Frames.root)
    {scope : ScopeId} (inside : scope ∈ fs.path env.current) (text : String) :
    ∃ g ∈ fs.chain env.current, env.frameToSet fs scope text = .ok g ∧ fs.scope? g = some scope := by
  obtain ⟨g, member, found, owns⟩ := sound.frameFor rooted inside
  refine ⟨g, member, ?_, owns⟩
  simp only [Env.frameToSet, found]

/-- A bound name is read in the frame that owns its scope. -/
theorem get_ok (sound : fs.Sound q.rootScope) {env : Env} (rooted : env.root = Frames.root)
    {scope : ScopeId} {name : Name} (bound : fs.Bound env.current (scope, name)) (text : String) :
    ∃ g v, fs.lookup g name = some v ∧ env.get fs scope name text = .ok v := by
  obtain ⟨owner, inside, owns, value⟩ := bound
  obtain ⟨g, member, found, owns'⟩ :=
    sound.frameFor rooted (Frames.mem_path.mpr ⟨owner, inside, owns⟩)
  obtain rfl := sound.owner_unique inside owns member owns'
  obtain ⟨v, value⟩ := Option.isSome_iff_exists.mp value
  refine ⟨owner, v, value, ?_⟩
  simp only [Env.get, found, Option.bind_some, value]

theorem scopeOf_ok {p : Program} {scope : ScopeId} (here : p.attrs.scope? n = some scope)
    {text : String} : p.scopeOf n text = .ok scope := by
  rw [Program.scopeOf, here]

theorem readName_yields {w : World} (h : q.WorldFine w) {env : Env}
    (rooted : env.root = Frames.root) (live : w.frames.Live env.current) {name : Name}
    (found : q.program.arena.kind? n = some (.reference name))
    (can : q.Evaluable w.frames env.current n) :
    Yields Abort.Named
      (fun v => q.CanCall w.frames env.current v ∧
        (q.program.refersInside n = false → q.Fine w.frames v))
      (q.program.readName env w.frames n name) := by
  obtain ⟨scope, decl, here, denoted, inside, denotes⟩ := (q.nodes n _ found).fits
  have fine : ∀ {v}, q.Fine w.frames v → q.CanCall w.frames env.current v ∧
      (q.program.refersInside n = false → q.Fine w.frames v) :=
    fun fine => ⟨fine.canCall h.frames live, fun _ => fine⟩
  have plain : ∀ {v : Value}, v.Plain → q.CanCall w.frames env.current v ∧
      (q.program.refersInside n = false → q.Fine w.frames v) := fun plain => fine (fine_of_plain plain)
  simp only [Program.readName, show q.program.attrs.decl? n = some decl from denoted]
  cases decl with
  | host host =>
    obtain ⟨text, kind⟩ := host
    cases kind with
    | value =>
      -- a constant is bound in the root frame
      obtain ⟨owner, inside, owns, bound⟩ := can.sees.2 _ denotes
      obtain rfl := h.frames.owner_unique inside owns (h.frames.root_mem live) h.frames.scope?_root
      obtain ⟨v, bound⟩ := Option.isSome_iff_exists.mp bound
      simp only [rooted, bound]
      exact fine (h.bindings _ _ _ bound)
    | function => exact plain fun _ same => by cases same
    | type => exact plain fun _ same => by cases same
  | node declaration =>
    have stored : (scope, name) ∈ (q.context n).names →
        Yields Abort.Named
          (fun v => q.CanCall w.frames env.current v ∧
            (q.program.refersInside n = false → q.Fine w.frames v))
          (do
            let scope ← Abort.ofFault (q.program.scopeOf n (q.program.text name))
            Abort.ofFault (env.get w.frames scope name (q.program.text name))) := by
      intro member
      obtain ⟨g, v, bound, read⟩ := get_ok h.frames rooted (can.sees.2 _ member) (q.program.text name)
      rw [scopeOf_ok here]
      show Yields Abort.Named _ (Abort.ofFault (env.get w.frames scope name (q.program.text name)))
      rw [read]
      exact fine (h.bindings g name v bound)
    simp only [Scoping.Denotes] at denotes ⊢
    split at denotes
    · next other initializer declared =>
      rw [Program.kind_eq_ok.mpr declared]
      exact stored denotes
    · next other declared =>
      rw [Program.kind_eq_ok.mpr declared]
      exact stored denotes
    · next other parameters body declared =>
      rw [Program.kind_eq_ok.mpr declared]
      refine ⟨fun _ same => by cases same; exact can.sees.anti denotes.within,
        fun outside _ same => ?_⟩
      cases same
      have atRoot : q.program.attrs.scope? declaration = some q.program.attrs.rootScope := by
        simpa [Program.refersInside, found, show q.program.attrs.decl? n = _ from denoted,
          show q.program.arena.kind? declaration = _ from declared] using outside
      obtain rfl : q.rootScope = scope := Option.some.inj (atRoot.symm.trans denotes.declared)
      exact (h.frames.sees_outward (can.sees.anti denotes.within) denotes.wellFormed denotes.head
        (h.frames.root_mem live) h.frames.scope?_root).2
    · next other fields declared =>
      rw [Program.kind_eq_ok.mpr declared]
      exact plain fun _ same => by cases same
    · exact denotes.elim

/-! ## 3. Ways to go on -/

variable (q) in
/-- Everything but what a thread does next is fine, once what is promised is bound. -/
structure Stands (promised : List (ScopeId × Name)) (s : Turn) : Prop where
  world : q.WorldFine s.world
  root : s.env.root = Frames.root
  live : s.world.frames.Live s.env.current
  stack : q.StackFine s.world.frames s.env.current promised s.stack

variable {s : Turn} {v : Value} {promised : List (ScopeId × Name)}

/-- A promise is kept when what was promised is bound. -/
theorem Stands.kept (h : q.Stands promised s)
    (bound : ∀ x ∈ promised, s.world.frames.Bound s.env.current x) : q.Stands [] s :=
  ⟨h.world, h.root, h.live, h.stack.kept bound⟩

theorem Stands.goOn (h : q.Stands [] s) (control : Control)
    (fine : q.ControlFine s.world.frames s.env.current s.stack control) :
    q.TurnFine { s with control } :=
  ⟨h.world, h.root, h.live, fine⟩

theorem Stands.give (h : q.Stands [] s) (fine : q.Fine s.world.frames v) : q.TurnFine (s.give v) :=
  h.goOn (.give v) ⟨.inl fine, h.stack⟩

theorem Stands.givePlain (h : q.Stands [] s) (plain : v.Plain) : q.TurnFine (s.give v) :=
  h.give (fine_of_plain plain)

theorem Stands.giveVoid (h : q.Stands [] s) : q.TurnFine (s.give .void) :=
  h.givePlain fun _ same => by cases same

/-- An exit needs no promise. -/
theorem Stands.leave (h : q.Stands promised s) {e : Exit} (fine : q.ExitFine s.world.frames e) :
    q.TurnFine (s.leave e) :=
  ⟨h.world, h.root, h.live, fine, promised, h.stack⟩

theorem Stands.raise (h : q.Stands promised s) {cause : Cause} (named : cause.Named) :
    q.TurnFine (s.raise q.program n cause) :=
  h.leave named

theorem Stands.abort (h : q.Stands [] s) {a : Abort} (named : a.Named) :
    q.TurnFine (s.abort q.program n a) := by
  cases a with
  | fault cause => exact h.raise named
  | outOfRange read => exact h.leave trivial
  | diverges => exact h.goOn .spin h.stack

theorem Stands.orAbort (h : q.Stands [] s) {α : Type} {fine : α → Prop} {result : Except Abort α}
    {next : α → Turn} (yields : Yields Abort.Named fine result)
    (goesOn : ∀ a, fine a → q.TurnFine (next a)) :
    q.TurnFine (s.orAbort q.program n result next) := by
  cases result with
  | ok a => exact goesOn a yields
  | error e => exact h.abort yields

theorem Stands.orFault (h : q.Stands [] s) {α : Type} {fine : α → Prop} {result : Except Cause α}
    {next : α → Turn} (yields : Yields Cause.Named fine result)
    (goesOn : ∀ a, fine a → q.TurnFine (next a)) :
    q.TurnFine (s.orFault q.program n result next) := by
  cases result with
  | ok a => exact goesOn a yields
  | error e => exact h.raise yields

/-- Writing to the heap moves no thread. -/
theorem Stands.withHeap (h : q.Stands [] s) {heap : Heap}
    (fine : heap.Holds (q.Fine s.world.frames)) : q.Stands [] { s with world.heap := heap } :=
  ⟨⟨h.world.frames, h.world.bindings, fine⟩, h.root, h.live, h.stack⟩

theorem Stands.ofNest (h : q.Stands [] s) {result : Except Abort Nest}
    (yields : Yields Abort.Named (Nest.Holds Value.IsData) result) :
    q.TurnFine (s.ofNest q.program n result) := by
  cases result with
  | error e => exact h.abort yields
  | ok nest =>
    obtain ⟨fine, heap⟩ := h.world.heap.place (fun _ data => fine_of_plain data.plain) nest yields
    cases nest with
    | leaf v => exact h.give fine
    | row elements => exact (h.withHeap heap).give fine

/-- Evaluating a node, with something on the stack that waits for it. -/
theorem Stands.await (h : q.Stands [] s) {waiting : Pending}
    (usable : q.Usable s.world.frames s.env.current m)
    (stack : q.StackFine s.world.frames s.env.current [] (waiting :: s.stack)) :
    q.TurnFine (s.await m waiting) :=
  ⟨h.world, h.root, h.live, usable.toEvaluable, usable.top, [], List.forall_mem_nil _, stack⟩

/-- Statements are run in a frame of their scopes that binds what they count on. -/
theorem Stands.statements (h : q.Stands [] s) {Γ Δ : Context} {statements : List NodeId}
    (path : s.world.frames.path s.env.current = Γ.scopes)
    (bound : ∀ x ∈ Γ.names, s.world.frames.Bound s.env.current x)
    (sequence : q.scoping.Sequence Γ statements Δ) : q.TurnFine (s.runStatements statements) := by
  cases sequence with
  | nil => exact h.giveVoid
  | cons names first declares others =>
    have usable := usable_of_statement first path bound
    refine ⟨h.world, h.root, h.live, usable.toEvaluable, usable.top, names, declares,
      List.forall_mem_nil _, List.forall_mem_nil _, ⟨(Γ.declare names).next, Δ, path, ?_, others⟩, h.stack⟩
    intro x member
    rcases List.mem_append.mp member with new | old
    · exact .inr new
    · exact .inl (bound x old)

/-! ## 4. The functions of the evaluator -/

theorem kindOf_ok {p : Program} (found : p.arena.kind? n = some kind) :
    Abort.ofRead (p.kind n) = .ok kind := by
  rw [Program.kind_eq_ok.mpr found]
  rfl

/-- A name of a scope on the path is written. -/
theorem Stands.write (h : q.Stands promised s) {scope : ScopeId} (name : Name) (text : String)
    (inside : scope ∈ s.world.frames.path s.env.current) (fine : q.Fine s.world.frames v) :
    ∃ g, s.env.frameToSet s.world.frames scope text = .ok g ∧
      q.Stands promised { s with world.frames := s.world.frames.define g name v } ∧
      (s.world.frames.define g name v).Bound s.env.current (scope, name) ∧
      Frames.Onward q.rootScope s.world.frames (s.world.frames.define g name v) := by
  obtain ⟨g, member, found, owns⟩ := frameToSet_ok h.world.frames h.root inside text
  have later := h.world.frames.toLinked.onward_define g name v
  have live := (h.world.frames.of_mem_chain member).1
  refine ⟨g, found, ⟨h.world.define g name fine, h.root, later.grows.live h.live,
    h.stack.onward later h.live⟩, ⟨g, ?_, ?_, ?_⟩, later⟩
  · rwa [Frames.chain_define]
  · rwa [Frames.scope?_define]
  · rw [Frames.lookup_define, if_pos ⟨rfl, rfl, live⟩]
    rfl

/-- A new frame is entered, and the thread goes back to where it stood when the frame is left. -/
theorem Stands.inside (h : q.Stands [] s) {g : FrameId} (live : s.world.frames.Live g)
    {scope : ScopeId} (new : scope ∉ s.world.frames.path g) (bindings : Bindings)
    (fine : ∀ name v, bindings.find? name = some v → q.Fine s.world.frames v) {waiting : Pending}
    (back : waiting = .leaveBlock s.env.current ∨ waiting = .leaveCall s.env.current) :
    q.Stands []
      { s with
        world.frames := (s.world.frames.push scope bindings (some g)).2
        env := s.env.restore (s.world.frames.push scope bindings (some g)).1
        stack := waiting :: s.stack } := by
  have later := h.world.frames.toLinked.onward_push live scope bindings
  refine ⟨h.world.push live new bindings fine, h.root, Frames.live_push .., ?_⟩
  have rest := StackFine.onward later h.stack h.live
  rcases back with rfl | rfl
  · exact ⟨List.forall_mem_nil _, List.forall_mem_nil _, later.grows.live h.live, rest⟩
  · exact ⟨List.forall_mem_nil _, List.forall_mem_nil _, later.grows.live h.live, rest⟩

theorem block_fine (h : q.Stands [] s) {statements : List NodeId}
    (found : q.program.arena.kind? n = some (.block statements))
    (can : q.Evaluable s.world.frames s.env.current n) :
    q.TurnFine (s.enter q.program n (.block statements)) := by
  obtain ⟨outside, scope, Δ, -, here, -, new, sequence⟩ := (q.nodes n _ found).fits
  have path : s.world.frames.path s.env.current = (q.context n).scopes := can.stands _ found rfl
  have linked := h.world.frames.toLinked
  have inside := h.inside h.live (path ▸ new) .empty (fun _ _ bound => nomatch bound) (.inl rfl)
  simp only [Turn.enter, scopeOf_ok here]
  refine inside.statements ?_ (fun x member => ?_) sequence
  · rw [Context.scopes_push]
    exact (linked.path_push h.live scope .empty).trans (congrArg (scope :: ·) path)
  · exact linked.bound_push h.live scope .empty (.inl (can.sees.2 x member))

/-- The first step of the evaluation of a node that declares no variable. -/
theorem enter_plain (h : q.Stands [] s) (found : q.program.arena.kind? n = some kind)
    (can : q.Evaluable s.world.frames s.env.current n)
    (top : q.program.refersInside n = true → calling s.stack)
    (plain : ∀ name initializer, kind ≠ .varDecl name initializer)
    (silent : ∀ declaration, kind ≠ .launchDecl declaration) :
    q.TurnFine (s.enter q.program n kind) := by
  have operand : ∀ {m}, m ∈ kind.operands → q.Usable s.world.frames s.env.current m :=
    can.operand found
  cases kind with
  | intLiteral | floatLiteral | stringLiteral => exact h.givePlain fun _ same => by cases same
  | reference name =>
    refine h.orAbort (readName_yields h.world h.root h.live found can) fun v ⟨callable, fine⟩ => ?_
    refine h.goOn (.give v) ⟨?_, h.stack⟩
    cases inside : q.program.refersInside n with
    | true => exact .inr ⟨callable, top inside⟩
    | false => exact .inl (fine inside)
  | constructor reference =>
    simp only [Turn.enter]
    split
    · exact h.givePlain fun _ same => by cases same
    · exact h.raise fun _ same => by cases same
  | parenthesized inner =>
    have usable := operand List.mem_cons_self
    exact h.goOn (.eval inner) ⟨usable.toEvaluable, usable.top, [], List.forall_mem_nil _, h.stack⟩
  | arrayLiteral elements =>
    cases elements with
    | nil =>
      have heap := h.world.heap.newArray fun v (member : v ∈ #[]) => absurd member (Array.not_mem_empty v)
      exact (h.withHeap heap).givePlain fun _ same => by cases same
    | cons first rest =>
      exact h.await (operand List.mem_cons_self)
        ⟨fun m member => operand (List.mem_cons_of_mem _ member), List.forall_mem_nil _, h.stack⟩
  | arrayAccess array index =>
    exact h.await (operand List.mem_cons_self)
      ⟨fun m member => operand (List.mem_cons_of_mem _ member), List.forall_mem_nil _, h.stack⟩
  | fieldAccess stem field =>
    exact h.await (operand List.mem_cons_self)
      ⟨List.forall_mem_nil _, List.forall_mem_nil _, h.stack⟩
  | call callee arguments =>
    have callable := can.callee found rfl
    exact ⟨h.world, h.root, h.live, callable, fun _ => trivial, [], List.forall_mem_nil _,
      fun m member => operand member, List.forall_mem_nil _, h.stack⟩
  | not inner =>
    exact h.await (operand List.mem_cons_self)
      ⟨List.forall_mem_nil _, List.forall_mem_nil _, h.stack⟩
  | binary op left right =>
    simp only [Turn.enter]
    split
    · exact h.await (operand List.mem_cons_self)
        ⟨fun m member => operand (List.mem_cons_of_mem _ member), List.forall_mem_nil _, h.stack⟩
    · exact h.await (operand List.mem_cons_self)
        ⟨fun m member => operand (List.mem_cons_of_mem _ member), List.forall_mem_nil _, h.stack⟩
  | assignment target value =>
    have usable := operand (m := target) List.mem_cons_self
    have value := operand (m := value) (List.mem_cons_of_mem _ List.mem_cons_self)
    obtain ⟨⟨shape, there, -⟩, -⟩ := (q.nodes n _ found).operands target List.mem_cons_self
    simp only [Turn.enter, kindOf_ok there]
    cases shape with
    | reference name =>
      obtain ⟨scope, decl, here, -, inside, -⟩ := (q.nodes target _ there).fits
      exact h.await value ⟨List.forall_mem_nil _, List.forall_mem_nil _,
        ⟨scope, here, usable.sees.1.subset inside⟩, h.stack⟩
    | arrayAccess array index =>
      have inner : ∀ {m}, m ∈ [array, index] → q.Usable s.world.frames s.env.current m :=
        usable.toEvaluable.operand there
      exact h.await (inner List.mem_cons_self)
        ⟨List.forall_mem_cons.mpr ⟨inner (List.mem_cons_of_mem _ List.mem_cons_self),
          List.forall_mem_singleton.mpr value⟩, List.forall_mem_nil _, h.stack⟩
    | fieldAccess stem field =>
      exact h.await (usable.toEvaluable.operand there List.mem_cons_self)
        ⟨List.forall_mem_singleton.mpr value, List.forall_mem_nil _, h.stack⟩
    | _ => exact h.raise fun _ same => by cases same
  | root statements =>
    obtain ⟨Δ, sequence⟩ := (q.nodes n _ found).fits
    exact h.statements (can.stands _ found rfl) can.sees.2 sequence
  | block statements => exact block_fine h found can
  | expression inner =>
    exact h.await (operand List.mem_cons_self)
      ⟨List.forall_mem_nil _, List.forall_mem_nil _, h.stack⟩
  | conditional condition thenBranch elseBranch =>
    exact h.await (operand List.mem_cons_self)
      ⟨fun m member => can.substatement found rfl member, List.forall_mem_nil _, h.stack⟩
  | loop condition body =>
    have condition := operand (m := condition) List.mem_cons_self
    have body := can.substatement (m := body) found rfl List.mem_cons_self
    exact h.await condition
      ⟨List.forall_mem_cons.mpr ⟨condition, List.forall_mem_singleton.mpr body⟩,
        List.forall_mem_nil _, h.stack⟩
  | ret value =>
    cases value with
    | none => exact h.leave (fine_of_plain fun _ same => by cases same)
    | some value =>
      exact h.await (operand List.mem_cons_self)
        ⟨List.forall_mem_nil _, List.forall_mem_nil _, h.stack⟩
  | launch call =>
    exact h.goOn (.submit [.eval call])
      ⟨List.forall_mem_singleton.mpr ⟨call, rfl, operand List.mem_cons_self⟩, h.stack⟩
  | launchDecl declaration => exact absurd rfl (silent declaration)
  | protect inner =>
    exact h.goOn (.findSite n inner) ⟨can.substatement found rfl List.mem_cons_self, h.stack⟩
  | varDecl name initializer => exact absurd rfl (plain name initializer)
  | funDecl | parameter | structDecl | fieldDecl => exact h.giveVoid

/-- The innermost scope of a statement's context is the one of the frame where it runs. -/
theorem Evaluable.inside {scope : ScopeId} (can : q.Evaluable fs f n)
    (head : (q.context n).scopes.head? = some scope) : scope ∈ fs.path f :=
  can.sees.1.subset (List.mem_of_mem_head? head)

/-- A variable that another task computes is bound before the task is launched. -/
theorem launchDecl_fine {declaration : NodeId} (h : q.Stands promised s)
    (found : q.program.arena.kind? n = some (.launchDecl declaration))
    (can : q.Evaluable s.world.frames s.env.current n)
    (declares : ∀ x ∈ promised, q.scoping.Declares n x) :
    q.TurnFine (s.enter q.program n (.launchDecl declaration)) := by
  have usable := can.substatement (m := declaration) found rfl List.mem_cons_self
  obtain ⟨⟨shape, there, -⟩, -, -, -⟩ :=
    (q.nodes n _ found).substatements declaration List.mem_cons_self
  simp only [Turn.enter, kindOf_ok there]
  cases shape with
  | varDecl name initializer =>
    obtain ⟨scope, here, head⟩ := (q.nodes declaration _ there).fits
    have fine : q.Fine s.world.frames .void := fine_of_plain fun _ same => by cases same
    obtain ⟨g, owner, after, bound, later⟩ :=
      h.write name (q.program.text name) (usable.inside head) fine
    simp only [Turn.orAbort, Turn.orFault, scopeOf_ok here, owner]
    -- the promise is kept already now, before the task has begun
    have kept := after.kept fun x member => by
      cases declares x member with
      | stored _ _ _ same _ => cases found.symm.trans same
      | launched _ initializer' name' scope' same declared here' =>
        cases found.symm.trans same
        cases there.symm.trans declared
        cases here.symm.trans here'
        exact bound
    have job := usable.onward later h.live
    exact kept.goOn (.submit [.eval declaration])
      ⟨List.forall_mem_singleton.mpr ⟨declaration, rfl, job⟩, kept.stack⟩
  | _ => exact h.raise fun _ same => by cases same

theorem enter_fine (h : q.Stands promised s) (found : q.program.arena.kind? n = some kind)
    (can : q.Evaluable s.world.frames s.env.current n)
    (top : q.program.refersInside n = true → calling s.stack)
    (declares : ∀ x ∈ promised, q.scoping.Declares n x) :
    q.TurnFine (s.enter q.program n kind) := by
  cases kind with
  | launchDecl declaration => exact launchDecl_fine h found can declares
  | varDecl name initializer =>
    obtain ⟨scope, here, head⟩ := (q.nodes n _ found).fits
    have rest : q.StackFine s.world.frames s.env.current [(scope, name)] s.stack := by
      refine h.stack.mono fun x member => ?_
      cases declares x member with
      | stored _ _ _ same here' =>
        cases found.symm.trans same
        cases here.symm.trans here'
        exact List.mem_cons_self
      | launched _ _ _ _ same _ _ => cases found.symm.trans same
    have usable := can.operand (m := initializer) found List.mem_cons_self
    exact ⟨h.world, h.root, h.live, usable.toEvaluable, usable.top, [], List.forall_mem_nil _,
      List.forall_mem_nil _, List.forall_mem_nil _, scope, here, can.inside head, rest⟩
  | _ =>
    refine enter_plain (h.kept fun x member => ?_) found can top (by simp) (by simp)
    cases declares x member with
    | stored _ _ _ same _ => cases found.symm.trans same
    | launched _ _ _ _ same _ _ => cases found.symm.trans same

theorem watched_yields {env : Env} (sound : fs.Sound q.rootScope) (rooted : env.root = Frames.root)
    (can : q.Usable fs env.current n) :
    Yields Abort.Named (fun _ => True) (q.program.watched env fs n) := by
  cases found : q.program.arena.kind? n with
  | none =>
    unfold Program.watched Program.kind
    rw [found]
    trivial
  | some kind =>
    unfold Program.watched
    rw [kindOf_ok found]
    cases kind with
    | reference name =>
      obtain ⟨scope, decl, here, -, inside, -⟩ := (q.nodes n _ found).fits
      obtain ⟨g, -, owner, -⟩ := sound.frameFor rooted (can.sees.1.subset inside)
      simp only [bind, Except.bind, show q.program.attrs.scope? n = some scope from here,
        Option.bind_some, owner]
      trivial
    | _ => exact fun _ same => by cases same

theorem callBuiltin_fine (h : q.Stands [] s) (name : String) {first : Option NodeId}
    (usable : ∀ target, first = some target → q.Usable s.world.frames s.env.current target)
    (values : List Value) : q.TurnFine (s.callBuiltin q.program n name first values) := by
  simp only [Turn.callBuiltin]
  split
  · split
    · refine h.orAbort Yields.any fun text _ => ?_
      split
      · exact h.givePlain fun _ same => by cases same
      · exact h.goOn (.startLine text) h.stack
    · exact h.raise fun _ same => by cases same
  · split
    · split
      · next target =>
        refine h.orAbort (watched_yields h.world.frames h.root (usable target rfl)) fun x _ => ?_
        exact h.goOn (.await n x.1 x.2) h.stack
      · exact h.raise fun _ same => by cases same
    · exact h.raise fun _ same => by cases same

theorem readField_yields {heap : Heap} (h : heap.Holds (q.Fine fs)) (stem : Value) (field : Name) :
    Yields Cause.Named (q.Fine fs) (q.program.readField heap stem field) := by
  simp only [Program.readField]
  split
  · exact fun _ same => by cases same
  · split
    · exact fine_of_plain fun _ same => by cases same
    · exact fun _ same => by cases same
  · split
    · next v found => exact h.field? found
    · exact fun _ same => by cases same
  · exact fun _ same => by cases same

theorem instanceFields_yields (fields : List NodeId) {values : List Value}
    (fine : ∀ v ∈ values, q.Fine fs v) :
    Yields (fun _ => True) (fun made => ∀ x ∈ made, q.Fine fs x.2)
      (q.program.instanceFields fields values) := by
  induction fields generalizing values with
  | nil => exact List.forall_mem_nil _
  | cons field fields ih =>
    cases values with
    | nil => exact List.forall_mem_nil _
    | cons value values =>
      obtain ⟨first, others⟩ := List.forall_mem_cons.mp fine
      simp only [Program.instanceFields]
      have any : Yields (fun _ => True) (fun _ => True) (q.program.kind field) := by
        cases q.program.kind field <;> trivial
      refine any.bind fun kind _ => ?_
      split
      · refine (ih others).bind fun made rest => ?_
        refine List.forall_mem_cons.mpr ⟨?_, rest⟩
        exact Value.widen_holds (fun _ data => fine_of_plain data.plain) first _
      · exact ih others

theorem instantiate_yields (declaration : NodeId) {values : List Value}
    (fine : ∀ v ∈ values, q.Fine fs v) :
    Yields Abort.Named (fun r => ∀ x ∈ r.fields, q.Fine fs x.2)
      (q.program.instantiate declaration values) := by
  unfold Program.instantiate
  refine Yields.any.bind fun kind _ => ?_
  split
  · next name fields =>
    split
    · exact fun _ same => by cases same
    · have each := instanceFields_yields fields fine
      refine (Yields.ofRead fun made result => ?_).bind fun made fine => fine
      rw [result] at each
      exact each
  · exact fun _ same => by cases same

theorem apply_fine (h : q.Stands [] s) {callee : Value}
    (callable : q.CanCall s.world.frames s.env.current callee) {first : Option NodeId}
    (usable : ∀ target, first = some target → q.Usable s.world.frames s.env.current target)
    {values : List Value} (fine : ∀ v ∈ values, q.Fine s.world.frames v) :
    q.TurnFine (s.apply q.program n callee first values) := by
  simp only [Turn.apply]
  split
  · exact callBuiltin_fine h _ usable values
  · exact h.goOn (.invoke _ _ values) ⟨callable, fine, h.stack⟩
  · refine h.orAbort (instantiate_yields _ fine) fun record fields => ?_
    exact (h.withHeap (h.world.heap.newRecord fields)).givePlain fun _ same => by cases same
  · exact h.raise fun _ same => by cases same
  · exact h.raise fun _ same => by cases same

theorem Fine.widen (fine : q.Fine fs v) (ty : Ty) : q.Fine fs (v.widen ty) :=
  Value.widen_holds (fun _ data => fine_of_plain data.plain) fine ty

/-- Hands a value to a pending that goes on in the same frame. -/
theorem resume_plain (h : q.Stands [] s) {waiting : Pending} {stack : List Pending}
    (plain : waiting.goesOn = true)
    (nodes : ∀ n ∈ waiting.nodes, q.Usable s.world.frames s.env.current n)
    (values : ∀ v ∈ waiting.values, q.Fine s.world.frames v)
    (value : q.Fine s.world.frames v ∨
      q.CanCall s.world.frames s.env.current v ∧ calling (waiting :: stack)) :
    q.TurnFine (s.resume q.program v waiting) := by
  have ordinary : ¬calling (waiting :: stack) → q.Fine s.world.frames v :=
    fun other => value.resolve_right fun h => other h.2
  cases waiting with
  | element node done rest =>
    have fine := ordinary not_false
    cases rest with
    | nil =>
      have all : ∀ w ∈ (done.reverse ++ [v]).toArray, q.Fine s.world.frames w :=
        fun w member => forall_mem_done values fine w (List.mem_toArray.mp member)
      exact (h.withHeap (h.world.heap.newArray all)).givePlain fun _ same => by cases same
    | cons next rest =>
      exact h.await (nodes next List.mem_cons_self)
        ⟨fun m member => nodes m (List.mem_cons_of_mem _ member),
          List.forall_mem_cons.mpr ⟨fine, values⟩, h.stack⟩
  | accessedArray node index =>
    refine h.orFault (Arith.expectArray_yields v).named fun a _ => ?_
    exact h.await (nodes index List.mem_cons_self)
      ⟨List.forall_mem_nil _, List.forall_mem_nil _, h.stack⟩
  | accessIndex node a =>
    refine h.orFault (checkIndex_yields v).named fun i _ => ?_
    split
    · next v found => exact h.give (h.world.heap.element? found)
    · exact h.raise fun _ same => by cases same
  | readStem node field =>
    exact h.orFault (readField_yields h.world.heap v field) fun v fine => h.give fine
  | callee node arguments =>
    have callable := value.elim (fun fine => fine.canCall h.world.frames h.live) And.left
    cases arguments with
    | nil => exact apply_fine h callable (fun _ same => by cases same) (List.forall_mem_nil _)
    | cons first rest =>
      exact h.await (nodes first List.mem_cons_self)
        ⟨nodes, List.forall_mem_nil _, callable, h.stack⟩
  | negated node | truth node =>
    refine h.orFault (Arith.expectBool_yields v).named fun b _ => ?_
    exact h.givePlain fun _ same => by cases same
  | shortCircuit node op right =>
    refine h.orFault (Arith.expectBool_yields v).named fun b _ => ?_
    split
    · exact h.givePlain fun _ same => by cases same
    · exact h.await (nodes right List.mem_cons_self)
        ⟨List.forall_mem_nil _, List.forall_mem_nil _, h.stack⟩
  | leftOperand node op left right =>
    exact h.await (nodes right List.mem_cons_self)
      ⟨List.forall_mem_nil _, List.forall_mem_singleton.mpr (ordinary not_false), h.stack⟩
  | rightOperand node op left right l =>
    simp only [Turn.resume]
    split
    · exact h.ofNest ((Arith.matrixProduct_yields ..).because fun _ fault => fault.ofOperands.named)
    · exact h.ofNest (Arith.binary_yields (fun _ inside => inside.named) _ _ _ _ _ _ _ fun _ _ => .any)
  | storeArray node target index value =>
    refine h.orFault (Arith.expectArray_yields v).named fun a _ => ?_
    exact h.await (nodes index List.mem_cons_self)
      ⟨fun m member => nodes m (List.mem_cons_of_mem _ member), List.forall_mem_nil _, h.stack⟩
  | storeIndex node target last a =>
    refine h.orFault (checkIndex_yields v).named fun i _ => ?_
    exact h.await (nodes last List.mem_cons_self)
      ⟨List.forall_mem_nil _, List.forall_mem_nil _, h.stack⟩
  | storeElement node target a i =>
    have fine := Fine.widen (ordinary not_false) (q.program.typeOf target)
    simp only [Turn.resume]
    split
    · exact (h.withHeap (h.world.heap.setElement a i fine)).give fine
    · exact h.raise fun _ same => by cases same
  | storeStem node target last field =>
    exact h.await (nodes last List.mem_cons_self)
      ⟨List.forall_mem_nil _, List.forall_mem_nil _, h.stack⟩
  | storeField node target stem field =>
    have fine := Fine.widen (ordinary not_false) (q.program.typeOf target)
    simp only [Turn.resume]
    split
    · exact h.raise fun _ same => by cases same
    · next r =>
      split
      · exact (h.withHeap (h.world.heap.setField r field fine)).give fine
      · exact h.raise fun _ same => by cases same
    · exact h.raise fun _ same => by cases same
  | dropped => exact h.giveVoid
  | branch node thenBranch elseBranch =>
    refine h.orFault (Arith.expectBool_yields v).named fun b _ => ?_
    split
    · exact h.await (nodes thenBranch List.mem_cons_self)
        ⟨List.forall_mem_nil _, List.forall_mem_nil _, h.stack⟩
    · cases elseBranch with
      | none => exact h.giveVoid
      | some elseBranch =>
        exact h.await (nodes elseBranch (List.mem_cons_of_mem _ List.mem_cons_self))
          ⟨List.forall_mem_nil _, List.forall_mem_nil _, h.stack⟩
  | loopTest node condition body =>
    refine h.orFault (Arith.expectBool_yields v).named fun b _ => ?_
    split
    · exact h.await (nodes body (List.mem_cons_of_mem _ List.mem_cons_self))
        ⟨nodes, List.forall_mem_nil _, h.stack⟩
    · exact h.giveVoid
  | loopBody node condition body =>
    exact h.await (nodes condition List.mem_cons_self) ⟨nodes, List.forall_mem_nil _, h.stack⟩
  | returned => exact h.leave (ordinary not_false)
  | leaveSite site lock | unlock lock =>
    exact ⟨⟨h.world.frames, h.world.bindings, h.world.heap⟩, h.root, h.live,
      .inl (fine_of_plain fun _ same => by cases same), h.stack⟩
  | statements | declaration | argument | assignName | leaveBlock | leaveCall => cases plain

theorem resume_fine {waiting : Pending} {stack : List Pending} (world : q.WorldFine s.world)
    (root : s.env.root = Frames.root) (live : s.world.frames.Live s.env.current)
    (pending : q.StackFine s.world.frames s.env.current [] (waiting :: s.stack))
    (value : q.Fine s.world.frames v ∨
      q.CanCall s.world.frames s.env.current v ∧ calling (waiting :: stack)) :
    q.TurnFine (s.resume q.program v waiting) := by
  obtain ⟨nodes, values, here⟩ := pending
  cases waiting with
  | statements rest =>
    have h : q.Stands [] s := ⟨world, root, live, here.2⟩
    obtain ⟨Γ, Δ, path, bound, sequence⟩ := here.1
    exact h.statements path (fun x member => (bound x member).resolve_right List.not_mem_nil) sequence
  | declaration node name =>
    obtain ⟨scope, there, inside, rest⟩ := here
    have h : q.Stands [(scope, name)] s := ⟨world, root, live, rest⟩
    have fine := Fine.widen (value.resolve_right And.right) (q.program.typeOf node)
    obtain ⟨g, owner, after, bound, later⟩ := h.write name (q.program.text name) inside fine
    simp only [Turn.resume, Turn.orFault, scopeOf_ok there, owner]
    exact (after.kept (List.forall_mem_singleton.mpr bound)).giveVoid
  | assignName node target name =>
    obtain ⟨⟨scope, there, inside⟩, rest⟩ := here
    have h : q.Stands [] s := ⟨world, root, live, rest⟩
    have fine := Fine.widen (value.resolve_right And.right) (q.program.typeOf target)
    obtain ⟨g, owner, after, -, later⟩ := h.write name (q.program.text name) inside fine
    simp only [Turn.resume, Turn.orFault, scopeOf_ok there, owner]
    exact after.give (fine.onward later)
  | argument node callee first done rest =>
    have h : q.Stands [] s := ⟨world, root, live, here.2⟩
    have fine : q.Fine s.world.frames v := value.resolve_right And.right
    cases rest with
    | nil =>
      refine apply_fine h here.1 (fun target same => nodes target ?_) (forall_mem_done values fine)
      subst same
      exact List.mem_cons_self
    | cons next rest =>
      refine h.await (nodes next (List.mem_append_right _ List.mem_cons_self))
        ⟨fun m member => nodes m ?_, List.forall_mem_cons.mpr ⟨fine, values⟩, here⟩
      exact (List.mem_append.mp member).elim (List.mem_append_left _)
        fun later => List.mem_append_right _ (List.mem_cons_of_mem _ later)
  | leaveBlock saved | leaveCall saved =>
    have back : q.Stands [] { s with env := s.env.restore saved } := ⟨world, root, here.1, here.2⟩
    exact back.giveVoid
  | _ => exact resume_plain ⟨world, root, live, here⟩ rfl nodes values value

theorem unwind_fine {waiting : Pending} {e : Exit} (world : q.WorldFine s.world)
    (root : s.env.root = Frames.root) (live : s.world.frames.Live s.env.current)
    (pending : q.StackFine s.world.frames s.env.current promised (waiting :: s.stack))
    (fine : q.ExitFine s.world.frames e) : q.TurnFine (s.unwind e waiting) := by
  obtain ⟨-, -, here⟩ := pending
  cases waiting with
  | statements | argument | assignName => exact Stands.leave ⟨world, root, live, here.2⟩ fine
  | declaration node name =>
    obtain ⟨scope, -, -, rest⟩ := here
    exact Stands.leave ⟨world, root, live, rest⟩ fine
  | leaveBlock saved =>
    have back : q.Stands [] { s with env := s.env.restore saved } := ⟨world, root, here.1, here.2⟩
    exact back.leave fine
  | leaveCall saved =>
    have back : q.Stands [] { s with env := s.env.restore saved } := ⟨world, root, here.1, here.2⟩
    cases e with
    | ret v => exact back.give fine
    | fault | crash => exact back.leave fine
  | leaveSite | unlock =>
    exact ⟨⟨world.frames, world.bindings, world.heap⟩, root, live, fine, [], here⟩
  | _ => exact Stands.leave ⟨world, root, live, here⟩ fine

/-- The frame of a call binds every parameter, to a value that was given. -/
theorem bindParameters_yields {parameters : List NodeId} {names : List Name}
    (declared : List.Forall₂ (fun m name => q.program.arena.kind? m = some (.parameter name))
      parameters names) {arguments : List Value} (enough : parameters.length = arguments.length)
    (fine : ∀ v ∈ arguments, q.Fine fs v) (bindings : Bindings)
    (before : ∀ name v, bindings.find? name = some v → q.Fine fs v) :
    ∃ bound, q.program.bindParameters parameters arguments bindings = .ok bound ∧
      (∀ name, (bindings.find? name).isSome ∨ name ∈ names → (bound.find? name).isSome) ∧
      ∀ name v, bound.find? name = some v → q.Fine fs v := by
  induction declared generalizing arguments bindings with
  | nil =>
    refine ⟨bindings, rfl, fun name h => ?_, before⟩
    exact h.resolve_right List.not_mem_nil
  | @cons parameter name parameters names here rest ih =>
    cases arguments with
    | nil => cases enough
    | cons argument arguments =>
      obtain ⟨first, others⟩ := List.forall_mem_cons.mp fine
      simp only [Program.bindParameters, Program.kind_eq_ok.mpr here, bind, Except.bind]
      obtain ⟨bound, made, all, after⟩ := ih (Nat.succ.inj enough) others
        (bindings.insert name (argument.widen (q.program.typeOf parameter))) fun other v found => by
          rw [Bindings.find?_insert] at found
          split at found
          · cases found
            exact first.widen _
          · exact before other v found
      refine ⟨bound, made, fun other h => all other ?_, after⟩
      rw [Bindings.find?_insert]
      rcases h with old | member
      · left
        split
        · rfl
        · exact old
      · rcases List.mem_cons.mp member with rfl | later
        · rw [if_pos rfl]
          exact .inl rfl
        · exact .inr later

theorem invoke_fine (h : q.Stands [] s) {function : NodeId}
    (callable : q.CanCall s.world.frames s.env.current (.function (.node function)))
    {arguments : List Value} (fine : ∀ v ∈ arguments, q.Fine s.world.frames v)
    (span : Option Span) : q.TurnFine (s.invoke q.program span function arguments) := by
  have fails : ∀ {cause : Cause}, cause.Named →
      q.TurnFine (Turn.invoke.fail s span cause) := fun named => h.leave named
  simp only [Turn.invoke]
  split
  · exact h.leave trivial
  · next name parameters body found =>
    have found := Program.kind_eq_ok.mp found
    obtain ⟨outside, scope, names, head, -, opens, parent, new, declared, block⟩ :=
      (q.nodes function _ found).fits
    split
    · exact fails fun _ same => by cases same
    · next enough =>
      obtain ⟨bindings, bound, all, after⟩ := bindParameters_yields declared
        (Decidable.not_not.mp enough) fine .empty fun _ _ found => absurd found (by simp)
      have sees := callable function rfl
      have linked := h.world.frames.toLinked
      obtain ⟨g, member, owner, owns⟩ :=
        h.world.frames.frameFor h.root (sees.1.subset (List.mem_of_mem_head? head))
      -- the frame around the call's is the one where the function was declared
      obtain ⟨path, seesThere⟩ :=
        h.world.frames.sees_outward sees (q.nodes function _ found).wellFormed head member owns
      have live := (h.world.frames.of_mem_chain member).1
      have inside := h.inside live (path ▸ new) bindings after (.inr rfl)
      have usable := usable_of_statement block.toStatement
        ((linked.path_push live scope bindings).trans (congrArg (scope :: ·) path)) fun x promise => by
          refine linked.bound_push live scope bindings ?_
          rcases List.mem_append.mp promise with own | outer
          · obtain ⟨name, member, rfl⟩ := List.mem_map.mp own
            exact .inr ⟨rfl, all name (.inr member)⟩
          · exact .inl (seesThere.2 x outer)
      have declaring : q.program.declaringFrame s.env s.world.frames scope = g := by
        simp only [Program.declaringFrame, show q.program.attrs.parent? scope = _ from parent,
          Option.bind_some, owner, Option.getD_some]
      simp only [show q.program.attrs.bodyScope? function = _ from opens, bound, declaring]
      exact inside.goOn (.eval body)
        ⟨usable.toEvaluable, usable.top, [], List.forall_mem_nil _, inside.stack⟩
  · exact fails fun _ same => by cases same

/-! ## 5. Whole steps -/

/-- A thread that sees what it needs still does so after a step. -/
theorem step_fine (fine : q.TurnFine s) (who : ThreadId) : q.TurnFine (s.step q.program who) := by
  obtain ⟨w, env, control, stack⟩ := s
  obtain ⟨world, root, live, fine⟩ := fine
  cases control with
  | eval n =>
    obtain ⟨can, top, promised, declares, rest⟩ := fine
    have h : q.Stands promised ⟨w, env, .eval n, stack⟩ := ⟨world, root, live, rest⟩
    simp only [Turn.step]
    split
    · next kind found => exact enter_fine h (Program.kind_eq_ok.mp found) can top declares
    · exact h.leave trivial
  | give v =>
    obtain ⟨value, rest⟩ := fine
    cases stack with
    | nil => exact ⟨world, root, live, value, rest⟩
    | cons waiting stack => exact resume_fine (s := ⟨w, env, _, stack⟩) world root live rest value
  | leave e =>
    obtain ⟨exit, promised, rest⟩ := fine
    cases stack with
    | nil => exact ⟨world, root, live, exit, promised, rest⟩
    | cons waiting stack => exact unwind_fine (s := ⟨w, env, _, stack⟩) world root live rest exit
  | invoke span function arguments =>
    obtain ⟨callable, arguments, rest⟩ := fine
    exact invoke_fine (s := ⟨w, env, _, stack⟩) ⟨world, root, live, rest⟩ callable arguments span
  | findSite site block =>
    simp only [Turn.step]
    split <;> exact ⟨world, root, live, fine⟩
  | addSite site block => exact ⟨⟨world.frames, world.bindings, world.heap⟩, root, live, fine⟩
  | enterSite site lock block =>
    simp only [Turn.step]
    split
    · obtain ⟨usable, rest⟩ := fine
      exact ⟨⟨world.frames, world.bindings, world.heap⟩, root, live, usable.toEvaluable, usable.top,
        [], List.forall_mem_nil _, List.forall_mem_nil _, List.forall_mem_nil _, rest⟩
    · exact ⟨world, root, live, fine⟩
  | acquire lock inside => exact fine.elim
  | submit jobs =>
    cases jobs with
    | nil => exact Stands.giveVoid ⟨world, root, live, fine.2⟩
    | cons job jobs => exact ⟨world, root, live, fine⟩
  | await n f name =>
    have h : q.Stands [] ⟨w, env, .await n f name, stack⟩ := ⟨world, root, live, fine⟩
    simp only [Turn.step]
    split
    · exact h.giveVoid
    · split
      · exact h.raise fun _ same => by cases same
      · exact ⟨world, root, live, fine⟩
  | startLine text =>
    simp only [Turn.step]
    split
    · exact ⟨⟨world.frames, world.bindings, world.heap⟩, root, live, fine⟩
    · exact ⟨world, root, live, fine⟩
  | writeText | writeBreak => exact ⟨⟨world.frames, world.bindings, world.heap⟩, root, live, fine⟩
  | endLine text =>
    exact ⟨⟨world.frames, world.bindings, world.heap⟩, root, live,
      .inl (fine_of_plain fun _ same => by cases same), fine⟩
  | spin => exact ⟨world, root, live, fine⟩

end Strand.ScopedProgram
