import Strand.Proofs.Course
import Strand.Proofs.Scope.Path
import Strand.Proofs.Scope.Values

/-!
# Programs that mention no node outside of their arena

The arena is read wherever the evaluator is, also through values: a function, a type and a constructor carry
the node that declares them, and are called and written by it. A read out of range ends the thread with a
crash.

Of a program nothing is assumed but that the children of its nodes and the declarations that its nodes denote
are nodes of the arena (`Program.Closed`). Nodes may be in the wrong places, and attributes may be missing or
contradict the nodes. What a thread has still to do mentions nodes of the arena only, and so do the values
that it holds and those in the frames and on the heap. A step keeps this (`step_inRange`), and therefore it
never ends in a crash, which is the one exit that is not in range.
-/

set_option autoImplicit false

namespace Strand

/-! ## 1. In range -/

/-- The arena has the node. -/
def Program.Has (p : Program) (n : NodeId) : Prop := (p.arena.kind? n).isSome

/-- The children of every node are nodes, and so is every declaration that a node denotes. -/
structure Program.Closed (p : Program) : Prop where
  children : ∀ n kind, p.arena.kind? n = some kind → ∀ c ∈ kind.children, p.Has c
  decls : ∀ n d, p.attrs.decl? n = some (.node d) → p.Has d

/-- The node where a pending raises its faults. -/
def Pending.place? : Pending → Option NodeId
  | element n _ _ | accessedArray n _ | accessIndex n _ | readStem n _ | callee n _ | argument n _ _ _ _
  | negated n | shortCircuit n _ _ | truth n | leftOperand n _ _ _ | rightOperand n _ _ _ _
  | assignName n _ _ | storeArray n _ _ _ | storeIndex n _ _ _ | storeElement n _ _ _ | storeStem n _ _ _
  | storeField n _ _ _ | branch n _ _ | loopTest n _ _ | loopBody n _ _ | declaration n _ => some n
  | _ => none

/-- All nodes that a pending evaluates or looks up later. -/
def Pending.mentions : Pending → List NodeId
  | statements rest => rest
  | waiting => waiting.nodes

/-- The values that a pending keeps until it goes on. -/
def Pending.keeps : Pending → List Value
  | element _ done _ => done
  | argument _ called _ done _ => called :: done
  | rightOperand _ _ _ _ l => [l]
  | storeField _ _ stem _ => [stem]
  | _ => []

/-- No report of a panic. -/
def Cause.Ordinary (cause : Cause) : Prop := ∀ message, cause ≠ .taskPanicked message

/-- A fault or an endless operation, and nothing that was read out of range. -/
def Abort.Ordinary : Abort → Prop
  | .fault cause => cause.Ordinary
  | .outOfRange _ => False
  | .diverges => True

section

variable (p : Program)

/-- A value whose declaration, if it has one, is a node of the arena. -/
def Value.InRange : Value → Prop
  | .function (.node d) | .type (.node d) | .constructor d => p.Has d
  | _ => True

/-- An exit that is no crash. -/
def Exit.InRange : Exit → Prop
  | .ret v => v.InRange p
  | .fault f => f.cause.Ordinary
  | .crash _ => False

/-- A control that leads to nodes of the arena. -/
inductive Control.InRange : Control → Prop
  | eval (n : NodeId) (here : p.Has n) : InRange (.eval n)
  | give (v : Value) (fine : v.InRange p) : InRange (.give v)
  | leave (e : Exit) (fine : e.InRange p) : InRange (.leave e)
  | invoke (span : Option Span) (function : NodeId) (arguments : List Value) (here : p.Has function)
      (fine : ∀ v ∈ arguments, v.InRange p) : InRange (.invoke span function arguments)
  | findSite (site block : NodeId) (here : p.Has block) : InRange (.findSite site block)
  | addSite (site block : NodeId) (here : p.Has block) : InRange (.addSite site block)
  | enterSite (site : NodeId) (lock : LockId) (block : NodeId) (here : p.Has block) :
      InRange (.enterSite site lock block)
  | acquire (lock : LockId) (inside : Control) (fine : InRange inside) : InRange (.acquire lock inside)
  | submit (jobs : List Control) (each : ∀ job ∈ jobs, InRange job) : InRange (.submit jobs)
  | await (node : NodeId) (frame : FrameId) (name : Name) (here : p.Has node) :
      InRange (.await node frame name)
  | startLine (text : String) : InRange (.startLine text)
  | writeText (text : String) : InRange (.writeText text)
  | writeBreak (text : String) : InRange (.writeBreak text)
  | endLine (text : String) : InRange (.endLine text)
  | spin : InRange .spin

/-- A pending that goes on with nodes of the arena, and raises its faults at one of them. -/
structure Pending.InRange (waiting : Pending) : Prop where
  place : ∀ n, waiting.place? = some n → p.Has n
  nodes : ∀ n ∈ waiting.mentions, p.Has n
  values : ∀ v ∈ waiting.keeps, v.InRange p

/-- A thread that has only to do with nodes of the arena. -/
structure Thread.InRange (t : Thread) : Prop where
  control : t.control.InRange p
  stack : ∀ waiting ∈ t.stack, waiting.InRange p

/-- Frames and heap hold only declarations of the arena. -/
structure World.InRange (w : World) : Prop where
  bindings : ∀ f name v, w.frames.lookup f name = some v → v.InRange p
  heap : w.heap.Holds (Value.InRange p)

/-- A thread and its world. -/
structure Turn.InRange (s : Turn) : Prop where
  world : s.world.InRange p
  thread : s.thread.InRange p

end

variable {p : Program}

theorem Program.Has.kind_eq_ok {n : NodeId} (here : p.Has n) :
    ∃ kind, p.kind n = .ok kind ∧ p.arena.kind? n = some kind := by
  obtain ⟨kind, found⟩ := Option.isSome_iff_exists.mp here
  exact ⟨kind, Program.kind_eq_ok.mpr found, found⟩

theorem Program.Closed.child (closed : p.Closed) {n c : NodeId} {kind : NodeKind}
    (found : p.arena.kind? n = some kind) (member : c ∈ kind.children) : p.Has c :=
  closed.children n kind found c member

theorem Cause.OfOperands.ordinary {cause : Cause} (h : cause.OfOperands) : cause.Ordinary := by
  rintro message rfl
  exact h

theorem Abort.OfOperands.ordinary {a : Abort} (h : a.OfOperands) : a.Ordinary := by
  cases a with
  | fault cause => exact Cause.OfOperands.ordinary h
  | outOfRange read => exact h
  | diverges => trivial

theorem Value.IsData.inRange {v : Value} (data : v.IsData) : v.InRange p := by
  cases v <;> trivial

/-- A pending that needs neither nodes nor values. -/
theorem Pending.inRange_of_empty {waiting : Pending} (place : waiting.place? = none)
    (mentions : waiting.mentions = []) (keeps : waiting.keeps = []) : waiting.InRange p := by
  refine ⟨?_, ?_, ?_⟩
  · intro n same
    rw [place] at same
    cases same
  · rw [mentions]
    exact List.forall_mem_nil _
  · rw [keeps]
    exact List.forall_mem_nil _

theorem Pending.inRange_statements {statements : List NodeId} (here : ∀ n ∈ statements, p.Has n) :
    (Pending.statements statements).InRange p :=
  ⟨nofun, here, List.forall_mem_nil _⟩

theorem Value.InRange.widen {v : Value} (fine : v.InRange p) (ty : Ty) : (v.widen ty).InRange p :=
  Value.widen_holds (fun _ => Value.IsData.inRange) fine ty

/-! ## 2. Text -/

namespace Writer

/-- A step of writing that comes to an end. -/
def Ends (m : WriteM Unit) : Prop := ∀ w, ∃ w', m.run w = .ok ((), w')

variable {m n : WriteM Unit} {h : Heap}

theorem ends_put (s : String) : Ends (put s) := fun _ => ⟨_, rfl⟩

theorem Ends.bind (first : Ends m) (second : Ends n) : Ends (m >>= fun _ => n) := by
  intro w
  obtain ⟨w', ran⟩ := first w
  rw [StateT.run_bind, ran]
  exact second w'

theorem ends_read {α : Type} {result : Except OutOfRange α} {a : α} (read : result = .ok a)
    {next : α → WriteM Unit} (rest : Ends (next a)) : Ends (liftM result >>= next) := by
  intro w
  rw [StateT.run_bind, read]
  exact rest w

theorem ends_separated {α : Type} {write : α → WriteM Unit} {l : List α}
    (each : ∀ x ∈ l, Ends (write x)) : Ends (separated write l) := by
  induction l with
  | nil => exact fun w => ⟨w, rfl⟩
  | cons first rest ih =>
    obtain ⟨here, others⟩ := List.forall_mem_cons.mp each
    cases rest with
    | nil => exact here
    | cons second rest => exact here.bind ((ends_put ", ").bind (ih others))

theorem ends_enclosed (object : Address) (left right : String) (body : Ends m) :
    Ends (enclosed object left right m) := by
  intro w
  obtain ⟨w', ran⟩ := body ⟨w.text ++ left, object :: w.path⟩
  by_cases inside : w.path.contains object = true
  · refine ⟨⟨w.text ++ (left ++ "..." ++ right), w.path⟩, ?_⟩
    show StateT.run (if w.path.contains object = true then _ else _) _ = _
    rw [if_pos inside]
    rfl
  · refine ⟨⟨w'.text ++ right, w'.path.tail⟩, ?_⟩
    show StateT.run (if w.path.contains object = true then _ else _) _ = _
    rw [if_neg inside]
    show (do let after ← m.run ⟨w.text ++ left, object :: w.path⟩; _) = _
    rw [ran]
    rfl

theorem declName_eq_ok {n : NodeId} (here : p.Has n) : ∃ text, p.declName (.node n) = .ok text := by
  obtain ⟨kind, read, -⟩ := here.kind_eq_ok
  simp only [Program.declName, read, Except.map]
  exact ⟨_, rfl⟩

/-- The text of a declaration that is there. -/
theorem ends_declName {d : Decl} (there : ∀ n, d = .node n → p.Has n) {next : String → WriteM Unit}
    (rest : ∀ text, Ends (next text)) : Ends (liftM (p.declName d) >>= next) := by
  cases d with
  | host host => exact ends_read rfl (rest _)
  | node n =>
    obtain ⟨text, read⟩ := declName_eq_ok (there n rfl)
    exact ends_read read (rest text)

theorem ends_value (heap : h.Holds (Value.InRange p)) (depth : Nat) {v : Value} (fine : v.InRange p) :
    Ends (value p h depth v) := by
  induction depth generalizing v with
  | zero =>
    cases v with
    | function d | type d =>
      refine ends_declName ?_ ends_put
      rintro n rfl
      exact fine
    | constructor n =>
      refine ends_declName ?_ fun text => ends_put _
      rintro n ⟨⟩
      exact fine
    | array a => exact ends_enclosed _ _ _ fun w => ⟨w, rfl⟩
    | struct r => exact ends_enclosed _ _ _ fun w => ⟨w, rfl⟩
    | _ => exact ends_put _
  | succ depth ih =>
    cases v with
    | function d | type d =>
      refine ends_declName ?_ ends_put
      rintro n rfl
      exact fine
    | constructor n =>
      refine ends_declName ?_ fun text => ends_put _
      rintro n ⟨⟩
      exact fine
    | array a =>
      refine ends_enclosed _ _ _ (ends_separated ?_)
      intro element member
      exact ih (heap.elements a element (Array.mem_toList_iff.mp member))
    | struct r =>
      refine ends_enclosed _ _ _ (ends_separated ?_)
      intro field member
      exact (ends_put _).bind (ih (heap.fields r field member))
    | _ => exact ends_put _

end Writer

/-- Every value in range has a text. -/
theorem render_yields {h : Heap} (heap : h.Holds (Value.InRange p)) {v : Value} (fine : v.InRange p) :
    Yields Abort.Ordinary (fun _ => True) (Abort.ofRead (render p h v)) := by
  obtain ⟨w, ran⟩ := Writer.ends_value heap h.size fine ⟨"", []⟩
  unfold render
  rw [ran]
  trivial

/-! ## 3. Worlds -/

namespace World

variable {w : World}

theorem InRange.define (h : w.InRange p) (f : FrameId) (name : Name) {v : Value} (fine : v.InRange p) :
    { w with frames := w.frames.define f name v }.InRange p := by
  refine ⟨?_, h.heap⟩
  intro g other value bound
  rw [Frames.lookup_define] at bound
  split at bound
  · cases bound
    exact fine
  · exact h.bindings g other value bound

theorem InRange.push (h : w.InRange p) (scope : ScopeId) {bindings : Bindings}
    (fine : ∀ name v, bindings.find? name = some v → v.InRange p) (parent : Option FrameId) :
    { w with frames := (w.frames.push scope bindings parent).2 }.InRange p := by
  refine ⟨?_, h.heap⟩
  intro f name value bound
  rw [Frames.lookup_push_eq] at bound
  split at bound
  · exact fine name value bound
  · exact h.bindings f name value bound

end World

/-! ## 4. What nodes read -/

theorem scopeOf_yields (n : NodeId) (label : String) :
    Yields Cause.Ordinary (fun _ => True) (p.scopeOf n label) := by
  unfold Program.scopeOf
  split
  · trivial
  · exact nofun

theorem frameToSet_yields (env : Env) (fs : Frames) (scope : ScopeId) (text : String) :
    Yields Cause.Ordinary (fun _ => True) (env.frameToSet fs scope text) := by
  unfold Env.frameToSet
  split
  · trivial
  · exact nofun

theorem readName_yields (closed : p.Closed) {w : World} (h : w.InRange p) (env : Env) (n : NodeId)
    (name : Name) : Yields Abort.Ordinary (Value.InRange p) (p.readName env w.frames n name) := by
  have unbound : ∀ text, Abort.Ordinary (.fault (.unboundName text)) := fun text => nofun
  have stored : Yields Abort.Ordinary (Value.InRange p) (do
      let scope ← Abort.ofFault (p.scopeOf n (p.text name))
      Abort.ofFault (env.get w.frames scope name (p.text name))) := by
    cases here : p.attrs.scope? n with
    | none =>
      rw [Program.scopeOf, here]
      exact unbound _
    | some scope =>
      rw [Program.scopeOf_eq_ok.mpr here]
      show Yields _ _ (Abort.ofFault (env.get w.frames scope name (p.text name)))
      unfold Env.get
      split
      · next v bound =>
        obtain ⟨f, -, bound⟩ := Option.bind_eq_some_iff.mp bound
        exact h.bindings f name v bound
      · exact unbound _
  simp only [Program.readName]
  split
  · exact unbound _
  · split
    · next v bound => exact h.bindings _ _ v bound
    · exact unbound _
  · trivial
  · trivial
  · next d denoted =>
    have there := closed.decls n d denoted
    obtain ⟨kind, read, -⟩ := there.kind_eq_ok
    rw [read]
    simp only [Abort.ofRead, bind, Except.bind]
    cases kind with
    | varDecl | parameter => exact stored
    | funDecl | structDecl => exact there
    | _ => exact unbound _

theorem readField_yields {h : Heap} (heap : h.Holds (Value.InRange p)) (stem : Value) (field : Name) :
    Yields Cause.Ordinary (Value.InRange p) (p.readField h stem field) := by
  simp only [Program.readField]
  split
  · exact nofun
  · split
    · trivial
    · exact nofun
  · split
    · next v found => exact heap.field? found
    · exact nofun
  · exact nofun

theorem watched_yields (env : Env) (fs : Frames) {target : NodeId} (here : p.Has target) :
    Yields Abort.Ordinary (fun _ => True) (p.watched env fs target) := by
  obtain ⟨kind, read, -⟩ := here.kind_eq_ok
  simp only [Program.watched, read, Abort.ofRead, bind, Except.bind]
  cases kind with
  | reference name =>
    dsimp only
    split
    · trivial
    · rintro _ ⟨⟩
  | _ => rintro _ ⟨⟩

/-- The frame of a call is made whatever the parameters are. -/
theorem bindParameters_inRange {parameters : List NodeId} (here : ∀ n ∈ parameters, p.Has n)
    {arguments : List Value} (fine : ∀ v ∈ arguments, v.InRange p) (bindings : Bindings)
    (before : ∀ name v, bindings.find? name = some v → v.InRange p) :
    ∃ bound, p.bindParameters parameters arguments bindings = .ok bound ∧
      ∀ name v, bound.find? name = some v → v.InRange p := by
  induction parameters generalizing arguments bindings with
  | nil => exact ⟨bindings, by cases arguments <;> rfl, before⟩
  | cons parameter parameters ih =>
    obtain ⟨first, others⟩ := List.forall_mem_cons.mp here
    cases arguments with
    | nil => exact ⟨bindings, rfl, before⟩
    | cons argument arguments =>
      obtain ⟨value, values⟩ := List.forall_mem_cons.mp fine
      obtain ⟨kind, read, -⟩ := first.kind_eq_ok
      simp only [Program.bindParameters, read, bind, Except.bind]
      cases kind with
      | parameter name =>
        apply ih others values (bindings.insert name (argument.widen (p.typeOf parameter)))
        intro other v found
        rw [Bindings.find?_insert] at found
        split at found
        · cases found
          exact value.widen _
        · exact before other v found
      | _ => exact ih others values bindings before

/-- The fields of an instance are made whatever the declarations are. -/
theorem instanceFields_inRange {fields : List NodeId} (here : ∀ n ∈ fields, p.Has n)
    {values : List Value} (fine : ∀ v ∈ values, v.InRange p) :
    ∃ made, p.instanceFields fields values = .ok made ∧ ∀ x ∈ made, x.2.InRange p := by
  induction fields generalizing values with
  | nil => exact ⟨[], by cases values <;> rfl, List.forall_mem_nil _⟩
  | cons field fields ih =>
    obtain ⟨first, others⟩ := List.forall_mem_cons.mp here
    cases values with
    | nil => exact ⟨[], rfl, List.forall_mem_nil _⟩
    | cons value values =>
      obtain ⟨value, values⟩ := List.forall_mem_cons.mp fine
      obtain ⟨kind, read, -⟩ := first.kind_eq_ok
      obtain ⟨made, rest, each⟩ := ih others values
      simp only [Program.instanceFields, read, rest, bind, Except.bind]
      cases kind with
      | fieldDecl name => exact ⟨_, rfl, List.forall_mem_cons.mpr ⟨value.widen _, each⟩⟩
      | _ => exact ⟨made, rfl, each⟩

theorem instantiate_yields (closed : p.Closed) {decl : NodeId} (here : p.Has decl) {values : List Value}
    (fine : ∀ v ∈ values, v.InRange p) :
    Yields Abort.Ordinary (fun r => ∀ x ∈ r.fields, x.2.InRange p) (p.instantiate decl values) := by
  obtain ⟨kind, read, found⟩ := here.kind_eq_ok
  simp only [Program.instantiate, read, Abort.ofRead, bind, Except.bind]
  cases kind with
  | structDecl name fields =>
    have declared : ∀ n ∈ fields, p.Has n := fun n => closed.child found
    obtain ⟨made, result, each⟩ := instanceFields_inRange declared fine
    dsimp only
    split
    · exact nofun
    · rw [result]
      exact each
  | _ => exact nofun

/-! ## 5. Ways to go on -/

namespace Turn

variable (p) in
/-- Everything but the control is in range. -/
structure Settled (s : Turn) : Prop where
  world : s.world.InRange p
  stack : ∀ waiting ∈ s.stack, waiting.InRange p

variable {s : Turn}

namespace Settled

variable (h : Settled p s)

include h

theorem goOn {control : Control} (fine : control.InRange p) : { s with control }.InRange p :=
  ⟨h.world, fine, h.stack⟩

theorem give {v : Value} (fine : v.InRange p) : (s.give v).InRange p := h.goOn (.give v fine)

theorem leave {e : Exit} (fine : e.InRange p) : (s.leave e).InRange p := h.goOn (.leave e fine)

theorem raise (n : NodeId) {cause : Cause} (ordinary : cause.Ordinary) : (s.raise p n cause).InRange p :=
  h.leave ordinary

theorem abort (n : NodeId) {a : Abort} (ordinary : a.Ordinary) : (s.abort p n a).InRange p := by
  cases a with
  | fault cause => exact h.raise n ordinary
  | outOfRange read => exact ordinary.elim
  | diverges => exact h.goOn .spin

theorem orAbort {α : Type} {n : NodeId} {fine : α → Prop} {result : Except Abort α} {next : α → Turn}
    (yields : Yields Abort.Ordinary fine result) (goesOn : ∀ a, fine a → (next a).InRange p) :
    (s.orAbort p n result next).InRange p := by
  cases result with
  | ok a => exact goesOn a yields
  | error e => exact h.abort n yields

theorem orFault {α : Type} {n : NodeId} {fine : α → Prop} {result : Except Cause α} {next : α → Turn}
    (yields : Yields Cause.Ordinary fine result) (goesOn : ∀ a, fine a → (next a).InRange p) :
    (s.orFault p n result next).InRange p := by
  cases result with
  | ok a => exact goesOn a yields
  | error cause => exact h.raise n yields

/-- An operation on values that only decides how to go on. -/
theorem expect {α : Type} {n : NodeId} {result : Except Cause α} {next : α → Turn}
    (yields : Yields Cause.OfOperands (fun _ => True) result) (goesOn : ∀ a, (next a).InRange p) :
    (s.orFault p n result next).InRange p :=
  h.orFault (yields.because fun _ inside => inside.ordinary) fun a _ => goesOn a

theorem withHeap {heap : Heap} (fine : heap.Holds (Value.InRange p)) :
    Settled p { s with world.heap := heap } :=
  ⟨⟨h.world.bindings, fine⟩, h.stack⟩

theorem ofNest {n : NodeId} {result : Except Abort Nest}
    (yields : Yields Abort.Ordinary (Nest.Holds Value.IsData) result) :
    (s.ofNest p n result).InRange p := by
  cases result with
  | error e => exact h.abort n yields
  | ok nest =>
    obtain ⟨fine, heap⟩ := h.world.heap.place (fun _ => Value.IsData.inRange) nest yields
    cases nest with
    | leaf v => exact h.give fine
    | row elements => exact (h.withHeap heap).give fine

theorem await {n : NodeId} {waiting : Pending} (here : p.Has n) (fine : waiting.InRange p) :
    (s.await n waiting).InRange p :=
  ⟨h.world, .eval n here, List.forall_mem_cons.mpr ⟨fine, h.stack⟩⟩

theorem makeArray {values : List Value} (fine : ∀ v ∈ values, v.InRange p) :
    (s.makeArray values).InRange p := by
  have each : ∀ v ∈ values.toArray, v.InRange p :=
    fun v member => fine v (List.mem_toArray.mp member)
  exact (h.withHeap (h.world.heap.newArray each)).give trivial

theorem runStatements {statements : List NodeId} (here : ∀ n ∈ statements, p.Has n) :
    (s.runStatements statements).InRange p := by
  cases statements with
  | nil => exact h.give trivial
  | cons first rest =>
    obtain ⟨first, rest⟩ := List.forall_mem_cons.mp here
    exact h.await first (Pending.inRange_statements rest)

end Settled

/-! ## 6. The functions of the evaluator -/

theorem enter_inRange (closed : p.Closed) (h : Settled p s) {n : NodeId} {kind : NodeKind}
    (found : p.arena.kind? n = some kind) : (enter p s n kind).InRange p := by
  have child : ∀ {c}, c ∈ kind.children → p.Has c := closed.child found
  have here : p.Has n := by simp [Program.Has, found]
  have located : ∀ {waiting : Pending}, waiting.place? = some n ∨ waiting.place? = none →
      ∀ m, waiting.place? = some m → p.Has m := by
    rintro waiting (same | same) m place
    · cases same.symm.trans place
      exact here
    · cases same.symm.trans place
  -- a node leaves a pending that knows nothing but the node and its children
  have goOn : ∀ {c : NodeId} {waiting : Pending}, c :: waiting.mentions ⊆ kind.children →
      (waiting.place? = some n ∨ waiting.place? = none) → waiting.keeps = [] →
      (s.await c waiting).InRange p := by
    intro c waiting parts place empty
    refine h.await (child (parts List.mem_cons_self)) ⟨located place, ?_, ?_⟩
    · intro m member
      exact child (parts (List.mem_cons_of_mem _ member))
    · rw [empty]
      exact List.forall_mem_nil _
  cases kind with
  | intLiteral | floatLiteral | stringLiteral => exact h.give trivial
  | reference name => exact h.orAbort (readName_yields closed h.world s.env n name) fun v => h.give
  | constructor reference =>
    simp only [enter]
    split
    · next d denoted => exact h.give (closed.decls reference d denoted)
    · exact h.raise n (by rintro _ ⟨⟩)
  | parenthesized inner => exact h.goOn (.eval inner (child List.mem_cons_self))
  | arrayLiteral elements =>
    cases elements with
    | nil => exact h.makeArray (List.forall_mem_nil _)
    | cons first rest => exact goOn (List.Subset.refl _) (.inl rfl) rfl
  | arrayAccess array index => exact goOn (List.Subset.refl _) (.inl rfl) rfl
  | fieldAccess stem field => exact goOn (List.Subset.refl _) (.inl rfl) rfl
  | call callee arguments => exact goOn (List.Subset.refl _) (.inl rfl) rfl
  | not operand => exact goOn (List.Subset.refl _) (.inl rfl) rfl
  | binary op left right =>
    simp only [enter]
    split <;> exact goOn (List.Subset.refl _) (.inl rfl) rfl
  | assignment target value =>
    obtain ⟨kind, read, there⟩ := (child List.mem_cons_self).kind_eq_ok
    have value_ : p.Has value := child (List.mem_cons_of_mem _ List.mem_cons_self)
    have part : ∀ {c}, c ∈ kind.children → p.Has c := closed.child there
    simp only [enter, read, Abort.ofRead, orAbort]
    cases kind with
    | reference name =>
      exact h.await value_ ⟨located (.inl rfl), List.forall_mem_nil _, List.forall_mem_nil _⟩
    | arrayAccess array index =>
      have index_ : p.Has index := part (List.mem_cons_of_mem _ List.mem_cons_self)
      have later : ∀ m ∈ [index, value], p.Has m := by
        simpa using ⟨index_, value_⟩
      exact h.await (part List.mem_cons_self) ⟨located (.inl rfl), later, List.forall_mem_nil _⟩
    | fieldAccess stem field =>
      exact h.await (part List.mem_cons_self)
        ⟨located (.inl rfl), List.forall_mem_singleton.mpr value_, List.forall_mem_nil _⟩
    | _ => exact h.raise n (by rintro _ ⟨⟩)
  | root statements => exact h.runStatements fun m => child
  | block statements =>
    refine h.orFault (scopeOf_yields n _) fun scope _ => ?_
    have inside : Settled p
        { s with
          world.frames := (s.env.push s.world.frames scope).2
          env := (s.env.push s.world.frames scope).1
          stack := .leaveBlock s.env.current :: s.stack } := by
      refine ⟨h.world.push scope (by simp) _, ?_⟩
      exact List.forall_mem_cons.mpr ⟨Pending.inRange_of_empty rfl rfl rfl, h.stack⟩
    exact inside.runStatements fun m => child
  | expression inner => exact goOn (List.Subset.refl _) (.inr rfl) rfl
  | conditional condition thenBranch elseBranch => exact goOn (List.Subset.refl _) (.inl rfl) rfl
  | loop condition body =>
    exact goOn (by simp [Pending.mentions, Pending.nodes, NodeKind.children]) (.inl rfl) rfl
  | ret value =>
    cases value with
    | none => exact h.leave (e := .ret .void) trivial
    | some value => exact goOn (List.Subset.refl _) (.inr rfl) rfl
  | launch call =>
    refine h.goOn (.submit _ (List.forall_mem_singleton.mpr ?_))
    exact .eval call (child List.mem_cons_self)
  | launchDecl declaration =>
    have there : p.Has declaration := child List.mem_cons_self
    obtain ⟨kind, read, -⟩ := there.kind_eq_ok
    simp only [enter, read, Abort.ofRead, orAbort]
    cases kind with
    | varDecl name initializer =>
      refine h.orFault (scopeOf_yields declaration _) fun scope _ => ?_
      refine h.orFault (frameToSet_yields s.env s.world.frames scope _) fun f _ => ?_
      refine ⟨h.world.define f name trivial, ?_, h.stack⟩
      exact .submit _ (List.forall_mem_singleton.mpr (.eval declaration there))
    | _ => exact h.raise n (by rintro _ ⟨⟩)
  | protect block => exact h.goOn (.findSite n block (child List.mem_cons_self))
  | varDecl name initializer => exact goOn (List.Subset.refl _) (.inl rfl) rfl
  | funDecl | parameter | structDecl | fieldDecl => exact h.give trivial

/-- A call may be of the builtin function that writes its argument, or of the one that waits for it. -/
theorem callBuiltin_inRange (h : Settled p s) {n : NodeId} (place : p.Has n) (name : String)
    {first : Option NodeId} (here : ∀ target, first = some target → p.Has target) {values : List Value}
    (fine : ∀ v ∈ values, v.InRange p) : (callBuiltin p s n name first values).InRange p := by
  simp only [callBuiltin]
  split
  · split
    · next v =>
      refine h.orAbort (render_yields h.world.heap (fine v List.mem_cons_self)) fun text _ => ?_
      split
      · exact h.give trivial
      · exact h.goOn (.startLine text)
    · exact h.raise n (by rintro _ ⟨⟩)
  · split
    · split
      · next target =>
        refine h.orAbort (watched_yields s.env s.world.frames (here target rfl)) fun watched _ => ?_
        exact h.goOn (.await n watched.1 watched.2 place)
      · exact h.raise n (by rintro _ ⟨⟩)
    · exact h.raise n (by rintro _ ⟨⟩)

theorem apply_inRange (closed : p.Closed) (h : Settled p s) {n : NodeId} (place : p.Has n) {callee : Value}
    (called : callee.InRange p) {first : Option NodeId}
    (here : ∀ target, first = some target → p.Has target) {values : List Value}
    (fine : ∀ v ∈ values, v.InRange p) : (apply p s n callee first values).InRange p := by
  simp only [apply]
  split
  · exact callBuiltin_inRange h place _ here fine
  · next function => exact h.goOn (.invoke _ function values called fine)
  · refine h.orAbort (instantiate_yields closed called fine) fun record fields => ?_
    exact (h.withHeap (h.world.heap.newRecord fields)).give trivial
  · exact h.raise n (by rintro _ ⟨⟩)
  · exact h.raise n (by rintro _ ⟨⟩)

theorem resume_inRange (closed : p.Closed) (h : Settled p s) {v : Value} (fine : v.InRange p)
    {waiting : Pending} (pending : waiting.InRange p) : (resume p s v waiting).InRange p := by
  obtain ⟨place, nodes, values⟩ := pending
  have boolean : Yields Cause.OfOperands (fun _ => True) (Arith.expectBool v) :=
    Arith.expectBool_yields v
  have array : Yields Cause.OfOperands (fun _ => True) (Arith.expectArray v) :=
    Arith.expectArray_yields v
  have position : Yields Cause.OfOperands (fun _ => True) (checkIndex v) := checkIndex_yields v
  -- a pending goes on with one of its nodes, and what it leaves knows no others
  have goOn : ∀ {n : NodeId} {left : Pending}, n :: left.mentions ⊆ waiting.mentions →
      (left.place? = waiting.place? ∨ left.place? = none) → (∀ w ∈ left.keeps, w.InRange p) →
      (s.await n left).InRange p := by
    intro n left parts located kept
    refine h.await (nodes n (parts List.mem_cons_self)) ⟨?_, ?_, kept⟩
    · intro m at_
      rcases located with same | none
      · exact place m (same.symm.trans at_)
      · cases none.symm.trans at_
    · exact fun m later => nodes m (parts (List.mem_cons_of_mem _ later))
  cases waiting with
  | element n done rest =>
    cases rest with
    | nil => exact h.makeArray (forall_mem_done values fine)
    | cons next rest =>
      exact goOn (List.Subset.refl _) (.inl rfl) (List.forall_mem_cons.mpr ⟨fine, values⟩)
  | accessedArray n index =>
    exact h.expect array fun a => goOn (List.Subset.refl _) (.inl rfl) (List.forall_mem_nil _)
  | accessIndex n a =>
    refine h.expect position fun i => ?_
    split
    · next w found => exact h.give (h.world.heap.element? found)
    · exact h.raise n (by rintro _ ⟨⟩)
  | readStem n field => exact h.orFault (readField_yields h.world.heap v field) fun w => h.give
  | callee n arguments =>
    cases arguments with
    | nil => exact apply_inRange closed h (place n rfl) fine (by simp) (List.forall_mem_nil _)
    | cons first rest =>
      refine goOn ?_ (.inl rfl) (List.forall_mem_singleton.mpr fine)
      simp [Pending.mentions, Pending.nodes]
  | argument n callee first done rest =>
    obtain ⟨called, before⟩ := List.forall_mem_cons.mp values
    cases rest with
    | nil =>
      refine apply_inRange closed h (place n rfl) called ?_ (forall_mem_done before fine)
      rintro target rfl
      exact nodes target List.mem_cons_self
    | cons next rest =>
      have kept : ∀ w ∈ callee :: v :: done, w.InRange p :=
        List.forall_mem_cons.mpr ⟨called, List.forall_mem_cons.mpr ⟨fine, before⟩⟩
      refine goOn ?_ (.inl rfl) kept
      intro m member
      simp only [Pending.mentions, Pending.nodes, List.mem_cons, List.mem_append] at member ⊢
      tauto
  | negated n | truth n => exact h.expect boolean fun b => h.give trivial
  | shortCircuit n op right =>
    refine h.expect boolean fun b => ?_
    split
    · exact h.give trivial
    · exact goOn (List.Subset.refl _) (.inl rfl) (List.forall_mem_nil _)
  | leftOperand n op left right =>
    exact goOn (List.Subset.refl _) (.inl rfl) (List.forall_mem_singleton.mpr fine)
  | rightOperand n op left right l =>
    have operands : ∀ w ∈ [l, v], w.InRange p := by
      simpa using ⟨values l List.mem_cons_self, fine⟩
    simp only [resume]
    split
    · exact h.ofNest ((Arith.matrixProduct_yields ..).because fun _ fault => fault.ofOperands.ordinary)
    · refine h.ofNest (Arith.binary_yields (fun _ inside => inside.ordinary) _ _ _ _ _ _ _ ?_)
      exact fun w member => render_yields h.world.heap (operands w member)
  | assignName n target name =>
    refine h.orFault (scopeOf_yields target _) fun scope _ => ?_
    refine h.orFault (frameToSet_yields s.env s.world.frames scope _) fun f _ => ?_
    exact ⟨h.world.define f name (fine.widen _), .give _ (fine.widen _), h.stack⟩
  | storeArray n target index value =>
    exact h.expect array fun a => goOn (List.Subset.refl _) (.inl rfl) (List.forall_mem_nil _)
  | storeIndex n target value a =>
    exact h.expect position fun i => goOn (List.Subset.refl _) (.inl rfl) (List.forall_mem_nil _)
  | storeElement n target a i =>
    simp only [resume]
    split
    · exact (h.withHeap (h.world.heap.setElement a i (fine.widen _))).give (fine.widen _)
    · exact h.raise n (by rintro _ ⟨⟩)
  | storeStem n target value field =>
    exact goOn (List.Subset.refl _) (.inl rfl) (List.forall_mem_singleton.mpr fine)
  | storeField n target stem field =>
    simp only [resume]
    split
    · exact h.raise n (by rintro _ ⟨⟩)
    · next r =>
      split
      · exact (h.withHeap (h.world.heap.setField r field (fine.widen _))).give (fine.widen _)
      · exact h.raise n (by rintro _ ⟨⟩)
    · exact h.raise n (by rintro _ ⟨⟩)
  | statements rest => exact h.runStatements nodes
  | dropped => exact h.give trivial
  | branch n thenBranch elseBranch =>
    refine h.expect boolean fun b => ?_
    split
    · exact goOn (by simp [Pending.mentions, Pending.nodes]) (.inr rfl) (List.forall_mem_nil _)
    · cases elseBranch with
      | none => exact h.give trivial
      | some elseBranch =>
        exact goOn (by simp [Pending.mentions, Pending.nodes]) (.inr rfl) (List.forall_mem_nil _)
  | loopTest n condition body =>
    refine h.expect boolean fun b => ?_
    split
    · exact goOn (by simp [Pending.mentions, Pending.nodes]) (.inl rfl) (List.forall_mem_nil _)
    · exact h.give trivial
  | loopBody n condition body =>
    exact goOn (by simp [Pending.mentions, Pending.nodes]) (.inl rfl) (List.forall_mem_nil _)
  | returned => exact h.leave (e := .ret v) fine
  | declaration n name =>
    refine h.orFault (scopeOf_yields n _) fun scope _ => ?_
    refine h.orFault (frameToSet_yields s.env s.world.frames scope _) fun f _ => ?_
    exact ⟨h.world.define f name (fine.widen _), .give .void trivial, h.stack⟩
  | leaveBlock saved | leaveCall saved => exact ⟨h.world, .give .void trivial, h.stack⟩
  | leaveSite site lock | unlock lock =>
    exact ⟨⟨h.world.bindings, h.world.heap⟩, .give .void trivial, h.stack⟩

theorem unwind_inRange (h : Settled p s) {e : Exit} (fine : e.InRange p) (waiting : Pending) :
    (unwind s e waiting).InRange p := by
  cases waiting with
  | leaveBlock saved => exact ⟨h.world, .leave e fine, h.stack⟩
  | leaveCall saved =>
    cases e with
    | ret v => exact ⟨h.world, .give v fine, h.stack⟩
    | fault f => exact ⟨h.world, .leave _ fine, h.stack⟩
    | crash message => exact fine.elim
  | leaveSite site lock | unlock lock =>
    exact ⟨⟨h.world.bindings, h.world.heap⟩, .leave e fine, h.stack⟩
  | _ => exact h.leave fine

theorem invoke_inRange (closed : p.Closed) (h : Settled p s) (span : Option Span) {function : NodeId}
    (here : p.Has function) {arguments : List Value} (fine : ∀ v ∈ arguments, v.InRange p) :
    (invoke p s span function arguments).InRange p := by
  have fails : ∀ {cause : Cause}, cause.Ordinary → (invoke.fail s span cause).InRange p :=
    fun ordinary => h.leave ordinary
  obtain ⟨kind, read, found⟩ := here.kind_eq_ok
  simp only [invoke, read]
  cases kind with
  | funDecl name parameters body =>
    have child : ∀ c ∈ parameters ++ [body], p.Has c := fun c => closed.child found
    obtain ⟨declared, body_⟩ := List.forall_mem_append.mp child
    obtain ⟨bindings, bound, each⟩ :=
      bindParameters_inRange declared fine .empty (by simp)
    dsimp only
    split
    · exact fails (by rintro _ ⟨⟩)
    · split
      · exact fails (by rintro _ ⟨⟩)
      · next scope _ =>
        rw [bound]
        refine ⟨h.world.push scope each _, .eval body (body_ body List.mem_cons_self), ?_⟩
        exact List.forall_mem_cons.mpr ⟨Pending.inRange_of_empty rfl rfl rfl, h.stack⟩
  | _ => exact fails (by rintro _ ⟨⟩)

/-! ## 7. Whole steps -/

/-- A thread that is in range stays so, and ends in no crash. -/
theorem step_inRange (closed : p.Closed) (who : ThreadId) {s : Turn} (fine : s.InRange p) :
    (s.step p who).InRange p := by
  obtain ⟨w, env, control, stack⟩ := s
  obtain ⟨world, control_, stack_⟩ := fine
  have h : Settled p ⟨w, env, control, stack⟩ := ⟨world, stack_⟩
  have other : ∀ {w' : World} {control' : Control}, w'.frames = w.frames → w'.heap = w.heap →
      control'.InRange p → InRange p ⟨w', env, control', stack⟩ := by
    intro w' control' frames heap inside
    exact ⟨⟨frames ▸ world.bindings, heap ▸ world.heap⟩, inside, stack_⟩
  cases control_ with
  | eval n here =>
    obtain ⟨kind, read, found⟩ := here.kind_eq_ok
    simp only [step, read]
    exact enter_inRange closed h found
  | give v fine =>
    cases stack with
    | nil => exact ⟨world, .give v fine, stack_⟩
    | cons waiting stack =>
      obtain ⟨pending, rest⟩ := List.forall_mem_cons.mp stack_
      exact resume_inRange closed (s := ⟨w, env, _, stack⟩) ⟨world, rest⟩ fine pending
  | leave e fine =>
    cases stack with
    | nil => exact ⟨world, .leave e fine, stack_⟩
    | cons waiting stack =>
      obtain ⟨-, rest⟩ := List.forall_mem_cons.mp stack_
      exact unwind_inRange (s := ⟨w, env, _, stack⟩) ⟨world, rest⟩ fine waiting
  | invoke span function arguments here fine => exact invoke_inRange closed h span here fine
  | findSite site block here =>
    simp only [step]
    split
    · exact other rfl rfl (.enterSite _ _ _ here)
    · exact other rfl rfl (.addSite _ _ here)
  | addSite site block here => exact other rfl rfl (.enterSite _ _ _ here)
  | enterSite site lock block here =>
    simp only [step]
    split
    · refine ⟨⟨world.bindings, world.heap⟩, .eval block here, ?_⟩
      exact List.forall_mem_cons.mpr ⟨Pending.inRange_of_empty rfl rfl rfl, stack_⟩
    · exact other rfl rfl (.enterSite _ _ _ here)
  | acquire lock inside fine =>
    simp only [step]
    split
    · refine ⟨⟨world.bindings, world.heap⟩, fine, ?_⟩
      exact List.forall_mem_cons.mpr ⟨Pending.inRange_of_empty rfl rfl rfl, stack_⟩
    · exact other rfl rfl (.acquire _ _ fine)
  | submit jobs each =>
    cases jobs with
    | nil => exact h.give trivial
    | cons job jobs => exact other rfl rfl (.submit _ each)
  | await n f name place =>
    simp only [step]
    split
    · exact h.give trivial
    · split
      · exact h.raise n (by rintro _ ⟨⟩)
      · exact other rfl rfl (.await n f name place)
  | startLine text =>
    simp only [step]
    split
    · exact other rfl rfl (.writeText text)
    · exact other rfl rfl (.startLine text)
  | writeText text => exact other rfl rfl (.writeBreak text)
  | writeBreak text => exact other rfl rfl (.endLine text)
  | endLine text => exact other rfl rfl (.give _ trivial)
  | spin => exact other rfl rfl .spin

end Turn

end Strand
