import Strand.Proofs.Alike.Text
import Strand.Proofs.Closed.Steps
import Strand.Proofs.Objects
import Strand.Proofs.Typing

/-!
# Handles refer to objects

A value refers to an array or to an instance by a handle, and a handle is made together with the object. So
whatever a thread has in its hands, and whatever is bound in a frame or stored in an object, refers to an object
that is there. Objects are never removed, and so this goes on to be the case.

`Turn.Whole` says it of a thread and the world that it moves in. A step keeps it (`Turn.Whole.step`), and so
does every run (`Run.whole_play`), whatever the program is.
-/

set_option autoImplicit false

namespace Strand

/-! ## 1. Heaps -/

namespace Heap

/-- A value that refers to an object of the heap, or to none. -/
def Live (h : Heap) : Value → Prop
  | .array a => ∃ elements, h.arrays[a.index]? = some elements
  | .struct r => ∃ o, h.records[r.index]? = some o
  | _ => True

/-- The objects refer to objects that are there. -/
def Whole (h : Heap) : Prop := h.Holds h.Live

variable {h h' : Heap} {v : Value}

theorem Live.keeps (live : h.Live v) (keeps : h.Keeps h') : h'.Live v := by
  cases v with
  | array a =>
    obtain ⟨elements, found⟩ := live
    obtain ⟨elements', found', -⟩ := keeps.arrays _ _ found
    exact ⟨elements', found'⟩
  | struct r =>
    obtain ⟨o, found⟩ := live
    obtain ⟨o', found', -⟩ := keeps.records _ _ found
    exact ⟨o', found'⟩
  | _ => trivial

theorem Live.widen (live : h.Live v) (ty : Ty) : h.Live (v.widen ty) := by
  cases v with
  | int n => cases ty <;> trivial
  | _ => exact live

theorem live_of_scalar (scalar : v.Scalar) : h.Live v := by
  cases scalar with
  | array a a' pair => exact pair.elim
  | struct r r' pair => exact pair.elim
  | _ => trivial

namespace Whole

/-- The objects that were there refer to what is there later. -/
theorem later (whole : h.Whole) (keeps : h.Keeps h') : h.Holds h'.Live :=
  Holds.mono whole fun _ live => live.keeps keeps

theorem newArray (whole : h.Whole) {elements : Array Value} (live : ∀ v ∈ elements, h.Live v) :
    (h.newArray elements).2.Whole ∧ (h.newArray elements).2.Live (.array (h.newArray elements).1) := by
  have keeps := (grows_newArray h elements).keeps
  refine ⟨(whole.later keeps).newArray fun v member => (live v member).keeps keeps, elements, ?_⟩
  simp [Heap.newArray]

theorem newRecord (whole : h.Whole) {o : Record} (live : ∀ field ∈ o.fields, h.Live field.2) :
    (h.newRecord o).2.Whole ∧ (h.newRecord o).2.Live (.struct (h.newRecord o).1) := by
  have keeps := (grows_newRecord h o).keeps
  refine ⟨(whole.later keeps).newRecord fun field member => (live field member).keeps keeps, o, ?_⟩
  simp [Heap.newRecord]

theorem setElement (whole : h.Whole) {a : ArrayId} {i : Nat} (inside : i < h.length a) (live : h.Live v) :
    (h.setElement a i v).Whole := by
  have keeps := (writes_setElement inside v).keeps
  exact (whole.later keeps).setElement a i (live.keeps keeps)

theorem setField (whole : h.Whole) {r : RecordId} {name : Name} (there : (h.field? r name).isSome)
    (live : h.Live v) : (h.setField r name v).Whole := by
  obtain ⟨i, position⟩ := exists_position there
  have keeps := (writes_setField there position v).keeps
  exact (whole.later keeps).setField r name (live.keeps keeps)

mutual

/-- Rows of values that refer to nothing are placed as arrays that are there. -/
theorem place : ∀ {nest : Nest} {h : Heap}, nest.Scalar → h.Whole →
    (h.place nest).2.Whole ∧ (h.place nest).2.Live (h.place nest).1
  | .leaf _, _, .leaf _ scalar, whole => ⟨whole, live_of_scalar scalar⟩
  | .row elements, _, .row _ scalar, whole => by
    obtain ⟨placed, live⟩ := placeAll scalar whole
    exact placed.newArray fun v member => live v (List.mem_toArray.mp member)

theorem placeAll : ∀ {nests : List Nest} {h : Heap}, (∀ n ∈ nests, n.Scalar) → h.Whole →
    (h.placeAll nests).2.Whole ∧ ∀ v ∈ (h.placeAll nests).1, (h.placeAll nests).2.Live v
  | [], _, _, whole => ⟨whole, List.forall_mem_nil _⟩
  | nest :: rest, h, scalar, whole => by
    obtain ⟨placed, live⟩ := place (scalar nest List.mem_cons_self) whole
    obtain ⟨others, lives⟩ := placeAll (fun n member => scalar n (List.mem_cons_of_mem _ member)) placed
    exact ⟨others, List.forall_mem_cons.mpr ⟨live.keeps (grows_placeAll _ rest).keeps, lives⟩⟩

end

end Whole

end Heap

/-! ## 2. Worlds -/

namespace World

/-- Whatever is bound or stored refers to objects that are there. -/
structure Whole (w : World) : Prop where
  bindings : ∀ f name v, w.frames.lookup f name = some v → w.heap.Live v
  heap : w.heap.Whole

variable {w : World}

theorem Whole.define (whole : w.Whole) (f : FrameId) (name : Name) {v : Value} (live : w.heap.Live v) :
    { w with frames := w.frames.define f name v }.Whole := by
  refine ⟨?_, whole.heap⟩
  intro g other value bound
  rw [Frames.lookup_define] at bound
  split at bound
  · cases bound
    exact live
  · exact whole.bindings g other value bound

theorem Whole.push (whole : w.Whole) (scope : ScopeId) {bindings : Bindings}
    (live : ∀ name v, bindings.find? name = some v → w.heap.Live v) (parent : Option FrameId) :
    { w with frames := (w.frames.push scope bindings parent).2 }.Whole := by
  refine ⟨?_, whole.heap⟩
  intro f name value bound
  rw [Frames.lookup_push_eq] at bound
  split at bound
  · exact live name value bound
  · exact whole.bindings f name value bound

theorem Whole.withHeap (whole : w.Whole) {heap : Heap} (keeps : w.heap.Keeps heap) (more : heap.Whole) :
    { w with heap }.Whole :=
  ⟨fun f name v bound => (whole.bindings f name v bound).keeps keeps, more⟩

end World

/-! ## 3. What is read -/

variable {p : Program}

theorem live_of_readName {w : World} (whole : w.Whole) {env : Env} {n : NodeId} {name : Name} {v : Value}
    (reads : p.readName env w.frames n name = .ok v) : w.heap.Live v := by
  have stored : ∀ {scope text}, env.get w.frames scope name text = .ok v → w.heap.Live v := by
    intro scope text got
    unfold Env.get at got
    split at got
    · next u bound =>
      cases got
      obtain ⟨f, -, bound⟩ := Option.bind_eq_some_iff.mp bound
      exact whole.bindings f name _ bound
    · cases got
  simp only [Program.readName] at reads
  split at reads
  · cases reads
  · split at reads
    · next u bound =>
      cases reads
      exact whole.bindings _ _ _ bound
    · cases reads
  · cases reads
    trivial
  · cases reads
    trivial
  · obtain ⟨kind, -, reads⟩ := of_bind_eq_ok reads
    cases kind with
    | varDecl | parameter =>
      obtain ⟨scope, -, got⟩ := of_bind_eq_ok reads
      exact stored (of_ofFault_eq_ok got)
    | funDecl | structDecl =>
      cases reads
      trivial
    | _ => cases reads

theorem live_of_readField {h : Heap} (whole : h.Whole) {stem v : Value} {field : Name}
    (reads : p.readField h stem field = .ok v) : h.Live v := by
  simp only [Program.readField] at reads
  split at reads
  · cases reads
  · split at reads <;> cases reads
    trivial
  · split at reads
    · next u found =>
      cases reads
      exact Heap.Holds.field? whole found
    · cases reads
  · cases reads

theorem live_bindParameters {h : Heap} {parameters : List NodeId} {arguments : List Value}
    (live : ∀ v ∈ arguments, h.Live v) {bindings bound : Bindings}
    (before : ∀ name v, bindings.find? name = some v → h.Live v)
    (binds : p.bindParameters parameters arguments bindings = .ok bound) :
    ∀ name v, bound.find? name = some v → h.Live v := by
  induction parameters generalizing arguments bindings with
  | nil =>
    cases binds
    exact before
  | cons parameter parameters ih =>
    cases arguments with
    | nil =>
      cases binds
      exact before
    | cons argument arguments =>
      obtain ⟨first, others⟩ := List.forall_mem_cons.mp live
      obtain ⟨kind, -, binds⟩ := of_bind_eq_ok binds
      cases kind with
      | parameter name =>
        refine ih others ?_ binds
        intro other v found
        rw [Bindings.find?_insert] at found
        split at found
        · cases found
          exact first.widen _
        · exact before other v found
      | _ => exact ih others before binds

theorem live_instanceFields {h : Heap} {fields : List NodeId} {values : List Value}
    (live : ∀ v ∈ values, h.Live v) {made : List (Name × Value)}
    (makes : p.instanceFields fields values = .ok made) : ∀ field ∈ made, h.Live field.2 := by
  induction fields generalizing values made with
  | nil =>
    cases makes
    exact List.forall_mem_nil _
  | cons field fields ih =>
    cases values with
    | nil =>
      cases makes
      exact List.forall_mem_nil _
    | cons value values =>
      obtain ⟨first, others⟩ := List.forall_mem_cons.mp live
      obtain ⟨kind, -, makes⟩ := of_bind_eq_ok makes
      cases kind with
      | fieldDecl name =>
        obtain ⟨rest, made', same⟩ := of_bind_eq_ok makes
        cases same
        exact List.forall_mem_cons.mpr ⟨first.widen _, ih others made'⟩
      | _ => exact ih others makes

theorem live_instantiate {h : Heap} {decl : NodeId} {values : List Value} (live : ∀ v ∈ values, h.Live v)
    {o : Record} (makes : p.instantiate decl values = .ok o) : ∀ field ∈ o.fields, h.Live field.2 := by
  obtain ⟨kind, -, makes⟩ := of_bind_eq_ok makes
  cases kind with
  | structDecl name fields =>
    dsimp only at makes
    split at makes
    · cases makes
    · obtain ⟨made, fields, same⟩ := of_bind_eq_ok makes
      cases same
      cases read : p.instanceFields _ values with
      | error e =>
        rw [read] at fields
        cases fields
      | ok made' =>
        rw [read] at fields
        cases fields
        exact live_instanceFields live read
  | _ => cases makes

/-! ## 4. Ways to go on -/

/-- The values that a control has in its hands. -/
def Control.handles : Control → List Value
  | give v | leave (.ret v) => [v]
  | invoke _ _ arguments => arguments
  | _ => []

/-- The values that a pending keeps, and the arrays that it has already found. -/
def Pending.handles : Pending → List Value
  | accessIndex _ a | storeIndex _ _ _ a | storeElement _ _ a _ => [.array a]
  | waiting => waiting.keeps

namespace Turn

/-- What waits, and the world, refer to objects that are there. -/
structure Supplied (s : Turn) : Prop where
  world : s.world.Whole
  stack : ∀ waiting ∈ s.stack, ∀ v ∈ waiting.handles, s.world.heap.Live v

/-- A thread and its world that refer to objects that are there. -/
structure Whole (s : Turn) : Prop extends s.Supplied where
  control : ∀ v ∈ s.control.handles, s.world.heap.Live v

variable {s : Turn}

namespace Supplied

variable (h : s.Supplied)

include h

theorem goOn {control : Control} (live : ∀ v ∈ control.handles, s.world.heap.Live v) :
    { s with control }.Whole :=
  ⟨⟨h.world, h.stack⟩, live⟩

theorem give {v : Value} (live : s.world.heap.Live v) : (s.give v).Whole :=
  h.goOn (List.forall_mem_singleton.mpr live)

theorem raise (n : NodeId) (cause : Cause) : (s.raise p n cause).Whole := h.goOn (List.forall_mem_nil _)

theorem abort (n : NodeId) (e : Abort) : (s.abort p n e).Whole := by
  cases e <;> exact h.goOn (List.forall_mem_nil _)

theorem orAbort {α : Type} {n : NodeId} {result : Except Abort α} {next : α → Turn}
    (goesOn : ∀ a, result = .ok a → (next a).Whole) : (s.orAbort p n result next).Whole := by
  cases result with
  | ok a => exact goesOn a rfl
  | error e => exact h.abort n e

theorem orFault {α : Type} {n : NodeId} {result : Except Cause α} {next : α → Turn}
    (goesOn : ∀ a, result = .ok a → (next a).Whole) : (s.orFault p n result next).Whole := by
  cases result with
  | ok a => exact goesOn a rfl
  | error cause => exact h.raise n cause

theorem push {waiting : Pending} (live : ∀ v ∈ waiting.handles, s.world.heap.Live v) :
    { s with stack := waiting :: s.stack }.Supplied :=
  ⟨h.world, List.forall_mem_cons.mpr ⟨live, h.stack⟩⟩

theorem await {n : NodeId} {waiting : Pending} (live : ∀ v ∈ waiting.handles, s.world.heap.Live v) :
    (s.await n waiting).Whole :=
  (h.push live).goOn (List.forall_mem_nil _)

theorem withHeap {heap : Heap} (keeps : s.world.heap.Keeps heap) (whole : heap.Whole) :
    { s with world.heap := heap }.Supplied :=
  ⟨h.world.withHeap keeps whole, fun waiting member v held => (h.stack waiting member v held).keeps keeps⟩

theorem define {v : Value} (live : s.world.heap.Live v) (f : FrameId) (name : Name) :
    { s with world.frames := s.world.frames.define f name v }.Supplied :=
  ⟨h.world.define f name live, h.stack⟩

theorem makeArray {values : List Value} (live : ∀ v ∈ values, s.world.heap.Live v) :
    (s.makeArray values).Whole := by
  obtain ⟨whole, made⟩ := h.world.heap.newArray fun v member => live v (List.mem_toArray.mp member)
  exact (h.withHeap (Heap.grows_newArray _ _).keeps whole).goOn (List.forall_mem_singleton.mpr made)

theorem runStatements (statements : List NodeId) : (s.runStatements statements).Whole := by
  cases statements with
  | nil => exact h.give trivial
  | cons first rest => exact h.await (List.forall_mem_nil _)

theorem ofNest {n : NodeId} {result : Except Abort Nest} (scalar : ∀ nest, result = .ok nest → nest.Scalar) :
    (s.ofNest p n result).Whole := by
  cases result with
  | error e => exact h.abort n e
  | ok nest =>
    cases nest with
    | leaf v =>
      cases scalar _ rfl with
      | leaf _ here => exact h.give (Heap.live_of_scalar here)
    | row elements =>
      obtain ⟨whole, live⟩ := h.world.heap.place (scalar _ rfl)
      exact (h.withHeap (Heap.grows_place _ _).keeps whole).goOn (List.forall_mem_singleton.mpr live)

end Supplied

/-! ## 5. Steps -/

theorem Supplied.enter (h : s.Supplied) (n : NodeId) (kind : NodeKind) : (enter p s n kind).Whole := by
  cases kind with
  | intLiteral | floatLiteral | stringLiteral => exact h.give trivial
  | reference name => exact h.orAbort fun v reads => h.give (live_of_readName h.world reads)
  | constructor reference =>
    simp only [Turn.enter]
    split
    · exact h.give trivial
    · exact h.raise n _
  | parenthesized inner => exact h.goOn (List.forall_mem_nil _)
  | arrayLiteral elements =>
    cases elements with
    | nil => exact h.makeArray (List.forall_mem_nil _)
    | cons first rest => exact h.await (List.forall_mem_nil _)
  | binary op left right =>
    simp only [Turn.enter]
    split <;> exact h.await (List.forall_mem_nil _)
  | assignment target value =>
    refine h.orAbort fun kind _ => ?_
    cases kind with
    | reference | arrayAccess | fieldAccess => exact h.await (List.forall_mem_nil _)
    | _ => exact h.raise n _
  | root statements => exact h.runStatements statements
  | block statements =>
    refine h.orFault fun scope _ => ?_
    have pushed : { s with stack := .leaveBlock s.env.current :: s.stack }.Supplied :=
      h.push (List.forall_mem_nil _)
    refine Supplied.runStatements ?_ statements
    exact ⟨h.world.push scope (fun name v bound => by cases bound) _, pushed.stack⟩
  | ret value =>
    cases value with
    | none => exact h.goOn (List.forall_mem_singleton.mpr trivial)
    | some value => exact h.await (List.forall_mem_nil _)
  | launch call => exact h.goOn (List.forall_mem_nil _)
  | launchDecl declaration =>
    refine h.orAbort fun kind _ => ?_
    cases kind with
    | varDecl name initializer =>
      refine h.orFault fun scope _ => h.orFault fun f _ => ?_
      exact (h.define (v := .void) trivial f name).goOn (List.forall_mem_nil _)
    | _ => exact h.raise n _
  | protect block => exact h.goOn (List.forall_mem_nil _)
  | funDecl | parameter | structDecl | fieldDecl => exact h.give trivial
  | _ => exact h.await (List.forall_mem_nil _)

theorem Supplied.callBuiltin (h : s.Supplied) (n : NodeId) (name : String) (first : Option NodeId)
    (values : List Value) : (s.callBuiltin p n name first values).Whole := by
  simp only [Turn.callBuiltin]
  split
  · split
    · refine h.orAbort fun text _ => ?_
      split
      · exact h.give trivial
      · exact h.goOn (List.forall_mem_nil _)
    · exact h.raise n _
  · split
    · split
      · exact h.orAbort fun watched _ => h.goOn (List.forall_mem_nil _)
      · exact h.raise n _
    · exact h.raise n _

theorem Supplied.apply (h : s.Supplied) (n : NodeId) (callee : Value) (first : Option NodeId)
    {values : List Value} (live : ∀ v ∈ values, s.world.heap.Live v) :
    (s.apply p n callee first values).Whole := by
  simp only [Turn.apply]
  split
  · exact h.callBuiltin n _ first values
  · exact h.goOn live
  · refine h.orAbort fun record makes => ?_
    obtain ⟨whole, made⟩ := h.world.heap.newRecord (live_instantiate live makes)
    exact (h.withHeap (Heap.grows_newRecord _ _).keeps whole).goOn (List.forall_mem_singleton.mpr made)
  · exact h.raise n _
  · exact h.raise n _

theorem Supplied.resume (h : s.Supplied) {v : Value} (live : s.world.heap.Live v) {waiting : Pending}
    (kept : ∀ u ∈ waiting.handles, s.world.heap.Live u) : (resume p s v waiting).Whole := by
  cases waiting with
  | element n done rest =>
    cases rest with
    | nil => exact h.makeArray (forall_mem_done kept live)
    | cons next rest => exact h.await (List.forall_mem_cons.mpr ⟨live, kept⟩)
  | accessedArray n index =>
    refine h.orFault fun a found => h.await (List.forall_mem_singleton.mpr ?_)
    exact Arith.expectArray_eq_ok found ▸ live
  | accessIndex n a =>
    refine h.orFault fun i _ => ?_
    split
    · next u found => exact h.give (Heap.Holds.element? h.world.heap found)
    · exact h.raise n _
  | readStem n field => exact h.orFault fun u reads => h.give (live_of_readField h.world.heap reads)
  | callee n arguments =>
    cases arguments with
    | nil => exact h.apply n v none (List.forall_mem_nil _)
    | cons first rest => exact h.await (List.forall_mem_singleton.mpr live)
  | argument n callee first done rest =>
    obtain ⟨called, done⟩ := List.forall_mem_cons.mp kept
    cases rest with
    | nil => exact h.apply n callee first (forall_mem_done done live)
    | cons next rest => exact h.await (List.forall_mem_cons.mpr ⟨called, List.forall_mem_cons.mpr ⟨live, done⟩⟩)
  | negated n | truth n => exact h.orFault fun b _ => h.give trivial
  | shortCircuit n op right =>
    refine h.orFault fun b _ => ?_
    split
    · exact h.give trivial
    · exact h.await (List.forall_mem_nil _)
  | leftOperand n op left right => exact h.await (List.forall_mem_singleton.mpr live)
  | rightOperand n op left right l =>
    simp only [Turn.resume]
    split
    · exact h.ofNest fun nest result => Arith.scalar_of_matrixProduct result
    · exact h.ofNest fun nest result => Arith.scalar_of_binary result
  | assignName n target name =>
    refine h.orFault fun scope _ => h.orFault fun f _ => ?_
    exact (h.define (live.widen _) f name).goOn (List.forall_mem_singleton.mpr (live.widen _))
  | storeArray n target index value =>
    refine h.orFault fun a found => h.await (List.forall_mem_singleton.mpr ?_)
    exact Arith.expectArray_eq_ok found ▸ live
  | storeIndex n target value a => exact h.orFault fun i _ => h.await kept
  | storeElement n target a i =>
    simp only [Turn.resume]
    split
    · next inside =>
      have keeps := (Heap.writes_setElement inside (v.widen (p.typeOf target))).keeps
      exact (h.withHeap keeps (h.world.heap.setElement inside (live.widen _))).goOn
        (List.forall_mem_singleton.mpr ((live.widen _).keeps keeps))
    · exact h.raise n _
  | storeStem n target value field => exact h.await (List.forall_mem_singleton.mpr live)
  | storeField n target stem field =>
    simp only [Turn.resume]
    split
    · exact h.raise n _
    · split
      · next r there =>
        obtain ⟨i, position⟩ := Heap.exists_position there
        have keeps := (Heap.writes_setField there position (v.widen (p.typeOf target))).keeps
        exact (h.withHeap keeps (h.world.heap.setField there (live.widen _))).goOn
          (List.forall_mem_singleton.mpr ((live.widen _).keeps keeps))
      · exact h.raise n _
    · exact h.raise n _
  | statements rest => exact h.runStatements rest
  | dropped => exact h.give trivial
  | branch n thenBranch elseBranch =>
    refine h.orFault fun b _ => ?_
    split
    · exact h.await (List.forall_mem_nil _)
    · cases elseBranch with
      | none => exact h.give trivial
      | some elseBranch => exact h.await (List.forall_mem_nil _)
  | loopTest n condition body =>
    refine h.orFault fun b _ => ?_
    split
    · exact h.await (List.forall_mem_nil _)
    · exact h.give trivial
  | loopBody n condition body => exact h.await (List.forall_mem_nil _)
  | returned => exact h.goOn (List.forall_mem_singleton.mpr live)
  | declaration n name =>
    refine h.orFault fun scope _ => h.orFault fun f _ => ?_
    exact (h.define (live.widen _) f name).goOn (List.forall_mem_singleton.mpr trivial)
  | leaveBlock saved | leaveCall saved | leaveSite site lock | unlock lock =>
    exact ⟨⟨⟨h.world.bindings, h.world.heap⟩, h.stack⟩, List.forall_mem_singleton.mpr trivial⟩

theorem Supplied.unwind (h : s.Supplied) {e : Exit} (live : ∀ v ∈ (Control.leave e).handles, s.world.heap.Live v)
    (waiting : Pending) : (unwind s e waiting).Whole := by
  cases waiting with
  | leaveCall saved => cases e <;> exact ⟨⟨h.world, h.stack⟩, live⟩
  | leaveSite site lock | unlock lock =>
    exact ⟨⟨⟨h.world.bindings, h.world.heap⟩, h.stack⟩, live⟩
  | _ => exact ⟨⟨h.world, h.stack⟩, live⟩

theorem Supplied.invoke (h : s.Supplied) (span : Option Span) (function : NodeId) {arguments : List Value}
    (live : ∀ v ∈ arguments, s.world.heap.Live v) : (s.invoke p span function arguments).Whole := by
  have leaves : ∀ e, (Control.leave e).handles = [] → (s.leave e).Whole := by
    intro e none
    exact h.goOn (none ▸ List.forall_mem_nil _)
  simp only [Turn.invoke]
  split
  · exact leaves _ rfl
  · split
    · exact leaves _ rfl
    · split
      · exact leaves _ rfl
      · split
        · exact leaves _ rfl
        · next bodyScope _ _ bindings binds =>
          have bound := live_bindParameters live (fun name v bound => by cases bound) binds
          exact ⟨⟨h.world.push bodyScope bound _, List.forall_mem_cons.mpr ⟨List.forall_mem_nil _, h.stack⟩⟩,
            List.forall_mem_nil _⟩
  · exact leaves _ rfl

/-- A step makes no handle without its object. -/
theorem Whole.step (h : s.Whole) (simple : s.control.FromProgram) (p : Program) (who : ThreadId) :
    (s.step p who).Whole := by
  obtain ⟨w, env, control, stack⟩ := s
  have idle : ∀ {control' : Control} {w' : World} {stack' : List Pending}, w'.frames = w.frames →
      w'.heap = w.heap → (∀ waiting ∈ stack', waiting ∈ stack ∨ waiting.handles = []) →
      control'.handles = [] → Whole ⟨w', env, control', stack'⟩ := by
    intro control' w' stack' frames heap old none
    refine ⟨⟨⟨?_, ?_⟩, ?_⟩, ?_⟩
    · intro f name v bound
      rw [heap]
      exact h.world.bindings f name v (frames ▸ bound)
    · exact heap ▸ h.world.heap
    · intro waiting member v held
      rw [heap]
      rcases old waiting member with before | empty
      · exact h.stack waiting before v held
      · rw [empty] at held
        cases held
    · rw [none]
      exact List.forall_mem_nil _
  cases control with
  | eval n =>
    simp only [Turn.step]
    split
    · exact h.toSupplied.enter n _
    · exact h.toSupplied.goOn (List.forall_mem_nil _)
  | give v =>
    cases stack with
    | nil => exact h
    | cons waiting rest =>
      obtain ⟨kept, others⟩ := List.forall_mem_cons.mp h.stack
      exact Supplied.resume (s := ⟨w, env, .give v, rest⟩) ⟨h.world, others⟩ (h.control v List.mem_cons_self) kept
  | leave e =>
    cases stack with
    | nil => exact h
    | cons waiting rest =>
      obtain ⟨-, others⟩ := List.forall_mem_cons.mp h.stack
      exact Supplied.unwind (s := ⟨w, env, .leave e, rest⟩) ⟨h.world, others⟩ h.control waiting
  | invoke span function arguments => exact h.toSupplied.invoke span function h.control
  | findSite site block =>
    simp only [Turn.step]
    split <;> exact h.toSupplied.goOn (List.forall_mem_nil _)
  | enterSite site lock block =>
    simp only [Turn.step]
    split
    · refine idle rfl rfl ?_ rfl
      exact List.forall_mem_cons.mpr ⟨.inr rfl, fun waiting member => .inl member⟩
    · exact h
  | acquire lock inside => exact simple.elim
  | submit jobs =>
    cases jobs with
    | nil => exact h.toSupplied.give trivial
    | cons job jobs => exact h
  | await n f name =>
    simp only [Turn.step]
    split
    · exact h.toSupplied.give trivial
    · split
      · exact h.toSupplied.raise n _
      · exact h
  | startLine text =>
    simp only [Turn.step]
    split
    · exact idle rfl rfl (fun waiting member => .inl member) rfl
    · exact h
  | addSite site block => exact idle rfl rfl (fun waiting member => .inl member) rfl
  | writeText text | writeBreak text => exact idle rfl rfl (fun waiting member => .inl member) rfl
  | endLine text => exact ⟨⟨⟨h.world.bindings, h.world.heap⟩, h.stack⟩, List.forall_mem_singleton.mpr trivial⟩
  | spin => exact h

end Turn

/-! ## 6. Machines and runs -/

/-- In a world with more objects, a thread refers to as many that are there. -/
theorem Turn.Whole.later {t : Thread} {w w' : World} (h : (t.inside w).Whole) (keeps : w.heap.Keeps w'.heap)
    (whole : w'.Whole) : (t.inside w').Whole :=
  ⟨⟨whole, fun waiting member v held => (h.stack waiting member v held).keeps keeps⟩,
    fun v held => (h.control v held).keeps keeps⟩

namespace Machine

/-- The world and all the threads refer to objects that are there, and every task will begin with a node. -/
structure Whole (m : Machine) : Prop where
  world : m.world.Whole
  threads : ∀ who t, m.thread? who = some t → (t.inside m.world).Whole ∧ t.control.FromProgram
  jobs : ∀ id env job, m.Waits id env job → ∃ n, job = .eval n

variable {m m' : Machine} {seen : Option Sighting}

theorem Whole.turn (h : m.Whole) {who : ThreadId} {t : Thread} (found : m.thread? who = some t) :
    ((t.inside m.world).step p who).Whole ∧ ((t.inside m.world).step p who).control.FromProgram := by
  obtain ⟨whole, simple⟩ := h.threads who t found
  exact ⟨whole.step simple p who, (Turn.step_course p who (t.inside m.world)).fromProgram simple⟩

theorem Whole.next (h : m.Whole) (next : Next p m seen m') : m'.Whole := by
  have keeps := next.effect.keeps
  have world : m'.world.Whole := by
    cases next with
    | turn who t found silent going => exact (h.turn found).1.world
    | launch who t rest job found launches =>
      have same : (m.setThread who rest).world = m.world := world_setThread m who rest
      exact ⟨congrArg World.frames same ▸ congrArg World.heap same ▸ h.world.bindings,
        congrArg World.heap same ▸ h.world.heap⟩
    | _ => exact ⟨h.world.bindings, h.world.heap⟩
  have launch : ∀ who t rest job, m.thread? who = some t → t.launch? = some (job, rest) →
      (∃ n, job = .eval n) ∧ (rest.inside m'.world).Whole ∧ rest.control.FromProgram := by
    intro who t rest job found launches
    obtain ⟨jobs, submits, rfl⟩ := launch?_eq_some launches
    obtain ⟨whole, simple⟩ := h.threads who t found
    rw [submits] at simple
    exact ⟨simple job List.mem_cons_self,
      ⟨⟨world, (whole.later keeps world).stack⟩, List.forall_mem_nil _⟩,
      fun other member => simple other (List.mem_cons_of_mem _ member)⟩
  refine ⟨world, ?_, ?_⟩
  · refine next.forall_threads (fun who t found => ?_) (fun who t found _ turned => ?_)
      (fun who t rest job found launches => (launch who t rest job found launches).2)
      (fun id env job waits => ?_)
    · obtain ⟨whole, simple⟩ := h.threads who t found
      exact ⟨whole.later keeps world, simple⟩
    · subst turned
      exact h.turn found
    · obtain ⟨n, rfl⟩ := h.jobs id env job waits
      exact ⟨⟨⟨world, List.forall_mem_nil _⟩, List.forall_mem_nil _⟩, trivial⟩
  · intro id env job waits
    obtain waited | ⟨who, t, rest, found, launches, rfl, -⟩ := next.waits waits
    · exact h.jobs id env job waited
    · exact (launch who t rest job found launches).1

end Machine

namespace Run

theorem whole_initial (p : Program) (c : RunConfig) : (initial p c).machine.Whole := by
  obtain ⟨bindings, begun, constants, -⟩ := machine_initial_single p c
  rw [begun]
  have world : World.Whole { World.new c.printer with frames := .single p.attrs.rootScope bindings } := by
    refine ⟨?_, Heap.holds_empty _⟩
    intro f name v found
    obtain ⟨text, constant⟩ := constants name v (Frames.lookup_single found)
    simp only [hostConstants, List.mem_cons, Prod.mk.injEq, List.not_mem_nil, or_false] at constant
    rcases constant with ⟨-, rfl⟩ | ⟨-, rfl⟩ | ⟨-, rfl⟩ <;> trivial
  refine ⟨world, ?_, ?_⟩
  · intro who t found
    cases who with
    | task id => cases found
    | main =>
      cases found
      exact ⟨⟨⟨world, List.forall_mem_singleton.mpr (List.forall_mem_nil _)⟩, List.forall_mem_singleton.mpr trivial⟩,
        trivial⟩
  · intro id env job waits
    cases waits

/-- Whatever the threads of a run have in their hands, and whatever is bound or stored, refers to objects that
are there. -/
theorem whole_play (p : Program) (c : RunConfig) (moves : List Move) :
    ((initial p c).play p c moves).machine.Whole := by
  refine holds_play (fun r => r.machine.Whole) (whole_initial p c) (fun r r' _ h next => ?_) moves
  cases next with
  | same | look | giveUp => exact h
  | step seen machine next here => exact h.next next
  | close | report => exact ⟨⟨h.world.bindings, h.world.heap⟩, fun who t found =>
      (h.threads who t found).imp (fun whole => ⟨⟨⟨h.world.bindings, h.world.heap⟩, whole.stack⟩, whole.control⟩) id,
      h.jobs⟩

end Run

end Strand
