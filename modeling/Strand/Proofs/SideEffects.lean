import Strand.Proofs.Evaluation

/-!
# Expressions without side effects

An evaluation may make frames, arrays and instances of its own. It has no side effect if it leaves everything
else as it was: the bindings, the objects, the locks and the output (`World.Spares`).

Whether an expression has side effects may depend on the state in which it is evaluated. An expression that is
made of literals, names, operators and accesses never has any (`Program.Inert.sideEffectFree`): while it is
evaluated, nothing waits but for operands, and the only thing that a step does to the world is to make an array.
-/

set_option autoImplicit false

namespace Strand

/-! ## 1. Worlds that are left alone -/

namespace World

/-- Whatever there is in the first world but objects is the same in the second. -/
structure Stays (w w' : World) : Prop where
  frames : ∀ f frame, w.frames.frame? f = some frame → w'.frames.frame? f = some frame
  sites : ∀ site lock, w.locks.find? site = some lock → w'.locks.find? site = some lock
  locks : ∀ lock, w'.locks.lock lock = w.locks.lock lock
  output : w'.output = w.output
  ledger : w'.ledger = w.ledger

/-- Nothing of the first world has changed in the second, where there may be more. -/
structure Spares (w w' : World) : Prop extends w.Stays w' where
  heap : w.heap.Grows w'.heap

/-- Nothing of the first world has changed in the second but for the value of one slot. -/
structure SparesBut (w : World) (slot : Slot) (w' : World) : Prop extends w.Stays w' where
  slots : ∀ other, other ≠ slot → ∀ v, w.heap.read? other = some v → w'.heap.read? other = some v
  shapes : w.heap.Keeps w'.heap

variable {w w' w'' : World}

theorem Stays.trans (first : w.Stays w') (second : w'.Stays w'') : w.Stays w'' :=
  ⟨fun f frame found => second.frames f frame (first.frames f frame found),
    fun site lock found => second.sites site lock (first.sites site lock found),
    fun lock => (second.locks lock).trans (first.locks lock), second.output.trans first.output,
    second.ledger.trans first.ledger⟩

theorem Stays.refl (w : World) : w.Stays w := ⟨fun _ _ => id, fun _ _ => id, fun _ => rfl, rfl, rfl⟩

theorem Spares.refl (w : World) : w.Spares w := ⟨.refl w, .refl _⟩

theorem Spares.trans (first : w.Spares w') (second : w'.Spares w'') : w.Spares w'' :=
  ⟨first.toStays.trans second.toStays, first.heap.trans second.heap⟩

/-- Another heap leaves alone what is no object. -/
theorem stays_withHeap (w : World) (heap : Heap) : w.Stays { w with heap } :=
  ⟨fun _ _ => id, fun _ _ => id, fun _ => rfl, rfl, rfl⟩

/-- A write after something that has no effect. -/
theorem Spares.write (spares : w.Spares w') {slot : Slot} {v : Value} {heap : Heap}
    (writes : w'.heap.Writes slot v heap) : w.SparesBut slot { w' with heap } := by
  refine ⟨spares.toStays.trans (stays_withHeap w' heap), ?_, spares.heap.keeps.trans writes.keeps⟩
  intro other differs u found
  exact (writes.others other differs).trans (spares.heap.read? found)

end World

namespace Program

variable (p : Program) (who : ThreadId) (env : Env)

/-- An expression that, evaluated here, leaves everything as it is. It may make frames and objects of its
own. -/
def SideEffectFree (w : World) (n : NodeId) : Prop := ∀ w' o, p.Evaluates who env w n w' o → w.Spares w'

/-- An expression that faults here, and why. -/
def FaultsWith (w : World) (n : NodeId) (cause : Cause) : Prop :=
  ∃ w' f, p.Evaluates who env w n w' (.exit (.fault f)) ∧ f.cause = cause

/-- An expression that has a value here. -/
def Succeeds (w : World) (n : NodeId) : Prop := ∃ w' v, p.Evaluates who env w n w' (.value v)

end Program

/-! ## 2. Expressions that only read -/

/-- The parts of an expression that has no side effects but those of its parts. -/
def NodeKind.reads? : NodeKind → Option (List NodeId)
  | intLiteral _ | floatLiteral _ | stringLiteral _ | reference _ | constructor _ => some []
  | parenthesized inner | not inner | fieldAccess inner _ => some [inner]
  | arrayLiteral elements => some elements
  | arrayAccess left right | binary _ left right => some [left, right]
  | _ => none

/-- An expression that is made of literals, names, operators and accesses. -/
inductive Program.Inert (p : Program) : NodeId → Prop
  | node (n : NodeId) (kind : NodeKind) (parts : List NodeId) (is : p.kind n = .ok kind)
      (reads : kind.reads? = some parts) (each : ∀ m ∈ parts, Inert p m) : Inert p n

/-- Whether a pending waits for an operand of such an expression. -/
def Pending.isReading : Pending → Bool
  | element .. | accessedArray .. | accessIndex .. | readStem .. | negated _ | shortCircuit .. | truth _
  | leftOperand .. | rightOperand .. => true
  | _ => false

/-- A control at which the evaluation of such an expression may be. -/
def Control.Reading (p : Program) : Control → Prop
  | eval n => p.Inert n
  | give _ | leave _ | spin => True
  | _ => False

namespace Turn

/-- Nothing of the world `w` has changed, and nothing waits but for operands that only read. -/
structure Calm (p : Program) (w : World) (s : Turn) : Prop where
  world : w.Spares s.world
  stack : ∀ waiting ∈ s.stack, waiting.isReading = true ∧ ∀ n ∈ waiting.nodes, p.Inert n

/-- The same, and the thread goes on to read. -/
structure Reads (p : Program) (w : World) (s : Turn) : Prop extends Calm p w s where
  control : s.control.Reading p

variable {p : Program} {w : World} {s : Turn}

namespace Calm

variable (h : Calm p w s)

include h

theorem goOn {control : Control} (reading : control.Reading p) : Reads p w { s with control } :=
  ⟨⟨h.world, h.stack⟩, reading⟩

theorem abort (n : NodeId) (e : Abort) : Reads p w (s.abort p n e) := by
  cases e <;> exact h.goOn trivial

theorem orAbort {α : Type} {n : NodeId} {result : Except Abort α} {next : α → Turn}
    (goesOn : ∀ a, Reads p w (next a)) : Reads p w (s.orAbort p n result next) := by
  cases result with
  | ok a => exact goesOn a
  | error e => exact h.abort n e

theorem orFault {α : Type} {n : NodeId} {result : Except Cause α} {next : α → Turn}
    (goesOn : ∀ a, Reads p w (next a)) : Reads p w (s.orFault p n result next) := by
  cases result with
  | ok a => exact goesOn a
  | error cause => exact h.goOn trivial

theorem await {n : NodeId} {waiting : Pending} (inert : p.Inert n) (reading : waiting.isReading = true)
    (nodes : ∀ m ∈ waiting.nodes, p.Inert m) : Reads p w (s.await n waiting) :=
  ⟨⟨h.world, List.forall_mem_cons.mpr ⟨⟨reading, nodes⟩, h.stack⟩⟩, inert⟩

theorem withHeap {heap : Heap} (grows : s.world.heap.Grows heap) : Calm p w { s with world.heap := heap } :=
  ⟨⟨h.world.toStays.trans (World.stays_withHeap s.world heap), h.world.heap.trans grows⟩, h.stack⟩

theorem makeArray (values : List Value) : Reads p w (s.makeArray values) :=
  (h.withHeap (Heap.grows_newArray _ _)).goOn trivial

theorem ofNest {n : NodeId} {result : Except Abort Nest} : Reads p w (s.ofNest p n result) := by
  cases result with
  | error e => exact h.abort n e
  | ok nest =>
    cases nest with
    | leaf v => exact h.goOn trivial
    | row elements => exact (h.withHeap (Heap.grows_place _ (.row elements))).goOn trivial

theorem enter {n : NodeId} {kind : NodeKind} {parts : List NodeId} (reads : kind.reads? = some parts)
    (each : ∀ m ∈ parts, p.Inert m) : Reads p w (enter p s n kind) := by
  cases kind with
  | intLiteral | floatLiteral | stringLiteral => exact h.goOn trivial
  | reference name => exact h.orAbort fun v => h.goOn trivial
  | constructor reference =>
    simp only [Turn.enter]
    split <;> exact h.goOn trivial
  | parenthesized inner =>
    cases reads
    exact h.goOn (each inner List.mem_cons_self)
  | arrayLiteral elements =>
    obtain rfl : elements = parts := Option.some.inj reads
    cases elements with
    | nil => exact h.makeArray _
    | cons first rest =>
      obtain ⟨inert, others⟩ := List.forall_mem_cons.mp each
      exact h.await inert rfl others
  | arrayAccess array index =>
    cases reads
    obtain ⟨inert, others⟩ := List.forall_mem_cons.mp each
    exact h.await inert rfl others
  | fieldAccess stem field =>
    cases reads
    exact h.await (each stem List.mem_cons_self) rfl (List.forall_mem_nil _)
  | not operand =>
    cases reads
    exact h.await (each operand List.mem_cons_self) rfl (List.forall_mem_nil _)
  | binary op left right =>
    cases reads
    obtain ⟨inert, others⟩ := List.forall_mem_cons.mp each
    simp only [Turn.enter]
    split <;> exact h.await inert rfl others
  | _ => cases reads

theorem resume (v : Value) {waiting : Pending} (reading : waiting.isReading = true)
    (nodes : ∀ n ∈ waiting.nodes, p.Inert n) : Reads p w (resume p s v waiting) := by
  cases waiting with
  | element n done rest =>
    cases rest with
    | nil => exact h.makeArray _
    | cons next rest =>
      obtain ⟨inert, others⟩ := List.forall_mem_cons.mp nodes
      exact h.await inert rfl others
  | accessedArray n index =>
    exact h.orFault fun a => h.await (nodes index List.mem_cons_self) rfl (List.forall_mem_nil _)
  | accessIndex n a =>
    refine h.orFault fun i => ?_
    split <;> exact h.goOn trivial
  | readStem n field => exact h.orFault fun u => h.goOn trivial
  | negated n | truth n => exact h.orFault fun b => h.goOn trivial
  | shortCircuit n op right =>
    refine h.orFault fun b => ?_
    split
    · exact h.goOn trivial
    · exact h.await (nodes right List.mem_cons_self) rfl (List.forall_mem_nil _)
  | leftOperand n op left right => exact h.await (nodes right List.mem_cons_self) rfl (List.forall_mem_nil _)
  | rightOperand n op left right l =>
    simp only [Turn.resume]
    split <;> exact h.ofNest
  | _ => cases reading

end Calm

/-- A step reads on. -/
theorem Reads.step (h : Reads p w s) (who : ThreadId) : Reads p w (s.step p who) := by
  obtain ⟨world, env, control, stack⟩ := s
  cases control with
  | eval n =>
    obtain ⟨_, kind, parts, is, reads, each⟩ := h.control
    simp only [Turn.step, is]
    exact h.toCalm.enter reads each
  | give v =>
    cases stack with
    | nil => exact h
    | cons waiting rest =>
      obtain ⟨⟨reading, nodes⟩, others⟩ := List.forall_mem_cons.mp h.stack
      exact Calm.resume (s := ⟨world, env, .give v, rest⟩) ⟨h.world, others⟩ v reading nodes
  | leave e =>
    cases stack with
    | nil => exact h
    | cons waiting rest =>
      obtain ⟨⟨reading, -⟩, others⟩ := List.forall_mem_cons.mp h.stack
      have kept : Calm p w ⟨world, env, .leave e, rest⟩ := ⟨h.world, others⟩
      cases waiting with
      | leaveBlock | leaveCall | leaveSite | unlock => cases reading
      | _ => exact kept.goOn trivial
  | spin => exact h
  | _ => exact h.control.elim

end Turn

/-- An expression of literals, names, operators and accesses has no side effects, wherever it is evaluated. -/
theorem Program.Inert.sideEffectFree {p : Program} {n : NodeId} (inert : p.Inert n) (who : ThreadId)
    (env : Env) (w : World) : p.SideEffectFree who env w n := by
  intro w' o evaluates
  obtain ⟨env', after⟩ := Turn.Ends.invariant (P := Turn.Reads p w) evaluates
    ⟨⟨World.Spares.refl w, List.forall_mem_nil _⟩, inert⟩ fun s h => h.step who
  exact after.world

end Strand
