import Strand.Proofs.Confined.Renaming
import Strand.Proofs.Handles
import Strand.Proofs.Return

/-!
# An evaluation by itself

A thread evaluates in small steps, and between two of them other threads may move. As long as none does, the
evaluation of a node is one thing: it begins in a world and an environment, and if it ends it has made another
world and has an outcome (`Program.Evaluates`). There is at most one, since a step leaves no choice.

What an expression does with its operands is said in these terms. To evaluate an operand is to evaluate it by
itself and then to go on, in the same environment, with what waits for it (`Turn.ends_above`). So the
evaluation of a node is taken apart into the evaluations of its operands, and no lemma about one node has to
look at the steps of another.
-/

set_option autoImplicit false

namespace Strand

deriving instance DecidableEq for Value

/-- The control of a thread that has an outcome. -/
def Outcome.control : Outcome → Control
  | value v => .give v
  | exit e => .leave e

namespace Turn

/-! ## 1. Threads that come to an end -/

/-- A thread that takes its steps, and nobody else does, is over at some time, with the outcome `o` and in the
world `w`. -/
def Ends (p : Program) (who : ThreadId) (s : Turn) (w : World) (o : Outcome) : Prop :=
  ∃ count, ((step p who)^[count] s).world = w ∧ ((step p who)^[count] s).thread.outcome? = some o

variable {p : Program} {who : ThreadId} {s : Turn} {w w' : World} {env : Env} {o o' : Outcome}

/-- A thread that is over has nothing but its outcome. -/
theorem eq_of_over (ended : s.thread.outcome? = some o) : s = ⟨s.world, s.env, o.control, []⟩ := by
  obtain ⟨world, env, control, stack⟩ := s
  obtain ⟨nothing, ⟨v, gives, rfl⟩ | ⟨e, leaves, rfl⟩⟩ := Thread.outcome?_eq_some ended
  · obtain rfl : stack = [] := nothing
    obtain rfl : control = .give v := gives
    rfl
  · obtain rfl : stack = [] := nothing
    obtain rfl : control = .leave e := leaves
    rfl

theorem busy_of_unfinished (unfinished : s.thread.outcome? = none) : s.stack = [] → ¬ s.control.Hands := by
  obtain ⟨top, stack, busy⟩ := Thread.above_nil_iff.mpr unfinished
  rw [List.append_nil] at stack
  exact fun nothing => busy (stack.symm.trans nothing)

@[simp] theorem outcome?_control (w : World) (env : Env) (o : Outcome) :
    (Turn.mk w env o.control []).thread.outcome? = some o := by
  cases o <;> rfl

theorem step_of_over (ended : s.thread.outcome? = some o) : s.step p who = s := by
  rw [eq_of_over ended]
  cases o <;> rfl

theorem iterate_of_over (ended : s.thread.outcome? = some o) (count : Nat) :
    (step p who)^[count] s = s := Function.iterate_fixed (step_of_over ended) count

/-- A thread that is over has come to its own end. -/
theorem ends_of_over : Ends p who ⟨w, env, o.control, []⟩ w' o' ↔ w' = w ∧ o' = o := by
  have still : ∀ count, (step p who)^[count] ⟨w, env, o.control, []⟩ = ⟨w, env, o.control, []⟩ :=
    iterate_of_over (outcome?_control w env o)
  refine ⟨?_, ?_⟩
  · rintro ⟨count, same, ended⟩
    rw [still, outcome?_control] at ended
    rw [still] at same
    exact ⟨same.symm, (Option.some.inj ended).symm⟩
  · rintro ⟨rfl, rfl⟩
    exact ⟨0, rfl, outcome?_control w' env o'⟩

/-- A step does not change where a thread ends. -/
theorem ends_step : Ends p who (s.step p who) w o ↔ Ends p who s w o := by
  refine ⟨?_, ?_⟩
  · rintro ⟨count, same, ended⟩
    exact ⟨count + 1, same, ended⟩
  · rintro ⟨count, same, ended⟩
    cases count with
    | zero =>
      rw [Function.iterate_zero_apply] at same ended
      rw [step_of_over ended]
      exact ⟨0, same, ended⟩
    | succ count => exact ⟨count, same, ended⟩

/-- A thread comes to one end only. -/
theorem Ends.unique (ends : Ends p who s w o) (ends' : Ends p who s w' o') : w' = w ∧ o' = o := by
  obtain ⟨count, same, ended⟩ := ends
  have later : ∀ count, Ends p who ((step p who)^[count] s) w' o' := by
    intro count
    induction count with
    | zero => exact ends'
    | succ count ih =>
      rw [Function.iterate_succ_apply']
      exact ends_step.mpr ih
  have here := later count
  rw [eq_of_over ended, same] at here
  exact ends_of_over.mp here

/-- What every step keeps holds in the end. -/
theorem Ends.invariant {P : Turn → Prop} (ends : Ends p who s w o) (start : P s)
    (kept : ∀ s, P s → P (s.step p who)) : ∃ env, P ⟨w, env, o.control, []⟩ := by
  obtain ⟨count, same, ended⟩ := ends
  have all : ∀ count, P ((step p who)^[count] s) := by
    intro count
    induction count with
    | zero => exact start
    | succ count ih =>
      rw [Function.iterate_succ_apply']
      exact kept _ ih
  have here := all count
  rw [eq_of_over ended, same] at here
  exact ⟨_, here⟩

/-! ## 2. The way back -/

/-- From a place of its stack on, a thread has come to an end there: nothing but its outcome is left above. -/
def ComesTo (p : Program) (who : ThreadId) (s : Turn) (w : World) (env : Env) (o : Outcome) : Prop :=
  ∃ count, (step p who)^[count] s = ⟨w, env, o.control, []⟩

theorem leadsHome_iterate (leads : s.thread.LeadsHome [] env) (count : Nat) :
    ((step p who)^[count] s).thread.LeadsHome [] env := by
  induction count with
  | zero => exact leads
  | succ count ih =>
    rw [Function.iterate_succ_apply']
    cases ended : ((step p who)^[count] s).thread.outcome? with
    | some o => rwa [step_of_over ended]
    | none => exact step_leadsHome p who _ (Thread.above_nil_iff.mpr ended) ih

/-- Whoever began an evaluation in `env` is there again in the end. -/
theorem comesTo_iff (leads : s.thread.LeadsHome [] env) : ComesTo p who s w env o ↔ Ends p who s w o := by
  refine ⟨?_, ?_⟩
  · rintro ⟨count, same⟩
    exact ⟨count, by rw [same], by rw [same, outcome?_control]⟩
  · rintro ⟨count, same, ended⟩
    have back : ((step p who)^[count] s).thread.LeadsHome [] env := leadsHome_iterate leads count
    refine ⟨count, ?_⟩
    rw [eq_of_over ended] at back ⊢
    rw [same] at back ⊢
    exact congrArg (Turn.mk w · o.control []) (back.env_eq rfl)

/-! ## 3. What waits beneath -/

/-- A thread on top of something that waits comes to its own end first, and goes on from there. -/
theorem ends_onto (beneath : List Pending) :
    Ends p who (s.onto beneath) w o ↔
      ∃ w₁ env₁ o₁, ComesTo p who s w₁ env₁ o₁ ∧ Ends p who ⟨w₁, env₁, o₁.control, beneath⟩ w o := by
  refine ⟨?_, ?_⟩
  · rintro ⟨count, same, ended⟩
    induction count generalizing s with
    | zero =>
      -- nothing is left, and so nothing waited
      have nothing : s.stack ++ beneath = [] := (Thread.outcome?_eq_some ended).1
      obtain ⟨mine, rfl⟩ := List.append_eq_nil_iff.mp nothing
      have alone : s.onto [] = s := by rw [onto, List.append_nil]
      rw [Function.iterate_zero_apply, alone] at same ended
      refine ⟨s.world, s.env, o, ⟨0, eq_of_over ended⟩, ?_⟩
      rw [← eq_of_over ended]
      exact ⟨0, same, ended⟩
    | succ count ih =>
      cases finished : s.thread.outcome? with
      | some o₁ =>
        have here := eq_of_over finished
        refine ⟨s.world, s.env, o₁, ⟨0, here⟩, count + 1, ?_⟩
        have raised : s.onto beneath = ⟨s.world, s.env, o₁.control, beneath⟩ := by
          rw [here]
          rfl
        rw [raised] at same ended
        exact ⟨same, ended⟩
      | none =>
        rw [Function.iterate_succ_apply, step_onto (busy_of_unfinished finished)] at same ended
        obtain ⟨w₁, env₁, o₁, ⟨before, comes⟩, after⟩ := ih same ended
        exact ⟨w₁, env₁, o₁, ⟨before + 1, comes⟩, after⟩
  · rintro ⟨w₁, env₁, o₁, ⟨count, comes⟩, after⟩
    induction count generalizing s with
    | zero =>
      obtain rfl : s = ⟨w₁, env₁, o₁.control, []⟩ := comes
      exact after
    | succ count ih =>
      cases finished : s.thread.outcome? with
      | some o =>
        rw [iterate_of_over finished] at comes
        rw [comes]
        exact after
      | none =>
        rw [← ends_step, step_onto (busy_of_unfinished finished)]
        exact ih comes

end Turn

/-! ## 4. Nodes -/

namespace Program

/-- A node is evaluated in a world and an environment, while nobody else moves: that makes the world `w'`, and
has the outcome `o`. -/
def Evaluates (p : Program) (who : ThreadId) (env : Env) (w : World) (n : NodeId) (w' : World)
    (o : Outcome) : Prop :=
  Turn.Ends p who ⟨w, env, .eval n, []⟩ w' o

variable {p : Program} {who : ThreadId} {env : Env} {w w' : World} {n : NodeId} {o o' : Outcome}

theorem Evaluates.unique (evaluates : p.Evaluates who env w n w' o) {w'' : World}
    (evaluates' : p.Evaluates who env w n w'' o') : w'' = w' ∧ o' = o :=
  Turn.Ends.unique evaluates evaluates'

/-- Objects keep their shapes. -/
theorem Evaluates.keeps (evaluates : p.Evaluates who env w n w' o) : w.heap.Keeps w'.heap := by
  obtain ⟨env', keeps⟩ := Turn.Ends.invariant (P := fun s => w.heap.Keeps s.world.heap) evaluates
    (Heap.Grows.refl _).keeps fun s keeps => by
      cases Turn.step_effect p who s with
      | spares spares => exact keeps.trans spares.heap.keeps
      | writes n slot v assigns writes gives honest => exact keeps.trans writes.keeps
  exact keeps

/-- Frames keep their scopes and what is around them, and there may be more. -/
theorem Evaluates.frames (evaluates : p.Evaluates who env w n w' o) : w.frames.Grows w'.frames := by
  obtain ⟨env', grows⟩ := Turn.Ends.invariant (P := fun s => w.frames.Grows s.world.frames) evaluates
    (.refl _) fun s grows => grows.trans (Turn.step_moves p who s).keeps.2.2
  exact grows

/-- The value of an expression refers to objects that are there, if whatever was there before did so. -/
theorem Evaluates.whole (evaluates : p.Evaluates who env w n w' o) (whole : w.Whole) :
    w'.Whole ∧ ∀ v, o = .value v → w'.heap.Live v := by
  obtain ⟨env', after, -⟩ := Turn.Ends.invariant (P := fun s => s.Whole ∧ s.control.FromProgram) evaluates
    ⟨⟨⟨whole, List.forall_mem_nil _⟩, List.forall_mem_nil _⟩, trivial⟩ fun s ⟨h, simple⟩ =>
      ⟨h.step simple p who, (Turn.step_course p who s).fromProgram simple⟩
  refine ⟨after.world, ?_⟩
  rintro v rfl
  exact after.control v List.mem_cons_self

/-- The evaluation of a node begins as its kind says. -/
theorem evaluates_iff {kind : NodeKind} (is : p.kind n = .ok kind) :
    p.Evaluates who env w n w' o ↔ Turn.Ends p who (Turn.enter p ⟨w, env, .eval n, []⟩ n kind) w' o := by
  rw [Evaluates, ← Turn.ends_step]
  simp only [Turn.step, is]

end Program

namespace Turn

variable {p : Program} {who : ThreadId} {env : Env} {w w' : World} {n : NodeId} {o : Outcome} {cause : Cause}
  {α : Type}

/-- To evaluate a node for what waits beneath is to evaluate it by itself, and to go on from there. -/
theorem ends_above (beneath : List Pending) :
    Ends p who ⟨w, env, .eval n, beneath⟩ w' o ↔
      ∃ w₁ o₁, p.Evaluates who env w n w₁ o₁ ∧ Ends p who ⟨w₁, env, o₁.control, beneath⟩ w' o := by
  have home : (Turn.mk w env (.eval n) []).thread.LeadsHome [] env := ⟨[], rfl, rfl, rfl⟩
  refine (ends_onto (s := ⟨w, env, .eval n, []⟩) beneath).trans ⟨?_, ?_⟩
  · rintro ⟨w₁, env₁, o₁, comes, after⟩
    obtain ⟨count, same⟩ := id comes
    have back : ((step p who)^[count] ⟨w, env, .eval n, []⟩).thread.LeadsHome [] env :=
      leadsHome_iterate home count
    rw [same] at back
    obtain rfl : env₁ = env := back.env_eq rfl
    exact ⟨w₁, o₁, (comesTo_iff home).mp comes, after⟩
  · rintro ⟨w₁, o₁, evaluates, after⟩
    exact ⟨w₁, env, o₁, (comesTo_iff home).mpr evaluates, after⟩

/-- A pending that an exit passes. -/
def Passes (waiting : Pending) : Prop := ∀ (s : Turn) (e : Exit), s.unwind e waiting = s.leave e

/-- What waits for an operand is passed by an exit, and is resumed with a value. -/
theorem ends_operand {waiting : Pending} (passes : Passes waiting) :
    Ends p who ⟨w, env, .eval n, [waiting]⟩ w' o ↔
      (∃ e, p.Evaluates who env w n w' (.exit e) ∧ o = .exit e) ∨
      ∃ w₁ v, p.Evaluates who env w n w₁ (.value v) ∧
        Ends p who (resume p ⟨w₁, env, .give v, []⟩ v waiting) w' o := by
  have exits : ∀ w₁ e, Ends p who ⟨w₁, env, .leave e, [waiting]⟩ w' o ↔ w' = w₁ ∧ o = .exit e := by
    intro w₁ e
    rw [← ends_step]
    show Ends p who (unwind ⟨w₁, env, .leave e, []⟩ e waiting) w' o ↔ _
    rw [passes]
    exact ends_of_over (o := .exit e)
  have gives : ∀ w₁ v, Ends p who ⟨w₁, env, .give v, [waiting]⟩ w' o ↔
      Ends p who (resume p ⟨w₁, env, .give v, []⟩ v waiting) w' o := by
    intro w₁ v
    rw [← ends_step]
    rfl
  rw [ends_above]
  refine ⟨?_, ?_⟩
  · rintro ⟨w₁, o₁, evaluates, after⟩
    cases o₁ with
    | value v => exact .inr ⟨w₁, v, evaluates, (gives w₁ v).mp after⟩
    | exit e =>
      obtain ⟨rfl, rfl⟩ := (exits w₁ e).mp after
      exact .inl ⟨e, evaluates, rfl⟩
  · rintro (⟨e, evaluates, rfl⟩ | ⟨w₁, v, evaluates, after⟩)
    · exact ⟨w', .exit e, evaluates, (exits w' e).mpr ⟨rfl, rfl⟩⟩
    · exact ⟨w₁, .value v, evaluates, (gives w₁ v).mpr after⟩

theorem ends_give {control : Control} {v : Value} :
    Ends p who ((Turn.mk w env control []).give v) w' o ↔ w' = w ∧ o = .value v :=
  ends_of_over (o := .value v)

/-- The outcome of a node that raises a fault. -/
def raised (p : Program) (n : NodeId) (cause : Cause) : Outcome := .exit (.fault ⟨cause, some (p.span n), []⟩)

theorem ends_raise {control : Control} :
    Ends p who ((Turn.mk w env control []).raise p n cause) w' o ↔ w' = w ∧ o = raised p n cause :=
  ends_of_over (o := raised p n cause)

/-- What an operation has done is to raise a fault, or to go on. -/
theorem ends_orFault {control : Control} {result : Except Cause α} {next : α → Turn} :
    Ends p who ((Turn.mk w env control []).orFault p n result next) w' o ↔
      (∃ cause, result = .error cause ∧ w' = w ∧ o = raised p n cause) ∨
      ∃ a, result = .ok a ∧ Ends p who (next a) w' o := by
  cases result with
  | ok a => simp [orFault]
  | error cause => simp [orFault, ends_raise]

/-- What is read for a name is the value of a reference to it. -/
theorem evaluates_reference {name : Name} {v : Value} (is : p.kind n = .ok (.reference name))
    (reads : p.readName env w.frames n name = .ok v) : p.Evaluates who env w n w (.value v) := by
  refine (Program.evaluates_iff is).mpr ?_
  simp only [enter, reads, orAbort]
  exact ends_give.mpr ⟨rfl, rfl⟩

end Turn

end Strand
