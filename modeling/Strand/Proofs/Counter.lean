import Mathlib
import Strand.Builder.Script
import Strand.Proofs.Accounting
import Strand.Proofs.Exclusion

/-!
# Protected increments add up

The block `counter = counter + 1` reads a variable of the root frame, adds one and writes the variable
back, each in a step of its own. Under the lock of its site nothing that matters comes in between, so
a run in which nothing else changes the variable has counted every evaluation of the block once.

`Stage` follows one thread through the block. What it owes the counter is one from the moment at which
it begins to evaluate the block to the moment at which it writes. `Tally` is the invariant: the counter
has grown by the number of writes, and every thread has begun as often as it has written, but for what
it owes.
-/

set_option autoImplicit false

namespace Strand

/-! ## 1. The block -/

/-- The nodes of a protected block that adds one to a variable, and the node that declares it. -/
structure Increment where
  site : NodeId
  block : NodeId
  statement : NodeId
  assignment : NodeId
  target : NodeId
  sum : NodeId
  operand : NodeId
  one : NodeId
  declaration : NodeId

namespace Increment

/-- The nodes are those of `counter = counter + 1` in a protected block, for a global integer. -/
structure Of (b : Increment) (p : Program) (counter : Name) : Prop where
  site : p.kind b.site = .ok (.protect b.block)
  block : p.kind b.block = .ok (.block [b.statement])
  statement : p.kind b.statement = .ok (.expression b.assignment)
  assignment : p.kind b.assignment = .ok (.assignment b.target b.sum)
  target : p.kind b.target = .ok (.reference counter)
  sum : p.kind b.sum = .ok (.binary .add b.operand b.one)
  operand : p.kind b.operand = .ok (.reference counter)
  one : p.kind b.one = .ok (.intLiteral 1)
  declaration : ∃ initializer, p.kind b.declaration = .ok (.varDecl counter initializer)
  denotes : p.attrs.decl? b.operand = some (.node b.declaration)
  blockScope : (p.attrs.scope? b.block).isSome
  targetScope : p.attrs.scope? b.target = some p.attrs.rootScope
  operandScope : p.attrs.scope? b.operand = some p.attrs.rootScope
  targetType : p.typeOf b.target = .int
  operandType : p.typeOf b.operand = .int
  oneType : p.typeOf b.one = .int

end Increment

/-! ## 2. What is seen of it -/

namespace Sighting

/-- The thread stood in the block of a site. -/
def isInside (site : NodeId) (seen : Sighting) : Bool :=
  seen.thread.stack.any (Pending.isEndOf site)

end Sighting

/-- How often a thread was seen to do something. -/
def times (does : Sighting → Bool) (history : List Sighting) (who : ThreadId) : Nat :=
  history.countP fun seen => seen.who = who && does seen

namespace Run

/-- The integer that a global variable holds. -/
def counter? (r : Run) (counter : Name) : Option Int64 :=
  (r.machine.world.frames.lookup r.machine.main.env.root counter).bind Value.asInt?

/-- How often a thread has begun to evaluate a node. -/
def evaluations (r : Run) (site : NodeId) (who : ThreadId) : Nat :=
  times (Sighting.evaluates site) r.history who

/-- Nothing but what moves inside of the block of a site changes a variable. -/
def OnlyInside (p : Program) (c : RunConfig) (site : NodeId) (counter : Name) :
    Run → List Move → Prop
  | _, [] => True
  | r, first :: rest =>
    ((r.move p c first).counter? counter = r.counter? counter ∨
      (r.mover? first).any (Sighting.isInside site)) ∧
      OnlyInside p c site counter (r.move p c first) rest

instance decidableOnlyInside (p : Program) (c : RunConfig) (site : NodeId) (counter : Name) :
    (r : Run) → (moves : List Move) → Decidable (OnlyInside p c site counter r moves)
  | _, [] => inferInstanceAs (Decidable True)
  | r, first :: rest =>
    have := decidableOnlyInside p c site counter (r.move p c first) rest
    inferInstanceAs (Decidable (_ ∧ _))

end Run

/-! ## 3. One thread in the block -/

/-- The site whose lock a control is about to find or to take. -/
def Control.visits? : Control → Option NodeId
  | .findSite site _ | .addSite site _ | .enterSite site _ _ => some site
  | _ => none

theorem Control.IsQuiet.visits? {control : Control} (quiet : control.IsQuiet) :
    control.visits? = none := by
  cases control <;> first | rfl | exact quiet.elim

namespace Increment

/-- What waits for the sum, up to the end of the block. -/
def waiting (b : Increment) (counter : Name) (saved : FrameId) : List Pending :=
  [.assignName b.assignment b.target counter, .dropped, .statements [], .leaveBlock saved]

/-- A thread in the block that has not written yet, while the variable holds `now`: what it does next,
and what waits in the block. -/
inductive Before (b : Increment) (counter : Name) (now : Int64) : Control → List Pending → Prop
  | block : Before b counter now (.eval b.block) []
  | statement (saved : FrameId) :
      Before b counter now (.eval b.statement) [.statements [], .leaveBlock saved]
  | assignment (saved : FrameId) :
      Before b counter now (.eval b.assignment) [.dropped, .statements [], .leaveBlock saved]
  | sum (saved : FrameId) : Before b counter now (.eval b.sum) (b.waiting counter saved)
  | operand (saved : FrameId) :
      Before b counter now (.eval b.operand)
        (.leftOperand b.sum .add b.operand b.one :: b.waiting counter saved)
  | read (saved : FrameId) :
      Before b counter now (.give (.int now))
        (.leftOperand b.sum .add b.operand b.one :: b.waiting counter saved)
  | one (saved : FrameId) :
      Before b counter now (.eval b.one)
        (.rightOperand b.sum .add b.operand b.one (.int now) :: b.waiting counter saved)
  | add (saved : FrameId) :
      Before b counter now (.give (.int 1))
        (.rightOperand b.sum .add b.operand b.one (.int now) :: b.waiting counter saved)
  | write (saved : FrameId) :
      Before b counter now (.give (.int (now + 1))) (b.waiting counter saved)

/-- A thread in the block that has written. -/
inductive After : Control → List Pending → Prop
  | written (v : Value) (saved : FrameId) :
      After (.give v) [.dropped, .statements [], .leaveBlock saved]
  | dropped (saved : FrameId) : After (.give .void) [.statements [], .leaveBlock saved]
  | run (saved : FrameId) : After (.give .void) [.leaveBlock saved]
  | left : After (.give .void) []

/-- What a thread in the block can rely on. -/
structure Reads (p : Program) (counter : Name) (now : Int64) (s : Turn) : Prop where
  root : s.env.root = Frames.root
  scope : s.world.frames.scope? Frames.root = some p.attrs.rootScope
  value : s.world.frames.lookup Frames.root counter = some (.int now)

/-- The thread is about to write the sum back, inside of the block. -/
def writes (b : Increment) (t : Thread) : Bool :=
  match t.control, t.stack with
  | .give _, .assignName .. :: rest => rest.any (Pending.isEndOf b.site)
  | _, _ => false

variable {b : Increment} {p : Program} {counter : Name} {now : Int64} {s : Turn}

theorem Reads.frameFor (reads : Reads p counter now s) :
    s.env.frameFor s.world.frames p.attrs.rootScope = some Frames.root := by
  unfold Env.frameFor
  rw [reads.root, if_pos reads.scope]

theorem Of.readName (fits : b.Of p counter) (reads : Reads p counter now s) :
    p.readName s.env s.world.frames b.operand counter = .ok (.int now) := by
  obtain ⟨initializer, declared⟩ := fits.declaration
  have got : s.env.get s.world.frames p.attrs.rootScope counter (p.text counter) =
      .ok (.int now) := by
    simp only [Env.get, reads.frameFor, Option.bind_some, reads.value]
  simp only [Program.readName, fits.denotes, declared, Program.scopeOf, fits.operandScope]
  show Abort.ofFault (s.env.get s.world.frames p.attrs.rootScope counter (p.text counter)) = _
  rw [got]
  rfl

theorem Before.step (fits : b.Of p counter) (reads : Reads p counter now s) (who : ThreadId)
    {above below : List Pending} (inside : below.any (Pending.isEndOf b.site))
    (stack : s.stack = above ++ below) (phase : Before b counter now s.control above) :
    ∃ above', (s.step p who).stack = above' ++ below ∧
      (b.writes s.thread = false ∧ Before b counter now (s.step p who).control above' ∧
          (s.step p who).world.frames.lookup Frames.root counter = some (.int now) ∨
        b.writes s.thread = true ∧ After (s.step p who).control above' ∧
          (s.step p who).world.frames.lookup Frames.root counter = some (.int (now + 1))) := by
  obtain ⟨root, scope, value⟩ := reads
  have frameFor := Reads.frameFor ⟨root, scope, value⟩
  obtain ⟨world, env, control, stack⟩ := s
  subst stack
  cases phase with
  | block =>
    obtain ⟨blockScope, found⟩ := Option.isSome_iff_exists.mp fits.blockScope
    have stepped : Turn.step p who ⟨world, env, .eval b.block, [] ++ below⟩ =
        ⟨{ world with frames := (env.push world.frames blockScope).2 },
          (env.push world.frames blockScope).1, .eval b.statement,
          [.statements [], .leaveBlock env.current] ++ below⟩ := by
      simp only [Turn.step, fits.block, Turn.enter, Program.scopeOf, found, Turn.orFault]
      rfl
    rw [stepped]
    refine ⟨_, rfl, .inl ⟨rfl, .statement env.current, ?_⟩⟩
    exact Frames.lookup_push value _ _ _
  | statement saved =>
    have stepped : ∀ stack, Turn.step p who ⟨world, env, .eval b.statement, stack⟩ =
        ⟨world, env, .eval b.assignment, .dropped :: stack⟩ := by
      intro stack
      simp only [Turn.step, fits.statement, Turn.enter]
      rfl
    rw [stepped]
    exact ⟨_, rfl, .inl ⟨rfl, .assignment saved, value⟩⟩
  | assignment saved =>
    have stepped : ∀ stack, Turn.step p who ⟨world, env, .eval b.assignment, stack⟩ =
        ⟨world, env, .eval b.sum, .assignName b.assignment b.target counter :: stack⟩ := by
      intro stack
      simp only [Turn.step, fits.assignment, fits.target, Turn.enter]
      rfl
    rw [stepped]
    exact ⟨_, rfl, .inl ⟨rfl, .sum saved, value⟩⟩
  | sum saved =>
    have stepped : ∀ stack, Turn.step p who ⟨world, env, .eval b.sum, stack⟩ =
        ⟨world, env, .eval b.operand, .leftOperand b.sum .add b.operand b.one :: stack⟩ := by
      intro stack
      simp only [Turn.step, fits.sum, Turn.enter]
      rfl
    rw [stepped]
    exact ⟨_, rfl, .inl ⟨rfl, .operand saved, value⟩⟩
  | operand saved =>
    have stepped : ∀ stack, Turn.step p who ⟨world, env, .eval b.operand, stack⟩ =
        ⟨world, env, .give (.int now), stack⟩ := by
      intro stack
      simp only [Turn.step, fits.operand, Turn.enter, fits.readName ⟨root, scope, value⟩]
      rfl
    rw [stepped]
    exact ⟨_, rfl, .inl ⟨rfl, .read saved, value⟩⟩
  | read saved => exact ⟨_, rfl, .inl ⟨rfl, .one saved, value⟩⟩
  | one saved =>
    have stepped : ∀ stack, Turn.step p who ⟨world, env, .eval b.one, stack⟩ =
        ⟨world, env, .give (.int 1), stack⟩ := by
      intro stack
      simp only [Turn.step, fits.one, Turn.enter]
      rfl
    rw [stepped]
    exact ⟨_, rfl, .inl ⟨rfl, .add saved, value⟩⟩
  | add saved =>
    have stepped : ∀ stack, Turn.step p who ⟨world, env, .give (.int 1),
          .rightOperand b.sum .add b.operand b.one (.int now) :: stack⟩ =
        ⟨world, env, .give (.int (now + 1)), stack⟩ := by
      intro stack
      simp only [Turn.step, Turn.resume, Arith.binary, fits.operandType, fits.oneType]
      rfl
    rw [List.cons_append, stepped]
    exact ⟨_, rfl, .inl ⟨rfl, .write saved, value⟩⟩
  | write saved =>
    have stepped : ∀ stack, Turn.step p who ⟨world, env, .give (.int (now + 1)),
          .assignName b.assignment b.target counter :: stack⟩ =
        ⟨{ world with frames := world.frames.define Frames.root counter (.int (now + 1)) }, env,
          .give (.int (now + 1)), stack⟩ := by
      intro stack
      have frameFor : env.frameFor world.frames p.attrs.rootScope = some Frames.root := frameFor
      simp only [Turn.step, Turn.resume, fits.targetType, Value.widen, Program.scopeOf,
        fits.targetScope, Turn.orFault, Env.frameToSet, frameFor]
    rw [waiting, List.cons_append, stepped]
    refine ⟨[.dropped, .statements [], .leaveBlock saved], rfl, .inr ⟨?_, .written _ saved, ?_⟩⟩
    · show (_ : List Pending).any (Pending.isEndOf b.site) = true
      rw [List.any_append, inside, Bool.or_true]
    · have there : (world.frames.frame? Frames.root).isSome := by
        obtain ⟨frame, found, -⟩ := Option.map_eq_some_iff.mp scope
        exact Option.isSome_iff_exists.mpr ⟨frame, found⟩
      show (world.frames.define Frames.root counter _).lookup Frames.root counter = _
      rw [Frames.lookup_define, if_pos ⟨rfl, rfl, there⟩]

theorem After.step (p : Program) (who : ThreadId) {lock : LockId} {above rest : List Pending}
    (stack : s.stack = above ++ .leaveSite b.site lock :: rest) (phase : After s.control above) :
    b.writes s.thread = false ∧ (s.step p who).world.frames = s.world.frames ∧
      ((∃ above', (s.step p who).stack = above' ++ .leaveSite b.site lock :: rest ∧
          After (s.step p who).control above') ∨
        (s.step p who).stack = rest ∧ (s.step p who).control = .give .void) := by
  obtain ⟨world, env, control, stack⟩ := s
  subst stack
  cases phase with
  | written v saved => exact ⟨rfl, rfl, .inl ⟨_, rfl, .dropped saved⟩⟩
  | dropped saved => exact ⟨rfl, rfl, .inl ⟨_, rfl, .run saved⟩⟩
  | run saved => exact ⟨rfl, rfl, .inl ⟨[], rfl, .left⟩⟩
  | left => exact ⟨rfl, rfl, .inr ⟨rfl, rfl⟩⟩

/-- No evaluation of the site waits in a stack. -/
def Clear (b : Increment) (stack : List Pending) : Prop := stack.countP (Pending.isEndOf b.site) = 0

/-- Where a thread stands, and what it owes to the variable. -/
inductive Stage (b : Increment) (counter : Name) (now : Int64) (t : Thread) : Nat → Prop
  | away (clear : b.Clear t.stack) (elsewhere : t.control.visits? ≠ some b.site) :
      Stage b counter now t 0
  | visit (clear : b.Clear t.stack)
      (here : t.control = .findSite b.site b.block ∨ t.control = .addSite b.site b.block ∨
        ∃ lock, t.control = .enterSite b.site lock b.block) : Stage b counter now t 1
  | before (lock : LockId) (above rest : List Pending)
      (stack : t.stack = above ++ .leaveSite b.site lock :: rest) (clear : b.Clear rest)
      (phase : Before b counter now t.control above) : Stage b counter now t 1
  | after (lock : LockId) (above rest : List Pending)
      (stack : t.stack = above ++ .leaveSite b.site lock :: rest) (clear : b.Clear rest)
      (phase : After t.control above) : Stage b counter now t 0

theorem Clear.not_any {stack : List Pending} (clear : b.Clear stack) :
    stack.any (Pending.isEndOf b.site) = false := by
  rw [List.any_eq_false]
  exact List.countP_eq_zero.mp clear

/-- A thread that is not inside does not depend on the value. -/
theorem Stage.of_not_inside {t : Thread} {owed : Nat} (stage : Stage b counter now t owed)
    (outside : t.stack.any (Pending.isEndOf b.site) = false) (now' : Int64) :
    Stage b counter now' t owed := by
  cases stage with
  | away clear elsewhere => exact .away clear elsewhere
  | visit clear here => exact .visit clear here
  | before lock above rest stack clear phase =>
    rw [stack, List.any_append, List.any_cons] at outside
    simp [Pending.isEndOf] at outside
  | after lock above rest stack clear phase => exact .after lock above rest stack clear phase

/-- A thread that is nowhere near the block stays so, unless it begins to evaluate it. -/
theorem away_step {ls : Locks} {t : Thread} {who : ThreadId} {w : World} {s' : Turn}
    (clear : b.Clear t.stack) (elsewhere : t.control.visits? ≠ some b.site)
    (fits : t.control.Fits ls) (notYet : t.control ≠ .eval b.site)
    (moves : Turn.Moves p who (t.inside w) s') :
    b.Clear s'.stack ∧ s'.control.visits? ≠ some b.site := by
  have ofMarks : ∀ {stack : List Pending}, marks stack = marks t.stack → b.Clear stack := by
    intro stack same
    unfold Clear at *
    rw [Machine.countP_isEndOf] at *
    rw [same]
    exact clear
  have ofQuiet : ∀ {control : Control}, control.IsQuiet → control.visits? ≠ some b.site := by
    intro control quiet
    rw [quiet.visits?]
    simp
  cases moves with
  | still => exact ⟨clear, elsewhere⟩
  | quiet quiet => exact ⟨ofMarks quiet.marks, ofQuiet quiet.control⟩
  | print output control quiet => exact ⟨clear, ofQuiet quiet⟩
  | visit site block at_ found =>
    refine ⟨clear, fun same => notYet ?_⟩
    obtain rfl : site = b.site := Option.some.inj same
    exact at_
  | hit site block lock at_ found =>
    rw [show t.control = _ from at_] at elsewhere
    exact ⟨clear, elsewhere⟩
  | miss site block at_ =>
    rw [show t.control = _ from at_] at elsewhere
    exact ⟨clear, elsewhere⟩
  | add site block at_ =>
    rw [show t.control = _ from at_] at elsewhere
    exact ⟨clear, elsewhere⟩
  | enter site block lock at_ available =>
    rw [show t.control = _ from at_] at elsewhere
    refine ⟨?_, by simp [Control.visits?]⟩
    have other : site ≠ b.site := fun same => elsewhere (congrArg some same)
    unfold Clear at *
    rw [List.countP_cons, Pending.isEndOf, decide_eq_false other]
    exact clear
  | take lock inside at_ =>
    rw [show t.control = _ from at_] at fits
    exact fits.elim
  | leave waiting stack mark control at_ marked quiet =>
    refine ⟨?_, ofQuiet quiet⟩
    unfold Clear at *
    rw [show t.stack = _ from at_, List.countP_cons] at clear
    exact Nat.eq_zero_of_add_eq_zero_right clear

/-- A thread that visits the site goes on to the block, if it is let in. -/
theorem visit_step (p : Program) (who : ThreadId) (w : World) {t : Thread} (clear : b.Clear t.stack)
    (here : t.control = .findSite b.site b.block ∨ t.control = .addSite b.site b.block ∨
      ∃ lock, t.control = .enterSite b.site lock b.block) :
    Stage b counter now ((t.inside w).step p who).thread 1 := by
  obtain ⟨env, control, stack⟩ := t
  rcases here with rfl | rfl | ⟨lock, rfl⟩
  · simp only [Thread.inside, Turn.step]
    split
    · next lock found => exact .visit clear (.inr (.inr ⟨lock, rfl⟩))
    · exact .visit clear (.inr (.inl rfl))
  · exact .visit clear (.inr (.inr ⟨_, rfl⟩))
  · show Stage b counter now
      (Turn.step p who ⟨w, env, .enterSite b.site lock b.block, stack⟩).thread 1
    simp only [Turn.step]
    split
    · exact .before lock [] stack rfl clear .block
    · exact .visit clear (.inr (.inr ⟨lock, rfl⟩))

theorem writes_of_not_inside {t : Thread}
    (outside : t.stack.any (Pending.isEndOf b.site) = false) : b.writes t = false := by
  obtain ⟨env, control, stack⟩ := t
  unfold writes
  split
  · next at_ =>
    obtain rfl : stack = _ := at_
    exact outside
  · rfl

/-- None of the nodes in the block is the site. -/
theorem Before.not_evaluates (fits : b.Of p counter) {t : Thread} {above : List Pending}
    (phase : Before b counter now t.control above) (who : ThreadId) :
    Sighting.evaluates b.site ⟨who, t⟩ = false := by
  have apart : ∀ {node : NodeId} {kind : NodeKind}, p.kind node = .ok kind →
      kind ≠ .protect b.block → decide (node = b.site) = false := by
    intro node kind found other
    rw [decide_eq_false_iff_not]
    rintro rfl
    rw [fits.site] at found
    exact other (Except.ok.inj found).symm
  unfold Sighting.evaluates
  generalize t.control = control at phase
  cases phase with
  | block => exact apart fits.block (by simp)
  | statement => exact apart fits.statement (by simp)
  | assignment => exact apart fits.assignment (by simp)
  | sum => exact apart fits.sum (by simp)
  | operand => exact apart fits.operand (by simp)
  | one => exact apart fits.one (by simp)
  | read | add | write => rfl

/-- A turn of a thread: it owes one more if it begins to evaluate the block, and one less if it
writes. -/
theorem Stage.turn (fits : b.Of p counter) {t : Thread} {owed : Nat} {w : World} {ls : Locks}
    (stage : Stage b counter now t owed) (reads : Reads p counter now (t.inside w))
    (locks : t.control.Fits ls) (who : ThreadId) :
    ∃ owed', Stage b counter (if b.writes t then now + 1 else now)
        ((t.inside w).step p who).thread owed' ∧
      owed' + (if b.writes t then 1 else 0) =
        owed + (if Sighting.evaluates b.site ⟨who, t⟩ then 1 else 0) ∧
      (t.stack.any (Pending.isEndOf b.site) →
        ((t.inside w).step p who).world.frames.lookup Frames.root counter =
          some (.int (if b.writes t then now + 1 else now))) := by
  cases stage with
  | away clear elsewhere =>
    have outside := clear.not_any
    rw [writes_of_not_inside outside, outside]
    by_cases begins : t.control = .eval b.site
    · refine ⟨1, ?_, ?_, by simp⟩
      · obtain ⟨env, control, stack⟩ := t
        obtain rfl : control = _ := begins
        simp only [Thread.inside, Turn.step, fits.site, Turn.enter]
        exact .visit clear (.inl rfl)
      · simp [Sighting.evaluates, begins]
    · obtain ⟨clear', elsewhere'⟩ := away_step clear elsewhere locks begins
        (Turn.step_moves p who (t.inside w))
      refine ⟨0, .away clear' elsewhere', ?_, by simp⟩
      have not : Sighting.evaluates b.site ⟨who, t⟩ = false := by
        unfold Sighting.evaluates
        split
        · next node at_ =>
          rw [decide_eq_false_iff_not]
          rintro rfl
          exact begins at_
        · rfl
      rw [not]
  | visit clear here =>
    have outside := clear.not_any
    rw [writes_of_not_inside outside, outside]
    refine ⟨1, visit_step p who w clear here, ?_, by simp⟩
    rcases here with at_ | at_ | ⟨lock, at_⟩ <;> simp [Sighting.evaluates, at_]
  | before lock above rest stack clear phase =>
    have inside : (Pending.leaveSite b.site lock :: rest).any (Pending.isEndOf b.site) := by
      simp [Pending.isEndOf]
    have notYet := phase.not_evaluates fits who
    obtain ⟨above', stack', ⟨silent, phase', value⟩ | ⟨writes, phase', value⟩⟩ :=
      phase.step fits reads who inside stack
    · rw [show b.writes t = false from silent, notYet]
      exact ⟨1, .before lock above' rest stack' clear phase', rfl, fun _ => value⟩
    · rw [show b.writes t = true from writes, notYet]
      exact ⟨0, .after lock above' rest stack' clear phase', rfl, fun _ => value⟩
  | after lock above rest stack clear phase =>
    have notYet : Sighting.evaluates b.site ⟨who, t⟩ = false := by
      unfold Sighting.evaluates
      cases at_ : t.control with
      | eval node =>
        rw [at_] at phase
        cases phase
      | _ => rfl
    obtain ⟨silent, frames, inside | ⟨stack', control'⟩⟩ :=
      After.step p who (s := t.inside w) stack phase
    · obtain ⟨above', stack', phase'⟩ := inside
      rw [show b.writes t = false from silent, notYet, frames]
      exact ⟨0, .after lock above' rest stack' clear phase', rfl, fun _ => reads.value⟩
    · rw [show b.writes t = false from silent, notYet, frames]
      refine ⟨0, .away ?_ ?_, rfl, fun _ => reads.value⟩
      · show b.Clear ((t.inside w).step p who).stack
        rw [stack']
        exact clear
      · show ((t.inside w).step p who).control.visits? ≠ some b.site
        rw [control']
        simp [Control.visits?]

/-- A thread that launches tasks is nowhere near the block. -/
theorem Stage.of_submits {t : Thread} {owed : Nat} (stage : Stage b counter now t owed)
    {jobs : List Control} (submits : t.control = .submit jobs) (others : List Control) :
    Stage b counter now { t with control := .submit others } owed := by
  cases stage with
  | away clear elsewhere => exact .away clear (by simp [Control.visits?])
  | visit clear here =>
    rw [submits] at here
    rcases here with same | same | ⟨lock, same⟩ <;> cases same
  | before lock above below stack clear phase | after lock above below stack clear phase =>
    rw [submits] at phase
    cases phase

/-- A thread that is over owes nothing. -/
theorem Stage.eq_zero_of_outcome {t : Thread} {owed : Nat} (stage : Stage b counter now t owed)
    {outcome : Outcome} (ended : t.outcome? = some outcome) : owed = 0 := by
  obtain ⟨empty, control⟩ := Thread.outcome?_eq_some ended
  cases stage with
  | away clear elsewhere => rfl
  | visit clear here =>
    rcases control with ⟨v, give, -⟩ | ⟨e, leave, -⟩
    · rw [give] at here
      rcases here with at_ | at_ | ⟨lock, at_⟩ <;> cases at_
    · rw [leave] at here
      rcases here with at_ | at_ | ⟨lock, at_⟩ <;> cases at_
  | before lock above below stack clear phase =>
    rw [empty] at stack
    exact absurd stack.symm (by simp)
  | after lock above below stack clear phase => rfl

end Increment

/-! ## 4. All threads together -/

/-- What a thread, or one that is gone, owes to the variable. -/
def Stands (b : Increment) (counter : Name) (now : Int64) (t? : Option Thread) (owed : Nat) : Prop :=
  match t? with
  | some t => b.Stage counter now t owed
  | none => owed = 0

/-- The variable has grown by the number of writes, and no thread has begun more or less often than it
has written and owes. -/
structure Tally (b : Increment) (counter : Name) (start : Int64) (value : Option Value)
    (threads : ThreadId → Option Thread) (history : List Sighting) (now : Int64) : Prop where
  grown : now = start + Int64.ofNat (history.countP fun seen => b.writes seen.thread)
  value : value = some (.int now)
  threads : ∀ who, ∃ owed, Stands b counter now (threads who) owed ∧
    times (Sighting.evaluates b.site) history who =
      times (fun seen => b.writes seen.thread) history who + owed

namespace Tally

variable {p : Program} {b : Increment} {counter : Name} {start now : Int64} {value : Option Value}
  {threads : ThreadId → Option Thread} {history : List Sighting} {who : ThreadId}

/-- A thread moves that neither begins nor writes, and owes what it owed before. -/
theorem put (h : Tally b counter start value threads history now) (t? : Option Thread)
    (keeps : ∀ owed, Stands b counter now (threads who) owed → Stands b counter now t? owed)
    (seen : List Sighting)
    (silent : ∀ s ∈ seen, Sighting.evaluates b.site s = false ∧ b.writes s.thread = false) :
    Tally b counter start value (Function.update threads who t?) (seen ++ history) now := by
  have nothing : ∀ does : Sighting → Bool, (∀ s ∈ seen, does s = false) → ∀ who,
      times does (seen ++ history) who = times does history who := by
    intro does silent who
    unfold times
    rw [List.countP_append, List.countP_eq_zero.mpr, Nat.zero_add]
    intro s member
    rw [silent s member, Bool.and_false]
    simp
  refine ⟨?_, h.value, fun other => ?_⟩
  · have unwritten : seen.countP (fun seen => b.writes seen.thread) = 0 := by
      refine List.countP_eq_zero.mpr fun s member => ?_
      rw [(silent s member).2]
      simp
    rw [h.grown, List.countP_append, unwritten, Nat.zero_add]
  · obtain ⟨owed, stands, balance⟩ := h.threads other
    refine ⟨owed, ?_, ?_⟩
    · rw [Function.update_apply]
      split
      · next same =>
        subst same
        exact keeps owed stands
      · exact stands
    · rw [nothing _ fun s member => (silent s member).1, nothing _ fun s member => (silent s member).2]
      exact balance

theorem times_cons (does : Sighting → Bool) (seen : Sighting) (history : List Sighting)
    (who : ThreadId) : times does (seen :: history) who =
      times does history who + if seen.who = who ∧ does seen then 1 else 0 := by
  unfold times
  rw [List.countP_cons]
  simp

/-- A thread takes a turn. Its own stage is the evaluator's affair; the others are not inside if it
writes. -/
theorem turn (fits : b.Of p counter) {ls : Locks} (h : Tally b counter start value threads history now)
    (guarded : Guarded ls threads) {t : Thread} (found : threads who = some t) {w : World}
    (reads : Increment.Reads p counter now (t.inside w)) {value' : Option Value}
    (after : value' = ((t.inside w).step p who).world.frames.lookup Frames.root counter)
    (unchanged : t.stack.any (Pending.isEndOf b.site) = false → value' = value) :
    ∃ now', Tally b counter start value'
      (Function.update threads who (some ((t.inside w).step p who).thread)) (⟨who, t⟩ :: history)
      now' := by
  obtain ⟨owed, stands, balance⟩ := h.threads who
  rw [found] at stands
  obtain ⟨owed', stage', balance', inside⟩ :=
    Increment.Stage.turn fits stands reads (guarded.fits who t found).control who
  refine ⟨if b.writes t then now + 1 else now, ?_, ?_, fun other => ?_⟩
  · rw [List.countP_cons]
    split
    · rw [h.grown, Int64.ofNat_add, Int64.add_assoc]
      rfl
    · exact h.grown
  · cases isInside : t.stack.any (Pending.isEndOf b.site) with
    | true => rw [after, inside isInside]
    | false =>
      rw [unchanged isInside, Increment.writes_of_not_inside isInside, h.value]
      simp
  · by_cases same : other = who
    · subst same
      refine ⟨owed', ?_, ?_⟩
      · rw [Function.update_self]
        exact stage'
      · rw [times_cons, times_cons]
        simp only [true_and]
        omega
    · obtain ⟨owing, standing, balanced⟩ := h.threads other
      refine ⟨owing, ?_, ?_⟩
      · rw [Function.update_of_ne same]
        cases writing : b.writes t with
        | false => exact standing
        | true =>
          -- whoever writes is inside, and so nobody else is
          cases there : threads other with
          | none =>
            rw [there] at standing
            exact standing
          | some u =>
            rw [there] at standing
            refine Increment.Stage.of_not_inside standing ?_ _
            by_contra also
            rw [Bool.not_eq_false] at also
            have inside : t.stack.any (Pending.isEndOf b.site) := by
              by_contra outside
              rw [Bool.not_eq_true] at outside
              rw [Increment.writes_of_not_inside outside] at writing
              cases writing
            exact same (guarded.alone there found also inside)
      · rw [times_cons, times_cons, if_neg (fun both => same both.1.symm),
          if_neg (fun both => same both.1.symm)]
        exact balanced

end Tally

/-! ## 5. The tally of a run -/

namespace Run

variable {p : Program} {c : RunConfig} {b : Increment} {counter : Name} {start : Int64}

/-- The tally of a machine after what was seen. -/
def Tallied (b : Increment) (counter : Name) (start : Int64) (m : Machine)
    (history : List Sighting) : Prop :=
  ∃ now, Tally b counter start (m.world.frames.lookup Frames.root counter) m.thread? history now

theorem away_eval (b : Increment) (counter : Name) (now : Int64) (env : Env) (node : NodeId) :
    b.Stage counter now (.start env (.eval node)) 0 :=
  .away rfl (by simp [Thread.start, Control.visits?])

theorem tallied_next {m m' : Machine} {seen : Option Sighting} {history : List Sighting}
    (fits : b.Of p counter) (guarded : m.Guarded) (rooted : m.Rooted p)
    (h : Tallied b counter start m history) (next : Machine.Next p m seen m')
    (only : m'.world.frames.lookup Frames.root counter = m.world.frames.lookup Frames.root counter ∨
      seen.any (Sighting.isInside b.site)) :
    Tallied b counter start m' (seen.toList ++ history) := by
  obtain ⟨now, tally⟩ := h
  cases next with
  | idle => exact ⟨now, tally⟩
  | turn who t found silent going =>
    have reads : Increment.Reads p counter now (t.inside m.world) :=
      ⟨rooted.threads who t found, rooted.scope, tally.value⟩
    unfold Tallied
    rw [Machine.thread?_afterTurn found]
    refine tally.turn fits guarded.threads found reads rfl fun outside => ?_
    rcases only with same | inside
    · exact same
    · rw [Option.any_some, Sighting.isInside, outside] at inside
      cases inside
  | launch who t rest job found launches =>
    refine ⟨now, ?_⟩
    rw [Machine.thread?_submit, Machine.thread?_setThread found]
    obtain ⟨jobs, at_, rfl⟩ := Machine.launch?_eq_some launches
    show Tally b counter start ((m.setThread who _).world.frames.lookup Frames.root counter) _ _ _
    rw [Machine.world_setThread]
    refine tally.put _ (fun owed stands => ?_) [_] fun s member => ?_
    · rw [found] at stands
      exact stands.of_submits at_ jobs
    · obtain rfl : s = _ := by simpa using member
      simp only [Sighting.evaluates, Increment.writes, at_, and_self]
  | start id env job found =>
    obtain ⟨node, rfl⟩ := guarded.jobs id env job found
    refine ⟨now, ?_⟩
    rw [Machine.thread?_setTask found]
    refine tally.put _ (fun owed stands => ?_) [] fun s member => by cases member
    rw [Machine.thread?_of_found found] at stands
    obtain rfl : owed = 0 := stands
    exact away_eval b counter now env node
  | finished id t outcome found ended =>
    obtain ⟨task, at_⟩ := Machine.thread?_task found
    obtain ⟨empty, control⟩ := Thread.outcome?_eq_some ended
    refine ⟨now, ?_⟩
    rw [Machine.thread?_setTask at_, Machine.thread?_ofOutcome]
    refine tally.put _ (fun owed stands => ?_) [_] fun s member => ?_
    · rw [found] at stands
      exact stands.eq_zero_of_outcome ended
    · obtain rfl : s = _ := by simpa using member
      obtain ⟨env, now, stack⟩ := t
      obtain rfl : stack = [] := empty
      rcases control with ⟨v, rfl, -⟩ | ⟨e, rfl, -⟩ <;> exact ⟨rfl, rfl⟩
  | record id f found =>
    refine ⟨now, ?_⟩
    show Tally b counter start _ (m.setTask id .ending).thread? _ _
    rw [Machine.thread?_setTask found]
    refine tally.put none (fun owed stands => ?_) [] fun s member => by cases member
    rw [Machine.thread?_of_found found] at stands
    exact stands
  | release id found =>
    refine ⟨now, ?_⟩
    show Tally b counter start _ (m.setTask id .ended).thread? _ _
    rw [Machine.thread?_setTask found]
    refine tally.put none (fun owed stands => ?_) [] fun s member => by cases member
    rw [Machine.thread?_of_found found] at stands
    exact stands

theorem counter?_eq_some {r : Run} (rooted : r.machine.Rooted p) {n : Int64} :
    r.counter? counter = some n ↔
      r.machine.world.frames.lookup Frames.root counter = some (.int n) := by
  unfold counter?
  rw [rooted.threads .main r.machine.main rfl]
  constructor
  · intro holds
    obtain ⟨v, found, isInt⟩ := Option.bind_eq_some_iff.mp holds
    cases v <;> cases isInt
    exact found
  · intro found
    rw [found]
    rfl

theorem tallied_move {r r' : Run} (fits : b.Of p counter) (guarded : r.machine.Guarded)
    (rooted : r.machine.Rooted p) (h : Tallied b counter start r.machine r.history)
    (next : Next p c r r')
    (only : r'.counter? counter = r.counter? counter ∨
      ∃ seen, r'.history = seen :: r.history ∧ seen.isInside b.site) :
    Tallied b counter start r'.machine r'.history := by
  cases next with
  | same | look | giveUp | close | report => exact h
  | step seen machine next here =>
    refine tallied_next fits guarded rooted h next ?_
    rcases only with same | ⟨s, cons, inside⟩
    · obtain ⟨now, tally⟩ := h
      have holds : r.counter? counter = some now := (counter?_eq_some rooted).mpr tally.value
      rw [holds] at same
      rw [tally.value]
      exact .inl ((counter?_eq_some (next.rooted rooted)).mp same)
    · right
      cases seen with
      | none => exact absurd cons.symm (List.cons_ne_self s r.history)
      | some seen =>
        obtain rfl : seen = s := (List.cons.inj cons).1
        exact inside

theorem tallied_play {r : Run} (fits : b.Of p counter) (numbered : r.machine.Numbered)
    (guarded : r.machine.Guarded ∧ r.EntriesFit) (rooted : r.machine.Rooted p)
    (h : Tallied b counter start r.machine r.history) (moves : List Move)
    (only : OnlyInside p c b.site counter r moves) :
    (r.play p c moves).machine.Rooted p ∧
      Tallied b counter start (r.play p c moves).machine (r.play p c moves).history := by
  induction moves generalizing r with
  | nil => exact ⟨rooted, h⟩
  | cons first rest ih =>
    have next := next_move p c numbered first
    obtain ⟨here, later⟩ := only
    refine ih (next.numbered numbered) (guarded_next guarded next) (next.rooted rooted) ?_ later
    refine tallied_move fits guarded.1 rooted h next ?_
    rcases here with same | inside
    · exact .inl same
    · obtain ⟨seen, moved, inside⟩ := (Option.any_eq_true _ _).mp inside
      refine .inr ⟨seen, ?_, inside⟩
      rw [history_move, moved]
      rfl

/-- Nobody is near the block, and nobody has been. -/
structure Untouched (b : Increment) (r : Run) : Prop where
  threads : ∀ who t, r.machine.thread? who = some t →
    b.Clear t.stack ∧ t.control.visits? ≠ some b.site
  history : ∀ seen ∈ r.history, b.writes seen.thread = false

/-- As long as nobody begins to evaluate the block, nobody is near it. -/
theorem untouched_next {r r' : Run} (guarded : r.machine.Guarded) (h : Untouched b r)
    (next : Next p c r r') (notYet : ∀ seen ∈ r'.history, seen.evaluates b.site = false) :
    Untouched b r' := by
  obtain ⟨threads, history⟩ := h
  cases next with
  | same | look | giveUp | close | report => exact ⟨threads, history⟩
  | step seen machine next here =>
    refine ⟨next.forall_threads threads ?_ ?_ ?_, fun s member => ?_⟩
    · intro who t found moved _
      obtain ⟨clear, elsewhere⟩ := threads who t found
      refine Increment.away_step clear elsewhere (guarded.threads.fits who t found).control ?_
        (Turn.step_moves p who (t.inside r.machine.world))
      intro begins
      have := notYet ⟨who, t⟩ (by rw [moved]; exact List.mem_cons_self)
      simp [Sighting.evaluates, begins] at this
    · intro who t rest job found launches
      obtain ⟨jobs, -, rfl⟩ := Machine.launch?_eq_some launches
      exact ⟨(threads who t found).1, by simp [Control.visits?]⟩
    · intro id env job waits
      obtain ⟨node, rfl⟩ := guarded.jobs id env job waits
      exact ⟨rfl, by simp [Thread.start, Control.visits?]⟩
    · rcases List.mem_append.mp member with now | before
      · obtain rfl : seen = some s := by simpa using now
        exact Increment.writes_of_not_inside (threads _ _ next.seen).1.not_any
      · exact history s before

theorem untouched_play (b : Increment) (moves : List Move)
    (notYet : ∀ seen ∈ ((initial p c).play p c moves).history, seen.evaluates b.site = false) :
    Untouched b ((initial p c).play p c moves) := by
  let quiet (r : Run) : Prop := ∀ seen ∈ r.history, seen.evaluates b.site = false
  refine (holds_play (fun r => (r.machine.Guarded ∧ r.EntriesFit) ∧ (quiet r → Untouched b r))
    ⟨⟨guarded_initial p c, fun seen member => by cases member⟩, fun _ => ⟨?_, ?_⟩⟩ ?_ moves).2 notYet
  · intro who t found
    obtain ⟨frames, -, begun⟩ := machine_initial p c
    rw [begun] at found
    cases who <;> cases found
    exact ⟨rfl, by simp [Control.visits?]⟩
  · intro seen member
    cases member
  · intro r r' _ h next
    refine ⟨guarded_next h.1 next, fun notYet => ?_⟩
    refine untouched_next h.1.1 (h.2 fun seen member => notYet seen ?_) next notYet
    cases next with
    | same | look | giveUp | close | report => exact member
    | step => exact List.mem_append_right _ member

/-- Before anybody begins, the tally is even. -/
theorem Untouched.tallied {r : Run} (h : Untouched b r)
    (notYet : ∀ seen ∈ r.history, seen.evaluates b.site = false)
    (holds : r.machine.world.frames.lookup Frames.root counter = some (.int start)) :
    Tallied b counter start r.machine r.history := by
  have never : ∀ does : Sighting → Bool, (∀ seen ∈ r.history, does seen = false) → ∀ who,
      times does r.history who = 0 := by
    intro does silent who
    refine List.countP_eq_zero.mpr fun seen member => ?_
    rw [silent seen member, Bool.and_false]
    simp
  refine ⟨start, ?_, holds, fun who => ⟨0, ?_, ?_⟩⟩
  · have unwritten : r.history.countP (fun seen => b.writes seen.thread) = 0 := by
      refine List.countP_eq_zero.mpr fun seen member => ?_
      rw [h.history seen member]
      simp
    rw [unwritten]
    simp
  · cases found : r.machine.thread? who with
    | none => rfl
    | some t => exact .away (h.threads who t found).1 (h.threads who t found).2
  · rw [never _ notYet, never _ h.history]

/-! ## 6. The sum -/

/-- The threads that were seen to do something, each as often as it was. -/
theorem count_who (does : Sighting → Bool) (history : List Sighting) (who : ThreadId) :
    ((history.filter does).map Sighting.who).count who = times does history who := by
  rw [List.count, List.countP_map, List.countP_filter]
  refine List.countP_congr fun seen _ => ?_
  simp

/-- If every thread did one thing as often as another, so did all of them together. -/
theorem countP_of_times {does did : Sighting → Bool} {history : List Sighting}
    (same : ∀ who, times does history who = times did history who) :
    history.countP does = history.countP did := by
  have perm : ((history.filter does).map Sighting.who).Perm
      ((history.filter did).map Sighting.who) := by
    rw [List.perm_iff_count]
    intro who
    rw [count_who, count_who, same]
  have := perm.length_eq
  simpa [List.countP_eq_length_filter] using this

/-- If some tasks did something equally often, and nobody else did it, it was done that often by each
of them. -/
theorem countP_of_workers {does : Sighting → Bool} {history : List Sighting} {tasks : Finset TaskId}
    {each : Nat} (workers : ∀ id ∈ tasks, times does history (.task id) = each)
    (others : ∀ who, (∀ id ∈ tasks, who ≠ .task id) → times does history who = 0) :
    history.countP does = tasks.card * each := by
  have injective : Function.Injective ThreadId.task := fun one two same => by cases same; rfl
  have within : ∀ who ∈ ((history.filter does).map Sighting.who : Multiset ThreadId),
      who ∈ tasks.map ⟨ThreadId.task, injective⟩ := by
    intro who member
    by_contra outside
    have never : times does history who = 0 := by
      refine others who fun id inside same => outside ?_
      rw [same]
      exact Finset.mem_map_of_mem ⟨ThreadId.task, injective⟩ inside
    rw [← count_who] at never
    exact List.count_eq_zero.mp never (by simpa using member)
  have total := Multiset.sum_count_eq_card within
  rw [Finset.sum_map] at total
  have each_ : ∀ id ∈ tasks, Multiset.count (ThreadId.task id)
      ((history.filter does).map Sighting.who : Multiset ThreadId) = each := by
    intro id member
    rw [Multiset.coe_count, count_who]
    exact workers id member
  rw [Multiset.coe_card, List.length_map, ← List.countP_eq_length_filter] at total
  rw [← total]
  exact (Finset.sum_congr rfl each_).trans (by simp)

/-- A variable that is incremented under a lock, and changed nowhere else, loses no increment and counts
none twice. Let it hold an integer before anybody has begun to evaluate the protected block, and let
every task of some set evaluate the block equally often from then on, and nobody else. In whatever
order the threads take their steps, a drain that finds every task ended finds all of it added up,
modulo 2^64. -/
theorem increments_add_up (fits : b.Of p counter) (before after : List Move) (tasks : Finset TaskId)
    (each : Nat)
    (begins : ((initial p c).play p c before).counter? counter = some start)
    (unvisited : ∀ seen ∈ ((initial p c).play p c before).history, seen.evaluates b.site = false)
    (only : OnlyInside p c b.site counter ((initial p c).play p c before) after)
    (workers : ∀ id ∈ tasks,
      ((initial p c).play p c (before ++ after)).evaluations b.site (.task id) = each)
    (others : ∀ who, (∀ id ∈ tasks, who ≠ .task id) →
      ((initial p c).play p c (before ++ after)).evaluations b.site who = 0)
    (drained : ((initial p c).play p c (before ++ after)).phase.status? = some .complete) :
    ((initial p c).play p c (before ++ after)).counter? counter =
      some (start + Int64.ofNat (tasks.card * each)) := by
  have accounts := accounts_play p c (before ++ after)
  rw [play_append] at *
  generalize reached : (initial p c).play p c before = r at *
  obtain ⟨numbered, rooted⟩ : r.machine.Numbered ∧ r.machine.Rooted p := by
    rw [← reached]
    exact play_induction (numbered_initial p c) (rooted_initial p c)
      (fun _ _ _ h next => next.rooted h) before
  have guarded : r.machine.Guarded ∧ r.EntriesFit := reached ▸ guarded_play p c before
  have untouched : Untouched b r := reached ▸ untouched_play b before (reached ▸ unvisited)
  obtain ⟨rooted', now, tally⟩ := tallied_play fits numbered guarded rooted
    (untouched.tallied unvisited ((counter?_eq_some rooted).mp begins)) after only
  rw [(counter?_eq_some rooted').mpr tally.value, tally.grown]
  generalize r.play p c after = r' at *
  have settled : ∀ who, times (Sighting.evaluates b.site) r'.history who =
      times (fun seen => b.writes seen.thread) r'.history who := by
    intro who
    obtain ⟨owed, stands, balance⟩ := tally.threads who
    cases who with
    | main =>
      have never : times (Sighting.evaluates b.site) r'.history .main = 0 :=
        others .main fun id _ same => by cases same
      omega
    | task id =>
      have gone : r'.machine.thread? (.task id) = none := by
        by_contra there
        obtain ⟨t, found⟩ := Option.ne_none_iff_exists'.mp there
        obtain ⟨task, at_⟩ := Machine.thread?_task found
        have ended := accounts.balanced.ended (accounts.complete drained) _
          (Array.mem_toList_iff.mpr (Array.mem_of_getElem? at_))
        cases ended
      rw [gone] at stands
      obtain rfl : owed = 0 := stands
      exact balance
  rw [← countP_of_times settled, countP_of_workers workers others]

/-! ### Two tasks that add twice -/

/-- Two tasks, each of which calls a function with the protected block twice. -/
def adders : Script :=
  [.var "counter" (.plain .int) (.int 5),
    .function "bump" [] (.plain .void)
      [.protect [.set "counter" (.binary .add (.reference "counter") (.int 1))]],
    .function "twice" [] (.plain .void)
      [.expression (.call "bump" []), .expression (.call "bump" [])],
    .launch "twice" [],
    .launch "twice" []]

def addersProgram : Program := adders.program.toOption.getD default

def addersBlock : Increment := ⟨⟨10⟩, ⟨9⟩, ⟨8⟩, ⟨7⟩, ⟨6⟩, ⟨5⟩, ⟨3⟩, ⟨4⟩, ⟨1⟩⟩

/-- The main program runs to its end. -/
def addersMain : List Move := List.replicate 17 .main

/-- The tasks take their steps in turn, so each comes between the other's read and write. -/
def addersTasks : List Move :=
  [.start 0, .start 1] ++ (List.replicate 77 [Move.task 0, .task 1]).flatten ++ [.look]

def addersEnd : Run :=
  (initial addersProgram default).play addersProgram default (addersMain ++ addersTasks)

theorem adders_arena : addersProgram.arena.nodes =
    (([.intLiteral 5, .varDecl ⟨12⟩ ⟨0⟩, .funDecl ⟨13⟩ [] ⟨11⟩, .reference ⟨12⟩, .intLiteral 1,
      .binary .add ⟨3⟩ ⟨4⟩, .reference ⟨12⟩, .assignment ⟨6⟩ ⟨5⟩, .expression ⟨7⟩, .block [⟨8⟩],
      .protect ⟨9⟩, .block [⟨10⟩], .funDecl ⟨14⟩ [] ⟨19⟩, .reference ⟨13⟩, .call ⟨13⟩ [],
      .expression ⟨14⟩, .reference ⟨13⟩, .call ⟨16⟩ [], .expression ⟨17⟩, .block [⟨15⟩, ⟨18⟩],
      .reference ⟨14⟩, .call ⟨20⟩ [], .launch ⟨21⟩, .reference ⟨14⟩, .call ⟨23⟩ [], .launch ⟨24⟩,
      .root [⟨1⟩, ⟨2⟩, ⟨12⟩, ⟨22⟩, ⟨25⟩]] : List NodeKind).map fun kind => ⟨kind, .dummy⟩).toArray := by
  cbv

theorem addersBlock_of : addersBlock.Of addersProgram ⟨12⟩ := by
  have kind : ∀ {node : NodeId} {kind : NodeKind},
      (addersProgram.arena.nodes[node.index]?).map Node.kind = some kind →
        addersProgram.kind node = .ok kind := by
    intro node kind found
    unfold Program.kind Arena.kind? Arena.node?
    rw [found]
  rw [adders_arena] at kind
  exact ⟨kind rfl, kind rfl, kind rfl, kind rfl, kind rfl, kind rfl, kind rfl, kind rfl,
    ⟨⟨0⟩, kind rfl⟩, by decide +kernel, by decide +kernel, by decide +kernel, by decide +kernel,
    by decide +kernel, by decide +kernel, by decide +kernel⟩

theorem adders_others (who : ThreadId)
    (other : ∀ id ∈ ({⟨0⟩, ⟨1⟩} : Finset TaskId), who ≠ .task id) :
    addersEnd.evaluations addersBlock.site who = 0 := by
  have seen : ∀ seen ∈ addersEnd.history, seen.evaluates addersBlock.site →
      seen.who = .task ⟨0⟩ ∨ seen.who = .task ⟨1⟩ := by
    decide +kernel
  refine List.countP_eq_zero.mpr fun s member both => ?_
  obtain ⟨same, evaluates⟩ : s.who = who ∧ s.evaluates addersBlock.site := by simpa using both
  rcases seen s member evaluates with first | second
  · exact other ⟨0⟩ (by simp) (same.symm.trans first)
  · exact other ⟨1⟩ (by simp) (same.symm.trans second)

theorem adders_add_up : addersEnd.counter? ⟨12⟩ = some 9 := by
  have begins : ((initial addersProgram default).play addersProgram default addersMain).counter? ⟨12⟩ =
      some 5 := by decide +kernel
  have unvisited : ∀ seen ∈ ((initial addersProgram default).play addersProgram default
      addersMain).history, seen.evaluates addersBlock.site = false := by decide +kernel
  have only : OnlyInside addersProgram default addersBlock.site ⟨12⟩
      ((initial addersProgram default).play addersProgram default addersMain) addersTasks := by
    decide +kernel
  have workers : ∀ id ∈ ({⟨0⟩, ⟨1⟩} : Finset TaskId),
      addersEnd.evaluations addersBlock.site (.task id) = 2 := by decide +kernel
  have drained : addersEnd.phase.status? = some .complete := by decide +kernel
  have sum := increments_add_up addersBlock_of addersMain addersTasks {⟨0⟩, ⟨1⟩} 2 begins unvisited
    only workers adders_others drained
  rw [show (9 : Int64) = 5 + Int64.ofNat (({⟨0⟩, ⟨1⟩} : Finset TaskId).card * 2) by decide +kernel]
  exact sum

end Run

end Strand
