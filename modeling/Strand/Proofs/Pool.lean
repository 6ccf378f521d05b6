import Strand.Proofs.Interleaving

/-!
# A pool plays

The pool is one way to choose the order of steps. Whatever every single step of a machine keeps, a
pool keeps over any number of rounds, and a session that evaluates a program to its end is a run in
the sense of `Run.play`: `run_is_played`.
-/

set_option autoImplicit false

namespace Strand

/-! ## 1. What a pool keeps -/

/-- A property of machines that no step ends, and no worker that starts a task. -/
structure Machine.Kept (p : Program) (holds : Machine → Prop) : Prop where
  main : ∀ m, holds m → holds (m.stepMain p)
  start : ∀ m i, holds m → holds (m.startTask i)
  task : ∀ m i, holds m → holds (m.stepTask p i)

/-- What is kept by everything that a step of a machine can do. -/
theorem Machine.kept_of_next {p : Program} {holds : Machine → Prop}
    (next : ∀ m m' seen, holds m → Machine.Next p m seen m' → holds m') :
    Machine.Kept p fun m => m.Numbered ∧ holds m := by
  have step : ∀ {m m' seen}, m.Numbered ∧ holds m → Machine.Next p m seen m' →
      m'.Numbered ∧ holds m' :=
    fun h moved => ⟨moved.numbered h.1, next _ _ _ h.2 moved⟩
  refine ⟨?_, ?_, ?_⟩
  · intro m h
    exact step h (Machine.next_stepMain p m)
  · intro m i h
    exact step h (Machine.next_startTask h.1 i)
  · intro m i h
    exact step h (Machine.next_stepTask p h.1 i)

namespace Pool

variable {p : Program} {holds : Machine → Prop}

theorem mainTurn_keeps (kept : Machine.Kept p holds) (stretches steps : Nat) (m : Machine)
    (start : holds m) : holds (mainTurn p stretches steps m).2 := by
  induction stretches generalizing steps m with
  | zero => exact start
  | succ stretches ih =>
    have moved := Machine.runMain_keeps holds kept.main steps m start
    simp only [mainTurn]
    split
    · next m' same => rwa [same] at moved
    · next left m' same =>
      rw [same] at moved
      split
      · exact ih _ _ (kept.main _ moved)
      · exact moved

theorem taskTurn_keeps (kept : Machine.Kept p holds) (i stretches steps : Nat) (m : Machine)
    (start : holds m) : holds (taskTurn p i stretches steps m).2 := by
  induction stretches generalizing steps m with
  | zero => exact start
  | succ stretches ih =>
    have moved := Machine.runTask_keeps (i := i) holds (fun m => kept.task m i) steps m start
    simp only [taskTurn]
    split
    · next m' same => rwa [same] at moved
    · next left m' same =>
      rw [same] at moved
      split
      · exact ih _ _ (kept.task _ i moved)
      · exact moved

theorem turnOfTasks_keeps (kept : Machine.Kept p holds) (active : List Nat) (time : Nat)
    (pool : Pool) (start : holds pool.machine) :
    holds (turnOfTasks p active time pool).2.machine := by
  induction active generalizing time pool with
  | nil => exact start
  | cons i rest ih => exact ih _ _ (taskTurn_keeps kept i turnLength turnLength _ start)

theorem startTasks_keeps (kept : Machine.Kept p holds) (free started : Nat) (pool : Pool)
    (start : holds pool.machine) : holds (startTasks free started pool).2.machine := by
  induction free generalizing started pool with
  | zero => exact start
  | succ free ih =>
    simp only [startTasks]
    split
    · exact start
    · next i queue behind next => exact ih _ _ (kept.start _ i start)

theorem round_keeps (kept : Machine.Kept p holds) (workers : Nat) (pool : Pool)
    (start : holds pool.machine) : holds (round p workers pool).2.machine :=
  turnOfTasks_keeps kept _ _ _
    (startTasks_keeps kept _ _ _ (mainTurn_keeps kept turnLength turnLength _ start))

theorem runUntil_keeps (kept : Machine.Kept p holds) (workers : Nat) (goal : Pool → Bool)
    (rounds : Nat) (pool : Pool) (start : holds pool.machine) :
    holds (runUntil p workers goal rounds pool).machine := by
  induction rounds generalizing pool with
  | zero => exact start
  | succ rounds ih =>
    have moved := round_keeps kept workers pool start
    simp only [runUntil]
    split
    · exact start
    · split
      · exact moved
      · exact ih _ moved

end Pool

/-- What a pool keeps, the evaluation of a session keeps. -/
theorem Session.perform_keeps (s : Session) {holds : Machine → Prop}
    (kept : Machine.Kept s.program holds) (control : Control) (stack : List Pending)
    (start : holds (s.setMain control stack).pool.machine) :
    holds (s.perform control stack).2.pool.machine :=
  Pool.runUntil_keeps kept s.config.workers mainIsOver patience (s.setMain control stack).pool start

/-- Which constants are bound depends on the names alone. -/
theorem Session.pool_bindConstants_congr {s s' : Session} (pool : s.pool = s'.pool)
    (names : s.program.interner = s'.program.interner) :
    s.bindConstants.pool = s'.bindConstants.pool := by
  unfold Session.bindConstants
  generalize [("true", Value.bool true), ("false", .bool false), ("null", .null)] = constants
  induction constants generalizing s s' with
  | nil => exact pool
  | cons constant constants ih =>
    obtain ⟨text, v⟩ := constant
    simp only [List.foldl_cons, names]
    cases s'.program.interner.find? text with
    | none => exact ih pool names
    | some name =>
      refine ih ?_ names
      simp only [Session.define, Session.mapWorld, Session.env, pool]

/-! ## 2. A session is a run -/

theorem Thread.isSome_of_isDone {t : Thread} (done : t.isDone = true) : t.outcome?.isSome := by
  unfold isDone at done
  cases ended : t.outcome? with
  | none => simp only [ended, Bool.false_eq_true] at done
  | some o => rfl

namespace Run

/-- Moves lead from a run to a machine whose host is still evaluating. -/
def Reaches (p : Program) (c : RunConfig) (r : Run) (m : Machine) : Prop :=
  ∃ moves, (r.play p c moves).machine = m ∧ (r.play p c moves).phase = .evaluating

variable {p : Program} {c : RunConfig} {r : Run}

theorem Reaches.next {m : Machine} (reaches : Reaches p c r m) (last : Move) (m' : Machine)
    (moved : ∀ r' : Run, r'.machine = m → r'.phase = .evaluating →
      (r'.move p c last).machine = m' ∧ (r'.move p c last).phase = .evaluating) :
    Reaches p c r m' := by
  obtain ⟨moves, machine, phase⟩ := reaches
  refine ⟨moves ++ [last], ?_⟩
  rw [play_append, play_cons, play_nil]
  exact moved _ machine phase

theorem kept_reaches (p : Program) (c : RunConfig) (r : Run) :
    Machine.Kept p (Reaches p c r) := by
  refine ⟨fun m h => h.next .main _ ?_, fun m i h => h.next (.start i) _ ?_,
    fun m i h => h.next (.task i) _ ?_⟩
  · rintro r' rfl phase
    simp [move, phase]
  · rintro r' rfl phase
    exact ⟨rfl, phase⟩
  · rintro r' rfl phase
    exact ⟨rfl, phase⟩

theorem program_bindConstants (s : Session) :
    s.bindConstants.program = s.program ∧ s.bindConstants.config = s.config := by
  simp only [Session.bindConstants, List.foldl_cons, List.foldl_nil]
  refine ⟨?_, ?_⟩ <;> (repeat' split) <;> rfl

theorem main_stepMain {m : Machine} (done : m.main.isDone) : (m.stepMain p).main = m.main := by
  obtain ⟨world, main, tasks⟩ := m
  cases finished : main.outcome? with
  | none => simp [Thread.isDone, finished] at done
  | some outcome =>
    have silent : main.launch? = none := by
      obtain ⟨-, ⟨v, at_, -⟩ | ⟨e, at_, -⟩⟩ := Thread.outcome?_eq_some finished <;>
        simp only [Thread.launch?, at_]
    simp only [Machine.stepMain, silent, Turn.step_of_outcome p world .main finished]
    rfl

theorem main_stepTask (p : Program) (m : Machine) (i : Nat) : (m.stepTask p i).main = m.main := by
  obtain ⟨world, main, tasks⟩ := m
  simp only [Machine.stepTask]
  (repeat' split) <;> rfl

/-- A host that finds nobody pending closes the run. -/
theorem play_look_close {r : Run} (waits : r.phase = .evaluating) (finished : r.machine.main.isDone)
    (idle : r.machine.world.ledger.pending = 0) :
    r.play p c [.look, .close] =
      { r with
        machine.world.ledger := r.machine.world.ledger.close
        phase := .closed .complete } := by
  have looked : r.move p c .look = { r with phase := .drained .complete } := by
    simp only [move]
    rw [if_pos ⟨waits, finished, idle⟩]
  rw [play_cons, looked]
  rfl

/-- A host that finds somebody pending closes the run when the time is over. -/
theorem play_giveUp_close {r : Run} (waits : r.phase = .evaluating) (finished : r.machine.main.isDone)
    (busy : r.machine.world.ledger.pending ≠ 0) (limited : c.drainTimeout.isSome) :
    r.play p c [.giveUp, .close] =
      { r with
        machine.world.ledger := r.machine.world.ledger.close
        phase := .closed (.incomplete r.machine.world.ledger.pending) } := by
  have given : r.move p c .giveUp =
      { r with phase := .drained (.incomplete r.machine.world.ledger.pending) } := by
    simp only [move]
    rw [if_pos ⟨waits, finished, busy, limited⟩]
  rw [play_cons, given]
  rfl

/-- A drain that comes back has let the pool go on, and then closed the run. -/
theorem drain_eq_some {s s' : Session} {status : DrainStatus} (drained : s.drain = (some status, s')) :
    ∃ m : Machine, (∀ holds, Machine.Kept s.program holds → holds s.pool.machine → holds m) ∧
      s'.pool.machine = { m with world.ledger := m.world.ledger.close } ∧
      (m.world.ledger.pending = 0 ∧ status = .complete ∨
        m.world.ledger.pending ≠ 0 ∧ s.config.drainTimeout.isSome ∧
          status = .incomplete m.world.ledger.pending) := by
  obtain ⟨program, config, pool⟩ := s
  simp only [Session.drain] at drained
  have kept := fun holds (kept : Machine.Kept program holds) =>
    Pool.runUntil_keeps kept config.workers
      (fun after => Session.noneIsPending after || Session.isLate config.drainTimeout pool after)
      Session.patience pool
  split at drained
  · next idle =>
    cases drained
    exact ⟨_, kept, rfl, .inl ⟨idle, rfl⟩⟩
  · next busy =>
    split at drained
    · next limited =>
      cases drained
      exact ⟨_, kept, rfl, .inr ⟨busy, limited, rfl⟩⟩
    · cases drained

/-- What a drain of a session answers, the drain of a run may answer as well. -/
theorem Reaches.drain {s s' : Session} {status : DrainStatus}
    (reaches : Reaches s.program s.config r s.pool.machine) (done : s.pool.machine.main.isDone)
    (drained : s.drain = (some status, s')) :
    ∃ moves, (r.play s.program s.config moves).machine = s'.pool.machine ∧
      (r.play s.program s.config moves).phase = .closed status := by
  have kept : Machine.Kept s.program fun m => Reaches s.program s.config r m ∧ m.main.isDone := by
    have reached := kept_reaches s.program s.config r
    refine ⟨fun m h => ⟨reached.main m h.1, ?_⟩, fun m i h => ⟨reached.start m i h.1, h.2⟩,
      fun m i h => ⟨reached.task m i h.1, ?_⟩⟩
    · rw [main_stepMain h.2]
      exact h.2
    · rw [main_stepTask]
      exact h.2
  obtain ⟨m, drains, closed, answer⟩ := drain_eq_some drained
  obtain ⟨⟨moves, rfl, waits⟩, finished⟩ := drains _ kept ⟨reaches, done⟩
  rcases answer with ⟨idle, rfl⟩ | ⟨busy, limited, rfl⟩
  · refine ⟨moves ++ [.look, .close], ?_⟩
    rw [play_append, play_look_close waits finished idle, closed]
    exact ⟨rfl, rfl⟩
  · refine ⟨moves ++ [.giveUp, .close], ?_⟩
    rw [play_append, play_giveUp_close waits finished busy limited, closed]
    exact ⟨rfl, rfl⟩

/-- A conclusion is a drain, and after it the failures are taken. -/
theorem Reaches.conclude {s s' : Session} {value : Value} {report : Report}
    (reaches : Reaches s.program s.config r s.pool.machine) (done : s.pool.machine.main.isDone)
    (concluded : s.conclude (fun status failures => .report ⟨value, status, failures⟩) =
      (.report report, s')) :
    ∃ moves, (r.play s.program s.config moves).machine = s'.pool.machine ∧
      (r.play s.program s.config moves).phase = .reported report.drain report.failures := by
  simp only [Session.conclude] at concluded
  split at concluded
  · cases concluded
  · next status closed drained =>
    cases concluded
    obtain ⟨moves, machine, phase⟩ := reaches.drain done drained
    refine ⟨moves ++ [.report], ?_⟩
    rw [play_append, play_cons, play_nil]
    simp only [move, phase, machine]
    exact ⟨rfl, rfl⟩

/-- A root that ends with a value or a return has been evaluated by the main thread. -/
theorem evalRoot_done {s s' : Session} {outcome : Outcome}
    (evaluated : s.evalRoot s.program.root = (some outcome, s'))
    (fine : (∃ v, outcome = .value v) ∨ ∃ v, outcome = .exit (.ret v)) :
    s' = (s.setMain (.give .void) [.statements s.program.rootStatements]).runUntil
        Session.mainIsOver ∧ s'.pool.machine.main.isDone := by
  simp only [Session.evalRoot] at evaluated
  split at evaluated
  · cases evaluated
    rcases fine with ⟨v, same⟩ | ⟨v, same⟩ <;> cases same
  · next statements found =>
    have same : s.program.rootStatements = statements := by
      simp only [Program.rootStatements, found]
    rw [same]
    simp only [Session.perform, Prod.mk.injEq, Option.map_eq_some_iff] at evaluated
    obtain ⟨⟨raw, finished, translated⟩, rfl⟩ := evaluated
    refine ⟨rfl, ?_⟩
    rcases raw with v | v | f | message
    · simp only [Thread.isDone, finished]
    · simp only [Thread.isDone, finished]
    · simp only [Thread.isDone, finished]
    · rw [← translated] at fine
      rcases fine with ⟨v, same⟩ | ⟨v, same⟩ <;> cases same
  · cases evaluated
    rcases fine with ⟨v, same⟩ | ⟨v, same⟩ <;> cases same

/-- A run that a session reports is one that moves lead to. -/
theorem run_is_played {report : Report} {s : Session}
    (reported : Session.run p c = (.report report, s)) :
    ∃ moves, ((initial p c).play p c moves).machine = s.pool.machine ∧
      ((initial p c).play p c moves).phase = .reported report.drain report.failures := by
  obtain ⟨program, config⟩ := program_bindConstants (Session.start p c)
  have begun : initial p c =
      ⟨((Session.start p c).bindConstants.setMain (.give .void)
        [.statements p.rootStatements]).pool.machine, .evaluating, []⟩ := rfl
  simp only [Session.run] at reported
  generalize (Session.start p c).bindConstants = bound at program config begun reported
  obtain ⟨_, _, pool⟩ := bound
  obtain rfl : _ = p := program
  obtain rfl : _ = c := config
  generalize evaluated : Session.evalRoot _ _ = result at reported
  obtain ⟨outcome, finished⟩ := result
  have ending : ∃ value, ((∃ v, outcome = some (.value v)) ∨ ∃ v, outcome = some (.exit (.ret v))) ∧
      finished.conclude (fun status failures => .report ⟨value, status, failures⟩) =
        (.report report, s) := by
    rcases outcome with _ | v | v | f | message
    · cases reported
    · exact ⟨v, .inl ⟨v, rfl⟩, reported⟩
    · exact ⟨v, .inr ⟨v, rfl⟩, reported⟩
    · simp only [Session.conclude] at reported
      split at reported <;> cases reported
    · cases reported
  obtain ⟨value, fine, concluded⟩ := ending
  obtain ⟨outcome, rfl⟩ : ∃ o, outcome = some o := by
    rcases fine with ⟨v, rfl⟩ | ⟨v, rfl⟩ <;> exact ⟨_, rfl⟩
  obtain ⟨same, done⟩ := evalRoot_done evaluated (by simpa using fine)
  have reaches : Reaches finished.program finished.config (initial finished.program finished.config)
      finished.pool.machine := by
    subst same
    refine Pool.runUntil_keeps (kept_reaches _ _ _) _ _ _ _ ⟨[], ?_⟩
    rw [play_nil]
    exact ⟨congrArg Run.machine begun, congrArg Run.phase begun⟩
  have played := reaches.conclude done concluded
  subst same
  exact played

end Run

end Strand
