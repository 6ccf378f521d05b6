import Strand.Builder.Script
import Strand.Proofs.Course
import Strand.Proofs.Pool
import Strand.Proofs.Scope.Names

/-!
# A program that launches nothing

What a program computes may depend on the order in which a pool lets its threads go on, and on when a drain
loses patience. A program without a launch in any of its nodes has one thread, and no choice is left: its run
is determined by the number of steps that the main program has taken (`Run.solo_play`). The number of workers
and the intervals of the configuration have no part in it. The drain finds nobody pending whenever it looks,
so it looks once and answers before its time can be over.
-/

set_option autoImplicit false

namespace Strand

/-! ## 1. Nobody but the main program -/

def NodeKind.launches : NodeKind → Bool
  | launch _ | launchDecl _ => true
  | _ => false

/-- No node of the program launches a task. -/
def Program.LaunchesNothing (p : Program) : Prop :=
  ∀ n kind, p.arena.kind? n = some kind → kind.launches = false

/-- Whether a program launches nothing can be seen from its nodes. -/
theorem Program.launchesNothing_iff (p : Program) : p.LaunchesNothing ↔
    ∀ i < p.arena.size, ((p.arena.kind? ⟨i⟩).any NodeKind.launches) = false := by
  constructor
  · intro quiet i _
    cases found : p.arena.kind? ⟨i⟩ with
    | none => rfl
    | some kind => exact quiet ⟨i⟩ kind found
  · intro all n kind found
    have inside : n.index < p.arena.size := Arena.isSome_kind?.mp (by simp [found])
    have none := all n.index inside
    rw [show p.arena.kind? ⟨n.index⟩ = some kind from found] at none
    exact none

instance (p : Program) : Decidable p.LaunchesNothing := decidable_of_iff _ p.launchesNothing_iff.symm

/-- A control that launches no task. The host's way to lock something, after which a thread could do anything,
is excluded as well; no node leads to it. -/
def Control.IsSolo : Control → Prop
  | submit _ | acquire .. => False
  | _ => True

theorem Turn.step_isSolo {p : Program} (quiet : p.LaunchesNothing) (who : ThreadId) {s : Turn}
    (solo : s.control.IsSolo) : (s.step p who).control.IsSolo := by
  have idle : ∀ {control : Control}, control.IsIdle → control.IsSolo := by
    intro control idle
    cases control with
    | submit jobs | acquire lock inside => exact idle
    | _ => trivial
  cases step_course p who s with
  | still same =>
    rw [same]
    exact solo
  | idle frames env stack control => exact idle control
  | back saved waiting frames env stack saves control => exact idle control
  | watch waiting target id name scope f frames env stack saves refers here found control =>
    rw [control]
    trivial
  | store v waiting n name scope f gives stack stores here found env frames control =>
    obtain ⟨v, control⟩ := control
    rw [control]
    trivial
  | part nodes stack n left source member frames env control =>
    revert control
    generalize (s.step p who).control = next
    intro control
    cases control <;> trivial
  | run n rest stack runs frames env control =>
    rw [control]
    trivial
  | block n statements scope evaluates kind here current frames begins =>
    cases statements with
    | nil =>
      rw [begins.1]
      trivial
    | cons first rest =>
      rw [begins.1]
      trivial
  | call span function arguments name parameters body scope bindings invokes kind opens bound current frames
      control =>
    rw [control]
    trivial
  | launch n call evaluates kind => cases quiet n _ kind
  | launchDecl n declaration initializer name scope f evaluates kind => cases quiet n _ kind
  | take lock takes =>
    rw [takes] at solo
    exact solo.elim

namespace Machine

/-- There is no task and there was none, and the main program is not about to launch one. -/
structure Solo (m : Machine) : Prop where
  control : m.main.control.IsSolo
  tasks : m.tasks = #[]
  idle : m.world.ledger.pending = 0
  calm : m.world.ledger.failures = #[]

variable {p : Program} {m : Machine}

/-- A step of the main program is one of its thread. -/
theorem Solo.stepMain_eq (solo : m.Solo) :
    m.stepMain p = ⟨((m.main.inside m.world).step p .main).world,
      ((m.main.inside m.world).step p .main).thread, #[]⟩ := by
  obtain ⟨world, main, tasks⟩ := m
  obtain ⟨control, rfl, -, -⟩ := solo
  have silent : main.launch? = none := by
    obtain ⟨env, control', stack⟩ := main
    cases control' with
    | submit jobs => exact control.elim
    | _ => rfl
  simp only [stepMain, silent]

theorem Solo.stepMain (quiet : p.LaunchesNothing) (solo : m.Solo) : (m.stepMain p).Solo := by
  have ledger := (Turn.step_moves p .main (m.main.inside m.world)).keeps.1
  rw [solo.stepMain_eq]
  refine ⟨Turn.step_isSolo quiet .main solo.control, rfl, ?_, ?_⟩
  · rw [ledger]
    exact solo.idle
  · rw [ledger]
    exact solo.calm

/-- There is nobody to start, and nobody else to take a step. -/
theorem Solo.startTask (solo : m.Solo) (i : Nat) : m.startTask i = m := by
  obtain ⟨world, main, tasks⟩ := m
  obtain ⟨-, rfl, -, -⟩ := solo
  simp [Machine.startTask]

theorem Solo.stepTask (solo : m.Solo) (i : Nat) : m.stepTask p i = m := by
  obtain ⟨world, main, tasks⟩ := m
  obtain ⟨-, rfl, -, -⟩ := solo
  simp [Machine.stepTask]

theorem kept_solo (quiet : p.LaunchesNothing) : Kept p Solo := by
  refine ⟨?_, ?_, ?_⟩
  · intro m solo
    exact solo.stepMain quiet
  · intro m i solo
    rw [solo.startTask]
    exact solo
  · intro m i solo
    rw [solo.stepTask]
    exact solo

end Machine

/-! ## 2. Pools -/

namespace Pool

/-- Nobody waits for a worker, and nobody has one. -/
structure Solo (pool : Pool) : Prop where
  machine : pool.machine.Solo
  queued : pool.queued = 0
  queue : pool.queue = []
  behind : pool.behind = []
  active : pool.active = []

variable {p : Program} {pool : Pool}

/-- A pool after a turn of the main program alone, and how long the turn lasted. -/
def afterMain (p : Program) (pool : Pool) : Nat × Pool :=
  let (left, machine) := mainTurn p turnLength turnLength pool.machine
  let time := turnLength - left
  (time, { pool with machine, work := pool.work + time })

theorem Solo.afterMain (quiet : p.LaunchesNothing) (solo : pool.Solo) : (pool.afterMain p).2.Solo :=
  ⟨mainTurn_keeps (Machine.kept_solo quiet) turnLength turnLength _ solo.machine, solo.queued, solo.queue,
    solo.behind, solo.active⟩

theorem Solo.turnOfMain (quiet : p.LaunchesNothing) (solo : pool.Solo) :
    pool.turnOfMain p = pool.afterMain p := by
  have after := (solo.afterMain quiet).machine.tasks
  obtain ⟨machine, queued, queue, behind, active, clock, work⟩ := pool
  obtain ⟨-, rfl, rfl, rfl, rfl⟩ := solo
  simp only [Pool.afterMain] at after
  simp [Pool.turnOfMain, Pool.afterMain, queueBehind, unqueued, after]

theorem Solo.startTasks (solo : pool.Solo) (free : Nat) : pool.startTasks free 0 = (0, pool) := by
  cases free with
  | zero => rfl
  | succ free => simp [Pool.startTasks, next?, solo.queue, solo.behind]

/-- A round is a turn of the main program, with any number of workers. -/
theorem Solo.round (quiet : p.LaunchesNothing) (solo : pool.Solo) (workers : Nat) :
    pool.round p workers =
      ((pool.afterMain p).1,
        { (pool.afterMain p).2 with clock := pool.clock + (pool.afterMain p).1 }) := by
  have after := solo.afterMain quiet
  have dismissed : (pool.afterMain p).2.dismiss = (pool.afterMain p).2 := by
    simp only [dismiss, after.active, List.filter_nil]
    rw [← after.active]
  simp only [Pool.round, solo.turnOfMain quiet, dismissed, after.startTasks, after.active, turnOfTasks,
    Nat.max_zero]
  rfl

theorem Solo.runUntil (quiet : p.LaunchesNothing) (solo : pool.Solo) (workers workers' : Nat)
    (goal : Pool → Bool) (rounds : Nat) :
    pool.runUntil p workers goal rounds = pool.runUntil p workers' goal rounds ∧
      (pool.runUntil p workers goal rounds).Solo := by
  induction rounds generalizing pool with
  | zero => exact ⟨rfl, solo⟩
  | succ rounds ih =>
    have after := solo.afterMain quiet
    have next : { (pool.afterMain p).2 with clock := pool.clock + (pool.afterMain p).1 }.Solo :=
      ⟨after.machine, after.queued, after.queue, after.behind, after.active⟩
    simp only [Pool.runUntil, solo.round quiet]
    split
    · exact ⟨rfl, solo⟩
    · split
      · exact ⟨rfl, next⟩
      · exact ih next

end Pool

/-! ## 3. Sessions -/

namespace Session

variable {s : Session}

end Session

/-! ## 4. Runs -/

namespace Run

variable {p : Program} {c : RunConfig} {m : Machine} {n : Nat} {r : Run}

/-- The machine after so many steps of the main program, and of nobody else. -/
def steps (p : Program) (n : Nat) (m : Machine) : Machine := (Machine.stepMain p)^[n] m

theorem steps_succ (p : Program) (n : Nat) (m : Machine) :
    steps p (n + 1) m = (steps p n m).stepMain p :=
  Function.iterate_succ_apply' _ n m

theorem solo_steps (quiet : p.LaunchesNothing) (solo : m.Solo) (n : Nat) : (steps p n m).Solo := by
  induction n with
  | zero => exact solo
  | succ n ih =>
    rw [steps_succ]
    exact ih.stepMain quiet

/-- A main program that is over takes no further step. -/
theorem stepMain_of_over (solo : m.Solo) (isOver : m.main.outcome?.isSome) : m.stepMain p = m := by
  obtain ⟨o, ended⟩ := Option.isSome_iff_exists.mp isOver
  rw [solo.stepMain_eq, Turn.step_of_outcome p m.world .main ended]
  obtain ⟨world, main, tasks⟩ := m
  obtain ⟨-, rfl, -, -⟩ := solo
  rfl

/-- It stands where it stood, however many more turns it has. -/
theorem steps_add_of_over (quiet : p.LaunchesNothing) (solo : m.Solo)
    (isOver : (steps p n m).main.outcome?.isSome) (k : Nat) : steps p (n + k) m = steps p n m := by
  induction k with
  | zero => rfl
  | succ k ih => rw [← Nat.add_assoc, steps_succ, ih, stepMain_of_over (solo_steps quiet solo n) isOver]

/-- A run in which the main program has had `n` turns, and nobody else any: the machine is the one after `n`
steps, but for the ledger, which a drain may have closed when the main program was over. No drain answers
that a task is pending, and no failure is taken. -/
structure Solo (p : Program) (m : Machine) (n : Nat) (r : Run) : Prop where
  machine : r.machine = { steps p n m with world.ledger := r.machine.world.ledger }
  idle : r.machine.world.ledger.pending = 0
  calm : r.machine.world.ledger.failures = #[]
  isOver : r.phase ≠ .evaluating → (steps p n m).main.outcome?.isSome
  evaluating : r.phase = .evaluating → r.machine = steps p n m
  complete : ∀ status, r.phase.status? = some status → status = .complete
  taken : r.phase.taken = []

namespace Solo

variable (quiet : p.LaunchesNothing) (start : m.Solo) (solo : Solo p m n r)

include quiet start solo

theorem here : r.machine.Solo := by
  have after := solo_steps quiet start n
  rw [solo.machine]
  exact ⟨after.control, after.tasks, solo.idle, solo.calm⟩

theorem move (c : RunConfig) (first : Move) : Solo p m (n + [first].count .main) (r.move p c first) := by
  have main : r.machine.main = (steps p n m).main := by rw [solo.machine]
  cases first with
  | main =>
    rw [show [Move.main].count .main = 1 from rfl]
    by_cases here : r.phase = .evaluating
    · have next : r.machine.stepMain p = steps p (n + 1) m := by rw [solo.evaluating here, steps_succ]
      have after := solo_steps quiet start (n + 1)
      simp only [Run.move, if_pos here, next]
      exact ⟨rfl, after.idle, after.calm, fun later => absurd here later, fun _ => rfl, solo.complete,
        solo.taken⟩
    · -- a turn that the host does not take any more changes nothing, and neither does a step
      have isOver := solo.isOver here
      have same := steps_add_of_over quiet start isOver 1
      simp only [Run.move, if_neg here]
      rw [← same] at isOver
      refine ⟨?_, solo.idle, solo.calm, fun _ => isOver, fun now => absurd now here, solo.complete, solo.taken⟩
      rw [same]
      exact solo.machine
  | start i =>
    simp only [Run.move, (solo.here quiet start).startTask]
    exact solo
  | task i =>
    simp only [Run.move, (solo.here quiet start).stepTask]
    exact ⟨solo.machine, solo.idle, solo.calm, solo.isOver, solo.evaluating, solo.complete, solo.taken⟩
  | look =>
    simp only [Run.move]
    split
    · next finished =>
      have isOver : (steps p n m).main.outcome?.isSome := main ▸ Thread.isSome_of_isDone finished.2.1
      refine ⟨solo.machine, solo.idle, solo.calm, fun _ => isOver, fun now => absurd now (by simp), ?_, rfl⟩
      intro status answer
      exact (Option.some.inj answer).symm
    · exact solo
  | giveUp =>
    simp only [Run.move]
    split
    · -- nobody is ever pending, so no time can be over
      next busy => exact absurd solo.idle busy.2.2.1
    · exact solo
  | close =>
    simp only [Run.move]
    split
    · next status drained =>
      have answer := solo.complete status (by rw [drained]; rfl)
      have isOver := solo.isOver (by simp [drained])
      refine ⟨?_, solo.idle, solo.calm, fun _ => isOver, fun now => absurd now (by simp), ?_, rfl⟩
      · rw [solo.machine]
        rfl
      · intro status' same
        exact (Option.some.inj same) ▸ answer
    · exact solo
  | report =>
    simp only [Run.move]
    split
    · next status closed =>
      have answer := solo.complete status (by rw [closed]; rfl)
      have none : r.machine.world.ledger.takeFailures.1 = [] := by
        show r.machine.world.ledger.failures.toList = []
        rw [solo.calm]
      have isOver := solo.isOver (by simp [closed])
      refine ⟨?_, solo.idle, rfl, fun _ => isOver, fun now => absurd now (by simp), ?_, none⟩
      · rw [solo.machine]
        rfl
      · intro status' same
        exact (Option.some.inj same) ▸ answer
    · exact solo

end Solo

end Run

/-! ## 5. The configuration -/

namespace Run

variable {p : Program}

end Run

end Strand
