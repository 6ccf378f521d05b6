import Strand.Machine

/-!
# The worker pool

The pool decides who goes next. The main program has a thread of its own, and a bounded number of
tasks run beside it. All of them take turns of a bounded length, so none waits forever for another
that spins. A submitted task is started when a worker is free: tasks of the main program in the order
of launching, tasks of a task before all others and the latest first.

What a program computes does not depend on these choices if it waits for what it needs; the choices
only have to be fair. A pool in which nobody can move stays as it is.

The pool has a clock, which counts steps: turns that are taken side by side last as long as the
longest of them. It also counts the steps that all of them take together.
-/

set_option autoImplicit false

namespace Strand

/-- A machine with the positions of its tasks, sorted by what they wait for. -/
structure Pool where
  machine : Machine
  /-- The number of tasks that have been queued. -/
  queued : Nat
  /-- The tasks that wait for a worker, the next one first. -/
  queue : List Nat
  /-- The tasks that wait behind those, the last one first. -/
  behind : List Nat
  /-- The tasks that have a worker. -/
  active : List Nat
  /-- The time that has passed. -/
  clock : Nat
  /-- The steps that were taken, by whomever. -/
  work : Nat
deriving Inhabited

namespace Pool

/-- A pool whose machine has launched no task yet. -/
def new (machine : Machine) : Pool := ⟨machine, 0, [], [], [], 0, 0⟩

/-! ## Queueing -/

/-- The positions of the tasks that have been launched and not queued, the latest first. -/
def unqueued (pool : Pool) : List Nat :=
  (List.range' pool.queued (pool.machine.tasks.size - pool.queued)).reverse

/-- Queues the new tasks behind all others. -/
def queueBehind (pool : Pool) : Pool :=
  { pool with behind := pool.unqueued ++ pool.behind, queued := pool.machine.tasks.size }

/-- Queues the new tasks before all others. -/
def queueBefore (pool : Pool) : Pool :=
  { pool with queue := pool.unqueued ++ pool.queue, queued := pool.machine.tasks.size }

/-- The next task, and the queue after it. -/
def next? (pool : Pool) : Option (Nat × List Nat × List Nat) :=
  match pool.queue with
  | i :: rest => some (i, rest, pool.behind)
  | [] =>
    match pool.behind.reverse with
    | i :: rest => some (i, rest, [])
    | [] => none

/-! ## Turns -/

/-- The number of steps in a turn. -/
def turnLength : Nat := 256

/-- The main program takes up to so many steps, in no more than so many stretches between launches;
gives the number of the steps it could not take. -/
def mainTurn (p : Program) : Nat → Nat → Machine → Nat × Machine
  | 0, steps, m => (steps, m)
  | stretches + 1, steps, m =>
    match m.runMain p steps with
    | (0, m) => (0, m)
    | (steps + 1, m) =>
      if m.mainReady then mainTurn p stretches steps (m.stepMain p) else (steps + 1, m)

/-- A task takes up to so many steps, in no more than so many stretches between launches; gives the
number of the steps it could not take. -/
def taskTurn (p : Program) (i : Nat) : Nat → Nat → Machine → Nat × Machine
  | 0, steps, m => (steps, m)
  | stretches + 1, steps, m =>
    match m.runTask p steps i with
    | (0, m) => (0, m)
    | (steps + 1, m) =>
      if m.tasks[i]?.any (Machine.taskReady m.world) then
        taskTurn p i stretches steps (m.stepTask p i)
      else (steps + 1, m)

/-- A turn for the main program, and how long it lasts. -/
def turnOfMain (p : Program) (pool : Pool) : Nat × Pool :=
  let (left, machine) := mainTurn p turnLength turnLength pool.machine
  let time := turnLength - left
  (time, queueBehind { pool with machine, work := pool.work + time })

/-- A turn for the task at a position, and how long it lasts. -/
def turnOfTask (p : Program) (i : Nat) (pool : Pool) : Nat × Pool :=
  let (left, machine) := taskTurn p i turnLength turnLength pool.machine
  let time := turnLength - left
  (time, queueBefore { pool with machine, work := pool.work + time })

/-- Turns for the tasks at the given positions, side by side with a turn that lasts some time, and
how long they all last. -/
def turnOfTasks (p : Program) : List Nat → Nat → Pool → Nat × Pool
  | [], time, pool => (time, pool)
  | i :: rest, time, pool =>
    let (taskTime, pool) := turnOfTask p i pool
    turnOfTasks p rest (max time taskTime) pool

def isEnded (m : Machine) (i : Nat) : Bool :=
  match m.tasks[i]? with
  | some ⟨_, .ended⟩ => true
  | _ => false

/-- Takes the workers of the tasks that have ended. -/
def dismiss (pool : Pool) : Pool :=
  { pool with active := pool.active.filter fun i => !isEnded pool.machine i }

/-- Starts up to so many tasks; gives the number of those that were started. -/
def startTasks : Nat → Nat → Pool → Nat × Pool
  | 0, started, pool => (started, pool)
  | free + 1, started, pool =>
    match pool.next? with
    | none => (started, pool)
    | some (i, queue, behind) =>
      startTasks free (started + 1)
        { pool with machine := pool.machine.startTask i, queue, behind, active := pool.active ++ [i] }

/-- A turn for everyone, and how long it lasts: no time if nobody could move. -/
def round (p : Program) (workers : Nat) (pool : Pool) : Nat × Pool :=
  let (mainTime, pool) := turnOfMain p pool
  let pool := pool.dismiss
  let (started, pool) := startTasks (workers - pool.active.length) 0 pool
  let (time, pool) := turnOfTasks p pool.active (max mainTime started) pool
  (time, { pool with clock := pool.clock + time })

/-- Takes turns until the pool is as wanted, nobody can move, or the rounds are used up. -/
def runUntil (p : Program) (workers : Nat) (goal : Pool → Bool) : Nat → Pool → Pool
  | 0, pool => pool
  | rounds + 1, pool =>
    if goal pool then pool
    else
      let (time, pool) := round p workers pool
      if time = 0 then pool else runUntil p workers goal rounds pool

end Pool

end Strand
