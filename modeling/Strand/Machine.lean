import Strand.Thread.Step

/-!
# The machine

A run has one world, the thread of the main program, and a task for every launch, in the order of
launching. A task is submitted first and started later. When its evaluation is over, a fault is
recorded, and only after that the task stops counting as pending, so whoever sees no task pending
also sees every failure.

`stepMain` is one step of the main program and `stepTask` one of a task; `runMain` and `runTask` are
as many steps of a thread as it can take by itself, up to a number. Which of them goes next is not
decided here.
-/

set_option autoImplicit false

namespace Strand

/-- How far a task has come. -/
inductive TaskState where
  /-- Launched but not started; the environment is the launching thread's. -/
  | submitted (env : Env) (job : Control)
  | running (t : Thread)
  /-- Over with a fault that is not recorded yet. -/
  | failing (f : Fault)
  /-- Over, and still counted as pending. -/
  | ending
  | ended
deriving Inhabited

/-- A task of a run: its number, and how far it has come. -/
structure Task where
  id : TaskId
  state : TaskState
deriving Inhabited

/-- The state of a run. -/
structure Machine where
  world : World
  main : Thread
  tasks : Array Task
deriving Inhabited

/-- What a task that is over has to do next. A return ends a task like a value, and a crash is a
fault of its own kind. -/
def TaskState.ofOutcome : Outcome → TaskState
  | .value _ | .exit (.ret _) => .ending
  | .exit (.fault f) => .failing f
  | .exit (.crash message) => .failing (.ofCause (.taskPanicked message))

namespace Machine

/-- Registers a task and adds it at the end. -/
def submit (m : Machine) (env : Env) (job : Control) : TaskId × Machine :=
  let (id, ledger) := m.world.ledger.register
  (id, { m with
    world := { m.world with ledger }
    tasks := m.tasks.push ⟨id, .submitted env job⟩ })

/-- Whether the main program can move. -/
def mainReady (m : Machine) : Bool :=
  m.main.launch?.isSome || (m.main.inside m.world).ready .main

/-- Whether a task that has been started can move. -/
def taskReady (w : World) (task : Task) : Bool :=
  match task.state with
  | .submitted .. | .ended => false
  | .running t =>
    t.outcome?.isSome || t.launch?.isSome || (t.inside w).ready (.task task.id)
  | .failing _ | .ending => true

/-- Starts a submitted task. -/
def startTask (m : Machine) (i : Nat) : Machine :=
  { m with
    tasks := m.tasks.modify i fun task =>
      match task.state with
      | .submitted env job => { task with state := .running (.start env job) }
      | _ => task }

/-- One step of the main program: it launches a task, or its thread takes a step. -/
def stepMain (p : Program) (m : Machine) : Machine :=
  match m with
  | ⟨world, main, tasks⟩ =>
    match main.launch? with
    | some (job, main) => (submit ⟨world, main, tasks⟩ main.env job).2
    | none =>
      let turn := (main.inside world).step p .main
      ⟨turn.world, turn.thread, tasks⟩

/-- Up to so many steps of the main program's thread by itself; gives the number of those that are
left. -/
def runMain (p : Program) (steps : Nat) (m : Machine) : Nat × Machine :=
  match m with
  | ⟨world, main, tasks⟩ =>
    let (left, turn) := (main.inside world).run p .main steps
    (left, ⟨turn.world, turn.thread, tasks⟩)

/-- One step of a task that has been started: its thread launches a task or takes a step, or the
task takes the next step to its end. -/
def stepTask (p : Program) (m : Machine) (i : Nat) : Machine :=
  match m with
  | ⟨world, main, tasks⟩ =>
    match tasks[i]? with
    | none => ⟨world, main, tasks⟩
    | some ⟨id, state⟩ =>
      match state with
      | .submitted .. | .ended => ⟨world, main, tasks⟩
      | .running t =>
        match t.outcome? with
        | some outcome => ⟨world, main, tasks.setIfInBounds i ⟨id, .ofOutcome outcome⟩⟩
        | none =>
          match t.launch? with
          | some (job, t) =>
            (submit ⟨world, main, tasks.setIfInBounds i ⟨id, .running t⟩⟩ t.env job).2
          | none =>
            let turn := (t.inside world).step p (.task id)
            ⟨turn.world, main, tasks.setIfInBounds i ⟨id, .running turn.thread⟩⟩
      | .failing f =>
        ⟨{ world with ledger := world.ledger.recordFailure id f }, main,
          tasks.setIfInBounds i ⟨id, .ending⟩⟩
      | .ending =>
        ⟨{ world with ledger := world.ledger.release }, main, tasks.setIfInBounds i ⟨id, .ended⟩⟩

/-- Up to so many steps of a task's thread by itself; gives the number of those that are left. -/
def runTask (p : Program) (steps : Nat) (m : Machine) (i : Nat) : Nat × Machine :=
  match m with
  | ⟨world, main, tasks⟩ =>
    match tasks[i]? with
    | some ⟨id, .running t⟩ =>
      let (left, turn) := (t.inside world).run p (.task id) steps
      (left, ⟨turn.world, main, tasks.setIfInBounds i ⟨id, .running turn.thread⟩⟩)
    | _ => (steps, ⟨world, main, tasks⟩)

/-! ### Many steps are single steps -/

/-- What every step of the main program keeps, many of them keep. -/
theorem runMain_keeps {p : Program} (holds : Machine → Prop)
    (kept : ∀ m, holds m → holds (m.stepMain p)) (steps : Nat) (m : Machine) (start : holds m) :
    holds (m.runMain p steps).2 := by
  induction steps generalizing m with
  | zero => exact start
  | succ steps ih =>
    obtain ⟨world, main, tasks⟩ := m
    have next := kept _ start
    simp only [runMain, Turn.run] at ih ⊢
    split
    · next moves =>
      simp only [stepMain, Turn.launch?_of_ready moves] at next
      exact ih _ next
    · exact start

/-- Writing the task that is there changes nothing. -/
theorem setIfInBounds_found {tasks : Array Task} {i : Nat} {task : Task}
    (found : tasks[i]? = some task) : tasks.setIfInBounds i task = tasks := by
  apply Array.ext_getElem?
  intro j
  rw [Array.getElem?_setIfInBounds]
  split
  · next same =>
    subst same
    obtain ⟨inside, rfl⟩ := Array.getElem?_eq_some_iff.mp found
    simp [inside]
  · rfl

/-- What every step of a task keeps, many of them keep. -/
theorem runTask_keeps {p : Program} {i : Nat} (holds : Machine → Prop)
    (kept : ∀ m, holds m → holds (m.stepTask p i)) (steps : Nat) (m : Machine) (start : holds m) :
    holds (m.runTask p steps i).2 := by
  obtain ⟨world, main, tasks⟩ := m
  simp only [runTask]
  split
  · next id t found =>
    induction steps generalizing world t tasks with
    | zero =>
      have same := setIfInBounds_found found
      simpa only [Turn.run, Thread.inside, Turn.thread, same] using start
    | succ steps ih =>
      have next := kept _ start
      simp only [Turn.run]
      split
      · next moves =>
        simp only [stepTask, found, Turn.outcome?_of_ready moves, Turn.launch?_of_ready moves] at next
        obtain ⟨inside, _⟩ := Array.getElem?_eq_some_iff.mp found
        have rest := ih _ _ next ((t.inside world).step p (.task id)).thread
          (by simp [inside])
        simpa only [Thread.inside, Turn.thread, Array.setIfInBounds_setIfInBounds] using rest
      · have same := setIfInBounds_found found
        simpa only [Thread.inside, Turn.thread, same] using start
  · exact start

end Machine

end Strand
