import Mathlib.Logic.Function.Basic
import Strand.Proofs.Turn
import Strand.Session

/-!
# Interleavings

A run in which the order of steps is left open. The pool decides who goes next; here the order is a
list of moves, and whatever is proved of every list holds of every order that a pool may choose.

* `Move` says who acts: the main program, a worker that starts a task, a task, or the host, which
  looks at the pending count, gives a drain up, closes the run and takes the failures.
* `Run.play` plays a list of moves. A move that is not possible changes nothing.
* `Machine.Next` lists everything that a step of a machine can do, once and for all: what is kept by
  each of its seven cases is kept by every run (`Run.play_induction`).

The history of a run is not part of the machine. It remembers which thread moved and how that thread
stood before, for statements about what happened along the way.
-/

set_option autoImplicit false

namespace Strand

/-! ## 1. Threads of a machine -/

/-- The frame that is made first. -/
def Frames.root : FrameId := ⟨0⟩

/-- A thread that moved, as it was before. -/
structure Sighting where
  who : ThreadId
  thread : Thread

/-- The thread was about to evaluate a node. -/
def Sighting.evaluates (site : NodeId) (seen : Sighting) : Bool :=
  match seen.thread.control with
  | .eval node => node = site
  | _ => false

theorem Sighting.evaluates_iff {site : NodeId} {seen : Sighting} :
    seen.evaluates site = true ↔ seen.thread.control = .eval site := by
  unfold evaluates
  split
  · next node control => simp [control]
  · next other => exact ⟨nofun, fun control => (other _ control).elim⟩

/-- The thread of a task in a state. -/
def TaskState.thread? : TaskState → Option Thread
  | .running t => some t
  | _ => none

/-- A task fails with the fault that it ended with, or with that of a crash. -/
theorem TaskState.ofOutcome_eq_failing {outcome : Outcome} {f : Fault} :
    TaskState.ofOutcome outcome = .failing f ↔ outcome = .exit (.fault f) ∨
      ∃ message, outcome = .exit (.crash message) ∧ f = .ofCause (.taskPanicked message) := by
  rcases outcome with v | v | f' | message <;> simp [ofOutcome, eq_comm]

namespace Machine

/-- The thread with a number, while it is evaluating. -/
def thread? (m : Machine) : ThreadId → Option Thread
  | .main => some m.main
  | .task id => (m.tasks[id.index]?).bind fun task => task.state.thread?

def setTask (m : Machine) (id : TaskId) (state : TaskState) : Machine :=
  { m with tasks := m.tasks.setIfInBounds id.index ⟨id, state⟩ }

/-- Puts a thread in the place of the one with that number. -/
def setThread (m : Machine) (who : ThreadId) (t : Thread) : Machine :=
  match who with
  | .main => { m with main := t }
  | .task id => m.setTask id (.running t)

/-- The machine after a turn of one of its threads. -/
def afterTurn (m : Machine) (who : ThreadId) (turn : Turn) : Machine :=
  { m.setThread who turn.thread with world := turn.world }

/-- A task's number is its position, and the next number is free. -/
structure Numbered (m : Machine) : Prop where
  next : m.world.ledger.nextTask = m.tasks.size
  ids : ∀ (i : Nat) (task : Task), m.tasks[i]? = some task → task.id = ⟨i⟩

/-- Everything that a step of a machine can do, with the thread that was seen to move. A thread that
has to wait takes a turn that changes nothing, and so does a main program that is over. -/
inductive Next (p : Program) (m : Machine) : Option Sighting → Machine → Prop
  | idle : Next p m none m
  | turn (who : ThreadId) (t : Thread) (found : m.thread? who = some t) (silent : t.launch? = none)
      (going : who = .main ∨ t.outcome? = none) :
      Next p m (some ⟨who, t⟩) (m.afterTurn who ((t.inside m.world).step p who))
  | launch (who : ThreadId) (t rest : Thread) (job : Control) (found : m.thread? who = some t)
      (launches : t.launch? = some (job, rest)) :
      Next p m (some ⟨who, t⟩) ((m.setThread who rest).submit rest.env job).2
  | start (id : TaskId) (env : Env) (job : Control)
      (found : m.tasks[id.index]? = some ⟨id, .submitted env job⟩) :
      Next p m none (m.setTask id (.running (.start env job)))
  | finished (id : TaskId) (t : Thread) (outcome : Outcome) (found : m.thread? (.task id) = some t)
      (ended : t.outcome? = some outcome) :
      Next p m (some ⟨.task id, t⟩) (m.setTask id (.ofOutcome outcome))
  | record (id : TaskId) (f : Fault) (found : m.tasks[id.index]? = some ⟨id, .failing f⟩) :
      Next p m none
        { m.setTask id .ending with
          world.ledger := m.world.ledger.recordFailure id f }
  | release (id : TaskId) (found : m.tasks[id.index]? = some ⟨id, .ending⟩) :
      Next p m none { m.setTask id .ended with world.ledger := m.world.ledger.release }

theorem thread?_task {m : Machine} {id : TaskId} {t : Thread}
    (found : m.thread? (.task id) = some t) :
    ∃ task, m.tasks[id.index]? = some ⟨task, .running t⟩ := by
  obtain ⟨⟨task, state⟩, at_, running⟩ := Option.bind_eq_some_iff.mp found
  cases state <;> cases running
  exact ⟨task, at_⟩

theorem thread?_of_found {m : Machine} {id : TaskId} {task : Task}
    (found : m.tasks[id.index]? = some task) : m.thread? (.task id) = task.state.thread? := by
  simp only [thread?, found, Option.bind_some]

/-- A task whose evaluation is over has no thread any more. -/
theorem thread?_ofOutcome (outcome : Outcome) : (TaskState.ofOutcome outcome).thread? = none := by
  rcases outcome with v | e
  · rfl
  · cases e <;> rfl

theorem Numbered.found {m : Machine} (h : m.Numbered) {id : TaskId} {t : Thread}
    (found : m.thread? (.task id) = some t) :
    m.tasks[id.index]? = some ⟨id, .running t⟩ := by
  obtain ⟨task, at_⟩ := thread?_task found
  rw [at_, show task = id from h.ids _ _ at_]

theorem next_stepMain (p : Program) (m : Machine) :
    Next p m (some ⟨.main, m.main⟩) (m.stepMain p) := by
  obtain ⟨world, main, tasks⟩ := m
  simp only [stepMain]
  split
  · next job rest launches => exact .launch .main main rest job rfl launches
  · next silent => exact .turn .main main rfl silent (.inl rfl)

/-- A change of a task that is there is a write. -/
theorem modify_found {tasks : Array Task} {i : Nat} {task : Task} (change : Task → Task)
    (found : tasks[i]? = some task) : tasks.modify i change = tasks.setIfInBounds i (change task) := by
  apply Array.ext_getElem?
  intro j
  rw [Array.getElem?_modify, Array.getElem?_setIfInBounds]
  obtain ⟨inside, rfl⟩ := Array.getElem?_eq_some_iff.mp found
  by_cases here : i = j
  · subst here
    simp [inside]
  · simp [here]

/-- A task that is not there is not started. -/
theorem startTask_of_missing {m : Machine} {i : Nat} (missing : m.tasks[i]? = none) : m.startTask i = m := by
  have same : ∀ change : Task → Task, m.tasks.modify i change = m.tasks := by
    intro change
    apply Array.ext_getElem?
    intro j
    rw [Array.getElem?_modify]
    split
    · next here =>
      subst here
      rw [missing]
      rfl
    · rfl
  rw [startTask, same]

theorem next_startTask {p : Program} {m : Machine} (h : m.Numbered) (i : Nat) :
    Next p m none (m.startTask i) := by
  cases found : m.tasks[i]? with
  | none =>
    rw [startTask_of_missing found]
    exact .idle
  | some task =>
    obtain ⟨id, state⟩ := task
    obtain rfl : id = ⟨i⟩ := h.ids _ _ found
    simp only [startTask, modify_found _ found]
    cases state with
    | submitted env job => exact .start ⟨i⟩ env job found
    | _ =>
      rw [setIfInBounds_found found]
      exact .idle

/-- The thread that is seen to move when a task takes a step. -/
def sight (m : Machine) (who : ThreadId) : Option Sighting := (m.thread? who).map fun t => ⟨who, t⟩

theorem next_stepTask (p : Program) {m : Machine} (h : m.Numbered) (i : Nat) :
    Next p m (m.sight (.task ⟨i⟩)) (m.stepTask p i) := by
  have named := h.ids i
  obtain ⟨world, main, tasks⟩ := m
  simp only [stepTask]
  split
  · next missing =>
    simp only [sight, thread?, missing]
    exact .idle
  · next id state found =>
    obtain rfl : id = ⟨i⟩ := named _ found
    cases state with
    | submitted env job =>
      simp only [sight, thread?, found]
      exact .idle
    | ended =>
      simp only [sight, thread?, found]
      exact .idle
    | failing f =>
      simp only [sight, thread?, found]
      exact .record ⟨i⟩ f found
    | ending =>
      simp only [sight, thread?, found]
      exact .release ⟨i⟩ found
    | running t =>
      have here : (⟨world, main, tasks⟩ : Machine).thread? (.task ⟨i⟩) = some t := by
        simp only [thread?, found]
        rfl
      simp only [sight, here]
      split
      · next outcome ended => exact .finished ⟨i⟩ t outcome here ended
      · next going =>
        split
        · next job rest launches => exact .launch (.task ⟨i⟩) t rest job here launches
        · next silent => exact .turn (.task ⟨i⟩) t here silent (.inr going)

/-! ### Numbers -/

@[simp] theorem tasks_setTask (m : Machine) (id : TaskId) (state : TaskState) :
    (m.setTask id state).tasks = m.tasks.setIfInBounds id.index ⟨id, state⟩ := rfl

@[simp] theorem world_setTask (m : Machine) (id : TaskId) (state : TaskState) :
    (m.setTask id state).world = m.world := rfl

@[simp] theorem main_setTask (m : Machine) (id : TaskId) (state : TaskState) :
    (m.setTask id state).main = m.main := rfl

@[simp] theorem world_setThread (m : Machine) (who : ThreadId) (t : Thread) :
    (m.setThread who t).world = m.world := by
  cases who <;> rfl

@[simp] theorem size_setThread (m : Machine) (who : ThreadId) (t : Thread) :
    (m.setThread who t).tasks.size = m.tasks.size := by
  cases who <;> simp [setThread]

theorem Numbered.setTask {m : Machine} (h : m.Numbered) (id : TaskId) (state : TaskState) :
    (m.setTask id state).Numbered := by
  refine ⟨by simpa using h.next, fun i task found => ?_⟩
  rw [tasks_setTask, Array.getElem?_setIfInBounds] at found
  split at found
  · next same =>
    split at found
    · cases found
      rw [← same]
    · cases found
  · exact h.ids i task found

theorem Numbered.setThread {m : Machine} (h : m.Numbered) (who : ThreadId) (t : Thread) :
    (m.setThread who t).Numbered := by
  cases who with
  | main => exact ⟨h.next, h.ids⟩
  | task id => exact h.setTask id _

/-- Whoever keeps the next number and the tasks keeps the numbering. -/
theorem Numbered.of_world {m : Machine} (h : m.Numbered) {world : World}
    (next : world.ledger.nextTask = m.world.ledger.nextTask) :
    { m with world := world }.Numbered :=
  ⟨next.trans h.next, h.ids⟩

theorem Numbered.submit {m : Machine} (h : m.Numbered) (env : Env) (job : Control) :
    (m.submit env job).2.Numbered := by
  refine ⟨by simp [Machine.submit, Ledger.register, h.next], fun i task found => ?_⟩
  simp only [Machine.submit, Ledger.register, Array.getElem?_push] at found
  split at found
  · next last =>
    cases found
    rw [h.next, last]
  · exact h.ids i task found

theorem Next.numbered {p : Program} {m m' : Machine} {seen : Option Sighting}
    (next : Next p m seen m') (h : m.Numbered) : m'.Numbered := by
  cases next with
  | idle => exact h
  | turn who t found silent going =>
    refine (h.setThread who _).of_world ?_
    rw [(Turn.step_moves p who _).keeps.1, world_setThread]
    rfl
  | launch who t rest job found launches => exact (h.setThread who rest).submit rest.env job
  | start id env job found => exact h.setTask id _
  | finished id t outcome found ended => exact h.setTask id _
  | record id f found => exact (h.setTask id _).of_world rfl
  | release id found => exact (h.setTask id _).of_world rfl

theorem Next.seen {p : Program} {m m' : Machine} {sighting : Sighting}
    (next : Next p m (some sighting) m') : m.thread? sighting.who = some sighting.thread := by
  cases next with
  | turn who t found | launch who t rest job found | finished id t outcome found => exact found

/-! ### Threads after a step -/

theorem thread?_setTask {m : Machine} {id : TaskId} {task : Task}
    (found : m.tasks[id.index]? = some task) (state : TaskState) :
    (m.setTask id state).thread? = Function.update m.thread? (.task id) state.thread? := by
  funext who
  rw [Function.update_apply]
  cases who with
  | main => rfl
  | task other =>
    obtain ⟨i⟩ := id
    obtain ⟨j⟩ := other
    obtain ⟨inside, _⟩ := Array.getElem?_eq_some_iff.mp found
    simp only [thread?, tasks_setTask, Array.getElem?_setIfInBounds, ThreadId.task.injEq,
      TaskId.mk.injEq]
    by_cases same : j = i
    · subst same
      simp only [inside, if_true]
      cases state <;> rfl
    · simp only [same, Ne.symm same, if_false]

theorem thread?_setThread {m : Machine} {who : ThreadId} {t : Thread}
    (found : m.thread? who = some t) (t' : Thread) :
    (m.setThread who t').thread? = Function.update m.thread? who (some t') := by
  cases who with
  | main =>
    funext other
    rw [Function.update_apply]
    cases other <;> rfl
  | task id =>
    obtain ⟨task, at_⟩ := thread?_task found
    exact thread?_setTask at_ (.running t')

theorem thread?_afterTurn {m : Machine} {who : ThreadId} {t : Thread}
    (found : m.thread? who = some t) (turn : Turn) :
    (m.afterTurn who turn).thread? = Function.update m.thread? who (some turn.thread) := by
  rw [← thread?_setThread found turn.thread]
  funext other
  cases other <;> rfl

@[simp] theorem thread?_submit (m : Machine) (env : Env) (job : Control) :
    (m.submit env job).2.thread? = m.thread? := by
  funext who
  cases who with
  | main => rfl
  | task id =>
    simp only [thread?, Machine.submit, Array.getElem?_push]
    by_cases last : id.index = m.tasks.size <;> simp [last, TaskState.thread?]

/-- A task waits to be started. -/
def Waits (m : Machine) (id : TaskId) (env : Env) (job : Control) : Prop :=
  m.tasks[id.index]? = some ⟨id, .submitted env job⟩

theorem Waits.of_setTask {m : Machine} {id other : TaskId} (state : TaskState) {env : Env}
    {job : Control} (waits : (m.setTask id state).Waits other env job)
    (started : ∀ env job, state ≠ .submitted env job) : m.Waits other env job := by
  unfold Waits at waits
  rw [tasks_setTask, Array.getElem?_setIfInBounds] at waits
  split at waits
  · split at waits
    · cases waits
      exact absurd rfl (started env job)
    · cases waits
  · exact waits

theorem Waits.of_setThread {m : Machine} {who : ThreadId} {t : Thread} {other : TaskId} {env : Env}
    {job : Control} (waits : (m.setThread who t).Waits other env job) : m.Waits other env job := by
  cases who with
  | main => exact waits
  | task id => exact Waits.of_setTask _ waits (by simp)

/-- Whoever waits after a step has waited before, or has been launched by the step. -/
theorem Next.waits {p : Program} {m m' : Machine} {seen : Option Sighting}
    (next : Next p m seen m') {id : TaskId} {env : Env} {job : Control}
    (waits : m'.Waits id env job) :
    m.Waits id env job ∨ ∃ who t rest, m.thread? who = some t ∧ t.launch? = some (job, rest) ∧
      env = rest.env ∧ seen = some ⟨who, t⟩ ∧ id.index = m.tasks.size := by
  cases next with
  | idle => exact .inl waits
  | turn who t found silent going => exact .inl (Waits.of_setThread (t := Turn.thread _) waits)
  | launch who t rest job' found launches =>
    simp only [Waits, Machine.submit, Ledger.register, Array.getElem?_push] at waits
    split at waits
    · next last =>
      cases waits
      exact .inr ⟨who, t, rest, found, launches, rfl, rfl, last.trans (size_setThread m who rest)⟩
    · exact .inl (Waits.of_setThread waits)
  | start id' env' job' found => exact .inl (Waits.of_setTask _ waits (by simp))
  | finished id' t outcome found ended =>
    refine .inl (Waits.of_setTask _ waits fun env job same => ?_)
    rcases outcome with v | e <;> first | cases same | (cases e <;> cases same)
  | record id' f found => exact .inl (Waits.of_setTask .ending waits (by simp))
  | release id' found => exact .inl (Waits.of_setTask .ended waits (by simp))

theorem launch?_eq_some {t rest : Thread} {job : Control} (launches : t.launch? = some (job, rest)) :
    ∃ jobs, t.control = .submit (job :: jobs) ∧ rest = { t with control := .submit jobs } := by
  obtain ⟨env, control, stack⟩ := t
  cases control with
  | submit pending =>
    cases pending with
    | nil => cases launches
    | cons first jobs =>
      cases launches
      exact ⟨jobs, rfl, rfl⟩
  | _ => cases launches

/-- What holds of every thread before a step holds of every thread after it, if the one that moves or
begins keeps it. -/
theorem Next.forall_threads {p : Program} {m m' : Machine} {seen : Option Sighting}
    {holds : ThreadId → Thread → Prop} (next : Next p m seen m')
    (before : ∀ who t, m.thread? who = some t → holds who t)
    (turn : ∀ who t, m.thread? who = some t → seen = some ⟨who, t⟩ →
      m' = m.afterTurn who ((t.inside m.world).step p who) →
      holds who ((t.inside m.world).step p who).thread)
    (launch : ∀ who t rest job, m.thread? who = some t → t.launch? = some (job, rest) → holds who rest)
    (start : ∀ id env job, m.Waits id env job → holds (.task id) (.start env job)) :
    ∀ who t, m'.thread? who = some t → holds who t := by
  have put : ∀ {who : ThreadId} {t? : Option Thread}, (∀ t, t? = some t → holds who t) →
      ∀ other t, Function.update m.thread? who t? other = some t → holds other t := by
    intro who t? ofNew other t found
    rw [Function.update_apply] at found
    split at found
    · next same => exact same ▸ ofNew t found
    · exact before other t found
  cases next with
  | idle => exact before
  | turn who t found silent going =>
    rw [thread?_afterTurn found]
    refine put fun t' same => ?_
    cases same
    exact turn who t found rfl rfl
  | launch who t rest job found launches =>
    rw [thread?_submit, thread?_setThread found]
    refine put fun t' same => ?_
    cases same
    exact launch who t rest job found launches
  | start id env job found =>
    rw [thread?_setTask found]
    refine put fun t' same => ?_
    cases same
    exact start id env job found
  | finished id t outcome found ended =>
    obtain ⟨task, at_⟩ := thread?_task found
    rw [thread?_setTask at_, thread?_ofOutcome]
    exact put fun t' same => by cases same
  | record id f found =>
    show ∀ who t, (m.setTask id .ending).thread? who = some t → _
    rw [thread?_setTask found]
    exact put fun t' same => by cases same
  | release id found =>
    show ∀ who t, (m.setTask id .ended).thread? who = some t → _
    rw [thread?_setTask found]
    exact put fun t' same => by cases same

/-- Every thread has a property, and so will every task that waits to be started. -/
structure Each (holds : Thread → Prop) (m : Machine) : Prop where
  threads : ∀ who t, m.thread? who = some t → holds t
  jobs : ∀ id env job, m.Waits id env job → holds (.start env job)

/-- A property that is kept by whoever moves, and passed on by whoever launches, is kept by all. -/
theorem Each.next {p : Program} {m m' : Machine} {seen : Option Sighting} {holds : Thread → Prop}
    (each : m.Each holds) (next : Next p m seen m')
    (turn : ∀ who t, m.thread? who = some t → holds t → holds ((t.inside m.world).step p who).thread)
    (launch : ∀ t rest job, holds t → t.launch? = some (job, rest) →
      holds rest ∧ holds (.start rest.env job)) : m'.Each holds := by
  refine ⟨?_, ?_⟩
  · apply next.forall_threads each.threads
    · intro who t found _ _
      exact turn who t found (each.threads who t found)
    · intro who t rest job found launches
      exact (launch t rest job (each.threads who t found) launches).1
    · exact each.jobs
  · intro id env job waits
    obtain waited | ⟨who, t, rest, found, launches, rfl, -⟩ := next.waits waits
    · exact each.jobs id env job waited
    · exact (launch t rest job (each.threads who t found) launches).2

/-! ### Failures -/

/-- A task that fails after a step has failed before it, or has just ended. -/
theorem Next.failing {p : Program} {m m' : Machine} {seen : Option Sighting} (next : Next p m seen m')
    {i : Nat} {id : TaskId} {f : Fault} (failing : m'.tasks[i]? = some ⟨id, .failing f⟩) :
    m.tasks[i]? = some ⟨id, .failing f⟩ ∨ ∃ who t outcome, m.thread? who = some t ∧
      t.outcome? = some outcome ∧ TaskState.ofOutcome outcome = .failing f := by
  have put : ∀ {at_ : TaskId} {state : TaskState},
      (m.setTask at_ state).tasks[i]? = some ⟨id, .failing f⟩ →
      m.tasks[i]? = some ⟨id, .failing f⟩ ∨ state = .failing f := by
    intro at_ state found
    rw [tasks_setTask, Array.getElem?_setIfInBounds] at found
    split at found
    · split at found
      · cases found
        exact .inr rfl
      · cases found
    · exact .inl found
  have put' : ∀ {who : ThreadId} {t : Thread},
      (m.setThread who t).tasks[i]? = some ⟨id, .failing f⟩ →
      m.tasks[i]? = some ⟨id, .failing f⟩ := by
    intro who t found
    cases who with
    | main => exact found
    | task at_ => exact (put found).resolve_right (by simp)
  cases next with
  | idle => exact .inl failing
  | turn who t found silent going => exact .inl (put' (t := Turn.thread _) failing)
  | launch who t rest job found launches =>
    simp only [submit, Array.getElem?_push] at failing
    split at failing
    · cases failing
    · exact .inl (put' failing)
  | start id' env job found => exact .inl ((put failing).resolve_right (by simp))
  | finished id' t outcome found ended =>
    refine (put failing).imp_right fun same => ?_
    exact ⟨_, t, outcome, found, ended, same⟩
  | record id' f' found => exact .inl ((put failing).resolve_right (by simp))
  | release id' found => exact .inl ((put failing).resolve_right (by simp))

/-- A failure that is recorded after a step was recorded before it, or its task was failing. -/
theorem Next.recorded {p : Program} {m m' : Machine} {seen : Option Sighting} (next : Next p m seen m')
    {failure : TaskFailure} (recorded : failure ∈ m'.world.ledger.failures) :
    failure ∈ m.world.ledger.failures ∨
      m.tasks[failure.task.index]? = some ⟨failure.task, .failing failure.fault⟩ := by
  cases next with
  | turn who t found silent going =>
    have same := (Turn.step_moves p who (t.inside m.world)).keeps.1
    exact .inl (same ▸ recorded)
  | launch who t rest job found launches =>
    have recorded : failure ∈ (m.setThread who rest).world.ledger.failures := recorded
    exact .inl (world_setThread m who rest ▸ recorded)
  | record id f found =>
    rcases Array.mem_push.mp recorded with before | rfl
    · exact .inl before
    · exact .inr found
  | _ => exact .inl recorded

/-! ### The root frame -/

/-- Every thread has the frame that was made first for its root frame. -/
structure Rooted (p : Program) (m : Machine) : Prop where
  threads : ∀ who t, m.thread? who = some t → t.env.root = Frames.root
  jobs : ∀ id env job, m.Waits id env job → env.root = Frames.root
  scope : m.world.frames.scope? Frames.root = some p.attrs.rootScope

theorem Next.frames {p : Program} {m m' : Machine} {seen : Option Sighting}
    (next : Next p m seen m') : m.world.frames.Grows m'.world.frames := by
  cases next with
  | turn who t found silent going =>
    exact (Turn.step_moves p who (t.inside m.world)).keeps.2.2
  | launch who t rest job found launches =>
    show m.world.frames.Grows (m.setThread who rest).world.frames
    rw [world_setThread]
    exact .refl _
  | _ => exact .refl _

theorem Next.rooted {p : Program} {m m' : Machine} {seen : Option Sighting}
    (next : Next p m seen m') (h : m.Rooted p) : m'.Rooted p := by
  obtain ⟨threads, jobs, scope⟩ := h
  have launch : ∀ who t rest job, m.thread? who = some t → t.launch? = some (job, rest) →
      rest.env.root = Frames.root := by
    intro who t rest job found launches
    obtain ⟨_, -, rfl⟩ := launch?_eq_some launches
    exact threads who t found
  refine ⟨next.forall_threads threads ?_ launch ?_, fun id env job waits => ?_,
    next.frames.scope? scope⟩
  · intro who t found _ _
    exact (Turn.step_moves p who (t.inside m.world)).keeps.2.1.trans (threads who t found)
  · exact fun id env job waits => jobs id env job waits
  · obtain waited | ⟨who, t, rest, found, launches, rfl, -⟩ := next.waits waits
    · exact jobs id env job waited
    · exact launch who t rest job found launches

end Machine

/-! ## 2. Runs -/

/-- Who acts next. -/
inductive Move where
  /-- The main program takes a step. -/
  | main
  /-- A worker starts a task. -/
  | start (i : Nat)
  /-- A task takes a step. -/
  | task (i : Nat)
  /-- The drain looks at the pending count. -/
  | look
  /-- The drain's time is over. -/
  | giveUp
  /-- The drain closes the run and comes back. -/
  | close
  /-- The host takes the failures. -/
  | report
deriving DecidableEq, Repr

/-- How far the host has come: it evaluates the main program, drains, and takes the failures. -/
inductive Phase where
  | evaluating
  /-- The drain knows its answer and has still to close the run. -/
  | drained (status : DrainStatus)
  | closed (status : DrainStatus)
  | reported (status : DrainStatus) (failures : List TaskFailure)
deriving DecidableEq, Repr

namespace Phase

/-- The answer of the drain. -/
def status? : Phase → Option DrainStatus
  | evaluating => none
  | drained status | closed status | reported status _ => some status

/-- The failures that the host has taken. -/
def taken : Phase → List TaskFailure
  | reported _ failures => failures
  | _ => []

end Phase

/-- A run: the machine, the host, and the threads that were seen to move, the latest first. -/
structure Run where
  machine : Machine
  phase : Phase
  history : List Sighting

/-- A fault that ends a thread of a run: of the main program, or of a task, whether its end is still to
come, or recorded, or taken by the host. -/
inductive Run.Fails (r : Run) (f : Fault) : Prop
  | thread (who : ThreadId) (t : Thread) (found : r.machine.thread? who = some t)
    (ends : t.outcome? = some (.exit (.fault f)))
  | failing (i : Nat) (id : TaskId) (task : r.machine.tasks[i]? = some ⟨id, .failing f⟩)
  | recorded (id : TaskId) (failure : ⟨id, f⟩ ∈ r.machine.world.ledger.failures)
  | taken (id : TaskId) (failure : ⟨id, f⟩ ∈ r.phase.taken)

/-- The statements that a program runs. -/
def Program.rootStatements (p : Program) : List NodeId :=
  match p.kind p.root with
  | .ok (.root statements) => statements
  | _ => []

/-- Whether a thread is over, and not by a crash. -/
def Thread.isDone (t : Thread) : Bool :=
  match t.outcome? with
  | none | some (.exit (.crash _)) => false
  | some _ => true

namespace Run

/-- A run that has just begun: the constants are bound, and the main program stands before its
first statement. -/
def initial (p : Program) (c : RunConfig) : Run :=
  let s := (Session.start p c).bindConstants.setMain (.give .void) [.statements p.rootStatements]
  ⟨s.pool.machine, .evaluating, []⟩

/-- The thread that a move is a step of. -/
def mover? (r : Run) : Move → Option Sighting
  | .main => if r.phase = .evaluating then some ⟨.main, r.machine.main⟩ else none
  | .task i => r.machine.sight (.task ⟨i⟩)
  | _ => none

/-- The run after a move. The host drains when the main program is over; a crash of it ends the host. -/
def move (p : Program) (c : RunConfig) (r : Run) (move : Move) : Run :=
  let history := (r.mover? move).toList ++ r.history
  match move with
  | .main =>
    if r.phase = .evaluating then { r with machine := r.machine.stepMain p, history } else r
  | .start i => { r with machine := r.machine.startTask i }
  | .task i => { r with machine := r.machine.stepTask p i, history }
  | .look =>
    if r.phase = .evaluating ∧ r.machine.main.isDone ∧ r.machine.world.ledger.pending = 0 then
      { r with phase := .drained .complete }
    else r
  | .giveUp =>
    let pending := r.machine.world.ledger.pending
    if r.phase = .evaluating ∧ r.machine.main.isDone ∧ pending ≠ 0 ∧ c.drainTimeout.isSome then
      { r with phase := .drained (.incomplete pending) }
    else r
  | .close =>
    match r.phase with
    | .drained status =>
      { r with
        machine.world.ledger := r.machine.world.ledger.close
        phase := .closed status }
    | _ => r
  | .report =>
    match r.phase with
    | .closed status =>
      let (failures, ledger) := r.machine.world.ledger.takeFailures
      { r with machine.world.ledger := ledger, phase := .reported status failures }
    | _ => r

/-- The run after a list of moves. -/
def play (p : Program) (c : RunConfig) (r : Run) (moves : List Move) : Run :=
  moves.foldl (move p c) r

@[simp] theorem play_nil (p : Program) (c : RunConfig) (r : Run) : r.play p c [] = r := rfl

@[simp] theorem play_cons (p : Program) (c : RunConfig) (r : Run) (first : Move)
    (moves : List Move) : r.play p c (first :: moves) = (r.move p c first).play p c moves := rfl

theorem play_append (p : Program) (c : RunConfig) (r : Run) (before after : List Move) :
    r.play p c (before ++ after) = (r.play p c before).play p c after :=
  List.foldl_append ..

theorem history_move (p : Program) (c : RunConfig) (r : Run) (first : Move) :
    (r.move p c first).history = (r.mover? first).toList ++ r.history := by
  cases first with
  | start i | task i => rfl
  | main | look | giveUp | close | report =>
    simp only [move, mover?]
    split <;> rfl

/-- Everything that a move of a run can do. -/
inductive Next (p : Program) (c : RunConfig) (r : Run) : Run → Prop
  | same : Next p c r r
  | step (seen : Option Sighting) (machine : Machine) (next : Machine.Next p r.machine seen machine)
      (here : r.phase = .evaluating ∨ ∀ t, seen ≠ some ⟨.main, t⟩) :
      Next p c r ⟨machine, r.phase, seen.toList ++ r.history⟩
  | look (waits : r.phase = .evaluating) (finished : r.machine.main.isDone)
      (idle : r.machine.world.ledger.pending = 0) : Next p c r { r with phase := .drained .complete }
  | giveUp (waits : r.phase = .evaluating) (finished : r.machine.main.isDone)
      (busy : r.machine.world.ledger.pending ≠ 0) (limited : c.drainTimeout.isSome) :
      Next p c r
        { r with phase := .drained (.incomplete r.machine.world.ledger.pending) }
  | close (status : DrainStatus) (drained : r.phase = .drained status) :
      Next p c r
        { r with
          machine.world.ledger := r.machine.world.ledger.close
          phase := .closed status }
  | report (status : DrainStatus) (closed : r.phase = .closed status) :
      Next p c r
        { r with
          machine.world.ledger := r.machine.world.ledger.takeFailures.2
          phase := .reported status r.machine.world.ledger.takeFailures.1 }

theorem next_move (p : Program) (c : RunConfig) {r : Run} (h : r.machine.Numbered) (first : Move) :
    Next p c r (r.move p c first) := by
  cases first with
  | main =>
    simp only [move, mover?]
    split
    · next here => exact .step _ _ (Machine.next_stepMain p r.machine) (.inl here)
    · exact .same
  | start i =>
    exact .step none _ (Machine.next_startTask h i) (.inr (by simp))
  | task i =>
    refine .step _ _ (Machine.next_stepTask p h i) (.inr fun t seen => ?_)
    simp only [mover?, Machine.sight, Option.map_eq_some_iff] at seen
    obtain ⟨t', -, same⟩ := seen
    cases same
  | look =>
    simp only [move]
    split
    · next h => exact .look h.1 h.2.1 h.2.2
    · exact .same
  | giveUp =>
    simp only [move]
    split
    · next h => exact .giveUp h.1 h.2.1 h.2.2.1 h.2.2.2
    · exact .same
  | close =>
    simp only [move]
    split
    · next status drained => exact .close status drained
    · exact .same
  | report =>
    simp only [move]
    split
    · next status closed => exact .report status closed
    · exact .same

/-- A move is a step of the machine that shows who moves, or changes nothing there but the ledger. -/
theorem machine_move (p : Program) (c : RunConfig) {r : Run} (h : r.machine.Numbered) (first : Move) :
    Machine.Next p r.machine (r.mover? first) (r.move p c first).machine ∨
      r.mover? first = none ∧ ∃ ledger,
        (r.move p c first).machine = { r.machine with world.ledger := ledger } := by
  cases first with
  | main =>
    simp only [move, mover?]
    split
    · exact .inl (Machine.next_stepMain p r.machine)
    · exact .inl .idle
  | start i => exact .inl (Machine.next_startTask h i)
  | task i => exact .inl (Machine.next_stepTask p h i)
  | look | giveUp =>
    simp only [move]
    split <;> exact .inl .idle
  | close =>
    simp only [move]
    split
    · exact .inr ⟨rfl, r.machine.world.ledger.close, rfl⟩
    · exact .inl .idle
  | report =>
    simp only [move]
    split
    · exact .inr ⟨rfl, r.machine.world.ledger.takeFailures.2, rfl⟩
    · exact .inl .idle

theorem Next.numbered {p : Program} {c : RunConfig} {r r' : Run} (next : Next p c r r')
    (h : r.machine.Numbered) : r'.machine.Numbered := by
  cases next with
  | same | look | giveUp => exact h
  | step seen machine next here => exact next.numbered h
  | close | report => exact h.of_world rfl

/-- The constants are bound in the frames; nothing else is touched. -/
theorem pool_bindConstants (s : Session) :
    ∃ frames, s.world.frames.Grows frames ∧
      s.bindConstants.pool = { s.pool with machine.world.frames := frames } := by
  unfold Session.bindConstants
  generalize [("true", Value.bool true), ("false", .bool false), ("null", .null)] = constants
  induction constants generalizing s with
  | nil => exact ⟨_, .refl _, rfl⟩
  | cons constant constants ih =>
    obtain ⟨text, v⟩ := constant
    rw [List.foldl_cons]
    cases mentioned : s.program.interner.find? text with
    | none =>
      simp only [mentioned]
      exact ih s
    | some name =>
      simp only [mentioned]
      obtain ⟨frames, grows, bound⟩ := ih (s.define s.env.root name v)
      refine ⟨frames, ?_, bound⟩
      exact (Frames.grows_define s.world.frames s.env.root name v).trans grows

/-- Before the first move there are the frames and the main program, and nothing else. -/
theorem machine_initial (p : Program) (c : RunConfig) :
    ∃ frames, frames.scope? Frames.root = some p.attrs.rootScope ∧
      (initial p c).machine =
        ⟨{ World.new c.printer with frames },
          ⟨⟨Frames.root, Frames.root⟩, .give .void, [.statements p.rootStatements]⟩, #[]⟩ := by
  obtain ⟨frames, grows, bound⟩ := pool_bindConstants (Session.start p c)
  refine ⟨frames, grows.scope? rfl, ?_⟩
  unfold initial Session.setMain Session.env
  rw [bound]
  rfl

theorem numbered_initial (p : Program) (c : RunConfig) : (initial p c).machine.Numbered := by
  obtain ⟨frames, -, begun⟩ := machine_initial p c
  rw [begun]
  refine ⟨rfl, fun i task found => ?_⟩
  simp at found

theorem rooted_initial (p : Program) (c : RunConfig) : (initial p c).machine.Rooted p := by
  obtain ⟨frames, scope, begun⟩ := machine_initial p c
  rw [begun]
  refine ⟨fun who t found => ?_, fun id env job waits => ?_, scope⟩
  · cases who <;> cases found
    rfl
  · cases waits

theorem Next.rooted {p : Program} {c : RunConfig} {r r' : Run} (next : Next p c r r')
    (h : r.machine.Rooted p) : r'.machine.Rooted p := by
  cases next with
  | same | look | giveUp => exact h
  | step seen machine next here => exact next.rooted h
  | close | report => exact ⟨h.threads, h.jobs, h.scope⟩

/-- What holds of a numbered run and is kept by every move holds after any moves. -/
theorem play_induction {p : Program} {c : RunConfig} {holds : Run → Prop} {r : Run}
    (numbered : r.machine.Numbered) (start : holds r)
    (kept : ∀ r r', r.machine.Numbered → holds r → Next p c r r' → holds r') (moves : List Move) :
    (r.play p c moves).machine.Numbered ∧ holds (r.play p c moves) := by
  induction moves generalizing r with
  | nil => exact ⟨numbered, start⟩
  | cons first moves ih =>
    have next := next_move p c numbered first
    exact ih (next.numbered numbered) (kept r _ numbered start next)

/-- What holds at the beginning and is kept by every move holds in every run. -/
theorem holds_play {p : Program} {c : RunConfig} (holds : Run → Prop) (start : holds (initial p c))
    (kept : ∀ r r', r.machine.Numbered → holds r → Next p c r r' → holds r') (moves : List Move) :
    holds ((initial p c).play p c moves) :=
  (play_induction (numbered_initial p c) start kept moves).2

theorem numbered_play (p : Program) (c : RunConfig) (moves : List Move) :
    ((initial p c).play p c moves).machine.Numbered :=
  (play_induction (numbered_initial p c) trivial (fun _ _ _ (_ : True) _ => trivial) moves).1

end Run

end Strand
