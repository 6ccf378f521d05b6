import Mathlib.Data.List.Nodup
import Mathlib.Data.List.Perm.Basic
import Strand.Proofs.Pool

/-!
# The accounts of a run

The ledger counts the tasks that have not ended, and keeps the failures until the host takes them.
Both are kept up to date in several steps, and any other step may come in between: a task is counted
when it is launched, an ending task first records its failure and then stops counting, and the host
looks at the count, closes the run and takes the failures one after the other.

`Run.Balanced` is the invariant. It balances what the ledger says against the tasks and against the
endings that were seen along the way. A task that has failed and not recorded its failure is on the
ledger's side of the balance, so recording moves an entry from one place to the other. Once a drain
has found nobody pending there is nobody left who could move, and the accounts stay as they are.
-/

set_option autoImplicit false

namespace Strand

/-! ## 1. What is counted -/

/-- Whether a task counts as pending: its guard has not run yet. -/
def Task.isPending (task : Task) : Bool :=
  match task.state with
  | .ended => false
  | _ => true

/-- The number of a task whose evaluation is over. -/
def Task.overId? (task : Task) : Option TaskId :=
  match task.state with
  | .submitted .. | .running _ => none
  | .failing _ | .ending | .ended => some task.id

/-- The failure that a task has still to record. -/
def Task.unrecorded? (task : Task) : Option TaskFailure :=
  match task.state with
  | .failing f => some ⟨task.id, f⟩
  | _ => none

/-- The fault that an outcome leaves behind: a crash counts as one of its own kind. -/
def Outcome.failure? : Outcome → Option Fault
  | .value _ | .exit (.ret _) => none
  | .exit (.fault f) => some f
  | .exit (.crash message) => some (.ofCause (.taskPanicked message))

/-- How a task's evaluation ended, if that was seen. -/
def Sighting.ending? (s : Sighting) : Option (TaskId × Outcome) :=
  match s.who with
  | .main => none
  | .task id => s.thread.outcome?.map fun outcome => (id, outcome)

namespace Run

/-- The endings of tasks that were seen, the latest first. -/
def endings (r : Run) : List (TaskId × Outcome) := r.history.filterMap Sighting.ending?

end Run

/-- The entry for an ending, if it is a failure. -/
def failureOf (ending : TaskId × Outcome) : Option TaskFailure :=
  ending.2.failure?.map fun f => ⟨ending.1, f⟩

/-! ## 2. One task changes -/

namespace Machine

/-- A task that changes its state stays where it is among the others. -/
theorem split_setTask {m : Machine} {id : TaskId} {old : TaskState}
    (found : m.tasks[id.index]? = some ⟨id, old⟩) :
    ∃ before after, m.tasks.toList = before ++ ⟨id, old⟩ :: after ∧
      ∀ new, (m.setTask id new).tasks.toList = before ++ ⟨id, new⟩ :: after := by
  have found : m.tasks.toList[id.index]? = some ⟨id, old⟩ := by simpa using found
  obtain ⟨inside, here⟩ := List.getElem?_eq_some_iff.mp found
  refine ⟨m.tasks.toList.take id.index, m.tasks.toList.drop (id.index + 1), ?_, fun new => ?_⟩
  · rw [← here, List.getElem_cons_drop inside, List.take_append_drop]
  · rw [tasks_setTask, Array.toList_setIfInBounds, List.set_eq_take_append_cons_drop, if_pos inside]

end Machine

/-! ## 3. The balance -/

/-- The books of a ledger on some tasks, against the endings seen and the failures taken. -/
structure Balanced (l : Ledger) (tasks : List Task) (endings : List (TaskId × Outcome))
    (taken : List TaskFailure) : Prop where
  pending : l.pending = tasks.countP Task.isPending
  finished : (endings.map Prod.fst).Perm (tasks.filterMap Task.overId?)
  failures : (endings.filterMap failureOf).Perm
    (taken ++ (l.failures.toList ++ tasks.filterMap Task.unrecorded?))

namespace Balanced

variable {l : Ledger} {before after : List Task} {id : TaskId} {endings : List (TaskId × Outcome)}
  {taken : List TaskFailure}

/-- A task that changes nothing of what is counted leaves the balance. -/
theorem running {old new : TaskState}
    (h : Balanced l (before ++ ⟨id, old⟩ :: after) endings taken)
    (pending : Task.isPending ⟨id, new⟩ = Task.isPending ⟨id, old⟩)
    (finished : Task.overId? ⟨id, new⟩ = Task.overId? ⟨id, old⟩)
    (unrecorded : Task.unrecorded? ⟨id, new⟩ = Task.unrecorded? ⟨id, old⟩) :
    Balanced l (before ++ ⟨id, new⟩ :: after) endings taken := by
  obtain ⟨hp, ho, hf⟩ := h
  simp only [List.filterMap_append, List.filterMap_cons, List.countP_append, List.countP_cons]
    at hp ho hf
  refine ⟨?_, ?_, ?_⟩ <;>
    simp only [List.filterMap_append, List.filterMap_cons, List.countP_append, List.countP_cons,
      pending, finished, unrecorded]
  · exact hp
  · exact ho
  · exact hf

/-- A launched task is counted at once. -/
theorem submit {tasks : List Task} (h : Balanced l tasks endings taken) (env : Env) (job : Control) :
    Balanced l.register.2 (tasks ++ [⟨l.register.1, .submitted env job⟩]) endings taken := by
  refine ⟨?_, ?_, ?_⟩
  · rw [List.countP_append, ← h.pending]
    rfl
  · simpa [List.filterMap_cons, Task.overId?] using h.finished
  · simpa [List.filterMap_cons, Task.unrecorded?, Ledger.register] using h.failures

/-- The ending of an evaluation is booked on both sides. -/
theorem ofOutcome {t : Thread} (outcome : Outcome)
    (h : Balanced l (before ++ ⟨id, .running t⟩ :: after) endings taken) :
    Balanced l (before ++ ⟨id, .ofOutcome outcome⟩ :: after) ((id, outcome) :: endings) taken := by
  obtain ⟨hp, ho, hf⟩ := h
  have pending : Task.isPending ⟨id, .ofOutcome outcome⟩ = true := by
    rcases outcome with v | e <;> first | rfl | (cases e <;> rfl)
  have finished : Task.overId? ⟨id, .ofOutcome outcome⟩ = some id := by
    rcases outcome with v | e <;> first | rfl | (cases e <;> rfl)
  have unrecorded : Task.unrecorded? ⟨id, .ofOutcome outcome⟩ = failureOf (id, outcome) := by
    rcases outcome with v | e <;> first | rfl | (cases e <;> rfl)
  refine ⟨?_, ?_, ?_⟩
  · rw [hp, List.countP_append, List.countP_append, List.countP_cons, List.countP_cons, pending]
    rfl
  · rw [List.filterMap_append, List.filterMap_cons, finished]
    rw [List.filterMap_append] at ho
    exact (ho.cons id).trans List.perm_middle.symm
  · rw [List.filterMap_append] at hf ⊢
    rw [List.filterMap_cons (l := endings), List.filterMap_cons (l := after), unrecorded]
    cases failureOf (id, outcome) with
    | none => exact hf
    | some failure =>
      refine (hf.cons failure).trans ?_
      rw [← List.append_assoc, ← List.append_assoc, ← List.append_assoc, ← List.append_assoc]
      exact List.perm_middle.symm

/-- Recording moves a failure from the task to the ledger. -/
theorem record {f : Fault} (h : Balanced l (before ++ ⟨id, .failing f⟩ :: after) endings taken) :
    Balanced (l.recordFailure id f) (before ++ ⟨id, .ending⟩ :: after) endings taken := by
  obtain ⟨hp, ho, hf⟩ := h
  refine ⟨?_, ?_, ?_⟩
  · simpa [List.countP_cons, Task.isPending, Ledger.recordFailure] using hp
  · simpa [List.filterMap_cons, Task.overId?] using ho
  · refine hf.trans (List.Perm.append_left taken ?_)
    simp only [Ledger.recordFailure, Array.toList_push, List.filterMap_append, List.filterMap_cons,
      Task.unrecorded?, List.append_assoc]
    exact List.Perm.append_left _ List.perm_middle

/-- A task that is still counted is there to be released, so the count does not run below zero. -/
theorem pos (h : Balanced l (before ++ ⟨id, .ending⟩ :: after) endings taken) : 0 < l.pending := by
  rw [h.pending, List.countP_append, List.countP_cons]
  simp only [Task.isPending, if_true]
  omega

theorem release (h : Balanced l (before ++ ⟨id, .ending⟩ :: after) endings taken) :
    Balanced l.release (before ++ ⟨id, .ended⟩ :: after) endings taken := by
  obtain ⟨hp, ho, hf⟩ := h
  refine ⟨?_, ?_, ?_⟩
  · have count : l.pending - 1 =
        before.countP Task.isPending + after.countP Task.isPending := by
      rw [hp, List.countP_append, List.countP_cons]
      simp only [Task.isPending, if_true]
      omega
    simpa [List.countP_cons, Task.isPending, Ledger.release] using count
  · simpa [List.filterMap_cons, Task.overId?] using ho
  · simpa [List.filterMap_cons, Task.unrecorded?, Ledger.release] using hf

/-- Nobody pending: every task has ended. -/
theorem ended {tasks : List Task} (h : Balanced l tasks endings taken) (idle : l.pending = 0) :
    ∀ task ∈ tasks, task.state = .ended := by
  intro task member
  have none : task.isPending = false := by
    have := List.countP_eq_zero.mp (h.pending.symm.trans idle) task member
    simpa using this
  obtain ⟨id, state⟩ := task
  cases state <;> first | rfl | cases none

end Balanced

/-! ## 4. The balance of a run -/

namespace Run

/-- What the ledger of a run says is right, and a drain has said the truth. -/
structure Accounts (c : RunConfig) (r : Run) : Prop where
  balanced : Balanced r.machine.world.ledger r.machine.tasks.toList r.endings r.phase.taken
  complete : r.phase.status? = some .complete → r.machine.world.ledger.pending = 0
  incomplete : ∀ pending, r.phase.status? = some (.incomplete pending) →
    c.drainTimeout.isSome ∧ 0 < pending
  emptied : ∀ failures, r.phase = .reported .complete failures →
    r.machine.world.ledger.failures = #[]

theorem accounts_initial (p : Program) (c : RunConfig) : Accounts c (initial p c) := by
  obtain ⟨frames, -, begun⟩ := machine_initial p c
  refine ⟨?_, fun h => (by cases h), fun n h => (by cases h), fun fs h => (by cases h)⟩
  show Balanced (initial p c).machine.world.ledger (initial p c).machine.tasks.toList [] []
  rw [begun]
  exact ⟨rfl, .nil, .nil⟩

/-- A step of a machine keeps the balance, whoever takes it. -/
theorem balanced_next {p : Program} {m m' : Machine} {seen : Option Sighting}
    {history : List Sighting} {taken : List TaskFailure} (numbered : m.Numbered)
    (h : Balanced m.world.ledger m.tasks.toList (history.filterMap Sighting.ending?) taken)
    (next : Machine.Next p m seen m') :
    Balanced m'.world.ledger m'.tasks.toList
      ((seen.toList ++ history).filterMap Sighting.ending?) taken := by
  cases next with
  | idle => exact h
  | turn who t found silent going =>
    have same := (Turn.step_moves p who (t.inside m.world)).keeps.1
    show Balanced ((t.inside m.world).step p who).world.ledger _ _ _
    rw [same]
    cases who with
    | main => exact h
    | task id =>
      obtain ⟨before, after, split, changed⟩ := Machine.split_setTask (numbered.found found)
      have unseen : Sighting.ending? ⟨.task id, t⟩ = none := by
        rcases going with main | going
        · cases main
        · simp only [Sighting.ending?, going, Option.map_none]
      show Balanced m.world.ledger (m.setTask id _).tasks.toList _ _
      rw [Option.toList_some, List.singleton_append, List.filterMap_cons, unseen, changed]
      rw [split] at h
      exact h.running rfl rfl rfl
  | launch who t rest job found launches =>
    have unseen : Sighting.ending? ⟨who, t⟩ = none := by
      cases who with
      | main => rfl
      | task id =>
        have going : t.outcome? = none := by
          obtain ⟨env, control, stack⟩ := t
          cases control <;> first | rfl | cases launches
        simp only [Sighting.ending?, going, Option.map_none]
    rw [Option.toList_some, List.singleton_append, List.filterMap_cons, unseen]
    have replaced : Balanced m.world.ledger (m.setThread who rest).tasks.toList
        (history.filterMap Sighting.ending?) taken := by
      cases who with
      | main => exact h
      | task id =>
        obtain ⟨before, after, split, changed⟩ := Machine.split_setTask (numbered.found found)
        rw [Machine.setThread, changed]
        rw [split] at h
        exact h.running rfl rfl rfl
    have submitted := replaced.submit rest.env job
    simp only [Machine.submit, Machine.world_setThread, Array.toList_push]
    exact submitted
  | start id env job found =>
    obtain ⟨before, after, split, changed⟩ := Machine.split_setTask found
    rw [changed]
    rw [split] at h
    exact h.running rfl rfl rfl
  | finished id t outcome found ended =>
    obtain ⟨before, after, split, changed⟩ := Machine.split_setTask (numbered.found found)
    have ending : Sighting.ending? ⟨.task id, t⟩ = some (id, outcome) := by
      simp only [Sighting.ending?, ended, Option.map_some]
    rw [Option.toList_some, List.singleton_append, List.filterMap_cons, ending, changed]
    rw [split] at h
    exact h.ofOutcome outcome
  | record id f found =>
    obtain ⟨before, after, split, changed⟩ := Machine.split_setTask found
    show Balanced (m.world.ledger.recordFailure id f) (m.setTask id .ending).tasks.toList _ _
    rw [changed]
    rw [split] at h
    exact h.record
  | release id found =>
    obtain ⟨before, after, split, changed⟩ := Machine.split_setTask found
    show Balanced m.world.ledger.release (m.setTask id .ended).tasks.toList _ _
    rw [changed]
    rw [split] at h
    exact h.release

/-- Where nobody is pending, a step that is not the main program's changes nothing. -/
theorem idle_of_pending {p : Program} {m m' : Machine} {seen : Option Sighting}
    {endings : List (TaskId × Outcome)} {taken : List TaskFailure} (numbered : m.Numbered)
    (h : Balanced m.world.ledger m.tasks.toList endings taken) (idle : m.world.ledger.pending = 0)
    (next : Machine.Next p m seen m') (notMain : ∀ t, seen ≠ some ⟨.main, t⟩) : m' = m := by
  have finished : ∀ {id : TaskId} {state : TaskState},
      m.tasks[id.index]? = some ⟨id, state⟩ → state = .ended := fun found =>
    h.ended idle _ (Array.mem_toList_iff.mpr (Array.mem_of_getElem? found))
  have running : ∀ {who : ThreadId} {t : Thread}, m.thread? who = some t → who = .main := by
    intro who t found
    cases who with
    | main => rfl
    | task id => cases finished (numbered.found found)
  cases next with
  | idle => rfl
  | turn who t found silent going =>
    obtain rfl := running found
    exact absurd rfl (notMain t)
  | launch who t rest job found launches =>
    obtain rfl := running found
    exact absurd rfl (notMain t)
  | start id env job found => cases finished found
  | finished id t outcome found ended => cases running found
  | record id f found => cases finished found
  | release id found => cases finished found

theorem accounts_next {p : Program} {c : RunConfig} {r r' : Run} (numbered : r.machine.Numbered)
    (h : Accounts c r) (next : Next p c r r') : Accounts c r' := by
  obtain ⟨balanced, complete, incomplete, emptied⟩ := h
  cases next with
  | same => exact ⟨balanced, complete, incomplete, emptied⟩
  | step seen machine next here =>
    -- once a drain has found nobody pending, a step is the main program's, which is over
    have still : r.phase.status? = some .complete → machine = r.machine := by
      intro answered
      rcases here with evaluating | notMain
      · rw [evaluating] at answered
        cases answered
      · exact idle_of_pending numbered balanced (complete answered) next notMain
    refine ⟨balanced_next numbered balanced next, fun answered => ?_, incomplete,
      fun failures reported => ?_⟩
    · rw [still answered]
      exact complete answered
    · have answered : r.phase.status? = some .complete := by
        rw [show r.phase = _ from reported]
        rfl
      rw [still answered]
      exact emptied failures reported
  | look waits finished idle =>
    refine ⟨?_, fun _ => idle, fun n h => (by cases h), fun fs h => (by cases h)⟩
    rwa [waits] at balanced
  | giveUp waits finished busy limited =>
    refine ⟨?_, fun h => (by cases h), fun n h => ?_, fun fs h => (by cases h)⟩
    · rwa [waits] at balanced
    · cases h
      exact ⟨limited, Nat.pos_of_ne_zero busy⟩
  | close status drained =>
    rw [drained] at balanced complete incomplete
    exact ⟨⟨balanced.pending, balanced.finished, balanced.failures⟩, complete, incomplete,
      fun fs h => (by cases h)⟩
  | report status closed =>
    rw [closed] at balanced complete incomplete
    exact ⟨⟨balanced.pending, balanced.finished, balanced.failures⟩, complete, incomplete,
      fun fs h => rfl⟩

theorem accounts_play (p : Program) (c : RunConfig) (moves : List Move) :
    Accounts c ((initial p c).play p c moves) :=
  holds_play (Accounts c) (accounts_initial p c) (fun _ _ numbered h next => accounts_next numbered h next) moves

/-! ## 5. What a drain may be trusted with -/

/-- A run whose tasks have all ended, with one failure for each of those that failed. -/
structure Settled (r : Run) (failures : List TaskFailure) : Prop where
  ended : ∀ task ∈ r.machine.tasks, task.state = .ended
  outcome : ∀ task ∈ r.machine.tasks, ∃! outcome, (task.id, outcome) ∈ r.endings
  once : (failures.map TaskFailure.task).Nodup
  listed : ∀ id f, ⟨id, f⟩ ∈ failures ↔
    ∃ outcome, (id, outcome) ∈ r.endings ∧ outcome.failure? = some f

end Run

theorem Machine.Numbered.nodup {m : Machine} (h : m.Numbered) :
    (m.tasks.toList.map Task.id).Nodup := by
  rw [List.nodup_iff_getElem?_ne_getElem?]
  intro i j less inside same
  rw [List.length_map] at inside
  have at_ : ∀ k, k < m.tasks.toList.length → (m.tasks.toList.map Task.id)[k]? = some ⟨k⟩ := by
    intro k inside
    have found : m.tasks[k]? = some m.tasks.toList[k] := by simp
    rw [List.getElem?_map, List.getElem?_eq_getElem inside, Option.map_some, h.ids k _ found]
  rw [at_ i (Nat.lt_trans less inside), at_ j inside] at same
  cases same
  exact absurd less (Nat.lt_irrefl i)

theorem mem_failures {endings : List (TaskId × Outcome)} {id : TaskId} {f : Fault} :
    ⟨id, f⟩ ∈ endings.filterMap failureOf ↔
      ∃ outcome, (id, outcome) ∈ endings ∧ outcome.failure? = some f := by
  simp only [List.mem_filterMap, failureOf, Option.map_eq_some_iff, Prod.exists]
  constructor
  · rintro ⟨id', outcome, member, f', failed, same⟩
    cases same
    exact ⟨outcome, member, failed⟩
  · rintro ⟨outcome, member, failed⟩
    exact ⟨id, outcome, member, f, failed, rfl⟩

/-- The tasks that are over are some of the tasks. -/
theorem overIds_sublist (tasks : List Task) :
    (tasks.filterMap Task.overId?).Sublist (tasks.map Task.id) := by
  induction tasks with
  | nil => exact .slnil
  | cons task tasks ih =>
    rw [List.filterMap_cons, List.map_cons]
    cases ended : task.overId? with
    | none => exact ih.cons _
    | some id =>
      have same : id = task.id := by
        unfold Task.overId? at ended
        split at ended <;> cases ended <;> rfl
      rw [same]
      exact ih.cons_cons _

/-- Failures are filed under the number of the task that ended. -/
theorem failures_sublist (endings : List (TaskId × Outcome)) :
    ((endings.filterMap failureOf).map TaskFailure.task).Sublist (endings.map Prod.fst) := by
  induction endings with
  | nil => exact .slnil
  | cons ending endings ih =>
    rw [List.filterMap_cons, List.map_cons]
    cases failed : failureOf ending with
    | none => exact ih.cons _
    | some failure =>
      have same : failure.task = ending.1 := by
        obtain ⟨f, -, rfl⟩ := Option.map_eq_some_iff.mp failed
        rfl
      rw [List.map_cons, same]
      exact ih.cons_cons _

namespace Run

/-- No task was seen to end twice. -/
theorem Accounts.ends_once {c : RunConfig} {r : Run} (h : Accounts c r) (numbered : r.machine.Numbered) :
    (r.endings.map Prod.fst).Nodup :=
  h.balanced.finished.nodup_iff.mpr ((overIds_sublist _).nodup numbered.nodup)

/-- A failure that is on file, or was taken, is that of an ending that was seen. -/
theorem Accounts.filed {c : RunConfig} {r : Run} (h : Accounts c r) {id : TaskId} {f : Fault}
    (filed : ⟨id, f⟩ ∈ r.phase.taken ++ r.machine.world.ledger.failures.toList) :
    ∃ outcome, (id, outcome) ∈ r.endings ∧ outcome.failure? = some f := by
  apply mem_failures.mp
  rw [h.balanced.failures.mem_iff, ← List.append_assoc]
  exact List.mem_append_left _ filed

/-- A task that was seen to end without a failure has none on file, and the host has taken none of it. -/
theorem Accounts.unfailing {c : RunConfig} {r : Run} (h : Accounts c r) (numbered : r.machine.Numbered)
    {id : TaskId} {outcome : Outcome} (ended : (id, outcome) ∈ r.endings)
    (fine : outcome.failure? = none) (f : Fault) :
    ⟨id, f⟩ ∉ r.phase.taken ++ r.machine.world.ledger.failures.toList := by
  intro filed
  obtain ⟨other, also, failed⟩ := h.filed filed
  have same := congrArg Prod.snd (List.inj_on_of_nodup_map (h.ends_once numbered) also ended rfl)
  obtain rfl : other = outcome := same
  cases failed.symm.trans fine

theorem Accounts.settled {c : RunConfig} {r : Run} (h : Accounts c r) (numbered : r.machine.Numbered)
    {failures : List TaskFailure} (reported : r.phase = .reported .complete failures) :
    r.Settled failures := by
  have idle := h.complete (by rw [reported]; rfl)
  have ended : ∀ task ∈ r.machine.tasks.toList, task.state = .ended := h.balanced.ended idle
  have ids : r.machine.tasks.toList.filterMap Task.overId? = r.machine.tasks.toList.map Task.id := by
    rw [← List.filterMap_eq_map]
    refine List.filterMap_congr fun task member => ?_
    simp only [Task.overId?, ended task member, Function.comp_apply]
  have finished : (r.endings.map Prod.fst).Perm (r.machine.tasks.toList.map Task.id) :=
    ids ▸ h.balanced.finished
  have none : r.machine.tasks.toList.filterMap Task.unrecorded? = [] := by
    rw [List.filterMap_eq_nil_iff]
    intro task member
    simp only [Task.unrecorded?, ended task member]
  have filed : (r.endings.filterMap failureOf).Perm failures := by
    have filed := h.balanced.failures
    rw [h.emptied failures reported, none, reported] at filed
    simpa [Phase.taken] using filed
  have once := h.ends_once numbered
  refine ⟨fun task member => ended task member.val, fun task member => ?_, ?_, fun id f => ?_⟩
  · have member : task.id ∈ r.endings.map Prod.fst :=
      finished.mem_iff.mpr (List.mem_map_of_mem member.val)
    obtain ⟨⟨id, outcome⟩, member, same⟩ := List.mem_map.mp member
    obtain rfl : id = task.id := same
    refine ⟨outcome, member, fun other also => ?_⟩
    have := List.inj_on_of_nodup_map once also member rfl
    exact congrArg Prod.snd this
  · exact (filed.map _).nodup_iff.mp ((failures_sublist r.endings).nodup once)
  · rw [← filed.mem_iff]
    exact mem_failures

/-- Every interleaving keeps the accounts. The pending count is exact and never runs below zero, every
number that was given out has its own task, a drain that finds nobody pending finds every task ended
and every failure recorded once, and a drain gives up only on somebody and only with a timeout. What
a session reports is one such run. -/
theorem drain_is_right (p : Program) (c : RunConfig) :
    (∀ moves,
      let r := (initial p c).play p c moves
      r.machine.world.ledger.pending = r.machine.tasks.countP Task.isPending ∧
      (∀ task ∈ r.machine.tasks, task.isPending → 0 < r.machine.world.ledger.pending) ∧
      r.machine.world.ledger.nextTask = r.machine.tasks.size ∧
      (r.machine.tasks.toList.map Task.id).Nodup ∧
      (r.phase.status? = some .complete → ∀ task ∈ r.machine.tasks, task.state = .ended) ∧
      (∀ failures, r.phase = .reported .complete failures → r.Settled failures) ∧
      ∀ pending, r.phase.status? = some (.incomplete pending) →
        c.drainTimeout.isSome ∧ 0 < pending) ∧
    ∀ report s, Session.run p c = (.report report, s) →
      ∃ moves, ((initial p c).play p c moves).machine = s.pool.machine ∧
        ((initial p c).play p c moves).phase = .reported report.drain report.failures := by
  refine ⟨fun moves => ?_, fun report s reported => run_is_played reported⟩
  have numbered := (play_induction (p := p) (c := c) (numbered_initial p c) trivial
    (fun _ _ _ _ _ => trivial) moves).1
  have accounts := accounts_play p c moves
  have exact_ : _ = Array.countP Task.isPending _ :=
    accounts.balanced.pending.trans Array.countP_toList
  refine ⟨exact_, fun task member pending => ?_, numbered.next, numbered.nodup,
    fun complete task member => ?_, fun failures reported => accounts.settled numbered reported, accounts.incomplete⟩
  · rw [exact_]
    exact Array.countP_pos_iff.mpr ⟨task, member, pending⟩
  · exact accounts.balanced.ended (accounts.complete complete) task member.val

end Run

end Strand
