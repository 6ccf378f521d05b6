import Strand.Proofs.Scope.Launched

/-!
# What a launch delivers

The variable of a launched declaration is written twice, by two threads. The first write comes before
the task is submitted, and so before the second one, however the threads take their steps. What carries
this is that the declaration is due exactly once in a frame: by the statement that launches it, then by
the task, and when the call has ended, by nobody (`LaunchedVariable.Known`).
-/

set_option autoImplicit false

namespace Strand

/-! ## 1. Tasks that have begun -/

namespace Machine

variable {p : Program} {context : NodeId → Context} {rules : Rules} {m m' : Machine}
  {chosen : NodeId → Bool} {f : FrameId}

/-- All that is known of the machine of a run. -/
structure Orderly (p : Program) (context : NodeId → Context) (rules : Rules) (m : Machine) : Prop where
  made : p.Made context rules
  numbered : m.Numbered
  anchored : m.Anchored p
  placed : m.Placed (p.scoping context rules.inPlace)
  sound : m.Sound p

theorem Orderly.turn (h : m.Orderly p context rules) {who : ThreadId} {t : Thread}
    (found : m.thread? who = some t) : (t.inside m.world).Orderly p context rules :=
  ⟨h.made, h.anchored.threads who t found, ⟨h.placed.frames, h.placed.threads who t found⟩,
    h.sound.threads who t found⟩

/-- What a task has still to do with is a part of what all have. -/
theorem dueCount_le_of_waits (chosen : NodeId → Bool) (f : FrameId) {id : TaskId} {env : Env}
    {job : Control} (waits : m.Waits id env job) :
    (Thread.start env job).dueCount chosen f ≤ m.dueCount chosen f := by
  have changes := dueCount_setTask chosen f waits .ended
  have none : TaskState.dueCount chosen f .ended = 0 := rfl
  have same : TaskState.dueCount chosen f (.submitted env job) =
    (Thread.start env job).dueCount chosen f := rfl
  omega

/-- What two threads have still to do with is a part of what all have. -/
theorem dueCount_add_le (chosen : NodeId → Bool) (f : FrameId) (numbered : m.Numbered)
    {who other : ThreadId} {t u : Thread} (found : m.thread? who = some t)
    (found' : m.thread? other = some u) (differ : other ≠ who) :
    t.dueCount chosen f + u.dueCount chosen f ≤ m.dueCount chosen f := by
  have changes := dueCount_setThread chosen f numbered found
    (.start t.env (.give .void))
  have none : (Thread.start t.env (.give .void)).dueCount chosen f = 0 :=
    Nat.add_eq_zero_iff.mpr ⟨counted_nil .., rfl⟩
  have kept : (m.setThread who (.start t.env (.give .void))).thread? other = some u := by
    rw [thread?_setThread found, Function.update_of_ne differ, found']
  have part := dueCount_le chosen f (numbered.setThread who _) kept
  omega

/-- A task that does not wait to be started any more. -/
def Begun (m : Machine) (id : TaskId) : Prop :=
  ∃ task, m.tasks[id.index]? = some task ∧ ∀ env job, task.state ≠ .submitted env job

theorem Begun.setTask {id : TaskId} (begun : m.Begun id) (other : TaskId) (state : TaskState)
    (started : ∀ env job, state ≠ .submitted env job) : (m.setTask other state).Begun id := by
  obtain ⟨task, found, begun⟩ := begun
  obtain ⟨inside, -⟩ := Array.getElem?_eq_some_iff.mp found
  unfold Begun
  rw [tasks_setTask, Array.getElem?_setIfInBounds]
  split
  · next same =>
    rw [if_pos (same ▸ inside)]
    exact ⟨_, rfl, started⟩
  · exact ⟨task, found, begun⟩

theorem Begun.next {id : TaskId} (begun : m.Begun id) {seen : Option Sighting}
    (next : Next p m seen m') : m'.Begun id := by
  have thread : ∀ who (t : Thread), (m.setThread who t).Begun id := by
    intro who t
    cases who with
    | main => exact begun
    | task other => exact begun.setTask other (.running t) (by simp)
  cases next with
  | idle => exact begun
  | turn who t found silent going => exact thread who _
  | launch who t rest job found launches =>
    obtain ⟨task, found, begun⟩ := thread who rest
    obtain ⟨inside, -⟩ := Array.getElem?_eq_some_iff.mp found
    refine ⟨task, ?_, begun⟩
    simp only [submit]
    rw [Array.getElem?_push_lt inside, ← found, Array.getElem?_eq_getElem inside]
  | start other env job found => exact begun.setTask other _ (by simp)
  | finished other t outcome found ended =>
    refine begun.setTask other _ fun env job => ?_
    rcases outcome with v | e
    · simp [TaskState.ofOutcome]
    · cases e <;> simp [TaskState.ofOutcome]
  | record other fault found => exact begun.setTask other .ending (by simp)
  | release other found => exact begun.setTask other .ended (by simp)

/-- A thread that evaluates a node takes a turn. -/
theorem Next.turned {who : ThreadId} {t : Thread} {n : NodeId} (next : Next p m (some ⟨who, t⟩) m')
    (evaluates : t.control = .eval n) : m' = m.afterTurn who ((t.inside m.world).step p who) := by
  cases next with
  | turn => rfl
  | launch who t rest job found launches =>
    obtain ⟨jobs, submits, -⟩ := launch?_eq_some launches
    cases submits.symm.trans evaluates
  | finished id t outcome found ended =>
    obtain ⟨-, ⟨v, gives, -⟩ | ⟨e, leaves, -⟩⟩ := Thread.outcome?_eq_some ended
    · cases gives.symm.trans evaluates
    · cases leaves.symm.trans evaluates

theorem begun_of_thread? (numbered : m.Numbered) {id : TaskId} {t : Thread}
    (found : m.thread? (.task id) = some t) : m.Begun id :=
  ⟨_, numbered.found found, nofun⟩

end Machine

/-! ## 2. Machines -/

namespace LaunchedVariable

variable {p : Program} (x : LaunchedVariable p) {context : NodeId → Context} {rules : Rules}
  {m m' : Machine} {history : List Sighting} {seen : Option Sighting} {f : FrameId}

theorem callOutcomes_cons (sighting : Sighting) : x.callOutcomes f (sighting :: history) =
    (x.callOutcome? f sighting).toList ++ x.callOutcomes f history := by
  rw [callOutcomes, List.filterMap_cons]
  cases x.callOutcome? f sighting <;> rfl

/-- Only a thread that takes a turn comes back from a call. -/
theorem callOutcome?_of_submits {who : ThreadId} {t : Thread} {jobs : List Control}
    (submits : t.control = .submit jobs) : x.callOutcome? f ⟨who, t⟩ = none := by
  cases ends : x.callOutcome? f ⟨who, t⟩ with
  | none => rfl
  | some o =>
    obtain ⟨-, -, -, -, -, ⟨v, gives, -⟩ | ⟨e, leaves, -⟩⟩ := x.callOutcome?_eq_some ends
    · cases submits.symm.trans gives
    · cases submits.symm.trans leaves

theorem callOutcome?_of_outcome {who : ThreadId} {t : Thread} {outcome : Outcome}
    (ended : t.outcome? = some outcome) : x.callOutcome? f ⟨who, t⟩ = none := by
  cases ends : x.callOutcome? f ⟨who, t⟩ with
  | none => rfl
  | some o =>
    obtain ⟨-, name, -, waits, -⟩ := x.callOutcome?_eq_some ends
    cases (Thread.outcome?_eq_some ended).1.symm.trans waits

/-- When a task has come back, it is the one that had still to do with the declaration. -/
theorem dueCount_of_callOutcome {who : ThreadId} {t : Thread} {o : Outcome}
    (ends : x.callOutcome? f ⟨who, t⟩ = some o) : 0 < t.dueCount x.concerns f := by
  obtain ⟨id, name, -, waits, here, -⟩ := x.callOutcome?_eq_some ends
  exact x.dueCount_of_waits waits here

/-- When its value or an exit has come back, the thread is over. -/
theorem dueCount_after {w : World} {t : Thread} {name : Name}
    (orderly : (t.inside w).Orderly p context rules) (who : ThreadId)
    (waits : t.stack = [.declaration x.declaration name]) (hands : t.control.Hands) (f : FrameId) :
    ((t.inside w).step p who).thread.dueCount x.concerns f = 0 := by
  obtain ⟨env, control, stack⟩ := t
  subst waits
  cases control with
  | give v =>
    rw [(x.step_store orderly who rfl rfl).2]
    exact Nat.add_eq_zero_iff.mpr ⟨counted_nil .., rfl⟩
  | leave e => exact Nat.add_eq_zero_iff.mpr ⟨counted_nil .., rfl⟩
  | _ => cases hands

/-- A call has ended, and nobody has to do with the declaration any more. -/
def Consumed (f : FrameId) (m : Machine) (history : List Sighting) : Prop :=
  x.callOutcomes f history ≠ [] → m.world.frames.Live f ∧ m.dueCount x.concerns f = 0

theorem Consumed.next (consumed : x.Consumed f m history) (orderly : m.Orderly p context rules)
    (one : m.dueCount x.concerns f ≤ 1) (next : Machine.Next p m seen m') :
    x.Consumed f m' (seen.toList ++ history) := by
  have later : x.callOutcomes f history ≠ [] →
      m'.world.frames.Live f ∧ m'.dueCount x.concerns f = 0 := by
    intro some
    obtain ⟨live, none⟩ := consumed some
    refine ⟨next.frames.live live, ?_⟩
    rcases next.dueCount_le (f := f) orderly.made.nodes (x.exclusive_concerns orderly.made)
      orderly.numbered orderly.anchored orderly.sound with fewer | ⟨new, -⟩
    · omega
    · exact absurd live new
  intro some
  cases seen with
  | none => exact later some
  | some sighting =>
    rw [Option.toList_some, List.singleton_append, callOutcomes_cons] at some
    cases ends : x.callOutcome? f sighting with
    | none =>
      rw [ends] at some
      exact later some
    | some o =>
      have due : 0 < sighting.thread.dueCount x.concerns f := x.dueCount_of_callOutcome ends
      have grows := next.frames
      obtain ⟨id, name, -, waits, here, ready⟩ := x.callOutcome?_eq_some ends
      cases next with
      | launch who t rest job found launches =>
        obtain ⟨jobs, submits, -⟩ := Machine.launch?_eq_some launches
        rw [x.callOutcome?_of_submits submits] at ends
        cases ends
      | finished id t outcome found ended =>
        rw [x.callOutcome?_of_outcome ended] at ends
        cases ends
      | turn who t found silent going =>
        have hands : t.control.Hands := by
          rcases ready with ⟨v, gives, -⟩ | ⟨e, leaves, -⟩
          · exact (show t.control = .give v from gives) ▸ trivial
          · exact (show t.control = .leave e from leaves) ▸ trivial
        have nothing := x.dueCount_after (orderly.turn found) who waits hands f
        have changes := Machine.dueCount_afterTurn x.concerns f orderly.numbered
          found ((t.inside m.world).step p who)
        have due : 0 < t.dueCount x.concerns f := due
        have live : m.world.frames.Live t.env.current := (orderly.anchored.threads who t found).here
        have here : t.env.current = f := here
        exact ⟨grows.live (here ▸ live), by omega⟩

/-- What is known of the variable of a frame after the statement. -/
structure Known (f : FrameId) (m : Machine) (history : List Sighting) : Prop where
  live : m.world.frames.Live f
  owns : m.world.frames.scope? f = p.attrs.scope? x.declaration
  launched : m.dueCount x.isLaunch f = 0
  stages : ∀ who t, m.thread? who = some t → 0 < t.dueCount x.concerns f → x.Stage f who t
  fate : ∃ w, m.world.frames.lookup f x.name = some w ∧ Fate x.type (x.callOutcomes f history) w

variable {x}

/-- While somebody has still to do with the declaration, no call has ended. -/
theorem Consumed.callOutcomes_eq_nil (consumed : x.Consumed f m history) (numbered : m.Numbered)
    {who : ThreadId} {t : Thread} (found : m.thread? who = some t) (due : 0 < t.dueCount x.concerns f) :
    x.callOutcomes f history = [] := by
  by_contra some
  have part := Machine.dueCount_le x.concerns f numbered found
  have none := (consumed some).2
  omega

/-- Whoever has to do with the declaration after a step had to do with it before, or is the task that was
launched for it. -/
theorem Known.stages_next (known : x.Known f m history) (orderly : m.Orderly p context rules)
    (one : m.dueCount x.concerns f ≤ 1) (next : Machine.Next p m seen m') (who : ThreadId) (t : Thread)
    (found : m'.thread? who = some t) (due : 0 < t.dueCount x.concerns f) : x.Stage f who t := by
  obtain ⟨live, -, launched, stages, -⟩ := known
  obtain ⟨made, numbered, anchored, -, sound⟩ := id orderly
  have single : ∀ {who t}, m.thread? who = some t → t.dueCount x.concerns f ≤ 1 :=
    fun found => (Machine.dueCount_le _ _ numbered found).trans one
  revert who t found due
  refine next.forall_threads stages (fun who t found _ turned due => ?_)
    (fun who t rest job found launches due => ?_) fun id env job waits due => ?_
  · subst turned
    have course := Turn.step_course p who (t.inside m.world)
    have before : 0 < t.dueCount x.concerns f := by
      rcases course.dueCount (f := f) made.nodes (x.exclusive_concerns made)
        (sound.threads who t found) (anchored.threads who t found) with fewer | ⟨new, -⟩
      · exact Nat.lt_of_lt_of_le due fewer
      · exact absurd live new
    cases stages who t found before with
    | launching who t submits here =>
      have still : (t.inside m.world).step p who = t.inside m.world := by
        simp only [Turn.step, Thread.inside, submits]
      rw [still]
      exact .launching _ _ submits here
    | task id t computes =>
      rcases computes.step m.world (.task id) with going | ⟨waits, -, hands⟩
      · exact .task id _ going
      · have spent := x.dueCount_after (orderly.turn found) (.task id) waits hands f
        omega
  · have simple := (sound.threads who t found).control
    have split := Thread.dueCount_launch x.concerns f launches simple
    have once := single found
    obtain ⟨jobs, submits, rfl⟩ := Machine.launch?_eq_some launches
    cases stages who t found (by omega) with
    | launching who t submits' here =>
      cases submits.symm.trans submits'
      have other : (Thread.start t.env (.eval x.declaration)).dueCount x.concerns f = 1 := by
        rw [← here]
        exact x.counted_declaration _
      have split : t.dueCount x.concerns f =
        (Thread.start t.env (.eval x.declaration)).dueCount x.concerns f + _ := split
      omega
    | task id t computes =>
      cases computes with
      | fresh env here => cases submits
      | running t last => exact .task id _ (.running _ last)
  · obtain ⟨⟨n, rfl⟩, -⟩ := anchored.jobs id env job waits
    obtain ⟨here, m', member, concerned⟩ := mem_of_counted_pos due
    cases List.mem_singleton.mp member
    rcases x.concerns_iff.mp concerned with rfl | launches
    · exact .task id _ (.fresh env here)
    · -- a task that is to launch the declaration again would have to be counted
      have counts := Thread.dueCount_of_eval (t := .start env (.eval n)) (x.isLaunch_iff.mpr launches)
        rfl here
      have part := Machine.dueCount_le_of_waits x.isLaunch f waits
      omega

/-- A turn in which no call ends leaves the variable as it is. -/
theorem Known.lookup_turn (known : x.Known f m history) (orderly : m.Orderly p context rules)
    (reserved : p.text x.name ∈ rules.reserved) (one : m.dueCount x.concerns f ≤ 1) {who : ThreadId}
    {t : Thread} (found : m.thread? who = some t) (ends : x.callOutcome? f ⟨who, t⟩ = none) :
    ((t.inside m.world).step p who).world.frames.lookup f x.name =
      m.world.frames.lookup f x.name := by
  obtain ⟨live, owns, launched, stages, -⟩ := known
  refine x.lookup_of_course (Turn.step_course p who (t.inside m.world)) (orderly.turn found)
    reserved live owns (fun v stack gives waits here => ?_) fun n evaluates launches here => ?_
  · have waits : t.stack = .declaration x.declaration x.name :: stack := waits
    have due := x.dueCount_of_waits waits here
    obtain ⟨id, rfl, rfl⟩ : ∃ id, who = .task id ∧ stack = [] := by
      cases stages who t found due with
      | launching who t submits here => cases submits.symm.trans gives
      | task id t computes =>
        have single := (Machine.dueCount_le x.concerns f orderly.numbered found).trans one
        exact ⟨id, rfl, computes.ends single waits here⟩
    obtain ⟨env, control, stack⟩ := t
    subst waits
    obtain rfl : control = .give v := gives
    cases (if_pos ⟨rfl, here⟩).symm.trans ends
  · have due := Thread.dueCount_of_eval launches (t := t) evaluates here
    have part := Machine.dueCount_le x.isLaunch f orderly.numbered found
    omega

/-- The variable is bound when a call ends with a value, and only then. -/
theorem Known.fate_turn (known : x.Known f m history) (orderly : m.Orderly p context rules)
    (reserved : p.text x.name ∈ rules.reserved) (one : m.dueCount x.concerns f ≤ 1)
    (consumed : x.Consumed f m history) {who : ThreadId} {t : Thread} (found : m.thread? who = some t) :
    ∃ w, ((t.inside m.world).step p who).world.frames.lookup f x.name = some w ∧
      Fate x.type (x.callOutcomes f (⟨who, t⟩ :: history)) w := by
  obtain ⟨w, bound, fate⟩ := known.fate
  rw [callOutcomes_cons]
  cases ends : x.callOutcome? f ⟨who, t⟩ with
  | none => exact ⟨w, (known.lookup_turn orderly reserved one found ends).trans bound, fate⟩
  | some o =>
    have none := consumed.callOutcomes_eq_nil orderly.numbered found (x.dueCount_of_callOutcome ends)
    rw [none] at fate ⊢
    cases fate
    obtain ⟨id, name, -, waits, here, ⟨v, gives, rfl⟩ | ⟨e, leaves, rfl⟩⟩ := x.callOutcome?_eq_some ends
    · refine ⟨_, ?_, .stored v⟩
      have stepped := (x.step_store (orderly.turn found) who gives waits).2
      have here : (t.inside m.world).env.current = f := here
      rw [stepped, here, Frames.lookup_define, if_pos ⟨rfl, rfl, known.live⟩]
    · refine ⟨_, ?_, .lost e⟩
      have leaves : t.control = .leave e := leaves
      have waits : t.stack = [.declaration x.declaration name] := waits
      rw [← bound]
      simp only [Turn.step, Thread.inside, leaves, waits]
      rfl

/-- A step of the machine keeps what is known of the variable. -/
theorem Known.next (known : x.Known f m history) (orderly : m.Orderly p context rules)
    (reserved : p.text x.name ∈ rules.reserved) (one : m.dueCount x.concerns f ≤ 1)
    (consumed : x.Consumed f m history) (next : Machine.Next p m seen m') :
    x.Known f m' (seen.toList ++ history) := by
  obtain ⟨w, bound, fate⟩ := known.fate
  have unlaunched : m'.dueCount x.isLaunch f = 0 := by
    rcases next.dueCount_le (f := f) orderly.made.nodes (x.exclusive_isLaunch orderly.made)
      orderly.numbered orderly.anchored orderly.sound with fewer | ⟨new, -⟩
    · exact Nat.eq_zero_of_le_zero (fewer.trans known.launched.le)
    · exact absurd known.live new
  obtain ⟨scope, here, -⟩ := x.scope_declaration orderly.made
  refine ⟨next.frames.live known.live, (next.frames.scope? (known.owns.trans here)).trans here.symm,
    unlaunched, known.stages_next orderly one next, ?_⟩
  cases next with
  | idle | start | record | release => exact ⟨w, bound, fate⟩
  | launch who t rest job found launches =>
    obtain ⟨jobs, submits, -⟩ := Machine.launch?_eq_some launches
    refine ⟨w, ?_, ?_⟩
    · have same : (m.setThread who rest).world = m.world := Machine.world_setThread m who rest
      exact (congrArg (·.frames.lookup f x.name) same).trans bound
    · rw [Option.toList_some, List.singleton_append, callOutcomes_cons,
        x.callOutcome?_of_submits submits]
      exact fate
  | finished id t outcome found ended =>
    refine ⟨w, bound, ?_⟩
    rw [Option.toList_some, List.singleton_append, callOutcomes_cons, x.callOutcome?_of_outcome ended]
    exact fate
  | turn who t found silent going => exact known.fate_turn orderly reserved one consumed found

/-- Once a call has ended, no other ends. -/
theorem Consumed.same (consumed : x.Consumed f m history) (numbered : m.Numbered)
    (next : Machine.Next p m seen m') (some : x.callOutcomes f history ≠ []) :
    x.callOutcomes f (seen.toList ++ history) = x.callOutcomes f history := by
  cases seen with
  | none => rfl
  | some sighting =>
    rw [Option.toList_some, List.singleton_append, callOutcomes_cons]
    cases ends : x.callOutcome? f sighting with
    | none => rfl
    | some o =>
      have due : 0 < sighting.thread.dueCount x.concerns f := x.dueCount_of_callOutcome ends
      exact absurd (consumed.callOutcomes_eq_nil numbered next.seen due) some

/-- A task ends as its call has ended, but for the value. -/
inductive Agrees : Outcome → List Outcome → Prop
  | value (v w : Value) : Agrees (.value w) [.value v]
  | exit (e : Exit) : Agrees (.exit e) [.exit e]

variable (x) in
/-- How a task stands that has been started for the variable of a frame, and was seen since. -/
structure Follows (f : FrameId) (m : Machine) (history : List Sighting) (id : TaskId)
    (since : List Sighting) : Prop where
  begun : m.Begun id
  now : ∀ t, m.thread? (.task id) = some t → x.Computes f t ∨
    ∃ o, t.outcome? = some o ∧ Agrees o (x.callOutcomes f history)
  seen : ∀ t o, ⟨.task id, t⟩ ∈ since → t.outcome? = some o → Agrees o (x.callOutcomes f history)

theorem Agrees.ne_nil {o : Outcome} {outcomes : List Outcome} (agrees : Agrees o outcomes) :
    outcomes ≠ [] := by
  cases agrees <;> exact List.cons_ne_nil _ _

theorem Computes.outcome? {t : Thread} (computes : x.Computes f t) : t.outcome? = none := by
  cases ended : t.outcome? with
  | none => rfl
  | some o =>
    obtain ⟨none, ready⟩ := Thread.outcome?_eq_some ended
    cases computes with
    | fresh env here => rcases ready with ⟨v, gives, -⟩ | ⟨e, leaves, -⟩ <;> contradiction
    | running t last =>
      rw [none] at last
      cases last

/-- A thread that is over stays as it is. -/
theorem step_of_outcome? {t : Thread} {o : Outcome} (ended : t.outcome? = some o) (w : World)
    (who : ThreadId) : (t.inside w).step p who = t.inside w := by
  obtain ⟨none, ⟨v, gives, -⟩ | ⟨e, leaves, -⟩⟩ := Thread.outcome?_eq_some ended
  · simp only [Turn.step, Thread.inside, gives, none]
  · simp only [Turn.step, Thread.inside, leaves, none]

/-- When a task has its value or an exit for the declaration, that is what it ends with. -/
theorem agrees_of_ends {t : Thread} {w : World} (orderly : (t.inside w).Orderly p context rules)
    (id : TaskId)
    (waits : t.stack = [.declaration x.declaration x.name]) (here : t.env.current = f)
    (hands : t.control.Hands) :
    ∃ o, ((t.inside w).step p (.task id)).thread.outcome? = some o ∧
      Agrees o (x.callOutcome? f ⟨.task id, t⟩).toList := by
  obtain ⟨env, control, stack⟩ := t
  subst waits
  have ends : x.callOutcome? f ⟨.task id, env, control, [.declaration x.declaration x.name]⟩ =
    Thread.outcome? ⟨env, control, []⟩ := if_pos ⟨rfl, here⟩
  rw [ends]
  cases control with
  | give v =>
    rw [(x.step_store orderly (.task id) rfl rfl).2]
    exact ⟨_, rfl, .value v .void⟩
  | leave e => exact ⟨_, rfl, .exit e⟩
  | _ => cases hands

theorem Follows.next {id : TaskId} {since : List Sighting}
    (follows : x.Follows f m history id since) (orderly : m.Orderly p context rules)
    (consumed : x.Consumed f m history)
    (next : Machine.Next p m seen m') :
    x.Follows f m' (seen.toList ++ history) id (seen.toList ++ since) := by
  obtain ⟨begun, now, old⟩ := follows
  have same : ∀ {o}, Agrees o (x.callOutcomes f history) →
      Agrees o (x.callOutcomes f (seen.toList ++ history)) := fun agrees =>
    (consumed.same orderly.numbered next agrees.ne_nil).symm ▸ agrees
  have goesOn : ∀ {t : Thread}, (x.Computes f t ∨
      ∃ o, t.outcome? = some o ∧ Agrees o (x.callOutcomes f history)) → x.Computes f t ∨
      ∃ o, t.outcome? = some o ∧ Agrees o (x.callOutcomes f (seen.toList ++ history)) :=
    fun stands => stands.imp_right fun ⟨o, ended, agrees⟩ => ⟨o, ended, same agrees⟩
  refine ⟨begun.next next, ?_, fun t o member ended => ?_⟩
  · have all : ∀ who t, m'.thread? who = some t → who = .task id → x.Computes f t ∨
        ∃ o, t.outcome? = some o ∧ Agrees o (x.callOutcomes f (seen.toList ++ history)) := by
      refine next.forall_threads (fun who t found own => ?_) (fun who t found moved turned own => ?_)
        (fun who t rest job found launches own => ?_) fun other env job waits own => ?_
      · subst own
        exact goesOn (now t found)
      · subst own moved
        rcases now t found with computes | ⟨o, ended, agrees⟩
        · rcases computes.step m.world (.task id)
            with computes | ⟨waits, here, hands⟩
          · exact .inl computes
          · have empty := consumed.callOutcomes_eq_nil orderly.numbered found
              (x.dueCount_of_waits waits here)
            obtain ⟨o, ended, agrees⟩ :=
              x.agrees_of_ends (orderly.turn found) id waits here hands
            refine .inr ⟨o, ended, ?_⟩
            rw [Option.toList_some, List.singleton_append, callOutcomes_cons, empty, List.append_nil]
            exact agrees
        · rw [step_of_outcome? ended]
          exact goesOn (.inr ⟨o, ended, agrees⟩)
      · subst own
        obtain ⟨jobs, submits, rfl⟩ := Machine.launch?_eq_some launches
        rcases now t found with computes | ⟨o, ended, -⟩
        · cases computes with
          | fresh env here => cases submits
          | running t last => exact .inl (.running _ last)
        · obtain ⟨-, ⟨v, gives, -⟩ | ⟨e, leaves, -⟩⟩ := Thread.outcome?_eq_some ended
          · cases submits.symm.trans gives
          · cases submits.symm.trans leaves
      · cases own
        obtain ⟨task, found, begun⟩ := begun
        cases waits.symm.trans found
        exact absurd rfl (begun env job)
    exact fun t found => all _ t found rfl
  · rcases List.mem_append.mp member with new | before
    · have new : seen = some ⟨.task id, t⟩ := Option.mem_toList.mp new
      subst new
      rcases now t next.seen with computes | ⟨o', ended', agrees⟩
      · cases computes.outcome?.symm.trans ended
      · cases ended.symm.trans ended'
        exact same agrees
    · exact same (old t o before ended)

variable (x) in
/-- A task is started for the variable of a frame. -/
theorem follows_of_start (orderly : m.Orderly p context rules) {id : TaskId} {env : Env}
    (here : env.current = f)
    (next : Machine.Next p m (some ⟨.task id, .start env (.eval x.declaration)⟩) m') :
    x.Follows f m' (⟨.task id, .start env (.eval x.declaration)⟩ :: history) id [] := by
  have found : m.thread? (.task id) = some (.start env (.eval x.declaration)) := next.seen
  have begun := Machine.begun_of_thread? orderly.numbered found
  refine ⟨begun.next next, fun t found' => .inl ?_, nofun⟩
  cases next with
  | turn who t _ silent going =>
    rw [Machine.thread?_afterTurn found, Function.update_self] at found'
    cases found'
    have computes : x.Computes f (.start env (.eval x.declaration)) := .fresh env here
    rcases computes.step m.world (.task id) with computes | ⟨waits, -⟩
    · exact computes
    · cases waits
  | launch who t rest job _ launches => cases launches
  | finished id t outcome _ ended => cases ended

variable (x) in
/-- A thread that has run the statement has it behind it. -/
theorem dueCount_of_launch {w : World} {t : Thread} {n : NodeId}
    (orderly : (t.inside w).Orderly p context rules) (who : ThreadId)
    (launches : p.arena.kind? n = some (.launchDecl x.declaration)) (evaluates : t.control = .eval n)
    (here : t.env.current = f) :
    t.dueCount x.isLaunch f = 1 + ((t.inside w).step p who).thread.dueCount x.isLaunch f := by
  have before : t.dueCount x.isLaunch f = 1 + stackedDues x.isLaunch f f t.stack := by
    rw [Thread.dueCount, evaluates, here, show (Control.eval n).dues = [n] from rfl, counted,
      if_pos rfl, List.countP_cons, if_pos (x.isLaunch_iff.mpr launches)]
    rfl
  have after : ((t.inside w).step p who).thread.dueCount x.isLaunch f =
      stackedDues x.isLaunch f f t.stack := by
    rw [x.step_launch orderly who launches evaluates, ← here]
    show counted x.isLaunch t.env.current t.env.current [x.declaration] + _ = _
    rw [counted_eq_zero fun n same => List.mem_singleton.mp same ▸ x.isLaunch_declaration,
      Nat.zero_add]
    rfl
  rw [before, after]

variable (x) in
/-- The statement is run, and the variable is known from then on. -/
theorem known_of_launch (orderly : m.Orderly p context rules) (one : m.dueCount x.concerns f ≤ 1)
    (consumed : x.Consumed f m history) {who : ThreadId} {t : Thread} {n : NodeId}
    (next : Machine.Next p m (some ⟨who, t⟩) m')
    (launches : p.arena.kind? n = some (.launchDecl x.declaration)) (evaluates : t.control = .eval n)
    (here : t.env.current = f) : x.Known f m' (⟨who, t⟩ :: history) := by
  obtain ⟨made, numbered, anchored, placed, sound⟩ := id orderly
  have found : m.thread? who = some t := next.seen
  have launch : x.isLaunch n = true := x.isLaunch_iff.mpr launches
  have due : 0 < t.dueCount x.concerns f :=
    Thread.dueCount_of_eval (x.concerns_of_isLaunch launch) evaluates here
  have stepped := x.step_launch (orderly.turn found) who launches evaluates
  have turned := next.turned evaluates
  have changes : m'.dueCount x.isLaunch f + t.dueCount x.isLaunch f =
      m.dueCount x.isLaunch f + ((t.inside m.world).step p who).thread.dueCount x.isLaunch f :=
    turned ▸ Machine.dueCount_afterTurn x.isLaunch f numbered found _
  have live : m.world.frames.Live f := here ▸ (anchored.threads who t found).here
  have frames : m'.world.frames = m.world.frames.define f x.name .void := by
    rw [turned, Machine.afterTurn, stepped, ← here]
    rfl
  have owns : m.world.frames.scope? f = p.attrs.scope? x.declaration := by
    have due : t.Due f n := here ▸ Turn.due_of_eval (s := t.inside m.world) evaluates
    exact x.scope?_of_stands made (x.concerns_of_isLaunch launch) (placed.threads who t found f n due)
  refine ⟨?_, ?_, ?_, fun other u found' due' => ?_, .void, ?_, ?_⟩
  · rw [frames]
    exact Frames.live_define.mpr live
  · rw [frames, Frames.scope?_define, owns]
  · have all : m.dueCount x.isLaunch f ≤ m.dueCount x.concerns f :=
      Machine.dueCount_mono (fun _ => x.concerns_of_isLaunch) m
    have spent := x.dueCount_of_launch (orderly.turn found) who launches evaluates here
    omega
  · rw [turned, Machine.thread?_afterTurn found, Function.update_apply] at found'
    split at found'
    · cases found'
      rw [stepped]
      exact .launching _ _ rfl here
    · next differ =>
      -- two threads would have to do with the declaration
      have both := Machine.dueCount_add_le x.concerns f numbered found found' differ
      omega
  · rw [frames, Frames.lookup_define, if_pos ⟨rfl, rfl, live⟩]
  · have none : x.callOutcome? f ⟨who, t⟩ = none := by
      cases ends : x.callOutcome? f ⟨who, t⟩ with
      | none => rfl
      | some o =>
        obtain ⟨-, -, -, -, -, ⟨v, gives, -⟩ | ⟨e, leaves, -⟩⟩ := x.callOutcome?_eq_some ends
        · cases gives.symm.trans evaluates
        · cases leaves.symm.trans evaluates
    rw [callOutcomes_cons, none, consumed.callOutcomes_eq_nil numbered found due]
    exact .running

end LaunchedVariable

/-! ## 3. Runs -/

namespace Run

variable {p : Program} {context : NodeId → Context} {rules : Rules}

theorem orderly_play (made : p.Made context rules) (c : RunConfig) (moves : List Move) :
    ((initial p c).play p c moves).machine.Orderly p context rules :=
  ⟨made, numbered_play p c moves, anchored_play p c moves, placed_play made c moves,
    sound_play made c moves⟩

/-- What is known of a launched variable in every run. -/
theorem known_play (made : p.Made context rules) (x : LaunchedVariable p)
    (reserved : p.text x.name ∈ rules.reserved) (c : RunConfig) (moves : List Move) (f : FrameId) :
    let r := (initial p c).play p c moves
    x.Consumed f r.machine r.history ∧ (x.RunIn f r.history → x.Known f r.machine r.history) := by
  induction moves using List.reverseRecOn with
  | nil => exact ⟨fun some => absurd rfl some, fun ⟨seen, member, _⟩ => nomatch member⟩
  | append_singleton moves last ih =>
    obtain ⟨consumed, known⟩ := ih
    have orderly := orderly_play made c moves
    have one := dueCount_le_one made (x.exclusive_concerns made) c moves f
    simp only [play_append, play_cons, play_nil, history_move]
    rcases machine_move p c orderly.numbered last with next | ⟨unseen, ledger, same⟩
    · refine ⟨consumed.next x orderly one next, fun ⟨seen, member, evaluates, here⟩ => ?_⟩
      rcases List.mem_append.mp member with new | old
      · have new : _ = some seen := Option.mem_toList.mp new
        rw [new] at next ⊢
        exact x.known_of_launch orderly one consumed next x.launches (Sighting.evaluates_iff.mp evaluates)
          here
      · exact (known ⟨seen, old, evaluates, here⟩).next orderly reserved one consumed next
    · rw [unseen, same]
      refine ⟨consumed, fun run => ?_⟩
      obtain ⟨live, owns, launched, stages, fate⟩ := known run
      exact ⟨live, owns, launched, stages, fate⟩

/-- What was seen is not forgotten. -/
theorem history_play (p : Program) (c : RunConfig) (r : Run) (more : List Move) :
    ∃ newer, (r.play p c more).history = newer ++ r.history := by
  induction more generalizing r with
  | nil => exact ⟨[], rfl⟩
  | cons first more ih =>
    obtain ⟨newer, same⟩ := ih (r.move p c first)
    rw [play_cons, same, history_move, ← List.append_assoc]
    exact ⟨_, rfl⟩

/-- The run is closed by a drain that comes back, and by nobody else. -/
theorem phase_of_closed (p : Program) (c : RunConfig) (moves : List Move) :
    let r := (initial p c).play p c moves
    r.machine.world.ledger.closed = true →
      ∃ status, r.phase = .closed status ∨ ∃ failures, r.phase = .reported status failures := by
  refine holds_play (fun r => r.machine.world.ledger.closed = true →
    ∃ status, r.phase = .closed status ∨ ∃ failures, r.phase = .reported status failures) ?_
    (fun r r' _ before next => ?_) moves
  · obtain ⟨frames, -, machine⟩ := machine_initial p c
    rw [machine]
    exact nofun
  · cases next with
    | same => exact before
    | look waits | giveUp waits =>
      intro closed
      obtain ⟨status, done | ⟨failures, done⟩⟩ := before closed <;> cases waits.symm.trans done
    | close status => exact fun _ => ⟨status, .inl rfl⟩
    | report status => exact fun _ => ⟨status, .inr ⟨_, rfl⟩⟩
    | step seen machine next here =>
      have same : machine.world.ledger.closed = r.machine.world.ledger.closed := by
        cases next with
        | turn who t found silent going =>
          exact congrArg Ledger.closed (Turn.step_moves p who (t.inside r.machine.world)).keeps.1
        | launch who t rest job found launches =>
          have same : (r.machine.setThread who rest).world = r.machine.world :=
            Machine.world_setThread r.machine who rest
          exact congrArg (·.ledger.closed) same
        | _ => rfl
      exact fun closed => before (same ▸ closed)

/-- What is known of a task that was started for a launched variable, in every run. -/
theorem follows_play (made : p.Made context rules) (x : LaunchedVariable p)
    (reserved : p.text x.name ∈ rules.reserved) (c : RunConfig) (moves : List Move) {f : FrameId}
    {id : TaskId} {env : Env} (here : env.current = f) :
    let r := (initial p c).play p c moves
    ∀ later earlier,
      r.history = later ++ ⟨.task id, .start env (.eval x.declaration)⟩ :: earlier →
        x.Follows f r.machine r.history id later := by
  induction moves using List.reverseRecOn with
  | nil => exact fun later earlier split => absurd split (by simp [initial])
  | append_singleton moves last ih =>
    have orderly := orderly_play made c moves
    have consumed := (known_play made x reserved c moves f).1
    simp only [play_append, play_cons, play_nil, history_move]
    intro later earlier split
    rcases machine_move p c orderly.numbered last with next | ⟨unseen, ledger, same⟩
    · cases seen : mover? ((initial p c).play p c moves) last with
      | none =>
        rw [seen] at next split
        exact (ih later earlier split).next orderly consumed next
      | some sighting =>
        rw [seen] at next split
        cases later with
        | nil =>
          cases split
          exact x.follows_of_start orderly here next
        | cons first later =>
          obtain ⟨same, rest⟩ := List.cons.inj split
          subst same
          exact (ih later earlier rest).next orderly consumed next
    · rw [unseen] at split ⊢
      obtain ⟨begun, now, old⟩ := ih later earlier split
      rw [same]
      exact ⟨begun, now, old⟩

end Run

namespace LaunchedVariable

variable {p : Program} (x : LaunchedVariable p)

/-- What is known of a variable in a frame once its statement has been run there. -/
structure Delivered (c : RunConfig) (f : FrameId) (r : Run) : Prop where
  /-- The variable is bound: to the absent value, or to the value of the call. -/
  bound : ∃ w, r.machine.world.frames.lookup f x.name = some w ∧
    Fate x.type (x.callOutcomes f r.history) w
  /-- When the call has ended, the variable stays as it is then. -/
  settled : x.callOutcomes f r.history ≠ [] → ∀ more,
    (r.play p c more).machine.world.frames.lookup f x.name =
      r.machine.world.frames.lookup f x.name
  /-- A task that was started for the variable ends as the call does. -/
  ended : ∀ later earlier id env t o,
    r.history = later ++ ⟨.task id, .start env (.eval x.declaration)⟩ :: earlier →
      env.current = f → ⟨.task id, t⟩ ∈ later → t.outcome? = some o →
        Agrees o (x.callOutcomes f r.history)
  /-- Whoever has waited for the variable has its value, and so has everyone who reads it later. -/
  waited : ∀ who t id v, r.machine.thread? who = some t → t.control = .await id f x.name →
    ((t.inside r.machine.world).step p who).control = .give v →
      ∃ w, x.callOutcomes f r.history = [.value w] ∧ (w.widen x.type).isVoid = false ∧
        ∀ more (env : Env) n, p.attrs.decl? n = some (.node x.declaration) →
          ((p.attrs.scope? n).bind fun scope =>
            env.frameFor (r.play p c more).machine.world.frames scope) = some f →
          p.readName env (r.play p c more).machine.world.frames n x.name = .ok (w.widen x.type)
  /-- Whoever waits in vain does so until the run is over. -/
  inVain : ∀ who t id e, r.machine.thread? who = some t → t.control = .await id f x.name →
    ((t.inside r.machine.world).step p who).control = .leave e →
      ∃ status, r.phase = .closed status ∨ ∃ failures, r.phase = .reported status failures

end LaunchedVariable

namespace Run

/-- A variable whose declaration is launched is bound from then on, to the absent value or to the value
of the call, in whatever order the threads take their steps; and whoever has waited for it reads the
value. -/
theorem launched_variable {script : Script} {p : Program} (built : script.program = .ok p)
    (x : LaunchedVariable p) (reserves : script.Reserves [p.text x.name]) (c : RunConfig)
    (moves : List Move) {f : FrameId} (run : x.RunIn f ((initial p c).play p c moves).history) :
    x.Delivered c f ((initial p c).play p c moves) := by
  obtain ⟨context, made⟩ := reserves.made built
  have reserved : p.text x.name ∈ [p.text x.name] := List.mem_cons_self
  have fate : ∀ more, ∃ w,
      (((initial p c).play p c moves).play p c more).machine.world.frames.lookup f x.name = some w ∧
        Fate x.type (x.callOutcomes f (((initial p c).play p c moves).play p c more).history) w := by
    intro more
    have known := (known_play made x reserved c (moves ++ more) f).2
    rw [play_append] at known
    obtain ⟨seen, member, evaluates, here⟩ := run
    obtain ⟨newer, later⟩ := history_play p c ((initial p c).play p c moves) more
    exact (known ⟨seen, later ▸ List.mem_append_right _ member, evaluates, here⟩).fate
  have settled : x.callOutcomes f ((initial p c).play p c moves).history ≠ [] → ∀ more,
      (((initial p c).play p c moves).play p c more).machine.world.frames.lookup f x.name =
        ((initial p c).play p c moves).machine.world.frames.lookup f x.name := by
    intro some more
    obtain ⟨w, bound, now⟩ := fate []
    obtain ⟨w', bound', later⟩ := fate more
    obtain ⟨newer, same⟩ := history_play p c ((initial p c).play p c moves) more
    rw [same, LaunchedVariable.callOutcomes, List.filterMap_append] at later
    rw [Fate.outcomes_eq later some] at later
    rw [bound', Fate.unique later now]
    exact bound.symm
  refine ⟨fate [], settled, fun later earlier id env t o split here member ended => ?_,
    fun who t id v found awaits gives => ?_, fun who t id e found awaits leaves => ?_⟩
  · exact (follows_play made x reserved c moves here later earlier split).seen t o member ended
  · obtain ⟨w, bound, now⟩ := fate []
    have bound : ((initial p c).play p c moves).machine.world.frames.lookup f x.name = some w := bound
    have set : w.isVoid = false := by
      simp only [Turn.step, Thread.inside, awaits, bound, Option.any_some] at gives
      cases void : w.isVoid with
      | false => rfl
      | true =>
        rw [void] at gives
        split at gives
        · contradiction
        · split at gives <;> cases gives
    generalize outcomes : x.callOutcomes f (((initial p c).play p c moves).play p c []).history = os
      at now
    cases now with
    | running | lost => cases set
    | stored w =>
      refine ⟨w, outcomes, set, fun more env n denotes inside => ?_⟩
      have ended : x.callOutcomes f ((initial p c).play p c moves).history ≠ [] := by
        rw [show x.callOutcomes f ((initial p c).play p c moves).history = _ from outcomes]
        exact List.cons_ne_nil _ _
      exact x.readName_eq denotes inside ((settled ended more).trans bound)
  · refine phase_of_closed p c moves ?_
    simp only [Turn.step, Thread.inside, awaits] at leaves
    split at leaves
    · cases leaves
    · split at leaves
      · assumption
      · cases leaves

/-! ### A variable that is launched, waited for and read -/

def launching : Script :=
  [.function "twice" [("n", .plain .int)] (.plain .int)
      [.ret (some (.binary .add (.reference "n") (.reference "n")))],
    .launchVar "x" (.plain .int) "twice" [.int 4],
    .expression (.call "wait" [.reference "x"]),
    .ret (some (.reference "x"))]

def launchingProgram : Program := launching.program.toOption.getD default

theorem launching_built : launching.program = .ok launchingProgram :=
  launching.program_eq_ok (by decide +kernel)

theorem kind?_launching : launchingProgram.arena.kind? ⟨11⟩ = some (.launchDecl ⟨10⟩) ∧
    launchingProgram.arena.kind? ⟨10⟩ = some (.varDecl ⟨14⟩ ⟨9⟩) := by
  constructor
  · cbv
  · cbv

def launchingVariable : LaunchedVariable launchingProgram where
  statement := ⟨11⟩
  declaration := ⟨10⟩
  initializer := ⟨9⟩
  name := ⟨14⟩
  launches := kind?_launching.1
  declares := kind?_launching.2
  unassigned := by decide +kernel

/-- The main program waits for the variable while the task returns, and reads it. -/
def launchingMoves : List Move :=
  List.replicate 14 .main ++ .start 0 :: List.replicate 24 (.task 0) ++ List.replicate 8 .main

theorem launching_delivered : launchingVariable.Delivered default ⟨0⟩
    ((initial launchingProgram default).play launchingProgram default launchingMoves) :=
  launched_variable launching_built launchingVariable (by decide +kernel) default launchingMoves
    (by decide +kernel)

end Run

end Strand
