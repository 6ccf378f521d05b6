import Strand.Proofs.Confined.Calls

/-!
# Two callers of a function

What a call does depends on the frames around it, and on nothing else that its caller has. So two callers with
the same declaring frame, in worlds that differ at most in other frames, get the same result: the calls go in
step, and the frames that they make differ at most in their names (`Run.InStep`).

What carries this is that above the returns of the two calls the threads are the same, under other names
(`Thread.Parallel`), and so are the tasks that the calls launch.
-/

set_option autoImplicit false

namespace Strand

/-! ## 1. Worlds, threads and tasks under other names -/

/-- Two worlds that are the same, but for the names of the frames and for frames that are not known. -/
structure World.Renamed (ρ : Renaming) (rootScope : ScopeId) (w w' : World) : Prop where
  frames : w.frames.Renamed ρ rootScope w'.frames
  rest : w' = { w with frames := w'.frames }

namespace World.Renamed

variable {ρ : Renaming} {rootScope : ScopeId} {w w' : World} (worlds : w.Renamed ρ rootScope w')

include worlds

theorem ledger : w'.ledger = w.ledger := by
  rw [worlds.rest]

theorem record (ledger : Ledger) : World.Renamed ρ rootScope { w with ledger } { w' with ledger } := by
  refine ⟨worlds.frames, ?_⟩
  rw [worlds.rest]

end World.Renamed

/-- The same thread, under the other names. -/
def Thread.renamed (ρ : Renaming) (t : Thread) : Thread :=
  ⟨t.env.renamed ρ, t.control.renamed ρ, t.stack.map (Pending.renamed ρ)⟩

/-- The same state of a task, under the other names. -/
def TaskState.renamed (ρ : Renaming) : TaskState → TaskState
  | submitted env job => submitted (env.renamed ρ) job
  | running t => running (t.renamed ρ)
  | state => state

theorem TaskState.renamed_ofOutcome (ρ : Renaming) (outcome : Outcome) :
    (TaskState.ofOutcome outcome).renamed ρ = .ofOutcome outcome := by
  cases outcome with
  | value v => rfl
  | exit e => cases e <;> rfl

/-- The same task, under the other names. -/
def Task.renamed (ρ : Renaming) (task : Task) : Task := ⟨task.id, task.state.renamed ρ⟩

namespace Thread

variable {ρ : Renaming} {t : Thread}

theorem onto_nil : t.onto [] = t := by
  unfold onto
  rw [List.append_nil]

/-- A call goes on as long as its return waits. -/
theorem above_onto (t : Thread) (f : FrameId) (base : List Pending) : (t.onto (.leaveCall f :: base)).Above base := by
  refine ⟨t.stack ++ [.leaveCall f], ?_, ?_⟩
  · simp [onto]
  · simp

theorem outcome?_renamed : (t.renamed ρ).outcome? = t.outcome? := by
  obtain ⟨env, control, stack⟩ := t
  cases stack <;> cases control <;> rfl

theorem launch?_renamed :
    (t.renamed ρ).launch? = t.launch?.map fun launched => (launched.1, launched.2.renamed ρ) := by
  obtain ⟨env, control, stack⟩ := t
  cases control with
  | submit jobs => cases jobs <;> rfl
  | _ => rfl

end Thread

theorem Turn.Mirrors.world {ρ : Renaming} {rootScope : ScopeId} {beneath : List Pending} {s t : Turn}
    (mirrors : s.Mirrors ρ rootScope beneath t) : s.world.Renamed ρ rootScope t.world := by
  obtain ⟨fs', named, rfl⟩ := mirrors
  exact ⟨named, rfl⟩

/-- A thread among known frames makes the same step under the other names. -/
theorem Turn.step_thread {ρ : Renaming} {rootScope : ScopeId} {w w' : World} {t : Thread}
    (worlds : w.Renamed ρ rootScope w') (within : (t.inside w).Within ρ) (unfinished : t.outcome? = none)
    (beneath : List Pending) (p : Program) (who : ThreadId) :
    ((t.inside w).step p who).world.Renamed ρ rootScope
        ((((t.renamed ρ).onto beneath).inside w').step p who).world ∧
      ((((t.renamed ρ).onto beneath).inside w').step p who).thread =
        (((t.inside w).step p who).thread.renamed ρ).onto beneath := by
  have busy : t.stack = [] → ¬ t.control.Hands := by
    obtain ⟨top, stack, busy⟩ := Thread.above_nil_iff.mpr unfinished
    rw [List.append_nil] at stack
    exact stack ▸ busy
  have mirrors : Mirrors ρ rootScope beneath _ _ := step_renamed worlds.frames within busy p who
  have same : (t.inside w).renamed ρ beneath w'.frames = ((t.renamed ρ).onto beneath).inside w' := by
    rw [worlds.rest]
    rfl
  rw [same] at mirrors
  refine ⟨mirrors.world, ?_⟩
  obtain ⟨fs', -, equal⟩ := mirrors
  rw [equal]
  rfl

/-! ## 2. The threads of the two callers -/

/-- How two calls have ended alike: with the same, or with a fault of the calls themselves, each at its own
place. -/
inductive Invocation.Answers (call call' : Invocation) : Control → Control → Prop
  | same (control : Control) (hands : control.Hands) : Answers call call' control control
  | failed (cause : Cause) :
    Answers call call' (.leave (.fault ⟨cause, call.span, []⟩)) (.leave (.fault ⟨cause, call'.span, []⟩))

/-- A thread that has come back from a call. -/
def Invocation.back (call : Invocation) (control : Control) : Thread := ⟨call.env, control, call.base⟩

/-- How two threads have come along with two calls: both are about to make them, or they do the same above the
returns of the calls, or both have come back. -/
inductive Thread.Parallel (ρ : Renaming) (call call' : Invocation) : Thread → Thread → Prop
  | before : Parallel ρ call call' call.thread call'.thread
  | inside (top : Thread) :
    Parallel ρ call call' (top.onto (.leaveCall call.env.current :: call.base))
      ((top.renamed ρ).onto (.leaveCall call'.env.current :: call'.base))
  | back (control control' : Control) (answers : call.Answers call' control control') :
    Parallel ρ call call' (call.back control) (call'.back control')

/-- The function and the arguments of two calls are the same, and so is the declaring frame, under the other
names. -/
structure Invocation.Same (p : Program) (ρ : Renaming) (call call' : Invocation) (fs fs' : Frames) : Prop where
  function : call'.function = call.function
  arguments : call'.arguments = call.arguments
  rooted : call.env.root = Frames.root
  rooted' : call'.env.root = Frames.root
  outside : ∀ scope, p.attrs.bodyScope? call.function = some scope →
    p.declaringFrame call'.env fs' scope = ρ.rename (p.declaringFrame call.env fs scope) ∧
      ρ.Knows fs (p.declaringFrame call.env fs scope)

namespace Invocation

variable {p : Program} {ρ : Renaming} {rootScope : ScopeId} {call call' : Invocation} {fs fs' gs gs' : Frames}
  {control control' : Control}

theorem Answers.hands (answers : call.Answers call' control control') : control.Hands ∧ control'.Hands := by
  cases answers with
  | same _ hands => exact ⟨hands, hands⟩
  | failed => exact ⟨trivial, trivial⟩

/-- What is the same about two calls stays the same. -/
theorem Same.onward (same : call.Same p ρ call' fs fs') (later : Frames.Onward rootScope fs gs)
    (later' : Frames.Onward rootScope fs' gs') (live : fs.Live call.env.current)
    (live' : fs'.Live call'.env.current) : call.Same p ρ call' gs gs' := by
  obtain ⟨function, arguments, rooted, rooted', outside⟩ := same
  refine ⟨function, arguments, rooted, rooted', ?_⟩
  intro scope opens
  rw [declaringFrame_onward later rooted live, declaringFrame_onward later' rooted' live']
  obtain ⟨parent, known⟩ := outside scope opens
  exact ⟨parent, known.imp id fun new => ⟨new.1, later.grows.live new.2⟩⟩

end Invocation

namespace Thread.Parallel

variable {p : Program} {ρ : Renaming} {rootScope : ScopeId} {call call' : Invocation} {t t' : Thread}
  {own : FrameId → Prop}

/-- Both go on, or both have come back. -/
theorem above_iff (parallel : Parallel ρ call call' t t') : t.Above call.base ↔ t'.Above call'.base := by
  cases parallel with
  | before => exact ⟨fun _ => ⟨[], rfl, fun _ => id⟩, fun _ => ⟨[], rfl, fun _ => id⟩⟩
  | inside top => exact ⟨fun _ => above_onto .., fun _ => above_onto ..⟩
  | back control control' answers =>
    have isOver := not_above (t := call.back control) rfl answers.hands.1
    have isOver' := not_above (t := call'.back control') rfl answers.hands.2
    exact ⟨fun above => absurd above isOver, fun above => absurd above isOver'⟩

theorem launch {job : Control} {rest : Thread} (parallel : Parallel ρ call call' t t')
    (launches : t.launch? = some (job, rest)) :
    ∃ rest', t'.launch? = some (job, rest') ∧ Parallel ρ call call' rest rest' ∧
      rest'.env = rest.env.renamed ρ := by
  cases parallel with
  | before => cases launches
  | inside top =>
    obtain ⟨jobs, submits, rfl⟩ := Machine.launch?_eq_some launches
    obtain ⟨env, control, stack⟩ := top
    cases submits
    exact ⟨_, rfl, .inside ⟨env, .submit jobs, stack⟩, rfl⟩
  | back control control' answers =>
    obtain ⟨jobs, submits, -⟩ := Machine.launch?_eq_some launches
    cases submits
    exact answers.hands.1.elim

theorem silent (parallel : Parallel ρ call call' t t') (silent : t.launch? = none) : t'.launch? = none := by
  cases parallel with
  | before => rfl
  | inside top =>
    obtain ⟨env, control, stack⟩ := top
    cases control with
    | submit jobs =>
      cases jobs with
      | nil => rfl
      | cons job jobs => cases silent
    | _ => rfl
  | back control control' answers =>
    have hands := answers.hands.2
    cases control' <;> first | rfl | exact hands.elim

/-- What has come back from one call has come back from the other. -/
theorem answers (parallel : Parallel ρ call call' t t') {control : Control} (hands : control.Hands)
    (back : t = call.back control) :
    ∃ control', t' = call'.back control' ∧ call.Answers call' control control' := by
  have isOver : ¬ t.Above call.base := by
    rw [back]
    exact not_above rfl hands
  cases parallel with
  | before => exact absurd ⟨[], rfl, fun _ => id⟩ isOver
  | inside top => exact absurd (above_onto ..) isOver
  | back control₀ control' answers =>
    cases congrArg Thread.control back
    exact ⟨control', rfl, answers⟩

end Thread.Parallel

namespace Turn

variable {p : Program} {ρ : Renaming} {rootScope : ScopeId} {call call' : Invocation} {w w' : World} {t t' : Thread}
  {own : FrameId → Prop} {who : ThreadId}

/-- Two calls are made alike: both fail in the same way, or both bodies begin, in frames made just now. -/
theorem invoke_parallel (worlds : w.Renamed ρ rootScope w') (same : call.Same p ρ call' w.frames w'.frames) :
    ((call.thread.inside w).invoke p call.span call.function call.arguments).world.Renamed ρ rootScope
        ((call'.thread.inside w').invoke p call'.span call'.function call'.arguments).world ∧
      Thread.Parallel ρ call call'
        ((call.thread.inside w).invoke p call.span call.function call.arguments).thread
        ((call'.thread.inside w').invoke p call'.span call'.function call'.arguments).thread := by
  obtain ⟨function, arguments, rooted, rooted', outside⟩ := same
  have crashes : ∀ message, World.Renamed ρ rootScope w w' ∧ Thread.Parallel ρ call call'
      (call.back (.leave (.crash message))) (call'.back (.leave (.crash message))) :=
    fun message => ⟨worlds, .back _ _ (.same _ trivial)⟩
  have fails : ∀ cause, World.Renamed ρ rootScope w w' ∧ Thread.Parallel ρ call call'
      (call.back (.leave (.fault ⟨cause, call.span, []⟩))) (call'.back (.leave (.fault ⟨cause, call'.span, []⟩))) :=
    fun cause => ⟨worlds, .back _ _ (.failed cause)⟩
  rw [function, arguments]
  simp only [invoke]
  split
  · exact crashes _
  · next name parameters body kind =>
    split
    · exact fails _
    · split
      · exact fails _
      · next scope opens =>
        split
        · exact crashes _
        · next bindings bound =>
          -- the new frame is inside the declaring frame, which is found in both stores
          obtain ⟨parent, known⟩ := outside scope opens
          obtain ⟨fs', rfl⟩ : ∃ fs', w' = { w with frames := fs' } := ⟨_, worlds.rest⟩
          obtain ⟨pushed, new⟩ := worlds.frames.push known scope bindings
          have parent : p.declaringFrame call'.env fs' scope =
              ρ.rename (p.declaringFrame call.env w.frames scope) := parent
          have roots : ρ.rename Frames.root = Frames.root := worlds.frames.root.2
          have inside : Thread.Parallel ρ call call' _ _ := .inside
            ⟨call.env.restore (w.frames.push scope bindings (some (p.declaringFrame call.env w.frames scope))).1,
              .eval body, []⟩
          simp only [Thread.renamed, Env.renamed, Env.restore, rooted, roots, new] at inside
          simp only [Thread.inside, Invocation.thread, thread, Env.restore, parent, rooted, rooted']
          exact ⟨⟨pushed, rfl⟩, inside⟩
  · exact fails _

/-- A thread that stands where a call may be stands among the known frames. -/
theorem within_of_own (linked : w.frames.Linked rootScope) (anchored : t.Anchored w.frames)
    (knows : ∀ f, own f → w.frames.Live f → ρ.Knows w.frames f)
    (stands : ∀ f ∈ t.env.chain w.frames, own f) : (t.inside w).Within ρ := by
  have known : ∀ f ∈ w.frames.chain t.env.current, ρ.Knows w.frames f :=
    fun f inside => knows f (stands f inside) (linked.of_mem_chain inside).1
  refine ⟨anchored.control, anchored.root, known _ (linked.self_mem anchored.here), ?_⟩
  intro f member
  exact known f (anchored.watched f member)

/-- Both leave the frames of their calls, and hand on the same. -/
theorem leave_parallel {top : Thread} (worlds : w.Renamed ρ rootScope w')
    (same : call.Same p ρ call' w.frames w'.frames) (rooted : top.env.root = Frames.root) (last : top.stack = [])
    (hands : top.control.Hands) :
    (((top.onto (.leaveCall call.env.current :: call.base)).inside w).step p who).world.Renamed ρ rootScope
        ((((top.renamed ρ).onto (.leaveCall call'.env.current :: call'.base)).inside w').step p who).world ∧
      Thread.Parallel ρ call call'
        (((top.onto (.leaveCall call.env.current :: call.base)).inside w).step p who).thread
        ((((top.renamed ρ).onto (.leaveCall call'.env.current :: call'.base)).inside w').step p who).thread := by
  obtain ⟨⟨here, root⟩, control, stack⟩ := top
  obtain rfl : stack = [] := last
  obtain rfl : root = Frames.root := rooted
  have roots : ρ.rename Frames.root = Frames.root := worlds.frames.root.2
  have place : call.env = ⟨call.env.current, Frames.root⟩ := same.rooted ▸ rfl
  have place' : call'.env = ⟨call'.env.current, ρ.rename Frames.root⟩ := (roots ▸ same.rooted') ▸ rfl
  have leaves : ∀ control : Control, control.Hands → Thread.Parallel ρ call call'
      ⟨⟨call.env.current, Frames.root⟩, control, call.base⟩
      ⟨⟨call'.env.current, ρ.rename Frames.root⟩, control, call'.base⟩ := by
    intro control hands
    have back : Thread.Parallel ρ call call' _ _ := .back _ _ (.same control hands)
    rwa [Invocation.back, Invocation.back, place, place'] at back
  cases control with
  | give v => exact ⟨worlds, leaves (.give .void) trivial⟩
  | leave e =>
    cases e with
    | ret v => exact ⟨worlds, leaves (.give v) trivial⟩
    | fault f => exact ⟨worlds, leaves (.leave (.fault f)) trivial⟩
    | crash message => exact ⟨worlds, leaves (.leave (.crash message)) trivial⟩
  | _ => exact hands.elim

/-- The two callers make the same step. -/
theorem step_parallel (worlds : w.Renamed ρ rootScope w') (same : call.Same p ρ call' w.frames w'.frames)
    (anchored : t.Anchored w.frames) (calls : t.Calls own call w.frames)
    (knows : ∀ f, own f → w.frames.Live f → ρ.Knows w.frames f) (above : t.Above call.base)
    (parallel : Thread.Parallel ρ call call' t t') :
    ((t.inside w).step p who).world.Renamed ρ rootScope ((t'.inside w').step p who).world ∧
      Thread.Parallel ρ call call' ((t.inside w).step p who).thread ((t'.inside w').step p who).thread := by
  have linked := worlds.frames.linked
  cases parallel with
  | before => exact invoke_parallel worlds same
  | back control control' answers => exact absurd above (Thread.not_above rfl answers.hands.1)
  | inside top =>
    have own' := calls.of_onto
    have anchored' : top.Anchored w.frames := anchored.of_onto
    by_cases isOver : top.stack = [] ∧ top.control.Hands
    · exact leave_parallel worlds same anchored'.root isOver.1 isOver.2
    · have busy : top.stack = [] → ¬ top.control.Hands := fun nothing hands => isOver ⟨nothing, hands⟩
      have unfinished : top.outcome? = none :=
        Thread.above_nil_iff.mp ⟨top.stack, (List.append_nil _).symm, busy⟩
      have within : (top.inside w).Within ρ :=
        within_of_own linked anchored' knows fun f inside => own' f ⟨_, List.mem_cons_self, inside⟩
      -- neither step looks at the return beneath
      have first : ((top.onto (.leaveCall call.env.current :: call.base)).inside w).step p who =
          ((top.inside w).step p who).onto (.leaveCall call.env.current :: call.base) :=
        step_onto (s := top.inside w) busy p who _
      obtain ⟨worlds', second⟩ :=
        step_thread worlds within unfinished (.leaveCall call'.env.current :: call'.base) p who
      rw [first]
      refine ⟨worlds', ?_⟩
      rw [second]
      exact .inside ((top.inside w).step p who).thread

end Turn

/-! ## 3. Two machines in step -/

namespace Machine

variable {p : Program} {m m' : Machine}

/-- The machine after a thread that goes on has launched a task or taken a step. -/
def advance (p : Program) (m : Machine) (who : ThreadId) (t : Thread) : Machine :=
  match t.launch? with
  | some (job, rest) => ((m.setThread who rest).submit rest.env job).2
  | none => m.afterTurn who ((t.inside m.world).step p who)

theorem stepMain_eq (p : Program) (m : Machine) : m.stepMain p = m.advance p .main m.main := by
  obtain ⟨world, main, tasks⟩ := m
  simp only [stepMain, advance]
  cases main.launch? <;> rfl

theorem stepTask_eq (numbered : m.Numbered) {i : Nat} {t : Thread} (found : m.thread? (.task ⟨i⟩) = some t)
    (unfinished : t.outcome? = none) : m.stepTask p i = m.advance p (.task ⟨i⟩) t := by
  have at_ := numbered.found found
  obtain ⟨world, main, tasks⟩ := m
  simp only [stepTask, advance, show tasks[i]? = _ from at_, unfinished]
  cases t.launch? <;> rfl

/-- Two callers stand alike, and so do the tasks that have been launched since there were `count`. -/
structure Parallel (p : Program) (ρ : Renaming) (call call' : Invocation) (who : ThreadId) (count : Nat)
    (m m' : Machine) : Prop where
  worlds : m.world.Renamed ρ p.attrs.rootScope m'.world
  size : m'.tasks.size = m.tasks.size
  since : ∀ i, count ≤ i → m'.tasks[i]? = m.tasks[i]?.map (Task.renamed ρ)
  caller : ∃ t t', m.thread? who = some t ∧ m'.thread? who = some t' ∧ Thread.Parallel ρ call call' t t'

namespace Parallel

variable {ρ : Renaming} {call call' : Invocation} {who : ThreadId} {count : Nat}
  {own : FrameId → Prop} (parallel : Parallel p ρ call call' who count m m')

include parallel

theorem world {w w' : World} (worlds : w.Renamed ρ p.attrs.rootScope w') :
    Parallel p ρ call call' who count { m with world := w } { m' with world := w' } := by
  obtain ⟨-, size, since, t, t', here, here', threads⟩ := parallel
  refine ⟨worlds, size, since, t, t', ?_, ?_, threads⟩
  · rw [← here]
    cases who <;> rfl
  · rw [← here']
    cases who <;> rfl

theorem submit (env : Env) (job : Control) :
    Parallel p ρ call call' who count (m.submit env job).2 (m'.submit (env.renamed ρ) job).2 := by
  obtain ⟨worlds, size, since, t, t', here, here', threads⟩ := parallel
  have ledger : m'.world.ledger = m.world.ledger := worlds.ledger
  refine ⟨?_, ?_, ?_, t, t', ?_, ?_, threads⟩
  · simp only [Machine.submit, ledger]
    exact worlds.record _
  · simp only [Machine.submit, Array.size_push, size]
  · intro i later
    simp only [Machine.submit, Array.getElem?_push, size, since i later, ledger]
    split <;> rfl
  · rw [thread?_submit, here]
  · rw [thread?_submit, here']

section

variable (before : ∀ i, count ≤ i → who ≠ .task ⟨i⟩)

include before

/-- The callers go on. -/
theorem setThread {t t' : Thread} (threads : Thread.Parallel ρ call call' t t') :
    Parallel p ρ call call' who count (m.setThread who t) (m'.setThread who t') := by
  obtain ⟨worlds, size, since, t₀, t₀', here, here', -⟩ := parallel
  refine ⟨?_, ?_, ?_, t, t', ?_, ?_, threads⟩
  · rw [world_setThread, world_setThread]
    exact worlds
  · rw [size_setThread, size_setThread, size]
  · -- the caller is none of the tasks launched since
    intro i later
    cases who with
    | main => exact since i later
    | task id =>
      have apart : id.index ≠ i := fun same => before i later (by rw [← same])
      simp only [Machine.setThread, tasks_setTask, Array.getElem?_setIfInBounds, if_neg apart]
      exact since i later
  · rw [thread?_setThread here, Function.update_self]
  · rw [thread?_setThread here', Function.update_self]

/-- A task goes on that was launched since. -/
theorem setTask {i : Nat} (later : count ≤ i) {old : Task} (found : m.tasks[i]? = some old)
    (state : TaskState) :
    Parallel p ρ call call' who count (m.setTask ⟨i⟩ state) (m'.setTask ⟨i⟩ (state.renamed ρ)) := by
  obtain ⟨worlds, size, since, t, t', here, here', threads⟩ := parallel
  refine ⟨worlds, ?_, ?_, t, t', ?_, ?_, threads⟩
  · rw [tasks_setTask, tasks_setTask, Array.size_setIfInBounds, Array.size_setIfInBounds, size]
  · intro j after
    simp only [tasks_setTask, Array.getElem?_setIfInBounds, size, since j after]
    split
    · split <;> rfl
    · rfl
  · rw [thread?_setTask found, Function.update_of_ne (before i later), here]
  · have found' : m'.tasks[i]? = some (old.renamed ρ) := by rw [since i later, found]; rfl
    rw [thread?_setTask found', Function.update_of_ne (before i later), here']

/-- The callers make the same move. -/
theorem advance_caller (same : call.Same p ρ call' m.world.frames m'.world.frames) (anchored : m.Anchored p)
    (knows : ∀ f, own f → m.world.frames.Live f → ρ.Knows m.world.frames f) {t : Thread}
    (found : m.thread? who = some t) (calls : t.Calls own call m.world.frames) (above : t.Above call.base) :
    ∃ t', m'.thread? who = some t' ∧ t'.Above call'.base ∧
      Parallel p ρ call call' who count (m.advance p who t) (m'.advance p who t') := by
  obtain ⟨t₀, t', here, here', threads⟩ := parallel.caller
  cases here.symm.trans found
  refine ⟨t', here', threads.above_iff.mp above, ?_⟩
  unfold advance
  cases launches : t.launch? with
  | none =>
    rw [threads.silent launches]
    obtain ⟨worlds, turned⟩ := Turn.step_parallel parallel.worlds same (anchored.threads who t found) calls knows
      above threads
    exact (parallel.setThread before turned).world worlds
  | some launched =>
    obtain ⟨job, rest⟩ := launched
    obtain ⟨rest', launches', turned, env⟩ := threads.launch launches
    simp only [launches', env]
    exact (parallel.setThread before turned).submit rest.env job

/-- A task that was launched since makes the same move. -/
theorem advance_launched (anchored : m.Anchored p)
    (knows : ∀ f, own f → m.world.frames.Live f → ρ.Knows m.world.frames f) {i : Nat} (later : count ≤ i)
    {t : Thread} (found : m.thread? (.task ⟨i⟩) = some t) (unfinished : t.outcome? = none)
    (stands : ∀ f ∈ t.env.chain m.world.frames, own f) :
    Parallel p ρ call call' who count (m.advance p (.task ⟨i⟩) t) (m'.advance p (.task ⟨i⟩) (t.renamed ρ)) := by
  obtain ⟨id, at_⟩ := thread?_task found
  have put : ∀ t, Parallel p ρ call call' who count (m.setThread (.task ⟨i⟩) t)
      (m'.setThread (.task ⟨i⟩) (t.renamed ρ)) := fun t => parallel.setTask before later at_ (.running t)
  unfold advance
  rw [Thread.launch?_renamed]
  cases launches : t.launch? with
  | none =>
    have within := Turn.within_of_own anchored.frames (anchored.threads _ t found) knows stands
    obtain ⟨worlds, turned⟩ := Turn.step_thread parallel.worlds within unfinished [] p (.task ⟨i⟩)
    simp only [Thread.onto_nil] at worlds turned
    have moved := (put ((t.inside m.world).step p (.task ⟨i⟩)).thread).world worlds
    rw [← turned] at moved
    exact moved
  | some launched => exact (put launched.2).submit launched.2.env launched.1

theorem stepTask (numbered : m.Numbered) (numbered' : m'.Numbered) (anchored : m.Anchored p)
    (knows : ∀ f, own f → m.world.frames.Live f → ρ.Knows m.world.frames f) {i : Nat} (later : count ≤ i)
    (stands : ∀ f, m.Reaches (.task ⟨i⟩) f → own f) :
    Parallel p ρ call call' who count (m.stepTask p i) (m'.stepTask p i) := by
  have same := parallel.since i later
  cases found : m.tasks[i]? with
  | none =>
    rw [found] at same
    have still : m.stepTask p i = m := by simp only [Machine.stepTask, found]
    have still' : m'.stepTask p i = m' := by simp only [Machine.stepTask, same, Option.map_none]
    rw [still, still']
    exact parallel
  | some task =>
    obtain ⟨id, state⟩ := task
    obtain rfl : id = ⟨i⟩ := numbered.ids i _ found
    rw [found] at same
    have put := parallel.setTask before later found
    have recorded := parallel.worlds.record
    have ledger := parallel.worlds.ledger
    obtain ⟨world, main, tasks⟩ := m
    obtain ⟨world', main', tasks'⟩ := m'
    have found : tasks[i]? = some ⟨⟨i⟩, state⟩ := found
    have same : tasks'[i]? = some ⟨⟨i⟩, state.renamed ρ⟩ := same
    cases state with
    | submitted | ended =>
      simp only [Machine.stepTask, found, same, TaskState.renamed]
      exact parallel
    | failing f =>
      simp only [Machine.stepTask, found, same, TaskState.renamed]
      rw [ledger]
      exact (put .ending).world (recorded (world.ledger.recordFailure ⟨i⟩ f))
    | ending =>
      simp only [Machine.stepTask, found, same, TaskState.renamed]
      rw [ledger]
      exact (put .ended).world (recorded world.ledger.release)
    | running t =>
      cases ended : t.outcome? with
      | none =>
        have here : Machine.thread? ⟨world, main, tasks⟩ (.task ⟨i⟩) = some t := by
          rw [thread?_of_found found]
          rfl
        have here' : Machine.thread? ⟨world', main', tasks'⟩ (.task ⟨i⟩) = some (t.renamed ρ) := by
          rw [thread?_of_found same]
          rfl
        have ended' : (t.renamed ρ).outcome? = none := Thread.outcome?_renamed.trans ended
        rw [stepTask_eq numbered here ended, stepTask_eq numbered' here' ended']
        refine parallel.advance_launched before anchored knows later here ended ?_
        intro f inside
        exact stands f (.thread here ⟨_, List.mem_cons_self, inside⟩)
      | some outcome =>
        have moved := put (.ofOutcome outcome)
        rw [TaskState.renamed_ofOutcome] at moved
        simp only [Machine.stepTask, found, same, TaskState.renamed, Thread.outcome?_renamed, ended]
        exact moved

theorem startTask (anchored : m.Anchored p) (numbered : m.Numbered) {i : Nat} (later : count ≤ i) :
    Parallel p ρ call call' who count (m.startTask i) (m'.startTask i) := by
  have same := parallel.since i later
  cases found : m.tasks[i]? with
  | none =>
    rw [found] at same
    rw [startTask_of_missing found, startTask_of_missing same]
    exact parallel
  | some task =>
    obtain ⟨id, state⟩ := task
    obtain rfl : id = ⟨i⟩ := numbered.ids i _ found
    rw [found] at same
    simp only [Machine.startTask, modify_found _ found, modify_found _ same]
    cases state with
    | submitted env job =>
      -- a job is a node, and there is no frame in it to be renamed
      obtain ⟨⟨n, rfl⟩, -⟩ := anchored.jobs ⟨i⟩ env job found
      exact parallel.setTask before later found (.running (.start env (.eval n)))
    | _ => exact parallel.setTask before later found _

end

end Parallel

end Machine

/-! ## 4. Two runs in step -/

namespace Run

variable {p : Program} {c : RunConfig} {ρ : Renaming} {who : ThreadId} {call call' : Invocation}
  {own : FrameId → Prop} {count : Nat} {r r' : Run}

/-- Two runs in which a function is called alike. -/
structure InStep (p : Program) (ρ : Renaming) (who : ThreadId) (call call' : Invocation) (own : FrameId → Prop)
    (count : Nat) (r r' : Run) : Prop where
  secludes : r.Secludes p who call own count
  covers : ∀ f, own f → ρ.old f ∨ ρ.count ≤ f.index
  numbered' : r'.machine.Numbered
  anchored' : r'.machine.Anchored p
  standing' : r'.machine.world.frames.Live call'.env.current
  phase : r'.phase = r.phase
  same : call.Same p ρ call' r.machine.world.frames r'.machine.world.frames
  parallel : r.machine.Parallel p ρ call call' who count r'.machine

namespace InStep

variable (inStep : InStep p ρ who call call' own count r r')

include inStep

theorem knows (f : FrameId) (mine : own f) (live : r.machine.world.frames.Live f) :
    ρ.Knows r.machine.world.frames f :=
  (inStep.covers f mine).imp id fun new => ⟨new, live⟩

theorem belongs {first : Move} (belongs : r.Belongs who call.base count first) :
    r'.Belongs who call'.base count first := by
  obtain ⟨t, t', here, here', threads⟩ := inStep.parallel.caller
  cases first with
  | main =>
    obtain ⟨rfl, above⟩ := belongs
    cases here
    cases here'
    exact ⟨rfl, threads.above_iff.mp above⟩
  | task i =>
    rcases belongs with since | ⟨rfl, t₀, found, above⟩
    · exact .inl since
    · cases here.symm.trans found
      exact .inr ⟨rfl, t', here', threads.above_iff.mp above⟩
  | start i => exact belongs
  | look | giveUp | close | report => exact belongs.elim

/-- The machines go on alike. -/
theorem parallel_move (c : RunConfig) {first : Move} (belongs : r.Belongs who call.base count first) :
    (r.move p c first).machine.Parallel p ρ call call' who count (r'.move p c first).machine ∧
      (r'.move p c first).phase = (r.move p c first).phase := by
  have secludes := inStep.secludes
  have confines := secludes.toConfines
  have caller : ∀ {t}, r.machine.thread? who = some t → t.Above call.base →
      ∃ t', r'.machine.thread? who = some t' ∧ t'.Above call'.base ∧
        (r.machine.advance p who t).Parallel p ρ call call' who count (r'.machine.advance p who t') := by
    intro t found above
    obtain ⟨t₀, here, calls⟩ := confines.caller
    cases here.symm.trans found
    exact inStep.parallel.advance_caller secludes.caller_before inStep.same confines.anchored inStep.knows found calls
      above
  cases first with
  | main =>
    obtain ⟨rfl, above⟩ := belongs
    simp only [move, inStep.phase]
    split
    · obtain ⟨t', found', -, moved⟩ := caller rfl above
      cases found'
      rw [Machine.stepMain_eq, Machine.stepMain_eq]
      exact ⟨moved, rfl⟩
    · exact ⟨inStep.parallel, inStep.phase⟩
  | task i =>
    refine ⟨?_, inStep.phase⟩
    show (r.machine.stepTask p i).Parallel p ρ call call' who count (r'.machine.stepTask p i)
    rcases belongs with since | ⟨rfl, t, found, above⟩
    · exact inStep.parallel.stepTask secludes.caller_before confines.numbered inStep.numbered' confines.anchored
        inStep.knows since (secludes.beside i since)
    · obtain ⟨t', found', above', moved⟩ := caller found above
      rw [Machine.stepTask_eq confines.numbered found above.unfinished,
        Machine.stepTask_eq inStep.numbered' found' above'.unfinished]
      exact moved
  | start i =>
    refine ⟨?_, inStep.phase⟩
    exact inStep.parallel.startTask secludes.caller_before confines.anchored confines.numbered belongs
  | look | giveUp | close | report => exact belongs.elim

theorem move (c : RunConfig) {first : Move} (belongs : r.Belongs who call.base count first) :
    InStep p ρ who call call' own count (r.move p c first) (r'.move p c first) := by
  obtain ⟨parallel, phase⟩ := inStep.parallel_move c belongs
  have confines := inStep.secludes.toConfines
  have later := (onward_move (c := c) confines.numbered confines.anchored first).2
  obtain ⟨anchored', later'⟩ := onward_move (c := c) inStep.numbered' inStep.anchored' first
  have numbered' := (next_move p c inStep.numbered' first).numbered inStep.numbered'
  exact ⟨inStep.secludes.move belongs, inStep.covers, numbered', anchored', later'.grows.live inStep.standing', phase,
    inStep.same.onward later later' confines.standing inStep.standing', parallel⟩

theorem play {moves : List Move} (alone : ByItself p c who call.base count r moves) :
    InStep p ρ who call call' own count (r.play p c moves) (r'.play p c moves) ∧
      ByItself p c who call'.base count r' moves := by
  induction moves generalizing r r' with
  | nil => exact ⟨inStep, trivial⟩
  | cons first moves ih =>
    obtain ⟨belongs, later⟩ := alone
    obtain ⟨played, alone'⟩ := ih (inStep.move c belongs) later
    exact ⟨played, inStep.belongs belongs, alone'⟩

end InStep

end Run

end Strand
