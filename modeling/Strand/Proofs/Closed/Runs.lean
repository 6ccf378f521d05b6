import Strand.Proofs.Calls.Order
import Strand.Proofs.Closed.Steps
import Strand.Proofs.Pool

/-!
# Runs that read nothing out of range

What one step of a thread keeps (`Turn.step_inRange`), a machine keeps for all its threads and its waiting
tasks, and with it a run and a session. None of their threads ever crashes, and no task is reported to have
panicked. A program that was built by calls needs no premise: the builder allocates what it mentions, as
long as it is called with nodes that it has returned.
-/

set_option autoImplicit false

namespace Strand

/-! ## 1. Programs -/

instance (p : Program) (n : NodeId) : Decidable (p.Has n) :=
  inferInstanceAs (Decidable ((p.arena.kind? n).isSome = true))

/-- The node that declares something. -/
def Decl.node? : Decl → Option NodeId
  | node n => some n
  | host _ => none

/-- Whether a program is closed can be seen from its nodes, and from the table of what they denote. -/
theorem Program.closed_iff (p : Program) : p.Closed ↔
    (∀ i < p.arena.size, ∀ c ∈ ((p.arena.kind? ⟨i⟩).map NodeKind.children).getD [], p.Has c) ∧
      ∀ x ∈ p.attrs.decls.toList, ∀ d ∈ x.2.node?, p.Has d := by
  constructor
  · rintro ⟨children, decls⟩
    refine ⟨?_, ?_⟩
    · intro i _ c member
      cases found : p.arena.kind? ⟨i⟩ with
      | none =>
        rw [found] at member
        cases member
      | some kind =>
        rw [found] at member
        exact children ⟨i⟩ kind found c member
    · rintro ⟨n, decl⟩ member d same
      have denotes := Std.TreeMap.mem_toList_iff_getElem?_eq_some.mp member
      cases decl with
      | node d' =>
        cases same
        exact decls n d denotes
      | host host => cases same
  · rintro ⟨children, decls⟩
    refine ⟨?_, ?_⟩
    · intro n kind found c member
      have inside : n.index < p.arena.size := Arena.isSome_kind?.mp (by simp [found])
      apply children n.index inside
      rw [show p.arena.kind? ⟨n.index⟩ = some kind from found]
      exact member
    · intro n d denotes
      exact decls (n, .node d) (Std.TreeMap.mem_toList_iff_getElem?_eq_some.mpr denotes) d rfl

instance (p : Program) : Decidable p.Closed := decidable_of_iff _ p.closed_iff.symm

/-! ## 2. Threads -/

/-- A value, a return or a fault. -/
inductive Outcome.Regular : Outcome → Prop
  | value (v : Value) : Regular (.value v)
  | ret (v : Value) : Regular (.exit (.ret v))
  | fault (f : Fault) : Regular (.exit (.fault f))

namespace Thread

/-- A node where the next step of a thread may raise a fault. -/
inductive Locates (t : Thread) (n : NodeId) : Prop
  | eval (evaluates : t.control = .eval n)
  | await (f : FrameId) (name : Name) (waits : t.control = .await n f name)
  | resume (v : Value) (waiting : Pending) (rest : List Pending) (gives : t.control = .give v)
      (stack : t.stack = waiting :: rest) (place : waiting.place? = some n)

/-- Why a thread that is not over takes no step: others hold the lock or the output that it needs, or the
variable that it waits for is not set, or it is in an operation that never ends. -/
inductive Rests (w : World) (who : ThreadId) (t : Thread) : Prop
  | site (site : NodeId) (lock : LockId) (block : NodeId) (at_ : t.control = .enterSite site lock block)
      (taken : w.locks.available lock who = false)
  | lock (lock : LockId) (inside : Control) (at_ : t.control = .acquire lock inside)
      (taken : w.locks.available lock who = false)
  | output (text : String) (at_ : t.control = .startLine text) (taken : w.output.available = false)
  | variable (n : NodeId) (f : FrameId) (name : Name) (at_ : t.control = .await n f name)
      (unset : ((w.frames.lookup f name).any fun v => !v.isVoid) = false)
      (running : w.ledger.closed = false)
  | endless (at_ : t.control = .spin)

/-- A thread that has read nothing out of range, and will not in its next step. -/
structure Safe (p : Program) (w : World) (who : ThreadId) (t : Thread) : Prop where
  intact : ∀ message, t.control ≠ .leave (.crash message)
  located : ∀ n, t.Locates n → p.Has n
  outcome : ∀ outcome, t.outcome? = some outcome → outcome.Regular
  goesOn : t.outcome? = none → t.launch? = none → (t.inside w).ready who = false → t.Rests w who

variable {p : Program} {t : Thread}

theorem InRange.regular (fine : t.InRange p) {outcome : Outcome} (ends : t.outcome? = some outcome) :
    outcome.Regular := by
  obtain ⟨-, ⟨v, -, rfl⟩ | ⟨e, at_, rfl⟩⟩ := outcome?_eq_some ends
  · exact .value v
  · have control := fine.control
    rw [at_] at control
    cases control with
    | leave e inside =>
      cases e with
      | ret v => exact .ret v
      | fault f => exact .fault f
      | crash message => exact inside.elim

theorem InRange.ordinary (fine : t.InRange p) {f : Fault}
    (ends : t.outcome? = some (.exit (.fault f))) : f.cause.Ordinary := by
  obtain ⟨-, ⟨v, -, other⟩ | ⟨e, at_, same⟩⟩ := outcome?_eq_some ends
  · cases other
  · cases same
    have control := fine.control
    rw [at_] at control
    cases control with
    | leave e inside => exact inside

/-- A thread that is not over goes on, or rests. -/
theorem rests_of_not_ready {w : World} {who : ThreadId} (unfinished : t.outcome? = none)
    (silent : t.launch? = none) (waits : (t.inside w).ready who = false) : t.Rests w who := by
  obtain ⟨env, control, stack⟩ := t
  cases control with
  | give v | leave e =>
    obtain rfl : stack = [] := by simpa [Turn.ready, inside] using waits
    cases unfinished
  | enterSite site lock block => exact .site site lock block rfl waits
  | acquire lock inside => exact .lock lock inside rfl waits
  | submit jobs =>
    cases jobs with
    | nil => simp [Turn.ready, inside] at waits
    | cons job jobs => cases silent
  | await n f name =>
    obtain ⟨running, unset⟩ := Bool.or_eq_false_iff.mp waits
    exact .variable n f name rfl unset running
  | startLine text => exact .output text rfl waits
  | spin => exact .endless rfl
  | _ => simp [Turn.ready, inside] at waits

theorem InRange.safe (fine : t.InRange p) (w : World) (who : ThreadId) : t.Safe p w who := by
  refine ⟨?_, ?_, fun outcome => fine.regular, rests_of_not_ready⟩
  · intro message at_
    have control := fine.control
    rw [at_] at control
    cases control with
    | leave e inside => exact inside
  · intro n locates
    have control := fine.control
    cases locates with
    | eval evaluates =>
      rw [evaluates] at control
      cases control with
      | eval n here => exact here
    | await f name waits =>
      rw [waits] at control
      cases control with
      | await n f name here => exact here
    | resume v waiting rest gives stack place =>
      have pending := fine.stack waiting (stack ▸ List.mem_cons_self)
      exact pending.place n place

/-- A task begins with what its launcher has in range. -/
theorem InRange.launch {rest : Thread} {job : Control} (fine : t.InRange p)
    (launches : t.launch? = some (job, rest)) :
    rest.InRange p ∧ (Thread.start rest.env job).InRange p := by
  obtain ⟨jobs, submits, rfl⟩ := Machine.launch?_eq_some launches
  obtain ⟨control, stack⟩ := fine
  rw [submits] at control
  cases control with
  | submit jobs each =>
    obtain ⟨first, others⟩ := List.forall_mem_cons.mp each
    exact ⟨⟨.submit _ others, stack⟩, first, List.forall_mem_nil _⟩

end Thread

/-! ## 3. Machines and runs -/

/-- Everything that a machine has is in range, and no task has panicked. -/
structure Machine.InRange (p : Program) (m : Machine) : Prop where
  world : m.world.InRange p
  each : m.Each (Thread.InRange p)
  failing : ∀ (i : Nat) (id : TaskId) (f : Fault), m.tasks[i]? = some ⟨id, .failing f⟩ → f.cause.Ordinary
  recorded : ∀ failure ∈ m.world.ledger.failures, failure.fault.cause.Ordinary

/-- A run whose machine is in range, and whose host has heard of no panic. -/
structure Run.InRange (p : Program) (r : Run) : Prop where
  machine : r.machine.InRange p
  taken : ∀ failure ∈ r.phase.taken, failure.fault.cause.Ordinary

/-- A run that has read nothing out of range. -/
structure Run.Safe (p : Program) (r : Run) : Prop where
  threads : ∀ who t, r.machine.thread? who = some t → t.Safe p r.machine.world who
  faults : ∀ f, r.Fails f → ∀ message, f.cause ≠ .taskPanicked message

variable {p : Program}

theorem World.InRange.same {w w' : World} (fine : w.InRange p) (frames : w'.frames = w.frames)
    (heap : w'.heap = w.heap) : w'.InRange p :=
  ⟨frames ▸ fine.bindings, heap ▸ fine.heap⟩

theorem Machine.InRange.next (closed : p.Closed) {m m' : Machine} {seen : Option Sighting}
    (fine : m.InRange p) (next : Machine.Next p m seen m') : m'.InRange p := by
  have turn : ∀ who t, m.thread? who = some t → ((t.inside m.world).step p who).InRange p :=
    fun who t found => Turn.step_inRange closed who ⟨fine.world, fine.each.threads who t found⟩
  refine ⟨?_, ?_, ?_, ?_⟩
  · cases next with
    | turn who t found silent going => exact (turn who t found).world
    | launch who t rest job found launches =>
      have same : (m.setThread who rest).world = m.world := Machine.world_setThread m who rest
      exact fine.world.same (congrArg World.frames same :) (congrArg World.heap same :)
    | _ => exact fine.world.same rfl rfl
  · apply fine.each.next next
    · intro who t found _
      exact (turn who t found).thread
    · intro t rest job inside
      exact inside.launch
  · intro i id f failing
    obtain before | ⟨who, t, outcome, found, ends, same⟩ := next.failing failing
    · exact fine.failing i id f before
    · have thread := fine.each.threads who t found
      obtain rfl | ⟨message, rfl, -⟩ := TaskState.ofOutcome_eq_failing.mp same
      · exact thread.ordinary ends
      · cases thread.regular ends
  · intro failure recorded
    rcases next.recorded recorded with before | failing
    · exact fine.recorded failure before
    · exact fine.failing _ _ _ failing

namespace Run

theorem InRange.next (closed : p.Closed) {c : RunConfig} {r r' : Run} (fine : r.InRange p)
    (next : Run.Next p c r r') : r'.InRange p := by
  obtain ⟨machine, taken⟩ := fine
  have ledger : ∀ ledger, (∀ x ∈ ledger.failures, x ∈ r.machine.world.ledger.failures) →
      { r.machine with world.ledger := ledger }.InRange p := by
    intro ledger fewer
    exact ⟨machine.world.same rfl rfl, ⟨machine.each.threads, machine.each.jobs⟩, machine.failing,
      fun failure member => machine.recorded failure (fewer failure member)⟩
  cases next with
  | same => exact ⟨machine, taken⟩
  | step seen m' next here => exact ⟨machine.next closed next, taken⟩
  | look | giveUp => exact ⟨machine, nofun⟩
  | close status drained => exact ⟨ledger _ fun _ => id, nofun⟩
  | report status closed =>
    refine ⟨ledger _ fun _ member => absurd member (Array.not_mem_empty _), ?_⟩
    intro failure member
    exact machine.recorded failure (Array.mem_toList_iff.mp member)

theorem InRange.safe {r : Run} (fine : r.InRange p) : r.Safe p := by
  refine ⟨fun who t found => (fine.machine.each.threads who t found).safe _ who, ?_⟩
  intro f fails
  cases fails with
  | thread who t found ends => exact (fine.machine.each.threads who t found).ordinary ends
  | failing i id task => exact fine.machine.failing i id f task
  | recorded id failure => exact fine.machine.recorded _ failure
  | taken id failure => exact fine.taken _ failure

theorem InRange.play (closed : p.Closed) {c : RunConfig} {r : Run} (numbered : r.machine.Numbered)
    (fine : r.InRange p) (moves : List Move) : (r.play p c moves).InRange p :=
  (play_induction numbered fine (fun _ _ _ fine next => fine.next closed next) moves).2

/-- A constant of the host is in range. -/
theorem inRange_constant {text : String} {v : Value} (constant : (text, v) ∈ hostConstants) :
    v.InRange p := by
  simp only [hostConstants, List.mem_cons, Prod.mk.injEq, List.not_mem_nil, or_false] at constant
  rcases constant with ⟨-, rfl⟩ | ⟨-, rfl⟩ | ⟨-, rfl⟩ <;> trivial

theorem has_of_mem_rootStatements (closed : p.Closed) : ∀ n ∈ p.rootStatements, p.Has n := by
  unfold Program.rootStatements
  split
  · next statements found =>
    intro n member
    exact closed.child (Program.kind_eq_ok.mp found) member
  · exact List.forall_mem_nil _

end Run

/-! ## 4. Sessions -/

namespace Session

/-- A session whose machine is in range. -/
structure InRange (s : Session) : Prop where
  numbered : s.pool.machine.Numbered
  machine : s.pool.machine.InRange s.program

/-- The result of an evaluation: if it ends, it ends regularly, and the session can go on. -/
structure Fine (result : Option Outcome × Session) : Prop where
  regular : ∀ outcome, result.1 = some outcome → outcome.Regular
  inRange : result.2.InRange

variable {s : Session}

/-- A session begins with the constants bound, and nothing else. -/
theorem inRange_bindConstants (p : Program) (c : RunConfig) : (start p c).bindConstants.InRange := by
  obtain ⟨frames, -, bound⟩ := Run.pool_bindConstants (start p c)
  obtain ⟨bindings, alone, only, -⟩ := Run.bindConstants_single (start p c) rfl
    (rfl : (start p c).world.frames = .single p.attrs.rootScope .empty)
  rw [world, bound] at alone
  obtain rfl : frames = .single p.attrs.rootScope bindings := alone
  refine ⟨?_, ?_⟩ <;> rw [bound]
  · refine ⟨rfl, ?_⟩
    intro i task found
    cases found
  · have none : ∀ failure, failure ∉ (#[] : Array TaskFailure) := fun _ => Array.not_mem_empty _
    refine ⟨⟨?_, Heap.holds_empty _⟩, ⟨?_, nofun⟩, nofun, fun failure member => absurd member (none _)⟩
    · intro f name v found
      rcases only name v (Frames.lookup_single found) with before | ⟨text, constant⟩
      · cases before
      · exact Run.inRange_constant constant
    · intro who t found
      cases who with
      | task id => cases found
      | main =>
        cases found
        exact ⟨.give _ trivial, List.forall_mem_nil _⟩

theorem InRange.setMain (fine : s.InRange) {control : Control} {stack : List Pending}
    (leads : control.InRange s.program) (waits : ∀ waiting ∈ stack, waiting.InRange s.program) :
    (s.setMain control stack).InRange := by
  obtain ⟨⟨next, ids⟩, world, ⟨threads, jobs⟩, failing, recorded⟩ := fine
  refine ⟨⟨next, ids⟩, world, ⟨?_, jobs⟩, failing, recorded⟩
  intro who t found
  cases who with
  | task id => exact threads (.task id) t found
  | main =>
    cases found
    exact ⟨leads, waits⟩

/-- The pool keeps what every step of its machine keeps. -/
theorem perform_fine (closed : s.program.Closed) {control : Control} {stack : List Pending}
    (start : (s.setMain control stack).InRange) : Fine (s.perform control stack) := by
  have kept := s.perform_keeps
    (Machine.kept_of_next fun m m' seen fine next => Machine.InRange.next closed fine next)
    control stack ⟨start.numbered, start.machine⟩
  refine ⟨?_, kept.1, kept.2⟩
  intro outcome ends
  exact (kept.2.each.threads .main _ rfl).regular ends

/-- The outcome of a root node is that of its statements, but for a return. -/
theorem evalRoot_fine (closed : s.program.Closed) (fine : s.InRange) {root : NodeId}
    (here : s.program.Has root) : Fine (s.evalRoot root) := by
  obtain ⟨kind, read, found⟩ := here.kind_eq_ok
  simp only [evalRoot, read]
  cases kind with
  | root statements =>
    have waits : ∀ waiting ∈ [Pending.statements statements], waiting.InRange s.program :=
      List.forall_mem_singleton.mpr (Pending.inRange_statements fun n => closed.child found)
    obtain ⟨regular, inRange⟩ := perform_fine closed (fine.setMain (.give .void trivial) waits)
    refine ⟨?_, inRange⟩
    intro outcome same
    obtain ⟨raw, ends, rfl⟩ := Option.map_eq_some_iff.mp same
    cases regular raw ends with
    | value v => exact .value .void
    | ret v => exact .value v
    | fault f => exact .fault f
  | _ =>
    refine ⟨?_, fine⟩
    rintro outcome ⟨⟩
    exact .fault _

end Session

namespace Run

theorem inRange_initial (closed : p.Closed) (c : RunConfig) : (initial p c).InRange p := by
  have same : (Session.start p c).bindConstants.program = p := (program_bindConstants _).1
  have fine := Session.inRange_bindConstants p c
  refine ⟨?_, fun failure member => nomatch member⟩
  have waits : ∀ waiting ∈ [Pending.statements p.rootStatements],
      waiting.InRange (Session.start p c).bindConstants.program := by
    rw [same]
    exact List.forall_mem_singleton.mpr (Pending.inRange_statements (has_of_mem_rootStatements closed))
  have machine : (initial p c).machine.InRange (Session.start p c).bindConstants.program :=
    (fine.setMain (.give .void trivial) waits).machine
  rwa [same] at machine

/-- A run of a whole program ends in no crash, and reports none. -/
theorem run_fine (closed : p.Closed) (root : p.Has p.root) (c : RunConfig) :
    (∀ message, (Session.run p c).1 ≠ .crash message) ∧
      ∀ report, (Session.run p c).1 = .report report →
        ∀ failure ∈ report.failures, ∀ message, failure.fault.cause ≠ .taskPanicked message := by
  refine ⟨?_, ?_⟩
  · have same := (program_bindConstants (Session.start p c)).1
    have fine := Session.inRange_bindConstants p c
    intro message crashed
    simp only [Session.run] at crashed
    generalize (Session.start p c).bindConstants = s at same fine crashed
    obtain ⟨program, config, pool⟩ := s
    obtain rfl : program = p := same
    have regular := (Session.evalRoot_fine closed fine root).regular
    generalize Session.evalRoot _ _ = result at regular crashed
    obtain ⟨outcome, s⟩ := result
    rcases outcome with _ | v | v | f | message
    · cases crashed
    · simp only [Session.conclude] at crashed
      split at crashed <;> cases crashed
    · simp only [Session.conclude] at crashed
      split at crashed <;> cases crashed
    · simp only [Session.conclude] at crashed
      split at crashed <;> cases crashed
    · cases regular _ rfl
  · intro report same failure member
    obtain ⟨moves, -, phase⟩ := run_is_played (Prod.ext same rfl : Session.run p c = (.report report, _))
    have fine := (inRange_initial closed c).play closed (numbered_initial p c) (c := c) moves
    apply fine.taken failure
    rw [phase]
    exact member

end Run

/-! ## 5. Programs that were built -/

namespace Recording.Agrees

variable {events : List Event} {b : Builder}

/-- What a reference denotes is the host's, or it is a node. -/
theorem has_of_decl (h : Agrees events .top [] b) {n d : NodeId}
    (denotes : b.program.attrs.decl? n = some (.node d)) : b.program.Has d := by
  have denotes : b.rooted.attrs.decl? n = some (.node d) := denotes
  have older : n ≠ ⟨b.arena.size⟩ := by
    rintro rfl
    have known : b.rooted.attrs.decl? ⟨b.arena.size⟩ = b.attrs.decl? ⟨b.arena.size⟩ := rfl
    rw [known, h.nodes.fresh (Arena.kind?_size _)] at denotes
    cases denotes
  rw [b.makes_rooted.attrs.decl n older] at denotes
  obtain ⟨name, found⟩ := h.nodes.refers n (by simp [denotes])
  obtain ⟨e, member, made⟩ := h.nodes.origin n (by simp [found])
  obtain ⟨before, happens⟩ := exists_happens member
  have holds := h.nodes.holds before e happens
  rcases shape_of_made holds made found with plain | ⟨path, text, name, rfl, -⟩ |
    ⟨_, _, _, _, _, -, other⟩ | ⟨_, _, -, other⟩
  · cases plain
  · obtain ⟨name, -, -, decl, resolved⟩ := holds
    rw [denotes] at decl
    obtain ⟨⟨meaning, s⟩, resolves, isNode⟩ := Option.map_eq_some_iff.mp decl.symm
    obtain ⟨there, -⟩ := (resolved meaning s resolves).2 d isNode
    exact b.makes_rooted.keeps.isSome there
  · cases other
  · cases other

/-- A program is closed if the builder was called with nodes that it had returned. -/
theorem program_closed (h : Agrees events .top [] b) (ordered : Ordered events) : b.program.Closed := by
  refine ⟨?_, fun n d => h.has_of_decl⟩
  intro n kind found c member
  have there := h.kind_of_complete (h.child ordered ⟨kind, found, member⟩).1
  exact b.makes_rooted.keeps.isSome there

end Recording.Agrees

theorem Call.closed_of_program {calls : List Call} {p : Program} (sound : Sound (Call.events calls))
    (built : Call.program calls = .ok p) : p.Closed ∧ p.Has p.root := by
  have ordered := (Call.ordersAll .top calls).ordered preludeEvents ordered_prelude (List.forall_mem_nil _) sound
  rw [Call.program_eq] at built
  split at built
  · cases built
  · cases built
    refine ⟨(Call.agrees calls).program_closed ordered.1, ?_⟩
    exact Option.isSome_iff_exists.mpr ⟨_, (Call.built calls).makes_rooted.own⟩

namespace Run

/-- A program that mentions no node outside of its arena never reads one, whatever else is wrong with it, and
whatever its frames and its heap hold, as long as they do not hold one either: no thread crashes, whatever
the moves are, and whoever is over has a value, a return or a fault. The same holds of what a session
evaluates, calls, or runs as a root, and it ends in range again. A program that was built is such a program. -/
theorem never_out_of_range :
    (∀ p : Program, p.Closed →
      (∀ (c : RunConfig) (r : Run) (moves : List Move), r.machine.Numbered → r.InRange p →
        (r.play p c moves).Safe p) ∧
      (∀ s : Session, s.program = p → s.InRange →
        (∀ n, p.Has n → Session.Fine (s.eval n)) ∧
        (∀ function arguments, p.Has function → (∀ v ∈ arguments, v.InRange p) →
          Session.Fine (s.call function arguments)) ∧
        ∀ root, p.Has root → Session.Fine (s.evalRoot root)) ∧
      (p.Has p.root → ∀ c : RunConfig, (initial p c).InRange p ∧
        (∀ message, (Session.run p c).1 ≠ .crash message) ∧
        ∀ report, (Session.run p c).1 = .report report →
          ∀ failure ∈ report.failures, ∀ message, failure.fault.cause ≠ .taskPanicked message)) ∧
    ∀ (calls : List Call) (p : Program), Sound (Call.events calls) → Call.program calls = .ok p →
      p.Closed ∧ p.Has p.root ∧ ∀ (c : RunConfig) (moves : List Move),
        ((initial p c).play p c moves).Safe p := by
  refine ⟨?_, ?_⟩
  · intro p closed
    refine ⟨?_, ?_, ?_⟩
    · intro c r moves numbered fine
      exact (fine.play closed numbered moves).safe
    · rintro s rfl fine
      refine ⟨?_, ?_, fun root => Session.evalRoot_fine closed fine⟩
      · intro n here
        exact Session.perform_fine closed (fine.setMain (.eval n here) (List.forall_mem_nil _))
      · intro function arguments here values
        exact Session.perform_fine closed
          (fine.setMain (.invoke none function arguments here values) (List.forall_mem_nil _))
    · intro root c
      exact ⟨inRange_initial closed c, run_fine closed root c⟩
  · intro calls p sound built
    obtain ⟨closed, root⟩ := Call.closed_of_program sound built
    refine ⟨closed, root, ?_⟩
    intro c moves
    exact ((inRange_initial closed c).play closed (numbered_initial p c) moves).safe

/-! ### A program with nodes in wrong places -/

/-- The program launches a call of a field declaration, and then evaluates a reference that denotes it. There
are no texts, no scopes and no types. -/
def misplacedProgram : Program where
  arena := ⟨#[⟨.root [⟨1⟩, ⟨4⟩], .dummy⟩, ⟨.launch ⟨2⟩, .dummy⟩, ⟨.call ⟨3⟩ [], .dummy⟩,
    ⟨.fieldDecl ⟨7⟩, .dummy⟩, ⟨.reference ⟨8⟩, .dummy⟩]⟩
  attrs := Attributes.empty.setDecl ⟨4⟩ (.node ⟨3⟩)
  interner := .new
  root := ⟨0⟩

/-- The task and the main program fail, and neither has panicked. The host may call the field itself, and a
program that was built needs no such care. -/
theorem misplaced_never_out_of_range :
    (let r := (initial misplacedProgram default).play misplacedProgram default
      (List.replicate 7 .main ++ .start 0 :: List.replicate 6 (.task 0))
    r.machine.main.outcome?.isSome ∧ r.machine.tasks.size = 1 ∧ r.Safe misplacedProgram) ∧
    Session.Fine ((Session.start misplacedProgram default).bindConstants.call ⟨3⟩ [.constructor ⟨4⟩]) ∧
    let calls : List Call := [.function "f" [] .int [.ret none], .launch "f" []]
    ∃ p, Call.program calls = .ok p ∧ p.Closed ∧
      ∀ moves, ((initial p default).play p default moves).Safe p := by
  refine ⟨?_, ?_, ?_⟩
  · have closed : misplacedProgram.Closed := by decide +kernel
    obtain ⟨runs, -, begins⟩ := never_out_of_range.1 misplacedProgram closed
    have start := (begins (by decide +kernel) default).1
    exact ⟨by decide +kernel, by decide +kernel,
      runs default _ _ (numbered_initial misplacedProgram default) start⟩
  · have closed : misplacedProgram.Closed := by decide +kernel
    have same := (program_bindConstants (Session.start misplacedProgram default)).1
    have fine := Session.inRange_bindConstants misplacedProgram default
    obtain ⟨-, sessions, -⟩ := never_out_of_range.1 misplacedProgram closed
    refine (sessions _ same fine).2.1 ⟨3⟩ [.constructor ⟨4⟩] (by decide +kernel) ?_
    exact List.forall_mem_singleton.mpr (by decide +kernel : misplacedProgram.Has ⟨4⟩)
  · intro calls
    have sound : Sound (Call.events calls) := by decide +kernel
    have fine : problems (Call.events calls) = [] := by decide +kernel
    have built : Call.program calls = .ok (Call.built calls).program := by rw [Call.program_eq, fine]; rfl
    obtain ⟨closed, -, safe⟩ := never_out_of_range.2 calls _ sound built
    exact ⟨_, built, closed, safe default⟩

end Run

end Strand
