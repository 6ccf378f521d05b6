import Strand.Proofs.Scope.Scripts
import Strand.Proofs.Scope.Steps

/-!
# Names are found in every run

A run of a well-scoped program keeps all its threads where they see what they need, whatever the order
of the moves: a step keeps the thread that takes it, and a task begins in the frame of the thread that
launched it. So whoever looks a name up has the frame of its scope on the way outward, and has just one.
-/

set_option autoImplicit false

namespace Strand

/-- A node whose scope is looked up when a thread goes on: a reference, the name that an assignment
writes, a variable that is declared, or the variable that a `wait` watches. -/
inductive Thread.LooksUp (p : Program) (t : Thread) (n : NodeId) : Prop
  | reference (name : Name) (evaluates : t.control = .eval n)
    (kind : p.arena.kind? n = some (.reference name))
  | assignment (assignment value : NodeId) (name : Name) (evaluates : t.control = .eval assignment)
    (assigns : p.arena.kind? assignment = some (.assignment n value))
    (kind : p.arena.kind? n = some (.reference name))
  | assigned (v : Value) (assignment : NodeId) (name : Name) (rest : List Pending)
    (gives : t.control = .give v) (waits : t.stack = .assignName assignment n name :: rest)
  | declaration (name : Name) (initializer : NodeId) (evaluates : t.control = .eval n)
    (kind : p.arena.kind? n = some (.varDecl name initializer))
  | launched (statement : NodeId) (name : Name) (initializer : NodeId)
    (evaluates : t.control = .eval statement)
    (launches : p.arena.kind? statement = some (.launchDecl n))
    (kind : p.arena.kind? n = some (.varDecl name initializer))
  | declared (v : Value) (name : Name) (rest : List Pending) (gives : t.control = .give v)
    (waits : t.stack = .declaration n name :: rest)
  | watched (v : Value) (call : NodeId) (host : Host) (name : Name) (rest : List Pending)
    (gives : t.control = .give v)
    (waits : t.stack = .argument call (.function (.host host)) (some n) [] [] :: rest)
    (builtin : p.text host.name = "wait") (kind : p.arena.kind? n = some (.reference name))

namespace ScopedProgram

variable {q : ScopedProgram} {fs : Frames} {t : Thread} {n : NodeId}

/-! ## 1. Threads -/

theorem Evaluable.located {name : Name} {f : FrameId} (can : q.Evaluable fs f n)
    (found : q.program.arena.kind? n = some (.reference name)) : q.Located fs f n := by
  obtain ⟨scope, decl, here, -, inside, -⟩ := (q.nodes n _ found).fits
  exact ⟨scope, here, can.sees.1.subset inside⟩

theorem Evaluable.located_declaration {name : Name} {initializer : NodeId} {f : FrameId}
    (can : q.Evaluable fs f n)
    (found : q.program.arena.kind? n = some (.varDecl name initializer)) : q.Located fs f n := by
  obtain ⟨scope, here, head⟩ := (q.nodes n _ found).fits
  exact ⟨scope, here, can.inside head⟩

/-- What a thread looks up has its scope on the way outward. -/
theorem ThreadFine.located (fine : q.ThreadFine fs t) (looks : t.LooksUp q.program n) :
    q.Located fs t.env.current n := by
  obtain ⟨-, -, fine⟩ := fine
  cases looks with
  | reference name evaluates kind =>
    rw [evaluates] at fine
    exact fine.1.located kind
  | assignment assignment value name evaluates assigns kind =>
    rw [evaluates] at fine
    exact (fine.1.operand assigns List.mem_cons_self).located kind
  | assigned v assignment name rest gives waits =>
    rw [gives, waits] at fine
    obtain ⟨-, -, -, located, -⟩ := fine
    exact located
  | declaration name initializer evaluates kind =>
    rw [evaluates] at fine
    exact fine.1.located_declaration kind
  | launched statement name initializer evaluates launches kind =>
    rw [evaluates] at fine
    exact (fine.1.substatement launches rfl List.mem_cons_self).located_declaration kind
  | declared v name rest gives waits =>
    rw [gives, waits] at fine
    obtain ⟨-, -, -, scope, here, inside, -⟩ := fine
    exact ⟨scope, here, inside⟩
  | watched v call host name rest gives waits builtin kind =>
    rw [gives, waits] at fine
    obtain ⟨-, nodes, -⟩ := fine
    exact (nodes n List.mem_cons_self).located kind

theorem ThreadFine.named (fine : q.ThreadFine fs t) {f : Fault}
    (ends : t.outcome? = some (.exit (.fault f))) : f.cause.Named := by
  obtain ⟨env, control, stack⟩ := t
  obtain ⟨-, -, fine⟩ := fine
  cases control with
  | leave e =>
    cases stack with
    | nil =>
      cases ends
      exact fine.1
    | cons => cases ends
  | give v => cases stack <;> cases ends
  | _ => cases ends

/-- A task begins where it was launched, and the launching thread goes on from there. -/
theorem ThreadFine.launch {rest : Thread} {job : Control} (fine : q.ThreadFine fs t)
    (launches : t.launch? = some (job, rest)) :
    q.ThreadFine fs rest ∧ q.ThreadFine fs (.start rest.env job) := by
  obtain ⟨jobs, submits, rfl⟩ := Machine.launch?_eq_some launches
  obtain ⟨root, live, fine⟩ := fine
  rw [submits] at fine
  obtain ⟨each, stack⟩ := fine
  obtain ⟨n, same, usable⟩ := each job List.mem_cons_self
  refine ⟨⟨root, live, fun other member => each other (List.mem_cons_of_mem _ member), stack⟩,
    root, live, ?_⟩
  rw [same]
  exact ⟨usable.toEvaluable, usable.top, [], List.forall_mem_nil _, trivial⟩

/-! ## 2. Machines and runs -/

variable (q) in
/-- Every thread of a machine is fine, and every task that waits to begin will be. -/
structure MachineFine (m : Machine) : Prop where
  world : q.WorldFine m.world
  threads : ∀ who t, m.thread? who = some t → q.ThreadFine m.world.frames t
  jobs : ∀ id env job, m.Waits id env job → q.ThreadFine m.world.frames (.start env job)
  failing : ∀ (i : Nat) (id : TaskId) (f : Fault), m.tasks[i]? = some ⟨id, .failing f⟩ → f.cause.Named
  recorded : ∀ failure ∈ m.world.ledger.failures, failure.fault.cause.Named

theorem WorldFine.same {w w' : World} (fine : q.WorldFine w) (frames : w'.frames = w.frames)
    (heap : w'.heap = w.heap) : q.WorldFine w' := by
  obtain ⟨sound, bindings, fine⟩ := fine
  exact ⟨frames ▸ sound, frames ▸ bindings, by rw [frames, heap]; exact fine⟩

theorem MachineFine.turn {m : Machine} (fine : q.MachineFine m) {who : ThreadId} {t : Thread}
    (found : m.thread? who = some t) : q.TurnFine ((t.inside m.world).step q.program who) :=
  step_fine ⟨fine.world, fine.threads who t found⟩ who

theorem MachineFine.next {m m' : Machine} {seen : Option Sighting} (fine : q.MachineFine m)
    (next : Machine.Next q.program m seen m') : q.MachineFine m' := by
  have world : q.WorldFine m'.world := by
    cases next with
    | turn who t found silent going => exact (fine.turn found).world
    | launch who t rest job found launches =>
      have same : (m.setThread who rest).world = m.world := Machine.world_setThread m who rest
      exact fine.world.same (congrArg (·.frames) same : _) (congrArg (·.heap) same : _)
    | _ => exact fine.world.same rfl rfl
  have later : Frames.Onward q.rootScope m.world.frames m'.world.frames :=
    ⟨next.frames, fine.world.frames.toLinked, world.frames.toLinked⟩
  refine ⟨world, ?_, fun id env job waits => ?_, fun i id f failing => ?_, fun failure recorded => ?_⟩
  · refine next.forall_threads (fun who t found => (fine.threads who t found).onward later)
      (fun who t found _ turned => ?_) (fun who t rest job found launches => ?_)
      fun id env job waits => (fine.jobs id env job waits).onward later
    · subst turned
      exact (fine.turn found).thread
    · exact ((fine.threads who t found).launch launches).1.onward later
  · obtain waited | ⟨who, t, rest, found, launches, rfl, -⟩ := next.waits waits
    · exact (fine.jobs id env job waited).onward later
    · exact ((fine.threads who t found).launch launches).2.onward later
  · obtain before | ⟨who, t, outcome, found, ends, same⟩ := next.failing failing
    · exact fine.failing i id f before
    · obtain rfl | ⟨message, rfl, rfl⟩ := TaskState.ofOutcome_eq_failing.mp same
      · exact (fine.threads who t found).named ends
      · exact fun name same => by cases same
  · rcases next.recorded recorded with before | failing
    · exact fine.recorded failure before
    · exact fine.failing _ _ _ failing

variable (q) in
/-- A run whose machine is fine, and whose host has taken no fault because a name is unbound. -/
structure RunFine (r : Run) : Prop where
  machine : q.MachineFine r.machine
  taken : ∀ failure ∈ r.phase.taken, failure.fault.cause.Named

theorem RunFine.next {c : RunConfig} {r r' : Run} (fine : q.RunFine r)
    (next : Run.Next q.program c r r') : q.RunFine r' := by
  obtain ⟨⟨world, threads, jobs, failing, recorded⟩, taken⟩ := fine
  have fine : q.MachineFine r.machine := ⟨world, threads, jobs, failing, recorded⟩
  cases next with
  | same => exact ⟨fine, taken⟩
  | step seen machine next here => exact ⟨fine.next next, taken⟩
  | look | giveUp => exact ⟨fine, nofun⟩
  | close status drained => exact ⟨⟨world.same rfl rfl, threads, jobs, failing, recorded⟩, nofun⟩
  | report status closed =>
    refine ⟨⟨world.same rfl rfl, threads, jobs, failing, fun failure member => nomatch member⟩,
      fun failure member => recorded failure (Array.mem_toList_iff.mp member)⟩

theorem RunFine.named {r : Run} (fine : q.RunFine r) {f : Fault} (fails : r.Fails f) :
    f.cause.Named := by
  cases fails with
  | thread who t found ends => exact (fine.machine.threads who t found).named ends
  | failing i id task => exact fine.machine.failing i id f task
  | recorded id failure => exact fine.machine.recorded _ failure
  | taken id failure => exact fine.taken _ failure

/-- A constant of the host is no function of the program. -/
theorem plain_constant {text : String} {v : Value} (constant : (text, v) ∈ hostConstants) : v.Plain := by
  simp only [hostConstants, List.mem_cons, Prod.mk.injEq, List.not_mem_nil, or_false] at constant
  rcases constant with ⟨-, rfl⟩ | ⟨-, rfl⟩ | ⟨-, rfl⟩ <;> exact fun function same => by cases same

/-- A run begins with the constants bound, and counts on nothing else. -/
theorem runFine_initial {rules : Rules} (made : q.program.Made q.context rules) (c : RunConfig) :
    q.RunFine (Run.initial q.program c) := by
  obtain ⟨bindings, machine, only, all⟩ := Run.machine_initial_single q.program c
  obtain ⟨statements, found⟩ := made.root
  have scopes : (q.context q.program.root).scopes = [q.rootScope] := made.scopes_root
  have sound := Frames.sound_single q.rootScope bindings
  have linked := sound.toLinked
  have path := linked.path_root
  have fine : ∀ f name v, (Frames.single q.rootScope bindings).lookup f name = some v →
      q.Fine (.single q.rootScope bindings) v := by
    intro f name v bound
    obtain ⟨text, constant⟩ := only name v (Frames.lookup_single bound)
    exact fine_of_plain (plain_constant constant)
  have bound : ∀ x ∈ (q.context q.program.root).names,
      (Frames.single q.rootScope bindings).Bound Frames.root x := by
    intro x member
    have inside : x ∈ constantNames.map (Builder.new.globals.id, ·) ++ [] := by
      rw [made.base] at member
      exact member
    obtain ⟨name, known, rfl⟩ := List.mem_map.mp (List.append_nil _ ▸ inside)
    obtain ⟨text, constant, there⟩ := List.mem_filterMap.mp known
    obtain ⟨v, member⟩ : ∃ v, (text, v) ∈ hostConstants := by
      simp only [List.mem_cons, List.not_mem_nil, or_false] at constant
      rcases constant with rfl | rfl | rfl <;> simp [hostConstants]
    refine ⟨Frames.root, linked.self_mem linked.live_root, ?_, all _ member name ?_⟩
    · rw [linked.scope?_root, Builder.untouched_new.root, ← made.rootScope]
      rfl
    · exact made.interner text name there
  have sequence : ∃ Δ, q.scoping.Sequence (q.context q.program.root) statements Δ :=
    (q.nodes _ _ found).fits
  have control : q.ControlFine (.single q.rootScope bindings) Frames.root
      [.statements q.program.rootStatements] (.give .void) := by
    have statements : q.program.rootStatements = statements := by
      rw [Program.rootStatements, Program.kind_eq_ok.mpr found]
    obtain ⟨Δ, sequence⟩ := sequence
    rw [statements]
    exact ⟨.inl (fine_of_plain fun _ same => by cases same), List.forall_mem_nil _,
      List.forall_mem_nil _, ⟨_, Δ, path.trans scopes.symm, fun x member => .inl (bound x member),
        sequence⟩, trivial⟩
  have unrecorded : ∀ failure, failure ∉ (#[] : Array TaskFailure) := fun _ => Array.not_mem_empty _
  refine ⟨?_, fun failure member => absurd member List.not_mem_nil⟩
  rw [machine]
  refine ⟨⟨sound, fine, Heap.holds_empty _⟩, fun who t found => ?_, fun id env job waits => ?_,
    fun i id f failing => ?_,
    fun failure member => absurd member (unrecorded failure)⟩
  · cases who with
    | main =>
      cases found
      exact ⟨rfl, linked.live_root, control⟩
    | task id => cases found
  · cases waits
  · cases failing

end ScopedProgram

namespace Run

/-- Whatever a script in place does, in whatever order the threads of its run take their steps: a name
that is looked up has exactly one frame of its scope on the way outward, and no thread fails because a
name is unbound. -/
theorem names_found {script : Script} {p : Program} (built : script.program = .ok p)
    (inPlace : script.InPlace) (calls : p.OnlyCallsInside) (c : RunConfig) (moves : List Move) :
    let r := (initial p c).play p c moves
    (∀ who t n, r.machine.thread? who = some t → t.LooksUp p n →
      ∃ scope, p.attrs.scope? n = some scope ∧
        (t.env.chain r.machine.world.frames).countP
          (fun f => r.machine.world.frames.scope? f = some scope) = 1) ∧
    ∀ f, r.Fails f → ∀ name, f.cause ≠ .unboundName name := by
  obtain ⟨context, made⟩ := inPlace.made built
  let q : ScopedProgram := ⟨p, context, made.nodes, calls⟩
  have fine : q.RunFine ((initial p c).play p c moves) :=
    holds_play q.RunFine (ScopedProgram.runFine_initial (q := q) made c)
      (fun _ _ _ fine next => fine.next next) moves
  refine ⟨fun who t n found looks => ?_, fun f fails => fine.named fails⟩
  obtain ⟨scope, here, inside⟩ := (fine.machine.threads who t found).located looks
  exact ⟨scope, here, fine.machine.world.frames.countP_chain inside⟩

/-! ### A function inside a function, launched and waited for -/

def nested : Script :=
  [.function "outer" [("n", .plain .int)] (.plain .int)
      [.function "inner" [] (.plain .int)
        [.ret (some (.binary .add (.reference "n") (.int 1)))],
        .launchVar "x" (.plain .int) "inner" [],
        .expression (.call "wait" [.reference "x"]),
        .ret (some (.reference "x"))],
    .ret (some (.call "outer" [.int 1]))]

def nestedProgram : Program := nested.program.toOption.getD default

theorem nested_built : nested.program = .ok nestedProgram :=
  nested.program_eq_ok (by decide +kernel)

/-- The main program waits for the variable while the task returns. -/
def nestedMoves : List Move :=
  List.replicate 20 .main ++ .start 0 :: List.replicate 12 (.task 0) ++ List.replicate 4 .main

theorem nested_names_found :
    let r := (initial nestedProgram default).play nestedProgram default nestedMoves
    (∀ who t n, r.machine.thread? who = some t → t.LooksUp nestedProgram n →
      ∃ scope, nestedProgram.attrs.scope? n = some scope ∧
        (t.env.chain r.machine.world.frames).countP
          (fun f => r.machine.world.frames.scope? f = some scope) = 1) ∧
    ∀ f, r.Fails f → ∀ name, f.cause ≠ .unboundName name :=
  names_found nested_built (by decide +kernel) (by decide +kernel) default nestedMoves

end Run

end Strand
