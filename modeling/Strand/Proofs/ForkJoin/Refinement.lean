import Mathlib
import Strand.Proofs.ForkJoin.Sequence

/-!
# Launching and waiting refines declaring

When the main program has come to its return, no task does anything any more, so what it returns is
evaluated in a world that is alike to the one of the program in sequence (`ForkJoin.After`). Whatever the
interleaving was, both programs come to the same result from there on, or neither does
(`Run.launches_refine`).
-/

set_option autoImplicit false

namespace Strand

namespace World

variable {Z : Region} {R : Pairing} {w w' w₁ : World}

/-- What is neither on the heap nor in a frame, nor printed, does not matter. -/
theorem Like.of_eq (like : w.Like Z R w') (frames : w₁.frames = w.frames) (heap : w₁.heap = w.heap)
    (output : w₁.output = w.output) : w₁.Like Z R w' :=
  like.keeps (keeps_of_eq frames heap output) fun _ _ _ _ => trivial

theorem Like.of_eq' (like : w.Like Z R w') (frames : w₁.frames = w'.frames) (heap : w₁.heap = w'.heap)
    (output : w₁.output = w'.output) : w.Like Z R w₁ := by
  have cells : ∀ x, w₁.cell? x = w'.cell? x := by
    intro x
    cases x <;> simp only [cell?, frames, heap]
  refine ⟨like.one, like.root, fun x x' pair => ?_, like.linked, frames ▸ like.linked', output ▸ like.output⟩
  rw [cells]
  exact like.cells x x' pair

end World

/-- Two threads that are alike are over together. -/
theorem Turn.Like.isOver_iff {Z : Region} {R : Pairing} {s t : Turn} (like : s.Like Z [] R t) :
    s.thread.outcome?.isSome ↔ t.thread.outcome?.isSome := by
  have alike := like.outcome
  generalize s.thread.outcome? = o at alike
  generalize t.thread.outcome? = o' at alike
  cases alike <;> rfl

namespace ForkJoin

variable {p : Program} (x : ForkJoin p) (w₀ : World)

/-! ## 1. The main program after its return -/

/-- The main program evaluates what it returns: it is alike to the program in sequence at some time, and
no task goes on. -/
structure After (m : Machine) : Prop where
  idle : ∀ (i : Nat) (task : Task), m.tasks[i]? = some task → task.state.IsOver
  alike : ∃ J s, Turn.Reaches p (x.begun w₀) s ∧ (m.main.inside m.world).Like x.outer [] J s

variable {x w₀} {m m' : Machine}

/-- At its return the main program is alike to the program in sequence. -/
theorem Before.returns (before : x.Before w₀ m) (base : w₀.Like x.inner rootPair w₀)
    (returns : m.main.control = .eval x.last) : x.After w₀ (m.stepMain p) := by
  obtain ⟨main, all, settled⟩ := before.last returns
  obtain ⟨⟨R, ws, crew⟩, -, -⟩ := before
  obtain ⟨gathered, idle⟩ := crew.gathered all settled
  have solved : ∀ i k, x.forks[i]? = some k → ∃ v', Solved p w₀ k (ws i) v' := by
    intro i k fork
    obtain ⟨inside, -⟩ := List.getElem?_eq_some_iff.mp fork
    obtain ⟨-, v', solved, -⟩ := gathered.each i k inside fork
    exact ⟨v', solved⟩
  obtain ⟨Q, w', reaches, sequence⟩ := gathers base solved
  have worlds := gathered.like sequence
  obtain ⟨w, t, tasks⟩ := m
  obtain rfl : t = ⟨.outermost, .eval x.last, [.statements []]⟩ := main
  have step : (Thread.inside ⟨.outermost, .eval x.last, [.statements []]⟩ w).step p .main =
      (x.returning w).thread.inside w := by
    simp only [Thread.inside, Turn.step, Program.kind, x.returns]
    rfl
  rw [Machine.stepMain_of_step tasks rfl step]
  have plain : ∀ waiting ∈ [Pending.returned, .statements []], waiting.Within x.outer := by
    intro waiting member
    simp only [List.mem_cons, List.not_mem_nil, or_false] at member
    rcases member with rfl | rfl <;> exact .plain (List.forall_mem_nil _) rfl
  exact ⟨idle, _, _, reaches, worlds, ⟨rfl, rfl, worlds.root⟩,
    .eval _ (List.mem_append_left _ x.reads),
    .cons (.same _ rfl) (plain _ (by simp)) (.cons (.same _ rfl) (plain _ (by simp)) .bottom)⟩

/-- The program in sequence launches nothing, and does not begin anew. -/
theorem After.calm (after : x.After w₀ m) {u : Turn} (reaches : Turn.Reaches p (x.begun w₀) u) :
    u.thread.launch? = none ∧ u.control ≠ .eval p.root := by
  obtain ⟨J, s, reached, like⟩ := after.alike
  rcases reaches.total reached with before | later
  · cases before using Relation.ReflTransGen.head_induction_on with
    | refl => exact ⟨like.launch?.2, (like.ne_root x.outer_closed ⟨_, x.root⟩).2⟩
    | head goes => exact ⟨goes.1, goes.2.1⟩
  · obtain ⟨s', -, ⟨J', -, like'⟩, -⟩ := like.run x.outer_closed ⟨_, x.root⟩ later
    exact ⟨like'.launch?.2, (like'.ne_root x.outer_closed ⟨_, x.root⟩).2⟩

/-- The main program goes on like the program in sequence, whoever moves. -/
theorem After.next (after : x.After w₀ m) {seen : Option Sighting} (numbered : m.Numbered)
    (next : Machine.Next p m seen m') : x.After w₀ m' := by
  obtain ⟨idle, J, s, reached, like⟩ := after
  -- a task that changes its state is over, too
  have put : ∀ {id : TaskId} {state : TaskState}, state.IsOver → ∀ (i : Nat) (task : Task),
      (m.setTask id state).tasks[i]? = some task → task.state.IsOver := by
    intro id state ended i task found
    rw [Machine.tasks_setTask, Array.getElem?_setIfInBounds] at found
    split at found
    · split at found
      · cases found
        exact ended
      · cases found
    · exact idle i task found
  cases next with
  | idle => exact ⟨idle, J, s, reached, like⟩
  | turn who t found silent going =>
    cases who with
    | main =>
      cases found
      refine ⟨idle, ?_⟩
      cases ended : s.thread.outcome? with
      | none =>
        obtain ⟨J', evolves, like'⟩ := like.step x.outer_closed .main .main (Turn.going_of_outcome ended)
        exact ⟨J', _, reached.tail (like.goes x.outer_closed ⟨_, x.root⟩).2, like'⟩
      | some o =>
        have same := like.outcome
        rw [ended] at same
        generalize over_ : (m.main.inside m.world).thread.outcome? = o' at same
        cases same with
        | some alike =>
          have still : (m.main.inside m.world).step p .main = m.main.inside m.world :=
            Turn.step_of_outcome p m.world .main over_
          rw [still]
          exact ⟨J, s, reached, like⟩
    | task id =>
      have ended : t.outcome?.isSome := idle _ _ (numbered.found found)
      rw [going.resolve_left nofun] at ended
      cases ended
  | launch who t rest job found launches =>
    cases who with
    | main =>
      cases found
      have silent : m.main.launch? = none := like.launch?.1
      rw [silent] at launches
      cases launches
    | task id =>
      have ended : (TaskState.running t).IsOver := idle _ _ (numbered.found found)
      rw [ended.launch?] at launches
      cases launches
  | start id env job found => exact (idle _ _ found).elim
  | finished id t outcome found ended =>
    exact ⟨put (TaskState.isOver_ofOutcome outcome), J, s, reached, like⟩
  | record id f found =>
    exact ⟨put trivial, J, s, reached, like.world.of_eq rfl rfl rfl, like.env, like.control, like.stack⟩
  | release id found =>
    exact ⟨put trivial, J, s, reached, like.world.of_eq rfl rfl rfl, like.env, like.control, like.stack⟩

/-- What the host does to the run does not matter. -/
theorem After.of_ledger (after : x.After w₀ m) (ledger : Ledger) :
    x.After w₀ { m with world := { m.world with ledger } } := by
  obtain ⟨idle, J, s, reached, like⟩ := after
  exact ⟨idle, J, s, reached, like.world.of_eq rfl rfl rfl, like.env, like.control, like.stack⟩

end ForkJoin

/-! ## 2. Any interleaving -/

/-- The main program stands still while others move. -/
theorem Machine.Next.main_eq {p : Program} {m m' : Machine} {seen : Option Sighting}
    (next : Next p m seen m') (others : ∀ t, seen ≠ some ⟨.main, t⟩) : m'.main = m.main := by
  cases next with
  | turn who t found silent going =>
    cases who with
    | main => exact absurd rfl (others t)
    | task id => rfl
  | launch who t rest job found launches =>
    cases who with
    | main => exact absurd rfl (others t)
    | task id => rfl
  | _ => rfl

namespace Run

variable {p : Program} {c : RunConfig}

/-- The main program has come to a node. -/
def MainReached (r : Run) (n : NodeId) : Prop :=
  ∃ seen ∈ r.history, seen.who = .main ∧ seen.evaluates n = true

/-- The main program has not come to its return yet, or it goes on like the program in sequence. -/
inductive Unfolds (x : ForkJoin p) (w₀ : World) (r : Run) : Prop
  | before (evaluating : r.phase = .evaluating) (before : x.Before w₀ r.machine)
      (unreached : ¬ r.MainReached x.last)
  | after (after : x.After w₀ r.machine)
      (still : r.phase = .evaluating ∨ r.machine.main.outcome?.isSome)

variable {x : ForkJoin p} {w₀ : World} {r r' : Run}

theorem Unfolds.next (unfolds : Unfolds x w₀ r) (base : w₀.Like x.inner rootPair w₀)
    (numbered : r.machine.Numbered) (next : Next p c r r') : Unfolds x w₀ r' := by
  cases unfolds with
  | before evaluating before unreached =>
    have busy : r.machine.main.outcome? = none := by
      obtain ⟨-, -, js, -, stands⟩ := before
      exact stands.unfinished
    have undone : r.machine.main.isDone = true → False := by
      intro done
      have over_ := Thread.isSome_of_isDone done
      rw [busy] at over_
      cases over_
    cases next with
    | same => exact .before evaluating before unreached
    | step seen machine next here =>
      -- who is seen now has not been seen before
      have onward : ∀ seen' : Sighting, seen' ∈ seen.toList ++ r.history → seen'.who = .main →
          seen'.evaluates x.last = true → seen = some seen' := by
        intro seen' member main returns
        rcases List.mem_append.mp member with now | earlier
        · exact Option.mem_toList.mp now
        · exact absurd ⟨seen', earlier, main, returns⟩ unreached
      by_cases mine : ∃ t, seen = some ⟨.main, t⟩
      · obtain ⟨t, rfl⟩ := mine
        obtain ⟨rfl, rfl⟩ := next.ofMain
        by_cases returns : r.machine.main.control = .eval x.last
        · exact .after (before.returns base returns) (.inl evaluating)
        · refine .before evaluating (before.step returns) ?_
          rintro ⟨seen', member, main, evaluates⟩
          cases onward seen' member main evaluates
          exact returns (Sighting.evaluates_iff.mp evaluates)
      · have others : ∀ t, seen ≠ some ⟨.main, t⟩ := fun t same => mine ⟨t, same⟩
        obtain ⟨R, ws, crew⟩ := before.crew
        refine .before evaluating (before.beside (crew.next numbered next others)) ?_
        rintro ⟨⟨who, t⟩, member, main, evaluates⟩
        obtain rfl : who = .main := main
        exact others t (onward _ member rfl evaluates)
    | look waits finished => exact (undone finished).elim
    | giveUp waits finished => exact (undone finished).elim
    | close status drained =>
      rw [evaluating] at drained
      cases drained
    | report status closed =>
      rw [evaluating] at closed
      cases closed
  | after after still =>
    have over_ : r.phase ≠ .evaluating → r.machine.main.outcome?.isSome := still.resolve_left
    cases next with
    | same => exact .after after still
    | step seen machine next here =>
      refine .after (after.next numbered next) ?_
      by_cases evaluating : r.phase = .evaluating
      · exact .inl evaluating
      · rw [next.main_eq (here.resolve_left evaluating)]
        exact .inr (over_ evaluating)
    | look waits finished => exact .after after (.inr (Thread.isSome_of_isDone finished))
    | giveUp waits finished => exact .after after (.inr (Thread.isSome_of_isDone finished))
    | close status drained => exact .after (after.of_ledger _) (.inr (over_ (by rw [drained]; nofun)))
    | report status closed => exact .after (after.of_ledger _) (.inr (over_ (by rw [closed]; nofun)))

/-- Before the first move only the constants are bound, and nothing has been launched. -/
theorem unfolds_initial (x : ForkJoin p) (c : RunConfig) :
    (initial p c).machine.world.Like x.inner rootPair (initial p c).machine.world ∧
      Unfolds x (initial p c).machine.world (initial p c) := by
  obtain ⟨bindings, machine, only, -⟩ := machine_initial_single p c
  have base : (initial p c).machine.world.Like x.inner rootPair (initial p c).machine.world := by
    rw [machine]
    have linked := (Frames.sound_single p.attrs.rootScope bindings).toLinked
    have one : Relator.BiUnique rootPair :=
      ⟨fun _ _ _ h h' => h.1.trans h'.1.symm, fun _ _ _ h h' => h.2.trans h'.2.symm⟩
    refine ⟨one, ⟨rfl, rfl⟩, ?_, linked, linked, .refl _⟩
    rintro - - ⟨rfl, rfl⟩
    refine ⟨_, _, rfl, rfl, .frame _ _ ⟨rfl, .none, fun name _ => ?_⟩⟩
    show Option.Rel _ (bindings.find? name) (bindings.find? name)
    cases found : bindings.find? name with
    | none => exact .none
    | some v =>
      obtain ⟨text, constant⟩ := only name v found
      simp only [hostConstants, List.mem_cons, Prod.mk.injEq, List.not_mem_nil, or_false] at constant
      rcases constant with ⟨-, rfl⟩ | ⟨-, rfl⟩ | ⟨-, rfl⟩ <;> exact .some (by constructor)
  refine ⟨base, .before rfl ⟨⟨fun _ => rootPair, fun _ => (initial p c).machine.world, ?_⟩, ?_, ?_⟩ ?_⟩
  · rw [machine] at base ⊢
    refine ⟨⟨base, ?_, ?_⟩, ?_⟩
    · simp
    · simp
    · simp
  · rw [machine]
    rfl
  · rw [machine]
    refine ⟨x.joins, fun j member => .inl member, ?_⟩
    have statements : p.rootStatements = x.functions ++ x.forks.map Fork.statement ++
        x.joins.map Join.statement ++ [x.last] := by
      simp only [Program.rootStatements, Program.kind, x.root]
    rw [statements]
    exact .between _ _ _ _ (.functions _ fun _ => id)
  · rintro ⟨seen, member, -⟩
    cases member

theorem unfolds_play (x : ForkJoin p) (c : RunConfig) (moves : List Move) :
    Unfolds x (initial p c).machine.world ((initial p c).play p c moves) := by
  obtain ⟨base, start⟩ := unfolds_initial x c
  exact holds_play _ start (fun _ _ numbered unfolds next => unfolds.next base numbered next) moves

/-! ## 3. The run of a program by itself -/

/-- As many moves of the main program as a turn needs to be reached. -/
theorem plays_main (p : Program) (c : RunConfig) {r : Run} (evaluating : r.phase = .evaluating) {s : Turn}
    (reaches : Turn.Reaches p (r.machine.main.inside r.machine.world) s) :
    ∃ n, (r.play p c (List.replicate n .main)).machine = ⟨s.world, s.thread, r.machine.tasks⟩ ∧
      (r.play p c (List.replicate n .main)).phase = .evaluating := by
  induction reaches with
  | refl => exact ⟨0, rfl, evaluating⟩
  | @tail s s' _ goes ih =>
    obtain ⟨silent, -, rfl⟩ := goes
    obtain ⟨n, machine, phase⟩ := ih
    have step : (s.thread.inside s.world).step p .main =
        (s.step p .main).thread.inside (s.step p .main).world := rfl
    refine ⟨n + 1, ?_, ?_⟩
    · rw [List.replicate_succ', play_append, play_cons, play_nil, move, if_pos phase, machine]
      exact Machine.stepMain_of_step _ silent step
    · rw [List.replicate_succ', play_append, play_cons, play_nil, move, if_pos phase]
      exact phase

/-- The main program by itself has come to a turn that can be reached from where it started. -/
structure Alone (p : Program) (start : Turn) (r : Run) : Prop where
  reached : ∃ u, Turn.Reaches p start u ∧ r.machine.main = u.thread ∧
    r.machine.world.frames = u.world.frames ∧ r.machine.world.heap = u.world.heap ∧
    r.machine.world.output = u.world.output ∧
    (r.phase = .evaluating ∧ r.machine.world = u.world ∨ u.thread.outcome?.isSome)
  tasks : r.machine.tasks = #[]

theorem Alone.next {start : Turn} (alone : Alone p start r)
    (calm : ∀ u, Turn.Reaches p start u → u.thread.launch? = none ∧ u.control ≠ .eval p.root)
    (next : Next p c r r') : Alone p start r' := by
  obtain ⟨⟨u, reaches, main, frames, heap, output, still⟩, tasks⟩ := alone
  have over_ : r.phase ≠ .evaluating → u.thread.outcome?.isSome := fun later =>
    still.resolve_left fun here => later here.1
  cases next with
  | same => exact ⟨⟨u, reaches, main, frames, heap, output, still⟩, tasks⟩
  | step seen machine next here =>
    have nobody : ∀ {i : Nat} {task : Task}, r.machine.tasks[i]? ≠ some task := by
      intro i task found
      rw [tasks] at found
      simp at found
    cases next with
    | idle => exact ⟨⟨u, reaches, main, frames, heap, output, still⟩, tasks⟩
    | turn who t found silent going =>
      cases who with
      | task id => exact absurd (Machine.thread?_task found).choose_spec nobody
      | main =>
        cases found
        refine ⟨?_, tasks⟩
        have evaluating : r.phase = .evaluating := here.resolve_right fun others => others _ rfl
        rcases still with ⟨-, world⟩ | ended
        · have same : r.machine.main.inside r.machine.world = u := by
            rw [main, world]
            rfl
          obtain ⟨silent, away⟩ := calm u reaches
          refine ⟨u.step p .main, reaches.tail ⟨silent, away, rfl⟩, ?_⟩
          simp only [same]
          exact ⟨rfl, rfl, rfl, rfl, .inl ⟨evaluating, rfl⟩⟩
        · obtain ⟨o, ended'⟩ := Option.isSome_iff_exists.mp (main ▸ ended)
          have same : (r.machine.main.inside r.machine.world).step p .main =
              r.machine.main.inside r.machine.world := Turn.step_of_outcome p _ .main ended'
          refine ⟨u, reaches, ?_⟩
          simp only [same]
          exact ⟨main, frames, heap, output, .inr ended⟩
    | launch who t rest job found launches =>
      cases who with
      | task id => exact absurd (Machine.thread?_task found).choose_spec nobody
      | main =>
        cases found
        rw [main, (calm u reaches).1] at launches
        cases launches
    | start id env job found => exact absurd found nobody
    | finished id t outcome found => exact absurd (Machine.thread?_task found).choose_spec nobody
    | record id f found => exact absurd found nobody
    | release id found => exact absurd found nobody
  | look waits finished =>
    exact ⟨⟨u, reaches, main, frames, heap, output, .inr (main ▸ Thread.isSome_of_isDone finished)⟩, tasks⟩
  | giveUp waits finished =>
    exact ⟨⟨u, reaches, main, frames, heap, output, .inr (main ▸ Thread.isSome_of_isDone finished)⟩, tasks⟩
  | close status drained =>
    exact ⟨⟨u, reaches, main, frames, heap, output, .inr (over_ (by rw [drained]; nofun))⟩, tasks⟩
  | report status closed =>
    exact ⟨⟨u, reaches, main, frames, heap, output, .inr (over_ (by rw [closed]; nofun))⟩, tasks⟩

end Run

/-! ## 4. The program in sequence -/

namespace ForkJoin

variable {p : Program} (x : ForkJoin p)

theorem goes_sequential {s s' : Turn} : Turn.Goes x.sequential s s' ↔ Turn.Goes p s s' := by
  refine and_congr_right fun _ => and_congr_right fun away => ?_
  rw [sequential, Turn.step_withRoot _ ⟨_, x.root⟩ .main away]

theorem reaches_sequential {s s' : Turn} : Turn.Reaches x.sequential s s' ↔ Turn.Reaches p s s' := by
  have same : Turn.Goes x.sequential = Turn.Goes p := by
    funext s s'
    exact propext x.goes_sequential
  rw [Turn.Reaches, same]

/-- The program in sequence begins in the same world. -/
theorem machine_sequential (c : RunConfig) : (Run.initial x.sequential c).machine =
    ⟨(Run.initial p c).machine.world, (x.begun (Run.initial p c).machine.world).thread, #[]⟩ := by
  have statements : x.sequential.rootStatements =
      x.functions ++ x.forks.map Fork.declaration ++ [x.last] := by
    have root : x.sequential.arena.kind? x.sequential.root =
        some (.root (x.functions ++ x.forks.map Fork.declaration ++ [x.last])) := by
      show (p.arena.setKind p.root _).kind? p.root = _
      rw [Arena.kind?_setKind, if_pos rfl, x.root]
      rfl
    simp only [Program.rootStatements, Program.kind, root]
  have pool : (Session.start x.sequential c).bindConstants.pool = (Session.start p c).bindConstants.pool :=
    Session.pool_bindConstants_congr rfl rfl
  obtain ⟨frames, -, machine⟩ := Run.machine_initial p c
  obtain ⟨frames', -, machine'⟩ := Run.machine_initial x.sequential c
  have world : (Run.initial x.sequential c).machine.world = (Run.initial p c).machine.world := by
    show (Session.start x.sequential c).bindConstants.pool.machine.world = _
    rw [pool]
    rfl
  rw [machine] at world ⊢
  rw [machine'] at world ⊢
  simp only at world
  rw [world, statements]
  rfl

end ForkJoin

namespace Run

variable {p : Program}

/-- Two runs whose main programs have come to the same result, but for the identities of objects. -/
def SameResult (Z : Region) (r r' : Run) : Prop :=
  ∃ R o o', r.machine.main.outcome? = some o ∧ r'.machine.main.outcome? = some o' ∧
    r.machine.world.Like Z R r'.machine.world ∧ o.Like Z.functions R o'

/-- The program in sequence comes to the turns that can be reached, and to no others. -/
theorem alone_sequential (x : ForkJoin p) (c : RunConfig)
    (calm : ∀ u, Turn.Reaches p (x.begun (initial p c).machine.world) u →
      u.thread.launch? = none ∧ u.control ≠ .eval p.root) (moves : List Move) :
    Alone x.sequential (x.begun (initial p c).machine.world)
      ((initial x.sequential c).play x.sequential c moves) := by
  have start : Alone x.sequential (x.begun (initial p c).machine.world) (initial x.sequential c) := by
    refine ⟨⟨_, .refl, ?_⟩, ?_⟩ <;> rw [x.machine_sequential c]
    exact ⟨rfl, rfl, rfl, rfl, .inl ⟨rfl, rfl⟩⟩
  refine holds_play _ start (fun r r' _ alone next => alone.next (fun u reaches => ?_) next) moves
  exact calm u (x.reaches_sequential.mp reaches)

/-- Launching variables and waiting for them refines declaring them. When the main program has reached its
return, in whatever interleaving, it comes to a result if and only if the program in sequence does, and
whenever both have come to one, the results are the same. -/
theorem launches_refine (x : ForkJoin p) (c : RunConfig) (moves : List Move)
    (reached : ((initial p c).play p c moves).MainReached x.last) :
    let r := (initial p c).play p c moves
    let sequence := (initial x.sequential c).play x.sequential c
    (r.machine.main.outcome?.isSome → ∃ moves', (sequence moves').machine.main.outcome?.isSome) ∧
    ((∃ moves', (sequence moves').machine.main.outcome?.isSome) →
      ∃ n, (r.play p c (List.replicate n .main)).machine.main.outcome?.isSome) ∧
    ∀ moves', r.machine.main.outcome?.isSome → (sequence moves').machine.main.outcome?.isSome →
      SameResult x.outer r (sequence moves') := by
  intro r sequence
  obtain ⟨after, still⟩ : x.After (initial p c).machine.world r.machine ∧
      (r.phase = .evaluating ∨ r.machine.main.outcome?.isSome) := by
    cases unfolds_play x c moves with
    | before evaluating before unreached => exact absurd reached unreached
    | after after still => exact ⟨after, still⟩
  have calm : ∀ u, Turn.Reaches p (x.begun (initial p c).machine.world) u →
      u.thread.launch? = none ∧ u.control ≠ .eval p.root := fun u => after.calm
  have alone : ∀ moves', Alone x.sequential (x.begun (initial p c).machine.world) (sequence moves') :=
    alone_sequential x c calm
  obtain ⟨-, J, s, reaches, like⟩ := after
  have together : r.machine.main.outcome?.isSome ↔ s.thread.outcome?.isSome := like.isOver_iff
  refine ⟨fun ended => ?_, ?_, fun moves' ended ended' => ?_⟩
  · -- the program in sequence comes to the turn that the main program is alike to
    have begins : Turn.Reaches x.sequential ((initial x.sequential c).machine.main.inside
        (initial x.sequential c).machine.world) s := by
      rw [x.machine_sequential c]
      exact x.reaches_sequential.mpr reaches
    obtain ⟨n, machine, -⟩ := plays_main x.sequential c rfl begins
    refine ⟨List.replicate n .main, ?_⟩
    simp only [sequence, machine]
    exact together.mp ended
  · rintro ⟨moves', ended⟩
    obtain ⟨u, reaches', main, -⟩ := (alone moves').reached
    rw [main] at ended
    obtain ⟨o, ended⟩ := Option.isSome_iff_exists.mp ended
    rcases still with evaluating | finished
    swap
    · exact ⟨0, finished⟩
    rcases reaches.total (x.reaches_sequential.mp reaches') with later | before
    · obtain ⟨s', goesOn, ⟨J', -, like'⟩, -⟩ := like.run x.outer_closed ⟨_, x.root⟩ later
      obtain ⟨n, machine, -⟩ := plays_main p c evaluating goesOn
      refine ⟨n, ?_⟩
      rw [machine]
      exact like'.isOver_iff.mpr (by rw [ended]; rfl)
    · cases before.eq_of_outcome ended
      exact ⟨0, together.mpr (by rw [ended]; rfl)⟩
  · obtain ⟨u, reaches', main, frames, heap, output, -⟩ := (alone moves').reached
    rw [main] at ended'
    obtain ⟨o', ended'⟩ := Option.isSome_iff_exists.mp ended'
    obtain ⟨o₁, ended₁⟩ := Option.isSome_iff_exists.mp (together.mp ended)
    cases reaches.unique ended₁ (x.reaches_sequential.mp reaches') ended'
    have alike := like.outcome
    obtain ⟨o, ended⟩ := Option.isSome_iff_exists.mp ended
    rw [show (r.machine.main.inside r.machine.world).thread.outcome? = some o from ended, ended'] at alike
    cases alike with
    | some alike => exact ⟨J, o, o', ended, main ▸ ended', like.world.of_eq' frames heap output, alike⟩

/-! ### Two pairs that are made side by side -/

def pairing : Script :=
  [.function "pair" [("n", .plain .int)] (.array (.plain .int))
      [.ret (some (.array [.reference "n", .binary .add (.reference "n") (.int 1)]))],
    .launchVar "a" (.array (.plain .int)) "pair" [.int 3],
    .launchVar "b" (.array (.plain .int)) "pair" [.int 4],
    .expression (.call "wait" [.reference "b"]),
    .expression (.call "wait" [.reference "a"]),
    .ret (some (.array [.reference "a", .reference "b"]))]

def pairingProgram : Program := pairing.program.toOption.getD default

/-- The nodes of the program that matter, with their kinds. -/
def pairingKinds : List (NodeId × NodeKind) :=
  [(⟨0⟩, .funDecl ⟨12⟩ [⟨1⟩] ⟨8⟩), (⟨13⟩, .launchDecl ⟨12⟩), (⟨12⟩, .varDecl ⟨14⟩ ⟨11⟩),
    (⟨18⟩, .launchDecl ⟨17⟩), (⟨17⟩, .varDecl ⟨15⟩ ⟨16⟩), (⟨22⟩, .expression ⟨21⟩), (⟨21⟩, .call ⟨20⟩ [⟨19⟩]),
    (⟨20⟩, .reference ⟨5⟩), (⟨19⟩, .reference ⟨15⟩), (⟨26⟩, .expression ⟨25⟩), (⟨25⟩, .call ⟨24⟩ [⟨23⟩]),
    (⟨24⟩, .reference ⟨5⟩), (⟨23⟩, .reference ⟨14⟩), (⟨30⟩, .ret (some ⟨29⟩)),
    (⟨31⟩, .root [⟨0⟩, ⟨13⟩, ⟨18⟩, ⟨22⟩, ⟨26⟩, ⟨30⟩])]

theorem kind?_pairing {n : NodeId} {kind : NodeKind} (member : (n, kind) ∈ pairingKinds) :
    pairingProgram.arena.kind? n = some kind := by
  have kinds : pairingKinds.map (fun entry => pairingProgram.arena.kind? entry.1) =
      pairingKinds.map fun entry => some entry.2 := by cbv
  have each := List.map_inj_left.mp kinds (n, kind) member
  exact each

def pairingNodes : List NodeId := [2, 3, 4, 5, 6, 7, 8, 9, 10, 11, 14, 15, 16].map NodeId.mk

def firstPair : Fork := ⟨⟨13⟩, ⟨12⟩, ⟨11⟩, ⟨14⟩⟩

def secondPair : Fork := ⟨⟨18⟩, ⟨17⟩, ⟨16⟩, ⟨15⟩⟩

theorem pairs_of (k : Fork) (member : k ∈ [firstPair, secondPair]) : k.Of pairingProgram pairingNodes := by
  simp only [List.mem_cons, List.not_mem_nil, or_false] at member
  rcases member with rfl | rfl <;>
    exact ⟨kind?_pairing (by simp [pairingKinds, firstPair, secondPair]),
      kind?_pairing (by simp [pairingKinds, firstPair, secondPair]), by decide +kernel, by decide⟩

def pairingJoins : List Join :=
  [⟨⟨22⟩, ⟨21⟩, ⟨20⟩, ⟨5⟩, ⟨19⟩, secondPair⟩, ⟨⟨26⟩, ⟨25⟩, ⟨24⟩, ⟨5⟩, ⟨23⟩, firstPair⟩]

theorem pairingJoins_of (j : Join) (member : j ∈ pairingJoins) :
    j.Of pairingProgram ∧ j.fork ∈ [firstPair, secondPair] := by
  simp only [pairingJoins, List.mem_cons, List.not_mem_nil, or_false] at member
  refine ⟨?_, by rcases member with rfl | rfl <;> simp⟩
  rcases member with rfl | rfl <;>
    exact ⟨kind?_pairing (by simp [pairingKinds]), kind?_pairing (by simp [pairingKinds]),
      ⟨⟨5⟩, kind?_pairing (by simp [pairingKinds])⟩, by decide +kernel, by decide +kernel,
      kind?_pairing (by simp [pairingKinds, firstPair, secondPair]), by decide +kernel, by decide +kernel⟩

theorem pairing_bodies {nodes : List NodeId} (inside : ⟨8⟩ ∈ nodes) (f : NodeId)
    (member : f ∈ [(⟨0⟩ : NodeId)]) (name : Name) (parameters : List NodeId) (body : NodeId)
    (found : pairingProgram.arena.kind? f = some (.funDecl name parameters body)) : body ∈ nodes := by
  obtain rfl := List.mem_singleton.mp member
  cases (kind?_pairing (.head _)).symm.trans found
  exact inside

def pairingForks : ForkJoin pairingProgram where
  functions := [⟨0⟩]
  forks := [firstPair, secondPair]
  joins := pairingJoins
  last := ⟨30⟩
  result := ⟨29⟩
  nodes := pairingNodes
  readers := [⟨27⟩, ⟨28⟩, ⟨29⟩]
  root := by
    have root : pairingProgram.root = ⟨31⟩ := by decide +kernel
    rw [root]
    exact kind?_pairing (by simp [pairingKinds, pairingJoins, firstPair, secondPair])
  declares f member := by
    obtain rfl := List.mem_singleton.mp member
    exact ⟨⟨12⟩, [⟨1⟩], ⟨8⟩, kind?_pairing (.head _)⟩
  launches := pairs_of
  distinct := by decide
  waits := pairingJoins_of
  awaited := List.forall_mem_cons.mpr ⟨⟨_, .tail _ (.head _), rfl⟩,
    List.forall_mem_singleton.mpr ⟨_, .head _, rfl⟩⟩
  returns := kind?_pairing (by simp [pairingKinds])
  reads := by decide
  confined := ⟨by decide +kernel, pairing_bodies (by decide)⟩
  shown := ⟨by decide +kernel, pairing_bodies (by decide)⟩

/-- The second pair is made first, and the main program waits for it first. -/
def pairingMoves : List Move :=
  List.replicate 20 .main ++ .start 1 :: List.replicate 25 (.task 1) ++
    .start 0 :: List.replicate 25 (.task 0) ++ List.replicate 20 .main

theorem pairs_same : ∃ moves', SameResult pairingForks.outer
    ((initial pairingProgram default).play pairingProgram default pairingMoves)
    ((initial pairingForks.sequential default).play pairingForks.sequential default moves') := by
  have ended : ((initial pairingProgram default).play pairingProgram default
      pairingMoves).machine.main.outcome?.isSome := by decide +kernel
  have reached : ((initial pairingProgram default).play pairingProgram default
      pairingMoves).MainReached pairingForks.last := by
    unfold MainReached
    decide +kernel
  obtain ⟨comes, -, same⟩ := launches_refine pairingForks default pairingMoves reached
  obtain ⟨moves', ended'⟩ := comes ended
  exact ⟨moves', same moves' ended ended'⟩

end Run

end Strand
