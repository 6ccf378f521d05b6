import Strand.Proofs.Alike.Lockstep
import Strand.Proofs.Alike.Shared
import Strand.Proofs.ForkJoin.Program

/-!
# What is computed beside the main program

What a task computes it could compute by itself, from the world in which the program began (`alone`).
While the tasks go on, each is alike to such a computation, and what they make is apart, so a step of one
keeps what is known of the others (`Crew.next`).

A variable that is launched is void until its task delivers the value. What is delivered is alike to the
value that the computation by itself comes to, and stays.
-/

set_option autoImplicit false

namespace Strand

/-! ## 1. The root frame -/

/-- To stand in the root frame. -/
def Env.outermost : Env := ⟨Frames.root, Frames.root⟩

theorem Env.frameFor_root {env : Env} {fs : Frames} {rootScope : ScopeId}
    (linked : fs.Linked rootScope) (rooted : env.root = Frames.root) :
    env.frameFor fs rootScope = some Frames.root := by
  rw [frameFor, rooted, if_pos linked.scope?_root]

theorem Frames.Linked.lookup_define {fs : Frames} {rootScope : ScopeId} (linked : fs.Linked rootScope)
    (name other : Name) (v : Value) : (fs.define root name v).lookup root other =
      if other = name then some v else fs.lookup root other := by
  have live : (fs.frame? root).isSome := linked.live_root
  simp only [Frames.lookup_define, live, and_true, true_and]

namespace World

theorem Evolves.lookup {Z : Region} {R R₁ : Pairing} {w w₁ w₁' : World}
    (evolves : Evolves Z R w R₁ w₁ w₁') (guarded : Z.guarded) (name : Name) :
    w₁.frames.lookup Frames.root name = w.frames.lookup Frames.root name := by
  have base := evolves.base guarded
  unfold Frames.lookup
  cases found : w.frames.frame? Frames.root with
  | none =>
    rw [cell?, cell?, found, Option.map_none, Option.map_eq_none_iff] at base
    rw [base]
  | some frame =>
    rw [cell?_frame.mpr found] at base
    rw [cell?_frame.mp base]

end World

namespace Fork.Of

variable {p : Program} {nodes : List NodeId} {k : Fork} (h : k.Of p nodes) (s : Turn)
  (rooted : s.env.root = Frames.root) (linked : s.world.frames.Linked p.attrs.rootScope)

include h rooted linked

/-- The value of a launched variable is bound in the root frame. -/
theorem resume_declaration (v : Value) :
    s.resume p v (.declaration k.declaration k.name) =
      { s with
        world.frames := s.world.frames.define Frames.root k.name (v.widen (p.typeOf k.declaration))
        control := .give .void } := by
  simp only [Turn.resume, Program.scopeOf, h.scope, Turn.orFault, Env.frameToSet,
    Env.frameFor_root linked rooted]

/-- A launched variable is void from the launch on. -/
theorem enter_statement :
    s.enter p k.statement (.launchDecl k.declaration) =
      { s with
        world.frames := s.world.frames.define Frames.root k.name .void
        control := .submit [.eval k.declaration] } := by
  simp only [Turn.enter, Program.kind, h.declares, Abort.ofRead, Turn.orAbort, Program.scopeOf, h.scope,
    Turn.orFault, Env.frameToSet, Env.frameFor_root linked rooted]

end Fork.Of

/-! ## 2. How far a task has come -/

/-- A task whose evaluation is over. -/
def TaskState.IsOver : TaskState → Prop
  | submitted .. => False
  | running t => t.outcome?.isSome
  | _ => True

theorem TaskState.isOver_ofOutcome (outcome : Outcome) : (ofOutcome outcome).IsOver := by
  rcases outcome with v | e
  · trivial
  · cases e <;> trivial

/-- A task whose evaluation is over launches nothing. -/
theorem TaskState.IsOver.launch? {t : Thread} (ended : (running t).IsOver) : t.launch? = none := by
  obtain ⟨o, ended⟩ := Option.isSome_iff_exists.mp ended
  obtain ⟨-, ⟨v, at_, -⟩ | ⟨e, at_, -⟩⟩ := Thread.outcome?_eq_some ended <;>
    simp only [Thread.launch?, at_]

namespace ForkJoin

variable {p : Program} (x : ForkJoin p) (w₀ : World)

/-- What is launched, and the functions. -/
def inner : Region := p.region x.nodes x.functions (x.forks.map Fork.name) true

/-- What a launched variable gets its value from, by itself. -/
def alone (k : Fork) : Turn := ⟨w₀, .outermost, .eval k.initializer, []⟩

/-- What the computation by itself comes to. -/
def Solved (p : Program) (w₀ : World) (k : Fork) (w' : World) (v' : Value) : Prop :=
  ∃ s, Turn.Reaches p (alone w₀ k) s ∧ s.world = w' ∧ s.thread.outcome? = some (.value v')

/-- How far the task of a launched variable has come, with the world of the computation by itself, and the
value that is bound. -/
inductive Stage (k : Fork) (R : Pairing) (w' : World) : Option Value → TaskState → Prop
  | submitted (new : R = rootPair) (apart : w' = w₀) :
      Stage k R w' (some .void) (.submitted .outermost (.eval k.declaration))
  | fresh (new : R = rootPair) (apart : w' = w₀) :
      Stage k R w' (some .void) (.running (.start .outermost (.eval k.declaration)))
  | going (t : Thread) (s : Turn) (reached : Turn.Reaches p (alone w₀ k) s) (apart : w' = s.world)
      (env : t.env.Like R s.env) (control : t.control.Like x.inner R s.control)
      (stack : StackLike x.inner [.declaration k.declaration k.name] R t.stack s.stack) :
      Stage k R w' (some .void) (.running t)
  | stored (v v' : Value) (solved : Solved p w₀ k w' v') (alike : v.Like x.inner.functions R v')
      (state : TaskState) (over_ : state.IsOver) :
      Stage k R w' (some (v.widen (p.typeOf k.declaration))) state
  /-- The evaluation has ended by an exit. -/
  | lost (state : TaskState) (over_ : state.IsOver) : Stage k R w' (some .void) state

/-- The tasks are those of the first launched variables, and share the world. -/
structure Crew (R : Nat → Pairing) (ws : Nat → World) (tasks : Array Task) (w : World) : Prop where
  shared : World.Shared x.inner w₀ tasks.size R ws w
  stages : ∀ i task, tasks[i]? = some task → ∃ k, x.forks[i]? = some k ∧
    x.Stage w₀ k (R i) (ws i) (w.frames.lookup Frames.root k.name) task.state

/-- Of the variables only those change that have been launched and are void. -/
def Retains (count : Nat) (w w₁ : World) : Prop :=
  ∀ i k, x.forks[i]? = some k →
    w₁.frames.lookup Frames.root k.name = w.frames.lookup Frames.root k.name ∨
      i < count ∧ w.frames.lookup Frames.root k.name = some .void

variable {x w₀} {R : Nat → Pairing} {ws : Nat → World} {tasks : Array Task} {w w₁ : World}

theorem inner_closed : x.inner.Closed p := x.confined.closed

theorem inner_guarded (x : ForkJoin p) : x.inner.guarded := rfl

theorem not_names {k : Fork} (member : k ∈ x.forks) : ¬ x.inner.names k.name :=
  fun uses => uses (List.mem_map_of_mem member)

theorem name_ne {i j : Nat} {k l : Fork} (first : x.forks[i]? = some k) (second : x.forks[j]? = some l)
    (other : j ≠ i) : l.name ≠ k.name := by
  intro same
  have names : (x.forks.map Fork.name)[j]? = (x.forks.map Fork.name)[i]? := by
    rw [List.getElem?_map, List.getElem?_map, first, second, Option.map_some, Option.map_some, same]
  obtain ⟨inside, -⟩ := List.getElem?_eq_some_iff.mp second
  exact other ((List.getElem?_inj (by simpa using inside) x.distinct).mp names)

theorem Retains.of_lookup {count : Nat} (same : ∀ name, w₁.frames.lookup Frames.root name =
    w.frames.lookup Frames.root name) : x.Retains count w w₁ :=
  fun _ _ _ => .inl (same _)

theorem Retains.refl (count : Nat) (w : World) : x.Retains count w w := .of_lookup fun _ => rfl

/-! ## 3. What the tasks do -/

/-- One task has come further. -/
theorem Crew.put (crew : x.Crew w₀ R ws tasks w) {i : Nat} {k : Fork} (inside : i < tasks.size)
    (forks : x.forks[i]? = some k) (R₁ : Pairing) (w' : World)
    (shared : World.Shared x.inner w₀ tasks.size (Function.update R i R₁) (Function.update ws i w') w₁)
    (lookups : ∀ l ∈ x.forks, l.name ≠ k.name →
      w₁.frames.lookup Frames.root l.name = w.frames.lookup Frames.root l.name)
    (id : TaskId) (state : TaskState)
    (stage : x.Stage w₀ k R₁ w' (w₁.frames.lookup Frames.root k.name) state) :
    x.Crew w₀ (Function.update R i R₁) (Function.update ws i w') (tasks.setIfInBounds i ⟨id, state⟩)
      w₁ := by
  refine ⟨by rwa [Array.size_setIfInBounds], fun j task found => ?_⟩
  rw [Array.getElem?_setIfInBounds] at found
  by_cases same : i = j
  · subst same
    rw [if_pos rfl, if_pos inside] at found
    cases found
    rw [Function.update_self, Function.update_self]
    exact ⟨k, forks, stage⟩
  · rw [if_neg same] at found
    obtain ⟨l, there, stage⟩ := crew.stages j task found
    rw [Function.update_of_ne (Ne.symm same), Function.update_of_ne (Ne.symm same)]
    refine ⟨l, there, ?_⟩
    rw [lookups l (List.mem_of_getElem? there) (name_ne forks there (Ne.symm same))]
    exact stage

/-- One task has come further by itself. -/
theorem Crew.advance (crew : x.Crew w₀ R ws tasks w) {i : Nat} {k : Fork} (inside : i < tasks.size)
    (forks : x.forks[i]? = some k) (id : TaskId) {state : TaskState}
    (stage : x.Stage w₀ k (R i) (ws i) (w.frames.lookup Frames.root k.name) state) :
    x.Crew w₀ R ws (tasks.setIfInBounds i ⟨id, state⟩) w := by
  have put := crew.put inside forks (R i) (ws i)
    (by rw [Function.update_eq_self, Function.update_eq_self]; exact crew.shared) (fun _ _ _ => rfl) id _
    stage
  rwa [Function.update_eq_self, Function.update_eq_self] at put

/-- What is neither on the heap nor in a frame, nor printed, does not matter. -/
theorem Crew.of_eq (crew : x.Crew w₀ R ws tasks w) (frames : w₁.frames = w.frames)
    (heap : w₁.heap = w.heap) (output : w₁.output = w.output) : x.Crew w₀ R ws tasks w₁ := by
  refine ⟨crew.shared.keeps (World.keeps_of_eq frames heap output), fun i task found => ?_⟩
  rw [frames]
  exact crew.stages i task found

/-- The value of a launched variable is delivered. -/
theorem Crew.deliver (crew : x.Crew w₀ R ws tasks w) {i : Nat} {k : Fork} (inside : i < tasks.size)
    (forks : x.forks[i]? = some k) (id : TaskId) {state : TaskState} {v v' : Value} (over_ : state.IsOver)
    (solved : Solved p w₀ k (ws i) v') (alike : v.Like x.inner.functions (R i) v') :
    x.Crew w₀ R ws (tasks.setIfInBounds i ⟨id, state⟩) { w with
      frames := w.frames.define Frames.root k.name (v.widen (p.typeOf k.declaration)) } := by
  have member : k ∈ x.forks := List.mem_of_getElem? forks
  have linked := crew.shared.base.linked
  have keeps := crew.shared.keeps
    (World.keeps_define (not_names member) (v.widen (p.typeOf k.declaration)))
  have put := crew.put inside forks (R i) (ws i)
    (by rw [Function.update_eq_self, Function.update_eq_self]; exact keeps)
    (fun l _ other => by rw [linked.lookup_define, if_neg other]) id state
    (by rw [linked.lookup_define, if_pos rfl]; exact .stored v v' solved alike state over_)
  rwa [Function.update_eq_self, Function.update_eq_self] at put

/-- A task takes a turn. -/
theorem Crew.turn (crew : x.Crew w₀ R ws tasks w) {id : TaskId} {t : Thread}
    (found : tasks[id.index]? = some ⟨id, .running t⟩) (unfinished : t.outcome? = none) :
    (∃ R' ws', x.Crew w₀ R' ws'
      (tasks.setIfInBounds id.index ⟨id, .running ((t.inside w).step p (.task id)).thread⟩)
      ((t.inside w).step p (.task id)).world) ∧
    x.Retains tasks.size w ((t.inside w).step p (.task id)).world := by
  obtain ⟨k, forks, stage⟩ := crew.stages _ _ found
  obtain ⟨inside, -⟩ := Array.getElem?_eq_some_iff.mp found
  have member : k ∈ x.forks := List.mem_of_getElem? forks
  have of := x.launches k member
  have linked := crew.shared.base.linked
  generalize seen : w.frames.lookup Frames.root k.name = v? at stage
  have over_ : (TaskState.running t).IsOver → False := by
    intro over_
    rw [TaskState.IsOver, unfinished] at over_
    cases over_
  cases stage with
  | fresh new apart =>
    have step : ((Thread.start .outermost (.eval k.declaration)).inside w).step p (.task id) =
        ⟨w, .outermost, .eval k.initializer, [.declaration k.declaration k.name]⟩ := by
      simp only [Turn.step, Thread.start, Thread.inside, Program.kind, of.declares, Turn.enter, Turn.await]
    rw [step]
    refine ⟨⟨R, ws, crew.advance inside forks id ?_⟩, .refl _ w⟩
    rw [seen]
    refine .going _ (alone w₀ k) .refl apart ⟨rfl, rfl, ?_⟩ (.eval _ of.inside) .bottom
    rw [new]
    exact ⟨rfl, rfl⟩
  | going t s reached apart env acts under =>
    have like : (t.inside w).Like x.inner [.declaration k.declaration k.name] (R id.index) s :=
      ⟨apart ▸ crew.shared.each _ inside, env, acts, under⟩
    cases ended : s.thread.outcome? with
    | none =>
      obtain ⟨R₁, evolves, like₁⟩ := like.step x.inner_closed (.task id) .main
        (Turn.going_of_outcome ended)
      refine ⟨⟨_, _, crew.put inside forks _ _ (crew.shared.evolve x.inner_guarded inside evolves)
        (fun l _ _ => evolves.lookup x.inner_guarded l.name) id _ ?_⟩,
        .of_lookup (evolves.lookup x.inner_guarded)⟩
      rw [evolves.lookup x.inner_guarded]
      show x.Stage w₀ k R₁ _ (w.frames.lookup Frames.root k.name) _
      rw [seen]
      exact .going _ _ (reached.tail (like.goes x.inner_closed ⟨_, x.root⟩).2) rfl like₁.env like₁.control
        like₁.stack
    | some o =>
      obtain ⟨waits, ⟨v, v', gives, rfl, alike⟩ | ⟨e, e', leaves, rfl, alike⟩⟩ := like.ends ended
      · have step : (t.inside w).step p (.task id) =
            ⟨{ w with frames := w.frames.define Frames.root k.name (v.widen (p.typeOf k.declaration)) },
              t.env, .give .void, []⟩ := by
          obtain ⟨here, control, stack⟩ := t
          obtain rfl : control = .give v := gives
          obtain rfl : stack = [.declaration k.declaration k.name] := waits
          exact of.resume_declaration ⟨w, here, .give v, []⟩ env.root linked v
        rw [step]
        refine ⟨⟨R, ws, crew.deliver inside forks id rfl ⟨s, reached, apart.symm, ended⟩ alike⟩, ?_⟩
        intro j l there
        by_cases same : j = id.index
        · subst same
          cases forks.symm.trans there
          exact .inr ⟨inside, seen⟩
        · exact .inl (by rw [linked.lookup_define, if_neg (name_ne forks there same)])
      · have step : (t.inside w).step p (.task id) = ⟨w, t.env, .leave e, []⟩ := by
          obtain ⟨here, control, stack⟩ := t
          obtain rfl : control = .leave e := leaves
          obtain rfl : stack = [.declaration k.declaration k.name] := waits
          rfl
        rw [step]
        refine ⟨⟨R, ws, crew.advance inside forks id ?_⟩, .refl _ w⟩
        rw [seen]
        exact .lost _ rfl
  | stored v v' solved alike state ended => exact (over_ ended).elim
  | lost state ended => exact (over_ ended).elim

/-- What one task does when it does not take a turn: it begins, or its evaluation is over. -/
theorem Crew.change (crew : x.Crew w₀ R ws tasks w) {i : Nat} {id : TaskId} {state : TaskState}
    (found : tasks[i]? = some ⟨id, state⟩) (state' : TaskState)
    (change : ∀ k v?, x.Stage w₀ k (R i) (ws i) v? state → x.Stage w₀ k (R i) (ws i) v? state') :
    x.Crew w₀ R ws (tasks.setIfInBounds i ⟨id, state'⟩) w := by
  obtain ⟨k, forks, stage⟩ := crew.stages _ _ found
  obtain ⟨inside, -⟩ := Array.getElem?_eq_some_iff.mp found
  exact crew.advance inside forks id (change k _ stage)

theorem Stage.of_over {k : Fork} {Q : Pairing} {w' : World} {v? : Option Value} {state state' : TaskState}
    (stage : x.Stage w₀ k Q w' v? state) (unsubmitted : ∀ env job, state ≠ .submitted env job)
    (unfinished : ∀ t, state = .running t → t.outcome?.isSome) (over_ : state'.IsOver) :
    x.Stage w₀ k Q w' v? state' := by
  cases stage with
  | submitted => exact absurd rfl (unsubmitted _ _)
  | fresh => exact absurd (unfinished _ rfl) (by simp [Thread.outcome?, Thread.start])
  | going t s reached apart env acts under =>
    -- a declaration still waits for the value
    obtain ⟨o, ended⟩ := Option.isSome_iff_exists.mp (unfinished t rfl)
    obtain ⟨none, -⟩ := Thread.outcome?_eq_some ended
    rw [none] at under
    cases under
  | stored v v' solved alike => exact .stored v v' solved alike _ over_
  | lost => exact .lost _ over_

/-- A task launches nothing. -/
theorem Stage.launch? {k : Fork} {Q : Pairing} {w' : World} {v? : Option Value} {t : Thread}
    (stage : x.Stage w₀ k Q w' v? (.running t)) : t.launch? = none := by
  cases stage with
  | fresh => rfl
  | going t s reached apart env acts under =>
    obtain ⟨here, control, stack⟩ := t
    have acts : control.Like x.inner Q s.control := acts
    generalize s.control = control' at acts
    cases acts <;> rfl
  | stored v v' solved alike state over_ => exact over_.launch?
  | lost state over_ => exact over_.launch?

/-- What a step leaves to the main program that is not one of its own. -/
structure Beside (x : ForkJoin p) (w₀ : World) (m m' : Machine) : Prop where
  crew : ∃ R ws, x.Crew w₀ R ws m'.tasks m'.world
  main : m'.main = m.main
  size : m'.tasks.size = m.tasks.size
  closed : m'.world.ledger.closed = m.world.ledger.closed
  retains : x.Retains m.tasks.size m.world m'.world

/-- The tasks go on beside the main program. -/
theorem Crew.next {m m' : Machine} {seen : Option Sighting} (crew : x.Crew w₀ R ws m.tasks m.world)
    (numbered : m.Numbered) (next : Machine.Next p m seen m')
    (others : ∀ t, seen ≠ some ⟨.main, t⟩) : x.Beside w₀ m m' := by
  cases next with
  | idle => exact ⟨⟨R, ws, crew⟩, rfl, rfl, rfl, .refl _ _⟩
  | turn who t found silent going =>
    cases who with
    | main => exact absurd rfl (others t)
    | task id =>
      obtain ⟨crew, retains⟩ := crew.turn (numbered.found found)
        (going.resolve_left fun same => by cases same)
      exact ⟨crew, rfl, Array.size_setIfInBounds,
        congrArg Ledger.closed (Turn.step_moves p _ _).keeps.1, retains⟩
  | launch who t rest job found launches =>
    cases who with
    | main => exact absurd rfl (others t)
    | task id =>
      obtain ⟨k, -, stage⟩ := crew.stages _ _ (numbered.found found)
      rw [stage.launch?] at launches
      cases launches
  | start id env job found =>
    refine ⟨⟨R, ws, crew.change found _ fun k v? stage => ?_⟩, rfl, Array.size_setIfInBounds, rfl, .refl _ _⟩
    cases stage with
    | submitted new apart => exact .fresh new apart
    | stored v v' solved alike state over_ => cases over_
    | lost state over_ => cases over_
  | finished id t outcome found ended =>
    refine ⟨⟨R, ws, crew.change (numbered.found found) _ fun k v? stage => ?_⟩, rfl,
      Array.size_setIfInBounds, rfl, .refl _ _⟩
    refine stage.of_over (by simp) (fun t' same => ?_) (TaskState.isOver_ofOutcome outcome)
    cases same
    exact Option.isSome_iff_exists.mpr ⟨outcome, ended⟩
  | record id f found =>
    have crew := crew.change found .ending fun k v? stage =>
      stage.of_over (by simp) (by simp) trivial
    exact ⟨⟨R, ws, crew.of_eq rfl rfl rfl⟩, rfl, Array.size_setIfInBounds, rfl, .of_lookup fun _ => rfl⟩
  | release id found =>
    have crew := crew.change found .ended fun k v? stage =>
      stage.of_over (by simp) (by simp) trivial
    exact ⟨⟨R, ws, crew.of_eq rfl rfl rfl⟩, rfl, Array.size_setIfInBounds, rfl, .of_lookup fun _ => rfl⟩

/-! ## 4. What the main program does -/

/-- A variable is declared that has not been launched yet. -/
theorem Crew.declare (crew : x.Crew w₀ R ws tasks w) {k : Fork} (forks : x.forks[tasks.size]? = some k) :
    x.Crew w₀ R ws tasks { w with frames := w.frames.define Frames.root k.name .void } := by
  have linked := crew.shared.base.linked
  refine ⟨crew.shared.keeps (World.keeps_define (not_names (List.mem_of_getElem? forks)) .void),
    fun i task found => ?_⟩
  obtain ⟨l, there, stage⟩ := crew.stages i task found
  obtain ⟨inside, -⟩ := Array.getElem?_eq_some_iff.mp found
  refine ⟨l, there, ?_⟩
  rw [linked.lookup_define, if_neg (name_ne forks there (by omega))]
  exact stage

/-- The next variable is launched. -/
theorem Crew.launch (crew : x.Crew w₀ R ws tasks w) {k : Fork} (forks : x.forks[tasks.size]? = some k)
    (void : w.frames.lookup Frames.root k.name = some .void) (id : TaskId) (ledger : Ledger) :
    ∃ R' ws', x.Crew w₀ R' ws' (tasks.push ⟨id, .submitted .outermost (.eval k.declaration)⟩)
      { w with ledger } := by
  refine ⟨Function.update R tasks.size rootPair, Function.update ws tasks.size w₀, ?_, ?_⟩
  · rw [Array.size_push]
    exact crew.shared.grow.keeps (World.keeps_of_eq rfl rfl rfl)
  · intro i task found
    rw [Array.getElem?_push] at found
    split at found
    · next last =>
      subst last
      cases found
      rw [Function.update_self, Function.update_self]
      refine ⟨k, forks, ?_⟩
      show x.Stage w₀ k _ _ (w.frames.lookup Frames.root k.name) _
      rw [void]
      exact .submitted rfl rfl
    · obtain ⟨inside, -⟩ := Array.getElem?_eq_some_iff.mp found
      rw [Function.update_of_ne (by omega), Function.update_of_ne (by omega)]
      exact crew.stages i task found

end ForkJoin

end Strand
