import Strand.Builder.Script
import Strand.Proofs.Pool
import Strand.Proofs.Reach

/-!
# Where an evaluation comes back to

An evaluation enters frames: those of blocks inside its own, and those of calls inside some other frame.
Each frame that it enters leaves a pending behind that goes back to the frame before it. So the outermost
of the pendings that an evaluation has left knows the frame in which it began, and until there is none the
evaluation has not come back.

`home` reads that frame off a stack. One step keeps it (`Turn.Course.home`), and so does every run, in
which the other threads and the host do what they please. When the evaluation comes back, with a value, a
return, a fault or a crash, its thread stands where it stood (`Run.evaluations_come_back`). The program is
any program: attributes may be missing or contradict the nodes.
-/

set_option autoImplicit false

namespace Strand

/-! ## 1. The way home -/

namespace Thread

/-- The evaluation that began above `base` has not come back: something of its own still waits, or it has
nothing to hand on yet. -/
def Above (base : List Pending) (t : Thread) : Prop :=
  ∃ top, t.stack = top ++ base ∧ (top = [] → ¬ t.control.Hands)

/-- The evaluation of a whole thread goes on as long as the thread has no outcome. -/
theorem above_nil_iff {t : Thread} : t.Above [] ↔ t.outcome? = none := by
  obtain ⟨env, control, stack⟩ := t
  refine ⟨?_, ?_⟩
  · rintro ⟨top, same, busy⟩
    rw [List.append_nil] at same
    cases finished : outcome? ⟨env, control, stack⟩ with
    | none => rfl
    | some outcome =>
      obtain ⟨nothing, ⟨v, rfl, -⟩ | ⟨e, rfl, -⟩⟩ := outcome?_eq_some finished
      · exact absurd trivial (busy (same.symm.trans nothing))
      · exact absurd trivial (busy (same.symm.trans nothing))
  · intro unfinished
    refine ⟨stack, (List.append_nil stack).symm, ?_⟩
    rintro rfl hands
    cases control with
    | give v => cases unfinished
    | leave e => cases unfinished
    | _ => exact hands

/-- What the evaluation has left above `base` leads back to where `env` stands. -/
def LeadsHome (base : List Pending) (env : Env) (t : Thread) : Prop :=
  ∃ top, t.stack = top ++ base ∧ home t.env.current top = env.current ∧ t.env.root = env.root

/-- When nothing is left above `base`, the evaluation is where it began. -/
theorem LeadsHome.env_eq {base : List Pending} {env : Env} {t : Thread} (leads : t.LeadsHome base env)
    (back : t.stack = base) : t.env = env := by
  obtain ⟨top, stack, current, root⟩ := leads
  have none : top = [] := by
    have length := congrArg List.length (back.symm.trans stack)
    simp only [List.length_append] at length
    apply List.eq_nil_of_length_eq_zero
    omega
  subst none
  obtain ⟨⟨here, outermost⟩, control, waiting⟩ := t
  simp only [home_nil] at current root
  subst current root
  rfl

end Thread

/-! ## 2. Steps -/

namespace Turn

variable {p : Program} {s s' : Turn}

/-- A thread that has not come back takes at most what it has left itself. -/
theorem pops {base top under : List Pending} {waiting : Pending} (stack : s.stack = top ++ base)
    (above : top = [] → ¬ s.control.Hands) (hands : s.control.Hands)
    (popped : s.stack = waiting :: under) :
    ∃ rest, top = waiting :: rest ∧ under = rest ++ base := by
  cases top with
  | nil => exact absurd hands (above rfl)
  | cons first rest =>
    rw [popped, List.cons_append] at stack
    injection stack with same others
    exact ⟨rest, by rw [same], others⟩

/-- A step keeps the way home. -/
theorem Course.home (course : Course p s s') {base top : List Pending} (stack : s.stack = top ++ base)
    (above : top = [] → ¬ s.control.Hands) :
    ∃ top', s'.stack = top' ++ base ∧ Strand.home s'.env.current top' = Strand.home s.env.current top := by
  obtain ⟨taken, left, below, exchange⟩ := course.exists_exchange
  -- whatever is taken, the evaluation has left it
  obtain ⟨rest, rfl, rfl⟩ : ∃ rest, top = taken.toList ++ rest ∧ below = rest ++ base := by
    cases taken with
    | none => exact ⟨top, rfl, exchange.before.symm.trans stack⟩
    | some waiting => exact pops stack above (exchange.hands waiting rfl) exchange.before
  refine ⟨left ++ rest, ?_, ?_⟩
  · rw [exchange.after, List.append_assoc]
  · rw [home_append, home_append, exchange.home]

theorem step_leadsHome (p : Program) (who : ThreadId) (s : Turn) {base : List Pending} {env : Env}
    (above : s.thread.Above base) (leads : s.thread.LeadsHome base env) :
    (s.step p who).thread.LeadsHome base env := by
  obtain ⟨top, stack, current, root⟩ := leads
  obtain ⟨top', stack', busy⟩ := above
  obtain rfl : top' = top := List.append_cancel_right (stack'.symm.trans stack)
  obtain ⟨after, kept, same⟩ := (step_course p who s).home stack busy
  exact ⟨after, kept, same.trans current, (step_moves p who s).keeps.2.1.trans root⟩

end Turn

/-! ## 3. Frames that stay -/

/-- A thread stands where it stood, and if the frames around it exist, it sees the same ones. -/
structure Env.Restored (env : Env) (fs : Frames) (env' : Env) (fs' : Frames) : Prop where
  same : env' = env
  chain : ∀ rootScope, fs.Linked rootScope → fs.Live env.current → env'.chain fs' = env.chain fs

theorem Env.Restored.of_grows {env env' : Env} {fs fs' : Frames} (same : env' = env)
    (grows : fs.Grows fs') : env.Restored fs env' fs' := by
  refine ⟨same, ?_⟩
  intro rootScope linked live
  rw [same]
  exact grows.chain linked.descending live

/-! ## 4. Runs -/

/-- How an evaluation begins: with a node, with a call, or with the statements of a root. -/
inductive Begins : Control → List Pending → Prop
  | node (n : NodeId) : Begins (.eval n) []
  | call (span : Option Span) (function : NodeId) (arguments : List Value) :
      Begins (.invoke span function arguments) []
  | root (statements : List NodeId) : Begins (.give .void) [.statements statements]

theorem Begins.leadsHome {control : Control} {opening : List Pending} (begins : Begins control opening)
    (base : List Pending) (env : Env) :
    (⟨env, control, opening ++ base⟩ : Thread).LeadsHome base env := by
  refine ⟨opening, rfl, ?_, rfl⟩
  cases begins <;> rfl

namespace Machine

variable {p : Program} {m m' : Machine} {seen : Option Sighting}

/-- A step of the machine keeps the way home of a thread whose evaluation goes on. -/
theorem Next.leadsHome (next : Next p m seen m') {who : ThreadId} {base : List Pending} {env : Env}
    (goesOn : ∃ t, m.thread? who = some t ∧ t.Above base)
    (leads : ∀ t, m.thread? who = some t → t.LeadsHome base env) :
    ∀ t, m'.thread? who = some t → t.LeadsHome base env := by
  obtain ⟨t, here, above⟩ := goesOn
  have all := @Next.forall_threads _ _ _ _ (fun other t => other = who → t.LeadsHome base env) next
  intro t' found
  refine all ?_ ?_ ?_ ?_ who t' found rfl
  · intro other t₁ there same
    exact leads t₁ (same ▸ there)
  · intro other t₁ there _ _ same
    rw [same] at there
    obtain rfl : t = t₁ := Option.some.inj (here.symm.trans there)
    exact Turn.step_leadsHome p other (t.inside m.world) above (leads t there)
  · intro other t₁ rest job there launches same
    rw [same] at there
    obtain ⟨jobs, -, rfl⟩ := launch?_eq_some launches
    exact leads t₁ there
  · -- a task that is evaluating does not wait to begin
    intro id env' job waits same
    subst same
    rw [thread?_of_found waits] at here
    cases here

end Machine

namespace Run

variable {p : Program} {c : RunConfig}

/-- Up to the last of the moves, the evaluation that a thread began above `base` goes on. -/
def Evaluating (p : Program) (c : RunConfig) (who : ThreadId) (base : List Pending) :
    Run → List Move → Prop
  | _, [] => True
  | r, first :: moves =>
    (∃ t, r.machine.thread? who = some t ∧ t.Above base) ∧ Evaluating p c who base (r.move p c first) moves

theorem evaluating_nil {who : ThreadId} {r : Run} {moves : List Move}
    (unfinished : ∀ count < moves.length,
      ((r.play p c (moves.take count)).machine.thread? who).any (·.outcome?.isNone)) :
    Evaluating p c who [] r moves := by
  induction moves generalizing r with
  | nil => trivial
  | cons first moves ih =>
    refine ⟨?_, ih ?_⟩
    · have here := unfinished 0 (Nat.succ_pos _)
      cases found : r.machine.thread? who with
      | none =>
        rw [List.take_zero, play_nil, found] at here
        cases here
      | some t =>
        rw [List.take_zero, play_nil, found] at here
        exact ⟨t, rfl, Thread.above_nil_iff.mpr (Option.isNone_iff_eq_none.mp here)⟩
    · intro count inside
      exact unfinished (count + 1) (Nat.succ_lt_succ inside)

theorem main_initial (p : Program) (c : RunConfig) :
    (initial p c).machine.main =
      ⟨(initial p c).machine.main.env, .give .void, [.statements p.rootStatements]⟩ := rfl

theorem leadsHome_move {r : Run} (numbered : r.machine.Numbered) {who : ThreadId} {base : List Pending}
    {env : Env} (first : Move) (goesOn : ∃ t, r.machine.thread? who = some t ∧ t.Above base)
    (leads : ∀ t, r.machine.thread? who = some t → t.LeadsHome base env) :
    ∀ t, (r.move p c first).machine.thread? who = some t → t.LeadsHome base env := by
  rcases machine_move p c numbered first with next | ⟨-, ledger, moved⟩
  · exact next.leadsHome goesOn leads
  · rw [moved]
    exact leads

theorem leadsHome_play {r : Run} (numbered : r.machine.Numbered) {who : ThreadId} {base : List Pending}
    {env : Env} {moves : List Move} (goesOn : Evaluating p c who base r moves)
    (leads : ∀ t, r.machine.thread? who = some t → t.LeadsHome base env) :
    ∀ t, (r.play p c moves).machine.thread? who = some t → t.LeadsHome base env := by
  induction moves generalizing r with
  | nil => exact leads
  | cons first moves ih =>
    obtain ⟨here, later⟩ := goesOn
    have next := next_move p c numbered first
    exact ih (next.numbered numbered) later (leadsHome_move numbered first here leads)

theorem grows_play {r : Run} (numbered : r.machine.Numbered) (moves : List Move) :
    r.machine.world.frames.Grows (r.play p c moves).machine.world.frames := by
  have kept : ∀ r₁ r₂ : Run, r₁.machine.Numbered →
      r.machine.world.frames.Grows r₁.machine.world.frames → Next p c r₁ r₂ →
      r.machine.world.frames.Grows r₂.machine.world.frames := by
    intro r₁ r₂ _ grows next
    cases next with
    | same | look | giveUp | close | report => exact grows
    | step seen machine next here => exact grows.trans next.frames
  exact (play_induction numbered (.refl _) kept moves).2

end Run

/-! ## 5. Sessions -/

namespace Machine

/-- The main thread is on its way to where `env` stands, and the frames of `fs` are there. -/
def MainLeadsHome (env : Env) (fs : Frames) (m : Machine) : Prop :=
  m.main.LeadsHome [] env ∧ fs.Grows m.world.frames

variable {p : Program} {env : Env} {fs : Frames} {m : Machine}

theorem MainLeadsHome.stepMain (leads : m.MainLeadsHome env fs) :
    (m.stepMain p).MainLeadsHome env fs := by
  obtain ⟨world, main, tasks⟩ := m
  obtain ⟨home, grows⟩ := leads
  simp only [Machine.stepMain]
  cases launches : main.launch? with
  | some launched =>
    obtain ⟨job, rest⟩ := launched
    obtain ⟨jobs, -, rfl⟩ := launch?_eq_some launches
    exact ⟨home, grows⟩
  | none =>
    refine ⟨?_, grows.trans (Turn.step_moves p .main (main.inside world)).keeps.2.2⟩
    by_cases ended : main.stack = [] ∧ main.control.Hands
    · -- a thread that is over stays as it is
      obtain ⟨env', control, stack⟩ := main
      obtain ⟨rfl, hands⟩ := ended
      cases control with
      | give v => exact home
      | leave e => exact home
      | _ => exact absurd hands id
    · apply Turn.step_leadsHome p .main (main.inside world) ?_ home
      refine ⟨main.stack, by simp [Thread.inside, Turn.thread], ?_⟩
      intro nothing hands
      exact ended ⟨nothing, hands⟩

theorem MainLeadsHome.stepTask (leads : m.MainLeadsHome env fs) (i : Nat) :
    (m.stepTask p i).MainLeadsHome env fs := by
  refine ⟨by rw [Run.main_stepTask]; exact leads.1, leads.2.trans ?_⟩
  obtain ⟨world, main, tasks⟩ := m
  -- only the step of a thread touches the frames
  simp only [Machine.stepTask]
  split
  · exact .refl _
  · next id state found =>
    cases state with
    | running t =>
      simp only
      split
      · exact .refl _
      · split
        · exact .refl _
        · exact (Turn.step_moves p (.task id) (t.inside world)).keeps.2.2
    | _ => exact .refl _

theorem kept_mainLeadsHome (p : Program) (env : Env) (fs : Frames) :
    Kept p (MainLeadsHome env fs) := by
  refine ⟨?_, ?_, ?_⟩
  · intro m leads
    exact leads.stepMain
  · intro m i leads
    exact leads
  · intro m i leads
    exact leads.stepTask i

end Machine

namespace Session

/-- If an evaluation of the session has come back, the main thread is where it was. -/
def ComesBack (s : Session) (result : Option Outcome × Session) : Prop :=
  result.1.isSome → s.env.Restored s.world.frames result.2.env result.2.world.frames

theorem perform_comesBack (s : Session) {control : Control} {opening : List Pending}
    (begins : Begins control opening) : s.ComesBack (s.perform control opening) := by
  intro ended
  obtain ⟨program, config, pool⟩ := s
  have start : Machine.MainLeadsHome pool.machine.main.env pool.machine.world.frames
      { pool.machine with main := ⟨pool.machine.main.env, control, opening⟩ } := by
    refine ⟨?_, .refl _⟩
    have leads := begins.leadsHome [] pool.machine.main.env
    rwa [List.append_nil] at leads
  have kept := Pool.runUntil_keeps
    (Machine.kept_mainLeadsHome program pool.machine.main.env pool.machine.world.frames)
    config.workers mainIsOver patience
    { pool with machine.main := ⟨pool.machine.main.env, control, opening⟩ } start
  obtain ⟨outcome, finished⟩ := Option.isSome_iff_exists.mp ended
  have nothing := (Thread.outcome?_eq_some finished).1
  exact .of_grows (kept.1.env_eq nothing) kept.2

theorem evalRoot_comesBack (s : Session) (root : NodeId) : s.ComesBack (s.evalRoot root) := by
  intro ended
  simp only [evalRoot] at ended ⊢
  split
  · exact .of_grows rfl (.refl _)
  · next statements found =>
    simp only [found, Option.isSome_map] at ended
    exact s.perform_comesBack (.root statements) ended
  · exact .of_grows rfl (.refl _)

end Session

namespace Run

/-- A thread whose evaluation, begun above `base` in `env`, has come back with something to hand on. -/
structure Back (base : List Pending) (env : Env) (fs : Frames) (t : Thread) (fs' : Frames) : Prop where
  stack : t.stack = base
  hands : t.control.Hands
  restored : env.Restored fs t.env fs'

/-- Whatever an evaluation does, and whatever the other threads and the host do meanwhile: it goes on, or
it has come back to the frame in which it began, with the same frames around it, and this is so however it
ends. The same holds of what a session evaluates, calls, or runs as a root. -/
theorem evaluations_come_back (p : Program) (c : RunConfig) :
    (∀ (r : Run) (moves : List Move) (who : ThreadId) (base opening : List Pending) (env : Env)
        (control : Control), r.machine.Numbered → Begins control opening →
      r.machine.thread? who = some ⟨env, control, opening ++ base⟩ →
      Evaluating p c who base r moves →
      ∀ t, (r.play p c moves).machine.thread? who = some t →
        t.Above base ∨
          Back base env r.machine.world.frames t (r.play p c moves).machine.world.frames) ∧
    ∀ s : Session,
      (∀ node, s.ComesBack (s.eval node)) ∧
      (∀ function arguments, s.ComesBack (s.call function arguments)) ∧
      ∀ root, s.ComesBack (s.evalRoot root) := by
  refine ⟨?_, ?_⟩
  · intro r moves who base opening env control numbered begins here goesOn t found
    have leads : t.LeadsHome base env := by
      refine leadsHome_play numbered goesOn ?_ t found
      intro t₀ there
      obtain rfl := Option.some.inj (here.symm.trans there)
      exact begins.leadsHome base env
    obtain ⟨top, stack, -, -⟩ := id leads
    by_cases back : top = [] ∧ t.control.Hands
    · obtain ⟨rfl, hands⟩ := back
      have same := leads.env_eq stack
      exact .inr ⟨stack, hands, .of_grows same (grows_play numbered moves)⟩
    · refine .inl ⟨top, stack, ?_⟩
      intro nothing hands
      exact back ⟨nothing, hands⟩
  · intro s
    refine ⟨?_, ?_, s.evalRoot_comesBack⟩
    · intro node
      exact s.perform_comesBack (.node node)
    · intro function arguments
      exact s.perform_comesBack (.call none function arguments)

/-! ### A fault in a block of a function -/

def dividing : Script :=
  [.function "half" [("n", .plain .int)] (.plain .int)
      [.block [.ret (some (.binary .div (.reference "n") (.int 0)))]],
    .expression (.call "half" [.int 1])]

def dividingProgram : Program := dividing.program.toOption.getD default

/-- The main program stops with a fault, two frames inside the one in which it stood. -/
theorem dividing_comes_back :
    let r := initial dividingProgram default
    let r' := r.play dividingProgram default (List.replicate 26 .main)
    r'.machine.main.control matches .leave (.fault _) ∧
      Back [] r.machine.main.env r.machine.world.frames r'.machine.main r'.machine.world.frames := by
  have ended : ((initial dividingProgram default).play dividingProgram default
      (List.replicate 26 .main)).machine.main.outcome?.isSome := by decide +kernel
  have goesOn : Evaluating dividingProgram default .main [] (initial dividingProgram default)
      (List.replicate 26 .main) := by
    apply evaluating_nil
    decide +kernel
  have back := (evaluations_come_back dividingProgram default).1 (initial dividingProgram default)
    (List.replicate 26 .main) .main [] [.statements dividingProgram.rootStatements]
    (initial dividingProgram default).machine.main.env (.give .void) (numbered_initial _ _) (.root _)
    (congrArg some (main_initial dividingProgram default)) goesOn _ rfl
  refine ⟨by decide +kernel, back.resolve_left ?_⟩
  intro above
  rw [Thread.above_nil_iff.mp above] at ended
  cases ended

end Run

end Strand
