import Strand.Builder.Script
import Strand.Proofs.Accounting
import Strand.Proofs.Returns.Expressions

/-!
# Where a return comes from

A statement may let a return out, and then the return comes from a `return` statement of the same
activation: of the statement itself, or of one inside of it, but not of a function that is called on the
way, nor of a task that is launched. What stands between the two is the rest of a list of statements, the
end of a block, of a branch, of the body of a loop or of a protected block, and these hand the value on as
it is.

The past of a thread is the list of what it was before each of its moves, the latest first. `Progress`
says of the past and the present of a thread that evaluates a statement above `base`: no `return`
statement of the activation has been completed, or one has and the thread is on its way out with its
value. Every step keeps it, and so does every run, whatever the others do meanwhile.
-/

set_option autoImplicit false

namespace Strand

/-! ## 1. Statements and what waits for them -/

namespace Pending

/-- Whether a pending waits for a statement in the same activation. -/
def isBody : Pending → Bool
  | statements _ | leaveBlock _ | dropped | loopBody .. | leaveSite .. => true
  | _ => false

/-- Whether a pending is that of a statement which waits for the value of an expression. -/
def isUse : Pending → Bool
  | dropped | branch .. | loopTest .. | returned | declaration .. => true
  | _ => false

/-- The condition that a loop evaluates again. -/
def condition? : Pending → Option NodeId
  | loopTest _ condition _ | loopBody _ condition _ => some condition
  | _ => none

end Pending

/-- A control that a statement leads to, before it evaluates an expression or has something to hand on. -/
def Control.Starts : Control → Prop
  | eval _ | findSite .. | addSite .. | enterSite .. | submit _ => True
  | _ => False

/-- A body that waits for a statement; a loop will evaluate its condition again. -/
structure Pending.Body (p : Program) (waiting : Pending) : Prop where
  body : waiting.isBody = true
  condition : ∀ n, waiting.condition? = some n → p.IsExpression n

/-- A use that waits for an expression; a loop will evaluate its condition again. -/
structure Pending.Use (p : Program) (waiting : Pending) : Prop where
  use : waiting.isUse = true
  condition : ∀ n, waiting.condition? = some n → p.IsExpression n

theorem Pending.Body.plain {p : Program} {waiting : Pending} (body : waiting.isBody = true)
    (plain : waiting.condition? = none) : waiting.Body p :=
  ⟨body, by simp [plain]⟩

theorem Pending.Use.plain {p : Program} {waiting : Pending} (use : waiting.isUse = true)
    (plain : waiting.condition? = none) : waiting.Use p :=
  ⟨use, by simp [plain]⟩

/-- What is around a statement in its activation, and around an expression: bodies, and nearest to an
expression its use, unless the expression stands in the place of a statement. -/
inductive Surrounds (p : Program) : List Pending → Prop
  | bodies {bodies : List Pending} (own : ∀ waiting ∈ bodies, waiting.Body p) : Surrounds p bodies
  | use {waiting : Pending} {bodies : List Pending} (first : waiting.Use p)
      (own : ∀ waiting ∈ bodies, waiting.Body p) : Surrounds p (waiting :: bodies)

namespace Thread

/-- A `return` statement inside of `bodies` is about to leave with a value: it is its turn and it has no
expression, or its expression has given the value. -/
inductive Returns (p : Program) (base bodies : List Pending) (t : Thread) : Value → Prop
  | empty (n : NodeId) (kind : p.arena.kind? n = some (.ret none)) (control : t.control = .eval n)
      (stack : t.stack = bodies ++ base) : Returns p base bodies t .void
  | value (v : Value) (control : t.control = .give v) (stack : t.stack = .returned :: (bodies ++ base)) :
      Returns p base bodies t v

/-- A `return` statement of the activation that is evaluated above `base` is about to leave. -/
def AtReturn (p : Program) (base : List Pending) (t : Thread) : Prop :=
  ∃ bodies v, (∀ waiting ∈ bodies, waiting.isBody = true) ∧ t.Returns p base bodies v

/-- A return of a value is on its way out, and of the bodies around it some are still to come. -/
structure Passes (base bodies : List Pending) (v : Value) (t : Thread) : Prop where
  control : t.control = .leave (.ret v)
  stack : ∃ left, left <:+ bodies ∧ t.stack = left ++ base

end Thread

/-- A `return` statement has begun to evaluate its expression inside of `bodies`, and goes on with it. -/
def Computes (p : Program) (base bodies : List Pending) (past : List Thread) : Prop :=
  ∃ since before t n e, past = since ++ t :: before ∧ t.control = .eval n ∧ t.stack = bodies ++ base ∧
    p.arena.kind? n = some (.ret (some e)) ∧ ∀ t ∈ since, t.Above (.returned :: (bodies ++ base))

/-- Of the activation that is evaluated above `base`, one `return` statement has been completed, with the
value `v`; if the value is that of an expression, the statement had begun to evaluate it before. Since then
the value has been handed on, past the bodies around the statement. -/
inductive ReturnedBy (p : Program) (base bodies : List Pending) (v : Value) (past : List Thread) : Prop
  | mk (later : List Thread) (t : Thread) (earlier : List Thread) (split : past = later ++ t :: earlier)
    (own : ∀ waiting ∈ bodies, waiting.isBody = true) (returns : t.Returns p base bodies v)
    (computed : t.control = .give v → Computes p base bodies earlier)
    (once : ∀ t ∈ earlier, ¬ t.AtReturn p base) (passed : ∀ t ∈ later, t.Passes base bodies v)

/-- How far a thread with some past has come with a statement that it evaluates above `base`. -/
inductive Progress (p : Program) (base : List Pending) (past : List Thread) (t : Thread) : Prop
  | statement (bodies : List Pending) (own : ∀ waiting ∈ bodies, waiting.Body p)
      (starts : t.control.Starts) (stack : t.stack = bodies ++ base)
      (unreturned : ∀ t ∈ past, ¬ t.AtReturn p base)
  | expression (under : List Pending) (around : Surrounds p under)
      (evaluates : t.Evaluates p.IsExpression (under ++ base))
      (computes : ∀ bodies, under = .returned :: bodies → Computes p base bodies past)
      (unreturned : ∀ t ∈ past, ¬ t.AtReturn p base)
  | leaving (bodies : List Pending) (v : Value) (returned : ReturnedBy p base bodies v past)
      (passes : t.Passes base bodies v)

/-! ## 2. What is no return -/

namespace Thread

variable {p : Program} {base bodies : List Pending} {t : Thread}

/-- A `return` statement has nothing of a call around it. -/
theorem AtReturn.no_call (at_ : t.AtReturn p base) {inside outside : List Pending} {saved : FrameId} :
    t.stack ≠ inside ++ .leaveCall saved :: (outside ++ base) := by
  obtain ⟨bodies, v, own, returns⟩ := at_
  intro called
  -- what is above `base` holds the end of the call, which is no body
  have among : ∀ {above : List Pending}, t.stack = above ++ base → .leaveCall saved ∈ above := by
    intro above stack
    have same : above ++ base = (inside ++ .leaveCall saved :: outside) ++ base := by
      rw [← stack, called, List.append_assoc, List.cons_append]
    rw [List.append_cancel_right same]
    simp
  cases returns with
  | empty n kind control stack => cases own _ (among stack)
  | value v control stack =>
    rcases List.mem_cons.mp (among stack) with same | member
    · cases same
    · cases own _ member

/-- An expression that goes on is at no `return` statement of the activation around it. -/
theorem Evaluates.not_atReturn {among : NodeId → Prop} {under : List Pending} (closed : p.Sealed among)
    (evaluates : t.Evaluates among (under ++ base)) (above : t.Above (under ++ base)) :
    ¬ t.AtReturn p base := by
  intro at_
  cases evaluates with
  | called inside saved top stack waits =>
    rw [← List.append_assoc] at stack
    exact at_.no_call stack
  | here top stack within waits =>
    obtain ⟨bodies, v, own, returns⟩ := at_
    obtain ⟨top', stack', busy⟩ := above
    obtain rfl : top' = top := List.append_cancel_right (stack'.symm.trans stack)
    cases returns with
    | empty n kind control _ =>
      -- the node is an expression
      rw [control] at within
      cases closed.expression n within _ kind
    | value v control returned =>
      rw [control] at busy
      cases top' with
      | nil => exact busy rfl trivial
      | cons first rest =>
        rw [returned] at stack
        injection stack with same
        have operand := (waits first List.mem_cons_self).operand
        rw [← same] at operand
        cases operand

theorem Starts.not_atReturn (starts : t.control.Starts)
    (other : ∀ n, t.control = .eval n → p.arena.kind? n ≠ some (.ret none)) : ¬ t.AtReturn p base := by
  rintro ⟨bodies, v, own, returns⟩
  cases returns with
  | empty n kind control stack => exact other n control kind
  | value v control stack =>
    rw [control] at starts
    exact starts

end Thread

/-- An expression goes on, whatever is around it. -/
theorem Progress.goes_on {p : Program} {base under : List Pending} {past : List Thread} {t t' : Thread}
    (expressive : p.Expressive) (around : Surrounds p under)
    (evaluates : t.Evaluates p.IsExpression (under ++ base)) (going : t.Above (under ++ base))
    (computes : ∀ bodies, under = .returned :: bodies → Computes p base bodies past)
    (unreturned : ∀ t ∈ past, ¬ t.AtReturn p base)
    (after : t'.Evaluates p.IsExpression (under ++ base)) : Progress p base (t :: past) t' := by
  have other := evaluates.not_atReturn expressive.sealed going
  refine .expression under around after ?_ (List.forall_mem_cons.mpr ⟨other, unreturned⟩)
  rintro bodies rfl
  obtain ⟨since, before, t₀, n, e, rfl, control, stack, kind, all⟩ := computes bodies rfl
  exact ⟨t :: since, before, t₀, n, e, rfl, control, stack, kind, List.forall_mem_cons.mpr ⟨going, all⟩⟩

/-! ## 3. Steps -/

namespace Turn

variable {p : Program} {s : Turn} {base bodies : List Pending} {past : List Thread}

section Statements

variable (own : ∀ waiting ∈ bodies, waiting.Body p) (stack : s.stack = bodies ++ base)
  (unreturned : ∀ t ∈ past, ¬ t.AtReturn p base)

include own stack unreturned

/-- A statement may go on with a value, or fail. -/
theorem calmly_progress : Calmly (fun s' => Progress p base past s'.thread) s := by
  intro heap control calm
  refine .expression bodies (.bodies own) (.here [] stack (calm.within _) nofun) ?_ unreturned
  rintro others rfl
  cases (own _ List.mem_cons_self).body

/-- A statement evaluates a statement inside of it. -/
theorem await_statement {n : NodeId} {left : Pending} (body : left.Body p) :
    Progress p base past (s.await n left).thread :=
  .statement (left :: bodies) (List.forall_mem_cons.mpr ⟨body, own⟩) trivial
    (congrArg (left :: ·) stack) unreturned

/-- A statement uses an expression. -/
theorem await_expression {n : NodeId} {left : Pending} (use : left.Use p) (expression : p.IsExpression n)
    (computes : left = .returned → Computes p base bodies past) :
    Progress p base past (s.await n left).thread := by
  refine .expression (left :: bodies) (.use use own)
    (.here [] (congrArg (left :: ·) stack) expression nofun) ?_ unreturned
  rintro others ⟨⟩
  exact computes rfl

theorem runStatements_progress (statements : List NodeId) :
    Progress p base past (s.runStatements statements).thread := by
  cases statements with
  | nil => exact (calmly_progress own stack unreturned).give .void
  | cons first rest => exact await_statement own stack unreturned (.plain rfl rfl)

/-- Every node but a `return` statement goes on with its parts. -/
theorem enter_progress (expressive : p.Expressive) {n : NodeId} {kind : NodeKind}
    (found : p.arena.kind? n = some kind) (other : ∀ value, kind ≠ .ret value) :
    Progress p base past (enter p s n kind).thread := by
  have h := calmly_progress own stack unreturned
  have operand := fun m => expressive.operand (m := m) found
  -- a use of an expression, which is no return of it
  have use : ∀ {m : NodeId} {left : Pending}, left.Use p → left ≠ .returned →
      m ∈ kind.callee?.toList ++ kind.operands → Progress p base past (s.await m left).thread := by
    intro m left use ordinary part
    exact await_expression own stack unreturned use (operand m part) fun same => absurd same ordinary
  by_cases expression : kind.isExpression = true
  · -- an expression that stands in the place of a statement
    have member : p.IsExpression n := by
      rw [Program.IsExpression, found]
      exact expression
    have nothing : s.stack = [] ++ (bodies ++ base) := stack
    have evaluates := enter_evaluates expressive.sealed nothing (List.forall_mem_nil _) member found
    refine .expression bodies (.bodies own) evaluates ?_ unreturned
    rintro others rfl
    cases (own _ List.mem_cons_self).body
  cases kind with
  | root statements => exact runStatements_progress own stack unreturned statements
  | block statements =>
    refine h.orFault fun scope => ?_
    have inside : ∀ waiting ∈ .leaveBlock s.env.current :: bodies, waiting.Body p :=
      List.forall_mem_cons.mpr ⟨.plain rfl rfl, own⟩
    refine runStatements_progress inside ?_ unreturned statements
    exact congrArg (Pending.leaveBlock s.env.current :: ·) stack
  | expression inner => exact use (.plain rfl rfl) (by rintro ⟨⟩) (by simp [NodeKind.operands])
  | conditional condition thenBranch elseBranch =>
    exact use (.plain rfl rfl) (by rintro ⟨⟩) (by simp [NodeKind.operands])
  | loop condition body =>
    have member : condition ∈ (NodeKind.loop condition body).callee?.toList ++
        (NodeKind.loop condition body).operands := by
      simp [NodeKind.operands]
    refine use ⟨rfl, ?_⟩ (by rintro ⟨⟩) member
    rintro m ⟨⟩
    exact operand condition member
  | ret value => exact absurd rfl (other value)
  | launch call => exact .statement bodies own trivial stack unreturned
  | launchDecl declaration =>
    refine h.orAbort fun kind => ?_
    cases kind with
    | varDecl name initializer =>
      exact h.orFault fun scope => h.orFault fun f => .statement bodies own trivial stack unreturned
    | _ => exact h.raise n _
  | protect block => exact .statement bodies own trivial stack unreturned
  | varDecl name initializer => exact use (.plain rfl rfl) (by rintro ⟨⟩) (by simp [NodeKind.operands])
  | funDecl | parameter | structDecl | fieldDecl => exact h.give .void
  | _ => exact absurd rfl expression

/-- A body that gets a value goes on with the statements that follow, or is done. -/
theorem resume_body {v : Value} {waiting : Pending} (body : waiting.Body p) :
    Progress p base past (resume p s v waiting).thread := by
  have h := calmly_progress own stack unreturned
  have onward : ∀ (world : World) (env : Env),
      Progress p base past ⟨env, .give .void, s.stack⟩ := by
    intro world env
    exact (calmly_progress (s := ⟨world, env, .give .void, s.stack⟩) own stack unreturned).give .void
  obtain ⟨body, condition⟩ := body
  cases waiting with
  | statements rest => exact runStatements_progress own stack unreturned rest
  | dropped => exact h.give .void
  | loopBody n test body =>
    exact await_expression own stack unreturned ⟨rfl, condition⟩ (condition test rfl) nofun
  | leaveBlock saved => exact onward s.world (s.env.restore saved)
  | leaveSite site lock => exact onward s.world s.env
  | _ => cases body

/-- A use that gets the value of its expression, other than a `return` statement. -/
theorem resume_use {v : Value} {waiting : Pending} (use : waiting.Use p) (ordinary : waiting ≠ .returned) :
    Progress p base past (resume p s v waiting).thread := by
  have h := calmly_progress own stack unreturned
  obtain ⟨use, condition⟩ := use
  cases waiting with
  | dropped => exact h.give .void
  | branch n thenBranch elseBranch =>
    refine h.orFault fun b => ?_
    split
    · exact await_statement own stack unreturned (.plain rfl rfl)
    · cases elseBranch with
      | none => exact h.give .void
      | some elseBranch => exact await_statement own stack unreturned (.plain rfl rfl)
  | loopTest n test body =>
    refine h.orFault fun b => ?_
    split
    · exact await_statement own stack unreturned ⟨rfl, condition⟩
    · exact h.give .void
  | returned => exact absurd rfl ordinary
  | declaration n name =>
    refine h.orFault fun scope => h.orFault fun f => ?_
    exact (calmly_progress (s := ⟨_, s.env, .give .void, s.stack⟩) own stack unreturned).give .void
  | _ => cases use

/-- What fails is handed on. -/
theorem unwind_fails {e : Exit} (fails : e.Fails) {waiting : Pending}
    (first : waiting.isBody = true ∨ waiting.isUse = true) :
    Progress p base past (unwind s e waiting).thread := by
  have onward : ∀ (world : World) (env : Env), Progress p base past ⟨env, .leave e, s.stack⟩ := by
    intro world env
    exact (calmly_progress (s := ⟨world, env, .leave e, s.stack⟩) own stack unreturned).goTo (.leave e) fails
  cases waiting with
  | leaveBlock saved => exact onward s.world (s.env.restore saved)
  | leaveCall | unlock => rcases first with first | first <;> cases first
  | _ => exact onward s.world s.env

end Statements

/-- A return is handed on past a body. -/
theorem unwind_passes {left : List Pending} {v : Value} {waiting : Pending}
    (body : waiting.isBody = true) (inside : left <:+ bodies) (stack : s.stack = left ++ base) :
    (unwind s (.ret v) waiting).thread.Passes base bodies v := by
  cases waiting with
  | statements | dropped | loopBody | leaveBlock | leaveSite => exact ⟨rfl, left, inside, stack⟩
  | _ => cases body

/-- A `return` statement that gets its turn leaves, or begins to evaluate its expression. -/
theorem step_ret (expressive : p.Expressive) (who : ThreadId) {n : NodeId} {value : Option NodeId}
    (own : ∀ waiting ∈ bodies, waiting.Body p) (control : s.control = .eval n)
    (kind : p.arena.kind? n = some (.ret value)) (stack : s.stack = bodies ++ base)
    (unreturned : ∀ t ∈ past, ¬ t.AtReturn p base) :
    Progress p base (s.thread :: past) (s.step p who).thread := by
  have found := Program.kind_eq_ok.mpr kind
  simp only [step, control, found, enter]
  cases value with
  | none =>
    refine .leaving bodies .void (.mk [] s.thread past rfl ?_ (.empty n kind control stack) ?_
      unreturned (List.forall_mem_nil _)) ⟨rfl, bodies, List.suffix_refl _, stack⟩
    · exact fun waiting member => (own waiting member).body
    · intro gives
      cases control.symm.trans gives
  | some e =>
    have other : ¬ s.thread.AtReturn p base := by
      refine Thread.Starts.not_atReturn (t := s.thread) (control ▸ trivial : s.control.Starts) ?_
      intro m same empty
      cases control.symm.trans same
      cases kind.symm.trans empty
    refine await_expression own stack (List.forall_mem_cons.mpr ⟨other, unreturned⟩) (.plain rfl rfl) ?_ ?_
    · exact expressive.operand kind (by simp [NodeKind.operands])
    · intro _
      exact ⟨[], past, s.thread, n, e, rfl, control, stack, kind, List.forall_mem_nil _⟩

/-- A statement that has not come to an expression yet. -/
theorem step_starts (expressive : p.Expressive) (who : ThreadId)
    (own : ∀ waiting ∈ bodies, waiting.Body p) (starts : s.control.Starts) (stack : s.stack = bodies ++ base)
    (unreturned : ∀ t ∈ past, ¬ t.AtReturn p base) :
    Progress p base (s.thread :: past) (s.step p who).thread := by
  by_cases ret : ∃ n value, s.control = .eval n ∧ p.arena.kind? n = some (.ret value)
  · obtain ⟨n, value, control, kind⟩ := ret
    exact step_ret expressive who own control kind stack unreturned
  · have other : ¬ s.thread.AtReturn p base := by
      refine Thread.Starts.not_atReturn (t := s.thread) starts ?_
      intro n control kind
      exact ret ⟨n, _, control, kind⟩
    have unreturned : ∀ t ∈ s.thread :: past, ¬ t.AtReturn p base :=
      List.forall_mem_cons.mpr ⟨other, unreturned⟩
    have h := calmly_progress own stack unreturned
    obtain ⟨world, env, control, _⟩ := s
    cases control with
    | eval n =>
      simp only [step]
      split
      · next kind found =>
        refine enter_progress own stack unreturned expressive (Program.kind_eq_ok.mp found) ?_
        rintro value rfl
        exact ret ⟨n, value, rfl, Program.kind_eq_ok.mp found⟩
      · exact h.goTo (.leave (.crash _)) trivial
    | findSite site block =>
      simp only [step]
      split <;> exact .statement bodies own trivial stack unreturned
    | addSite site block => exact .statement bodies own trivial stack unreturned
    | enterSite site lock block =>
      simp only [step]
      split
      · exact await_statement own stack unreturned (.plain rfl rfl)
      · exact .statement bodies own trivial stack unreturned
    | submit jobs =>
      cases jobs with
      | nil => exact h.give .void
      | cons job jobs => exact .statement bodies own trivial stack unreturned
    | _ => exact starts.elim

/-- An expression that has a value, or has failed: what is around it goes on. -/
theorem step_back (who : ThreadId) {under : List Pending} (around : Surrounds p under)
    (stack : s.stack = under ++ base) (hands : s.control.Hands) (calm : s.control.IsCalm)
    (above : under = [] → ¬ s.control.Hands)
    (computes : ∀ bodies, under = .returned :: bodies → Computes p base bodies past)
    (unreturned : ∀ t ∈ past, ¬ t.AtReturn p base) :
    Progress p base (s.thread :: past) (s.step p who).thread := by
  -- `under` holds what waits and the bodies around it
  obtain ⟨waiting, bodies, rfl, own⟩ : ∃ waiting bodies, under = waiting :: bodies ∧
      ∀ waiting ∈ bodies, waiting.Body p := by
    cases around with
    | use first own => exact ⟨_, _, rfl, own⟩
    | bodies own =>
      cases under with
      | nil => exact absurd hands (above rfl)
      | cons waiting bodies => exact ⟨waiting, bodies, rfl, (List.forall_mem_cons.mp own).2⟩
  have first : waiting.Body p ∨ waiting.Use p := by
    cases around with
    | use first own => exact .inr first
    | bodies own => exact .inl (own waiting List.mem_cons_self)
  obtain ⟨world, env, control, _⟩ := s
  obtain rfl : _ = _ := stack
  by_cases ret : waiting = .returned ∧ ∃ v, control = .give v
  · -- the value of a `return` statement
    obtain ⟨rfl, v, rfl⟩ := ret
    refine .leaving bodies v (.mk [] _ past rfl ?_ (.value v rfl rfl) ?_ unreturned nofun)
      ⟨rfl, bodies, List.suffix_refl _, rfl⟩
    · exact fun waiting member => (own waiting member).body
    · exact fun _ => computes bodies rfl
  have other : ¬ Thread.AtReturn p base ⟨env, control, waiting :: bodies ++ base⟩ := by
    rintro ⟨others, v, -, returns⟩
    cases returns with
    | empty n kind eval _ =>
      obtain rfl : control = .eval n := eval
      exact hands.elim
    | value v give returned =>
      obtain rfl : control = .give v := give
      injection returned with same
      exact ret ⟨same, v, rfl⟩
  have unreturned : ∀ t ∈ ⟨env, control, waiting :: bodies ++ base⟩ :: past, ¬ t.AtReturn p base :=
    List.forall_mem_cons.mpr ⟨other, unreturned⟩
  cases control with
  | give v =>
    rcases first with body | use
    · exact resume_body own rfl unreturned body
    · exact resume_use own rfl unreturned use fun same => ret ⟨same, v, rfl⟩
  | leave e =>
    have fails : e.Fails := calm
    exact unwind_fails own rfl unreturned fails (first.imp (·.body) (·.use))
  | _ => exact hands.elim

/-- A step of a thread that evaluates a statement makes progress with it. -/
theorem step_progress (expressive : p.Expressive) (who : ThreadId) (above : s.thread.Above base)
    (progress : Progress p base past s.thread) :
    Progress p base (s.thread :: past) (s.step p who).thread := by
  obtain ⟨top, stack', busy⟩ := above
  cases progress with
  | statement bodies own starts stack unreturned =>
    exact step_starts expressive who own starts stack unreturned
  | expression under around evaluates computes unreturned =>
    by_cases going : s.thread.Above (under ++ base)
    · exact .goes_on expressive around evaluates going computes unreturned
        (step_evaluates expressive.sealed who going evaluates)
    · obtain ⟨stack, hands, calm⟩ := evaluates.back going
      refine step_back who around stack hands calm ?_ computes unreturned
      rintro rfl
      exact busy (List.append_cancel_right (stack'.symm.trans stack))
  | leaving bodies v returned passes =>
    obtain ⟨control, left, inside, stack⟩ := id passes
    obtain ⟨later, t, earlier, rfl, own, returns, computed, once, passed⟩ := returned
    obtain ⟨world, env, _, _⟩ := s
    obtain rfl : _ = _ := control
    obtain rfl : _ = _ := stack
    obtain rfl : top = left := List.append_cancel_right stack'.symm
    refine .leaving bodies v (.mk (_ :: later) t earlier rfl own returns computed once
      (List.forall_mem_cons.mpr ⟨passes, passed⟩)) ?_
    cases top with
    | nil => exact absurd trivial (busy rfl)
    | cons waiting left =>
      refine unwind_passes (own waiting (inside.subset List.mem_cons_self)) ?_ rfl
      exact (List.suffix_cons waiting left).trans inside

end Turn

namespace Progress

variable {p : Program} {base : List Pending} {past : List Thread} {t : Thread}

/-- To launch a task is a move like any other. -/
theorem launch (expressive : p.Expressive) (progress : Progress p base past t)
    {rest : Thread} {job : Control} (launches : t.launch? = some (job, rest)) :
    Progress p base (t :: past) rest := by
  obtain ⟨jobs, submits, rfl⟩ := Machine.launch?_eq_some launches
  cases progress with
  | statement bodies own starts stack unreturned =>
    have other : ¬ t.AtReturn p base := by
      refine Thread.Starts.not_atReturn starts ?_
      intro n control
      cases submits.symm.trans control
    exact .statement bodies own trivial stack (List.forall_mem_cons.mpr ⟨other, unreturned⟩)
  | expression under around evaluates computes unreturned =>
    have going : t.Above (under ++ base) := by
      by_contra done
      have hands := (evaluates.back done).2.1
      rw [submits] at hands
      exact hands
    exact goes_on expressive around evaluates going computes unreturned (evaluates.launch launches)
  | leaving bodies v returned passes => cases submits.symm.trans passes.control

/-- What comes back with a return has had one. -/
theorem returned (progress : Progress p base past t) (back : t.stack = base) {v : Value}
    (leaves : t.control = .leave (.ret v)) : ∃ bodies, ReturnedBy p base bodies v past := by
  cases progress with
  | statement bodies own starts stack unreturned =>
    rw [leaves] at starts
    exact starts.elim
  | expression under around evaluates computes unreturned =>
    have nothing : under = [] := by
      apply List.eq_nil_of_length_eq_zero
      cases evaluates with
      | here top stack within waits =>
        have length := congrArg List.length (back.symm.trans stack)
        simp only [List.length_append] at length
        omega
      | called inside saved top stack waits =>
        have length := congrArg List.length (back.symm.trans stack)
        simp only [List.length_append, List.length_cons] at length
        omega
    subst nothing
    exact absurd leaves (evaluates.no_return back v)
  | leaving bodies w returned passes =>
    cases leaves.symm.trans passes.control
    exact ⟨bodies, returned⟩

end Progress

/-! ## 4. Runs -/

namespace Run

variable {p : Program} {c : RunConfig}

/-- What a thread was before each of its moves, the latest first. -/
def past (who : ThreadId) (history : List Sighting) : List Thread :=
  history.filterMap fun seen => if seen.who = who then some seen.thread else none

theorem past_append (who : ThreadId) (later earlier : List Sighting) :
    past who (later ++ earlier) = past who later ++ past who earlier := List.filterMap_append ..

/-- What a move adds to the past of a thread: what it was, if it is the one that moves. -/
theorem past_mover {r : Run} {who : ThreadId} {first : Move} {t : Thread}
    (moved : r.mover? first = some ⟨who, t⟩) : past who (r.mover? first).toList = [t] := by
  simp [past, moved]

theorem past_others {r : Run} {who : ThreadId} {first : Move}
    (others : ∀ t, r.mover? first ≠ some ⟨who, t⟩) : past who (r.mover? first).toList = [] := by
  cases moved : r.mover? first with
  | none => rfl
  | some seen =>
    have different : seen.who ≠ who := by
      rintro rfl
      exact others seen.thread moved
    simp [past, different]

/-- What every step keeps of a thread that has not come back, given its past, and every launch, a run keeps. -/
theorem past_play {who : ThreadId} {base : List Pending} {holds : List Thread → Thread → Prop}
    (turn : ∀ (w : World) past t, t.Above base → holds past t →
      holds (t :: past) ((t.inside w).step p who).thread)
    (launch : ∀ past t job rest, holds past t → t.launch? = some (job, rest) → holds (t :: past) rest)
    {r : Run} (numbered : r.machine.Numbered) {before : List Thread} {moves : List Move}
    (goesOn : Evaluating p c who base r moves)
    (begins : ∀ t, r.machine.thread? who = some t → holds before t) :
    ∀ t, (r.play p c moves).machine.thread? who = some t →
      ∃ during, (r.play p c moves).history = during ++ r.history ∧
        holds (past who during ++ before) t := by
  induction moves generalizing r before with
  | nil => exact fun t here => ⟨[], rfl, begins t here⟩
  | cons first moves ih =>
    obtain ⟨⟨t₀, here, above⟩, later⟩ := goesOn
    have moved : ∀ t, (r.move p c first).machine.thread? who = some t →
        holds (past who (r.mover? first).toList ++ before) t := by
      intro t after
      rcases own_move numbered first here after with ⟨others, rfl⟩ | ⟨own, rfl | ⟨job, launches⟩⟩
      · rw [past_others others]
        exact begins t here
      · rw [past_mover own]
        exact turn r.machine.world before t₀ above (begins t₀ here)
      · rw [past_mover own]
        exact launch before t₀ job t (begins t₀ here) launches
    intro t found
    obtain ⟨during, history, kept⟩ := ih ((next_move p c numbered first).numbered numbered) later moved t found
    refine ⟨during ++ (r.mover? first).toList, ?_, ?_⟩
    · rw [play_cons, history, history_move, List.append_assoc]
    · rw [past_append, List.append_assoc]
      exact kept

theorem progress_play (expressive : p.Expressive) {r : Run} (numbered : r.machine.Numbered) {who : ThreadId}
    {base : List Pending} {before : List Thread} {moves : List Move}
    (goesOn : Evaluating p c who base r moves)
    (begins : ∀ t, r.machine.thread? who = some t → Progress p base before t) :
    ∀ t, (r.play p c moves).machine.thread? who = some t →
      ∃ during, (r.play p c moves).history = during ++ r.history ∧
        Progress p base (past who during ++ before) t := by
  apply past_play _ _ numbered goesOn begins
  · intro w past t above progress
    exact Turn.step_progress (s := t.inside w) expressive who above progress
  · intro past t job rest progress launches
    exact progress.launch expressive launches

/-- What has begun with a control above something, and has come back, has not come back with a return. -/
def Contains (p : Program) (c : RunConfig) (control : Control) : Prop :=
  ∀ (r : Run) (moves : List Move) (who : ThreadId) (base : List Pending) (env : Env),
    r.machine.Numbered → r.machine.thread? who = some ⟨env, control, base⟩ →
    Evaluating p c who base r moves →
    ∀ t, (r.play p c moves).machine.thread? who = some t → t.stack = base →
      ∀ v, t.control ≠ .leave (.ret v)

theorem contains_within {among : NodeId → Prop} (closed : p.Sealed among) {control : Control}
    (within : control.Within among) : Contains p c control := by
  intro r moves who base env numbered here goesOn t found back
  refine (evaluates_play closed numbered goesOn ?_ t found).no_return back
  intro t₀ there
  obtain rfl := Option.some.inj (here.symm.trans there)
  exact .here [] rfl within nofun

/-- A return stays inside of the call that it leaves. No call comes back with one, nor does a root, and a
task that ends with one has not failed. Where the place of every operand is taken by an expression, no
expression comes back with one either; and if a statement does, the return is that of exactly one `return`
statement of the same activation, and what is around that has handed the value on as it is. -/
theorem returns_stay_inside (p : Program) (c : RunConfig) :
    (∀ span function arguments, Contains p c (.invoke span function arguments)) ∧
    (∀ s : Session, s.program = p → ∀ v,
      (∀ function arguments, (s.call function arguments).1 ≠ some (.exit (.ret v))) ∧
      ∀ root, (s.evalRoot root).1 ≠ some (.exit (.ret v))) ∧
    (∀ moves id v,
      let r := (initial p c).play p c moves
      (id, .exit (.ret v)) ∈ r.endings →
        ∀ f, ⟨id, f⟩ ∉ r.phase.taken ++ r.machine.world.ledger.failures.toList) ∧
    (p.Expressive →
      (∀ n, p.IsExpression n → Contains p c (.eval n)) ∧
      (∀ s : Session, s.program = p → ∀ n, p.IsExpression n →
        ∀ v, (s.eval n).1 ≠ some (.exit (.ret v))) ∧
      ∀ (r : Run) (moves : List Move) (who : ThreadId) (base : List Pending) (env : Env) (n : NodeId),
        r.machine.Numbered → r.machine.thread? who = some ⟨env, .eval n, base⟩ →
        Evaluating p c who base r moves →
        ∀ t v, (r.play p c moves).machine.thread? who = some t → t.stack = base →
          t.control = .leave (.ret v) →
          ∃ during bodies, (r.play p c moves).history = during ++ r.history ∧
            ReturnedBy p base bodies v (past who during)) := by
  refine ⟨?_, ?_, ?_, ?_⟩
  · intro span function arguments
    exact contains_within p.sealed_none trivial
  · rintro s rfl v
    refine ⟨?_, ?_⟩
    · intro function arguments
      exact s.perform_contains s.program.sealed_none (.invoke none function arguments) trivial v
    · intro root ended
      simp only [Session.evalRoot] at ended
      split at ended
      · cases ended
      · obtain ⟨outcome, -, same⟩ := Option.map_eq_some_iff.mp ended
        rcases outcome with w | w | f | message <;> cases same
      · cases ended
  · intro moves id v r ended f
    exact (accounts_play p c moves).unfailing (numbered_play p c moves) ended rfl f
  · intro expressive
    refine ⟨?_, ?_, ?_⟩
    · intro n expression
      exact contains_within expressive.sealed expression
    · rintro s rfl n expression v
      exact s.perform_contains expressive.sealed (.eval n) expression v
    · intro r moves who base env n numbered here goesOn t v found back leaves
      have begins : ∀ t, r.machine.thread? who = some t → Progress p base [] t := by
        intro t₀ there
        obtain rfl := Option.some.inj (here.symm.trans there)
        exact .statement [] (List.forall_mem_nil _) trivial rfl (List.forall_mem_nil _)
      obtain ⟨during, history, progress⟩ := progress_play expressive numbered goesOn begins t found
      rw [List.append_nil] at progress
      obtain ⟨bodies, returned⟩ := progress.returned back leaves
      exact ⟨during, bodies, history, returned⟩

/-! ### A return out of a loop -/

def searching : Script :=
  [.function "half" [("n", .plain .int)] (.plain .int)
      [.ret (some (.binary .div (.reference "n") (.int 2)))],
    .block [.whileLoop (.boolean true)
      [.protect [.ifThen (.boolean true) [.ret (some (.call "half" [.int 8]))]]]]]

def searchingProgram : Program := searching.program.toOption.getD default

def searchingBlock : NodeId := searchingProgram.rootStatements.getLast?.getD default

/-- The main program is about to evaluate the block. -/
def searchingRun : Run :=
  let m := (initial searchingProgram default).machine
  ⟨m.setThread .main ⟨m.main.env, .eval searchingBlock, []⟩, .evaluating, []⟩

/-- The number with which a `return` leaves. -/
def returnedInt? : Control → Option Int64
  | .leave (.ret (.int n)) => some n
  | _ => none

theorem returnedInt?_eq_some {control : Control} {n : Int64} :
    returnedInt? control = some n ↔ control = .leave (.ret (.int n)) := by
  constructor
  · intro same
    unfold returnedInt? at same
    split at same
    · cases same
      rfl
    · cases same
  · rintro rfl
    rfl

/-- The block comes back with the value of its `return` statement, and not with that of the function. -/
theorem searching_returns :
    let r := searchingRun.play searchingProgram default (List.replicate 44 .main)
    r.machine.main.control = .leave (.ret (.int 4)) ∧
      ∃ during bodies, r.history = during ++ searchingRun.history ∧
        ReturnedBy searchingProgram [] bodies (.int 4) (past .main during) := by
  intro r
  have back : r.machine.main.stack.isEmpty := by decide +kernel
  have value : returnedInt? r.machine.main.control = some 4 := by decide +kernel
  have goesOn : Evaluating searchingProgram default .main [] searchingRun (List.replicate 44 .main) := by
    apply evaluating_nil
    decide +kernel
  have expressive : searchingProgram.Expressive := by decide +kernel
  have numbered : searchingRun.machine.Numbered :=
    (numbered_initial searchingProgram default).setThread .main _
  have here : searchingRun.machine.thread? .main =
      some ⟨(initial searchingProgram default).machine.main.env, .eval searchingBlock, []⟩ := rfl
  have contained := ((returns_stay_inside searchingProgram default).2.2.2 expressive).2.2 searchingRun
    (List.replicate 44 .main) .main [] _ _ numbered here goesOn r.machine.main
  have played : r = searchingRun.play searchingProgram default (List.replicate 44 .main) := rfl
  rw [← played] at contained
  clear_value r
  have leaves := returnedInt?_eq_some.mp value
  exact ⟨leaves, contained (.int 4) rfl (List.isEmpty_iff.mp back) leaves⟩

end Run

end Strand
