import Strand.Proofs.Closed.Steps
import Strand.Proofs.Returns.Statements

/-!
# Where a fault arose

A fault names the span of a node. It is the node whose evaluation raised it, and of all the evaluations that
were going on then the innermost one; on its way out the fault stays as it is.

Which evaluations go on is read off the past of a thread (`evaluations`): one begins when a node is to be
evaluated, and goes on until it has come back. That they nest, each with what it waits for above what waited
when it began, is an invariant of every step (`Tracked`). A step may raise a fault only in the name of the
innermost of them (`Turn.step_comes`): the pendings above its base blame that node or nobody, and so does the
control, also where a function is called whose caller has still to be checked.
-/

set_option autoImplicit false

namespace Strand

/-! ## 1. The evaluations that go on -/

open Classical in
/-- The evaluations that go on in a thread, of those that did and perhaps one more: an evaluation begins with
its node as the control, and goes on as long as it has not come back. -/
noncomputable def Thread.goingOn (t : Thread) (before : List (NodeId × List Pending)) :
    List (NodeId × List Pending) :=
  let left := before.filter fun e => t.Above e.2
  match t.control with
  | .eval n => (n, t.stack) :: left
  | _ => left

/-- The evaluations that go on in a thread, the innermost first, each with what waited when it began. Given
are what the thread is, and before it what it was at each of its moves, the latest first. -/
noncomputable def evaluations : List Thread → List (NodeId × List Pending)
  | [] => []
  | t :: past => t.goingOn (evaluations past)

/-- A fault was raised in the past of a thread, by the innermost of the evaluations that went on then, and has
been handed on since as it was. It has the span of the node, which the arena has. -/
inductive Raised (p : Program) (f : Fault) (past : List Thread) : Prop
  | mk (later : List Thread) (t : Thread) (earlier : List Thread) (split : past = later ++ t :: earlier)
    (fresh : ∀ g, t.control ≠ .leave (.fault g)) (n : NodeId) (base : List Pending)
    (outer : List (NodeId × List Pending)) (innermost : evaluations (t :: earlier) = (n, base) :: outer)
    (known : p.Has n) (span : f.span = some (p.span n))
    (handed : ∀ u ∈ later, u.control = .leave (.fault f))

/-! ## 2. Who is blamed -/

/-- A pending blames a node, if it is one, or nobody. -/
def Pending.Blames (who : Option NodeId) (waiting : Pending) : Prop :=
  ∀ n, waiting.place? = some n → who = some n

/-- What waits above `base` blames one node, or nobody. -/
def Owned (who : Option NodeId) (base stack : List Pending) : Prop :=
  ∃ top, stack = top ++ base ∧ ∀ waiting ∈ top, waiting.Blames who

/-- What a control may be that acts for a node, or for nobody. What it launches are nodes. -/
def Control.ActsFor (p : Program) (who : Option NodeId) : Control → Prop
  | eval _ | give _ | leave (.ret _) => True
  | leave _ | acquire .. => False
  | invoke span _ _ => ∃ n, who = some n ∧ span = some (p.span n)
  | await n _ _ => who = some n
  | submit jobs => ∀ job ∈ jobs, ∃ n, job = eval n
  | _ => True

theorem Pending.blames_of_place {who : Option NodeId} {waiting : Pending} (nobody : waiting.place? = none) :
    waiting.Blames who := by
  intro n place
  rw [nobody] at place
  cases place

theorem Owned.refl (who : Option NodeId) (base : List Pending) : Owned who base base :=
  ⟨[], rfl, List.forall_mem_nil _⟩

theorem Owned.cons {who : Option NodeId} {base stack : List Pending} {waiting : Pending}
    (owned : Owned who base stack) (blames : waiting.Blames who) : Owned who base (waiting :: stack) := by
  obtain ⟨top, rfl, each⟩ := owned
  exact ⟨waiting :: top, rfl, List.forall_mem_cons.mpr ⟨blames, each⟩⟩

namespace Turn

variable {p : Program} {who : Option NodeId} {base : List Pending} {s s' : Turn}

/-- What a step of an evaluation comes to: it goes on, or raises a fault with the span of its node, or crashes. -/
inductive Comes (p : Program) (who : Option NodeId) (base : List Pending) (s : Turn) : Prop
  | on (owned : Owned who base s.stack) (acts : s.control.ActsFor p who)
  | fails (f : Fault) (n : NodeId) (at_ : s.control = .leave (.fault f)) (blamed : who = some n)
    (span : f.span = some (p.span n))
  | crashes (message : String) (at_ : s.control = .leave (.crash message))

section

variable (owned : Owned who base s.stack)

include owned

theorem comes_to {world : World} {env : Env} {control : Control} (acts : control.ActsFor p who) :
    Comes p who base ⟨world, env, control, s.stack⟩ := .on owned acts

theorem comes_give (v : Value) : Comes p who base (s.give v) := comes_to owned trivial

theorem comes_await (n : NodeId) {waiting : Pending} (blames : waiting.Blames who) :
    Comes p who base (s.await n waiting) := .on (owned.cons blames) trivial

theorem comes_statements (statements : List NodeId) : Comes p who base (s.runStatements statements) := by
  cases statements with
  | nil => exact comes_give owned _
  | cons first rest => exact comes_await owned first (Pending.blames_of_place rfl)

end

theorem comes_raise (n : NodeId) (cause : Cause) : Comes p (some n) base (s.raise p n cause) :=
  .fails _ n rfl rfl rfl

section

variable {n : NodeId} (owned : Owned (some n) base s.stack)

include owned

theorem comes_abort (e : Abort) : Comes p (some n) base (s.abort p n e) := by
  cases e with
  | fault cause => exact comes_raise n cause
  | outOfRange read => exact .crashes _ rfl
  | diverges => exact comes_to owned trivial

theorem comes_orAbort {α : Type} {result : Except Abort α} {next : α → Turn}
    (goesOn : ∀ a, Comes p (some n) base (next a)) : Comes p (some n) base (s.orAbort p n result next) := by
  cases result with
  | ok a => exact goesOn a
  | error e => exact comes_abort owned e

omit owned in
theorem comes_orFault {α : Type} {result : Except Cause α} {next : α → Turn}
    (goesOn : ∀ a, Comes p (some n) base (next a)) : Comes p (some n) base (s.orFault p n result next) := by
  cases result with
  | ok a => exact goesOn a
  | error cause => exact comes_raise n cause

theorem comes_ofNest (result : Except Abort Nest) : Comes p (some n) base (s.ofNest p n result) := by
  cases result with
  | error e => exact comes_abort owned e
  | ok nest =>
    cases nest with
    | leaf v => exact comes_give owned v
    | row elements => exact comes_to owned trivial

/-! ## 3. Steps -/

/-- The first step of the evaluation of a node acts for it, and leaves pendings that blame it. -/
theorem enter_comes (kind : NodeKind) : Comes p (some n) base (enter p s n kind) := by
  have own : ∀ {m : NodeId} {left : Pending}, left.place? = some n → Comes p (some n) base (s.await m left) := by
    intro m left place
    apply comes_await owned m
    intro l same
    exact place.symm.trans same
  cases kind with
  | reference name => exact comes_orAbort owned fun v => comes_give owned v
  | constructor reference =>
    simp only [enter]
    split
    · exact comes_give owned _
    · exact comes_raise n _
  | parenthesized inner => exact comes_to owned trivial
  | arrayLiteral elements =>
    cases elements with
    | nil => exact comes_to owned trivial
    | cons first rest => exact own rfl
  | binary op left right =>
    simp only [enter]
    split <;> exact own rfl
  | assignment target value =>
    refine comes_orAbort owned fun kind => ?_
    split
    · exact own rfl
    · exact own rfl
    · exact own rfl
    · exact comes_raise n _
  | root statements => exact comes_statements owned statements
  | block statements =>
    refine comes_orFault fun scope => ?_
    exact comes_statements (owned.cons (Pending.blames_of_place rfl)) statements
  | ret value =>
    cases value with
    | none => exact comes_to owned trivial
    | some value => exact comes_await owned value (Pending.blames_of_place rfl)
  | launch call => exact comes_to owned (List.forall_mem_singleton.mpr ⟨call, rfl⟩)
  | launchDecl declaration =>
    refine comes_orAbort owned fun kind => ?_
    split
    · refine comes_orFault fun scope => comes_orFault fun f => ?_
      exact comes_to owned (List.forall_mem_singleton.mpr ⟨declaration, rfl⟩)
    · exact comes_raise n _
  | protect block => exact comes_to owned trivial
  | expression inner => exact comes_await owned inner (Pending.blames_of_place rfl)
  | arrayAccess | fieldAccess | call | not | conditional | loop | varDecl => exact own rfl
  | _ => exact comes_give owned _

theorem callBuiltin_comes (name : String) (first : Option NodeId) (values : List Value) :
    Comes p (some n) base (s.callBuiltin p n name first values) := by
  simp only [callBuiltin]
  split
  · split
    · refine comes_orAbort owned fun text => ?_
      split
      · exact comes_give owned _
      · exact comes_to owned trivial
    · exact comes_raise n _
  · split
    · split
      · exact comes_orAbort owned fun watched => comes_to owned rfl
      · exact comes_raise n _
    · exact comes_raise n _

theorem apply_comes (callee : Value) (first : Option NodeId) (values : List Value) :
    Comes p (some n) base (s.apply p n callee first values) := by
  simp only [apply]
  split
  · exact callBuiltin_comes owned _ first values
  · exact comes_to owned ⟨n, rfl, rfl⟩
  · exact comes_orAbort owned fun record => comes_to owned trivial
  · exact comes_raise n _
  · exact comes_raise n _

end

/-- A pending that gets a value acts for the node that it blames. -/
theorem resume_comes (owned : Owned who base s.stack) (v : Value) {waiting : Pending}
    (blames : waiting.Blames who) : Comes p who base (resume p s v waiting) := by
  cases place : waiting.place? with
  | none =>
    cases waiting with
    | statements rest => exact comes_statements owned rest
    | dropped | leaveBlock | leaveCall | leaveSite | unlock => exact comes_to owned trivial
    | returned => exact comes_to owned trivial
    | _ => cases place
  | some n =>
    obtain rfl := blames n place
    have own : ∀ {m : NodeId} {left : Pending}, left.place? = some n →
        Comes p (some n) base (s.await m left) := by
      intro m left place
      apply comes_await owned m
      intro l same
      exact place.symm.trans same
    cases waiting with
    | element m done rest =>
      cases place
      cases rest with
      | nil => exact comes_to owned trivial
      | cons next rest => exact own rfl
    | accessedArray m index | storeArray m target index value | storeIndex m target value a =>
      cases place
      exact comes_orFault fun a => own rfl
    | accessIndex m a =>
      cases place
      refine comes_orFault fun i => ?_
      split
      · exact comes_give owned _
      · exact comes_raise n _
    | readStem m field | negated m | truth m =>
      cases place
      exact comes_orFault fun w => comes_give owned _
    | callee m arguments =>
      cases place
      cases arguments with
      | nil => exact apply_comes owned v none []
      | cons first rest => exact own rfl
    | argument m callee first done rest =>
      cases place
      cases rest with
      | nil => exact apply_comes owned callee first _
      | cons next rest => exact own rfl
    | shortCircuit m op right =>
      cases place
      refine comes_orFault fun b => ?_
      split
      · exact comes_give owned _
      · exact own rfl
    | leftOperand m op left right | storeStem m target value field | loopBody m condition body =>
      cases place
      exact own rfl
    | rightOperand m op left right l =>
      cases place
      simp only [resume]
      split <;> exact comes_ofNest owned _
    | assignName m target name | declaration m name =>
      cases place
      exact comes_orFault fun scope => comes_orFault fun f => comes_to owned trivial
    | storeElement m target a i =>
      cases place
      simp only [resume]
      split
      · exact comes_to owned trivial
      · exact comes_raise n _
    | storeField m target stem field =>
      cases place
      simp only [resume]
      split
      · exact comes_raise n _
      · split
        · exact comes_to owned trivial
        · exact comes_raise n _
      · exact comes_raise n _
    | branch m thenBranch elseBranch =>
      cases place
      have branch : ∀ m, Comes p (some n) base (s.await m .dropped) :=
        fun m => comes_await owned m (Pending.blames_of_place rfl)
      refine comes_orFault fun b => ?_
      split
      · exact branch thenBranch
      · split
        · exact branch _
        · exact comes_give owned _
    | loopTest m condition body =>
      cases place
      refine comes_orFault fun b => ?_
      split
      · exact own rfl
      · exact comes_give owned _
    | _ => cases place

/-- A return is handed on, or given to the caller. -/
theorem unwind_comes (owned : Owned who base s.stack) (v : Value) (waiting : Pending) :
    Comes p who base (unwind s (.ret v) waiting) := by
  cases waiting <;> exact comes_to owned trivial

/-- A call that cannot be made fails with the span that it was given. -/
theorem invoke_comes {n : NodeId} (owned : Owned (some n) base s.stack) (function : NodeId)
    (arguments : List Value) :
    Comes p (some n) base (s.invoke p (some (p.span n)) function arguments) := by
  have fails : ∀ cause, Comes p (some n) base (invoke.fail s (some (p.span n)) cause) :=
    fun cause => .fails _ n rfl rfl rfl
  simp only [invoke]
  split
  · exact .crashes _ rfl
  · split
    · exact fails _
    · split
      · exact fails _
      · split
        · exact .crashes _ rfl
        · exact .on (owned.cons (Pending.blames_of_place rfl)) trivial
  · exact fails _

/-- What a thread takes that has not come back blames the node. -/
theorem owned_pop {waiting : Pending} {under : List Pending} (owned : Owned who base s.stack)
    (above : s.thread.Above base) (hands : s.control.Hands) (popped : s.stack = waiting :: under) :
    waiting.Blames who ∧ Owned who base under := by
  obtain ⟨top, stack, each⟩ := owned
  obtain ⟨top', stack', busy⟩ := above
  obtain rfl : top' = top := List.append_cancel_right (stack'.symm.trans stack)
  obtain ⟨rest, rfl, rfl⟩ := pops stack busy hands popped
  obtain ⟨first, others⟩ := List.forall_mem_cons.mp each
  exact ⟨first, rest, rfl, others⟩

/-- A step of an evaluation that has not come back, and does not fail yet. -/
theorem step_comes (p : Program) (whose : ThreadId) (owned : Owned who base s.stack)
    (acts : s.control.ActsFor p who) (above : s.thread.Above base)
    (entered : ∀ n, s.control = .eval n → who = some n) : Comes p who base (s.step p whose) := by
  have pop : ∀ waiting under, s.control.Hands → s.stack = waiting :: under →
      waiting.Blames who ∧ Owned who base under := fun waiting under => owned_pop owned above
  obtain ⟨world, env, control, stack⟩ := s
  -- an evaluation that has not come back has something for what it hands on
  have waits : control.Hands → ∃ waiting under, stack = waiting :: under := by
    intro hands
    cases stack with
    | nil =>
      obtain ⟨top, same, busy⟩ := above
      exact absurd hands (busy (List.append_eq_nil_iff.mp same.symm).1)
    | cons waiting under => exact ⟨waiting, under, rfl⟩
  cases control with
  | eval n =>
    obtain rfl := entered n rfl
    simp only [step]
    split
    · exact enter_comes owned _
    · exact .crashes _ rfl
  | give v =>
    obtain ⟨waiting, under, rfl⟩ := waits trivial
    obtain ⟨blames, rest⟩ := pop waiting under trivial rfl
    exact resume_comes (s := ⟨world, env, _, under⟩) rest v blames
  | leave e =>
    cases e with
    | ret v =>
      obtain ⟨waiting, under, rfl⟩ := waits trivial
      obtain ⟨-, rest⟩ := pop waiting under trivial rfl
      exact unwind_comes (s := ⟨world, env, _, under⟩) rest v waiting
    | _ => exact acts.elim
  | invoke span function arguments =>
    obtain ⟨n, rfl, rfl⟩ := acts
    exact invoke_comes owned function arguments
  | findSite site block =>
    simp only [step]
    split <;> exact comes_to owned trivial
  | addSite site block => exact comes_to owned trivial
  | enterSite site lock block =>
    simp only [step]
    split
    · exact .on (owned.cons (Pending.blames_of_place rfl)) trivial
    · exact .on owned trivial
  | acquire lock inside => exact acts.elim
  | submit jobs =>
    cases jobs with
    | nil => exact comes_give owned _
    | cons job jobs => exact .on owned acts
  | await n f name =>
    obtain rfl : who = some n := acts
    simp only [step]
    split
    · exact comes_give owned _
    · split
      · exact comes_raise n _
      · exact .on owned rfl
  | startLine text =>
    simp only [step]
    split
    · exact comes_to owned trivial
    · exact .on owned trivial
  | writeText text | writeBreak text | endLine text => exact comes_to owned trivial
  | spin => exact .on owned trivial

/-- What fails goes on to fail in the same way. -/
theorem step_of_fails (p : Program) (whose : ThreadId) {e : Exit} (fails : ∀ v, e ≠ .ret v)
    (at_ : s.control = .leave e) : (s.step p whose).control = .leave e := by
  obtain ⟨world, env, control, stack⟩ := s
  obtain rfl : control = .leave e := at_
  cases stack with
  | nil => rfl
  | cons waiting under =>
    cases e with
    | ret v => exact absurd rfl (fails v)
    | fault f => cases waiting <;> rfl
    | crash message => cases waiting <;> rfl

/-- A node that is evaluated is in the arena, or there is a crash. -/
theorem step_eval (p : Program) (whose : ThreadId) {n : NodeId} (at_ : s.control = .eval n) :
    p.Has n ∨ ∃ message, (s.step p whose).control = .leave (.crash message) := by
  simp only [step, at_]
  split
  · next kind found =>
    refine .inl ?_
    rw [Program.Has, Program.kind_eq_ok.mp found]
    rfl
  · exact .inr ⟨_, rfl⟩

end Turn

/-! ## 4. How evaluations nest -/

/-- Evaluations that nest in a stack: between what waited when one began and what waits now, or waited when
the next one inside began, everything is its own. -/
def Nests (base : List Pending) : List (NodeId × List Pending) → List Pending → Prop
  | [], stack => Owned none base stack
  | (n, under) :: outer, stack => Owned (some n) under stack ∧ Nests base outer under

/-- The evaluations that go on above `base` nest, and the control acts for the innermost. -/
structure Tracked (p : Program) (base : List Pending) (t : Thread) (going : List (NodeId × List Pending)) :
    Prop where
  nests : Nests base going t.stack
  above : ∀ e ∈ going, t.Above e.2
  acts : t.control.ActsFor p (going.head?.map Prod.fst)
  entered : ∀ n, t.control = .eval n → going.head? = some (n, t.stack)
  known : ∀ e ∈ going, p.Has e.1 ∨ t.control = .eval e.1

section

variable {p : Program} {base under stack : List Pending} {t : Thread} {going : List (NodeId × List Pending)}

theorem Thread.Above.of_append {top : List Pending} (above : t.Above (top ++ under)) : t.Above under := by
  obtain ⟨more, stack, busy⟩ := above
  refine ⟨more ++ top, by rw [stack, List.append_assoc], ?_⟩
  intro none
  exact busy (List.append_eq_nil_iff.mp none).1

/-- What goes on around an evaluation goes on as long as it does. -/
theorem Nests.above (nests : Nests base going under) (above : t.Above under) : ∀ e ∈ going, t.Above e.2 := by
  induction going generalizing under with
  | nil => exact List.forall_mem_nil _
  | cons e outer ih =>
    obtain ⟨⟨top, rfl, -⟩, others⟩ := nests
    have here := above.of_append
    exact List.forall_mem_cons.mpr ⟨here, ih others here⟩

/-- A thread that has nothing to hand on is in the middle of everything. -/
theorem Thread.above_stack (busy : ¬ t.control.Hands) : t.Above t.stack := ⟨[], rfl, fun _ => busy⟩

open Classical in
/-- The evaluations that have come back are the innermost ones, and those that go on nest as before. -/
theorem Nests.filter (nests : Nests base going t.stack) :
    Nests base (going.filter fun e => t.Above e.2) t.stack := by
  induction going with
  | nil => exact nests
  | cons e outer ih =>
    obtain ⟨⟨top, stack, own⟩, others⟩ := nests
    by_cases above : t.Above e.2
    · have all : ∀ e ∈ outer, decide (t.Above e.2) = true := by
        intro e member
        exact decide_eq_true (others.above above e member)
      rw [List.filter_cons, if_pos (decide_eq_true above), List.filter_eq_self.mpr all]
      exact ⟨⟨top, stack, own⟩, others⟩
    · -- what has come back has left nothing, so the next one is the innermost
      have none : top = [] := by
        by_contra some
        exact above ⟨top, stack, fun none => absurd none some⟩
      rw [List.filter_cons, if_neg (by simpa using above)]
      apply ih
      rw [stack, none]
      exact others

end

namespace Tracked

variable {p : Program} {base : List Pending} {t : Thread} {going : List (NodeId × List Pending)}

/-- What an evaluation has left belongs to the innermost node, and the evaluation has not come back. -/
theorem innermost (tracked : Tracked p base t going) (above : t.Above base) :
    ∃ under, Owned (going.head?.map Prod.fst) under t.stack ∧ t.Above under ∧
      (∀ stack, Owned (going.head?.map Prod.fst) under stack → Nests base going stack) := by
  cases going with
  | nil => exact ⟨base, tracked.nests, above, fun stack owned => owned⟩
  | cons e outer =>
    obtain ⟨owned, others⟩ := tracked.nests
    exact ⟨e.2, owned, tracked.above e List.mem_cons_self, fun stack owned => ⟨owned, others⟩⟩

/-- A thread whose evaluations nest goes on so after a step that does not fail. -/
theorem goingOn {t' : Thread} (nests : Nests base going t'.stack)
    (acts : t'.control.ActsFor p (going.head?.map Prod.fst)) (known : ∀ e ∈ going, p.Has e.1) :
    Tracked p base t' (t'.goingOn going) := by
  classical
  have busy : ¬ t'.control.Hands → (going.filter fun e => t'.Above e.2) = going := by
    intro busy
    rw [List.filter_eq_self]
    intro e member
    exact decide_eq_true (nests.above (Thread.above_stack busy) e member)
  simp only [Thread.goingOn]
  split
  · next n at_ =>
    -- a node that is to be evaluated begins the innermost evaluation
    have evaluates : ¬ t'.control.Hands := by rw [at_]; exact id
    rw [busy evaluates]
    refine ⟨⟨.refl _ _, nests⟩, ?_, ?_, ?_, ?_⟩
    · exact List.forall_mem_cons.mpr
        ⟨Thread.above_stack evaluates, nests.above (Thread.above_stack evaluates)⟩
    · rw [at_]
      trivial
    · intro m same
      cases at_.symm.trans same
      rfl
    · exact List.forall_mem_cons.mpr ⟨.inr at_, fun e member => .inl (known e member)⟩
  · next other =>
    refine ⟨nests.filter, ?_, ?_, fun n at_ => absurd at_ (other n), ?_⟩
    · intro e member
      exact of_decide_eq_true (List.mem_filter.mp member).2
    · by_cases hands : t'.control.Hands
      · -- what is handed on blames nobody
        revert acts hands
        generalize t'.control = control
        intro acts hands
        cases control with
        | give v => trivial
        | leave e =>
          cases e with
          | ret v => trivial
          | _ => exact acts.elim
        | _ => exact hands.elim
      · rw [busy hands]
        exact acts
    · intro e member
      exact .inl (known e (List.mem_filter.mp member).1)

/-- A step raises a fault in the name of the innermost of the evaluations that go on, or crashes, or the
evaluations go on. -/
theorem step (tracked : Tracked p base t going) (above : t.Above base) (w : World) (whose : ThreadId) :
    let t' := ((t.inside w).step p whose).thread
    (∃ message, t'.control = .leave (.crash message)) ∨
      (∃ f n under outer, t'.control = .leave (.fault f) ∧ going = (n, under) :: outer ∧ p.Has n ∧
        f.span = some (p.span n)) ∨
      Tracked p base t' (t'.goingOn going) := by
  intro t'
  obtain ⟨under, owned, above', renests⟩ := tracked.innermost above
  have entered : ∀ n, t.control = .eval n → going.head?.map Prod.fst = some n := by
    intro n at_
    rw [tracked.entered n at_]
    rfl
  have comes := Turn.step_comes (s := t.inside w) p whose owned tracked.acts above' entered
  by_cases crashes : ∃ message, t'.control = .leave (.crash message)
  · exact .inl crashes
  have known : ∀ e ∈ going, p.Has e.1 := by
    intro e member
    rcases tracked.known e member with known | at_
    · exact known
    · exact (Turn.step_eval (s := t.inside w) p whose at_).resolve_right crashes
  cases comes with
  | on owned acts => exact .inr (.inr (goingOn (renests _ owned) acts known))
  | fails f n at_ blamed span =>
    cases going with
    | nil => cases blamed
    | cons e outer =>
      cases blamed
      exact .inr (.inl ⟨f, e.1, e.2, outer, at_, rfl, known e List.mem_cons_self, span⟩)
  | crashes message at_ => exact absurd ⟨message, at_⟩ crashes

end Tracked

/-! ## 5. Threads with a past -/

/-- How far a thread with some past has come with what it evaluates above `base`: evaluations go on and nest,
or one of them has failed, or there was a crash. -/
inductive Traced (p : Program) (base : List Pending) (past : List Thread) (t : Thread) : Prop
  | goes (tracked : Tracked p base t (evaluations (t :: past)))
  | failed (f : Fault) (at_ : t.control = .leave (.fault f)) (raised : Raised p f past)
  | crashed (message : String) (at_ : t.control = .leave (.crash message))

namespace Traced

variable {p : Program} {base : List Pending} {past : List Thread} {t : Thread}

/-- The evaluation of a node begins. -/
theorem node (env : Env) (n : NodeId) : Traced p base [] ⟨env, .eval n, base⟩ := by
  refine .goes ⟨⟨.refl _ _, .refl _ _⟩, ?_, trivial, ?_, ?_⟩
  · intro e member
    obtain rfl := List.mem_singleton.mp member
    exact Thread.above_stack id
  · intro m same
    cases same
    rfl
  · intro e member
    obtain rfl := List.mem_singleton.mp member
    exact .inr rfl

/-- The statements of a root begin. They are evaluated on behalf of no node. -/
theorem root (env : Env) (statements : List NodeId) :
    Traced p base [] ⟨env, .give .void, .statements statements :: base⟩ := by
  refine .goes ⟨(Owned.refl _ _).cons (Pending.blames_of_place rfl), ?_, trivial, nofun, ?_⟩
  · exact List.forall_mem_nil _
  · exact List.forall_mem_nil _

/-- What has failed goes on to fail. -/
theorem fails {e : Exit} (traced : Traced p base past t) (at_ : t.control = .leave e)
    (fails : ∀ v, e ≠ .ret v) (w : World) (whose : ThreadId) :
    Traced p base (t :: past) ((t.inside w).step p whose).thread := by
  have after : ((t.inside w).step p whose).thread.control = .leave e :=
    Turn.step_of_fails (s := t.inside w) p whose fails at_
  cases traced with
  | goes tracked =>
    have acts := tracked.acts
    rw [at_] at acts
    cases e with
    | ret v => exact absurd rfl (fails v)
    | _ => exact acts.elim
  | failed f same raised =>
    cases same.symm.trans at_
    refine .failed f after ?_
    obtain ⟨later, raise, earlier, rfl, fresh, n, under, outer, innermost, known, span, handed⟩ := raised
    exact .mk (t :: later) raise earlier rfl fresh n under outer innermost known span
      (List.forall_mem_cons.mpr ⟨at_, handed⟩)
  | crashed message same =>
    cases same.symm.trans at_
    exact .crashed message after

theorem turn (traced : Traced p base past t) (above : t.Above base) (w : World) (whose : ThreadId) :
    Traced p base (t :: past) ((t.inside w).step p whose).thread := by
  cases id traced with
  | goes tracked =>
    have fresh : ∀ g, t.control ≠ .leave (.fault g) := by
      intro g at_
      have acts := tracked.acts
      rw [at_] at acts
      exact acts
    obtain ⟨message, at_⟩ | ⟨f, n, under, outer, at_, innermost, known, span⟩ | after :=
      tracked.step above w whose
    · exact .crashed message at_
    · exact .failed f at_ (.mk [] t past rfl fresh n under outer innermost known span (List.forall_mem_nil _))
    · exact .goes after
  | failed f at_ => exact traced.fails at_ nofun w whose
  | crashed message at_ => exact traced.fails at_ nofun w whose

/-- A whole thread has come back when it is over, and then it stays as it is. -/
theorem next (traced : Traced p [] past t) (w : World) (whose : ThreadId) :
    Traced p [] (t :: past) ((t.inside w).step p whose).thread := by
  cases ended : t.outcome? with
  | none => exact traced.turn (Thread.above_nil_iff.mpr ended) w whose
  | some outcome =>
    cases id traced with
    | goes tracked =>
      have idle : ∀ n, t.control ≠ .eval n := by
        intro n at_
        obtain ⟨-, ⟨v, gives, -⟩ | ⟨e, leaves, -⟩⟩ := Thread.outcome?_eq_some ended
        · cases gives.symm.trans at_
        · cases leaves.symm.trans at_
      rw [Turn.step_of_outcome p w whose ended]
      refine .goes (Tracked.goingOn tracked.nests tracked.acts ?_)
      intro e member
      exact (tracked.known e member).resolve_right (idle e.1)
    | failed f at_ => exact traced.fails at_ nofun w whose
    | crashed message at_ => exact traced.fails at_ nofun w whose

/-- A launch evaluates nothing in the thread that launches, and what it launches is a node. -/
theorem launch {job : Control} {rest : Thread} (traced : Traced p base past t)
    (launches : t.launch? = some (job, rest)) :
    Traced p base (t :: past) rest ∧ ∃ n, job = .eval n := by
  obtain ⟨jobs, submits, rfl⟩ := Machine.launch?_eq_some launches
  cases traced with
  | goes tracked =>
    have acts := tracked.acts
    rw [submits] at acts
    obtain ⟨first, others⟩ := List.forall_mem_cons.mp acts
    refine ⟨.goes (Tracked.goingOn tracked.nests others ?_), first⟩
    intro e member
    refine (tracked.known e member).resolve_right ?_
    rw [submits]
    exact nofun
  | failed f at_ => cases submits.symm.trans at_
  | crashed message at_ => cases submits.symm.trans at_

/-- A thread that fails has raised the fault. -/
theorem raised (traced : Traced p base past t) {f : Fault} (fails : t.control = .leave (.fault f)) :
    Raised p f past := by
  cases traced with
  | goes tracked =>
    have acts := tracked.acts
    rw [fails] at acts
    exact acts.elim
  | failed g at_ raised =>
    cases at_.symm.trans fails
    exact raised
  | crashed message at_ => cases at_.symm.trans fails

end Traced

/-! ## 6. Machines and runs -/

/-- A fault has the span of a node that the arena has. -/
def Fault.Placed (p : Program) (f : Fault) : Prop := ∃ n, p.Has n ∧ f.span = some (p.span n)

theorem Raised.placed {p : Program} {f : Fault} {past : List Thread} (raised : Raised p f past) :
    f.Placed p := by
  obtain ⟨-, -, -, -, -, n, -, -, -, known, span, -⟩ := raised
  exact ⟨n, known, span⟩

/-- A thread that evaluates nothing but nodes has some past in which it did. -/
def Thread.Sourced (p : Program) (t : Thread) : Prop := ∃ past, Traced p [] past t

namespace Thread

variable {p : Program} {t : Thread}

theorem Sourced.turn (sourced : t.Sourced p) (w : World) (who : ThreadId) :
    ((t.inside w).step p who).thread.Sourced p := by
  obtain ⟨past, traced⟩ := sourced
  exact ⟨_, traced.next w who⟩

theorem Sourced.launch {job : Control} {rest : Thread} (sourced : t.Sourced p)
    (launches : t.launch? = some (job, rest)) : rest.Sourced p ∧ (Thread.start rest.env job).Sourced p := by
  obtain ⟨past, traced⟩ := sourced
  obtain ⟨after, n, rfl⟩ := traced.launch launches
  exact ⟨⟨_, after⟩, [], .node rest.env n⟩

theorem Sourced.placed (sourced : t.Sourced p) {f : Fault} (ends : t.outcome? = some (.exit (.fault f))) :
    f.Placed p := by
  obtain ⟨past, traced⟩ := sourced
  obtain ⟨-, ⟨v, -, other⟩ | ⟨e, at_, same⟩⟩ := outcome?_eq_some ends
  · cases other
  · cases same
    exact (traced.raised at_).placed

end Thread

namespace Run

variable {p : Program} {c : RunConfig} {r r' : Run}

/-- Every thread evaluates nothing but nodes, and so did those that were seen, and so will every task. -/
structure Sourced (p : Program) (r : Run) : Prop where
  each : r.machine.Each (Thread.Sourced p)
  seen : ∀ seen ∈ r.history, seen.thread.Sourced p

theorem Sourced.next (sourced : r.Sourced p) (next : Next p c r r') : r'.Sourced p := by
  obtain ⟨each, before⟩ := sourced
  cases next with
  | same | look | giveUp => exact ⟨each, before⟩
  | close | report => exact ⟨⟨each.threads, each.jobs⟩, before⟩
  | step sighting m' next here =>
    refine ⟨?_, ?_⟩
    · apply each.next next
      · intro who t _ sourced
        exact sourced.turn r.machine.world who
      · intro t rest job sourced
        exact sourced.launch
    · intro seen member
      rcases List.mem_append.mp member with now | earlier
      · obtain rfl := Option.mem_toList.mp now
        exact each.threads seen.who seen.thread next.seen
      · exact before seen earlier

theorem sourced_initial (p : Program) (c : RunConfig) : (initial p c).Sourced p := by
  obtain ⟨frames, -, begun⟩ := machine_initial p c
  refine ⟨?_, List.forall_mem_nil _⟩
  rw [begun]
  refine ⟨?_, nofun⟩
  intro who t found
  cases who with
  | task id => cases found
  | main =>
    cases found
    exact ⟨[], .root _ _⟩

theorem sourced_play (p : Program) (c : RunConfig) (moves : List Move) :
    ((initial p c).play p c moves).Sourced p :=
  holds_play _ (sourced_initial p c) (fun _ _ _ sourced next => sourced.next next) moves

/-- A failure is accounted for: the task ended with a fault that has the span of a node, or with a crash. -/
inductive Attributed (p : Program) (endings : List (TaskId × Outcome)) : TaskFailure → Prop
  | fault (id : TaskId) (f : Fault) (ended : (id, .exit (.fault f)) ∈ endings) (placed : f.Placed p) :
    Attributed p endings ⟨id, f⟩
  | crash (id : TaskId) (message : String) (ended : (id, .exit (.crash message)) ∈ endings) :
    Attributed p endings ⟨id, .ofCause (.taskPanicked message)⟩

theorem Sourced.attributed (sourced : r.Sourced p) (accounts : Accounts c r) {failure : TaskFailure}
    (filed : failure ∈ r.phase.taken ++ r.machine.world.ledger.failures.toList) :
    Attributed p r.endings failure := by
  obtain ⟨id, f⟩ := failure
  obtain ⟨outcome, ended, failed⟩ := accounts.filed filed
  rcases outcome with v | v | g | message
  · cases failed
  · cases failed
  · cases failed
    refine .fault id f ended ?_
    obtain ⟨⟨who, t⟩, member, isOver⟩ := List.mem_filterMap.mp ended
    cases who with
    | main => cases isOver
    | task id' =>
      obtain ⟨outcome, ends, same⟩ := Option.map_eq_some_iff.mp isOver
      cases same
      exact (sourced.seen _ member).placed ends
  · cases failed
    exact .crash id message ended

/-- What a run keeps of its main program, given the past of that. -/
theorem traced_play (traced : Traced p [] (past .main r.history) r.machine.main) (moves : List Move) :
    Traced p [] (past .main (r.play p c moves).history) (r.play p c moves).machine.main := by
  induction moves generalizing r with
  | nil => exact traced
  | cons first moves ih =>
    apply ih
    cases first with
    | start i => exact traced
    | task i =>
      have others : ∀ t, r.mover? (.task i) ≠ some ⟨.main, t⟩ := by
        intro t moved
        obtain ⟨t', -, same⟩ := Option.map_eq_some_iff.mp moved
        cases same
      rw [history_move, past_append, past_others others]
      simp only [move, main_stepTask, List.nil_append]
      exact traced
    | main =>
      by_cases here : r.phase = .evaluating
      · have moved : r.mover? .main = some ⟨.main, r.machine.main⟩ := if_pos here
        rw [history_move, past_append, past_mover moved]
        simp only [move, if_pos here]
        obtain ⟨⟨world, main, tasks⟩, phase, history⟩ := r
        simp only [Machine.stepMain]
        split
        · next launches => exact (traced.launch launches).1
        · exact traced.next world .main
      · simp only [move, if_neg here]
        exact traced
    | look | giveUp | close | report =>
      simp only [move]
      split <;> exact traced

end Run

/-! ## 7. A root, as a node and by itself -/

/-- As a node, a root begins with the first of its statements at once, as its statements do by themselves. -/
theorem Turn.step_root {p : Program} {root : NodeId} {statements : List NodeId}
    (found : p.kind root = .ok (.root statements)) (w : World) (env : Env) (who : ThreadId)
    (under : List Pending) :
    Turn.step p who ⟨w, env, .eval root, under⟩ =
      Turn.step p who ⟨w, env, .give .void, .statements statements :: under⟩ := by
  simp only [Turn.step, found]
  rfl

/-- What a step of a task does depends on no main program. -/
theorem Machine.stepTask_beside (p : Program) (world : World) (tasks : Array Task) (i : Nat) :
    ∃ world' tasks', ∀ main, stepTask p ⟨world, main, tasks⟩ i = ⟨world', main, tasks'⟩ := by
  simp only [stepTask, submit]
  split
  · exact ⟨_, _, fun main => rfl⟩
  · next id state found =>
    cases state with
    | running t =>
      simp only
      split
      · exact ⟨_, _, fun main => rfl⟩
      · split
        · exact ⟨_, _, fun main => rfl⟩
        · exact ⟨_, _, fun main => rfl⟩
    | submitted | ended | failing | ending => exact ⟨_, _, fun main => rfl⟩

namespace Pool

/-- A turn of the main program depends on where its first step leads, and not on where it comes from. -/
theorem turnOfMain_congr {p : Program} (pool : Pool) {main main' : Thread}
    (moves : (main.inside pool.machine.world).ready .main = true)
    (moves' : (main'.inside pool.machine.world).ready .main = true)
    (same : (main.inside pool.machine.world).step p .main = (main'.inside pool.machine.world).step p .main) :
    turnOfMain p { pool with machine.main := main } = turnOfMain p { pool with machine.main := main' } := by
  have run : ∀ steps, (main.inside pool.machine.world).run p .main (steps + 1) =
      (main'.inside pool.machine.world).run p .main (steps + 1) := by
    intro steps
    simp only [Turn.run, moves, moves', same, if_true]
  have stretch : ∀ steps, Machine.runMain p (steps + 1) { pool.machine with main } =
      Machine.runMain p (steps + 1) { pool.machine with main := main' } := by
    intro steps
    simp only [Machine.runMain, run]
  have turn : ∀ stretches steps, mainTurn p (stretches + 1) (steps + 1) { pool.machine with main } =
      mainTurn p (stretches + 1) (steps + 1) { pool.machine with main := main' } := by
    intro stretches steps
    simp only [mainTurn, stretch]
  simp only [turnOfMain]
  rw [show mainTurn p turnLength turnLength { pool.machine with main } = _ from turn 255 255]
  rfl

theorem runUntil_congr {p : Program} {pool pool' : Pool} (goal : Pool → Bool) (workers rounds : Nat)
    (unreached : goal pool = false) (unreached' : goal pool' = false)
    (turn : turnOfMain p pool = turnOfMain p pool') :
    pool.runUntil p workers goal (rounds + 1) = pool'.runUntil p workers goal (rounds + 1) := by
  have same : pool.round p workers = pool'.round p workers := by simp only [round, turn]
  simp only [runUntil, unreached, unreached', same, Bool.false_eq_true, if_false]

end Pool

/-- The outcome of a root, given that of its evaluation as a node: a return ends it with its value, and without
one it gives nothing. -/
def Outcome.ofRoot : Outcome → Outcome
  | .value _ => .value .void
  | .exit (.ret v) => .value v
  | outcome => outcome

namespace Session

variable {s : Session}

/-- The run in which a session evaluates a node. -/
def evaluation (s : Session) (node : NodeId) : Run := ⟨(s.setMain (.eval node) []).pool.machine, .evaluating, []⟩

/-- The statements of a root are evaluated as the root is, as a node. -/
theorem evalRoot_eq {root : NodeId} {statements : List NodeId}
    (found : s.program.kind root = .ok (.root statements)) :
    s.evalRoot root = ((s.eval root).1.map Outcome.ofRoot, (s.eval root).2) := by
  have same : s.perform (.give .void) [.statements statements] = s.eval root := by
    obtain ⟨program, config, pool⟩ := s
    have turn := pool.turnOfMain_congr
      (rfl : (Thread.inside ⟨pool.machine.main.env, .give .void, [.statements statements]⟩
        pool.machine.world).ready .main = true)
      (rfl : (Thread.inside ⟨pool.machine.main.env, .eval root, []⟩ pool.machine.world).ready .main = true)
      (Turn.step_root found pool.machine.world pool.machine.main.env .main []).symm
    have run := Pool.runUntil_congr mainIsOver config.workers 999999999 rfl rfl turn
    simp only [perform, eval, runUntil, setMain, env]
    rw [show patience = 999999999 + 1 from rfl, run]
  simp only [evalRoot, found]
  rw [same]
  rfl

/-- What a session evaluates is a run, and if that ends in a fault, the main program has raised it there. -/
theorem eval_raised {node : NodeId} {f : Fault} (ends : (s.eval node).1 = some (.exit (.fault f))) :
    ∃ moves, let r := (s.evaluation node).play s.program s.config moves
      r.machine = (s.eval node).2.pool.machine ∧ Raised s.program f (Run.past .main r.history) := by
  have reaches : Run.Reaches s.program s.config (s.evaluation node) (s.eval node).2.pool.machine :=
    s.perform_keeps (Run.kept_reaches _ _ _) (.eval node) [] ⟨[], rfl, rfl⟩
  obtain ⟨moves, machine, -⟩ := reaches
  refine ⟨moves, machine, ?_⟩
  have traced := Run.traced_play (p := s.program) (c := s.config) (r := s.evaluation node)
    (.node s.env node) moves
  rw [machine] at traced
  obtain ⟨-, ⟨v, -, other⟩ | ⟨e, at_, same⟩⟩ := Thread.outcome?_eq_some ends
  · cases other
  · cases same
    exact traced.raised at_

theorem eval_placed {node : NodeId} {f : Fault} (ends : (s.eval node).1 = some (.exit (.fault f))) :
    f.Placed s.program := by
  obtain ⟨moves, -, raised⟩ := eval_raised ends
  exact raised.placed

end Session

namespace Run

variable {p : Program} {c : RunConfig}

/-- A run of a whole program whose root is one reports only faults that have the span of a node, but for the
crashes of its tasks. -/
theorem run_placed {statements : List NodeId} (root : p.kind p.root = .ok (.root statements))
    (c : RunConfig) : ∀ f, (Session.run p c).1 = .fault f → f.Placed p := by
  obtain ⟨program, -⟩ := program_bindConstants (Session.start p c)
  intro f ended
  simp only [Session.run] at ended
  generalize (Session.start p c).bindConstants = s at program ended
  subst program
  rw [Session.evalRoot_eq root] at ended
  have placed : ∀ f, (s.eval s.program.root).1 = some (.exit (.fault f)) → f.Placed s.program :=
    fun f => Session.eval_placed
  generalize s.eval s.program.root = result at placed ended
  obtain ⟨outcome, s'⟩ := result
  -- the ending is a fault where the outcome is one
  rcases outcome with _ | v | v | g | message
  · cases ended
  · simp only [Option.map_some, Outcome.ofRoot, Session.conclude] at ended
    split at ended <;> cases ended
  · simp only [Option.map_some, Outcome.ofRoot, Session.conclude] at ended
    split at ended <;> cases ended
  · simp only [Option.map_some, Outcome.ofRoot, Session.conclude] at ended
    split at ended
    · cases ended
    · cases ended
      exact placed f rfl
  · cases ended

/-- The failures that a run reports are those of tasks that were seen to end. -/
theorem report_attributed {report : Report} (reported : (Session.run p c).1 = .report report) :
    ∃ moves, ∀ failure ∈ report.failures,
      Attributed p ((initial p c).play p c moves).endings failure := by
  obtain ⟨moves, -, phase⟩ := run_is_played (Prod.ext reported rfl : Session.run p c = (.report report, _))
  refine ⟨moves, ?_⟩
  intro failure member
  apply (sourced_play p c moves).attributed (accounts_play p c moves)
  rw [phase]
  exact List.mem_append_left _ member

/-- A root is evaluated, in one run as a node and in the other as the statements that it has, and has made no
step yet; or the runs have come together. -/
inductive Joins (root : NodeId) (statements : List NodeId) (r r' : Run) : Prop
  | before (world : World) (tasks : Array Task) (env : Env) (under : List Pending)
    (node : r.machine = ⟨world, ⟨env, .eval root, under⟩, tasks⟩)
    (inside : r'.machine = ⟨world, ⟨env, .give .void, .statements statements :: under⟩, tasks⟩)
    (phase : r.phase = r'.phase)
  | after (same : r.machine = r'.machine) (phase : r.phase = r'.phase)

/-- Runs between which there is nothing to tell, but where a main program stands that is not over. -/
structure Agrees (r r' : Run) : Prop where
  phase : r.phase = r'.phase
  world : r.machine.world = r'.machine.world
  tasks : r.machine.tasks = r'.machine.tasks
  outcome : r.machine.main.outcome? = r'.machine.main.outcome?

theorem Joins.agrees {root : NodeId} {statements : List NodeId} {r r' : Run}
    (joins : Joins root statements r r') : Agrees r r' := by
  cases joins with
  | before world tasks env under node inside phase =>
    refine ⟨phase, ?_, ?_, ?_⟩
    · rw [node, inside]
    · rw [node, inside]
    · rw [node, inside]
      rfl
  | after same phase => exact ⟨phase, by rw [same], by rw [same], by rw [same]⟩

theorem Joins.move {root : NodeId} {statements : List NodeId}
    (found : p.kind root = .ok (.root statements)) {r r' : Run} (joins : Joins root statements r r')
    (first : Move) : Joins root statements (r.move p c first) (r'.move p c first) := by
  obtain ⟨machine, phase, history⟩ := r
  obtain ⟨machine', phase', history'⟩ := r'
  cases joins with
  | after same phase =>
    cases same
    cases phase
    cases first with
    | start i | task i => exact .after rfl rfl
    | main | look | giveUp | close | report =>
      simp only [Run.move]
      split <;> exact .after rfl rfl
  | before world tasks env under node inside same =>
    cases node
    cases inside
    cases same
    -- no move but one of the main program depends on where that stands
    cases first with
    | main =>
      simp only [Run.move]
      split
      · refine .after ?_ rfl
        have step := Turn.step_root found world env .main under
        simp only [Machine.stepMain, Thread.launch?, Thread.inside, step]
      · exact .before world tasks env under rfl rfl rfl
    | start i => exact .before world _ env under rfl rfl rfl
    | task i =>
      obtain ⟨world', tasks', stepped⟩ := Machine.stepTask_beside p world tasks i
      exact .before world' tasks' env under (stepped _) (stepped _) rfl
    | look | giveUp =>
      simp only [Run.move]
      rw [if_neg (fun h => Bool.false_ne_true h.2.1), if_neg (fun h => Bool.false_ne_true h.2.1)]
      exact .before world tasks env under rfl rfl rfl
    | close =>
      simp only [Run.move]
      split
      · exact .before _ tasks env under rfl rfl rfl
      · exact .before world tasks env under rfl rfl rfl
    | report =>
      simp only [Run.move]
      split
      · exact .before _ tasks env under rfl rfl rfl
      · exact .before world tasks env under rfl rfl rfl

theorem Joins.play {root : NodeId} {statements : List NodeId}
    (found : p.kind root = .ok (.root statements)) {r r' : Run} (joins : Joins root statements r r')
    (moves : List Move) : Joins root statements (r.play p c moves) (r'.play p c moves) := by
  induction moves generalizing r r' with
  | nil => exact joins
  | cons first moves ih => exact ih (joins.move found first)

/-- A fault names the node that has raised it, whatever is around that. An evaluation that fails has been
failing, with that very fault, since the innermost of the evaluations in it raised it; so has the main program
of a run, and what a session evaluates. A failure is that of a task that ended with such a fault, or with a
crash. A root does by itself what it does as a node, among whatever other threads, and a return ends it with
its value. -/
theorem faults_name_their_origin (p : Program) (c : RunConfig) :
    (∀ (r : Run) (moves : List Move) (who : ThreadId) (base : List Pending) (env : Env) (n : NodeId),
      r.machine.Numbered → r.machine.thread? who = some ⟨env, .eval n, base⟩ →
      Evaluating p c who base r moves →
      ∀ t f, (r.play p c moves).machine.thread? who = some t → t.control = .leave (.fault f) →
        ∃ during, (r.play p c moves).history = during ++ r.history ∧ Raised p f (past who during)) ∧
    (∀ moves, let r := (initial p c).play p c moves
      (∀ f, r.machine.main.outcome? = some (.exit (.fault f)) → Raised p f (past .main r.history)) ∧
      ∀ failure ∈ r.phase.taken ++ r.machine.world.ledger.failures.toList,
        Attributed p r.endings failure) ∧
    (∀ s : Session, s.program = p → ∀ node f, (s.eval node).1 = some (.exit (.fault f)) →
      ∃ moves, let r := (s.evaluation node).play p s.config moves
        r.machine = (s.eval node).2.pool.machine ∧ Raised p f (past .main r.history)) ∧
    (∀ root statements, p.kind root = .ok (.root statements) →
      (∀ s : Session, s.program = p →
        s.evalRoot root = ((s.eval root).1.map Outcome.ofRoot, (s.eval root).2)) ∧
      ∀ world env under tasks phase history moves,
        Agrees
          (play p c ⟨⟨world, ⟨env, .eval root, under⟩, tasks⟩, phase, history⟩ moves)
          (play p c ⟨⟨world, ⟨env, .give .void, .statements statements :: under⟩, tasks⟩, phase, history⟩
            moves)) ∧
    (∀ statements, p.kind p.root = .ok (.root statements) →
      ∀ f, (Session.run p c).1 = .fault f → f.Placed p) ∧
    ∀ report, (Session.run p c).1 = .report report →
      ∃ moves, ∀ failure ∈ report.failures, Attributed p ((initial p c).play p c moves).endings failure := by
  refine ⟨?_, ?_, ?_, ?_, ?_, ?_⟩
  · intro r moves who base env n numbered here goesOn t f found fails
    have begins : ∀ t, r.machine.thread? who = some t → Traced p base [] t := by
      intro t₀ there
      obtain rfl := Option.some.inj (here.symm.trans there)
      exact .node env n
    have turn : ∀ (w : World) past t, t.Above base → Traced p base past t →
        Traced p base (t :: past) ((t.inside w).step p who).thread :=
      fun w past t above traced => traced.turn above w who
    obtain ⟨during, history, traced⟩ := past_play turn
      (fun past t job rest traced launches => (traced.launch launches).1) numbered goesOn begins t found
    rw [List.append_nil] at traced
    exact ⟨during, history, traced.raised fails⟩
  · intro moves r
    refine ⟨?_, ?_⟩
    · intro f ends
      have traced : Traced p [] (past .main r.history) r.machine.main := traced_play (.root _ _) moves
      obtain ⟨-, ⟨v, -, other⟩ | ⟨e, at_, same⟩⟩ := Thread.outcome?_eq_some ends
      · cases other
      · cases same
        exact traced.raised at_
    · intro failure filed
      exact (sourced_play p c moves).attributed (accounts_play p c moves) filed
  · intro s same node f ends
    subst same
    exact Session.eval_raised ends
  · intro root statements found
    refine ⟨?_, ?_⟩
    · intro s same
      subst same
      exact Session.evalRoot_eq found
    · intro world env under tasks phase history moves
      have joins : Joins root statements ⟨⟨world, ⟨env, .eval root, under⟩, tasks⟩, phase, history⟩
          ⟨⟨world, ⟨env, .give .void, .statements statements :: under⟩, tasks⟩, phase, history⟩ :=
        .before world tasks env under rfl rfl rfl
      exact (joins.play found moves).agrees
  · intro statements found
    exact run_placed found c
  · intro report
    exact report_attributed

/-! ### A fault in an operand in a call -/

def failing : Script :=
  [.function "half" [("n", .plain .int)] (.plain .int)
      [.block [.protect [.ret (some (.binary .div (.reference "n") (.int 0)))]]],
    .block [.expression (.binary .add (.int 1) (.call "half" [.int 1]))]]

/-- The program, with the numbers of its nodes for their spans. -/
def failingProgram : Program :=
  let p := failing.program.toOption.getD default
  { p with arena.nodes := p.arena.nodes.mapIdx fun i node => { node with span := ⟨i, i + 1⟩ } }

/-- The main program is about to evaluate the root. -/
def failingRun : Run :=
  let m := (initial failingProgram default).machine
  ⟨m.setThread .main ⟨m.main.env, .eval failingProgram.root, []⟩, .evaluating, []⟩

/-- The span with which a fault leaves. -/
def failedSpan? : Control → Option Span
  | .leave (.fault f) => f.span
  | _ => none

theorem failedSpan?_eq_some {control : Control} {span : Span} (failed : failedSpan? control = some span) :
    ∃ f, control = .leave (.fault f) ∧ f.span = some span := by
  unfold failedSpan? at failed
  split at failed
  · exact ⟨_, rfl, failed⟩
  · cases failed

/-- The division is named, and not what is around it. -/
theorem failing_names_division :
    let r := failingRun.play failingProgram default (List.replicate 41 .main)
    ∃ f, r.machine.main.control = .leave (.fault f) ∧ f.span = some ⟨4, 5⟩ ∧
      ∃ during, r.history = during ++ failingRun.history ∧ Raised failingProgram f (past .main during) := by
  intro r
  have named : failedSpan? r.machine.main.control = some ⟨4, 5⟩ := by decide +kernel
  have goesOn : Evaluating failingProgram default .main [] failingRun (List.replicate 41 .main) := by
    apply evaluating_nil
    decide +kernel
  have numbered : failingRun.machine.Numbered :=
    (numbered_initial failingProgram default).setThread .main _
  have here : failingRun.machine.thread? .main =
      some ⟨(initial failingProgram default).machine.main.env, .eval failingProgram.root, []⟩ := rfl
  have origin := (faults_name_their_origin failingProgram default).1 failingRun
    (List.replicate 41 .main) .main [] _ _ numbered here goesOn r.machine.main
  have played : r = failingRun.play failingProgram default (List.replicate 41 .main) := rfl
  rw [← played] at origin
  clear_value r
  obtain ⟨f, fails, span⟩ := failedSpan?_eq_some named
  exact ⟨f, fails, span, origin f rfl fails⟩

end Run

end Strand
