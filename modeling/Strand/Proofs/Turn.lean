import Strand.Proofs.Growth
import Strand.Thread.Step

/-!
# What a step leaves alone

Almost every step of a thread evaluates: it moves on in the program, and of what is shared it touches
the frames and the heap only. `Turn.Quiet` says so. It is proved once for each function of the
evaluator, and what remains of a step are the few that are about locks or about the output.

A thread is inside of the protected blocks whose locks it has still to give back. They are the
*marks* of its stack, and a quiet step keeps them.
-/

set_option autoImplicit false

namespace Strand

/-! ## 1. Marks -/

/-- The lock that is given back here, with the site that it belongs to. -/
def Pending.mark? : Pending → Option (Option NodeId × LockId)
  | .leaveSite site lock => some (some site, lock)
  | .unlock lock => some (none, lock)
  | _ => none

theorem Pending.mark?_eq_some {waiting : Pending} {mark : Option NodeId × LockId}
    (marked : waiting.mark? = some mark) :
    (∃ site lock, waiting = .leaveSite site lock ∧ mark = (some site, lock)) ∨
      ∃ lock, waiting = .unlock lock ∧ mark = (none, lock) := by
  cases waiting with
  | leaveSite site lock => exact .inl ⟨site, lock, rfl, (Option.some.inj marked).symm⟩
  | unlock lock => exact .inr ⟨lock, rfl, (Option.some.inj marked).symm⟩
  | _ => cases marked

/-- The locks that a stack gives back, the next one first. -/
def marks (stack : List Pending) : List (Option NodeId × LockId) := stack.filterMap Pending.mark?

@[simp] theorem marks_nil : marks [] = [] := rfl

@[simp] theorem marks_cons (waiting : Pending) (stack : List Pending) :
    marks (waiting :: stack) = waiting.mark?.toList ++ marks stack := by
  simp only [marks, List.filterMap_cons]
  cases waiting.mark? <;> rfl

/-- A control that neither looks for a lock nor takes one, and launches nothing but nodes. -/
def Control.IsQuiet : Control → Prop
  | .findSite .. | .addSite .. | .enterSite .. | .acquire .. => False
  | .submit jobs => ∀ job ∈ jobs, ∃ node, job = .eval node
  | _ => True

theorem Thread.outcome?_eq_some {t : Thread} {outcome : Outcome}
    (finished : t.outcome? = some outcome) :
    t.stack = [] ∧ ((∃ v, t.control = .give v ∧ outcome = .value v) ∨
      ∃ e, t.control = .leave e ∧ outcome = .exit e) := by
  obtain ⟨env, control, stack⟩ := t
  simp only [outcome?] at finished
  split at finished
  · next v => exact ⟨rfl, .inl ⟨v, rfl, (Option.some.inj finished).symm⟩⟩
  · next e => exact ⟨rfl, .inr ⟨e, rfl, (Option.some.inj finished).symm⟩⟩
  · cases finished

namespace Turn

/-! ## 2. Quiet steps -/

/-- From `s` to `s'` nothing shared has changed but frames and heap, and no lock is wanted. -/
structure Quiet (s s' : Turn) : Prop where
  locks : s'.world.locks = s.world.locks
  output : s'.world.output = s.world.output
  ledger : s'.world.ledger = s.world.ledger
  frames : s.world.frames.Grows s'.world.frames
  root : s'.env.root = s.env.root
  marks : marks s'.stack = Strand.marks s.stack
  control : s'.control.IsQuiet

variable {p : Program} {s s' : Turn}

theorem Quiet.ofGive (v : Value) : Quiet s (s.give v) := ⟨rfl, rfl, rfl, .refl _, rfl, rfl, trivial⟩

theorem Quiet.ofLeave (e : Exit) : Quiet s (s.leave e) := ⟨rfl, rfl, rfl, .refl _, rfl, rfl, trivial⟩

theorem Quiet.ofAwait (node : NodeId) {waiting : Pending} (unmarked : waiting.mark? = none) :
    Quiet s (s.await node waiting) :=
  ⟨rfl, rfl, rfl, .refl _, rfl, by simp [await, unmarked], trivial⟩

theorem Quiet.ofRaise (node : NodeId) (cause : Cause) : Quiet s (s.raise p node cause) :=
  .ofLeave _

theorem Quiet.ofAbort (node : NodeId) (a : Abort) : Quiet s (s.abort p node a) := by
  cases a with
  | fault cause => exact .ofRaise node cause
  | outOfRange read => exact .ofLeave _
  | diverges => exact ⟨rfl, rfl, rfl, .refl _, rfl, rfl, trivial⟩

theorem Quiet.ofOrAbort {α : Type} {node : NodeId} {result : Except Abort α} {next : α → Turn}
    (goesOn : ∀ a, result = .ok a → Quiet s (next a)) : Quiet s (s.orAbort p node result next) := by
  cases result with
  | ok a => exact goesOn a rfl
  | error e => exact .ofAbort node e

theorem Quiet.ofOrFault {α : Type} {node : NodeId} {result : Except Cause α} {next : α → Turn}
    (goesOn : ∀ a, result = .ok a → Quiet s (next a)) : Quiet s (s.orFault p node result next) := by
  cases result with
  | ok a => exact goesOn a rfl
  | error cause => exact .ofRaise node cause

theorem Quiet.ofNest (node : NodeId) (result : Except Abort Nest) :
    Quiet s (s.ofNest p node result) := by
  cases result with
  | error e => exact .ofAbort node e
  | ok nest =>
    cases nest with
    | leaf v => exact .ofGive v
    | row elements => exact ⟨rfl, rfl, rfl, .refl _, rfl, rfl, trivial⟩

theorem Quiet.ofStatements (statements : List NodeId) : Quiet s (s.runStatements statements) := by
  cases statements with
  | nil => exact .ofGive _
  | cons statement rest => exact .ofAwait statement rfl

/-! ## 3. The functions of the evaluator -/

theorem quiet_enter (id : NodeId) {kind : NodeKind} (open_ : ∀ block, kind ≠ .protect block) :
    Quiet s (enter p s id kind) := by
  cases kind with
  | intLiteral | floatLiteral | stringLiteral => exact .ofGive _
  | reference name => exact .ofOrAbort fun v _ => .ofGive v
  | constructor reference =>
    simp only [enter]
    split
    · exact .ofGive _
    · exact .ofRaise ..
  | parenthesized inner => exact ⟨rfl, rfl, rfl, .refl _, rfl, rfl, trivial⟩
  | arrayLiteral elements =>
    cases elements with
    | nil => exact ⟨rfl, rfl, rfl, .refl _, rfl, rfl, trivial⟩
    | cons first rest => exact .ofAwait first rfl
  | arrayAccess array index => exact .ofAwait array rfl
  | fieldAccess stem field => exact .ofAwait stem rfl
  | call callee arguments => exact .ofAwait callee rfl
  | not operand => exact .ofAwait operand rfl
  | binary op left right =>
    simp only [enter]
    split <;> exact .ofAwait left rfl
  | assignment target value =>
    refine .ofOrAbort fun kind _ => ?_
    cases kind with
    | reference name => exact .ofAwait value rfl
    | arrayAccess array index => exact .ofAwait array rfl
    | fieldAccess stem field => exact .ofAwait stem rfl
    | _ => exact .ofRaise ..
  | root statements => exact .ofStatements statements
  | block statements =>
    refine .ofOrFault fun scope _ => ?_
    cases statements <;> exact ⟨rfl, rfl, rfl, Frames.grows_push _ _ _ _, rfl, rfl, trivial⟩
  | expression inner => exact .ofAwait inner rfl
  | conditional condition thenBranch elseBranch => exact .ofAwait condition rfl
  | loop condition body => exact .ofAwait condition rfl
  | ret value =>
    cases value with
    | none => exact .ofLeave _
    | some value => exact .ofAwait value rfl
  | launch call => exact ⟨rfl, rfl, rfl, .refl _, rfl, rfl, fun job h => ⟨call, List.mem_singleton.mp h⟩⟩
  | launchDecl declaration =>
    refine .ofOrAbort fun kind _ => ?_
    cases kind with
    | varDecl name initializer =>
      refine .ofOrFault fun scope _ => .ofOrFault fun f _ => ?_
      exact ⟨rfl, rfl, rfl, Frames.grows_define _ _ _ _, rfl, rfl,
        fun job h => ⟨declaration, List.mem_singleton.mp h⟩⟩
    | _ => exact .ofRaise ..
  | protect block => exact absurd rfl (open_ block)
  | varDecl name initializer => exact .ofAwait initializer rfl
  | funDecl | parameter | structDecl | fieldDecl => exact .ofGive _

theorem quiet_callBuiltin (id : NodeId) (name : String) (first : Option NodeId)
    (values : List Value) : Quiet s (callBuiltin p s id name first values) := by
  simp only [callBuiltin]
  split
  · split
    · refine .ofOrAbort fun text _ => ?_
      split
      · exact .ofGive _
      · exact ⟨rfl, rfl, rfl, .refl _, rfl, rfl, trivial⟩
    · exact .ofRaise ..
  · split
    · split
      · exact .ofOrAbort fun _ _ => ⟨rfl, rfl, rfl, .refl _, rfl, rfl, trivial⟩
      · exact .ofRaise ..
    · exact .ofRaise ..

theorem quiet_apply (id : NodeId) (callee : Value) (first : Option NodeId) (values : List Value) :
    Quiet s (apply p s id callee first values) := by
  simp only [apply]
  split
  · exact quiet_callBuiltin ..
  · exact ⟨rfl, rfl, rfl, .refl _, rfl, rfl, trivial⟩
  · exact .ofOrAbort fun record _ => ⟨rfl, rfl, rfl, .refl _, rfl, rfl, trivial⟩
  · exact .ofRaise ..
  · exact .ofRaise ..

theorem quiet_invoke (span : Option Span) (function : NodeId) (arguments : List Value) :
    Quiet s (invoke p s span function arguments) := by
  simp only [invoke]
  split
  · exact .ofLeave _
  · split
    · exact .ofLeave _
    · split
      · exact .ofLeave _
      · split
        · exact .ofLeave _
        · exact ⟨rfl, rfl, rfl, Frames.grows_push _ _ _ _, rfl, rfl, trivial⟩
  · exact .ofLeave _

theorem quiet_resume (v : Value) {waiting : Pending} (unmarked : waiting.mark? = none) :
    Quiet s (resume p s v waiting) := by
  cases waiting with
  | element id done rest =>
    cases rest with
    | nil => exact ⟨rfl, rfl, rfl, .refl _, rfl, rfl, trivial⟩
    | cons next rest => exact .ofAwait next rfl
  | accessedArray id index => exact .ofOrFault fun a _ => .ofAwait index rfl
  | accessIndex id a =>
    refine .ofOrFault fun i _ => ?_
    split
    · exact .ofGive _
    · exact .ofRaise ..
  | readStem id field => exact .ofOrFault fun v _ => .ofGive v
  | callee id arguments =>
    cases arguments with
    | nil => exact quiet_apply ..
    | cons first rest => exact .ofAwait first rfl
  | argument id callee first done rest =>
    cases rest with
    | nil => exact quiet_apply ..
    | cons next rest => exact .ofAwait next rfl
  | negated id => exact .ofOrFault fun b _ => .ofGive _
  | shortCircuit id op right =>
    refine .ofOrFault fun b _ => ?_
    split
    · exact .ofGive _
    · exact .ofAwait right rfl
  | truth id => exact .ofOrFault fun b _ => .ofGive _
  | leftOperand id op left right => exact .ofAwait right rfl
  | rightOperand id op left right l =>
    simp only [resume]
    split <;> exact .ofNest ..
  | assignName id target name =>
    exact .ofOrFault fun scope _ => .ofOrFault fun f _ =>
      ⟨rfl, rfl, rfl, Frames.grows_define _ _ _ _, rfl, rfl, trivial⟩
  | storeArray id target index value => exact .ofOrFault fun a _ => .ofAwait index rfl
  | storeIndex id target value a => exact .ofOrFault fun i _ => .ofAwait value rfl
  | storeElement id target a i =>
    simp only [resume]
    split
    · exact ⟨rfl, rfl, rfl, .refl _, rfl, rfl, trivial⟩
    · exact .ofRaise ..
  | storeStem id target value field => exact .ofAwait value rfl
  | storeField id target stem field =>
    simp only [resume]
    split
    · exact .ofRaise ..
    · split
      · exact ⟨rfl, rfl, rfl, .refl _, rfl, rfl, trivial⟩
      · exact .ofRaise ..
    · exact .ofRaise ..
  | statements rest => exact .ofStatements rest
  | dropped => exact .ofGive _
  | branch id thenBranch elseBranch =>
    refine .ofOrFault fun b _ => ?_
    split
    · exact .ofAwait thenBranch rfl
    · cases elseBranch with
      | none => exact .ofGive _
      | some elseBranch => exact .ofAwait elseBranch rfl
  | loopTest id condition body =>
    refine .ofOrFault fun b _ => ?_
    split
    · exact .ofAwait body rfl
    · exact .ofGive _
  | loopBody id condition body => exact .ofAwait condition rfl
  | returned => exact .ofLeave _
  | declaration id name =>
    exact .ofOrFault fun scope _ => .ofOrFault fun f _ =>
      ⟨rfl, rfl, rfl, Frames.grows_define _ _ _ _, rfl, rfl, trivial⟩
  | leaveBlock saved => exact ⟨rfl, rfl, rfl, .refl _, rfl, rfl, trivial⟩
  | leaveCall saved => exact ⟨rfl, rfl, rfl, .refl _, rfl, rfl, trivial⟩
  | leaveSite site lock => cases unmarked
  | unlock lock => cases unmarked

theorem quiet_unwind (e : Exit) {waiting : Pending} (unmarked : waiting.mark? = none) :
    Quiet s (unwind s e waiting) := by
  cases waiting with
  | leaveBlock saved => exact ⟨rfl, rfl, rfl, .refl _, rfl, rfl, trivial⟩
  | leaveCall saved => cases e <;> exact ⟨rfl, rfl, rfl, .refl _, rfl, rfl, trivial⟩
  | leaveSite site lock => cases unmarked
  | unlock lock => cases unmarked
  | _ => exact .ofLeave e

/-! ## 4. Whole steps -/

/-- A thread that is over stays as it is. -/
theorem step_of_outcome (p : Program) (w : World) (who : ThreadId) {t : Thread} {outcome : Outcome}
    (finished : t.outcome? = some outcome) : (t.inside w).step p who = t.inside w := by
  obtain ⟨env, control, stack⟩ := t
  obtain ⟨rfl, ⟨v, rfl, -⟩ | ⟨e, rfl, -⟩⟩ := Thread.outcome?_eq_some finished <;> rfl

/-- Everything that a step can do. Most steps are quiet; the others are about the output, or enter and
leave what a lock protects. -/
inductive Moves (p : Program) (who : ThreadId) (s : Turn) : Turn → Prop
  | still : Moves p who s s
  | quiet {s' : Turn} (quiet : Quiet s s') : Moves p who s s'
  | print (output : Output) (control : Control) (quiet : control.IsQuiet) :
      Moves p who s { s with world.output := output, control }
  | visit (site block : NodeId) (at_ : s.control = .eval site)
      (found : p.kind site = .ok (.protect block)) :
      Moves p who s { s with control := .findSite site block }
  | hit (site block : NodeId) (lock : LockId) (at_ : s.control = .findSite site block)
      (found : s.world.locks.find? site = some lock) :
      Moves p who s { s with control := .enterSite site lock block }
  | miss (site block : NodeId) (at_ : s.control = .findSite site block) :
      Moves p who s { s with control := .addSite site block }
  | add (site block : NodeId) (at_ : s.control = .addSite site block) :
      Moves p who s
        { s with
          world.locks := (s.world.locks.addIfMissing site).2
          control := .enterSite site (s.world.locks.addIfMissing site).1 block }
  | enter (site block : NodeId) (lock : LockId) (at_ : s.control = .enterSite site lock block)
      (available : s.world.locks.available lock who) :
      Moves p who s
        { s with
          world.locks := s.world.locks.acquire lock who
          control := .eval block
          stack := .leaveSite site lock :: s.stack }
  | take (lock : LockId) (inside : Control) (at_ : s.control = .acquire lock inside) :
      Moves p who s
        { s with
          world.locks := s.world.locks.acquire lock who
          control := inside
          stack := .unlock lock :: s.stack }
  | leave (waiting : Pending) (stack : List Pending) (mark : Option NodeId × LockId)
      (control : Control) (at_ : s.stack = waiting :: stack) (marked : waiting.mark? = some mark)
      (quiet : control.IsQuiet) :
      Moves p who s { s with world.locks := s.world.locks.release mark.2, control, stack }

/-- A quiet step that has taken a pending from the stack is quiet as a whole. -/
theorem Quiet.pop {world : World} {env : Env} {control : Control} {waiting : Pending}
    {stack : List Pending} (unmarked : waiting.mark? = none)
    (quiet : Quiet ⟨world, env, control, stack⟩ s') :
    Quiet ⟨world, env, control, waiting :: stack⟩ s' := by
  obtain ⟨locks, output, ledger, frames, root, marks, now⟩ := quiet
  refine ⟨locks, output, ledger, frames, root, ?_, now⟩
  rw [marks_cons, unmarked]
  exact marks

theorem step_moves (p : Program) (who : ThreadId) (s : Turn) : Moves p who s (s.step p who) := by
  obtain ⟨world, env, control, stack⟩ := s
  cases control with
  | eval id =>
    simp only [step]
    split
    · next kind found =>
      by_cases site : ∃ block, kind = .protect block
      · obtain ⟨block, rfl⟩ := site
        exact .visit id block rfl found
      · exact .quiet (quiet_enter id fun block same => site ⟨block, same⟩)
    · exact .quiet (.ofLeave _)
  | give v =>
    cases stack with
    | nil => exact .still
    | cons waiting stack =>
      cases marked : waiting.mark? with
      | none => exact .quiet ((quiet_resume v marked).pop marked)
      | some mark =>
        obtain ⟨site, lock, rfl, rfl⟩ | ⟨lock, rfl, rfl⟩ := Pending.mark?_eq_some marked
        · exact .leave _ _ _ _ rfl marked trivial
        · exact .leave _ _ _ _ rfl marked trivial
  | leave e =>
    cases stack with
    | nil => exact .still
    | cons waiting stack =>
      cases marked : waiting.mark? with
      | none => exact .quiet ((quiet_unwind e marked).pop marked)
      | some mark =>
        obtain ⟨site, lock, rfl, rfl⟩ | ⟨lock, rfl, rfl⟩ := Pending.mark?_eq_some marked
        · exact .leave _ _ _ _ rfl marked trivial
        · exact .leave _ _ _ _ rfl marked trivial
  | invoke span function arguments => exact .quiet (quiet_invoke ..)
  | findSite site block =>
    simp only [step]
    split
    · next lock found => exact .hit site block lock rfl found
    · exact .miss site block rfl
  | addSite site block => exact .add site block rfl
  | enterSite site lock block =>
    simp only [step]
    split
    · next available => exact .enter site block lock rfl available
    · exact .still
  | acquire lock inside =>
    simp only [step]
    split
    · exact .take lock inside rfl
    · exact .still
  | submit jobs =>
    cases jobs with
    | nil => exact .quiet (.ofGive _)
    | cons job jobs => exact .still
  | await id f name =>
    simp only [step]
    split
    · exact .quiet (.ofGive _)
    · split
      · exact .quiet (.ofRaise ..)
      · exact .still
  | startLine text =>
    simp only [step]
    split
    · exact .print _ _ trivial
    · exact .still
  | writeText | writeBreak | endLine => exact .print _ _ trivial
  | spin => exact .still

/-- No step of a thread touches the ledger, no thread leaves its root frame, and frames only grow. -/
theorem Moves.keeps {who : ThreadId} (moves : Moves p who s s') :
    s'.world.ledger = s.world.ledger ∧ s'.env.root = s.env.root ∧
      s.world.frames.Grows s'.world.frames := by
  cases moves with
  | quiet quiet => exact ⟨quiet.ledger, quiet.root, quiet.frames⟩
  | _ => exact ⟨rfl, rfl, .refl _⟩

end Turn

end Strand
