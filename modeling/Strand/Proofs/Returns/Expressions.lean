import Strand.Proofs.Return

/-!
# No return leaves an expression

A return travels on the same way as a fault. A `return` statement sets it off, whatever waits hands it
on, and the frame of a call takes it. An expression can therefore only let a return out if a statement
stands in the place of one of its operands.

Here the place of every operand is taken by an expression. A thread that evaluates an expression above
`under` has nothing above it but what waits for operands, or the frame of a call with whatever the call
has left above that (`Thread.Evaluates`). A step keeps this, as long as the evaluation goes on, and when
the evaluation comes back it does not come back with a return.

A call from outside has no operands, so nothing is said of its program.
-/

set_option autoImplicit false

namespace Strand

/-! ## 1. Expressions and what waits for them -/

/-- A node is an expression. -/
def Program.IsExpression (p : Program) (n : NodeId) : Prop :=
  (p.arena.kind? n).any NodeKind.isExpression = true

instance (p : Program) (n : NodeId) : Decidable (p.IsExpression n) :=
  inferInstanceAs (Decidable ((p.arena.kind? n).any NodeKind.isExpression = true))

/-- Whatever is called, and every operand of a node, is an expression. -/
def Program.Expressive (p : Program) : Prop :=
  ∀ node ∈ p.arena.nodes.toList, ∀ n ∈ node.kind.callee?.toList ++ node.kind.operands, p.IsExpression n

instance (p : Program) : Decidable p.Expressive :=
  inferInstanceAs (Decidable (∀ node ∈ p.arena.nodes.toList,
    ∀ n ∈ node.kind.callee?.toList ++ node.kind.operands, p.IsExpression n))

/-- Expressions, with all that they are made of. -/
structure Program.Sealed (p : Program) (among : NodeId → Prop) : Prop where
  expression : ∀ n, among n → ∀ kind, p.arena.kind? n = some kind → kind.isExpression = true
  parts : ∀ n, among n → ∀ kind, p.arena.kind? n = some kind →
    ∀ m ∈ kind.callee?.toList ++ kind.operands, among m

theorem Program.sealed_none (p : Program) : p.Sealed fun _ => False := ⟨nofun, nofun⟩

theorem Program.Expressive.operand {p : Program} (expressive : p.Expressive) {n m : NodeId}
    {kind : NodeKind} (found : p.arena.kind? n = some kind)
    (part : m ∈ kind.callee?.toList ++ kind.operands) : p.IsExpression m := by
  obtain ⟨node, at_, rfl⟩ := Option.map_eq_some_iff.mp found
  obtain ⟨inside, rfl⟩ := Array.getElem?_eq_some_iff.mp at_
  exact expressive _ (Array.getElem_mem_toList inside) m part

theorem Program.Expressive.sealed {p : Program} (expressive : p.Expressive) :
    p.Sealed p.IsExpression := by
  refine ⟨?_, ?_⟩
  · intro n expression kind found
    rw [Program.IsExpression, found] at expression
    exact expression
  · intro n _ kind found m part
    exact expressive.operand found part

/-- Whether a pending waits for an operand of an expression. -/
def Pending.isOperand : Pending → Bool
  | element .. | accessedArray .. | accessIndex .. | readStem .. | callee .. | argument .. | negated _
  | shortCircuit .. | truth _ | leftOperand .. | rightOperand .. | assignName .. | storeArray ..
  | storeIndex .. | storeElement .. | storeStem .. | storeField .. => true
  | _ => false

/-- An exit that is no return. -/
def Exit.Fails : Exit → Prop
  | ret _ => False
  | _ => True

/-- A control that evaluates no node, takes no lock, launches nothing and lets no return out. -/
def Control.IsCalm : Control → Prop
  | give _ | invoke .. | await .. | startLine _ | writeText _ | writeBreak _ | endLine _ | spin => True
  | leave e => e.Fails
  | _ => False

/-- What an expression among the given nodes has left waiting. -/
structure Pending.Waits (among : NodeId → Prop) (waiting : Pending) : Prop where
  operand : waiting.isOperand = true
  nodes : ∀ n ∈ waiting.nodes, among n

/-- A control at which the evaluation of an expression among the given nodes may be. -/
def Control.Within (among : NodeId → Prop) : Control → Prop
  | eval n => among n
  | control => control.IsCalm

theorem Control.IsCalm.within {control : Control} (calm : control.IsCalm) (among : NodeId → Prop) :
    control.Within among := by
  cases control <;> first | exact calm | exact calm.elim

/-- A thread evaluates an expression among the given nodes above `under`: it waits for operands and for
nothing else, or there is a call above them. -/
inductive Thread.Evaluates (among : NodeId → Prop) (under : List Pending) (t : Thread) : Prop
  | here (top : List Pending) (stack : t.stack = top ++ under) (within : t.control.Within among)
      (waits : ∀ waiting ∈ top, waiting.Waits among)
  | called (inside : List Pending) (saved : FrameId) (top : List Pending)
      (stack : t.stack = inside ++ .leaveCall saved :: (top ++ under))
      (waits : ∀ waiting ∈ top, waiting.Waits among)

/-- An expression that is done has a value or has failed. -/
theorem Thread.Evaluates.no_return {among : NodeId → Prop} {under : List Pending} {t : Thread}
    (evaluates : t.Evaluates among under) (back : t.stack = under) (v : Value) :
    t.control ≠ .leave (.ret v) := by
  cases evaluates with
  | here top stack within waits =>
    intro leaves
    rw [leaves] at within
    exact within
  | called inside saved top stack waits =>
    have length := congrArg List.length (back.symm.trans stack)
    simp only [List.length_append, List.length_cons] at length
    omega

/-- An expression that does not go on has something for what waits below it. -/
theorem Thread.Evaluates.back {among : NodeId → Prop} {under : List Pending} {t : Thread}
    (evaluates : t.Evaluates among under) (done : ¬ t.Above under) :
    t.stack = under ∧ t.control.Hands ∧ t.control.IsCalm := by
  cases evaluates with
  | called inside saved top stack waits =>
    refine absurd ⟨inside ++ .leaveCall saved :: top, ?_, ?_⟩ done
    · rw [stack, List.append_assoc, List.cons_append]
    · intro nothing
      cases List.append_eq_nil_iff.mp nothing |>.2
  | here top stack within waits =>
    obtain ⟨rfl, hands⟩ : top = [] ∧ t.control.Hands := by
      by_contra going
      exact done ⟨top, stack, fun nothing hands => going ⟨nothing, hands⟩⟩
    refine ⟨stack, hands, ?_⟩
    cases control : t.control <;> rw [control] at within hands <;> first | exact within | exact hands.elim

namespace Turn

variable {p : Program} {s : Turn} {holds : Turn → Prop}

/-! ## 2. Ways to go on calmly -/

/-- A property has a turn that goes on with a calm control, whatever is put on the heap. -/
def Calmly (holds : Turn → Prop) (s : Turn) : Prop :=
  ∀ heap control, control.IsCalm → holds { s with world.heap := heap, control }

namespace Calmly

variable (h : Calmly holds s)

include h

theorem goTo (control : Control) (calm : control.IsCalm) : holds { s with control } :=
  h s.world.heap control calm

theorem give (v : Value) : holds (s.give v) := h.goTo (.give v) trivial

theorem raise (n : NodeId) (cause : Cause) : holds (s.raise p n cause) :=
  h.goTo (.leave (.fault _)) trivial

theorem abort (n : NodeId) (a : Abort) : holds (s.abort p n a) := by
  cases a with
  | fault cause => exact h.raise n cause
  | outOfRange read => exact h.goTo (.leave (.crash _)) trivial
  | diverges => exact h.goTo .spin trivial

theorem orAbort {α : Type} {n : NodeId} {result : Except Abort α} {next : α → Turn}
    (goesOn : ∀ a, holds (next a)) : holds (s.orAbort p n result next) := by
  cases result with
  | ok a => exact goesOn a
  | error e => exact h.abort n e

theorem orFault {α : Type} {n : NodeId} {result : Except Cause α} {next : α → Turn}
    (goesOn : ∀ a, holds (next a)) : holds (s.orFault p n result next) := by
  cases result with
  | ok a => exact goesOn a
  | error cause => exact h.raise n cause

theorem ofNest (n : NodeId) (result : Except Abort Nest) : holds (s.ofNest p n result) := by
  cases result with
  | error e => exact h.abort n e
  | ok nest =>
    cases nest with
    | leaf v => exact h.give v
    | row elements => exact h _ (.give _) trivial

theorem makeArray (values : List Value) : holds (s.makeArray values) := h _ (.give _) trivial

theorem callBuiltin (n : NodeId) (name : String) (first : Option NodeId) (values : List Value) :
    holds (s.callBuiltin p n name first values) := by
  simp only [Turn.callBuiltin]
  split
  · split
    · refine h.orAbort fun text => ?_
      split
      · exact h.give _
      · exact h.goTo (.startLine text) trivial
    · exact h.raise n _
  · split
    · split
      · exact h.orAbort fun watched => h.goTo (.await ..) trivial
      · exact h.raise n _
    · exact h.raise n _

theorem apply (n : NodeId) (callee : Value) (first : Option NodeId) (values : List Value) :
    holds (s.apply p n callee first values) := by
  simp only [Turn.apply]
  split
  · exact h.callBuiltin n _ first values
  · exact h.goTo (.invoke ..) trivial
  · exact h.orAbort fun record => h _ (.give _) trivial
  · exact h.raise n _
  · exact h.raise n _

end Calmly

/-! ## 3. Steps of expressions -/

section Expressions

variable {among : NodeId → Prop} {under top : List Pending}

/-- The evaluation of an expression may go on from here, with a calm control or with one of its parts. -/
theorem calmly_evaluates (stack : s.stack = top ++ under) (waits : ∀ waiting ∈ top, waiting.Waits among) :
    Calmly (fun s' => s'.thread.Evaluates among under) s := by
  intro heap control calm
  exact .here top stack (calm.within among) waits

theorem await_evaluates (stack : s.stack = top ++ under) (waits : ∀ waiting ∈ top, waiting.Waits among)
    {n : NodeId} {left : Pending} (operand : left.isOperand = true)
    (parts : ∀ m ∈ n :: left.nodes, among m) : (s.await n left).thread.Evaluates among under := by
  obtain ⟨first, rest⟩ := List.forall_mem_cons.mp parts
  have all : ∀ waiting ∈ left :: top, waiting.Waits among :=
    List.forall_mem_cons.mpr ⟨⟨operand, rest⟩, waits⟩
  exact .here (left :: top) (congrArg (left :: ·) stack) first all

theorem enter_evaluates (closed : p.Sealed among) (stack : s.stack = top ++ under)
    (waits : ∀ waiting ∈ top, waiting.Waits among) {n : NodeId} (member : among n) {kind : NodeKind}
    (found : p.arena.kind? n = some kind) : (enter p s n kind).thread.Evaluates among under := by
  have h : Calmly (fun s' => s'.thread.Evaluates among under) s := calmly_evaluates stack waits
  have part := closed.parts n member kind found
  have expression := closed.expression n member kind found
  have goOn : ∀ {m : NodeId} {left : Pending}, left.isOperand = true →
      m :: left.nodes ⊆ kind.callee?.toList ++ kind.operands →
      (s.await m left).thread.Evaluates among under := by
    intro m left operand parts
    exact await_evaluates stack waits operand fun l inside => part l (parts inside)
  cases kind with
  | intLiteral | floatLiteral | stringLiteral => exact h.give _
  | reference name => exact h.orAbort fun v => h.give v
  | constructor reference =>
    simp only [enter]
    split
    · exact h.give _
    · exact h.raise n _
  | parenthesized inner =>
    have inner_ : among inner := part inner (by simp [NodeKind.operands])
    exact .here top stack inner_ waits
  | arrayLiteral elements =>
    cases elements with
    | nil => exact h.makeArray []
    | cons first rest => exact goOn rfl (List.Subset.refl _)
  | arrayAccess | fieldAccess | call | not => exact goOn rfl (List.Subset.refl _)
  | binary op left right =>
    simp only [enter]
    split <;> exact goOn rfl (List.Subset.refl _)
  | assignment target value =>
    have target_ : among target := part target (by simp [NodeKind.operands])
    have value_ : among value := part value (by simp [NodeKind.operands])
    simp only [enter]
    cases read : p.kind target with
    | error e => exact h.abort (p := p) n (.outOfRange e)
    | ok kind =>
      -- the parts of the target are evaluated, and not the target itself
      have inner := closed.parts target target_ kind (Program.kind_eq_ok.mp read)
      cases kind with
      | reference name => exact await_evaluates stack waits rfl (by simpa [Pending.nodes] using value_)
      | arrayAccess array index =>
        refine await_evaluates stack waits rfl ?_
        simpa [NodeKind.callee?, NodeKind.operands, Pending.nodes, value_] using inner
      | fieldAccess stem field =>
        refine await_evaluates stack waits rfl ?_
        simpa [NodeKind.callee?, NodeKind.operands, Pending.nodes, value_] using inner
      | _ => exact h.raise n _
  | _ => cases expression

theorem resume_evaluates (stack : s.stack = top ++ under) (waits : ∀ waiting ∈ top, waiting.Waits among)
    {v : Value} {waiting : Pending} (first : waiting.Waits among) :
    (resume p s v waiting).thread.Evaluates among under := by
  have h : Calmly (fun s' => s'.thread.Evaluates among under) s := calmly_evaluates stack waits
  obtain ⟨operand, member⟩ := first
  have goOn : ∀ {m : NodeId} {left : Pending}, left.isOperand = true → m :: left.nodes ⊆ waiting.nodes →
      (s.await m left).thread.Evaluates among under := by
    intro m left operand parts
    exact await_evaluates stack waits operand fun l inside => member l (parts inside)
  cases waiting with
  | element n done rest =>
    cases rest with
    | nil => exact h.makeArray _
    | cons next rest => exact goOn rfl (List.Subset.refl _)
  | accessedArray n index => exact h.orFault fun a => goOn rfl (List.Subset.refl _)
  | accessIndex n a =>
    refine h.orFault fun i => ?_
    split
    · exact h.give _
    · exact h.raise n _
  | readStem n field => exact h.orFault fun w => h.give w
  | callee n arguments =>
    cases arguments with
    | nil => exact h.apply n v none []
    | cons first rest => exact goOn rfl (by simp [Pending.nodes])
  | argument n callee first done rest =>
    cases rest with
    | nil => exact h.apply n callee first _
    | cons next rest =>
      refine goOn rfl fun l inside => ?_
      simp only [Pending.nodes, List.mem_cons, List.mem_append] at inside ⊢
      tauto
  | negated n | truth n => exact h.orFault fun b => h.give _
  | shortCircuit n op right =>
    refine h.orFault fun b => ?_
    split
    · exact h.give _
    · exact goOn rfl (List.Subset.refl _)
  | leftOperand n op left right => exact goOn rfl (List.Subset.refl _)
  | rightOperand n op left right l =>
    simp only [resume]
    split <;> exact h.ofNest n _
  | assignName n target name =>
    exact h.orFault fun scope => h.orFault fun f => .here top stack trivial waits
  | storeArray n target index value => exact h.orFault fun a => goOn rfl (List.Subset.refl _)
  | storeIndex n target value a => exact h.orFault fun i => goOn rfl (List.Subset.refl _)
  | storeElement n target a i =>
    simp only [resume]
    split
    · exact h _ (.give _) trivial
    · exact h.raise n _
  | storeStem n target value field => exact goOn rfl (List.Subset.refl _)
  | storeField n target stem field =>
    simp only [resume]
    split
    · exact h.raise n _
    · split
      · exact h _ (.give _) trivial
      · exact h.raise n _
    · exact h.raise n _
  | _ => cases operand

/-- An operand that fails makes the expression fail. -/
theorem unwind_evaluates (stack : s.stack = top ++ under) (waits : ∀ waiting ∈ top, waiting.Waits among)
    {e : Exit} (fails : e.Fails) {waiting : Pending} (first : waiting.Waits among) :
    (unwind s e waiting).thread.Evaluates among under := by
  have operand := first.operand
  have onward : (s.leave e).thread.Evaluates among under :=
    (calmly_evaluates stack waits).goTo (.leave e) fails
  cases waiting with
  | leaveBlock | leaveCall | leaveSite | unlock => cases operand
  | _ => exact onward

/-- A call enters a frame of its own, or fails. -/
theorem invoke_evaluates (stack : s.stack = top ++ under) (waits : ∀ waiting ∈ top, waiting.Waits among)
    (span : Option Span) (function : NodeId) (arguments : List Value) :
    (invoke p s span function arguments).thread.Evaluates among under := by
  have h : Calmly (fun s' => s'.thread.Evaluates among under) s := calmly_evaluates stack waits
  have fault : ∀ f, (s.leave (.fault f)).thread.Evaluates among under :=
    fun f => h.goTo (.leave (.fault f)) trivial
  have crash : ∀ message, (s.leave (.crash message)).thread.Evaluates among under :=
    fun message => h.goTo (.leave (.crash message)) trivial
  simp only [invoke]
  split
  · exact crash _
  · split
    · exact fault _
    · split
      · exact fault _
      · split
        · exact crash _
        · exact .called [] s.env.current top (congrArg (Pending.leaveCall s.env.current :: ·) stack) waits
  · exact fault _

/-- What has come back to a call goes on as its value, or fails. -/
theorem returns_evaluates {world : World} {env : Env} {control : Control} {saved : FrameId}
    (waits : ∀ waiting ∈ top, waiting.Waits among) (hands : control.Hands) (who : ThreadId) :
    (step p who ⟨world, env, control, .leaveCall saved :: (top ++ under)⟩).thread.Evaluates among under := by
  have calmly : ∀ control, control.IsCalm →
      Thread.Evaluates among under ⟨env.restore saved, control, top ++ under⟩ :=
    fun control calm => .here top rfl (calm.within among) waits
  cases control with
  | give v => exact calmly (.give .void) trivial
  | leave e =>
    cases e with
    | ret v => exact calmly (.give v) trivial
    | fault f => exact calmly (.leave (.fault f)) trivial
    | crash message => exact calmly (.leave (.crash message)) trivial
  | _ => exact hands.elim

/-- A step goes on with the evaluation of an expression. -/
theorem step_evaluates (closed : p.Sealed among) (who : ThreadId) (above : s.thread.Above under)
    (evaluates : s.thread.Evaluates among under) : (s.step p who).thread.Evaluates among under := by
  obtain ⟨world, env, control, stack⟩ := s
  obtain ⟨above, same, busy⟩ := above
  cases evaluates with
  | called inside saved top stack_ waits =>
    obtain rfl : stack = _ := stack_
    by_cases back : inside = [] ∧ control.Hands
    · obtain ⟨rfl, hands⟩ := back
      exact returns_evaluates waits hands who
    · -- the call goes on above its frame, and the step leaves what is below as it is
      have goesOn : inside = [] → ¬ control.Hands := fun nothing hands => back ⟨nothing, hands⟩
      obtain ⟨after, kept, -⟩ := (step_course p who ⟨world, env, control, _⟩).home rfl goesOn
      exact .called after saved top kept waits
  | here top stack_ within waits =>
    obtain rfl : stack = _ := stack_
    obtain rfl : top = above := List.append_cancel_right same
    have h : Calmly (fun s' => s'.thread.Evaluates among under) ⟨world, env, control, top ++ under⟩ :=
      calmly_evaluates rfl waits
    cases control with
    | eval n =>
      simp only [step]
      split
      · next kind found =>
        exact enter_evaluates closed rfl waits within (Program.kind_eq_ok.mp found)
      · exact h.goTo (.leave (.crash _)) trivial
    | give v =>
      cases top with
      | nil => exact absurd trivial (busy rfl)
      | cons waiting top =>
        obtain ⟨first, rest⟩ := List.forall_mem_cons.mp waits
        exact resume_evaluates rfl rest first
    | leave e =>
      cases top with
      | nil => exact absurd trivial (busy rfl)
      | cons waiting top =>
        obtain ⟨first, rest⟩ := List.forall_mem_cons.mp waits
        exact unwind_evaluates rfl rest within first
    | invoke span function arguments => exact invoke_evaluates rfl waits span function arguments
    | await n f name =>
      simp only [step]
      split
      · exact h.give .void
      · split
        · exact h.raise n _
        · exact .here top rfl trivial waits
    | startLine text =>
      simp only [step]
      split <;> exact .here top rfl trivial waits
    | writeText text | writeBreak text | endLine text | spin => exact .here top rfl trivial waits
    | _ => exact within.elim

end Expressions

end Turn

/-! ## 4. Runs -/

/-- A thread that launches a task while it evaluates an expression is inside of a call. -/
theorem Thread.Evaluates.launch {among : NodeId → Prop} {under : List Pending} {t rest : Thread}
    {job : Control} (evaluates : t.Evaluates among under) (launches : t.launch? = some (job, rest)) :
    rest.Evaluates among under := by
  obtain ⟨jobs, submits, rfl⟩ := Machine.launch?_eq_some launches
  cases evaluates with
  | here top stack within waits =>
    rw [submits] at within
    exact within.elim
  | called inside saved top stack waits => exact .called inside saved top stack waits

namespace Machine

variable {p : Program} {m m' : Machine} {seen : Option Sighting}

/-- What a step of the machine does to a thread: another one moves, it takes a step, or it launches. -/
theorem Next.own (next : Next p m seen m') {who : ThreadId} {t t' : Thread}
    (here : m.thread? who = some t) (after : m'.thread? who = some t') :
    (∀ t₁, seen ≠ some ⟨who, t₁⟩) ∧ t' = t ∨
      seen = some ⟨who, t⟩ ∧ (t' = ((t.inside m.world).step p who).thread ∨
        ∃ job, t.launch? = some (job, t')) := by
  -- a change of the thread with number `other`
  have put : ∀ {other : ThreadId} {t? : Option Thread},
      Function.update m.thread? other t? who = some t' →
        who = other ∧ t? = some t' ∨ who ≠ other ∧ t' = t := by
    intro other t? found
    rw [Function.update_apply] at found
    split at found
    · next same => exact .inl ⟨same, found⟩
    · next different => exact .inr ⟨different, Option.some.inj (found.symm.trans here)⟩
  have waiting : ∀ {id : TaskId} {task : Task}, m.tasks[id.index]? = some task →
      task.state.thread? = none → who ≠ .task id := by
    rintro id task found none rfl
    rw [thread?_of_found found, none] at here
    cases here
  cases next with
  | idle => exact .inl ⟨nofun, Option.some.inj (after.symm.trans here)⟩
  | turn other t₁ found silent going =>
    rw [thread?_afterTurn found] at after
    rcases put after with ⟨rfl, same⟩ | ⟨different, same⟩
    · obtain rfl : t = t₁ := Option.some.inj (here.symm.trans found)
      exact .inr ⟨rfl, .inl (Option.some.inj same).symm⟩
    · refine .inl ⟨?_, same⟩
      rintro t₂ ⟨⟩
      exact different rfl
  | launch other t₁ rest job found launches =>
    rw [thread?_submit, thread?_setThread found] at after
    rcases put after with ⟨rfl, same⟩ | ⟨different, same⟩
    · obtain rfl : t = t₁ := Option.some.inj (here.symm.trans found)
      cases same
      exact .inr ⟨rfl, .inr ⟨job, launches⟩⟩
    · refine .inl ⟨?_, same⟩
      rintro t₂ ⟨⟩
      exact different rfl
  | start id env job found =>
    rw [thread?_setTask found] at after
    exact .inl ⟨nofun, ((put after).resolve_left fun same => waiting found rfl same.1).2⟩
  | finished id t₁ outcome found ended =>
    obtain ⟨task, at_⟩ := thread?_task found
    rw [thread?_setTask at_, thread?_ofOutcome] at after
    obtain ⟨different, same⟩ := (put after).resolve_left fun gone => nomatch gone.2
    refine .inl ⟨?_, same⟩
    rintro t₂ ⟨⟩
    exact different rfl
  | record id f found =>
    have after : (m.setTask id .ending).thread? who = some t' := after
    rw [thread?_setTask found] at after
    exact .inl ⟨nofun, ((put after).resolve_left fun same => waiting found rfl same.1).2⟩
  | release id found =>
    have after : (m.setTask id .ended).thread? who = some t' := after
    rw [thread?_setTask found] at after
    exact .inl ⟨nofun, ((put after).resolve_left fun same => waiting found rfl same.1).2⟩

/-- What the main thread keeps, whatever the tasks do. -/
theorem kept_main {holds : Thread → Prop}
    (turn : ∀ w t, holds t → t.outcome? = none → holds ((t.inside w).step p .main).thread)
    (launch : ∀ t rest job, holds t → t.launch? = some (job, rest) → holds rest) :
    Kept p fun m => holds m.main := by
  refine ⟨?_, fun m i h => h, ?_⟩
  · intro m h
    obtain ⟨world, main, tasks⟩ := m
    simp only [Machine.stepMain]
    cases launches : main.launch? with
    | some launched => exact launch main _ _ h launches
    | none =>
      cases finished : main.outcome? with
      | none => exact turn world main h finished
      | some outcome =>
        simp only [Turn.step_of_outcome p world .main finished]
        exact h
  · intro m i h
    rw [Run.main_stepTask]
    exact h

end Machine

namespace Run

variable {p : Program} {c : RunConfig}

/-- What a move does to a thread. -/
theorem own_move {r : Run} (numbered : r.machine.Numbered) {who : ThreadId} {t t' : Thread} (first : Move)
    (here : r.machine.thread? who = some t) (after : (r.move p c first).machine.thread? who = some t') :
    (∀ t₁, r.mover? first ≠ some ⟨who, t₁⟩) ∧ t' = t ∨
      r.mover? first = some ⟨who, t⟩ ∧ (t' = ((t.inside r.machine.world).step p who).thread ∨
        ∃ job, t.launch? = some (job, t')) := by
  rcases machine_move p c numbered first with next | ⟨still, ledger, moved⟩
  · exact next.own here after
  · rw [moved] at after
    refine .inl ⟨?_, Option.some.inj (after.symm.trans here)⟩
    rw [still]
    exact nofun

/-- As long as the evaluation of an expression goes on, it is the evaluation of an expression, and when it
comes back, too. -/
theorem evaluates_play {among : NodeId → Prop} (closed : p.Sealed among) {r : Run}
    (numbered : r.machine.Numbered) {who : ThreadId} {base : List Pending} {moves : List Move}
    (goesOn : Evaluating p c who base r moves)
    (begins : ∀ t, r.machine.thread? who = some t → t.Evaluates among base) :
    ∀ t, (r.play p c moves).machine.thread? who = some t → t.Evaluates among base := by
  induction moves generalizing r with
  | nil => exact begins
  | cons first moves ih =>
    obtain ⟨⟨t, here, above⟩, later⟩ := goesOn
    have evaluates := begins t here
    refine ih ((next_move p c numbered first).numbered numbered) later ?_
    intro t' after
    rcases own_move numbered first here after with ⟨-, rfl⟩ | ⟨-, rfl | ⟨job, launches⟩⟩
    · exact evaluates
    · exact Turn.step_evaluates (s := t.inside r.machine.world) closed who above evaluates
    · exact evaluates.launch launches

end Run

namespace Session

/-- What a session evaluates does not end with a return, if it begins as the evaluation of an expression. -/
theorem perform_contains (s : Session) {among : NodeId → Prop} (closed : s.program.Sealed among)
    (control : Control) (within : control.Within among) (v : Value) :
    (s.perform control []).1 ≠ some (.exit (.ret v)) := by
  have kept : Machine.Kept s.program fun m => m.main.Evaluates among [] := by
    refine Machine.kept_main ?_ ?_
    · intro w t evaluates unfinished
      have above : t.Above [] := Thread.above_nil_iff.mpr unfinished
      exact Turn.step_evaluates (s := t.inside w) closed .main above evaluates
    · intro t rest job evaluates
      exact evaluates.launch
  have evaluates : (s.perform control []).2.pool.machine.main.Evaluates among [] :=
    s.perform_keeps kept control [] (.here [] rfl within nofun)
  intro ended
  obtain ⟨nothing, ⟨w, -, same⟩ | ⟨e, leaves, same⟩⟩ := Thread.outcome?_eq_some ended
  · cases same
  · cases same
    exact evaluates.no_return nothing v leaves

end Session

end Strand
