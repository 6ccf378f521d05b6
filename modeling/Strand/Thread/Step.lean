import Strand.Arith.Binary
import Strand.Arith.Matrix
import Strand.Thread

/-!
# One step of a thread

`Turn.step` is the evaluator: it takes a thread and the world to the next of each. A step touches
what is shared at most once, so the steps of several threads may be interleaved in any order.

A fault that a node raises is placed at that node when it is raised. Unwinding hands it on as it is,
so a fault keeps the place of the innermost node that raised it.

A thread that waits for a lock, for the output or for a variable is not `ready`; a step of such a
thread leaves everything as it is.
-/

set_option autoImplicit false

namespace Strand

/-- The first index that no array may be asked for. -/
def maxIndex : Int64 := 2147483646

/-- The position that an index value denotes. -/
def checkIndex (v : Value) : Except Cause Nat := do
  let index ← Arith.expectInt v
  if index < 0 then throw (.negativeIndex index)
  if maxIndex ≤ index then throw (.indexTooLarge index)
  return index.toNatClampNeg

namespace Program

/-- The scope attribute of a node; if it lacks one, the fault names it by the label. -/
@[inline] def scopeOf (p : Program) (id : NodeId) (label : String) : Except Cause ScopeId :=
  match p.attrs.scope? id with
  | some scope => .ok scope
  | none => .error (.unboundName label)

/-- The static type of a node. -/
def typeOf (p : Program) (id : NodeId) : Ty := p.attrs.typeOf id

/-- The value of a reference. Variables are read from their frames, and host constants from the root
frame; functions and types are values without being stored anywhere. -/
@[inline] def readName (p : Program) (env : Env) (fs : Frames) (id : NodeId) (name : Name) :
    Except Abort Value := do
  let text := p.text name
  match p.attrs.decl? id with
  | none => .error (.fault (.unboundName text))
  | some (.host ⟨_, .value⟩) =>
    match fs.lookup env.root name with
    | some v => .ok v
    | none => .error (.fault (.unboundName text))
  | some (.host ⟨h, .function⟩) => .ok (.function (.host ⟨h, .function⟩))
  | some (.host ⟨h, .type⟩) => .ok (.type (.host ⟨h, .type⟩))
  | some (.node decl) =>
    match ← Abort.ofRead (p.kind decl) with
    | .varDecl .. | .parameter _ => do
      let scope ← Abort.ofFault (p.scopeOf id text)
      Abort.ofFault (env.get fs scope name text)
    | .funDecl .. => .ok (.function (.node decl))
    | .structDecl .. => .ok (.type (.node decl))
    | _ => .error (.fault (.unboundName text))

/-- The value of a field: the length of an array, or a field of an instance. -/
def readField (p : Program) (h : Heap) (stem : Value) (field : Name) : Except Cause Value :=
  let text := p.text field
  match stem with
  | .null => .error (.nullDereference "accessing field of null object")
  | .array a =>
    if text = "length" then .ok (.int (Int64.ofNat (h.length a))) else .error (.undefinedField text)
  | .struct r =>
    match h.field? r field with
    | some v => .ok v
    | none => .error (.undefinedField text)
  | _ => .error (.undefinedField text)

/-- The frame outside of a call: the nearest one that owns the scope around the parameters, else the
root frame. -/
def declaringFrame (p : Program) (env : Env) (fs : Frames) (bodyScope : ScopeId) : FrameId :=
  ((p.attrs.parent? bodyScope).bind fun scope => env.frameFor fs scope).getD env.root

/-- The bindings of a call's frame. A node that is no parameter binds nothing. -/
def bindParameters (p : Program) :
    List NodeId → List Value → Bindings → Except OutOfRange Bindings
  | parameter :: parameters, argument :: arguments, bindings => do
    match ← p.kind parameter with
    | .parameter name =>
      let value := argument.widen (p.typeOf parameter)
      p.bindParameters parameters arguments (bindings.insert name value)
    | _ => p.bindParameters parameters arguments bindings
  | _, _, bindings => .ok bindings

/-- The fields of a new instance. A node that declares no field gives none. -/
def instanceFields (p : Program) : List NodeId → List Value → Except OutOfRange (List (Name × Value))
  | field :: fields, value :: values => do
    match ← p.kind field with
    | .fieldDecl name =>
      return (name, value.widen (p.typeOf field)) :: (← p.instanceFields fields values)
    | _ => p.instanceFields fields values
  | _, _ => .ok []

/-- A new instance of a struct, not yet on the heap. -/
def instantiate (p : Program) (decl : NodeId) (values : List Value) : Except Abort Record := do
  match ← Abort.ofRead (p.kind decl) with
  | .structDecl name fields =>
    if fields.length ≠ values.length then
      throw (.fault (.arityMismatch (p.text name) fields.length values.length))
    return ⟨decl, ← Abort.ofRead (p.instanceFields fields values)⟩
  | _ => throw (.fault (.notCallable "constructor"))

/-- The frame and the name that `wait` watches. -/
def watched (p : Program) (env : Env) (fs : Frames) (target : NodeId) :
    Except Abort (FrameId × Name) := do
  match ← Abort.ofRead (p.kind target) with
  | .reference name =>
    match (p.attrs.scope? target).bind fun scope => env.frameFor fs scope with
    | some f => return (f, name)
    | none => throw (.fault (.unboundName (p.text name)))
  | _ => throw (.fault .waitTarget)

end Program

namespace Turn

/-! ## Ways to go on -/

/-- Evaluate a node, and let something wait for it. -/
@[inline] def await (s : Turn) (node : NodeId) (waiting : Pending) : Turn :=
  { s with control := .eval node, stack := waiting :: s.stack }

@[inline] def give (s : Turn) (v : Value) : Turn := { s with control := .give v }

@[inline] def leave (s : Turn) (e : Exit) : Turn := { s with control := .leave e }

/-- Raise a fault at a node. -/
@[inline] def raise (p : Program) (s : Turn) (node : NodeId) (cause : Cause) : Turn :=
  s.leave (.fault ⟨cause, some (p.span node), []⟩)

/-- End as an operation at a node ended. -/
def abort (p : Program) (s : Turn) (node : NodeId) : Abort → Turn
  | .fault cause => s.raise p node cause
  | .outOfRange read => s.leave (.crash read.message)
  | .diverges => { s with control := .spin }

/-- Goes on with the value of an operation at a node, or ends as it ended. -/
@[inline] def orAbort {α : Type} (p : Program) (s : Turn) (node : NodeId) (result : Except Abort α)
    (next : α → Turn) : Turn :=
  match result with
  | .ok a => next a
  | .error e => s.abort p node e

/-- Goes on with the value of an operation at a node, or with its fault. -/
@[inline] def orFault {α : Type} (p : Program) (s : Turn) (node : NodeId) (result : Except Cause α)
    (next : α → Turn) : Turn :=
  match result with
  | .ok a => next a
  | .error cause => s.raise p node cause

/-- Gives the result of an operator, with new arrays put on the heap. -/
@[inline] def ofNest (p : Program) (s : Turn) (node : NodeId) (result : Except Abort Nest) : Turn :=
  match result with
  | .ok (.leaf v) => s.give v
  | .ok nest =>
    let (v, heap) := s.world.heap.place nest
    { s with world.heap := heap, control := .give v }
  | .error e => s.abort p node e

/-! ## The evaluator -/

/-- Starts on a list of statements. -/
def runStatements (s : Turn) : List NodeId → Turn
  | [] => s.give .void
  | statement :: rest => s.await statement (.statements rest)

/-- Ends the evaluation of the elements of an array literal. -/
def makeArray (s : Turn) (values : List Value) : Turn :=
  let (a, heap) := s.world.heap.newArray values.toArray
  { s with world.heap := heap, control := .give (.array a) }

/-- The first step of the evaluation of a node. -/
def enter (p : Program) (s : Turn) (id : NodeId) (kind : NodeKind) : Turn :=
  match kind with
  | .intLiteral n => s.give (.int n)
  | .floatLiteral x => s.give (.float x)
  | .stringLiteral text => s.give (.str text)
  | .reference name =>
    s.orAbort p id (p.readName s.env s.world.frames id name) fun v => s.give v
  | .constructor reference =>
    match p.attrs.decl? reference with
    | some (.node decl) => s.give (.constructor decl)
    | _ => s.raise p id (.typeMismatch "struct" "builtin")
  | .parenthesized inner => { s with control := .eval inner }
  | .arrayLiteral [] => s.makeArray []
  | .arrayLiteral (first :: rest) => s.await first (.element id [] rest)
  | .arrayAccess array index => s.await array (.accessedArray id index)
  | .fieldAccess stem field => s.await stem (.readStem id field)
  | .call callee arguments => s.await callee (.callee id arguments)
  | .not operand => s.await operand (.negated id)
  | .binary op left right =>
    if op.isShortCircuit then s.await left (.shortCircuit id op right)
    else s.await left (.leftOperand id op left right)
  | .assignment target value =>
    s.orAbort p id (Abort.ofRead (p.kind target)) fun kind =>
      match kind with
      | .reference name => s.await value (.assignName id target name)
      | .arrayAccess array index => s.await array (.storeArray id target index value)
      | .fieldAccess stem field => s.await stem (.storeStem id target value field)
      | _ => s.raise p id .invalidAssignmentTarget
  | .root statements => s.runStatements statements
  | .block statements =>
    s.orFault p id (p.scopeOf id "<scope>") fun scope =>
      let saved := s.env.current
      let (env, frames) := s.env.push s.world.frames scope
      runStatements { s with world.frames := frames, env, stack := .leaveBlock saved :: s.stack }
        statements
  | .expression inner => s.await inner .dropped
  | .conditional condition thenBranch elseBranch =>
    s.await condition (.branch id thenBranch elseBranch)
  | .loop condition body => s.await condition (.loopTest id condition body)
  | .ret none => s.leave (.ret .void)
  | .ret (some value) => s.await value .returned
  | .launch call => { s with control := .submit [.eval call] }
  | .launchDecl declaration =>
    s.orAbort p id (Abort.ofRead (p.kind declaration)) fun kind =>
      match kind with
      | .varDecl name _ =>
        let text := p.text name
        s.orFault p id (p.scopeOf declaration text) fun scope =>
          s.orFault p id (s.env.frameToSet s.world.frames scope text) fun f =>
            { s with
              world.frames := s.world.frames.define f name .void
              control := .submit [.eval declaration] }
      | _ => s.raise p id (.typeMismatch "variable declaration" "statement")
  | .protect block => { s with control := .findSite id block }
  | .varDecl name initializer => s.await initializer (.declaration id name)
  | .funDecl .. | .parameter _ | .structDecl .. | .fieldDecl _ => s.give .void

/-- Calls a builtin function, which is known by its name alone. -/
def callBuiltin (p : Program) (s : Turn) (id : NodeId) (name : String)
    (first : Option NodeId) (values : List Value) : Turn :=
  if name = "print" then
    match values with
    | [v] =>
      s.orAbort p id (Abort.ofRead (render p s.world.heap v)) fun text =>
        if s.world.output.isSilent then s.give (.str text)
        else { s with control := .startLine text }
    | _ => s.raise p id (.arityMismatch name 1 values.length)
  else if name = "wait" then
    match values, first with
    | [_], some target =>
      s.orAbort p id (p.watched s.env s.world.frames target) fun (f, watched) =>
        { s with control := .await id f watched }
    | _, _ => s.raise p id (.arityMismatch name 1 values.length)
  else s.raise p id (.unsupportedBuiltin name)

/-- Applies a callee to the values of its arguments. -/
def apply (p : Program) (s : Turn) (id : NodeId) (callee : Value)
    (first : Option NodeId) (values : List Value) : Turn :=
  match callee with
  | .function (.host host) => s.callBuiltin p id (p.text host.name) first values
  | .function (.node function) =>
    { s with control := .invoke (some (p.span id)) function values }
  | .constructor decl =>
    s.orAbort p id (p.instantiate decl values) fun record =>
      let (r, heap) := s.world.heap.newRecord record
      { s with world.heap := heap, control := .give (.struct r) }
  | .null => s.raise p id (.nullDereference "calling a null function")
  | v => s.raise p id (.notCallable v.typeName)

/-- Hands a value to what waits for it. -/
def resume (p : Program) (s : Turn) (v : Value) : Pending → Turn
  | .element _ done [] => s.makeArray (done.reverse ++ [v])
  | .element id done (next :: rest) => s.await next (.element id (v :: done) rest)
  | .accessedArray id index =>
    s.orFault p id (Arith.expectArray v) fun a => s.await index (.accessIndex id a)
  | .accessIndex id a =>
    s.orFault p id (checkIndex v) fun i =>
      match s.world.heap.element? a i with
      | some v => s.give v
      | none =>
        s.raise p id (.indexOutOfBounds (Int64.ofNat i) (s.world.heap.length a))
  | .readStem id field => s.orFault p id (p.readField s.world.heap v field) fun v => s.give v
  | .callee id [] => s.apply p id v none []
  | .callee id (first :: rest) => s.await first (.argument id v (some first) [] rest)
  | .argument id callee first done [] => s.apply p id callee first (done.reverse ++ [v])
  | .argument id callee first done (next :: rest) =>
    s.await next (.argument id callee first (v :: done) rest)
  | .negated id => s.orFault p id (Arith.expectBool v) fun b => s.give (.bool !b)
  | .shortCircuit id op right =>
    s.orFault p id (Arith.expectBool v) fun b =>
      if b == (op == .or) then s.give (.bool b)
      else s.await right (.truth id)
  | .truth id => s.orFault p id (Arith.expectBool v) fun b => s.give (.bool b)
  | .leftOperand id op left right => s.await right (.rightOperand id op left right v)
  | .rightOperand id op left right l =>
    if op = .matmul then s.ofNest p id (Arith.matrixProduct s.world.heap l v)
    else s.ofNest p id (Arith.binary p s.world.heap op l v (p.typeOf left) (p.typeOf right))
  | .assignName id target name =>
    let v := v.widen (p.typeOf target)
    let text := p.text name
    s.orFault p id (p.scopeOf target text) fun scope =>
      s.orFault p id (s.env.frameToSet s.world.frames scope text) fun f =>
        { s with world.frames := s.world.frames.define f name v, control := .give v }
  | .storeArray id target index value =>
    s.orFault p id (Arith.expectArray v) fun a =>
      s.await index (.storeIndex id target value a)
  | .storeIndex id target value a =>
    s.orFault p id (checkIndex v) fun i => s.await value (.storeElement id target a i)
  | .storeElement id target a i =>
    let v := v.widen (p.typeOf target)
    if i < s.world.heap.length a then { s with world.heap := s.world.heap.setElement a i v, control := .give v }
    else s.raise p id (.indexOutOfBounds (Int64.ofNat i) (s.world.heap.length a))
  | .storeStem id target value field =>
    s.await value (.storeField id target v field)
  | .storeField id target stem field =>
    let v := v.widen (p.typeOf target)
    match stem with
    | .null => s.raise p id (.nullDereference "accessing field of null object")
    | .struct r =>
      if (s.world.heap.field? r field).isSome then
        { s with world.heap := s.world.heap.setField r field v, control := .give v }
      else s.raise p id (.undefinedField (p.text field))
    | _ => s.raise p id (.undefinedField (p.text field))
  | .statements rest => s.runStatements rest
  | .dropped => s.give .void
  | .branch id thenBranch elseBranch =>
    s.orFault p id (Arith.expectBool v) fun b =>
      if b then s.await thenBranch .dropped
      else
        match elseBranch with
        | some elseBranch => s.await elseBranch .dropped
        | none => s.give .void
  | .loopTest id condition body =>
    s.orFault p id (Arith.expectBool v) fun b =>
      if b then s.await body (.loopBody id condition body) else s.give .void
  | .loopBody id condition body => s.await condition (.loopTest id condition body)
  | .returned => s.leave (.ret v)
  | .declaration id name =>
    let v := v.widen (p.typeOf id)
    let text := p.text name
    s.orFault p id (p.scopeOf id text) fun scope =>
      s.orFault p id (s.env.frameToSet s.world.frames scope text) fun f =>
        { s with world.frames := s.world.frames.define f name v, control := .give .void }
  | .leaveBlock saved => { s with env := s.env.restore saved, control := .give .void }
  | .leaveCall saved => { s with env := s.env.restore saved, control := .give .void }
  | .leaveSite _ lock | .unlock lock =>
    { s with world.locks := s.world.locks.release lock, control := .give .void }

/-- Hands an exit past what waits: frames are left and locks released, and a call turns an early
return into its value. -/
def unwind (s : Turn) (e : Exit) : Pending → Turn
  | .leaveBlock saved => { s with env := s.env.restore saved, control := .leave e }
  | .leaveCall saved =>
    let control : Control :=
      match e with
      | .ret v => .give v
      | e => .leave e
    { s with env := s.env.restore saved, control }
  | .leaveSite _ lock | .unlock lock =>
    { s with world.locks := s.world.locks.release lock, control := .leave e }
  | _ => s.leave e

/-- Calls a function: checks the number of arguments, enters a frame with the parameters inside the
declaring frame, and evaluates the body. -/
def invoke (p : Program) (s : Turn) (span : Option Span) (function : NodeId)
    (arguments : List Value) : Turn :=
  match p.kind function with
  | .error read => s.leave (.crash read.message)
  | .ok (.funDecl name parameters body) =>
    if parameters.length ≠ arguments.length then
      fail (.arityMismatch (p.text name) parameters.length arguments.length)
    else
      match p.attrs.bodyScope? function with
      | none => fail (.unboundName (p.text name))
      | some bodyScope =>
        match p.bindParameters parameters arguments .empty with
        | .error read => s.leave (.crash read.message)
        | .ok bindings =>
          let parent := p.declaringFrame s.env s.world.frames bodyScope
          let saved := s.env.current
          let (f, frames) := s.world.frames.push bodyScope bindings (some parent)
          { s with
            world.frames := frames
            env := s.env.restore f
            control := .eval body
            stack := .leaveCall saved :: s.stack }
  | .ok _ => fail (.notCallable "declaration")
where
  fail (cause : Cause) : Turn := s.leave (.fault ⟨cause, span, []⟩)

/-- Whether a step would change anything. The launch of a task is no step: it is for the machine. -/
@[inline] def ready (s : Turn) (who : ThreadId) : Bool :=
  match s.control with
  | .give _ | .leave _ => !s.stack.isEmpty
  | .enterSite _ lock _ | .acquire lock _ => s.world.locks.available lock who
  | .submit jobs => jobs.isEmpty
  | .startLine _ => s.world.output.available
  | .await _ f name =>
    s.world.ledger.closed || ((s.world.frames.lookup f name).any fun v => !v.isVoid)
  | .spin => false
  | _ => true

/-- The next step of the thread. -/
def step (p : Program) (who : ThreadId) (s : Turn) : Turn :=
  match s.control with
  | .eval id =>
    match p.kind id with
    | .ok kind => s.enter p id kind
    | .error read => s.leave (.crash read.message)
  | .give v =>
    match s.stack with
    | [] => s
    | waiting :: stack => resume p { s with stack } v waiting
  | .leave e =>
    match s.stack with
    | [] => s
    | waiting :: stack => unwind { s with stack } e waiting
  | .invoke span function arguments => s.invoke p span function arguments
  | .findSite site block =>
    match s.world.locks.find? site with
    | some lock => { s with control := .enterSite site lock block }
    | none => { s with control := .addSite site block }
  | .addSite site block =>
    let (lock, locks) := s.world.locks.addIfMissing site
    { s with world.locks := locks, control := .enterSite site lock block }
  | .enterSite site lock block =>
    if s.world.locks.available lock who then
      { s with
        world.locks := s.world.locks.acquire lock who
        control := .eval block
        stack := .leaveSite site lock :: s.stack }
    else s
  | .acquire lock inside =>
    if s.world.locks.available lock who then
      { s with
        world.locks := s.world.locks.acquire lock who
        control := inside
        stack := .unlock lock :: s.stack }
    else s
  | .submit [] => s.give .void
  | .submit (_ :: _) => s
  | .await id f name =>
    if (s.world.frames.lookup f name).any fun v => !v.isVoid then s.give .void
    else if s.world.ledger.closed then
      s.raise p id (.custom s!"run ended while waiting for `{p.text name}`")
    else s
  | .startLine text =>
    if s.world.output.available then
      { s with world.output := s.world.output.acquire who, control := .writeText text }
    else s
  | .writeText text =>
    { s with world.output := s.world.output.append text, control := .writeBreak text }
  | .writeBreak text =>
    { s with world.output := s.world.output.append "\n", control := .endLine text }
  | .endLine text =>
    { s with world.output := s.world.output.release, control := .give (.str text) }
  | .spin => s

/-- A thread that waits takes no step. -/
theorem step_of_not_ready (p : Program) (who : ThreadId) (s : Turn)
    (waits : s.ready who = false) : s.step p who = s := by
  obtain ⟨world, env, control, stack⟩ := s
  cases control with
  | give v =>
    obtain rfl : stack = [] := by simpa [ready] using waits
    rfl
  | leave e =>
    obtain rfl : stack = [] := by simpa [ready] using waits
    rfl
  | enterSite site lock block | acquire lock inside =>
    have taken : world.locks.available lock who = false := waits
    simp [step, taken]
  | submit jobs =>
    cases jobs with
    | nil => simp [ready] at waits
    | cons job jobs => rfl
  | await id f name =>
    obtain ⟨isOpen, unset⟩ : world.ledger.closed = false ∧
        ((world.frames.lookup f name).any fun v => !v.isVoid) = false := by
      simpa only [ready, Bool.or_eq_false_iff] using waits
    simp only [step, isOpen, unset, Bool.false_eq_true, if_false]
  | startLine text =>
    have taken : world.output.available = false := waits
    simp [step, taken]
  | spin => rfl
  | _ => simp [ready] at waits

/-- Takes up to so many steps, as long as the thread can; gives the number of those that are left. -/
def run (p : Program) (who : ThreadId) : Nat → Turn → Nat × Turn
  | 0, s => (0, s)
  | steps + 1, s => if s.ready who then run p who steps (s.step p who) else (steps + 1, s)

/-- A thread that can take a step is not over. -/
theorem outcome?_of_ready {t : Thread} {w : World} {who : ThreadId}
    (moves : (t.inside w).ready who = true) : t.outcome? = none := by
  obtain ⟨env, control, stack⟩ := t
  cases stack with
  | nil => cases control <;> first | rfl | simp [ready, Thread.inside] at moves
  | cons waiting stack => cases control <;> rfl

/-- A thread that can take a step launches nothing. -/
theorem launch?_of_ready {t : Thread} {w : World} {who : ThreadId}
    (moves : (t.inside w).ready who = true) : t.launch? = none := by
  obtain ⟨env, control, stack⟩ := t
  cases control with
  | submit jobs =>
    cases jobs with
    | nil => rfl
    | cons job jobs => simp [ready, Thread.inside] at moves
  | _ => rfl

end Turn

end Strand
