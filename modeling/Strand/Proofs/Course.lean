import Strand.Proofs.Scope.Context
import Strand.Proofs.Turn

/-!
# Where a step goes

What a step does with frames and nodes, and nothing about values, locks or output. The nodes that a
thread evaluates next are parts of the node that it evaluates, or have been waiting for it; a frame is
made by a block or by a call; a name is bound by a declaration, an assignment or the launch of a
declaration. `Turn.Course` has one case for each of these, with all that the program says about it, and
`step_course` says that there is no other way.

Whatever way a step goes, it takes at most one pending off the stack and puts others in its place, and with
these it goes back to where it would have gone back without them (`Turn.Course.exists_exchange`). What is
said of the rest of the stack follows from this alone.
-/

set_option autoImplicit false

namespace Strand

theorem Program.kind_eq_ok {p : Program} {n : NodeId} {kind : NodeKind} :
    p.kind n = .ok kind ↔ p.arena.kind? n = some kind := by
  unfold Program.kind
  cases p.arena.kind? n <;> simp

theorem Program.scopeOf_eq_ok {p : Program} {n : NodeId} {label : String} {scope : ScopeId} :
    p.scopeOf n label = .ok scope ↔ p.attrs.scope? n = some scope := by
  unfold Program.scopeOf
  cases p.attrs.scope? n <;> simp

theorem Env.frameToSet_eq_ok {env : Env} {fs : Frames} {scope : ScopeId} {text : String} {f : FrameId} :
    env.frameToSet fs scope text = .ok f ↔ env.frameFor fs scope = some f := by
  unfold Env.frameToSet
  cases env.frameFor fs scope <;> simp

theorem Abort.ofRead_eq_ok {α : Type} {result : Except OutOfRange α} {a : α} :
    Abort.ofRead result = .ok a ↔ result = .ok a := by
  unfold Abort.ofRead
  cases result <;> simp

/-! ## 1. What waits -/

/-- The nodes that a pending evaluates later; the first argument of a call may be looked up, too. -/
def Pending.nodes : Pending → List NodeId
  | element _ _ rest => rest
  | accessedArray _ index => [index]
  | callee _ arguments => arguments
  | argument _ _ first _ rest => first.toList ++ rest
  | shortCircuit _ _ right | leftOperand _ _ _ right => [right]
  | storeArray _ _ index value => [index, value]
  | storeIndex _ _ value _ | storeStem _ _ value _ => [value]
  | branch _ thenBranch elseBranch => thenBranch :: elseBranch.toList
  | loopTest _ condition body | loopBody _ condition body => [condition, body]
  | _ => []

/-- The frame to which a pending goes back. -/
def Pending.saved? : Pending → Option FrameId
  | leaveBlock saved | leaveCall saved => some saved
  | _ => none

/-- Whether a pending is a list of statements, or binds a name when it gets its value. -/
def Pending.isPlain : Pending → Bool
  | statements _ | declaration .. | assignName .. | leaveBlock _ | leaveCall _ => false
  | _ => true

/-- A control that evaluates no node. -/
def Control.IsIdle : Control → Prop
  | give _ | leave _ | invoke .. | startLine _ | writeText _ | writeBreak _ | endLine _ | spin => True
  | _ => False

/-- A control that has something for what waits. -/
def Control.Hands : Control → Prop
  | give _ | leave _ => True
  | _ => False

/-- A control to which the nodes of a program lead: it takes no lock but a site's, and what it launches
are nodes. -/
def Control.FromProgram : Control → Prop
  | acquire .. => False
  | submit jobs => ∀ job ∈ jobs, ∃ n, job = eval n
  | _ => True

/-- The nodes that a node evaluates in its own frame, lists of statements aside. Of the target of an
assignment only the parts are evaluated. -/
def Program.parts (p : Program) (n : NodeId) : List NodeId :=
  match p.arena.kind? n with
  | some (.assignment target value) => value :: ((p.arena.kind? target).map NodeKind.operands).getD []
  | some (.launchDecl _) | none => []
  | some kind => kind.callee?.toList ++ kind.operands ++ kind.substatements

/-- The nodes that a control may lead to. -/
def Control.nodes (p : Program) : Control → List NodeId
  | eval n => p.parts n
  | findSite _ block | addSite _ block | enterSite _ _ block => [block]
  | _ => []

/-- A control that is on its way to evaluate a node. -/
inductive Control.LeadsTo (n : NodeId) : Control → Prop
  | eval : LeadsTo n (.eval n)
  | find (site : NodeId) : LeadsTo n (.findSite site n)
  | add (site : NodeId) : LeadsTo n (.addSite site n)
  | enter (site : NodeId) (lock : LockId) : LeadsTo n (.enterSite site lock n)

/-- A pending that binds a name when it gets a value: the node and the name. -/
inductive Pending.Stores : Pending → NodeId → Name → Prop
  | declaration (n : NodeId) (name : Name) : Stores (.declaration n name) n name
  | assignName (n target : NodeId) (name : Name) : Stores (.assignName n target name) target name

/-- A pending that a control may leave behind: one that binds a name is left by the node that says so. -/
inductive Pending.LeftBy (p : Program) : Control → Pending → Prop
  | plain (control : Control) (waiting : Pending) (plain : waiting.isPlain = true) :
      LeftBy p control waiting
  | declaration (n initializer : NodeId) (name : Name)
      (kind : p.arena.kind? n = some (.varDecl name initializer)) :
      LeftBy p (.eval n) (.declaration n name)
  | assignName (n target value : NodeId) (name : Name)
      (kind : p.arena.kind? n = some (.assignment target value))
      (refers : p.arena.kind? target = some (.reference name)) :
      LeftBy p (.eval n) (.assignName n target name)

theorem Pending.LeftBy.saved? {p : Program} {control : Control} {waiting : Pending}
    (left : waiting.LeftBy p control) : waiting.saved? = none := by
  cases left with
  | plain control waiting plain => cases waiting <;> first | rfl | cases plain
  | declaration | assignName => rfl

/-- A pending that goes back to a frame evaluates nothing. -/
theorem Pending.saved?_of_mem_nodes {waiting : Pending} {n : NodeId} (member : n ∈ waiting.nodes) :
    waiting.saved? = none := by
  cases waiting <;> first | rfl | cases member

theorem Pending.Stores.saved? {waiting : Pending} {n : NodeId} {name : Name} (stores : waiting.Stores n name) :
    waiting.saved? = none := by
  cases stores <;> rfl

namespace Turn

/-! ## 2. The ways of a step -/

/-- Where the nodes come from that a step goes on with, and the stack under them: from the control, or
from what waits for a value. -/
inductive Source (p : Program) (s : Turn) : List NodeId → List Pending → Prop
  | control : Source p s (s.control.nodes p) s.stack
  | pending (v : Value) (waiting : Pending) (stack : List Pending) (gives : s.control = .give v)
      (waits : s.stack = waiting :: stack) : Source p s waiting.nodes stack

/-- Where a list of statements comes from, and the stack under it. -/
inductive Runs (p : Program) (s : Turn) : List NodeId → List Pending → Prop
  | root (n : NodeId) (statements : List NodeId) (evaluates : s.control = .eval n)
      (kind : p.arena.kind? n = some (.root statements)) : Runs p s statements s.stack
  | rest (v : Value) (statements : List NodeId) (stack : List Pending) (gives : s.control = .give v)
      (waits : s.stack = .statements statements :: stack) : Runs p s statements stack

/-- What a step does with frames and nodes. -/
inductive Course (p : Program) (s s' : Turn) : Prop
  | still (same : s' = s)
  /-- Nothing is evaluated; what waited may have been dropped. -/
  | idle (frames : s'.world.frames = s.world.frames) (env : s'.env = s.env)
      (stack : s'.stack = s.stack ∨
        ∃ waiting, s.stack = waiting :: s'.stack ∧ waiting.saved? = none ∧ s.control.Hands)
      (control : s'.control.IsIdle)
  /-- Go back to an earlier frame. -/
  | back (saved : FrameId) (waiting : Pending) (frames : s'.world.frames = s.world.frames)
      (env : s'.env = s.env.restore saved) (stack : s.stack = waiting :: s'.stack)
      (saves : waiting.saved? = some saved) (control : s'.control.IsIdle) (hands : s.control.Hands)
  /-- Begin to wait for the variable that a reference names. -/
  | watch (waiting : Pending) (target id : NodeId) (name : Name) (scope : ScopeId) (f : FrameId)
      (frames : s'.world.frames = s.world.frames) (env : s'.env = s.env)
      (stack : s.stack = waiting :: s'.stack) (saves : waiting.saved? = none)
      (refers : p.arena.kind? target = some (.reference name))
      (here : p.attrs.scope? target = some scope)
      (found : s.env.frameFor s.world.frames scope = some f) (control : s'.control = .await id f name)
      (hands : s.control.Hands)
  /-- Bind the name of a declaration or of the target of an assignment. -/
  | store (v : Value) (waiting : Pending) (n : NodeId) (name : Name) (scope : ScopeId) (f : FrameId)
      (gives : s.control = .give v) (stack : s.stack = waiting :: s'.stack)
      (stores : waiting.Stores n name) (here : p.attrs.scope? n = some scope)
      (found : s.env.frameFor s.world.frames scope = some f) (env : s'.env = s.env)
      (frames : s'.world.frames = s.world.frames.define f name (v.widen (p.typeOf n)))
      (control : ∃ v, s'.control = .give v)
  /-- Go on with a node, and leave at most one pending behind. -/
  | part (nodes : List NodeId) (stack : List Pending) (n : NodeId) (left : Option Pending)
      (source : Source p s nodes stack) (member : n ∈ nodes)
      (frames : s'.world.frames = s.world.frames) (env : s'.env = s.env)
      (control : s'.control.LeadsTo n) (leaves : s'.stack = left.toList ++ stack)
      (leftBy : ∀ waiting ∈ left, waiting.LeftBy p s.control)
      (others : ∀ waiting ∈ left, waiting.nodes ⊆ nodes)
  /-- Run the first of several statements. -/
  | run (n : NodeId) (rest : List NodeId) (stack : List Pending) (runs : Runs p s (n :: rest) stack)
      (frames : s'.world.frames = s.world.frames) (env : s'.env = s.env) (control : s'.control = .eval n)
      (leaves : s'.stack = .statements rest :: stack)
  /-- Enter a block. -/
  | block (n : NodeId) (statements : List NodeId) (scope : ScopeId) (evaluates : s.control = .eval n)
      (kind : p.arena.kind? n = some (.block statements)) (here : p.attrs.scope? n = some scope)
      (current : s'.env.current = (s.world.frames.push scope .empty (some s.env.current)).1)
      (frames : s'.world.frames = (s.world.frames.push scope .empty (some s.env.current)).2)
      (begins : match statements with
        | [] => s'.control = .give .void ∧ s'.stack = .leaveBlock s.env.current :: s.stack
        | first :: rest => s'.control = .eval first ∧
          s'.stack = .statements rest :: .leaveBlock s.env.current :: s.stack)
  /-- Enter the frame of a call. -/
  | call (span : Option Span) (function : NodeId) (arguments : List Value) (name : Name)
      (parameters : List NodeId) (body : NodeId) (scope : ScopeId) (bindings : Bindings)
      (invokes : s.control = .invoke span function arguments)
      (kind : p.arena.kind? function = some (.funDecl name parameters body))
      (opens : p.attrs.bodyScope? function = some scope)
      (bound : p.bindParameters parameters arguments .empty = .ok bindings)
      (current : s'.env.current = (s.world.frames.push scope bindings
        (some (p.declaringFrame s.env s.world.frames scope))).1)
      (frames : s'.world.frames = (s.world.frames.push scope bindings
        (some (p.declaringFrame s.env s.world.frames scope))).2)
      (control : s'.control = .eval body)
      (stack : s'.stack = .leaveCall s.env.current :: s.stack)
  /-- Launch a call. -/
  | launch (n call : NodeId) (evaluates : s.control = .eval n)
      (kind : p.arena.kind? n = some (.launch call)) (frames : s'.world.frames = s.world.frames)
      (env : s'.env = s.env) (control : s'.control = .submit [.eval call]) (stack : s'.stack = s.stack)
  /-- Bind the name of a declaration to the absent value, and launch the declaration. -/
  | launchDecl (n declaration initializer : NodeId) (name : Name) (scope : ScopeId) (f : FrameId)
      (evaluates : s.control = .eval n) (kind : p.arena.kind? n = some (.launchDecl declaration))
      (declares : p.arena.kind? declaration = some (.varDecl name initializer))
      (here : p.attrs.scope? declaration = some scope)
      (found : s.env.frameFor s.world.frames scope = some f)
      (frames : s'.world.frames = s.world.frames.define f name .void) (env : s'.env = s.env)
      (control : s'.control = .submit [.eval declaration]) (stack : s'.stack = s.stack)
  /-- Take a lock that belongs to no site. -/
  | take (lock : LockId) (takes : s.control = .acquire lock s'.control)
      (frames : s'.world.frames = s.world.frames) (env : s'.env = s.env)
      (stack : s'.stack = .unlock lock :: s.stack)

variable {p : Program} {s s' : Turn}

/-! ## 3. The functions of the evaluator -/

/-- A turn that is about to go on: from `s` it may have taken a pending that keeps no frame. -/
structure Begun (s s' : Turn) : Prop where
  frames : s'.world.frames = s.world.frames
  env : s'.env = s.env
  stack : s'.stack = s.stack ∨
    ∃ waiting, s.stack = waiting :: s'.stack ∧ waiting.saved? = none ∧ s.control.Hands

namespace Begun

theorem refl (s : Turn) : Begun s s := ⟨rfl, rfl, .inl rfl⟩

variable (h : Begun s s')

include h

theorem goTo (control : Control) (idle : control.IsIdle) : Course p s { s' with control } :=
  .idle h.frames h.env h.stack idle

theorem give (v : Value) : Course p s (s'.give v) := h.goTo _ trivial

theorem leave (e : Exit) : Course p s (s'.leave e) := h.goTo _ trivial

theorem raise (node : NodeId) (cause : Cause) : Course p s (s'.raise p node cause) := h.leave _

theorem abort (node : NodeId) (a : Abort) : Course p s (s'.abort p node a) := by
  cases a with
  | fault cause => exact h.raise node cause
  | outOfRange read => exact h.leave _
  | diverges => exact h.goTo _ trivial

theorem orAbort {α : Type} {node : NodeId} {result : Except Abort α} {next : α → Turn}
    (goesOn : ∀ a, result = .ok a → Course p s (next a)) : Course p s (s'.orAbort p node result next) := by
  cases result with
  | ok a => exact goesOn a rfl
  | error e => exact h.abort node e

theorem orFault {α : Type} {node : NodeId} {result : Except Cause α} {next : α → Turn}
    (goesOn : ∀ a, result = .ok a → Course p s (next a)) : Course p s (s'.orFault p node result next) := by
  cases result with
  | ok a => exact goesOn a rfl
  | error cause => exact h.raise node cause

/-- The heap is nothing that a course speaks of. -/
theorem withHeap (heap : Heap) : Begun s { s' with world.heap := heap } := ⟨h.frames, h.env, h.stack⟩

theorem ofNest (node : NodeId) (result : Except Abort Nest) : Course p s (s'.ofNest p node result) := by
  cases result with
  | error e => exact h.abort node e
  | ok nest =>
    cases nest with
    | leaf v => exact h.give v
    | row elements => exact (h.withHeap _).give _

theorem makeArray (values : List Value) : Course p s (s'.makeArray values) := (h.withHeap _).give _

end Begun

/-- A node evaluates one of its parts. -/
theorem Course.ofEval {id n : NodeId} {waiting : Pending} (evaluates : s.control = .eval id)
    (left : waiting.LeftBy p (.eval id)) (parts : n :: waiting.nodes ⊆ p.parts id) :
    Course p s (s.await n waiting) := by
  have nodes : s.control.nodes p = p.parts id := by rw [evaluates]; rfl
  refine .part _ s.stack n (some waiting) .control ?_ rfl rfl .eval rfl ?_ ?_
  · rw [nodes]
    exact parts List.mem_cons_self
  · rintro _ ⟨⟩
    rw [evaluates]
    exact left
  · rintro _ ⟨⟩
    rw [nodes]
    exact fun m later => parts (List.mem_cons_of_mem _ later)

theorem Course.ofStatements {n : NodeId} {statements : List NodeId} (evaluates : s.control = .eval n)
    (kind : p.arena.kind? n = some (.root statements)) : Course p s (s.runStatements statements) := by
  cases statements with
  | nil => exact (Begun.refl s).give .void
  | cons first rest =>
    exact .run first rest s.stack (.root n _ evaluates kind) rfl rfl rfl rfl

theorem course_enter {id : NodeId} {kind : NodeKind} (evaluates : s.control = .eval id)
    (found : p.arena.kind? id = some kind) : Course p s (enter p s id kind) := by
  have begun : Begun s s := .refl s
  -- most nodes leave a plain pending, which knows none but parts of the node
  have goOn : ∀ {n : NodeId} {waiting : Pending}, n :: waiting.nodes ⊆ p.parts id →
      waiting.isPlain = true → Course p s (s.await n waiting) :=
    fun parts plain => .ofEval evaluates (.plain _ _ plain) parts
  cases kind with
  | intLiteral | floatLiteral | stringLiteral => exact begun.give _
  | reference name => exact begun.orAbort fun v _ => begun.give v
  | constructor reference =>
    simp only [enter]
    split
    · exact begun.give _
    · exact begun.raise ..
  | parenthesized inner =>
    refine .part _ s.stack inner none .control ?_ rfl rfl .eval rfl (by simp) (by simp)
    rw [evaluates]
    simp [Control.nodes, Program.parts, found, NodeKind.operands]
  | arrayLiteral elements =>
    cases elements with
    | nil => exact begun.makeArray []
    | cons first rest =>
      exact goOn (by simp [Program.parts, found, NodeKind.callee?, NodeKind.operands,
        NodeKind.substatements, Pending.nodes]) rfl
  | arrayAccess array index =>
    exact goOn (by simp [Program.parts, found, NodeKind.operands, Pending.nodes]) rfl
  | fieldAccess stem field =>
    exact goOn (by simp [Program.parts, found, NodeKind.operands, Pending.nodes]) rfl
  | call callee arguments =>
    exact goOn (by simp [Program.parts, found, NodeKind.operands, NodeKind.callee?, Pending.nodes]) rfl
  | not operand => exact goOn (by simp [Program.parts, found, NodeKind.operands, Pending.nodes]) rfl
  | binary op left right =>
    simp only [enter]
    split <;> exact goOn (by simp [Program.parts, found, NodeKind.operands, Pending.nodes]) rfl
  | assignment target value =>
    refine begun.orAbort fun kind read => ?_
    have target_ := Program.kind_eq_ok.mp (Abort.ofRead_eq_ok.mp read)
    cases kind with
    | reference name =>
      exact .ofEval evaluates (.assignName id target value name found target_)
        (by simp [Program.parts, found, Pending.nodes])
    | arrayAccess array index =>
      exact goOn (by simp [Program.parts, found, target_, NodeKind.operands, Pending.nodes]) rfl
    | fieldAccess stem field =>
      exact goOn (by simp [Program.parts, found, target_, NodeKind.operands, Pending.nodes]) rfl
    | _ => exact begun.raise ..
  | root statements => exact .ofStatements evaluates found
  | block statements =>
    refine begun.orFault fun scope read => ?_
    refine .block id statements scope evaluates found (Program.scopeOf_eq_ok.mp read) ?_ ?_ ?_
    · cases statements <;> rfl
    · cases statements <;> rfl
    · cases statements <;> exact ⟨rfl, rfl⟩
  | expression inner => exact goOn (by simp [Program.parts, found, NodeKind.operands, Pending.nodes]) rfl
  | conditional condition thenBranch elseBranch =>
    exact goOn (by simp [Program.parts, found, NodeKind.operands, NodeKind.substatements,
      Pending.nodes]) rfl
  | loop condition body =>
    exact goOn (by simp [Program.parts, found, NodeKind.operands, NodeKind.substatements,
      Pending.nodes]) rfl
  | ret value =>
    cases value with
    | none => exact begun.leave _
    | some value => exact goOn (by simp [Program.parts, found, NodeKind.operands, Pending.nodes]) rfl
  | launch call => exact .launch id call evaluates found rfl rfl rfl rfl
  | launchDecl declaration =>
    refine begun.orAbort fun kind read => ?_
    have declares := Program.kind_eq_ok.mp (Abort.ofRead_eq_ok.mp read)
    cases kind with
    | varDecl name initializer =>
      refine begun.orFault fun scope here => begun.orFault fun f owner => ?_
      exact .launchDecl id declaration initializer name scope f evaluates found declares
        (Program.scopeOf_eq_ok.mp here) (Env.frameToSet_eq_ok.mp owner) rfl rfl rfl rfl
    | _ => exact begun.raise ..
  | protect block =>
    refine .part _ s.stack block none .control ?_ rfl rfl (.find id) rfl (by simp) (by simp)
    rw [evaluates]
    simp [Control.nodes, Program.parts, found, NodeKind.substatements]
  | varDecl name initializer =>
    exact .ofEval evaluates (.declaration id initializer name found)
      (by simp [Program.parts, found, NodeKind.operands, Pending.nodes])
  | funDecl | parameter | structDecl | fieldDecl => exact begun.give _

/-- What has been taken from the stack, before the thread goes on. -/
theorem Begun.pop (world : World) (env : Env) (v : Value) (stack : List Pending)
    {waiting : Pending} (unsaved : waiting.saved? = none) :
    Begun ⟨world, env, .give v, waiting :: stack⟩ ⟨world, env, .give v, stack⟩ :=
  ⟨rfl, rfl, .inr ⟨waiting, rfl, unsaved, trivial⟩⟩

/-- A pending evaluates one of its nodes. -/
theorem Course.ofPending {world : World} {env : Env} {v : Value} {waiting left : Pending}
    {stack : List Pending} {n : NodeId} (nodes : n :: left.nodes ⊆ waiting.nodes)
    (plain : left.isPlain = true) : Course p ⟨world, env, .give v, waiting :: stack⟩
      (await ⟨world, env, .give v, stack⟩ n left) := by
  refine .part _ stack n (some left) (.pending v waiting stack rfl rfl) (nodes List.mem_cons_self)
    rfl rfl .eval rfl ?_ ?_
  · rintro _ ⟨⟩
    exact .plain _ _ plain
  · rintro _ ⟨⟩
    exact fun m later => nodes (List.mem_cons_of_mem _ later)

section Resume

variable (world : World) (env : Env) (v : Value) (stack : List Pending)

/-- A call may be of the builtin function that waits for its argument. -/
theorem course_callBuiltin {waiting : Pending} (unsaved : waiting.saved? = none) (id : NodeId)
    (name : String) (first : Option NodeId) (values : List Value) :
    Course p ⟨world, env, .give v, waiting :: stack⟩
      (callBuiltin p ⟨world, env, .give v, stack⟩ id name first values) := by
  have begun := Begun.pop world env v stack unsaved
  simp only [callBuiltin]
  split
  · split
    · refine begun.orAbort fun text _ => ?_
      split
      · exact begun.give _
      · exact begun.goTo _ trivial
    · exact begun.raise ..
  · split
    · split
      · next target =>
        refine begun.orAbort fun watching read => ?_
        obtain ⟨f, watched⟩ := watching
        simp only [Program.watched, bind, Except.bind] at read
        split at read
        · cases read
        · next kind found =>
          split at read
          · next text =>
            split at read
            · next f' owner =>
              cases read
              obtain ⟨scope, here, found'⟩ := Option.bind_eq_some_iff.mp owner
              exact .watch waiting target id _ scope _ rfl rfl rfl unsaved
                (Program.kind_eq_ok.mp (Abort.ofRead_eq_ok.mp found)) here found' rfl trivial
            · cases read
          · cases read
      · exact begun.raise ..
    · exact begun.raise ..

theorem course_apply {waiting : Pending} (unsaved : waiting.saved? = none) (id : NodeId)
    (callee : Value) (first : Option NodeId) (values : List Value) :
    Course p ⟨world, env, .give v, waiting :: stack⟩
      (apply p ⟨world, env, .give v, stack⟩ id callee first values) := by
  have begun := Begun.pop world env v stack unsaved
  simp only [apply]
  split
  · exact course_callBuiltin world env v stack unsaved ..
  · exact begun.goTo _ trivial
  · exact begun.orAbort fun record _ => (begun.withHeap _).give _
  · exact begun.raise ..
  · exact begun.raise ..

/-- The name of a declaration or of the target of an assignment gets its value. -/
theorem Course.ofStore {waiting : Pending} {n : NodeId} {name : Name} (stores : waiting.Stores n name)
    {scope : ScopeId} {f : FrameId} {label text : String} (w : Value)
    (here : p.scopeOf n label = .ok scope)
    (owner : env.frameToSet world.frames scope text = .ok f) :
    Course p ⟨world, env, .give v, waiting :: stack⟩
      ⟨{ world with frames := world.frames.define f name (v.widen (p.typeOf n)) }, env, .give w,
        stack⟩ :=
  .store v waiting n name scope f rfl rfl stores (Program.scopeOf_eq_ok.mp here)
    (Env.frameToSet_eq_ok.mp owner) rfl rfl ⟨w, rfl⟩

theorem course_resume (waiting : Pending) : Course p ⟨world, env, .give v, waiting :: stack⟩
    (resume p ⟨world, env, .give v, stack⟩ v waiting) := by
  have begun : waiting.saved? = none →
      Begun ⟨world, env, .give v, waiting :: stack⟩ ⟨world, env, .give v, stack⟩ :=
    Begun.pop world env v stack
  cases waiting with
  | element id done rest =>
    cases rest with
    | nil => exact (begun rfl).makeArray _
    | cons next rest => exact .ofPending (List.Subset.refl _) rfl
  | accessedArray id index => exact (begun rfl).orFault fun a _ => .ofPending (List.Subset.refl _) rfl
  | accessIndex id a =>
    refine (begun rfl).orFault fun i _ => ?_
    split
    · exact (begun rfl).give _
    · exact (begun rfl).raise ..
  | readStem id field => exact (begun rfl).orFault fun v _ => (begun rfl).give v
  | callee id arguments =>
    cases arguments with
    | nil => exact course_apply world env v stack rfl ..
    | cons first rest => exact .ofPending (by simp [Pending.nodes]) rfl
  | argument id callee first done rest =>
    cases rest with
    | nil => exact course_apply world env v stack rfl ..
    | cons next rest =>
      refine .ofPending (fun m member => ?_) rfl
      simp only [Pending.nodes, List.mem_cons, List.mem_append] at member ⊢
      grind
  | negated id => exact (begun rfl).orFault fun b _ => (begun rfl).give _
  | shortCircuit id op right =>
    refine (begun rfl).orFault fun b _ => ?_
    split
    · exact (begun rfl).give _
    · exact .ofPending (by simp [Pending.nodes]) rfl
  | truth id => exact (begun rfl).orFault fun b _ => (begun rfl).give _
  | leftOperand id op left right => exact .ofPending (by simp [Pending.nodes]) rfl
  | rightOperand id op left right l =>
    simp only [resume]
    split <;> exact (begun rfl).ofNest ..
  | assignName id target name =>
    exact (begun rfl).orFault fun scope here => (begun rfl).orFault fun f owner =>
      .ofStore world env v stack (.assignName id target name) _ here owner
  | storeArray id target index value =>
    exact (begun rfl).orFault fun a _ => .ofPending (by simp [Pending.nodes]) rfl
  | storeIndex id target value a =>
    exact (begun rfl).orFault fun i _ => .ofPending (by simp [Pending.nodes]) rfl
  | storeElement id target a i =>
    simp only [resume]
    split
    · exact ((begun rfl).withHeap _).give _
    · exact (begun rfl).raise ..
  | storeStem id target value field => exact .ofPending (by simp [Pending.nodes]) rfl
  | storeField id target stem field =>
    simp only [resume]
    split
    · exact (begun rfl).raise ..
    · split
      · exact ((begun rfl).withHeap _).give _
      · exact (begun rfl).raise ..
    · exact (begun rfl).raise ..
  | statements rest =>
    cases rest with
    | nil => exact (begun rfl).give _
    | cons first rest => exact .run first rest stack (.rest v _ stack rfl rfl) rfl rfl rfl rfl
  | dropped => exact (begun rfl).give _
  | branch id thenBranch elseBranch =>
    refine (begun rfl).orFault fun b _ => ?_
    split
    · exact .ofPending (by simp [Pending.nodes]) rfl
    · cases elseBranch with
      | none => exact (begun rfl).give _
      | some elseBranch => exact .ofPending (by simp [Pending.nodes]) rfl
  | loopTest id condition body =>
    refine (begun rfl).orFault fun b _ => ?_
    split
    · exact .ofPending (by simp [Pending.nodes]) rfl
    · exact (begun rfl).give _
  | loopBody id condition body => exact .ofPending (by simp [Pending.nodes]) rfl
  | returned => exact (begun rfl).leave _
  | declaration id name =>
    exact (begun rfl).orFault fun scope here => (begun rfl).orFault fun f owner =>
      .ofStore world env v stack (.declaration id name) _ here owner
  | leaveBlock saved | leaveCall saved => exact .back saved _ rfl rfl rfl rfl trivial trivial
  | leaveSite site lock | unlock lock =>
    exact .idle rfl rfl (.inr ⟨_, rfl, rfl, trivial⟩) trivial

end Resume

theorem course_unwind (world : World) (env : Env) (e : Exit) (stack : List Pending)
    (waiting : Pending) : Course p ⟨world, env, .leave e, waiting :: stack⟩
      (unwind ⟨world, env, .leave e, stack⟩ e waiting) := by
  cases waiting with
  | leaveBlock saved => exact .back saved _ rfl rfl rfl rfl trivial trivial
  | leaveCall saved => cases e <;> exact .back saved _ rfl rfl rfl rfl trivial trivial
  | _ => exact .idle rfl rfl (.inr ⟨_, rfl, rfl, trivial⟩) trivial

theorem course_invoke {span : Option Span} {function : NodeId} {arguments : List Value}
    (invokes : s.control = .invoke span function arguments) :
    Course p s (invoke p s span function arguments) := by
  simp only [invoke]
  split
  · exact (Begun.refl _).leave _
  · next name parameters body kind =>
    split
    · exact (Begun.refl _).leave _
    · split
      · exact (Begun.refl _).leave _
      · next scope opens =>
        split
        · exact (Begun.refl _).leave _
        · next bindings bound =>
          exact .call span function arguments name parameters body scope bindings invokes
            (Program.kind_eq_ok.mp kind) opens bound rfl rfl rfl rfl
  · exact (Begun.refl _).leave _

/-! ## 4. Whole steps -/

theorem step_course (p : Program) (who : ThreadId) (s : Turn) : Course p s (s.step p who) := by
  obtain ⟨world, env, control, stack⟩ := s
  cases control with
  | eval id =>
    simp only [step]
    split
    · next kind found => exact course_enter rfl (Program.kind_eq_ok.mp found)
    · exact (Begun.refl _).leave _
  | give v =>
    cases stack with
    | nil => exact .still rfl
    | cons waiting stack => exact course_resume world env v stack waiting
  | leave e =>
    cases stack with
    | nil => exact .still rfl
    | cons waiting stack => exact course_unwind world env e stack waiting
  | invoke span function arguments => exact course_invoke rfl
  | findSite site block =>
    simp only [step]
    split
    · next lock found =>
      exact .part _ stack block none .control List.mem_cons_self rfl rfl (.enter ..) rfl (by simp)
        (by simp)
    · exact .part _ stack block none .control List.mem_cons_self rfl rfl (.add ..) rfl (by simp)
        (by simp)
  | addSite site block =>
    exact .part _ stack block none .control List.mem_cons_self rfl rfl (.enter ..) rfl (by simp)
      (by simp)
  | enterSite site lock block =>
    simp only [step]
    split
    · refine .part _ stack block (some (.leaveSite site lock)) .control List.mem_cons_self rfl rfl
        .eval rfl ?_ ?_
      · rintro _ ⟨⟩
        exact .plain _ _ rfl
      · rintro _ ⟨⟩
        exact List.nil_subset _
    · exact .still rfl
  | acquire lock inside =>
    simp only [step]
    split
    · exact .take lock rfl rfl rfl rfl
    · exact .still rfl
  | submit jobs =>
    cases jobs with
    | nil => exact (Begun.refl _).give _
    | cons job jobs => exact .still rfl
  | await id f name =>
    simp only [step]
    split
    · exact (Begun.refl _).give _
    · split
      · exact (Begun.refl _).leave _
      · exact .still rfl
  | startLine text =>
    simp only [step]
    split
    · exact .idle rfl rfl (.inl rfl) trivial
    · exact .still rfl
  | writeText | writeBreak | endLine => exact .idle rfl rfl (.inl rfl) trivial
  | spin => exact .still rfl

theorem Course.fromProgram (course : Course p s s') (before : s.control.FromProgram) :
    s'.control.FromProgram := by
  have idle : s'.control.IsIdle → s'.control.FromProgram := by
    cases s'.control <;> first | exact fun _ => trivial | exact False.elim
  cases course with
  | still same => exact same ▸ before
  | idle _ _ _ control | back _ _ _ _ _ _ control => exact idle control
  | watch _ _ _ _ _ _ _ _ _ _ _ _ _ control => exact control ▸ trivial
  | store _ _ _ _ _ _ _ _ _ _ _ _ _ control =>
    obtain ⟨v, control⟩ := control
    exact control ▸ trivial
  | part _ _ _ _ _ _ _ _ control =>
    cases equal : s'.control <;> rw [equal] at control <;> cases control <;> trivial
  | run _ _ _ _ _ _ control => exact control ▸ trivial
  | block n statements _ _ _ _ _ _ begins => cases statements <;> exact begins.1 ▸ trivial
  | call _ _ _ _ _ _ _ _ _ _ _ _ _ _ control => exact control ▸ trivial
  | launch n call _ _ _ _ control =>
    exact control ▸ fun job member => ⟨call, List.mem_singleton.mp member⟩
  | launchDecl n declaration _ _ _ _ _ _ _ _ _ _ _ control =>
    exact control ▸ fun job member => ⟨declaration, List.mem_singleton.mp member⟩
  | take lock takes => exact (takes ▸ before : Control.FromProgram (.acquire lock s'.control)).elim

end Turn

/-! ## 5. What is taken and what is left -/

/-- The frame that is current again when nothing waits any more. -/
def home (current : FrameId) : List Pending → FrameId
  | [] => current
  | waiting :: rest => home (waiting.saved?.getD current) rest

@[simp] theorem home_nil (current : FrameId) : home current [] = current := rfl

@[simp] theorem home_cons (current : FrameId) (waiting : Pending) (rest : List Pending) :
    home current (waiting :: rest) = home (waiting.saved?.getD current) rest := rfl

theorem home_append (current : FrameId) (top base : List Pending) :
    home current (top ++ base) = home (home current top) base := by
  induction top generalizing current with
  | nil => rfl
  | cons waiting top ih => exact ih _

/-- Pendings that go back to no frame do not matter. -/
theorem home_of_unsaved {top : List Pending} (unsaved : ∀ waiting ∈ top, waiting.saved? = none)
    (current : FrameId) : home current top = current := by
  induction top with
  | nil => rfl
  | cons waiting top ih =>
    obtain ⟨first, others⟩ := List.forall_mem_cons.mp unsaved
    rw [home_cons, first]
    exact ih others

namespace Turn

variable {p : Program} {s s' : Turn} {nodes : List NodeId} {stack left : List Pending}

/-- The whole stack, or what is under the top of it, when that is taken to be handed something. What is taken
saves no frame. -/
def Under (s : Turn) (stack : List Pending) : Prop :=
  stack = s.stack ∨ ∃ waiting, s.stack = waiting :: stack ∧ waiting.saved? = none ∧ s.control.Hands

theorem Source.under (source : Source p s nodes stack) {n : NodeId} (member : n ∈ nodes) : s.Under stack := by
  cases source with
  | control => exact .inl rfl
  | pending v waiting stack gives waits =>
    exact .inr ⟨waiting, waits, Pending.saved?_of_mem_nodes member, gives ▸ trivial⟩

theorem Runs.under (runs : Runs p s nodes stack) : s.Under stack := by
  cases runs with
  | root => exact .inl rfl
  | rest v statements stack gives waits => exact .inr ⟨_, waits, rfl, gives ▸ trivial⟩

/-- What a step does with the stack. At most one pending is taken, to be handed something, others are left in
its place, and what is below stays and is gone on with in the same frame. -/
structure Exchange (p : Program) (s s' : Turn) (taken : Option Pending) (left below : List Pending) : Prop where
  before : s.stack = taken.toList ++ below
  after : s'.stack = left ++ below
  home : Strand.home s'.env.current left = Strand.home s.env.current taken.toList
  hands : ∀ waiting ∈ taken, s.control.Hands
  /-- What will bind a name is left by the node that says so. -/
  leftBy : ∀ waiting ∈ left, ∀ n name, waiting.Stores n name → waiting.LeftBy p s.control

/-- A step that stays in its frame. -/
theorem Under.exchange (under : s.Under stack) (left : List Pending) (env : s'.env = s.env)
    (after : s'.stack = left ++ stack) (unsaved : ∀ waiting ∈ left, waiting.saved? = none)
    (leftBy : ∀ waiting ∈ left, ∀ n name, waiting.Stores n name → waiting.LeftBy p s.control) :
    ∃ taken left below, Exchange p s s' taken left below := by
  have home : Strand.home s'.env.current left = s.env.current := by rw [env, home_of_unsaved unsaved]
  obtain rfl | ⟨waiting, waits, unsaved, hands⟩ := under
  · exact ⟨none, left, s.stack, rfl, after, home, nofun, leftBy⟩
  · refine ⟨some waiting, left, stack, waits, after, ?_, fun _ _ => hands, leftBy⟩
    rw [home, home_of_unsaved (by simp [unsaved])]

theorem Course.exists_exchange (course : Course p s s') :
    ∃ taken left below, Exchange p s s' taken left below := by
  -- the steps that leave nothing behind, and stay in their frame
  have none_left : s'.env = s.env → s.Under s'.stack → ∃ taken left below, Exchange p s s' taken left below :=
    fun env under => under.exchange [] env rfl nofun nofun
  cases course with
  | still same => exact none_left (same ▸ rfl) (.inl (same ▸ rfl))
  | idle frames env stack control => exact none_left env stack
  | back saved waiting frames env stack saves control hands =>
    refine ⟨some waiting, [], s'.stack, stack, rfl, ?_, fun _ _ => hands, nofun⟩
    rw [env]
    simp [saves, Env.restore]
  | watch waiting target id name scope f frames env stack saves refers here found control hands =>
    exact none_left env (.inr ⟨waiting, stack, saves, hands⟩)
  | store v waiting n name scope f gives stack stores here found env frames control =>
    exact none_left env (.inr ⟨waiting, stack, stores.saved?, gives ▸ trivial⟩)
  | part nodes stack n left source member frames env control leaves leftBy others =>
    refine (source.under member).exchange left.toList env leaves ?_ ?_
    · exact fun waiting new => (leftBy waiting (Option.mem_toList.mp new)).saved?
    · exact fun waiting new _ _ _ => leftBy waiting (Option.mem_toList.mp new)
  | run n rest stack runs frames env control leaves =>
    refine runs.under.exchange [.statements rest] env leaves ?_ ?_
    · exact List.forall_mem_singleton.mpr rfl
    · exact List.forall_mem_singleton.mpr nofun
  | block n statements scope evaluates kind here current frames begins =>
    -- the frame of a block is left again for the one before it
    cases statements with
    | nil =>
      refine ⟨none, [.leaveBlock s.env.current], s.stack, rfl, begins.2, rfl, nofun, ?_⟩
      exact List.forall_mem_singleton.mpr nofun
    | cons first rest =>
      refine ⟨none, [.statements rest, .leaveBlock s.env.current], s.stack, rfl, begins.2, rfl, nofun, ?_⟩
      exact List.forall_mem_cons.mpr ⟨nofun, List.forall_mem_singleton.mpr nofun⟩
  | call span function arguments name parameters body scope bindings invokes kind opens bound current frames
      control stack =>
    -- so is the frame of a call, wherever it was put
    refine ⟨none, [.leaveCall s.env.current], s.stack, rfl, stack, rfl, nofun, ?_⟩
    exact List.forall_mem_singleton.mpr nofun
  | launch n call evaluates kind frames env control stack => exact none_left env (.inl stack)
  | launchDecl n declaration initializer name scope f evaluates kind declares here found frames env control
      stack => exact none_left env (.inl stack)
  | take lock takes frames env stack =>
    refine Under.exchange (.inl rfl) [.unlock lock] env stack ?_ ?_
    · exact List.forall_mem_singleton.mpr rfl
    · exact List.forall_mem_singleton.mpr nofun

end Turn

end Strand
