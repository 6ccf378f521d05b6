import Strand.Coordination.Config
import Strand.Coordination.Lock
import Strand.Frame
import Strand.Heap

/-!
# Threads

A thread evaluates nodes. Its state is first-order data: where it stands among the frames, what it
does next (`Control`), and what waits for the result (`Pending`, innermost first). A thread that has
a result, and for which nothing waits, is over.

An evaluation ends with a value or by an exit: an early return, a fault, or a crash. An exit unwinds
what waits; on the way out frames are left and locks are released.

Everything that threads share is in the `World`. A thread that moves has the world to itself for the
step: the two together are a `Turn`.
-/

set_option autoImplicit false

namespace Strand

/-- How an evaluation ends without a value of its own. -/
inductive Exit where
  /-- An early return, on its way to the call that it leaves. -/
  | ret (v : Value)
  | fault (f : Fault)
  /-- An error outside the language, which ends the thread. -/
  | crash (message : String)
deriving Inhabited

/-- How an evaluation ends. -/
inductive Outcome where
  | value (v : Value)
  | exit (e : Exit)
deriving Inhabited

/-- What a thread does next. -/
inductive Control where
  | eval (node : NodeId)
  /-- Hand a value to what waits for it. -/
  | give (v : Value)
  /-- Unwind what waits. -/
  | leave (e : Exit)
  /-- Call a function, on behalf of the node with that span. -/
  | invoke (span : Option Span) (function : NodeId) (arguments : List Value)
  /-- Look up the lock of a protected block. -/
  | findSite (site block : NodeId)
  /-- The lookup missed: look again, and make the lock if it is still missing. -/
  | addSite (site block : NodeId)
  /-- Take the lock of a protected block, then evaluate the block. -/
  | enterSite (site : NodeId) (lock : LockId) (block : NodeId)
  /-- Take a lock that belongs to no site, then go on with the lock held. -/
  | acquire (lock : LockId) (inside : Control)
  /-- Launch tasks that start with the given controls. -/
  | submit (jobs : List Control)
  /-- Wait until a variable of a frame is set; the node gives a fault its place. -/
  | await (node : NodeId) (frame : FrameId) (name : Name)
  /-- Take the output to print a line. -/
  | startLine (text : String)
  | writeText (text : String)
  | writeBreak (text : String)
  | endLine (text : String)
  /-- An operation that never ends. -/
  | spin
deriving Inhabited

/-- What waits for the outcome of an evaluation. The node that waits comes first. -/
inductive Pending where
  | element (node : NodeId) (done : List Value) (rest : List NodeId)
  | accessedArray (node index : NodeId)
  | accessIndex (node : NodeId) (array : ArrayId)
  | readStem (node : NodeId) (field : Name)
  | callee (node : NodeId) (arguments : List NodeId)
  | argument (node : NodeId) (callee : Value) (first : Option NodeId) (done : List Value)
      (rest : List NodeId)
  | negated (node : NodeId)
  | shortCircuit (node : NodeId) (op : BinaryOp) (right : NodeId)
  | truth (node : NodeId)
  | leftOperand (node : NodeId) (op : BinaryOp) (left right : NodeId)
  | rightOperand (node : NodeId) (op : BinaryOp) (left right : NodeId) (l : Value)
  | assignName (node target : NodeId) (name : Name)
  | storeArray (node target index value : NodeId)
  | storeIndex (node target value : NodeId) (array : ArrayId)
  | storeElement (node target : NodeId) (array : ArrayId) (index : Nat)
  | storeStem (node target value : NodeId) (field : Name)
  | storeField (node target : NodeId) (stem : Value) (field : Name)
  /-- The statements that follow. -/
  | statements (rest : List NodeId)
  /-- The value of a statement is dropped. -/
  | dropped
  | branch (node thenBranch : NodeId) (elseBranch : Option NodeId)
  | loopTest (node condition body : NodeId)
  | loopBody (node condition body : NodeId)
  | returned
  | declaration (node : NodeId) (name : Name)
  /-- Leave a block's frame for the one before it. -/
  | leaveBlock (saved : FrameId)
  /-- Leave a call's frame for the one before it; an early return ends here. -/
  | leaveCall (saved : FrameId)
  /-- Give back the lock of a protected block. -/
  | leaveSite (site : NodeId) (lock : LockId)
  /-- Give back a lock that belongs to no site. -/
  | unlock (lock : LockId)
deriving Inhabited

/-- The state of one evaluation. -/
structure Thread where
  env : Env
  control : Control
  stack : List Pending
deriving Inhabited

namespace Thread

/-- A thread that starts with a control. -/
def start (env : Env) (control : Control) : Thread := ⟨env, control, []⟩

/-- The outcome of a thread that is over. -/
def outcome? (t : Thread) : Option Outcome :=
  match t.control, t.stack with
  | .give v, [] => some (.value v)
  | .leave e, [] => some (.exit e)
  | _, _ => none

/-- The next task that a thread launches, if launching is what it does, and the thread after that. -/
def launch? (t : Thread) : Option (Control × Thread) :=
  match t.control with
  | .submit (job :: jobs) => some (job, { t with control := .submit jobs })
  | _ => none

end Thread

/-- What the threads of a run share. -/
structure World where
  frames : Frames
  heap : Heap
  locks : Locks
  output : Output
  ledger : Ledger
deriving Inhabited

namespace World

/-- The world before a run. -/
def new (printer : Printer) : World := ⟨.empty, .empty, .empty, .new printer, .new⟩

end World

/-- A thread that moves, and the world that it moves in. -/
structure Turn where
  world : World
  env : Env
  control : Control
  stack : List Pending
deriving Inhabited

/-- A thread in a world. -/
def Thread.inside (t : Thread) (w : World) : Turn := ⟨w, t.env, t.control, t.stack⟩

/-- The thread of a turn, without the world. -/
def Turn.thread (s : Turn) : Thread := ⟨s.env, s.control, s.stack⟩

end Strand
