import Strand.Machine.Pool

/-!
# Sessions

A session is a program with a pool and a configuration, driven from outside: the host evaluates nodes
on the main thread one after the other, drains the tasks, and reads what the run has left behind.
Evaluation goes on after a fault.

A run of a whole program is the shortest session: bind the constants, evaluate the root, drain, take
the failures.
-/

set_option autoImplicit false

namespace Strand

/-- A program that is being run. -/
structure Session where
  program : Program
  config : RunConfig
  pool : Pool
deriving Inhabited

/-- What a run gives back when the main program has not failed. -/
structure Report where
  value : Value
  drain : DrainStatus
  failures : List TaskFailure
deriving Inhabited

/-- How a run ends. -/
inductive Ending where
  | report (r : Report)
  /-- The main program failed. -/
  | fault (f : Fault)
  | crash (message : String)
  /-- The main program, or the drain after it, waits for something that does not happen. -/
  | never
deriving Inhabited

namespace Session

/-- A session that stands in a root frame without bindings. -/
def start (program : Program) (config : RunConfig) : Session :=
  let world := World.new config.printer
  let (env, frames) := Env.new world.frames program.attrs.rootScope
  { program, config,
    pool := .new ⟨{ world with frames }, .start env (.give .void), #[]⟩ }

/-! ## The world -/

def world (s : Session) : World := s.pool.machine.world

/-- Where the main thread stands. -/
def env (s : Session) : Env := s.pool.machine.main.env

/-- Changes the world. -/
def mapWorld (f : World → World) (s : Session) : Session :=
  { s with pool.machine.world := f s.pool.machine.world }

def setFrames (frames : Frames) (s : Session) : Session := s.mapWorld fun w => { w with frames }

def setHeap (heap : Heap) (s : Session) : Session := s.mapWorld fun w => { w with heap }

def setLocks (locks : Locks) (s : Session) : Session := s.mapWorld fun w => { w with locks }

/-- Interns a text into the program's interner. -/
def intern (s : Session) (text : String) : Name × Session :=
  let (name, program) := s.program.intern text
  (name, { s with program })

/-- Puts values on the heap, a new array for every row. -/
def place (s : Session) (nest : Nest) : Value × Session :=
  let (v, heap) := s.world.heap.place nest
  (v, s.setHeap heap)

/-- Puts an instance of a struct on the heap. -/
def newRecord (s : Session) (r : Record) : Value × Session :=
  let (r, heap) := s.world.heap.newRecord r
  (.struct r, s.setHeap heap)

/-- The lock of a site. -/
def lockFor (s : Session) (site : NodeId) : LockId × Session :=
  let (lock, locks) := s.world.locks.lockFor site
  (lock, s.setLocks locks)

/-- Moves the main thread. -/
def setEnv (env : Env) (s : Session) : Session := { s with pool.machine.main.env := env }

/-- Binds a name in a frame. -/
def define (s : Session) (f : FrameId) (name : Name) (v : Value) : Session :=
  s.mapWorld fun w => { w with frames := w.frames.define f name v }

/-- Binds the constants, as far as the program mentions them, in the root frame. -/
def bindConstants (s : Session) : Session :=
  [("true", Value.bool true), ("false", .bool false), ("null", .null)].foldl
    (fun s (text, v) =>
      match s.program.interner.find? text with
      | some name => s.define s.env.root name v
      | none => s) s

/-- Enters a new frame inside the given one. -/
def enterUnder (s : Session) (scope : ScopeId) (parent : FrameId) : Session :=
  let (env, frames) := s.env.pushUnder s.world.frames scope parent
  (s.setFrames frames).setEnv env

/-- Enters a new frame inside the current one. -/
def enter (s : Session) (scope : ScopeId) : Session := s.enterUnder scope s.env.current

/-- Goes back to a frame. -/
def leave (s : Session) (saved : FrameId) : Session := s.setEnv (s.env.restore saved)

/-! ## Evaluation -/

/-- Rounds without end, for all that matters. -/
def patience : Nat := 1000000000

def mainIsOver (pool : Pool) : Bool := pool.machine.main.outcome?.isSome

def noneIsPending (pool : Pool) : Bool := pool.machine.world.ledger.pending == 0

/-- Lets everyone take turns until the pool is as wanted. -/
def runUntil (s : Session) (goal : Pool → Bool) : Session :=
  match s with
  | ⟨program, config, pool⟩ =>
    ⟨program, config, pool.runUntil program config.workers goal patience⟩

/-- Starts the main thread on something. -/
def setMain (s : Session) (control : Control) (stack : List Pending) : Session :=
  { s with pool.machine.main := ⟨s.env, control, stack⟩ }

/-- The outcome of the main thread, which has one when it is over. A thread that can never go on has
none. -/
def perform (s : Session) (control : Control) (stack : List Pending) : Option Outcome × Session :=
  let s := (s.setMain control stack).runUntil mainIsOver
  (s.pool.machine.main.outcome?, s)

/-- Evaluates a node. -/
def eval (s : Session) (node : NodeId) : Option Outcome × Session := s.perform (.eval node) []

/-- Calls a function from outside, on behalf of no node. -/
def call (s : Session) (function : NodeId) (arguments : List Value) : Option Outcome × Session :=
  s.perform (.invoke none function arguments) []

/-- Evaluates a root node. Its statements run in the current frame; a return ends them with its
value, and without one they give nothing. -/
def evalRoot (s : Session) (root : NodeId) : Option Outcome × Session :=
  match s.program.kind root with
  | .error read => (some (.exit (.crash read.message)), s)
  | .ok (.root statements) =>
    let (outcome, s) := s.perform (.give .void) [.statements statements]
    (outcome.map fun
      | .value _ => .value .void
      | .exit (.ret v) => .value v
      | outcome => outcome, s)
  | .ok _ => (some (.exit (.fault (.ofCause (.typeMismatch "program root" "statement")))), s)

/-! ## Tasks -/

/-- Launches a task from outside. -/
def submit (s : Session) (job : Control) : TaskId × Session :=
  match s with
  | ⟨program, config, pool⟩ =>
    let (id, machine) := pool.machine.submit pool.machine.main.env job
    (id, ⟨program, config, { pool with machine }⟩)

/-- Waits until no task is pending. -/
def settle (s : Session) : Session := s.runUntil noneIsPending

/-- The steps that fit into a millisecond. -/
def stepsPerMillisecond : Nat := 50000

/-- The steps that a drain with a timeout grants to tasks that still move, all of them together. Tasks
that take more are taken to go on forever. -/
def drainWork : Nat := 80000000

/-- Whether the time of a drain, which began with the pool `start`, is over. -/
def isLate (timeout : Option Duration) (start : Pool) : Pool → Bool :=
  match timeout with
  | none => fun _ => false
  | some limit =>
    let clock := start.clock + limit.milliseconds * stepsPerMillisecond
    let work := start.work + drainWork
    fun pool => clock ≤ pool.clock || work ≤ pool.work

/-- From here on nobody waits for a variable. -/
def close (s : Session) : Session := s.mapWorld fun w => { w with ledger := w.ledger.close }

/-- Waits until no task is pending, or until the time is over if there is a timeout, and closes the
run. Without a timeout the drain of a task that never ends has no status: it does not come back. -/
def drain (s : Session) : Option DrainStatus × Session :=
  let late := isLate s.config.drainTimeout s.pool
  let s := s.runUntil fun pool => noneIsPending pool || late pool
  let pending := s.world.ledger.pending
  if pending = 0 then (some .complete, s.close)
  else if s.config.drainTimeout.isSome then (some (.incomplete pending), s.close)
  else (none, s)

/-- The failures since the last time they were taken. -/
def takeFailures (s : Session) : List TaskFailure × Session :=
  let (failures, ledger) := s.world.ledger.takeFailures
  (failures, s.mapWorld fun w => { w with ledger })

/-- Drains a run whose main program is over, and reports. -/
def conclude (s : Session) (ending : DrainStatus → List TaskFailure → Ending) : Ending × Session :=
  match s.drain with
  | (none, s) => (.never, s)
  | (some status, s) =>
    let (failures, s) := s.takeFailures
    (ending status failures, s)

/-- Runs a program to its end. The tasks are drained whether the main program has failed or not; its
fault is given after that, in place of a report. -/
def run (program : Program) (config : RunConfig) : Ending × Session :=
  let (outcome, s) := (start program config).bindConstants.evalRoot program.root
  match outcome with
  | some (.value v) | some (.exit (.ret v)) => s.conclude fun status failures => .report ⟨v, status, failures⟩
  | some (.exit (.fault f)) => s.conclude fun _ _ => .fault f
  | some (.exit (.crash message)) => (.crash message, s)
  | none => (.never, s)

/-- The coordinator's part of a session, for diagnostics. -/
def describe (s : Session) : String :=
  let closed := if s.world.ledger.closed then "true" else "false"
  "Coordinator \x7b config: " ++ s.config.describe ++
    ", pending: " ++ toString s.world.ledger.pending ++
    ", protect_sites: " ++ toString s.world.locks.siteCount ++
    ", closed: " ++ closed ++ ", .. \x7d"

end Session

end Strand
