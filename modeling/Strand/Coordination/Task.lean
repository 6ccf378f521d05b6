import Strand.Fault

/-!
# Tasks and threads

A task is numbered when it is launched. The main program and the tasks are the threads that can hold
locks.
-/

set_option autoImplicit false

namespace Strand

/-- The number of a task, counted from zero in the order of launching. -/
structure TaskId where
  index : Nat
deriving DecidableEq, Inhabited, Repr

/-- The number after a mark, as in `task#3`. -/
def TaskId.text (t : TaskId) : String := s!"task#{t.index}"

/-- Who evaluates: the main program, or a task. -/
inductive ThreadId where
  | main
  | task (id : TaskId)
deriving DecidableEq, Inhabited, Repr

/-- A task that ended with a fault. -/
structure TaskFailure where
  task : TaskId
  fault : Fault
deriving DecidableEq, Inhabited, Repr

/-- The count of the tasks that have not ended, and what is known of those that failed. -/
structure Ledger where
  /-- The number of the next task. -/
  nextTask : Nat
  /-- The tasks that were launched and have not ended. -/
  pending : Nat
  /-- The failures that nobody has taken yet, in the order of their recording. -/
  failures : Array TaskFailure
  /-- Set when a drain has finished. -/
  closed : Bool
deriving Inhabited

namespace Ledger

def new : Ledger := ⟨0, 0, #[], false⟩

/-- Numbers a task and counts it, before it can run. -/
def register (l : Ledger) : TaskId × Ledger :=
  (⟨l.nextTask⟩, { l with nextTask := l.nextTask + 1, pending := l.pending + 1 })

def recordFailure (l : Ledger) (task : TaskId) (fault : Fault) : Ledger :=
  { l with failures := l.failures.push ⟨task, fault⟩ }

/-- A task has ended. -/
def release (l : Ledger) : Ledger := { l with pending := l.pending - 1 }

def close (l : Ledger) : Ledger := { l with closed := true }

/-- The failures since the last time they were taken. -/
def takeFailures (l : Ledger) : List TaskFailure × Ledger :=
  (l.failures.toList, { l with failures := #[] })

end Ledger

/-- What a drain found: every task has ended, or some have not and the time is over. -/
inductive DrainStatus where
  | complete
  | incomplete (pending : Nat)
deriving DecidableEq, Inhabited, Repr

def DrainStatus.isComplete : DrainStatus → Bool
  | complete => true
  | incomplete _ => false

end Strand
