import Strand.Coordination.Task

/-!
# Printed output

Every thread of a run prints to one output. A line is written in four steps, which `println` does at
once: take the output, append the text, append the line break, give the output back. A thread that
finds the output taken has to wait, so no line is split by another.
-/

set_option autoImplicit false

namespace Strand

/-- Where printed lines go. -/
inductive Printer where
  /-- To standard output. -/
  | stdout
  /-- Into a text that can be read and cleared. -/
  | buffer
  /-- Nowhere. -/
  | silent
deriving DecidableEq, Inhabited, Repr

/-- The lines printed so far, and the thread that is writing one. -/
structure Output where
  printer : Printer
  text : String
  holder : Option ThreadId
deriving Inhabited

namespace Output

def new (printer : Printer) : Output := ⟨printer, "", none⟩

/-- A silent printer writes nothing and so never takes the output. -/
def isSilent (o : Output) : Bool := o.printer = .silent

/-- Whether nobody is writing a line. -/
def available (o : Output) : Bool := o.holder.isNone

def acquire (o : Output) (who : ThreadId) : Output := { o with holder := some who }

def append (o : Output) (text : String) : Output := { o with text := o.text ++ text }

def release (o : Output) : Output := { o with holder := none }

/-- Writes a line in one go. -/
def println (o : Output) (line : String) : Output :=
  if o.isSilent then o else (o.append line).append "\n"

/-- A line that is written in its four steps is written as in one go. -/
theorem println_eq_steps (o : Output) (who : ThreadId) (line : String) (loud : o.isSilent = false)
    (free : o.available = true) :
    ((((o.acquire who).append line).append "\n").release) = o.println line := by
  obtain ⟨printer, text, holder⟩ := o
  obtain rfl : holder = none := by simpa [available] using free
  simp [println, loud, acquire, append, release]

/-- What can be read back: the text of a buffer, and nothing of the other printers. -/
def captured (o : Output) : String :=
  match o.printer with
  | .buffer => o.text
  | .stdout | .silent => ""

/-- The lines that can be read back. A line ends with its break, which may have a carriage return
before it. -/
def lines (o : Output) : List String :=
  let parts := o.captured.splitOn "\n"
  let parts := if parts.getLast? == some "" then parts.dropLast else parts
  parts.map fun line => if line.endsWith "\r" then (line.dropEnd 1).toString else line

/-- The lines that can be read back, in the order of their characters' code points. -/
def sortedLines (o : Output) : List String := o.lines.mergeSort fun a b => !(b < a)

/-- Forgets the lines of a buffer. -/
def clear (o : Output) : Output :=
  match o.printer with
  | .buffer => { o with text := "" }
  | .stdout | .silent => o

end Output

end Strand
