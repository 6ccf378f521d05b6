import Strand.Coordination.Output

/-!
# Run configuration

How many tasks may run at once, how often a waiting thread looks again, how long a drain waits, and
where printed lines go. Times are whole milliseconds.
-/

set_option autoImplicit false

namespace Strand

/-- A time in milliseconds. -/
structure Duration where
  milliseconds : Nat
deriving DecidableEq, Inhabited, Repr

namespace Duration

/-- A number of thousandths after a point, without trailing zeros. -/
def fractionText (thousandths : Nat) : String :=
  if thousandths == 0 then ""
  else if thousandths % 100 == 0 then s!".{thousandths / 100}"
  else
    let digits := if thousandths % 10 == 0 then thousandths / 10 else thousandths
    let width := if thousandths % 10 == 0 then 2 else 3
    let text := toString digits
    "." ++ String.ofList (List.replicate (width - text.length) '0') ++ text

/-- A time in the largest unit that it fills: `0ns`, `20ms`, `1s`, `1.5s`. -/
def describe (d : Duration) : String :=
  if d.milliseconds == 0 then "0ns"
  else if d.milliseconds < 1000 then s!"{d.milliseconds}ms"
  else
    let fraction := fractionText (d.milliseconds % 1000)
    s!"{d.milliseconds / 1000}{fraction}s"

end Duration

/-- The options of a run. -/
structure RunConfig where
  /-- The number of workers; without one the host chooses. -/
  poolSize : Option Nat
  waitPoll : Duration
  drainPoll : Duration
  /-- Without a timeout a drain waits until every task has ended. -/
  drainTimeout : Option Duration
  printer : Printer
deriving Inhabited

namespace RunConfig

/-- The options of a run that sets none. -/
def default : RunConfig := ⟨none, ⟨20⟩, ⟨1000⟩, none, .stdout⟩

/-- The workers of a host that was not told how many to use. -/
def hostWorkers : Nat := 4

/-- The number of tasks that may run at once; never none. -/
def workers (c : RunConfig) : Nat := max 1 (c.poolSize.getD hostWorkers)

/-- The fields of the configuration, for diagnostics. -/
def describe (c : RunConfig) : String :=
  let timeout :=
    match c.drainTimeout with
    | some d => "Some(" ++ d.describe ++ ")"
    | none => "None"
  "RunConfig \x7b pool_size: " ++ toString (c.poolSize.getD hostWorkers) ++
    ", wait_poll_interval: " ++ c.waitPoll.describe ++
    ", drain_poll_interval: " ++ c.drainPoll.describe ++
    ", drain_timeout: " ++ timeout ++ ", .. \x7d"

end RunConfig

end Strand
