import Strand.Builder.Script
import Strand.Proofs.Reach

/-!
# Printed lines are whole

A line is printed in four steps of a thread: it takes the output, appends the text, appends the line
break and gives the output back. In between the other threads move, and the host may clear a buffer or
read it; for this it has to wait until nobody has the output, as everyone has.

`Transcript` is a run together with what the threads and the host do to the output, in the order in which
they do it. Main statement: whenever nobody is in the middle of a line, a buffer holds the lines for which
the output has been taken since it was last cleared, in that order and each with its break, and every
reading of it shows just that (`Transcript.lines_whole`). What a thread has called for it has printed, in
the order of its calls, but for the one line that it may be waiting with.

The argument needs to know of a thread only how far it is with its line (`Stage`), and of the world only
the output. What a step does to these two is `Stage.Next`, and the invariant `Desk.Orderly` speaks of
nothing else.
-/

set_option autoImplicit false

namespace Strand

/-! ## 1. Stages of a line -/

/-- How far a thread is with a line. -/
inductive Stage where
  | outside
  /-- Waiting for the output. -/
  | waits (line : String)
  /-- The output is taken, and nothing is written yet. -/
  | holds (line : String)
  /-- The text is written, and the break is not. -/
  | wrote (line : String)
  /-- All is written, and the output has still to be given back. -/
  | whole (line : String)
deriving DecidableEq

namespace Stage

/-- The line that a thread is in the middle of. -/
def line? : Stage → Option String
  | outside | waits _ => none
  | holds line | wrote line | whole line => some line

/-- The line that a thread waits with. -/
def wanted? : Stage → Option String
  | waits line => some line
  | _ => none

/-- What is written of the line that a thread is in the middle of. -/
def written : Stage → String
  | outside | waits _ | holds _ => ""
  | wrote line => line
  | whole line => line ++ "\n"

/-- Everything that a step of a thread can do to the output, with the stages of the thread. -/
inductive Next (who : ThreadId) : Stage → Output → Stage → Output → Prop
  | still (stage : Stage) (o : Output) : Next who stage o stage o
  | call (line : String) (o : Output) : Next who outside o (waits line) o
  | take (line : String) (o : Output) (free : o.available = true) :
      Next who (waits line) o (holds line) (o.acquire who)
  | text (line : String) (o : Output) : Next who (holds line) o (wrote line) (o.append line)
  | lineBreak (line : String) (o : Output) : Next who (wrote line) o (whole line) (o.append "\n")
  | give (line : String) (o : Output) : Next who (whole line) o outside o.release

end Stage

def Control.stage : Control → Stage
  | startLine line => .waits line
  | writeText line => .holds line
  | writeBreak line => .wrote line
  | endLine line => .whole line
  | _ => .outside

/-! ## 2. Steps that print nothing -/

namespace Turn

/-- From `s` to `s'` nothing is printed, and the thread is not in the middle of a line. -/
structure Mute (s s' : Turn) : Prop where
  output : s'.world.output = s.world.output
  apart : s'.control.stage.line? = none

variable {p : Program} {s s' : Turn}

theorem Mute.ofGive (v : Value) : Mute s (s.give v) := ⟨rfl, rfl⟩

theorem Mute.ofLeave (e : Exit) : Mute s (s.leave e) := ⟨rfl, rfl⟩

theorem Mute.ofAwait (node : NodeId) (waiting : Pending) : Mute s (s.await node waiting) := ⟨rfl, rfl⟩

theorem Mute.ofRaise (node : NodeId) (cause : Cause) : Mute s (s.raise p node cause) := ⟨rfl, rfl⟩

theorem Mute.ofAbort (node : NodeId) (a : Abort) : Mute s (s.abort p node a) := by
  cases a <;> exact ⟨rfl, rfl⟩

theorem Mute.ofOrAbort {α : Type} {node : NodeId} {result : Except Abort α} {next : α → Turn}
    (goesOn : ∀ a, Mute s (next a)) : Mute s (s.orAbort p node result next) := by
  cases result with
  | ok a => exact goesOn a
  | error e => exact .ofAbort node e

theorem Mute.ofOrFault {α : Type} {node : NodeId} {result : Except Cause α} {next : α → Turn}
    (goesOn : ∀ a, Mute s (next a)) : Mute s (s.orFault p node result next) := by
  cases result with
  | ok a => exact goesOn a
  | error cause => exact .ofRaise node cause

theorem Mute.ofNest (node : NodeId) (result : Except Abort Nest) :
    Mute s (s.ofNest p node result) := by
  cases result with
  | error e => exact .ofAbort node e
  | ok nest => cases nest <;> exact ⟨rfl, rfl⟩

theorem Mute.ofStatements (statements : List NodeId) : Mute s (s.runStatements statements) := by
  cases statements <;> exact ⟨rfl, rfl⟩

theorem mute_enter (id : NodeId) (kind : NodeKind) : Mute s (enter p s id kind) := by
  cases kind with
  | reference name => exact .ofOrAbort fun v => .ofGive v
  | constructor reference =>
    simp only [enter]
    split <;> exact ⟨rfl, rfl⟩
  | arrayLiteral elements => cases elements <;> exact ⟨rfl, rfl⟩
  | binary op left right =>
    simp only [enter]
    split <;> exact .ofAwait ..
  | assignment target value =>
    refine .ofOrAbort fun kind => ?_
    cases kind <;> exact ⟨rfl, rfl⟩
  | root statements => exact .ofStatements statements
  | block statements =>
    refine .ofOrFault fun scope => ?_
    cases statements <;> exact ⟨rfl, rfl⟩
  | ret value => cases value <;> exact ⟨rfl, rfl⟩
  | launchDecl declaration =>
    refine .ofOrAbort fun kind => ?_
    cases kind with
    | varDecl name initializer => exact .ofOrFault fun scope => .ofOrFault fun f => ⟨rfl, rfl⟩
    | _ => exact .ofRaise ..
  | _ => exact ⟨rfl, rfl⟩

theorem mute_callBuiltin (id : NodeId) (name : String) (first : Option NodeId)
    (values : List Value) : Mute s (callBuiltin p s id name first values) := by
  simp only [callBuiltin]
  split
  · split
    · refine .ofOrAbort fun text => ?_
      split <;> exact ⟨rfl, rfl⟩
    · exact .ofRaise ..
  · split
    · split
      · exact .ofOrAbort fun _ => ⟨rfl, rfl⟩
      · exact .ofRaise ..
    · exact .ofRaise ..

theorem mute_apply (id : NodeId) (callee : Value) (first : Option NodeId) (values : List Value) :
    Mute s (apply p s id callee first values) := by
  simp only [apply]
  split
  · exact mute_callBuiltin ..
  · exact ⟨rfl, rfl⟩
  · exact .ofOrAbort fun record => ⟨rfl, rfl⟩
  · exact .ofRaise ..
  · exact .ofRaise ..

theorem mute_invoke (span : Option Span) (function : NodeId) (arguments : List Value) :
    Mute s (invoke p s span function arguments) := by
  simp only [invoke]
  split
  · exact .ofLeave _
  · split
    · exact .ofLeave _
    · split
      · exact .ofLeave _
      · split <;> exact ⟨rfl, rfl⟩
  · exact .ofLeave _

theorem mute_resume (v : Value) (waiting : Pending) : Mute s (resume p s v waiting) := by
  cases waiting with
  | element id done rest => cases rest <;> exact ⟨rfl, rfl⟩
  | accessedArray id index => exact .ofOrFault fun a => .ofAwait ..
  | accessIndex id a =>
    refine .ofOrFault fun i => ?_
    split <;> exact ⟨rfl, rfl⟩
  | readStem id field => exact .ofOrFault fun v => .ofGive v
  | callee id arguments =>
    cases arguments with
    | nil => exact mute_apply ..
    | cons first rest => exact .ofAwait ..
  | argument id callee first done rest =>
    cases rest with
    | nil => exact mute_apply ..
    | cons next rest => exact .ofAwait ..
  | negated id | truth id => exact .ofOrFault fun b => .ofGive _
  | shortCircuit id op right =>
    refine .ofOrFault fun b => ?_
    split <;> exact ⟨rfl, rfl⟩
  | rightOperand id op left right l =>
    simp only [resume]
    split <;> exact .ofNest ..
  | assignName id target name | declaration id name =>
    exact .ofOrFault fun scope => .ofOrFault fun f => ⟨rfl, rfl⟩
  | storeArray id target index value => exact .ofOrFault fun a => .ofAwait ..
  | storeIndex id target value a => exact .ofOrFault fun i => .ofAwait ..
  | storeElement id target a i =>
    simp only [resume]
    split <;> exact ⟨rfl, rfl⟩
  | storeField id target stem field =>
    simp only [resume]
    split
    · exact .ofRaise ..
    · split <;> exact ⟨rfl, rfl⟩
    · exact .ofRaise ..
  | statements rest => exact .ofStatements rest
  | branch id thenBranch elseBranch =>
    refine .ofOrFault fun b => ?_
    split
    · exact .ofAwait ..
    · cases elseBranch <;> exact ⟨rfl, rfl⟩
  | loopTest id condition body =>
    refine .ofOrFault fun b => ?_
    split <;> exact ⟨rfl, rfl⟩
  | _ => exact ⟨rfl, rfl⟩

theorem mute_unwind (e : Exit) (waiting : Pending) : Mute s (unwind s e waiting) := by
  cases waiting with
  | leaveCall saved => cases e <;> exact ⟨rfl, rfl⟩
  | _ => exact ⟨rfl, rfl⟩

/-- A thread that is outside of a line may call for one, and that is all that the output sees of it. -/
theorem Mute.next (mute : Mute s s') {who : ThreadId} (outside : s.control.stage = .outside) :
    Stage.Next who s.control.stage s.world.output s'.control.stage s'.world.output := by
  obtain ⟨output, apart⟩ := mute
  rw [outside, output]
  cases after : s'.control.stage with
  | outside => exact .still ..
  | waits line => exact .call ..
  | holds | wrote | whole => rw [after] at apart; cases apart

/-- What a step does to the output. -/
theorem stage_step (p : Program) (who : ThreadId) (s : Turn) (simple : s.control.FromProgram) :
    Stage.Next who s.control.stage s.world.output (s.step p who).control.stage
      (s.step p who).world.output := by
  obtain ⟨world, env, control, stack⟩ := s
  cases control with
  | eval id =>
    refine Mute.next ?_ rfl
    simp only [step]
    split
    · exact mute_enter ..
    · exact .ofLeave _
  | give v =>
    cases stack with
    | nil => exact .still ..
    | cons waiting stack =>
      have mute : Mute ⟨world, env, .give v, stack⟩ (resume p ⟨world, env, .give v, stack⟩ v waiting) :=
        mute_resume v waiting
      exact mute.next rfl
  | leave e =>
    cases stack with
    | nil => exact .still ..
    | cons waiting stack =>
      have mute : Mute ⟨world, env, .leave e, stack⟩ (unwind ⟨world, env, .leave e, stack⟩ e waiting) :=
        mute_unwind e waiting
      exact mute.next rfl
  | invoke span function arguments => exact (mute_invoke span function arguments).next rfl
  | findSite site block =>
    simp only [step]
    split <;> exact .still ..
  | addSite site block => exact .still ..
  | enterSite site lock block =>
    simp only [step]
    split <;> exact .still ..
  | acquire lock inside => exact simple.elim
  | submit jobs => cases jobs <;> exact .still ..
  | await id f name =>
    simp only [step]
    split
    · exact .still ..
    · split <;> exact .still ..
  | startLine line =>
    simp only [step]
    split
    · next free => exact .take line _ free
    · exact .still ..
  | writeText line => exact .text ..
  | writeBreak line => exact .lineBreak ..
  | endLine line => exact .give ..
  | spin => exact .still ..

end Turn

/-! ## 3. What happens to the output -/

/-- A line, and the thread that prints it. -/
structure Line where
  who : ThreadId
  text : String
deriving DecidableEq

/-- The text of some lines, each with its break. -/
def Line.textOf (lines : List Line) : String := String.join (lines.map fun line => line.text ++ "\n")

theorem Line.textOf_concat (lines : List Line) (line : Line) :
    Line.textOf (lines ++ [line]) = Line.textOf lines ++ (line.text ++ "\n") := by
  simp [Line.textOf, String.join]

/-- What someone does to the output. -/
inductive Mark where
  /-- A thread calls for a line. -/
  | called (line : Line)
  /-- A thread takes the output to print a line. -/
  | taken (line : Line)
  /-- The host clears the buffer. -/
  | cleared
  /-- The host reads the buffer. -/
  | read (text : String)
deriving DecidableEq

namespace Mark

def called? : Mark → Option Line
  | called line => some line
  | _ => none

def taken? : Mark → Option Line
  | taken line => some line
  | _ => none

/-- The mark that a step of a thread leaves, by the stages before and after. -/
def of? (who : ThreadId) : Stage → Stage → Option Mark
  | .outside, .waits text => some (called ⟨who, text⟩)
  | .waits _, .holds text => some (taken ⟨who, text⟩)
  | _, _ => none

theorem of?_self (who : ThreadId) (stage : Stage) : of? who stage stage = none := by
  cases stage <;> rfl

end Mark

/-- The lines that are called for, in the order of the calls; marks stand with the latest first. -/
def calledLines (marks : List Mark) : List Line := marks.reverse.filterMap Mark.called?

/-- The lines for which the output is taken, in this order. -/
def takenLines (marks : List Mark) : List Line := marks.reverse.filterMap Mark.taken?

/-- The marks after the last clearing. -/
def sinceCleared (marks : List Mark) : List Mark := marks.takeWhile fun mark => mark ≠ .cleared

theorem calledLines_cons (mark : Mark) (marks : List Mark) :
    calledLines (mark :: marks) = calledLines marks ++ mark.called?.toList := by
  simp only [calledLines, List.reverse_cons, List.filterMap_append, List.filterMap_cons]
  cases mark.called? <;> rfl

theorem takenLines_cons (mark : Mark) (marks : List Mark) :
    takenLines (mark :: marks) = takenLines marks ++ mark.taken?.toList := by
  simp only [takenLines, List.reverse_cons, List.filterMap_append, List.filterMap_cons]
  cases mark.taken? <;> rfl

theorem takenLines_sinceCleared_cons (mark : Mark) (marks : List Mark) (other : mark ≠ .cleared) :
    takenLines (sinceCleared (mark :: marks)) =
      takenLines (sinceCleared marks) ++ mark.taken?.toList := by
  rw [← takenLines_cons]
  exact congrArg takenLines (List.takeWhile_cons_of_pos (by simpa using other))

/-- A mark that takes nothing and clears nothing leaves the lines of the buffer. -/
theorem takenLines_sinceCleared_of_idle (mark : Mark) (marks : List Mark) (idle : mark.taken? = none)
    (other : mark ≠ .cleared) :
    takenLines (sinceCleared (mark :: marks)) = takenLines (sinceCleared marks) := by
  rw [takenLines_sinceCleared_cons mark marks other, idle]
  exact List.append_nil _

/-! ## 4. The output in order -/

/-- The output holds what was printed since it was cleared: whole lines while it is free, and after them
the beginning of the line of whoever has it. -/
structure Orderly (output : Output) (stage : ThreadId → Stage) (marks : List Mark) : Prop where
  buffered : output.printer = .buffer
  /-- Nobody is in the middle of a line but whoever has the output. -/
  alone : ∀ who text, (stage who).line? = some text → output.holder = some who
  free : output.holder = none → output.text = Line.textOf (takenLines (sinceCleared marks))
  held : ∀ who, output.holder = some who → ∃ text earlier, (stage who).line? = some text ∧
    takenLines (sinceCleared marks) = earlier ++ [⟨who, text⟩] ∧
    output.text = Line.textOf earlier ++ (stage who).written
  reads : ∀ later text earlier, marks = later ++ .read text :: earlier →
    text = Line.textOf (takenLines (sinceCleared earlier))
  calls : ∀ who, (calledLines marks).filter (·.who = who) =
    (takenLines marks).filter (·.who = who) ++ ((stage who).wanted?.map fun text => ⟨who, text⟩).toList

namespace Orderly

variable {output output' : Output} {stage : ThreadId → Stage} {marks : List Mark} {who : ThreadId}

theorem reads_cons (h : Orderly output stage marks) {mark : Mark} (other : ∀ text, mark ≠ .read text)
    {later : List Mark} {text : String} {earlier : List Mark}
    (here : mark :: marks = later ++ .read text :: earlier) :
    text = Line.textOf (takenLines (sinceCleared earlier)) := by
  cases later with
  | nil => exact absurd (List.cons.inj here).1 (other text)
  | cons first later => exact h.reads later text earlier (List.cons.inj here).2

/-- A thread that is in the middle of a line has the output. -/
theorem holder (h : Orderly output stage marks) {text : String}
    (inside : (stage who).line? = some text) : ∃ earlier, output.holder = some who ∧
      takenLines (sinceCleared marks) = earlier ++ [⟨who, text⟩] ∧
      output.text = Line.textOf earlier ++ (stage who).written := by
  have holds := h.alone who text inside
  obtain ⟨text', earlier, inside', lines, soFar⟩ := h.held who holds
  cases inside.symm.trans inside'
  exact ⟨earlier, holds, lines, soFar⟩

theorem available_iff (h : Orderly output stage marks) :
    output.available = true ↔ ∀ who, (stage who).line? = none := by
  constructor
  · intro free who
    by_contra inside
    obtain ⟨text, inside⟩ := Option.ne_none_iff_exists'.mp inside
    cases (Option.isNone_iff_eq_none.mp free).symm.trans (h.alone who text inside)
  · intro idle
    cases holds : output.holder with
    | none => exact Option.isNone_iff_eq_none.mpr holds
    | some who =>
      obtain ⟨text, _, inside, -⟩ := h.held who holds
      cases (idle who).symm.trans inside

theorem captured (h : Orderly output stage marks) (free : output.available = true) :
    output.captured = Line.textOf (takenLines (sinceCleared marks)) := by
  rw [← h.free (Option.isNone_iff_eq_none.mp free)]
  unfold Output.captured
  rw [h.buffered]

theorem call (h : Orderly output stage marks) (line : String) (outside : stage who = .outside) :
    Orderly output (Function.update stage who (.waits line)) (.called ⟨who, line⟩ :: marks) := by
  have since := takenLines_sinceCleared_of_idle (.called ⟨who, line⟩) marks rfl nofun
  refine ⟨h.buffered, fun other text inside => ?_, fun free => since ▸ h.free free, fun other holds => ?_,
    fun _ _ _ => h.reads_cons (by simp), fun other => ?_⟩
  · by_cases same : other = who
    · rw [same, Function.update_self] at inside
      cases inside
    · rw [Function.update_of_ne same] at inside
      exact h.alone other text inside
  · obtain ⟨text, earlier, inside, lines, soFar⟩ := h.held other holds
    have ne : other ≠ who := by
      rintro rfl
      rw [outside] at inside
      cases inside
    rw [Function.update_of_ne ne]
    exact ⟨text, earlier, inside, since.trans lines, soFar⟩
  · rw [calledLines_cons, takenLines_cons, List.filter_append, h.calls other]
    by_cases same : other = who
    · subst same
      simp [outside, Stage.wanted?, Mark.called?, Mark.taken?]
    · simp [same, Ne.symm same, Mark.called?, Mark.taken?]

theorem take (h : Orderly output stage marks) (line : String) (waits : stage who = .waits line)
    (free : output.available = true) :
    Orderly (output.acquire who) (Function.update stage who (.holds line))
      (.taken ⟨who, line⟩ :: marks) := by
  have nobody : output.holder = none := Option.isNone_iff_eq_none.mp free
  have since : takenLines (sinceCleared (.taken ⟨who, line⟩ :: marks)) =
      takenLines (sinceCleared marks) ++ [⟨who, line⟩] :=
    takenLines_sinceCleared_cons _ marks nofun
  refine ⟨h.buffered, fun other text inside => ?_, nofun, fun other holds => ?_,
    fun _ _ _ => h.reads_cons (by simp), fun other => ?_⟩
  · by_cases same : other = who
    · exact congrArg some same.symm
    · rw [Function.update_of_ne same] at inside
      cases nobody.symm.trans (h.alone other text inside)
  · obtain rfl : who = other := Option.some.inj holds
    rw [Function.update_self]
    refine ⟨line, takenLines (sinceCleared marks), rfl, since, ?_⟩
    exact (h.free nobody).trans String.append_empty.symm
  · rw [calledLines_cons, takenLines_cons, List.filter_append, h.calls other]
    by_cases same : other = who
    · subst same
      simp [waits, Stage.wanted?, Mark.called?, Mark.taken?]
    · simp [same, Ne.symm same, Mark.called?, Mark.taken?]

/-- Whoever has the output goes on with its line. -/
theorem write (h : Orderly output stage marks) {after : Stage} {line more : String}
    (inside : (stage who).line? = some line) (goesOn : after.line? = some line)
    (written : after.written = (stage who).written ++ more) :
    Orderly (output.append more) (Function.update stage who after) marks := by
  have unwanted : ∀ {stage : Stage}, stage.line? = some line → stage.wanted? = none := by
    intro stage inside
    cases stage <;> first | rfl | cases inside
  obtain ⟨earlier, holds, lines, soFar⟩ := h.holder inside
  refine ⟨h.buffered, fun other text inside' => ?_, fun free => ?_, fun other holds' => ?_, h.reads,
    fun other => ?_⟩
  · by_cases same : other = who
    · exact same ▸ holds
    · rw [Function.update_of_ne same] at inside'
      exact h.alone other text inside'
  · cases holds.symm.trans free
  · cases holds.symm.trans holds'
    rw [Function.update_self, written]
    exact ⟨line, earlier, goesOn, lines, (congrArg (· ++ more) soFar).trans String.append_assoc⟩
  · rw [h.calls other]
    by_cases same : other = who
    · subst same
      rw [Function.update_self, unwanted inside, unwanted goesOn]
    · rw [Function.update_of_ne same]

theorem give (h : Orderly output stage marks) (line : String) (whole : stage who = .whole line) :
    Orderly output.release (Function.update stage who .outside) marks := by
  obtain ⟨earlier, holds, lines, soFar⟩ := h.holder (congrArg Stage.line? whole)
  refine ⟨h.buffered, fun other text inside => ?_, fun _ => ?_, nofun, h.reads, fun other => ?_⟩
  · by_cases same : other = who
    · rw [same, Function.update_self] at inside
      cases inside
    · rw [Function.update_of_ne same] at inside
      cases holds.symm.trans (h.alone other text inside)
      exact absurd rfl same
  · rw [lines, Line.textOf_concat]
    rw [whole] at soFar
    exact soFar
  · rw [h.calls other]
    by_cases same : other = who
    · subst same
      rw [Function.update_self, whole]
      rfl
    · rw [Function.update_of_ne same]

/-- Whatever a step of a thread does to the output, it remains in order. -/
theorem next (h : Orderly output stage marks) {after : Stage}
    (next : Stage.Next who (stage who) output after output') :
    Orderly output' (Function.update stage who after)
      ((Mark.of? who (stage who) after).toList ++ marks) := by
  generalize at_ : stage who = before at next
  cases next with
  | still =>
    rw [Mark.of?_self, ← at_, Function.update_eq_self]
    exact h
  | call line => exact h.call line at_
  | take line _ free => exact h.take line at_ free
  | text line =>
    refine h.write (congrArg Stage.line? at_) rfl ?_
    rw [at_]
    exact String.empty_append.symm
  | lineBreak line =>
    refine h.write (congrArg Stage.line? at_) rfl ?_
    rw [at_]
    rfl
  | give line => exact h.give line at_

theorem clear (h : Orderly output stage marks) (free : output.available = true) :
    Orderly output.clear stage (.cleared :: marks) := by
  have nobody : output.holder = none := Option.isNone_iff_eq_none.mp free
  have cleared : output.clear = { output with text := "" } := by
    unfold Output.clear
    rw [h.buffered]
  rw [cleared]
  refine ⟨h.buffered, h.alone, fun _ => rfl, fun other holds => ?_, fun _ _ _ => h.reads_cons (by simp),
    fun other => ?_⟩
  · cases nobody.symm.trans holds
  · rw [calledLines_cons, takenLines_cons]
    simpa [Mark.called?, Mark.taken?] using h.calls other

theorem read (h : Orderly output stage marks) (free : output.available = true) :
    Orderly output stage (.read output.captured :: marks) := by
  have since := takenLines_sinceCleared_of_idle (.read output.captured) marks rfl nofun
  refine ⟨h.buffered, h.alone, fun nobody => since ▸ h.free nobody,
    fun other holds => since ▸ h.held other holds, fun later text earlier here => ?_, fun other => ?_⟩
  · cases later with
    | nil =>
      obtain ⟨same, rfl⟩ := List.cons.inj here
      cases same
      exact h.captured free
    | cons first later => exact h.reads later text earlier (List.cons.inj here).2
  · rw [calledLines_cons, takenLines_cons]
    simpa [Mark.called?, Mark.taken?] using h.calls other

end Orderly

/-! ## 5. Machines -/

namespace Machine

variable {p : Program} {m m' : Machine} {seen : Option Sighting} {marks : List Mark}

/-- How far the thread with a number is with a line. -/
def stage (m : Machine) (who : ThreadId) : Stage :=
  ((m.thread? who).map fun t => t.control.stage).getD .outside

theorem stage_of_found {who : ThreadId} {t : Thread} (found : m.thread? who = some t) :
    m.stage who = t.control.stage := by
  rw [stage, found]
  rfl

/-- A change of one thread changes the stage of that one. -/
theorem stage_update {who : ThreadId} {t? : Option Thread}
    (change : m'.thread? = Function.update m.thread? who t?) :
    m'.stage = Function.update m.stage who ((t?.map fun t => t.control.stage).getD .outside) := by
  funext other
  rw [stage, change]
  by_cases same : other = who
  · rw [same, Function.update_self, Function.update_self]
  · rw [Function.update_of_ne same, Function.update_of_ne same]
    rfl

theorem stage_eq_of_update {who : ThreadId} {t? : Option Thread}
    (change : m'.thread? = Function.update m.thread? who t?) (before : m.stage who = .outside)
    (after : ∀ t, t? = some t → t.control.stage = .outside) : m'.stage = m.stage := by
  rw [stage_update change]
  cases t? with
  | none => exact before ▸ Function.update_eq_self who m.stage
  | some t =>
    have outside : ((some t).map fun t => t.control.stage).getD .outside = m.stage who :=
      (after t rfl).trans before.symm
    rw [outside, Function.update_eq_self]

/-- What a step of the machine does to the output: a thread takes a step, or nothing happens to it. -/
theorem Next.stage (next : Next p m seen m') (anchored : m.Anchored p) :
    (∃ who t, seen = some ⟨who, t⟩ ∧ ∃ after,
      Stage.Next who (m.stage who) m.world.output after m'.world.output ∧
      m'.stage = Function.update m.stage who after) ∨
    m'.world.output = m.world.output ∧ m'.stage = m.stage := by
  cases next with
  | idle => exact .inr ⟨rfl, rfl⟩
  | turn who t found silent going =>
    have step := Turn.stage_step p who (t.inside m.world) (anchored.threads who t found).control
    refine .inl ⟨who, t, rfl, _, ?_, stage_update (thread?_afterTurn found _)⟩
    rw [stage_of_found found]
    exact step
  | launch who t rest job found launches =>
    obtain ⟨jobs, submits, rfl⟩ := launch?_eq_some launches
    have output : (m.setThread who { t with control := .submit jobs }).world.output = m.world.output :=
      congrArg World.output (world_setThread m who _)
    refine .inr ⟨output, ?_⟩
    refine stage_eq_of_update ((thread?_submit ..).trans (thread?_setThread found _)) ?_ fun t' same => ?_
    · rw [stage_of_found found, submits]
      rfl
    · cases same
      rfl
  | start id env job found =>
    refine .inr ⟨rfl, stage_eq_of_update (thread?_setTask found _) ?_ fun t' same => ?_⟩
    · rw [stage, thread?_of_found found]
      rfl
    · cases same
      obtain ⟨⟨n, rfl⟩, -⟩ := anchored.jobs id env job found
      rfl
  | finished id t outcome found ended =>
    obtain ⟨task, at_⟩ := thread?_task found
    refine .inr ⟨rfl, stage_eq_of_update (thread?_setTask at_ _) ?_ fun t' same => ?_⟩
    · rw [stage_of_found found]
      obtain ⟨-, ⟨v, control, -⟩ | ⟨e, control, -⟩⟩ := Thread.outcome?_eq_some ended <;> rw [control] <;> rfl
    · rw [thread?_ofOutcome] at same
      cases same
  | record id f found =>
    have outside : m.stage (.task id) = .outside := by
      rw [Machine.stage, thread?_of_found found]
      rfl
    have same : (m.setTask id .ending).stage = m.stage :=
      stage_eq_of_update (thread?_setTask found _) outside nofun
    exact .inr ⟨rfl, same⟩
  | release id found =>
    have outside : m.stage (.task id) = .outside := by
      rw [Machine.stage, thread?_of_found found]
      rfl
    have same : (m.setTask id .ended).stage = m.stage :=
      stage_eq_of_update (thread?_setTask found _) outside nofun
    exact .inr ⟨rfl, same⟩

end Machine

/-! ## 6. Runs -/

/-- Who acts next: a thread or the host as in any run, or the host at the output. -/
inductive Act where
  | move (move : Move)
  | clear
  | read
deriving DecidableEq

/-- A run, and what has happened to its output, the latest first. -/
structure Transcript where
  run : Run
  marks : List Mark

namespace Transcript

variable {p : Program} {c : RunConfig} {t : Transcript}

def output (t : Transcript) : Output := t.run.machine.world.output

def stage (t : Transcript) (who : ThreadId) : Stage := t.run.machine.stage who

/-- The transcript after an act. While a thread has the output, the host cannot get at it. -/
def act (p : Program) (c : RunConfig) (t : Transcript) : Act → Transcript
  | .move first =>
    let run := t.run.move p c first
    let mark := (t.run.mover? first).bind fun seen =>
      Mark.of? seen.who (t.stage seen.who) (run.machine.stage seen.who)
    ⟨run, mark.toList ++ t.marks⟩
  | .clear =>
    if t.output.available then
      ⟨{ t.run with machine.world.output := t.output.clear }, .cleared :: t.marks⟩
    else t
  | .read => if t.output.available then ⟨t.run, .read t.output.captured :: t.marks⟩ else t

/-- The transcript of a run from its beginning. -/
def play (p : Program) (c : RunConfig) (acts : List Act) : Transcript :=
  acts.foldl (act p c) ⟨Run.initial p c, []⟩

/-- What every act keeps. -/
structure Kept (p : Program) (t : Transcript) : Prop where
  numbered : t.run.machine.Numbered
  anchored : t.run.machine.Anchored p
  orderly : Orderly t.output t.stage t.marks

theorem kept_initial (p : Program) (buffered : c.printer = .buffer) :
    Kept p ⟨Run.initial p c, []⟩ := by
  refine ⟨Run.numbered_initial p c, Run.anchored_play p c [], ?_⟩
  obtain ⟨frames, -, begun⟩ := Run.machine_initial p c
  have output : output ⟨Run.initial p c, []⟩ = .new c.printer := by
    rw [Transcript.output, begun]
    rfl
  have outside : ∀ who, stage ⟨Run.initial p c, []⟩ who = .outside := by
    intro who
    rw [stage, begun]
    cases who <;> rfl
  rw [output]
  refine ⟨buffered, fun who text inside => ?_, fun _ => rfl, nofun, fun later _ _ here => ?_, fun who => ?_⟩
  · rw [outside] at inside
    cases inside
  · cases later <;> cases here
  · rw [outside]
    rfl

/-- A move that does nothing to the output leaves no mark. -/
theorem act_still {first : Move}
    (stage : (t.run.move p c first).machine.stage = t.run.machine.stage) :
    (t.act p c (.move first)).marks = t.marks := by
  have unmarked : ((t.run.mover? first).bind fun seen => Mark.of? seen.who (t.stage seen.who)
      ((t.run.move p c first).machine.stage seen.who)) = none := by
    rw [Option.bind_eq_none_iff, stage]
    exact fun seen _ => Mark.of?_self ..
  exact congrArg (fun mark => Option.toList mark ++ t.marks) unmarked

theorem Kept.move (h : Kept p t) (first : Move) : Kept p (t.act p c (.move first)) := by
  obtain ⟨numbered, anchored, orderly⟩ := h
  have still : (t.run.move p c first).machine.world.output = t.output →
      (t.run.move p c first).machine.stage = t.stage →
      Orderly (t.run.move p c first).machine.world.output (t.run.move p c first).machine.stage
        (t.act p c (.move first)).marks := by
    intro output stage
    rw [act_still stage, output, stage]
    exact orderly
  have numbered' := (Run.next_move p c numbered first).numbered numbered
  rcases Run.machine_move p c numbered first with next | ⟨-, ledger, machine⟩
  · refine ⟨numbered', anchored.next next, ?_⟩
    rcases next.stage anchored with ⟨who, thread, seen, after, step, stage⟩ | ⟨output, stage⟩
    · have marked : (t.act p c (.move first)).marks =
          (Mark.of? who (t.stage who) after).toList ++ t.marks := by
        simp only [act, seen, Option.bind_some, stage, Function.update_self]
      show Orderly (t.run.move p c first).machine.world.output (t.run.move p c first).machine.stage _
      rw [marked, stage]
      exact orderly.next step
    · exact still output stage
  · have output : (t.run.move p c first).machine.world.output = t.output := by
      rw [machine]
      rfl
    have stage : (t.run.move p c first).machine.stage = t.stage := by
      rw [machine]
      rfl
    have anchored' : (t.run.move p c first).machine.Anchored p := by
      rw [machine]
      exact ⟨anchored.frames, anchored.threads, anchored.jobs⟩
    exact ⟨numbered', anchored', still output stage⟩

theorem Kept.act (h : Kept p t) (first : Act) : Kept p (t.act p c first) := by
  cases first with
  | move first => exact h.move first
  | clear =>
    simp only [Transcript.act]
    split
    · next free =>
      exact ⟨h.numbered.of_world rfl, ⟨h.anchored.frames, h.anchored.threads, h.anchored.jobs⟩,
        h.orderly.clear free⟩
    · exact h
  | read =>
    simp only [Transcript.act]
    split
    · next free => exact ⟨h.numbered, h.anchored, h.orderly.read free⟩
    · exact h

theorem kept_play (p : Program) (buffered : c.printer = .buffer) (acts : List Act) :
    Kept p (play p c acts) := by
  unfold play
  generalize begun : (⟨Run.initial p c, []⟩ : Transcript) = t
  have kept : Kept p t := begun ▸ kept_initial p buffered
  clear begun
  induction acts generalizing t with
  | nil => exact kept
  | cons first acts ih => exact ih _ (kept.act first)

/-- The output is free just when no thread is in the middle of a line, and then a buffer holds the lines
for which it has been taken since it was last cleared, in this order and each with its break. Whenever it
is read, that is what is read. The lines that a thread has taken the output for are those that it has
called for, in the order of its calls; the last one may have to wait. -/
theorem lines_whole (buffered : c.printer = .buffer) (acts : List Act) :
    let t := play p c acts
    (t.output.available = true ↔ ∀ who, (t.stage who).line? = none) ∧
    (t.output.available = true →
      t.output.captured = Line.textOf (takenLines (sinceCleared t.marks))) ∧
    (∀ later text earlier, t.marks = later ++ .read text :: earlier →
      text = Line.textOf (takenLines (sinceCleared earlier))) ∧
    ∀ who, (calledLines t.marks).filter (·.who = who) = (takenLines t.marks).filter (·.who = who) ++
      ((t.stage who).wanted?.map fun text => ⟨who, text⟩).toList := by
  intro t
  have orderly := (kept_play p buffered acts).orderly
  exact ⟨orderly.available_iff, orderly.captured, orderly.reads, orderly.calls⟩

/-! ### Two tasks that print at the same time -/

def chatter : Script := [.launch "print" [.string "one"], .launch "print" [.string "two"]]

def chatterProgram : Program := chatter.program.toOption.getD default

def chatterConfig : RunConfig := { RunConfig.default with printer := .buffer }

/-- Both tasks are launched and started, and both call for their lines. -/
def chatterCalls : List Move :=
  List.replicate 8 .main ++ [.start 0, .start 1] ++ List.replicate 5 (.task 0) ++
    List.replicate 5 (.task 1)

/-- While the first task has the output, neither the other one nor the host gets at it. -/
def chatterActs : List Act :=
  chatterCalls.map .move ++
    [.move (.task 0), .clear, .move (.task 1), .move (.task 0), .read, .move (.task 0), .move (.task 0),
      .read, .clear] ++
    List.replicate 4 (.move (.task 1)) ++ [.read]

theorem chatter_whole :
    chatterConfig.printer = .buffer ∧
    let t := play chatterProgram chatterConfig chatterActs
    t.marks = [.read "two\n", .taken ⟨.task ⟨1⟩, "two"⟩, .cleared, .read "one\n",
      .taken ⟨.task ⟨0⟩, "one"⟩, .called ⟨.task ⟨1⟩, "two"⟩, .called ⟨.task ⟨0⟩, "one"⟩] ∧
    (t.output.available = true ↔ ∀ who, (t.stage who).line? = none) ∧
    (t.output.available = true →
      t.output.captured = Line.textOf (takenLines (sinceCleared t.marks))) ∧
    (∀ later text earlier, t.marks = later ++ .read text :: earlier →
      text = Line.textOf (takenLines (sinceCleared earlier))) ∧
    ∀ who, (calledLines t.marks).filter (·.who = who) = (takenLines t.marks).filter (·.who = who) ++
      ((t.stage who).wanted?.map fun text => ⟨who, text⟩).toList :=
  ⟨rfl, by decide +kernel, lines_whole rfl chatterActs⟩

end Transcript

end Strand
