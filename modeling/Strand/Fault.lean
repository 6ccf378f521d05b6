import Strand.Program

/-!
# Faults

A fault says why an evaluation failed: a cause, the span of the node that raised it, and notes. The
wording of a cause is fixed and says all that the cause holds.

An operation that reads the program or the heap may also end without a fault of the language, by
reading an array at a position it does not have, or by never ending; `Abort` is one of the three.
-/

set_option autoImplicit false

namespace Strand

/-- Why an evaluation failed. -/
inductive Cause where
  | unboundName (name : String)
  | nullDereference (context : String)
  | negativeIndex (index : Int64)
  | indexTooLarge (index : Int64)
  | indexOutOfBounds (index : Int64) (length : Nat)
  | divisionByZero
  | moduloByZero
  | lengthMismatch (left right : Nat)
  | emptyArray
  | nestingMismatch
  | matrixDimension (rows columns : Nat)
  | unsupportedBuiltin (name : String)
  | arityMismatch (name : String) (expected got : Nat)
  | notCallable (typeName : String)
  | waitTarget
  | typeMismatch (expected got : String)
  | invalidBinaryOp (op typeName : String)
  | undefinedField (field : String)
  | invalidAssignmentTarget
  | poolStartup (message : String)
  | taskPanicked (message : String)
  | custom (message : String)
deriving DecidableEq, Inhabited, Repr

/-- The coarse classes of causes. -/
inductive FaultCategory where
  | unbound
  | nullDereference
  | index
  | arithmetic
  | shape
  | unsupportedBuiltin
  | type
  | runtime
deriving DecidableEq, Inhabited, Repr

/-- The name of a class of causes. -/
def FaultCategory.name : FaultCategory → String
  | unbound => "Unbound"
  | nullDereference => "NullDereference"
  | index => "Index"
  | arithmetic => "Arithmetic"
  | shape => "Shape"
  | unsupportedBuiltin => "UnsupportedBuiltin"
  | type => "Type"
  | runtime => "Runtime"

namespace Cause

/-- The name of the kind of a cause. -/
def kind : Cause → String
  | unboundName _ => "UnboundName"
  | nullDereference _ => "NullDereference"
  | negativeIndex _ => "NegativeIndex"
  | indexTooLarge _ => "IndexTooLarge"
  | indexOutOfBounds .. => "IndexOutOfBounds"
  | divisionByZero => "DivisionByZero"
  | moduloByZero => "ModuloByZero"
  | lengthMismatch .. => "LengthMismatch"
  | emptyArray => "EmptyArray"
  | nestingMismatch => "NestingMismatch"
  | matrixDimension .. => "MatrixDimension"
  | unsupportedBuiltin _ => "UnsupportedBuiltin"
  | arityMismatch .. => "ArityMismatch"
  | notCallable _ => "NotCallable"
  | waitTarget => "WaitTarget"
  | typeMismatch .. => "TypeMismatch"
  | invalidBinaryOp .. => "InvalidBinaryOp"
  | undefinedField _ => "UndefinedField"
  | invalidAssignmentTarget => "InvalidAssignmentTarget"
  | poolStartup _ => "PoolStartup"
  | taskPanicked _ => "TaskPanicked"
  | custom _ => "Custom"

def category : Cause → FaultCategory
  | unboundName _ => .unbound
  | nullDereference _ => .nullDereference
  | negativeIndex _ | indexTooLarge _ | indexOutOfBounds .. => .index
  | divisionByZero | moduloByZero => .arithmetic
  | lengthMismatch .. | emptyArray | nestingMismatch | matrixDimension .. => .shape
  | unsupportedBuiltin _ => .unsupportedBuiltin
  | arityMismatch .. | notCallable _ | waitTarget | typeMismatch .. | invalidBinaryOp ..
  | undefinedField _ | invalidAssignmentTarget => .type
  | poolStartup _ | taskPanicked _ | custom _ => .runtime

/-- The text of a cause. -/
def message : Cause → String
  | unboundName name => s!"no binding for `{name}`"
  | nullDereference context => s!"null dereference: {context}"
  | negativeIndex index => s!"negative index: {index}"
  | indexTooLarge index => s!"index exceeds max array index (2^31 - 2): {index}"
  | indexOutOfBounds index length => s!"index {index} out of bounds for length {length}"
  | divisionByZero => "division by zero"
  | moduloByZero => "modulo by zero"
  | lengthMismatch left right =>
    s!"the two arrays must have the same length: left has {left}, right has {right}"
  | emptyArray => "no operations allowed on empty arrays"
  | nestingMismatch => "the two arrays have different nesting"
  | matrixDimension rows columns =>
    s!"number of rows of the left matrix ({rows}) differs from " ++
      s!"number of columns of the right matrix ({columns})"
  | unsupportedBuiltin name => s!"`{name}` is not a builtin function"
  | arityMismatch name expected got =>
    let plural := if expected == 1 then "" else "s"
    s!"`{name}` expects {expected} argument{plural}, got {got}"
  | notCallable typeName => s!"{typeName} is not callable"
  | waitTarget => "`wait` expects a variable name"
  | typeMismatch expected got => s!"type mismatch: expected {expected}, got {got}"
  | invalidBinaryOp op typeName => s!"operator `{op}` cannot be applied to {typeName}"
  | undefinedField field => s!"no field `{field}`"
  | invalidAssignmentTarget => "invalid assignment target"
  | poolStartup message => s!"cannot start worker pool: {message}"
  | taskPanicked message => s!"task panicked: {message}"
  | custom message => message

end Cause

/-- A cause with the place where it arose and remarks. -/
structure Fault where
  cause : Cause
  span : Option Span
  notes : List String
deriving DecidableEq, Inhabited, Repr

namespace Fault

/-- A fault that is not placed yet. -/
def ofCause (cause : Cause) : Fault := ⟨cause, none, []⟩

def message (f : Fault) : String := f.cause.message

def category (f : Fault) : FaultCategory := f.cause.category

/-- Places a fault, also one that had a place. -/
def withSpan (f : Fault) (span : Span) : Fault := { f with span := some span }

/-- Places a fault that has no place. -/
def withSpanIfNone (f : Fault) (span : Span) : Fault := { f with span := f.span.or (some span) }

def withNote (f : Fault) (note : String) : Fault := { f with notes := f.notes ++ [note] }

/-- The message, the place, and each note on a line of its own. -/
def text (f : Fault) : String :=
  let place :=
    match f.span with
    | some span => " at " ++ span.text
    | none => ""
  f.notes.foldl (fun text note => text ++ "\n  note: " ++ note) (f.message ++ place)

end Fault

/-- Why an operation gave no value. -/
inductive Abort where
  | fault (cause : Cause)
  | outOfRange (read : OutOfRange)
  /-- The operation never ends. -/
  | diverges
deriving DecidableEq, Inhabited, Repr

namespace Abort

/-- An operation that can only fault, as one that may abort. -/
@[inline] def ofFault {α : Type} : Except Cause α → Except Abort α
  | .ok a => .ok a
  | .error cause => .error (.fault cause)

/-- An operation that can only read out of range, as one that may abort. -/
@[inline] def ofRead {α : Type} : Except OutOfRange α → Except Abort α
  | .ok a => .ok a
  | .error read => .error (.outOfRange read)

end Abort

/-! ### What a result was made of -/

section Results

variable {ε α β : Type}

theorem of_ofFault_eq_ok {x : Except Cause α} {a : α} (result : Abort.ofFault x = .ok a) :
    x = .ok a := by
  cases x <;> cases result
  rfl

theorem of_bind_eq_ok {x : Except ε α} {f : α → Except ε β} {b : β} (result : x >>= f = .ok b) :
    ∃ a, x = .ok a ∧ f a = .ok b := by
  cases x with
  | ok a => exact ⟨a, rfl, result⟩
  | error e => cases result

theorem of_map_eq_ok {x : Except ε α} {f : α → β} {b : β} (result : x.map f = .ok b) :
    ∃ a, x = .ok a ∧ f a = b := by
  cases x with
  | ok a => exact ⟨a, rfl, Except.ok.inj result⟩
  | error e => cases result

/-- As many results as inputs, each from one of them. -/
theorem of_mapM_eq_ok {f : α → Except ε β} {inputs : List α} {results : List β}
    (result : inputs.mapM f = .ok results) :
    results.length = inputs.length ∧ ∀ b ∈ results, ∃ a ∈ inputs, f a = .ok b := by
  induction inputs generalizing results with
  | nil =>
    cases result
    exact ⟨rfl, by simp⟩
  | cons a inputs ih =>
    rw [List.mapM_cons] at result
    obtain ⟨b, first, result⟩ := of_bind_eq_ok result
    obtain ⟨rest, others, result⟩ := of_bind_eq_ok result
    cases result
    obtain ⟨length, made⟩ := ih others
    refine ⟨by simp [length], ?_⟩
    intro c member
    rcases List.mem_cons.mp member with rfl | later
    · exact ⟨a, List.mem_cons_self, first⟩
    · obtain ⟨x, inside, found⟩ := made c later
      exact ⟨x, List.mem_cons_of_mem _ inside, found⟩

end Results

end Strand
