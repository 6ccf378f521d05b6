import Strand.Proofs.Course
import Strand.Proofs.Scope.Path
import Strand.Proofs.Scope.Values

/-!
# Threads that see what they need

A thread of a well-scoped program evaluates a node only in a frame that sees what the node's context
promises. What it has still to do says the same of the nodes that are yet to come: `StackFine` follows
the stack from the frame where the thread stands, and goes back to an earlier frame where a block or a
call is left.

* A statement may declare a variable for the statements after it. While it runs, the variable is only
  *promised* to them; the promise is kept before the statement gives its value, and an exit that skips
  the statements needs no promise.
* A function value may be called where its declaration is seen. For a function of an inner scope that
  is so only at the call that mentions it, and no other value is such a function.

Section 4 goes through the functions of the evaluator; `step_fine` is the whole of it.
-/

set_option autoImplicit false

namespace Strand

/-- A program with a context for every node, in which no node asks for more than its context has. -/
structure ScopedProgram where
  program : Program
  context : NodeId → Context
  nodes : Scoping.WellScoped ⟨program.arena, program.attrs, context, true⟩
  calls : program.OnlyCallsInside

/-- The values that a pending has collected. -/
def Pending.values : Pending → List Value
  | element _ done _ | argument _ _ _ done _ => done
  | rightOperand _ _ _ _ l => [l]
  | _ => []

/-- Whether a pending goes on in the frame where it is, with nothing promised. -/
def Pending.goesOn : Pending → Bool
  | statements _ | declaration .. | argument .. | assignName .. | leaveBlock _ | leaveCall _ => false
  | _ => true

/-- Whether a pending waits for something to call. -/
def calling : List Pending → Prop
  | .callee _ _ :: _ => True
  | _ => False

namespace ScopedProgram

variable (q : ScopedProgram)

def scoping : Scoping := ⟨q.program.arena, q.program.attrs, q.context, true⟩

def rootScope : ScopeId := q.program.attrs.rootScope

/-! ## 1. What is fine -/

/-- A value that can be called from a frame, as far as its declaration is concerned. -/
def CanCall (fs : Frames) (f : FrameId) (v : Value) : Prop :=
  ∀ function, v = .function (.node function) → fs.Sees f (q.context function)

/-- A value that can be called from everywhere. -/
def Fine (fs : Frames) (v : Value) : Prop := q.CanCall fs Frames.root v

/-- An exit that carries a fine value or reports no unbound name. -/
def ExitFine (fs : Frames) : Exit → Prop
  | .ret v => q.Fine fs v
  | .fault fault => fault.cause.Named
  | .crash _ => True

/-- A node that can be evaluated in a frame; a statement only in a frame of just its scopes. -/
structure Evaluable (fs : Frames) (f : FrameId) (n : NodeId) : Prop where
  sees : fs.Sees f (q.context n)
  stands : ∀ kind, q.program.arena.kind? n = some kind → kind.isExpression = false →
    fs.path f = (q.context n).scopes

/-- A node that can be evaluated in a frame and gives a fine value there. -/
structure Usable (fs : Frames) (f : FrameId) (n : NodeId) : Prop extends q.Evaluable fs f n where
  outside : q.program.refersInside n = false

/-- A node whose scope is on the path of a frame. -/
def Located (fs : Frames) (f : FrameId) (n : NodeId) : Prop :=
  ∃ scope, q.program.attrs.scope? n = some scope ∧ scope ∈ fs.path f

/-- Statements that can be run in a frame, once what is promised is bound. -/
def Runnable (fs : Frames) (f : FrameId) (promised : List (ScopeId × Name))
    (statements : List NodeId) : Prop :=
  ∃ Γ Δ, fs.path f = Γ.scopes ∧ (∀ x ∈ Γ.names, fs.Bound f x ∨ x ∈ promised) ∧
    q.scoping.Sequence Γ statements Δ

/-- Everything on the stack can go on from a frame, once what is promised is bound. -/
def StackFine (fs : Frames) : FrameId → List (ScopeId × Name) → List Pending → Prop
  | _, _, [] => True
  | f, promised, waiting :: stack =>
    (∀ n ∈ waiting.nodes, q.Usable fs f n) ∧ (∀ v ∈ waiting.values, q.Fine fs v) ∧
    match waiting with
    | .statements rest => q.Runnable fs f promised rest ∧ StackFine fs f [] stack
    | .declaration n name =>
      ∃ scope, q.program.attrs.scope? n = some scope ∧ scope ∈ fs.path f ∧
        StackFine fs f [(scope, name)] stack
    | .argument _ callee _ _ _ => q.CanCall fs f callee ∧ StackFine fs f [] stack
    | .assignName _ target _ => q.Located fs f target ∧ StackFine fs f [] stack
    | .leaveBlock saved | .leaveCall saved => fs.Live saved ∧ StackFine fs saved [] stack
    | _ => StackFine fs f [] stack

/-- What a thread does next can be done in its frame. -/
def ControlFine (fs : Frames) (f : FrameId) (stack : List Pending) : Control → Prop
  | .eval n =>
    q.Evaluable fs f n ∧ (q.program.refersInside n = true → calling stack) ∧
      ∃ promised, (∀ x ∈ promised, q.scoping.Declares n x) ∧ q.StackFine fs f promised stack
  | .give v => (q.Fine fs v ∨ q.CanCall fs f v ∧ calling stack) ∧ q.StackFine fs f [] stack
  | .leave e => q.ExitFine fs e ∧ ∃ promised, q.StackFine fs f promised stack
  | .invoke _ function arguments =>
    q.CanCall fs f (.function (.node function)) ∧ (∀ v ∈ arguments, q.Fine fs v) ∧
      q.StackFine fs f [] stack
  | .findSite _ block | .addSite _ block | .enterSite _ _ block =>
    q.Usable fs f block ∧ q.StackFine fs f [] stack
  | .acquire .. => False
  | .submit jobs => (∀ job ∈ jobs, ∃ n, job = .eval n ∧ q.Usable fs f n) ∧ q.StackFine fs f [] stack
  | .await .. | .startLine _ | .writeText _ | .writeBreak _ | .endLine _ | .spin =>
    q.StackFine fs f [] stack

/-- All that is stored is fine, and the frames are in order. -/
structure WorldFine (w : World) : Prop where
  frames : w.frames.Sound q.rootScope
  bindings : ∀ f name v, w.frames.lookup f name = some v → q.Fine w.frames v
  heap : w.heap.Holds (q.Fine w.frames)

/-- A thread that can do what it is about to do. -/
structure ThreadFine (fs : Frames) (t : Thread) : Prop where
  root : t.env.root = Frames.root
  live : fs.Live t.env.current
  control : q.ControlFine fs t.env.current t.stack t.control

/-- A thread and its world that are fine. -/
structure TurnFine (s : Turn) : Prop where
  world : q.WorldFine s.world
  thread : q.ThreadFine s.world.frames s.thread

variable {q}
variable {fs fs' : Frames} {f : FrameId} {n : NodeId} {stack : List Pending}
  {promised promised' : List (ScopeId × Name)} {v : Value}

/-! ## 2. What is kept while frames grow -/

theorem CanCall.inward {g : FrameId} (h : q.CanCall fs g v) (sound : fs.Sound q.rootScope)
    (member : g ∈ fs.chain f) : q.CanCall fs f v :=
  fun function same => sound.sees_inward (h function same) member

theorem Fine.canCall (h : q.Fine fs v) (sound : fs.Sound q.rootScope) (live : fs.Live f) :
    q.CanCall fs f v :=
  h.inward sound (sound.root_mem live)

theorem fine_of_plain (plain : v.Plain) : q.Fine fs v :=
  fun function same => absurd same (plain function)

section

variable (later : Frames.Onward q.rootScope fs fs')

include later

theorem CanCall.onward (can : q.CanCall fs f v) (live : fs.Live f) : q.CanCall fs' f v :=
  fun function same => later.sees live (can function same)

theorem Fine.onward (fine : q.Fine fs v) : q.Fine fs' v := CanCall.onward later fine later.before.live_root

theorem ExitFine.onward {e : Exit} (fine : q.ExitFine fs e) : q.ExitFine fs' e := by
  cases e with
  | ret v => exact Fine.onward later fine
  | fault | crash => exact fine

theorem Evaluable.onward (can : q.Evaluable fs f n) (live : fs.Live f) : q.Evaluable fs' f n := by
  refine ⟨later.sees live can.sees, ?_⟩
  rw [later.path live]
  exact can.stands

theorem Usable.onward (can : q.Usable fs f n) (live : fs.Live f) : q.Usable fs' f n :=
  ⟨can.toEvaluable.onward later live, can.outside⟩

theorem Located.onward (located : q.Located fs f n) (live : fs.Live f) : q.Located fs' f n := by
  obtain ⟨scope, here, inside⟩ := located
  exact ⟨scope, here, (later.path live).symm ▸ inside⟩

theorem Runnable.onward {statements : List NodeId} (can : q.Runnable fs f promised statements)
    (live : fs.Live f) : q.Runnable fs' f promised statements := by
  obtain ⟨Γ, Δ, path, names, sequence⟩ := can
  refine ⟨Γ, Δ, (later.path live).trans path, fun x member => ?_, sequence⟩
  exact (names x member).imp_left fun bound => later.bound live bound

theorem StackFine.onward (fine : q.StackFine fs f promised stack) (live : fs.Live f) :
    q.StackFine fs' f promised stack := by
  induction stack generalizing f promised with
  | nil => trivial
  | cons waiting stack ih =>
    obtain ⟨nodes, values, here⟩ := fine
    refine ⟨fun n member => (nodes n member).onward later live,
      fun v member => Fine.onward later (values v member), ?_⟩
    cases waiting with
    | statements rest => exact ⟨Runnable.onward later here.1 live, ih here.2 live⟩
    | declaration n name =>
      obtain ⟨scope, declared, inside, rest⟩ := here
      refine ⟨scope, declared, ?_, ih rest live⟩
      rw [later.path live]
      exact inside
    | argument => exact ⟨CanCall.onward later here.1 live, ih here.2 live⟩
    | assignName => exact ⟨Located.onward later here.1 live, ih here.2 live⟩
    | leaveBlock saved | leaveCall saved => exact ⟨later.grows.live here.1, ih here.2 here.1⟩
    | _ => exact ih here live

theorem ControlFine.onward {control : Control} (fine : q.ControlFine fs f stack control)
    (live : fs.Live f) : q.ControlFine fs' f stack control := by
  have stackGrows : ∀ {promised}, q.StackFine fs f promised stack →
      q.StackFine fs' f promised stack :=
    fun fine => StackFine.onward later fine live
  cases control with
  | eval n =>
    obtain ⟨can, top, promised, declared, rest⟩ := fine
    exact ⟨can.onward later live, top, promised, declared, stackGrows rest⟩
  | give v =>
    obtain ⟨value, rest⟩ := fine
    exact ⟨value.imp (Fine.onward later) fun ⟨can, top⟩ => ⟨can.onward later live, top⟩,
      stackGrows rest⟩
  | leave e => exact ⟨fine.1.onward later, fine.2.imp fun _ => stackGrows⟩
  | invoke span function arguments =>
    obtain ⟨can, values, rest⟩ := fine
    exact ⟨can.onward later live, fun v member => Fine.onward later (values v member),
      stackGrows rest⟩
  | findSite | addSite | enterSite => exact ⟨fine.1.onward later live, stackGrows fine.2⟩
  | acquire => exact fine
  | submit jobs =>
    refine ⟨fun job member => ?_, stackGrows fine.2⟩
    obtain ⟨n, same, can⟩ := fine.1 job member
    exact ⟨n, same, can.onward later live⟩
  | _ => exact stackGrows fine

theorem ThreadFine.onward {t : Thread} (fine : q.ThreadFine fs t) : q.ThreadFine fs' t :=
  ⟨fine.root, later.grows.live fine.live, fine.control.onward later fine.live⟩

end

/-- A larger promise is enough as well. -/
theorem StackFine.mono (fine : q.StackFine fs f promised stack) (more : promised ⊆ promised') :
    q.StackFine fs f promised' stack := by
  cases stack with
  | nil => trivial
  | cons waiting stack =>
    obtain ⟨nodes, values, here⟩ := fine
    refine ⟨nodes, values, ?_⟩
    cases waiting with
    | statements rest =>
      obtain ⟨⟨Γ, Δ, path, names, sequence⟩, rest⟩ := here
      exact ⟨⟨Γ, Δ, path, fun x member => (names x member).imp_right fun h => more h, sequence⟩, rest⟩
    | _ => exact here

/-- A promise is kept when what was promised is bound. -/
theorem StackFine.kept (fine : q.StackFine fs f promised stack)
    (bound : ∀ x ∈ promised, fs.Bound f x) : q.StackFine fs f promised' stack := by
  cases stack with
  | nil => trivial
  | cons waiting stack =>
    obtain ⟨nodes, values, here⟩ := fine
    refine ⟨nodes, values, ?_⟩
    cases waiting with
    | statements rest =>
      obtain ⟨⟨Γ, Δ, path, names, sequence⟩, rest⟩ := here
      refine ⟨⟨Γ, Δ, path, fun x member => .inl ?_, sequence⟩, rest⟩
      exact (names x member).elim id (bound x)
    | _ => exact here

end ScopedProgram

end Strand
