import Strand.Proofs.ForkJoin.Tasks

/-!
# What the main program does until it returns

The main program goes through its statements one after the other. While it does, no drain has ended the
run, so a call of `wait` comes back only when the variable has its value, and the main program comes to
its return with all of them set (`ForkJoin.Before.step`).
-/

set_option autoImplicit false

namespace Strand

/-! ## 1. A call of `wait` -/

namespace Join

/-- What a call of `wait` calls. -/
abbrev builtinValue (j : Join) : Value := .function (.host ⟨j.builtin, .function⟩)

/-- How far a call of `wait` has come: what the thread does, and what waits for it. -/
inductive Stands (j : Join) : Control → List Pending → Prop
  | call : Stands j (.eval j.call) []
  | callee : Stands j (.eval j.callee) [.callee j.call [j.argument]]
  | function : Stands j (.give j.builtinValue) [.callee j.call [j.argument]]
  | argument : Stands j (.eval j.argument) [.argument j.call j.builtinValue (some j.argument) [] []]
  | value (v : Value) : Stands j (.give v) [.argument j.call j.builtinValue (some j.argument) [] []]
  | await : Stands j (.await j.call Frames.root j.fork.name) []

theorem Stands.launch? {j : Join} {control : Control} {above : List Pending}
    (stands : j.Stands control above) (env : Env) (stack : List Pending) :
    (⟨env, control, stack⟩ : Thread).launch? = none := by
  cases stands <;> rfl

variable {p : Program} {j : Join}

/-- A call of `wait` goes on. As long as no drain has ended the run, it is over only when the variable
has a value that is not void. -/
theorem Of.step (of : j.Of p) {initializer : NodeId}
    (declares : p.arena.kind? j.fork.declaration = some (.varDecl j.fork.name initializer))
    {w : World} (linked : w.frames.Linked p.attrs.rootScope) (isOpen : w.ledger.closed = false)
    {v : Value} (bound : w.frames.lookup Frames.root j.fork.name = some v) {control : Control}
    {above : List Pending} (stands : j.Stands control above) (under : List Pending) (who : ThreadId) :
    ∃ control' above', (Thread.inside ⟨.outermost, control, above ++ under⟩ w).step p who =
        Thread.inside ⟨.outermost, control', above' ++ under⟩ w ∧
      (j.Stands control' above' ∨ control' = .give .void ∧ above' = [] ∧ v.isVoid = false) := by
  have frame : Env.outermost.frameFor w.frames p.attrs.rootScope = some Frames.root :=
    Env.frameFor_root linked rfl
  cases stands with
  | call =>
    refine ⟨_, _, ?_, .inl .callee⟩
    simp only [Thread.inside, Turn.step, Program.kind, of.calls, Turn.enter, Turn.await, List.nil_append,
      List.singleton_append]
  | callee =>
    obtain ⟨name, refers⟩ := of.refers
    refine ⟨_, _, ?_, .inl .function⟩
    simp only [Thread.inside, Turn.step, Program.kind, refers, Turn.enter, Program.readName, of.denotes,
      Turn.orAbort, Turn.give]
  | function =>
    refine ⟨_, _, ?_, .inl .argument⟩
    simp only [Thread.inside, Turn.step, Turn.resume, Turn.await, List.singleton_append]
  | argument =>
    refine ⟨_, _, ?_, .inl (.value v)⟩
    have read : p.readName .outermost w.frames j.argument j.fork.name = .ok v := by
      simp only [Program.readName, of.variable_, Program.kind, declares, Abort.ofRead, Program.scopeOf,
        of.scope, Abort.ofFault, Env.get, frame, bind, Except.bind, Option.bind_some, bound]
    simp only [Thread.inside, Turn.step, Program.kind, of.names, Turn.enter, read, Turn.orAbort, Turn.give]
  | value u =>
    refine ⟨_, _, ?_, .inl .await⟩
    have watched : p.watched .outermost w.frames j.argument = .ok (Frames.root, j.fork.name) := by
      simp only [Program.watched, Program.kind, of.names, Abort.ofRead, of.scope, frame, bind, Except.bind,
        Option.bind_some, pure, Except.pure]
    simp only [Thread.inside, Turn.step, List.singleton_append, Turn.resume, List.reverse_nil,
      List.nil_append, Turn.apply, Turn.callBuiltin, of.builtin, watched, Turn.orAbort]
    simp
  | await =>
    have any : ((w.frames.lookup Frames.root j.fork.name).any fun u => !u.isVoid) = !v.isVoid := by
      rw [bound, Option.any_some]
    cases void : v.isVoid with
    | false =>
      refine ⟨.give .void, [], ?_, .inr ⟨rfl, rfl, rfl⟩⟩
      simp only [Thread.inside, Turn.step, any, void, Bool.not_false, if_true, Turn.give]
    | true =>
      refine ⟨_, _, ?_, .inl .await⟩
      simp only [Thread.inside, Turn.step, any, void, isOpen, Bool.not_true, Bool.false_eq_true, if_false]

end Join

namespace ForkJoin

variable {p : Program} (x : ForkJoin p)

/-! ## 2. How far the main program has come -/

/-- A launched variable that has its value. -/
def Settled (w : World) (k : Fork) : Prop :=
  ∃ v, w.frames.lookup Frames.root k.name = some v ∧ v.isVoid = false

/-- The statements that are to come after so many launches, with the calls of `wait` among them. -/
inductive Ahead : Nat → List Join → List NodeId → Prop
  | functions (fs : List NodeId) (known : ∀ f ∈ fs, f ∈ x.functions) :
      Ahead 0 x.joins (fs ++ x.forks.map Fork.statement ++ x.joins.map Join.statement ++ [x.last])
  | launches (n : Nat) (inside : n ≤ x.forks.length) :
      Ahead n x.joins
        ((x.forks.drop n).map Fork.statement ++ x.joins.map Join.statement ++ [x.last])
  | waits (js : List Join) (known : ∀ j ∈ js, j ∈ x.joins) :
      Ahead x.forks.length js (js.map Join.statement ++ [x.last])

/-- The first statement of those that are to come, and the others. -/
inductive Begins : Nat → List Join → NodeId → List NodeId → Prop
  | function (n : Nat) (js : List Join) (f : NodeId) (rest : List NodeId) (known : f ∈ x.functions)
      (ahead : x.Ahead n js rest) : Begins n js f rest
  | launch (n : Nat) (k : Fork) (rest : List NodeId) (fork : x.forks[n]? = some k)
      (ahead : x.Ahead (n + 1) x.joins rest) : Begins n x.joins k.statement rest
  | wait (n : Nat) (j : Join) (js : List Join) (rest : List NodeId) (known : j ∈ x.joins)
      (all : n = x.forks.length) (ahead : x.Ahead n js rest) : Begins n (j :: js) j.statement rest
  | last (n : Nat) (all : n = x.forks.length) : Begins n [] x.last []

/-- Where the thread of the main program stands, after so many launches and with some calls of `wait`
still to come back. -/
inductive Stands (w : World) : Nat → List Join → Thread → Prop
  | between (n : Nat) (js : List Join) (v : Value) (rest : List NodeId) (ahead : x.Ahead n js rest) :
      Stands w n js ⟨.outermost, .give v, [.statements rest]⟩
  | statement (n : Nat) (js : List Join) (first : NodeId) (rest : List NodeId)
      (begins : x.Begins n js first rest) : Stands w n js ⟨.outermost, .eval first, [.statements rest]⟩
  | launching (n : Nat) (k : Fork) (rest : List NodeId) (fork : x.forks[n]? = some k)
      (void : w.frames.lookup Frames.root k.name = some .void) (ahead : x.Ahead (n + 1) x.joins rest) :
      Stands w n x.joins ⟨.outermost, .submit [.eval k.declaration], [.statements rest]⟩
  | launched (n : Nat) (js : List Join) (rest : List NodeId) (ahead : x.Ahead n js rest) :
      Stands w n js ⟨.outermost, .submit [], [.statements rest]⟩
  | waiting (n : Nat) (j : Join) (js : List Join) (rest : List NodeId) (control : Control)
      (above : List Pending) (known : j ∈ x.joins) (all : n = x.forks.length)
      (stands : j.Stands control above) (ahead : x.Ahead n js rest) :
      Stands w n (j :: js) ⟨.outermost, control, above ++ [.dropped, .statements rest]⟩
  | passed (n : Nat) (js : List Join) (v : Value) (rest : List NodeId) (ahead : x.Ahead n js rest) :
      Stands w n js ⟨.outermost, .give v, [.dropped, .statements rest]⟩

variable {x} {w w₁ w₀ : World} {n : Nat} {js : List Join} {rest : List NodeId} {t : Thread}

/-- Some statement is to come. -/
theorem Ahead.next (ahead : x.Ahead n js rest) :
    ∃ first rest', rest = first :: rest' ∧ x.Begins n js first rest' := by
  have waits : ∀ js : List Join, (∀ j ∈ js, j ∈ x.joins) → ∃ first rest',
      js.map Join.statement ++ [x.last] = first :: rest' ∧ x.Begins x.forks.length js first rest' := by
    intro js known
    cases js with
    | nil => exact ⟨_, _, rfl, .last _ rfl⟩
    | cons j js =>
      exact ⟨_, _, rfl, .wait _ j js _ (known j List.mem_cons_self) rfl
        (.waits js fun i member => known i (List.mem_cons_of_mem _ member))⟩
  have launches : ∀ n ≤ x.forks.length, ∃ first rest',
      (x.forks.drop n).map Fork.statement ++ x.joins.map Join.statement ++ [x.last] = first :: rest' ∧
        x.Begins n x.joins first rest' := by
    intro n inside
    by_cases all : n = x.forks.length
    · subst all
      rw [List.drop_length]
      exact waits x.joins fun _ => id
    · have here : n < x.forks.length := by omega
      rw [List.drop_eq_getElem_cons here]
      exact ⟨_, _, rfl, .launch n x.forks[n] _ (List.getElem?_eq_getElem here) (.launches (n + 1) here)⟩
  cases ahead with
  | functions fs known =>
    cases fs with
    | nil => simpa only [List.nil_append, List.drop_zero] using launches 0 (Nat.zero_le _)
    | cons f fs =>
      exact ⟨_, _, rfl, .function 0 _ f _ (known f List.mem_cons_self)
        (.functions fs fun g member => known g (List.mem_cons_of_mem _ member))⟩
  | launches n inside => exact launches n inside
  | waits js known => exact waits js known

/-- The main program is not over. -/
theorem Stands.unfinished (stands : x.Stands w n js t) : t.outcome? = none := by
  cases stands with
  | waiting j js rest control above known all stands ahead => cases stands <;> rfl
  | _ => rfl

/-- Only of the variable that is being launched it matters what it is bound to. -/
theorem Stands.of_lookup (stands : x.Stands w n js t)
    (same : ∀ k, x.forks[n]? = some k → w₁.frames.lookup Frames.root k.name =
      w.frames.lookup Frames.root k.name) : x.Stands w₁ n js t := by
  cases stands with
  | between js v rest ahead => exact .between _ _ v rest ahead
  | statement js first rest begins => exact .statement _ _ first rest begins
  | launching k rest fork void ahead => exact .launching _ k rest fork ((same k fork).trans void) ahead
  | launched js rest ahead => exact .launched _ _ rest ahead
  | waiting j js rest control above known all stands ahead =>
    exact .waiting _ j js rest control above known all stands ahead
  | passed js v rest ahead => exact .passed _ _ v rest ahead

/-! ## 3. The main program before its return -/

/-- The main program has not come to its return. A variable that it does not have to wait for any more
has its value. -/
structure Before (x : ForkJoin p) (w₀ : World) (m : Machine) : Prop where
  crew : ∃ R ws, x.Crew w₀ R ws m.tasks m.world
  isOpen : m.world.ledger.closed = false
  stands : ∃ js, (∀ j ∈ x.joins, j ∈ js ∨ Settled m.world j.fork) ∧ x.Stands m.world m.tasks.size js m.main

theorem Settled.retains {count : Nat} (retains : x.Retains count w w₁) {k : Fork} (member : k ∈ x.forks)
    (settled : Settled w k) : Settled w₁ k := by
  obtain ⟨i, fork⟩ := List.mem_iff_getElem?.mp member
  obtain ⟨v, found, set_⟩ := settled
  rcases retains i k fork with same | ⟨-, void⟩
  · exact ⟨v, same.trans found, set_⟩
  · rw [found] at void
    cases void
    cases set_

/-- The tasks do not disturb it. -/
theorem Before.beside {m m' : Machine} (before : x.Before w₀ m) (beside : x.Beside w₀ m m') :
    x.Before w₀ m' := by
  obtain ⟨-, isOpen, js, due, stands⟩ := before
  obtain ⟨crew, main, size, closed, retains⟩ := beside
  refine ⟨crew, closed.trans isOpen, js, fun j member => ?_, ?_⟩
  · exact (due j member).imp_right (Settled.retains retains (x.waits j member).2)
  · rw [main, size]
    exact stands.of_lookup fun k fork => (retains _ k fork).resolve_right fun h => Nat.lt_irrefl _ h.1

end ForkJoin

namespace Machine

variable {p : Program}

/-- A step in which the main program is seen to move is its next one. -/
theorem Next.ofMain {m m' : Machine} {t : Thread} (next : Next p m (some ⟨.main, t⟩) m') :
    m.main = t ∧ m' = m.stepMain p := by
  obtain ⟨w, main, tasks⟩ := m
  cases next with
  | turn who t found silent going =>
    cases found
    refine ⟨rfl, ?_⟩
    simp only [stepMain, silent]
    rfl
  | launch who t rest job found launches =>
    cases found
    refine ⟨rfl, ?_⟩
    simp only [stepMain, launches]
    rfl

theorem stepMain_of_step {w w' : World} {t t' : Thread} (tasks : Array Task) (silent : t.launch? = none)
    (step : (t.inside w).step p .main = t'.inside w') :
    stepMain p ⟨w, t, tasks⟩ = ⟨w', t', tasks⟩ := by
  simp only [stepMain, silent, step]
  rfl

end Machine

namespace ForkJoin

variable {p : Program} {x : ForkJoin p} {w₀ : World}

/-- What is bound to a variable that has been launched. -/
theorem Crew.bound {R : Nat → Pairing} {ws : Nat → World} {tasks : Array Task} {w : World}
    (crew : x.Crew w₀ R ws tasks w) {i : Nat} {k : Fork} (inside : i < tasks.size)
    (fork : x.forks[i]? = some k) : ∃ v, w.frames.lookup Frames.root k.name = some v := by
  obtain ⟨l, there, stage⟩ := crew.stages i tasks[i] (Array.getElem?_eq_getElem inside)
  cases fork.symm.trans there
  generalize w.frames.lookup Frames.root k.name = v? at stage
  generalize tasks[i].state = state at stage
  cases stage <;> exact ⟨_, rfl⟩

/-- The main program comes to its return when every variable has its value. -/
theorem Before.last {m : Machine} (before : x.Before w₀ m) (returns : m.main.control = .eval x.last) :
    m.main = ⟨.outermost, .eval x.last, [.statements []]⟩ ∧ m.tasks.size = x.forks.length ∧
      ∀ k ∈ x.forks, Settled m.world k := by
  obtain ⟨-, -, js, due, stands⟩ := before
  -- no other statement is a return
  have other : ∀ {n : NodeId} {kind : NodeKind}, p.arena.kind? n = some kind →
      (∀ value, kind ≠ .ret value) → n ≠ x.last := by
    rintro n kind found differs rfl
    exact differs _ (Option.some.inj (found.symm.trans x.returns))
  generalize m.tasks.size = n at stands
  generalize m.main = t at stands returns
  cases stands with
  | between | launching | launched | passed => cases returns
  | statement js first rest begins =>
    obtain rfl : first = x.last := Control.eval.inj returns
    generalize same : x.last = first at begins
    cases begins with
    | function js f rest known ahead =>
      obtain ⟨name, parameters, body, declares⟩ := x.declares _ known
      exact absurd same.symm (other declares nofun)
    | launch k rest fork ahead =>
      exact absurd same.symm (other (x.launches k (List.mem_of_getElem? fork)).launches nofun)
    | wait j js rest known all ahead => exact absurd same.symm (other (x.waits j known).1.expression nofun)
    | last all =>
      refine ⟨rfl, all, fun k member => ?_⟩
      obtain ⟨j, known, rfl⟩ := x.awaited k member
      exact (due j known).resolve_left List.not_mem_nil
  | waiting j js rest control above known all stands ahead =>
    have of := (x.waits j known).1
    have returns : control = .eval x.last := returns
    cases stands with
    | call => exact absurd (Control.eval.inj returns) (other of.calls nofun)
    | callee =>
      obtain ⟨name, refers⟩ := of.refers
      exact absurd (Control.eval.inj returns) (other refers nofun)
    | argument => exact absurd (Control.eval.inj returns) (other of.names nofun)
    | function | value | await => cases returns

/-- The main program takes a step before it comes to its return. -/
theorem Before.step {m : Machine} (before : x.Before w₀ m) (away : m.main.control ≠ .eval x.last) :
    x.Before w₀ (m.stepMain p) := by
  obtain ⟨w, t, tasks⟩ := m
  obtain ⟨⟨R, ws, crew⟩, isOpen, js, due, stands⟩ := before
  simp only at crew isOpen due stands away
  have linked : w.frames.Linked p.attrs.rootScope := crew.shared.base.linked
  -- most steps only move the thread
  have moves : ∀ {js' : List Join} {t' : Thread}, t.launch? = none →
      (t.inside w).step p .main = t'.inside w →
      (∀ j ∈ x.joins, j ∈ js' ∨ Settled w j.fork) → x.Stands w tasks.size js' t' →
      x.Before w₀ (Machine.stepMain p ⟨w, t, tasks⟩) := by
    intro js' t' silent step due' stands'
    rw [Machine.stepMain_of_step tasks silent step]
    exact ⟨⟨R, ws, crew⟩, isOpen, js', due', stands'⟩
  generalize size : tasks.size = n at stands
  rw [size] at moves
  cases stands with
  | between js v rest ahead =>
    obtain ⟨first, rest, rfl, begins⟩ := ahead.next
    exact moves rfl rfl due (.statement _ _ first rest begins)
  | statement js first rest begins =>
    cases begins with
    | function js f rest known ahead =>
      obtain ⟨name, parameters, body, declares⟩ := x.declares _ known
      refine moves rfl ?_ due (.between _ _ .void rest ahead)
      simp only [Thread.inside, Turn.step, Program.kind, declares, Turn.enter, Turn.give]
    | launch k rest fork ahead =>
      have of := x.launches k (List.mem_of_getElem? fork)
      have step : (Thread.inside ⟨.outermost, .eval k.statement, [.statements rest]⟩ w).step p .main =
          Thread.inside ⟨.outermost, .submit [.eval k.declaration], [.statements rest]⟩
            { w with frames := w.frames.define Frames.root k.name .void } := by
        simp only [Thread.inside, Turn.step, Program.kind, of.launches]
        exact of.enter_statement _ rfl linked
      rw [Machine.stepMain_of_step tasks rfl step]
      refine ⟨⟨R, ws, crew.declare (by rw [size]; exact fork)⟩, isOpen, _, fun j member => .inl member, ?_⟩
      show x.Stands _ tasks.size _ _
      rw [size]
      refine .launching _ k rest fork ?_ ahead
      rw [linked.lookup_define, if_pos rfl]
    | wait j js rest known all ahead =>
      have of := (x.waits j known).1
      refine moves rfl ?_ due (.waiting _ j js rest _ [] known all .call ahead)
      simp only [Thread.inside, Turn.step, Program.kind, of.expression, Turn.enter, Turn.await,
        List.nil_append]
    | last => exact absurd rfl away
  | launching k rest fork void ahead =>
    obtain ⟨R', ws', crew'⟩ := crew.launch (by rw [size]; exact fork) void w.ledger.register.1
      w.ledger.register.2
    refine ⟨⟨R', ws', crew'⟩, isOpen, _, fun j member => .inl member, ?_⟩
    show x.Stands _ (tasks.push _).size _ _
    rw [Array.size_push, size]
    exact .launched _ _ rest ahead
  | launched js rest ahead => exact moves rfl rfl due (.between _ _ .void rest ahead)
  | waiting j js rest control above known all stands ahead =>
    obtain ⟨of, member⟩ := x.waits j known
    obtain ⟨i, fork⟩ := List.mem_iff_getElem?.mp member
    obtain ⟨inside, -⟩ := List.getElem?_eq_some_iff.mp fork
    obtain ⟨v, bound⟩ := crew.bound (by omega) fork
    obtain ⟨control', above', step, stands' | ⟨rfl, rfl, set_⟩⟩ :=
      of.step (x.launches _ member).declares linked isOpen bound stands [.dropped, .statements rest] .main
    · exact moves (stands.launch? _ _) step due
        (.waiting _ j js rest control' above' known all stands' ahead)
    · refine moves (stands.launch? _ _) step (fun i member => ?_) (.passed _ js .void rest ahead)
      rcases due i member with waits | settled
      · rcases List.mem_cons.mp waits with rfl | waits
        · exact .inr ⟨v, bound, set_⟩
        · exact .inl waits
      · exact .inr settled
  | passed js v rest ahead => exact moves rfl rfl due (.between _ _ .void rest ahead)

end ForkJoin

end Strand
