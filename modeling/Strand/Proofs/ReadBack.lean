import Strand.Proofs.Calls.Resolution
import Strand.Proofs.Evaluation

/-!
# Names that are assigned and read

An assignment to a name writes the frame that owns the scope of the name, whatever the name has been declared
as. A reference reads that frame only if the declaration is one of a variable, a parameter or a constant of the
host: everything else denotes itself (`Program.constant?`), whatever is bound to its name. So what is assigned
to a name is read back from it in the first case, and in the second one the assignment is without effect on
what is read (`Program.assignment_read_back`).
-/

set_option autoImplicit false

namespace Strand

/-! ## 1. Frames -/

namespace Env

variable {env : Env} {fs : Frames} {scope : ScopeId} {f : FrameId}

theorem frameFor_define (env : Env) (fs : Frames) (f : FrameId) (name : Name) (v : Value) (scope : ScopeId) :
    env.frameFor (fs.define f name v) scope = env.frameFor fs scope := by
  simp only [frameFor, Frames.owner?_eq_find?, Frames.scope?_define, Frames.chain_define]

/-- The frame that is found for a scope has that scope. -/
theorem scope?_of_frameFor (found : env.frameFor fs scope = some f) : fs.scope? f = some scope := by
  unfold frameFor at found
  split at found
  · next here =>
    cases found
    exact here
  · rw [Frames.owner?_eq_find?] at found
    simpa using List.find?_some found

/-- What is bound in the frame of a scope is read there. -/
theorem get_define (found : env.frameFor fs scope = some f) (name : Name) (v : Value) (text : String) :
    env.get (fs.define f name v) scope name text = .ok v := by
  have there : (fs.frame? f).isSome := by
    rw [← Option.isSome_map (f := Frame.scope)]
    exact Option.isSome_of_eq_some (scope?_of_frameFor found)
  simp only [get, frameFor_define, found, Option.bind_some, Frames.lookup_define, there, and_self, if_true]

end Env

/-! ## 2. What a name denotes -/

/-- The value of a name that denotes its declaration itself, whatever is bound to the name: a function, a
struct, or a function or a type of the host. -/
def Program.constant? (p : Program) : Decl → Option Value
  | .host ⟨_, .value⟩ => none
  | .host ⟨name, .function⟩ => some (.function (.host ⟨name, .function⟩))
  | .host ⟨name, .type⟩ => some (.type (.host ⟨name, .type⟩))
  | .node d =>
    match p.arena.kind? d with
    | some (.funDecl ..) => some (.function (.node d))
    | some (.structDecl ..) => some (.type (.node d))
    | _ => none

/-- A reference to a name, with the declaration and the scope that it was resolved to. If the name does not
denote its declaration, it denotes what is bound in the scope. -/
structure Program.Denotes (p : Program) (n : NodeId) (name : Name) (decl : Decl) (scope : ScopeId) : Prop where
  kind : p.kind n = .ok (.reference name)
  resolved : p.attrs.decl? n = some decl
  owned : p.attrs.scope? n = some scope
  bound : p.constant? decl = none →
    (∃ h, decl = .host ⟨h, .value⟩ ∧ scope = p.attrs.rootScope) ∨
    ∃ d kind, decl = .node d ∧ p.arena.kind? d = some kind ∧ kind.isVariable = true

namespace Program.Denotes

variable {p : Program} {n : NodeId} {name : Name} {decl : Decl} {scope : ScopeId}

/-- A name is read from the frame of its scope, or denotes its declaration. -/
theorem readName_eq (h : p.Denotes n name decl scope) {env : Env} {fs : Frames}
    (rooted : fs.scope? env.root = some p.attrs.rootScope) {v : Value}
    (here : env.get fs scope name (p.text name) = .ok v) :
    p.readName env fs n name = .ok ((p.constant? decl).getD v) := by
  cases fixed : p.constant? decl with
  | none =>
    rcases h.bound fixed with ⟨host, rfl, rfl⟩ | ⟨d, kind, rfl, found, variable_⟩
    · have frame : env.frameFor fs p.attrs.rootScope = some env.root := if_pos rooted
      rw [Env.get, frame, Option.bind_some] at here
      cases read : fs.lookup env.root name with
      | none =>
        rw [read] at here
        cases here
      | some u =>
        rw [read] at here
        cases here
        simp only [readName, h.resolved, read, Option.getD_none]
    · simp only [readName, h.resolved, kind_eq_ok.mpr found, Abort.ofRead, bind, Except.bind]
      cases kind with
      | varDecl | parameter =>
        simp only [scopeOf, h.owned, here, Abort.ofFault, Option.getD_none]
      | _ => cases variable_
  | some u =>
    rw [Option.getD_some]
    cases decl with
    | host host =>
      obtain ⟨text, kind⟩ := host
      cases kind <;> cases fixed <;> simp only [readName, h.resolved]
    | node d =>
      simp only [constant?] at fixed
      split at fixed
      · next found =>
        cases fixed
        simp only [readName, h.resolved, kind_eq_ok.mpr found, Abort.ofRead, bind, Except.bind]
      · next found =>
        cases fixed
        simp only [readName, h.resolved, kind_eq_ok.mpr found, Abort.ofRead, bind, Except.bind]
      · cases fixed

end Program.Denotes

namespace Recording.Agrees

variable {events before : List Event} {b : Builder}

/-- The references of a program denote what they were resolved to. -/
theorem denotes (h : Agrees events .top [] b) {n : NodeId} {path : List ScopeId} {text : String}
    (happens : Happens events before (.reference n path text)) {meaning : Meaning} {s : ScopeId}
    (found : resolve before path text = some (meaning, s)) :
    ∃ name, b.interner.find? text = some name ∧ b.program.Denotes n name (meaning.decl name) s := by
  obtain ⟨name, kind, known, decl, resolved⟩ := h.holds_program happens
  rw [found] at decl
  have latest := (latest_of_resolve found).2
  refine ⟨name, known, Program.kind_eq_ok.mpr kind, decl, (resolved meaning s found).1, ?_⟩
  intro free
  cases isNode : meaning.decl name with
  | node d =>
    obtain ⟨⟨declared, there, -, binds⟩, -⟩ := h.declared happens.subset latest isNode
    have there := b.makes_rooted.keeps.kind d _ there
    refine .inr ⟨d, declared, rfl, there, ?_⟩
    rw [isNode, Program.constant?, show b.program.arena.kind? d = some declared from there] at free
    cases declared with
    | varDecl | parameter => rfl
    | funDecl | structDecl => cases free
    | _ => cases binds
  | host host =>
    obtain ⟨kind, rfl⟩ : ∃ kind, meaning = .host kind := by
      cases meaning with
      | host kind => exact ⟨kind, rfl⟩
      | node | struct => cases isNode
    cases isNode
    obtain ⟨e, -, means⟩ := mem_of_latest latest
    have outermost : s = .outermost := by
      cases e with
      | host t kind' =>
        simp only [Event.meaning?] at means
        split at means
        · next same => exact same.1
        · cases means
      | declaration d s' t isStruct =>
        simp only [Event.meaning?] at means
        split at means
        · cases isStruct <;> cases means
        · cases means
      | function d s' t =>
        simp only [Event.meaning?] at means
        split at means <;> cases means
      | _ => cases means
    cases kind with
    | value => exact .inl ⟨name, rfl, outermost.trans h.nested.root.1.symm⟩
    | function | type => cases free

end Recording.Agrees

/-! ## 3. Assignments to names -/

section Assignments

open Program Turn

variable {p : Program} {who : ThreadId} {env : Env} {w w' : World} {n target value : NodeId} {name : Name}

/-- An assignment to a name that succeeds binds the name in the frame of its scope. -/
theorem evaluates_nameStore (is : p.kind n = .ok (.assignment target value))
    (targets : p.kind target = .ok (.reference name)) {v : Value} :
    p.Evaluates who env w n w' (.value v) ↔
      ∃ w₁ u scope f, p.Evaluates who env w value w₁ (.value u) ∧ p.attrs.scope? target = some scope ∧
        env.frameFor w₁.frames scope = some f ∧ v = u.widen (p.typeOf target) ∧
        w' = { w₁ with frames := w₁.frames.define f name v } := by
  rw [evaluates_iff is]
  have begins : enter p ⟨w, env, .eval n, []⟩ n (.assignment target value) =
      ⟨w, env, .eval value, [.assignName n target name]⟩ := by
    simp only [enter, targets, Abort.ofRead, orAbort, await]
  rw [begins, ends_operand fun _ _ => rfl]
  have stored : ∀ w₁ u, Ends p who
      (resume p ⟨w₁, env, .give u, []⟩ u (.assignName n target name)) w' (.value v) ↔
      ∃ scope f, p.attrs.scope? target = some scope ∧ env.frameFor w₁.frames scope = some f ∧
        v = u.widen (p.typeOf target) ∧ w' = { w₁ with frames := w₁.frames.define f name v } := by
    intro w₁ u
    have raises : ∀ {control cause},
        ¬Ends p who ((Turn.mk w₁ env control []).raise p n cause) w' (.value v) := by
      intro control cause ends
      cases (ends_raise.mp ends).2
    simp only [resume, scopeOf, Env.frameToSet]
    cases here : p.attrs.scope? target with
    | none => simp [orFault, raises]
    | some scope =>
      cases frame : env.frameFor w₁.frames scope with
      | none => simp [orFault, raises, frame]
      | some f =>
        simp only [orFault, frame, Option.some.injEq]
        refine (ends_of_over (o := .value _)).trans ?_
        refine ⟨?_, ?_⟩
        · rintro ⟨rfl, same⟩
          cases same
          exact ⟨scope, f, rfl, frame, rfl, rfl⟩
        · rintro ⟨_, _, rfl, there, rfl, rfl⟩
          cases frame.symm.trans there
          exact ⟨rfl, rfl⟩
  simp only [reduceCtorEq, and_false, exists_false, false_or, stored]
  refine ⟨?_, ?_⟩
  · rintro ⟨w₁, u, evaluates, scope, f, rest⟩
    exact ⟨w₁, u, scope, f, evaluates, rest⟩
  · rintro ⟨w₁, u, scope, f, evaluates, rest⟩
    exact ⟨w₁, u, evaluates, scope, f, rest⟩

end Assignments

/-- In every run, the root frame of whoever evaluates is the one of the root scope. -/
theorem Run.rooted_play (p : Program) (c : RunConfig) (moves : List Move) {who : ThreadId} {t : Thread}
    (found : ((initial p c).play p c moves).machine.thread? who = some t) :
    ((initial p c).play p c moves).machine.world.frames.scope? t.env.root = some p.attrs.rootScope := by
  have rooted := holds_play (fun r => r.machine.Rooted p) (rooted_initial p c)
    (fun _ _ _ h next => next.rooted h) moves
  rw [rooted.threads who t found]
  exact rooted.scope

/-! ## 4. Reading back -/

/-- Two references with the same text that are resolved alike denote the same. -/
theorem Call.denotes {p : Program} {calls : List Call} (built : Call.program calls = .ok p)
    {before before' : List Event} {path path' : List ScopeId} {text : String} {n n' : NodeId}
    (happens : Happens (Call.events calls) before (.reference n path text))
    (happens' : Happens (Call.events calls) before' (.reference n' path' text))
    (same : resolve before' path' text = resolve before path text) :
    ∃ name decl scope, p.Denotes n name decl scope ∧ p.Denotes n' name decl scope := by
  have lexical := Call.program_lexical calls
  rw [built] at lexical
  obtain ⟨fine, -, -⟩ := lexical
  rw [Call.program_eq] at built
  split at built
  · cases built
  · cases built
    cases found : resolve before path text with
    | none =>
      have problem := fine _ _ happens
      simp [Event.problem?, found] at problem
    | some result =>
      obtain ⟨meaning, s⟩ := result
      obtain ⟨name, known, here⟩ := (Call.agrees calls).denotes happens found
      obtain ⟨name', known', here'⟩ := (Call.agrees calls).denotes happens' (same.trans found)
      cases known'.symm.trans known
      exact ⟨name, _, s, here, here'⟩

namespace Program

variable {p : Program}

/-- Whenever an assignment to a name gives a value, a reference to the same name gives a value right after it.
If the name denotes a function, a struct, or a function or a type of the host, it denotes that as before.
Otherwise it gives the value of the assignment. Two references are to the same name if they have the same text
and are resolved to the same declaration. In every run, the root frame is the one of the root scope
(`Run.rooted_play`). -/
theorem assignment_read_back {calls : List Call} (built : Call.program calls = .ok p)
    {before before' : List Event} {path path' : List ScopeId} {text : String} {target reference : NodeId}
    (written : Happens (Call.events calls) before (.reference target path text))
    (read : Happens (Call.events calls) before' (.reference reference path' text))
    (same : resolve before' path' text = resolve before path text) {who : ThreadId} {env : Env} {w w' : World}
    (rooted : w.frames.scope? env.root = some p.attrs.rootScope) {n value : NodeId} {v : Value}
    (is : p.kind n = .ok (.assignment target value)) (evaluates : p.Evaluates who env w n w' (.value v)) :
    ∃ decl, p.attrs.decl? target = some decl ∧
      p.Evaluates who env w' reference w' (.value ((p.constant? decl).getD v)) ∧
      (p.Evaluates who env w' reference w' (.value v) ↔ ∀ u, p.constant? decl = some u → u = v) := by
  obtain ⟨name, decl, scope, denotes, denotes'⟩ := Call.denotes built written read same
  obtain ⟨w₁, u, scope', f, values, owned, frame, -, rfl⟩ :=
    (evaluates_nameStore is denotes.kind).mp evaluates
  cases owned.symm.trans denotes.owned
  have rooted' : (w₁.frames.define f name v).scope? env.root = some p.attrs.rootScope := by
    rw [Frames.scope?_define]
    exact values.frames.scope? rooted
  have reads : p.Evaluates who env { w₁ with frames := w₁.frames.define f name v } reference
      { w₁ with frames := w₁.frames.define f name v } (.value ((p.constant? decl).getD v)) :=
    Turn.evaluates_reference denotes'.kind (denotes'.readName_eq rooted' (Env.get_define frame name v _))
  refine ⟨decl, denotes.resolved, reads, ?_⟩
  cases fixed : p.constant? decl with
  | none =>
    rw [fixed] at reads
    exact ⟨nofun, fun _ => reads⟩
  | some c =>
    rw [fixed] at reads
    refine ⟨?_, ?_⟩
    · rintro reads' u ⟨⟩
      exact (Outcome.value.inj (reads.unique reads').2).symm
    · intro equal
      cases equal c rfl
      exact reads

/-! ### A variable, and a function -/

/-- An integer is assigned to a variable of floats, and the variable is mentioned again. -/
def readBackCalls : List Call :=
  [.plain (.int 1), .var "x" .float ⟨0⟩, .plain (.int 3), .set "x" ⟨2⟩, .reference "x"]

/-- The value that the assignment gives is the one that is read, which is a float. -/
theorem float_read_back :
    let p := (Call.built readBackCalls).program
    let m := (Run.initial p default).machine
    Call.program readBackCalls = .ok p ∧
      ∃ w' v, p.Evaluates .main m.main.env m.world ⟨4⟩ w' (.value v) ∧
        p.Evaluates .main m.main.env w' ⟨6⟩ w' (.value v) ∧ v.typeName = "Float" := by
  intro p m
  have fine : problems (Call.events readBackCalls) = [] := by decide +kernel
  have built : Call.program readBackCalls = .ok p := by
    rw [Call.program_eq, fine]
    rfl
  have written : Happens (Call.events readBackCalls) ((Call.events readBackCalls).take 22)
      (.reference ⟨3⟩ [.outermost] "x") := ⟨(Call.events readBackCalls).drop 23, rfl⟩
  have read : Happens (Call.events readBackCalls) ((Call.events readBackCalls).take 28)
      (.reference ⟨6⟩ [.outermost] "x") := ⟨(Call.events readBackCalls).drop 29, rfl⟩
  have same : resolve ((Call.events readBackCalls).take 28) [.outermost] "x" =
      resolve ((Call.events readBackCalls).take 22) [.outermost] "x" := by decide +kernel
  have rooted : m.world.frames.scope? m.main.env.root = some p.attrs.rootScope :=
    Run.rooted_play p default [] (show m.thread? .main = some m.main from rfl)
  have is : p.kind ⟨4⟩ = .ok (.assignment ⟨3⟩ ⟨2⟩) := kind_eq_ok.mpr (by decide +kernel)
  have target : p.kind ⟨3⟩ = .ok (.reference ⟨12⟩) := kind_eq_ok.mpr (by decide +kernel)
  have three : p.kind ⟨2⟩ = .ok (.intLiteral 3) := kind_eq_ok.mpr (by decide +kernel)
  have value : p.Evaluates .main m.main.env m.world ⟨2⟩ m.world (.value (.int 3)) :=
    (evaluates_iff three).mpr (Turn.ends_give.mpr ⟨rfl, rfl⟩)
  have assigned := (evaluates_nameStore is target).mpr ⟨m.world, .int 3, .outermost, Frames.root, value,
    by decide +kernel, by decide +kernel, rfl, rfl⟩
  obtain ⟨decl, resolved, -, reads⟩ := assignment_read_back built written read same rooted is assigned
  have variable_ : p.attrs.decl? ⟨3⟩ = some (.node ⟨1⟩) := by decide +kernel
  cases resolved.symm.trans variable_
  have bound : p.constant? (.node ⟨1⟩) = none := by decide +kernel
  exact ⟨built, _, _, assigned, reads.mpr (by simp [bound]), by decide +kernel⟩

/-- A function is declared, and an integer is assigned to its name. -/
def lostCalls : List Call :=
  [.function "f" [] .void [], .plain (.int 1), .set "f" ⟨2⟩, .reference "f"]

/-- The assignment gives the integer, and a reference at the same place gives the function. -/
theorem function_not_read_back :
    let p := (Call.built lostCalls).program
    let m := (Run.initial p default).machine
    Call.program lostCalls = .ok p ∧
      (∃ before before', Happens (Call.events lostCalls) before (.reference ⟨3⟩ [.outermost] "f") ∧
        Happens (Call.events lostCalls) before' (.reference ⟨6⟩ [.outermost] "f") ∧
        resolve before' [.outermost] "f" = resolve before [.outermost] "f") ∧
      p.kind ⟨4⟩ = .ok (.assignment ⟨3⟩ ⟨2⟩) ∧
      ∃ w', p.Evaluates .main m.main.env m.world ⟨4⟩ w' (.value (.int 1)) ∧
        p.Evaluates .main m.main.env w' ⟨6⟩ w' (.value (.function (.node ⟨0⟩))) ∧
        ¬p.Evaluates .main m.main.env w' ⟨6⟩ w' (.value (.int 1)) := by
  intro p m
  have fine : problems (Call.events lostCalls) = [] := by decide +kernel
  have built : Call.program lostCalls = .ok p := by
    rw [Call.program_eq, fine]
    rfl
  have written : Happens (Call.events lostCalls) ((Call.events lostCalls).take 24)
      (.reference ⟨3⟩ [.outermost] "f") := ⟨(Call.events lostCalls).drop 25, rfl⟩
  have read : Happens (Call.events lostCalls) ((Call.events lostCalls).take 30)
      (.reference ⟨6⟩ [.outermost] "f") := ⟨(Call.events lostCalls).drop 31, rfl⟩
  have is : p.kind ⟨4⟩ = .ok (.assignment ⟨3⟩ ⟨2⟩) := kind_eq_ok.mpr (by decide +kernel)
  have target : p.kind ⟨3⟩ = .ok (.reference ⟨12⟩) := kind_eq_ok.mpr (by decide +kernel)
  have reference : p.kind ⟨6⟩ = .ok (.reference ⟨12⟩) := kind_eq_ok.mpr (by decide +kernel)
  have one : p.kind ⟨2⟩ = .ok (.intLiteral 1) := kind_eq_ok.mpr (by decide +kernel)
  have value : p.Evaluates .main m.main.env m.world ⟨2⟩ m.world (.value (.int 1)) :=
    (evaluates_iff one).mpr (Turn.ends_give.mpr ⟨rfl, rfl⟩)
  have assigned : p.Evaluates .main m.main.env m.world ⟨4⟩
      { m.world with frames := m.world.frames.define Frames.root ⟨12⟩ (.int 1) } (.value (.int 1)) :=
    (evaluates_nameStore is target).mpr ⟨m.world, .int 1, .outermost, Frames.root, value,
      by decide +kernel, by decide +kernel, by decide +kernel, rfl⟩
  have reads : p.Evaluates .main m.main.env
      { m.world with frames := m.world.frames.define Frames.root ⟨12⟩ (.int 1) } ⟨6⟩
      { m.world with frames := m.world.frames.define Frames.root ⟨12⟩ (.int 1) }
      (.value (.function (.node ⟨0⟩))) :=
    Turn.evaluates_reference reference (by decide +kernel)
  refine ⟨built, ⟨_, _, written, read, by decide +kernel⟩, is, _, assigned, reads, ?_⟩
  intro other
  cases (reads.unique other).2

end Program

end Strand
