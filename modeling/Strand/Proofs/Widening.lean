import Strand.Proofs.Calls.Order
import Strand.Proofs.Reach

/-!
# No integer in a variable of floats

An integer may be given where a float is declared, and becomes a float when it is bound. A name is bound at
four places: by its declaration, by the call whose parameter it is, by an assignment, and by the launch of
its declaration, which binds the absent value. Each of them goes by the type of another node: the
declaration's own, the parameter's, or that of the reference on the left of the assignment.

In a program that was built these types are the same. A name is declared once in a scope, a reference has
the type of the declaration that it denotes, and a reference in the scope of a variable denotes that
variable, unless the host has declared the name again behind it (`Program.Widens`). So no frame of the scope
ever holds an integer there, whoever wrote it (`Run.floats_stay_floats`).
-/

set_option autoImplicit false

namespace Strand

/-! ## 1. Variables of floats -/

namespace Program

/-- A node declares a variable or a parameter of a name. -/
def DeclaresVariable (p : Program) (n : NodeId) (name : Name) : Prop :=
  ∃ kind, p.arena.kind? n = some kind ∧ kind.isVariable = true ∧ kind.declaredName? = some name

instance (p : Program) (n : NodeId) (name : Name) : Decidable (p.DeclaresVariable n name) :=
  decidable_of_iff
    ((p.arena.kind? n).any (fun kind => kind.isVariable && kind.declaredName? == some name) = true) (by
      simp [DeclaresVariable, Option.any_eq_true])

/-- A variable or a parameter of a name is declared in a scope, with the type of floats. -/
def DeclaresFloat (p : Program) (scope : ScopeId) (name : Name) : Prop :=
  ∃ n, p.DeclaresVariable n name ∧ p.attrs.scope? n = some scope ∧ p.typeOf n = .float

/-- A node that goes with a write of a name: a declaration of it, or a reference to it that is assigned. -/
inductive Writes (p : Program) (n : NodeId) (name : Name) : Prop
  | declaration (declares : p.DeclaresVariable n name)
  | reference (found : p.arena.kind? n = some (.reference name))

/-- Whatever goes with a write of a variable of floats has the type of floats, and the parameters of a
function belong to its scope. -/
structure Widens (p : Program) : Prop where
  writes : ∀ n name scope, p.Writes n name → p.attrs.scope? n = some scope →
    p.DeclaresFloat scope name → p.typeOf n = .float
  parameters : ∀ n name parameters body scope, p.arena.kind? n = some (.funDecl name parameters body) →
    p.attrs.bodyScope? n = some scope → ∀ m ∈ parameters, p.attrs.scope? m = some scope

end Program

theorem Value.widen_float (v : Value) (k : Int64) : v.widen .float ≠ .int k := by
  cases v <;> nofun

/-- A binding of a name in a scope is no integer, if the name is a variable of floats there. -/
def Program.Fits (p : Program) (scope : ScopeId) (name : Name) (v : Value) : Prop :=
  p.DeclaresFloat scope name → ∀ k, v ≠ .int k

theorem Program.fits_empty (p : Program) (scope : ScopeId) (name : Name) (v : Value)
    (found : Bindings.empty.find? name = some v) : p.Fits scope name v := by
  cases found

/-- No variable of floats is an integer in any frame of its scope. -/
def Frames.Widened (p : Program) (fs : Frames) : Prop :=
  ∀ f scope name v, fs.scope? f = some scope → fs.lookup f name = some v → p.Fits scope name v

theorem Program.Widens.fits {p : Program} (widens : p.Widens) {n : NodeId} {name : Name} {scope : ScopeId}
    (writes : p.Writes n name) (here : p.attrs.scope? n = some scope) (v : Value) :
    p.Fits scope name (v.widen (p.typeOf n)) := by
  intro declared k
  rw [widens.writes n name scope writes here declared]
  exact v.widen_float k

namespace Frames.Widened

variable {p : Program} {fs : Frames}

theorem define (h : fs.Widened p) {f : FrameId} {scope : ScopeId} (owns : fs.scope? f = some scope)
    {name : Name} {v : Value} (fits : p.Fits scope name v) : (fs.define f name v).Widened p := by
  intro g scope' other w owned found
  rw [scope?_define] at owned
  rw [lookup_define] at found
  split at found
  · next same =>
    obtain ⟨rfl, rfl, -⟩ := same
    cases owns.symm.trans owned
    cases found
    exact fits
  · exact h g scope' other w owned found

theorem push (h : fs.Widened p) (scope : ScopeId) {bindings : Bindings} (parent : Option FrameId)
    (fits : ∀ name v, bindings.find? name = some v → p.Fits scope name v) :
    (fs.push scope bindings parent).2.Widened p := by
  intro f scope' name v owned found
  rw [lookup_push_eq] at found
  split at found
  · next same =>
    rw [same, scope?_push] at owned
    cases owned
    exact fits name v found
  · next other =>
    refine h f scope' name v ?_ found
    rwa [scope?, frame?_push_eq, if_neg other] at owned

end Frames.Widened

/-- The parameters of a call are widened, each by its own type. -/
theorem Program.Widens.bindParameters {p : Program} (widens : p.Widens) {scope : ScopeId}
    {parameters : List NodeId} (here : ∀ m ∈ parameters, p.attrs.scope? m = some scope)
    {arguments : List Value} {bindings bound : Bindings}
    (before : ∀ name v, bindings.find? name = some v → p.Fits scope name v)
    (binds : p.bindParameters parameters arguments bindings = .ok bound) :
    ∀ name v, bound.find? name = some v → p.Fits scope name v := by
  induction parameters generalizing arguments bindings with
  | nil =>
    cases binds
    exact before
  | cons parameter parameters ih =>
    obtain ⟨first, rest⟩ := List.forall_mem_cons.mp here
    cases arguments with
    | nil =>
      cases binds
      exact before
    | cons argument arguments =>
      simp only [Program.bindParameters, bind, Except.bind] at binds
      split at binds
      · cases binds
      · next kind read =>
        have found := Program.kind_eq_ok.mp read
        split at binds
        · next name =>
          refine ih rest ?_ binds
          intro other v inside
          rw [Bindings.find?_insert] at inside
          split at inside
          · next same =>
            cases inside
            exact same ▸ widens.fits (.declaration ⟨_, found, rfl, rfl⟩) first argument
          · exact before other v inside
        · exact ih rest before binds

/-! ## 2. Steps -/

/-- Whatever a thread will bind, it has the node that goes with it. -/
def Thread.Writes (p : Program) (t : Thread) : Prop :=
  ∀ waiting ∈ t.stack, ∀ n name, waiting.Stores n name → p.Writes n name

theorem Env.scope?_frameFor {env : Env} {fs : Frames} {scope : ScopeId} {f : FrameId}
    (found : env.frameFor fs scope = some f) : fs.scope? f = some scope := by
  unfold frameFor at found
  split at found
  · next owns =>
    cases found
    exact owns
  · rw [Frames.owner?_eq_find?] at found
    simpa using List.find?_some found

theorem Pending.LeftBy.writes {p : Program} {control : Control} {waiting : Pending}
    (left : waiting.LeftBy p control) {n : NodeId} {name : Name} (stores : waiting.Stores n name) :
    p.Writes n name := by
  cases left with
  | plain _ _ plain => cases stores <;> cases plain
  | declaration n initializer name kind =>
    cases stores
    exact .declaration ⟨_, kind, rfl, rfl⟩
  | assignName n target value name kind refers =>
    cases stores
    exact .reference refers

namespace Turn

variable {p : Program} {s s' : Turn}

/-- What waits after a step waited before it, or has been left by it. -/
theorem Course.writes (course : Course p s s') (h : s.thread.Writes p) : s'.thread.Writes p := by
  obtain ⟨taken, left, below, exchange⟩ := course.exists_exchange
  intro waiting member n name stores
  rw [Turn.thread, exchange.after] at member
  rcases List.mem_append.mp member with new | old
  · exact (exchange.leftBy waiting new n name stores).writes stores
  · refine h waiting ?_ n name stores
    rw [Turn.thread, exchange.before]
    exact List.mem_append_right _ old

/-- Whatever a step binds is widened. -/
theorem Course.widened (course : Course p s s') (widens : p.Widens) (writes : s.thread.Writes p)
    (h : s.world.frames.Widened p) : s'.world.frames.Widened p := by
  cases course with
  | still same => exact same ▸ h
  | idle frames | back _ _ frames | watch _ _ _ _ _ _ frames | part _ _ _ _ _ _ frames
  | run _ _ _ _ frames | launch _ _ _ _ frames | take _ _ frames => exact frames ▸ h
  | store v waiting n name scope f gives stack stores here found env frames =>
    have waits : waiting ∈ s.stack := stack ▸ List.mem_cons_self
    have own : p.Writes n name := writes waiting waits n name stores
    exact frames ▸ h.define (Env.scope?_frameFor found) (widens.fits own here v)
  | block n statements scope evaluates kind here current frames =>
    exact frames ▸ h.push scope _ (p.fits_empty scope)
  | call span function arguments name parameters body scope bindings invokes kind opens bound current
      frames =>
    have here := widens.parameters function name parameters body scope kind opens
    exact frames ▸ h.push scope _ (widens.bindParameters here (p.fits_empty scope) bound)
  | launchDecl n declaration initializer name scope f evaluates kind declares here found frames =>
    exact frames ▸ h.define (Env.scope?_frameFor found) fun _ => nofun

end Turn

/-! ## 3. Programs that were built -/

namespace Event

/-- The scope and the name of a declaration. -/
def declares? : Event → Option (ScopeId × String)
  | declaration _ s text _ _ | function _ s text => some (s, text)
  | _ => none

/-- The name that the host declares. -/
def host? : Event → Option String
  | host text _ => some text
  | _ => none

variable {e : Event} {s : ScopeId} {text : String}

theorem isSome_meaning (declares : e.declares? = some (s, text)) : (e.meaning? s text).isSome := by
  cases e <;> cases declares <;> simp [meaning?]

/-- A declaration is no problem if the name is free. -/
theorem latest_of_fine {before : List Event} (declares : e.declares? = some (s, text))
    (fine : e.problem? before = none) : latest before s text = none := by
  cases e <;> cases declares <;> simpa [problem?] using fine

end Event

theorem isSome_latest {events : List Event} {e : Event} {s : ScopeId} {text : String} (member : e ∈ events)
    (means : (e.meaning? s text).isSome) : (latest events s text).isSome := by
  rw [latest, List.findSome?_isSome_iff]
  exact ⟨e, List.mem_reverse.mpr member, means⟩

/-- Without a problem, a name is declared once in a scope. -/
theorem declared_once {events : List Event}
    (fine : ∀ before e, Happens events before e → e.problem? before = none) {e e' : Event} {s : ScopeId}
    {text : String} (member : e ∈ events) (member' : e' ∈ events) (declares : e.declares? = some (s, text))
    (declares' : e'.declares? = some (s, text)) : e = e' := by
  obtain ⟨before, happens⟩ := exists_happens member
  obtain ⟨before', happens'⟩ := exists_happens member'
  -- the later of two declarations would find the name taken
  have later : ∀ {before before' : List Event} {e e' : Event}, Happens events before' e' →
      e.declares? = some (s, text) → e'.declares? = some (s, text) → ¬ before ++ [e] <+: before' := by
    intro before before' e e' happens' declares declares' earlier
    have there : e ∈ before' := earlier.subset (List.mem_append_right _ (List.mem_singleton_self e))
    have taken := isSome_latest there (Event.isSome_meaning declares)
    rw [Event.latest_of_fine declares' (fine _ _ happens')] at taken
    cases taken
  rcases List.prefix_or_prefix_of_prefix happens happens' with first | first
  · rcases List.prefix_concat_iff.mp first with same | earlier
    · exact List.singleton_inj.mp (List.append_inj' same rfl).2
    · exact absurd earlier (later happens' declares declares')
  · rcases List.prefix_concat_iff.mp first with same | earlier
    · exact (List.singleton_inj.mp (List.append_inj' same rfl).2).symm
    · exact absurd earlier (later happens declares' declares)

namespace Recording.Agrees

variable {events : List Event} {b : Builder}

/-- A variable was recorded as a declaration. -/
theorem declaration_of_variable (h : Agrees events .top [] b) {n : NodeId} {name : Name}
    (declares : b.program.DeclaresVariable n name) {s : ScopeId} (here : b.program.attrs.scope? n = some s) :
    ∃ isStruct children, .declaration n s (b.program.text name) isStruct children ∈ events := by
  obtain ⟨kind, found, variable_, declares⟩ := declares
  have inner : ∀ statements, kind ≠ .root statements := by
    rintro statements rfl
    cases variable_
  obtain ⟨e, member, made⟩ := h.exists_made found inner
  obtain ⟨before, holds⟩ := h.exists_holds member
  cases e with
  | declaration m s' text isStruct children =>
    cases made
    obtain ⟨name', kind', there, -, -, named, -, known, scope, -⟩ := holds
    cases there.symm.trans found
    cases (NodeKind.declaredName?_of_binds? named).symm.trans declares
    cases scope.symm.trans here
    rw [h.text_eq known]
    exact ⟨isStruct, children, member⟩
  | node m children =>
    cases made
    obtain ⟨kind', there, -, silent⟩ := holds
    cases there.symm.trans found
    simp [NodeKind.isSilent, variable_] at silent
  | reference m path text =>
    cases made
    obtain ⟨name', there, -⟩ := holds
    cases there.symm.trans found
    cases variable_
  | function m s' text =>
    cases made
    obtain ⟨name', parameters, body, there, -⟩ := holds
    cases there.symm.trans found
    cases variable_
  | block m s' statements =>
    cases made
    cases holds.1.symm.trans found
    cases variable_
  | _ => cases made

/-- A reference in the scope of a variable of its name denotes the variable, if the host has not declared the
name as well. -/
theorem type_of_reference (h : Agrees events .top [] b)
    (fine : ∀ before e, Happens events before e → e.problem? before = none) {n d : NodeId} {name : Name}
    {s : ScopeId} (refers : b.program.arena.kind? n = some (.reference name))
    (here : b.program.attrs.scope? n = some s) (declares : b.program.DeclaresVariable d name)
    (there : b.program.attrs.scope? d = some s)
    (hosts : ∀ kind, s = .outermost → .host (b.program.text name) kind ∉ events) :
    b.program.typeOf n = b.program.typeOf d := by
  obtain ⟨isStruct, children, declared⟩ := h.declaration_of_variable declares there
  have resolved := h.resolved fine
  obtain ⟨path, recorded⟩ := resolved.recorded n name refers
  obtain ⟨before, happens⟩ := exists_happens recorded
  obtain ⟨name', ⟨meaning, s'⟩, -, resolves, denotes⟩ := resolved.refers before n path _ happens
  cases denotes.kind.symm.trans refers
  cases denotes.scope.symm.trans here
  -- the event that gave the name its meaning
  obtain ⟨outside, -, found⟩ := List.exists_of_findSome?_eq_some resolves
  obtain ⟨meaning', latest, same⟩ := Option.map_eq_some_iff.mp found
  cases same
  obtain ⟨e, earlier, means⟩ := mem_of_latest latest
  have member : e ∈ events := happens.subset earlier
  have once : e.declares? = some (s', b.program.text name) →
      e = .declaration d s' (b.program.text name) isStruct children :=
    fun declares => declared_once fine member declared declares rfl
  have isNode : meaning.decl name = .node d := by
    cases e with
    | declaration id s t isStruct' children' =>
      simp only [Event.meaning?] at means
      split at means
      · next same =>
        obtain ⟨rfl, rfl⟩ := same
        cases once rfl
        cases means
        split <;> rfl
      · cases means
    | function id s t =>
      simp only [Event.meaning?] at means
      split at means
      · next same =>
        obtain ⟨rfl, rfl⟩ := same
        cases once rfl
      · cases means
    | host t kind =>
      simp only [Event.meaning?] at means
      split at means
      · next same =>
        obtain ⟨outermost, rfl⟩ := same
        exact absurd member (hosts kind outermost)
      · cases means
    | _ => cases means
  obtain ⟨-, -, type⟩ := denotes.node d isNode
  simp only [Program.typeOf, Attributes.typeOf, type]

theorem widens (h : Agrees events .top [] b)
    (fine : ∀ before e, Happens events before e → e.problem? before = none)
    (hosts : ∀ text kind, .host text kind ∈ events → ∀ e ∈ events, e.declares? ≠ some (.outermost, text)) :
    b.program.Widens := by
  refine ⟨?_, ?_⟩
  · rintro n name s writes here ⟨d, declares, there, float⟩
    obtain ⟨isStruct, children, declared⟩ := h.declaration_of_variable declares there
    cases writes with
    | declaration own =>
      obtain ⟨isStruct', children', own⟩ := h.declaration_of_variable own here
      cases declared_once fine own declared rfl rfl
      exact float
    | reference refers =>
      rw [← float]
      refine h.type_of_reference fine refers here declares there ?_
      rintro kind rfl member
      exact hosts _ kind member _ declared rfl
  · intro n name parameters body s found opens m member
    obtain ⟨s', inner, opens', -, -, -, -, each⟩ := h.nested.function n name parameters body found
    rw [Program.opens?, found] at opens'
    cases opens.symm.trans opens'
    exact each m member

end Recording.Agrees

/-- The names that calls of the builder declare on behalf of the host. -/
def Call.builtins (calls : List Call) : List String :=
  ((Call.events calls).drop preludeEvents.length).filterMap Event.host?

/-- The names that a program declares. -/
def Call.declared (calls : List Call) : List String :=
  (Call.events calls).filterMap fun e => e.declares?.map Prod.snd

/-- No name is declared by the host and by the program in the outermost scope: what the host has declared
before the first call is taken, and nothing is declared behind what is there. -/
theorem Call.hosts_apart {calls : List Call}
    (fine : ∀ before e, Happens (Call.events calls) before e → e.problem? before = none)
    (apart : ∀ text ∈ Call.builtins calls, text ∉ Call.declared calls) {text : String} {kind : HostKind}
    (member : .host text kind ∈ Call.events calls) :
    ∀ e ∈ Call.events calls, e.declares? ≠ some (.outermost, text) := by
  intro e declared declares
  obtain ⟨later, same⟩ : preludeEvents <+: Call.events calls := (Call.ordersAll .top calls).grows _
  rw [← same] at member
  rcases List.mem_append.mp member with first | builtin
  · obtain ⟨before, happens⟩ := exists_happens declared
    have silent : e ∉ preludeEvents := by
      intro inside
      have none : ∀ e ∈ preludeEvents, e.declares? = none := by decide
      rw [none e inside] at declares
      cases declares
    have older : preludeEvents <+: before := by
      have prelude : preludeEvents <+: Call.events calls := ⟨later, same⟩
      rcases List.prefix_or_prefix_of_prefix prelude happens with shorter | longer
      · refine (List.prefix_concat_iff.mp shorter).resolve_left ?_
        intro whole
        exact silent (whole ▸ List.mem_append_right _ (List.mem_singleton_self e))
      · exact absurd (longer.subset (List.mem_append_right _ (List.mem_singleton_self e))) silent
    have means : ((Event.host text kind).meaning? .outermost text).isSome := by simp [Event.meaning?]
    have taken := isSome_latest (older.subset first) means
    rw [Event.latest_of_fine declares (fine _ _ happens)] at taken
    cases taken
  · refine apart text ?_ ?_
    · rw [Call.builtins, ← same, List.drop_left, List.mem_filterMap]
      exact ⟨_, builtin, rfl⟩
    · rw [Call.declared, List.mem_filterMap]
      exact ⟨e, declared, by rw [declares]; rfl⟩

/-! ## 4. Runs -/

/-- No variable of floats is an integer, and none will be. -/
structure Machine.Widened (p : Program) (m : Machine) : Prop where
  frames : m.world.frames.Widened p
  threads : m.Each (Thread.Writes p)

theorem Machine.Widened.next {p : Program} (widens : p.Widens) {m m' : Machine} {seen : Option Sighting}
    (h : m.Widened p) (next : Next p m seen m') : m'.Widened p := by
  refine ⟨?_, h.threads.next next ?_ ?_⟩
  · cases next with
    | turn who t found silent going =>
      have writes := h.threads.threads who t found
      exact (Turn.step_course p who (t.inside m.world)).widened widens writes h.frames
    | launch who t rest job found launches =>
      show (m.setThread who rest).world.frames.Widened p
      rw [world_setThread]
      exact h.frames
    | _ => exact h.frames
  · intro who t found writes
    exact (Turn.step_course p who (t.inside m.world)).writes writes
  · intro t rest job writes launches
    obtain ⟨jobs, -, rfl⟩ := launch?_eq_some launches
    exact ⟨writes, nofun⟩

namespace Run

variable {p : Program}

/-- Before the first move only the constants are bound. -/
theorem widened_initial (p : Program) (c : RunConfig) : (initial p c).machine.Widened p := by
  obtain ⟨bindings, machine, only, -⟩ := machine_initial_single p c
  rw [machine]
  refine ⟨?_, ?_, nofun⟩
  · rintro f scope name v - found - k rfl
    obtain ⟨text, constant⟩ := only name _ (Frames.lookup_single found)
    simp [hostConstants] at constant
  · intro who t found
    cases who with
    | task id => cases found
    | main =>
      cases found
      exact List.forall_mem_singleton.mpr (by rintro _ _ ⟨⟩)

theorem widened_play (widens : p.Widens) (c : RunConfig) (moves : List Move) :
    ((initial p c).play p c moves).machine.Widened p := by
  refine holds_play (fun r => r.machine.Widened p) (widened_initial p c) (fun r r' _ h next => ?_) moves
  cases next with
  | same | look | giveUp => exact h
  | step seen machine next here => exact h.next widens next
  | close | report => exact ⟨h.frames, h.threads.threads, h.threads.jobs⟩

/-- In a program that was built, and whose names are not declared by the host as well, the binding of a
variable or a parameter with the type of floats is no integer: not in any frame of its scope, and not after
any moves, whichever thread has bound it and on whatever way. -/
theorem floats_stay_floats {calls : List Call} (built : Call.program calls = .ok p)
    (apart : ∀ text ∈ Call.builtins calls, text ∉ Call.declared calls) (c : RunConfig) (moves : List Move)
    {n : NodeId} {name : Name} {scope : ScopeId} (declares : p.DeclaresVariable n name)
    (here : p.attrs.scope? n = some scope) (float : p.typeOf n = .float) (f : FrameId)
    (owns : ((initial p c).play p c moves).machine.world.frames.scope? f = some scope) (k : Int64) :
    ((initial p c).play p c moves).machine.world.frames.lookup f name ≠ some (.int k) := by
  have widens : p.Widens := by
    have lexical := Call.program_lexical calls
    rw [built] at lexical
    have fine := lexical.1
    rw [Call.program_eq] at built
    split at built
    · cases built
    · cases built
      exact (Call.agrees calls).widens fine fun text kind => Call.hosts_apart fine apart
  intro found
  exact (widened_play widens c moves).frames f scope name _ owns found ⟨n, declares, here, float⟩ k rfl

/-! ### A variable that two threads bind -/

/-- The declaration of `x` is launched, with the value of a call that is given an integer, and meanwhile an
integer is assigned to it. -/
def wideningCalls : List Call :=
  [.function "keep" [("n", .float)] .float [.reference "n", .ret (some ⟨2⟩)],
    .plain (.int 2), .launchVar "x" .float "keep" [⟨5⟩],
    .plain (.int 3), .set "x" ⟨10⟩]

/-- The main program and the task have both bound `x`. -/
theorem widening_stays_float :
    ∃ p, Call.program wideningCalls = .ok p ∧
      let r := (initial p default).play p default
        (List.replicate 15 .main ++ .start 0 :: List.replicate 20 (.task 0))
      (r.machine.world.frames.lookup Frames.root ⟨14⟩).isSome ∧
        ∀ k, r.machine.world.frames.lookup Frames.root ⟨14⟩ ≠ some (.int k) := by
  have fine : problems (Call.events wideningCalls) = [] := by decide +kernel
  have built : Call.program wideningCalls = .ok (Call.built wideningCalls).program := by
    rw [Call.program_eq, fine]
    rfl
  have apart : ∀ text ∈ Call.builtins wideningCalls, text ∉ Call.declared wideningCalls := by
    decide +kernel
  have declares : (Call.built wideningCalls).program.DeclaresVariable ⟨8⟩ ⟨14⟩ := by decide +kernel
  have here : (Call.built wideningCalls).program.attrs.scope? ⟨8⟩ = some .outermost := by decide +kernel
  refine ⟨_, built, by decide +kernel, ?_⟩
  exact floats_stay_floats built apart default _ declares here (by decide +kernel) Frames.root
    (by decide +kernel)

end Run

end Strand
