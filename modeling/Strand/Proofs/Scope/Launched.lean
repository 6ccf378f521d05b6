import Strand.Proofs.Scope.Once

/-!
# Variables of launched declarations

The launch of a declaration binds the variable to the absent value and leaves the rest to a task, which
binds the variable a second time. Nobody else does: a name is declared once in its scope, and whoever
binds the name in a frame of the scope has still to do with this declaration there
(`LaunchedVariable.lookup_of_course`). The task does nothing else, so when a value or an exit comes back
to the declaration, the task is at its end.
-/

set_option autoImplicit false

namespace Strand

/-! ## 1. How the call of a task ends -/

/-- Whether a node is an assignment to what a node declares. -/
def Program.assigns (p : Program) (declaration : NodeId) : NodeKind → Bool
  | .assignment target _ => p.attrs.decl? target == some (.node declaration)
  | _ => false

/-- A statement that launches the declaration of a variable to which nothing is assigned. -/
structure LaunchedVariable (p : Program) where
  statement : NodeId
  declaration : NodeId
  initializer : NodeId
  name : Name
  launches : p.arena.kind? statement = some (.launchDecl declaration)
  declares : p.arena.kind? declaration = some (.varDecl name initializer)
  unassigned : ∀ node ∈ p.arena.nodes.toList, p.assigns declaration node.kind = false

/-- What a variable is when the call has ended so, or not yet. -/
inductive Fate (ty : Ty) : List Outcome → Value → Prop
  | running : Fate ty [] .void
  | stored (v : Value) : Fate ty [.value v] (v.widen ty)
  | lost (e : Exit) : Fate ty [.exit e] .void

theorem Fate.unique {ty : Ty} {outcomes : List Outcome} {w w' : Value} (fate : Fate ty outcomes w)
    (fate' : Fate ty outcomes w') : w = w' := by
  cases fate <;> cases fate' <;> rfl

/-- A call ends once. -/
theorem Fate.outcomes_eq {ty : Ty} {newer outcomes : List Outcome} {w : Value}
    (fate : Fate ty (newer ++ outcomes) w) (some : outcomes ≠ []) : newer ++ outcomes = outcomes := by
  cases newer with
  | nil => rfl
  | cons first newer =>
    cases outcomes with
    | nil => exact absurd rfl some
    | cons o outcomes =>
      generalize all : first :: newer ++ o :: outcomes = list at fate
      cases fate <;> cases newer <;> cases all

namespace LaunchedVariable

variable {p : Program} (x : LaunchedVariable p)

/-- The type of the variable. -/
def type : Ty := p.typeOf x.declaration

/-- The statement has been run in a frame. -/
def RunIn (f : FrameId) (history : List Sighting) : Prop :=
  ∃ seen ∈ history, seen.evaluates x.statement ∧ seen.thread.env.current = f

instance (f : FrameId) (history : List Sighting) : Decidable (x.RunIn f history) :=
  inferInstanceAs (Decidable (∃ seen ∈ history,
    seen.evaluates x.statement = true ∧ seen.thread.env.current = f))

/-- How the call has ended, at the moment when a task that has nothing left but the declaration of the
variable in a frame has come back from the call. -/
def callOutcome? (f : FrameId) (seen : Sighting) : Option Outcome :=
  match seen with
  | ⟨.task _, env, control, [.declaration n _]⟩ =>
    if n = x.declaration ∧ env.current = f then Thread.outcome? ⟨env, control, []⟩ else none
  | _ => none

/-- How calls have ended whose value is for the variable of a frame. -/
def callOutcomes (f : FrameId) (history : List Sighting) : List Outcome :=
  history.filterMap (x.callOutcome? f)

/-- A statement that launches the declaration. -/
def isLaunch (n : NodeId) : Bool :=
  match p.arena.kind? n with
  | some (.launchDecl declaration) => declaration == x.declaration
  | _ => false

/-- The declaration, or a statement that launches it. -/
def concerns (n : NodeId) : Bool := n == x.declaration || x.isLaunch n

theorem decl?_of_assignment {n target value : NodeId}
    (kind : p.arena.kind? n = some (.assignment target value)) :
    p.attrs.decl? target ≠ some (.node x.declaration) := by
  obtain ⟨node, found, same⟩ := Option.map_eq_some_iff.mp kind
  have free := x.unassigned node (Array.mem_toList_iff.mpr (Array.mem_of_getElem? found))
  rw [same] at free
  simpa [Program.assigns] using free

theorem isLaunch_iff {n : NodeId} :
    x.isLaunch n = true ↔ p.arena.kind? n = some (.launchDecl x.declaration) := by
  unfold isLaunch
  split
  · next declaration found => simp [found]
  · next other => exact ⟨nofun, fun launches => (other _ launches).elim⟩

theorem concerns_iff {n : NodeId} : x.concerns n = true ↔
    n = x.declaration ∨ p.arena.kind? n = some (.launchDecl x.declaration) := by
  rw [concerns, Bool.or_eq_true, beq_iff_eq, isLaunch_iff]

theorem concerns_declaration : x.concerns x.declaration = true := x.concerns_iff.mpr (.inl rfl)

theorem concerns_of_isLaunch {n : NodeId} (launch : x.isLaunch n = true) : x.concerns n = true :=
  x.concerns_iff.mpr (.inr (x.isLaunch_iff.mp launch))

theorem isLaunch_declaration : x.isLaunch x.declaration = false := by
  rw [isLaunch, x.declares]

theorem callOutcome?_eq_some {f : FrameId} {seen : Sighting} {o : Outcome}
    (ends : x.callOutcome? f seen = some o) :
    ∃ id name, seen.who = .task id ∧ seen.thread.stack = [.declaration x.declaration name] ∧
      seen.thread.env.current = f ∧ ((∃ v, seen.thread.control = .give v ∧ o = .value v) ∨
        ∃ e, seen.thread.control = .leave e ∧ o = .exit e) := by
  unfold callOutcome? at ends
  split at ends
  · next id env control n name =>
    split at ends
    · next here =>
      obtain ⟨rfl, same⟩ := here
      exact ⟨id, name, rfl, rfl, same, (Thread.outcome?_eq_some ends).2⟩
    · cases ends
  · cases ends

end LaunchedVariable

/-! ## 2. Where the declaration is due -/

namespace LaunchedVariable

variable {p : Program} (x : LaunchedVariable p) {context : NodeId → Context} {rules : Rules}
  (made : p.Made context rules)

include made

/-- The declaration is run where the statements are that launch it. -/
theorem context_eq {n : NodeId} (concerned : x.concerns n = true) :
    (context x.declaration).scopes = (context n).scopes ∧
      (context x.declaration).position = (context n).position := by
  rcases x.concerns_iff.mp concerned with rfl | kind
  · exact ⟨rfl, rfl⟩
  · have statement := (made.nodes n _ kind).substatements x.declaration List.mem_cons_self
    exact ⟨statement.scopes, statement.position⟩

theorem exclusive_of {chosen : NodeId → Bool} (only : ∀ n, chosen n = true → x.concerns n = true)
    (launch : chosen x.declaration = true → ∀ n, x.isLaunch n = true → chosen n = true) :
    (p.scoping context rules.inPlace).Exclusive chosen := by
  refine ⟨fun n kind one found => ?_, fun n declaration kind one => ?_, fun m n one other => ?_⟩
  · rcases x.concerns_iff.mp (only n one) with rfl | launches
    · cases x.declares.symm.trans found
      exact ⟨rfl, nofun⟩
    · cases launches.symm.trans found
      exact ⟨rfl, nofun⟩
  · rcases x.concerns_iff.mp (only declaration one) with rfl | launches
    · exact launch one n (x.isLaunch_iff.mpr kind)
    · -- what is launched is the declaration of a variable
      obtain ⟨part, found, shape⟩ := (made.nodes n _ kind).shapes declaration List.mem_cons_self
      cases launches.symm.trans found
      cases shape
  · exact (x.context_eq made (only m one)).2.symm.trans (x.context_eq made (only n other)).2

theorem exclusive_concerns : (p.scoping context rules.inPlace).Exclusive x.concerns :=
  x.exclusive_of made (fun _ => id) fun _ _ => x.concerns_of_isLaunch

theorem exclusive_isLaunch : (p.scoping context rules.inPlace).Exclusive x.isLaunch :=
  x.exclusive_of made (fun _ => x.concerns_of_isLaunch) fun declaration => by
    rw [x.isLaunch_declaration] at declaration
    cases declaration

theorem scope_declaration : ∃ scope, p.attrs.scope? x.declaration = some scope ∧
    (context x.declaration).scopes.head? = some scope :=
  (made.nodes x.declaration _ x.declares).fits

/-- Whoever is to run the declaration, or launch it, stands in a frame of its scope. -/
theorem scope?_of_stands {fs : Frames} {g : FrameId} {n : NodeId} (concerned : x.concerns n = true)
    (stands : (p.scoping context rules.inPlace).Stands fs g n) :
    fs.scope? g = p.attrs.scope? x.declaration := by
  obtain ⟨scope, here, head⟩ := x.scope_declaration made
  have expression : ∃ kind, p.arena.kind? n = some kind ∧ kind.isExpression = false := by
    rcases x.concerns_iff.mp concerned with rfl | kind
    · exact ⟨_, x.declares, rfl⟩
    · exact ⟨_, kind, rfl⟩
  obtain ⟨kind, found, shape⟩ := expression
  obtain ⟨scope', owns, head'⟩ := stands kind found shape
  rw [owns, here, ← head', ← head, (x.context_eq made concerned).1]
  rfl

end LaunchedVariable

/-! ## 3. Steps -/

/-- A frame that owns a scope is found where one stands in it. -/
theorem Frames.Nested.frameFor_current {G : Scoping} {fs : Frames} (nested : fs.Nested G)
    (outermost : G.attrs.parent? G.attrs.rootScope = none) {env : Env} (rooted : env.root = root)
    (live : fs.Live env.current) {scope : ScopeId} (owns : fs.scope? env.current = some scope) :
    env.frameFor fs scope = some env.current :=
  ((nested.wellNested outermost rooted live).unambiguous _ (nested.toLinked.self_mem live) scope owns).1

/-- All that is known of a thread that moves. -/
structure Turn.Orderly (p : Program) (context : NodeId → Context) (rules : Rules) (s : Turn) : Prop where
  made : p.Made context rules
  anchored : s.thread.Anchored s.world.frames
  placed : s.Placed (p.scoping context rules.inPlace)
  sound : s.thread.Sound p

namespace LaunchedVariable

variable {p : Program} (x : LaunchedVariable p) {context : NodeId → Context} {rules : Rules}
  {s s' : Turn} {f : FrameId}

/-- Whoever is to run the declaration in a frame, or launch it, finds this frame for it. -/
theorem frameFor_of_due (orderly : s.Orderly p context rules) {n : NodeId}
    (concerned : x.concerns n = true) (due : s.thread.Due s.env.current n) :
    ∃ scope, p.attrs.scope? x.declaration = some scope ∧
      s.env.frameFor s.world.frames scope = some s.env.current := by
  obtain ⟨made, anchored, placed, -⟩ := orderly
  obtain ⟨scope, here, -⟩ := x.scope_declaration made
  have owns := x.scope?_of_stands made concerned (placed.stands _ n due)
  rw [here] at owns
  exact ⟨scope, here, placed.frames.frameFor_current made.outermost anchored.root anchored.here owns⟩

/-- The statement binds the variable to the absent value, and submits the declaration. -/
theorem step_launch (orderly : s.Orderly p context rules) (who : ThreadId) {n : NodeId}
    (launches : p.arena.kind? n = some (.launchDecl x.declaration)) (evaluates : s.control = .eval n) :
    s.step p who = { s with
      world.frames := s.world.frames.define s.env.current x.name .void
      control := .submit [.eval x.declaration] } := by
  obtain ⟨scope, here, found⟩ :=
    x.frameFor_of_due orderly (x.concerns_of_isLaunch (x.isLaunch_iff.mpr launches))
      (Turn.due_of_eval evaluates)
  have frame : s.env.frameToSet s.world.frames scope (p.text x.name) = .ok s.env.current :=
    Env.frameToSet_eq_ok.mpr found
  simp only [Turn.step, evaluates, Program.kind_eq_ok.mpr launches, Turn.enter,
    Program.kind_eq_ok.mpr x.declares, Abort.ofRead, Turn.orAbort, Turn.orFault,
    Program.scopeOf_eq_ok.mpr here, frame]

/-- The declaration binds the variable to the value of its initializer. -/
theorem step_store (orderly : s.Orderly p context rules) (who : ThreadId) {v : Value}
    {name : Name} {stack : List Pending} (gives : s.control = .give v)
    (waits : s.stack = .declaration x.declaration name :: stack) :
    name = x.name ∧ s.step p who = { s with
      world.frames := s.world.frames.define s.env.current x.name (v.widen x.type)
      control := .give .void
      stack } := by
  have waiting : Pending.declaration x.declaration name ∈ s.thread.stack := by
    rw [Turn.thread, waits]
    exact List.mem_cons_self
  obtain rfl : name = x.name := by
    obtain ⟨initializer, kind⟩ := (orderly.sound.stack _ waiting).declares _ _ rfl
    cases x.declares.symm.trans kind
    rfl
  have due : s.thread.Due s.env.current x.declaration := Turn.due_of_waits waits List.mem_cons_self
  obtain ⟨scope, here, found⟩ := x.frameFor_of_due orderly x.concerns_declaration due
  have frame : s.env.frameToSet s.world.frames scope (p.text x.name) = .ok s.env.current :=
    Env.frameToSet_eq_ok.mpr found
  refine ⟨rfl, ?_⟩
  simp only [Turn.step, gives, waits, Turn.resume, Turn.orFault, Program.scopeOf_eq_ok.mpr here, frame,
    type]

/-- Whoever reads the variable of a frame reads what it is bound to. -/
theorem readName_eq {env : Env} {fs : Frames} {n : NodeId} {f : FrameId} {v : Value}
    (denotes : p.attrs.decl? n = some (.node x.declaration))
    (found : ((p.attrs.scope? n).bind fun scope => env.frameFor fs scope) = some f)
    (bound : fs.lookup f x.name = some v) : p.readName env fs n x.name = .ok v := by
  obtain ⟨scope, here, found⟩ := Option.bind_eq_some_iff.mp found
  have found : env.frameFor fs scope = some f := found
  have got : env.get fs scope x.name (p.text x.name) = .ok v := by
    rw [Env.get, found, Option.bind_some, bound]
  simp only [Program.readName, denotes, Program.kind_eq_ok.mpr x.declares, Abort.ofRead, bind,
    Except.bind, Program.scopeOf_eq_ok.mpr here, Abort.ofFault, got]

/-- The name is declared once in the scope of the variable. -/
theorem eq_declaration (made : p.Made context rules) {n initializer : NodeId}
    (kind : p.arena.kind? n = some (.varDecl x.name initializer))
    (here : p.attrs.scope? n = p.attrs.scope? x.declaration) : n = x.declaration := by
  obtain ⟨scope, declared, -⟩ := x.scope_declaration made
  have other : (p.naming rules.reserved).Declared n scope x.name := by
    refine ⟨?_, here.trans declared⟩
    rw [show (p.naming rules.reserved).arena = p.arena from rfl, kind]
    rfl
  have own : (p.naming rules.reserved).Declared x.declaration scope x.name := by
    refine ⟨?_, declared⟩
    rw [show (p.naming rules.reserved).arena = p.arena from rfl, x.declares]
    rfl
  exact made.names.unique n x.declaration scope x.name other own

/-- Nobody else binds the variable. -/
theorem lookup_of_course (course : Turn.Course p s s') (orderly : s.Orderly p context rules)
    (reserved : p.text x.name ∈ rules.reserved) (live : s.world.frames.Live f)
    (owns : s.world.frames.scope? f = p.attrs.scope? x.declaration)
    (store : ∀ v stack, s.control = .give v →
      s.stack = .declaration x.declaration x.name :: stack → s.env.current ≠ f)
    (launch : ∀ n, s.control = .eval n → x.isLaunch n = true → s.env.current ≠ f) :
    s'.world.frames.lookup f x.name = s.world.frames.lookup f x.name := by
  obtain ⟨made, anchored, placed, sound⟩ := id orderly
  obtain ⟨scope, here, -⟩ := x.scope_declaration made
  have declared : (p.naming rules.reserved).Declared x.declaration scope x.name :=
    ⟨by rw [show (p.naming rules.reserved).arena = p.arena from rfl, x.declares]; rfl, here⟩
  have found_owns : ∀ {scope' g}, s.env.frameFor s.world.frames scope' = some g → g = f →
      scope = scope' := by
    intro scope' g found same
    have owns' := (Env.frameFor_eq_some placed.frames.toLinked anchored.root anchored.here found).2
    rw [same, owns, here] at owns'
    exact Option.some.inj owns'
  have pushed : ∀ scope' bindings parent,
      (s.world.frames.push scope' bindings parent).2.lookup f x.name =
        s.world.frames.lookup f x.name := by
    intro scope' bindings parent
    rw [Frames.lookup, Frames.frame?_push_eq, if_neg, Frames.lookup]
    intro same
    rw [same] at live
    exact Frames.not_live_push _ _ _ _ live
  cases course with
  | still same => rw [same]
  | store v waiting n name scope' g gives stack stores here' found env frames control =>
    rw [frames, Frames.lookup_define]
    apply if_neg
    rintro ⟨same, named, -⟩
    obtain rfl := found_owns found same.symm
    have waits : waiting ∈ s.thread.stack := by
      rw [Turn.thread, stack]
      exact List.mem_cons_self
    cases stores with
    | declaration =>
      obtain ⟨initializer, kind⟩ := (sound.stack _ waits).declares n name rfl
      obtain rfl := x.eq_declaration made (named ▸ kind) (here'.trans here.symm)
      have due : s.thread.Due s.env.current x.declaration := Turn.due_of_waits stack List.mem_cons_self
      obtain ⟨scope', here', found'⟩ := x.frameFor_of_due orderly x.concerns_declaration due
      cases here.symm.trans here'
      cases found.symm.trans found'
      exact store v s'.stack gives (named ▸ stack) same.symm
    | assignName assignment =>
      obtain ⟨refers, value, kind⟩ := (sound.stack _ waits).assigns assignment n name rfl
      obtain ⟨scope', decl, here', denoted, -⟩ := (made.nodes n _ refers).fits
      have same : decl = .node x.declaration := by
        refine made.names.resolves_node declared reserved (n := n) ⟨?_, ?_, denoted⟩
        · exact named ▸ refers
        · assumption
      exact x.decl?_of_assignment kind (same ▸ denoted)
  | launchDecl n declaration initializer name scope' g evaluates kind declares here' found frames env
      control stack =>
    rw [frames, Frames.lookup_define]
    apply if_neg
    rintro ⟨same, named, -⟩
    obtain rfl := found_owns found same.symm
    obtain rfl := x.eq_declaration made (named ▸ declares) (here'.trans here.symm)
    have launches : x.isLaunch n = true := x.isLaunch_iff.mpr kind
    have due : s.thread.Due s.env.current n := Turn.due_of_eval evaluates
    obtain ⟨scope', here', found'⟩ := x.frameFor_of_due orderly (x.concerns_of_isLaunch launches) due
    cases here.symm.trans here'
    cases found.symm.trans found'
    exact launch n evaluates launches same.symm
  | block n statements scope' evaluates kind here' current frames begins => rw [frames, pushed]
  | call span function arguments name parameters body scope' bindings invokes kind opens bound current
      frames control stack => rw [frames, pushed]
  | idle frames | back saved waiting frames | watch waiting target id name scope' g frames
  | part nodes stack n left source member frames | run n rest stack runs frames
  | launch n call evaluates kind frames | take lock takes frames => rw [frames]

end LaunchedVariable

/-! ## 4. What waits at the bottom -/

section

variable {f here : FrameId} {waiting : Pending} {stack : List Pending} {bottom : FrameId × Pending}

theorem getLast?_framed_append (here : FrameId) (top : List Pending) (waiting : Pending)
    (stack : List Pending) : (framed here (top ++ waiting :: stack)).getLast? =
      (framed (home here top) (waiting :: stack)).getLast? := by
  rw [framed_append]
  exact List.getLast?_append_of_ne_nil _ (List.cons_ne_nil _ _)

theorem getLast?_framed_of_cons (last : (framed here (waiting :: stack)).getLast? = some bottom) :
    stack = [] ∧ bottom = (here, waiting) ∨
      (framed (waiting.saved?.getD here) stack).getLast? = some bottom := by
  rw [framed, List.getLast?_cons] at last
  cases stack with
  | nil => exact .inl ⟨rfl, (Option.some.inj last).symm⟩
  | cons next rest =>
    refine .inr ?_
    rw [framed, List.getLast?_cons] at last ⊢
    exact last

theorem counted_le_stackedDues {chosen : NodeId → Bool} (waits : (here, waiting) ∈ framed f stack) :
    counted chosen here here waiting.dues ≤ stackedDues chosen here f stack :=
  List.single_le_sum (fun _ _ => Nat.zero_le _) _
    (List.mem_map_of_mem (f := fun x => counted chosen here x.1 x.2.dues) waits)

end

/-- What waits at the bottom of a stack goes on to wait there, until it gets its value or is left. -/
theorem Turn.Course.keeps_last {p : Program} {s s' : Turn} (course : Course p s s') {f : FrameId}
    {n : NodeId} {name : Name}
    (last : (framed s.env.current s.stack).getLast? = some (f, .declaration n name)) :
    (framed s'.env.current s'.stack).getLast? = some (f, .declaration n name) ∨
      s.stack = [.declaration n name] ∧ s.env.current = f ∧ s.control.Hands := by
  obtain ⟨taken, left, below, exchange⟩ := course.exists_exchange
  rw [exchange.before] at last
  cases below with
  | nil =>
    -- the only pending of the stack is taken
    cases taken with
    | none => cases last
    | some waiting =>
      cases last
      exact .inr ⟨exchange.before, rfl, exchange.hands _ rfl⟩
  | cons next rest =>
    refine .inl ?_
    rw [exchange.after, getLast?_framed_append, exchange.home, ← getLast?_framed_append]
    exact last

namespace LaunchedVariable

variable {p : Program} (x : LaunchedVariable p) {context : NodeId → Context} {rules : Rules}
  {s s' : Turn} {f : FrameId} {who : ThreadId} {t : Thread}

theorem counted_declaration (f : FrameId) :
    counted x.concerns f f [x.declaration] = 1 := by
  rw [counted, if_pos rfl, List.countP_cons, if_pos x.concerns_declaration]
  rfl

/-- A thread that evaluates the declaration in a frame, and nothing else. -/
inductive Computes (f : FrameId) : Thread → Prop
  | fresh (env : Env) (here : env.current = f) : Computes f (.start env (.eval x.declaration))
  | running (t : Thread)
      (last : (framed t.env.current t.stack).getLast? = some (f, .declaration x.declaration x.name)) :
      Computes f t

/-- How a thread stands that has still to do with the declaration in a frame, after the statement. -/
inductive Stage (f : FrameId) : ThreadId → Thread → Prop
  | launching (who : ThreadId) (t : Thread) (submits : t.control = .submit [.eval x.declaration])
      (here : t.env.current = f) : Stage f who t
  | task (id : TaskId) (t : Thread) (computes : x.Computes f t) : Stage f (.task id) t

theorem dueCount_of_waits {name : Name} {stack : List Pending}
    (waits : t.stack = .declaration x.declaration name :: stack) (here : t.env.current = f) :
    0 < t.dueCount x.concerns f := by
  have due : counted x.concerns f f (Pending.declaration x.declaration name).dues = 1 :=
    x.counted_declaration f
  rw [Thread.dueCount, waits, here, stackedDues_cons_of_unsaved rfl, due]
  omega

variable {x}

/-- Whoever evaluates the declaration goes on with it, until its value or an exit comes back to it. -/
theorem Computes.step (computes : x.Computes f t) (world : World) (who : ThreadId) :
    x.Computes f ((t.inside world).step p who).thread ∨
      t.stack = [.declaration x.declaration x.name] ∧ t.env.current = f ∧ t.control.Hands := by
  cases computes with
  | fresh env here =>
    have stepped : ((Thread.start env (.eval x.declaration)).inside world).step p who =
        ⟨world, env, .eval x.initializer, [.declaration x.declaration x.name]⟩ := by
      simp only [Turn.step, Thread.inside, Thread.start, Program.kind_eq_ok.mpr x.declares, Turn.enter,
        Turn.await]
    rw [stepped]
    refine .inl (.running _ ?_)
    rw [← here]
    rfl
  | running t last =>
    have course := Turn.step_course p who (t.inside world)
    exact (course.keeps_last last).imp_left (.running _)

/-- A thread that has the value or the exit for the declaration has nothing else to do. -/
theorem Computes.ends (computes : x.Computes f t) (one : t.dueCount x.concerns f ≤ 1)
    {stack : List Pending} (waits : t.stack = .declaration x.declaration x.name :: stack)
    (here : t.env.current = f) : stack = [] := by
  cases computes with
  | fresh env here => cases waits
  | running t last =>
    rw [waits, here] at last
    rcases getLast?_framed_of_cons last with ⟨none, -⟩ | below
    · exact none
    · have twice : counted x.concerns f f [x.declaration] ≤ stackedDues x.concerns f f stack :=
        counted_le_stackedDues (List.mem_of_getLast? below)
      have once : stackedDues x.concerns f f t.stack =
          counted x.concerns f f [x.declaration] + stackedDues x.concerns f f stack := by
        rw [waits]
        exact stackedDues_cons_of_unsaved rfl stack
      rw [Thread.dueCount, here] at one
      rw [x.counted_declaration] at once twice
      omega

end LaunchedVariable

end Strand
