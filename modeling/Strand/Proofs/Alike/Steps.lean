import Strand.Proofs.Alike.Reads

/-!
# Threads that go on alike

Two threads are alike if they stand at frames that stand for each other, do the same with values that are
alike, and the same waits for it. In worlds that are alike, their next steps are alike again: they make
new things side by side, and leave alone what stands for nothing (`Turn.Like.step`).

The lemmas follow the evaluator, one for each of its functions. The first of the two threads may have
more to do in the end: what waits at the bottom of its stack, the tail, waits for nothing in the other.
-/

set_option autoImplicit false

namespace Strand

/-! ## 1. Threads alike -/

/-- Two exits with values that are alike. -/
inductive Exit.Like (known : Decl → Prop) (R : Pairing) : Exit → Exit → Prop
  | ret (v v' : Value) (alike : v.Like known R v') : Like known R (.ret v) (.ret v')
  | fault (f : Fault) : Like known R (.fault f) (.fault f)
  | crash (message : String) : Like known R (.crash message) (.crash message)

/-- Two endings that are the same, with values that are alike. -/
inductive Outcome.Like (known : Decl → Prop) (R : Pairing) : Outcome → Outcome → Prop
  | value (v v' : Value) (alike : v.Like known R v') : Like known R (.value v) (.value v')
  | exit (e e' : Exit) (alike : e.Like known R e') : Like known R (.exit e) (.exit e')

/-- Two controls of threads in a region that do the same. -/
inductive Control.Like (Z : Region) (R : Pairing) : Control → Control → Prop
  | eval (n : NodeId) (inside : Z.nodes n) : Like Z R (.eval n) (.eval n)
  | give (v v' : Value) (alike : v.Like Z.functions R v') : Like Z R (.give v) (.give v')
  | leave (e e' : Exit) (alike : e.Like Z.functions R e') : Like Z R (.leave e) (.leave e')
  | invoke (span : Option Span) (function : NodeId) (arguments arguments' : List Value)
      (knows : Z.functions (.node function))
      (alike : List.Forall₂ (Value.Like Z.functions R) arguments arguments') :
      Like Z R (.invoke span function arguments) (.invoke span function arguments')
  | startLine (text : String) (loud : ¬ Z.guarded) : Like Z R (.startLine text) (.startLine text)
  | writeText (text : String) (loud : ¬ Z.guarded) : Like Z R (.writeText text) (.writeText text)
  | writeBreak (text : String) (loud : ¬ Z.guarded) : Like Z R (.writeBreak text) (.writeBreak text)
  | endLine (text : String) (loud : ¬ Z.guarded) : Like Z R (.endLine text) (.endLine text)
  | spin : Like Z R .spin .spin

/-- Whether a pending holds neither values nor frames, and belongs to no lock. -/
def Pending.isBare : Pending → Bool
  | element .. | accessIndex .. | argument .. | rightOperand .. | storeIndex .. | storeElement ..
  | storeField .. | leaveBlock _ | leaveCall _ | leaveSite .. | unlock _ => false
  | _ => true

/-- Two pendings that are the same, with values and frames that are alike. -/
inductive Pending.Like (known : Decl → Prop) (R : Pairing) : Pending → Pending → Prop
  | element (id : NodeId) (done done' : List Value) (rest : List NodeId)
      (alike : List.Forall₂ (Value.Like known R) done done') :
      Like known R (.element id done rest) (.element id done' rest)
  | accessIndex (id : NodeId) (a a' : ArrayId) (pair : R (.array a) (.array a')) :
      Like known R (.accessIndex id a) (.accessIndex id a')
  | argument (id : NodeId) (callee callee' : Value) (first : Option NodeId) (done done' : List Value)
      (rest : List NodeId) (same : callee.Like known R callee')
      (alike : List.Forall₂ (Value.Like known R) done done') :
      Like known R (.argument id callee first done rest) (.argument id callee' first done' rest)
  | rightOperand (id : NodeId) (op : BinaryOp) (left right : NodeId) (l l' : Value)
      (alike : l.Like known R l') :
      Like known R (.rightOperand id op left right l) (.rightOperand id op left right l')
  | storeIndex (id target value : NodeId) (a a' : ArrayId) (pair : R (.array a) (.array a')) :
      Like known R (.storeIndex id target value a) (.storeIndex id target value a')
  | storeElement (id target : NodeId) (a a' : ArrayId) (i : Nat) (pair : R (.array a) (.array a')) :
      Like known R (.storeElement id target a i) (.storeElement id target a' i)
  | storeField (id target : NodeId) (stem stem' : Value) (field : Name)
      (alike : stem.Like known R stem') :
      Like known R (.storeField id target stem field) (.storeField id target stem' field)
  | leaveBlock (saved saved' : FrameId) (pair : R (.frame saved) (.frame saved')) :
      Like known R (.leaveBlock saved) (.leaveBlock saved')
  | leaveCall (saved saved' : FrameId) (pair : R (.frame saved) (.frame saved')) :
      Like known R (.leaveCall saved) (.leaveCall saved')
  | same (waiting : Pending) (bare : waiting.isBare = true) : Like known R waiting waiting

/-- The nodes that a pending leads to. -/
def Pending.leads : Pending → List NodeId
  | statements rest => rest
  | waiting => waiting.nodes

/-- The node that says which name a pending binds. -/
def Pending.stores : Pending → List NodeId
  | declaration n _ => [n]
  | assignName _ target _ => [target]
  | _ => []

/-- A pending that leads to nodes of a region, and binds only what may be bound. -/
structure Pending.Within (Z : Region) (waiting : Pending) : Prop where
  leads : ∀ n ∈ waiting.leads, Z.nodes n
  stores : ∀ n ∈ waiting.stores, Z.locals n

theorem Pending.Within.plain {Z : Region} {waiting : Pending} (leads : ∀ n ∈ waiting.leads, Z.nodes n)
    (plain : waiting.stores = []) : waiting.Within Z := by
  refine ⟨leads, ?_⟩
  rw [plain]
  exact List.forall_mem_nil _

/-- Two stacks on which the same waits; under the first one there is a tail. -/
inductive StackLike (Z : Region) (tail : List Pending) (R : Pairing) :
    List Pending → List Pending → Prop
  | bottom : StackLike Z tail R tail []
  | cons {waiting waiting' : Pending} {stack stack' : List Pending}
      (first : waiting.Like Z.functions R waiting') (within : waiting.Within Z)
      (rest : StackLike Z tail R stack stack') :
      StackLike Z tail R (waiting :: stack) (waiting' :: stack')

namespace Turn

/-- Two threads of a region that are alike, in worlds that are. -/
structure Like (Z : Region) (tail : List Pending) (R : Pairing) (s t : Turn) : Prop where
  world : s.world.Like Z R t.world
  env : s.env.Like R t.env
  control : s.control.Like Z R t.control
  stack : StackLike Z tail R s.stack t.stack

/-- Two threads that are alike after a world has gone on. -/
def Follows (Z : Region) (tail : List Pending) (R : Pairing) (w : World) (s t : Turn) : Prop :=
  ∃ R₁, World.Evolves Z R w R₁ s.world t.world ∧ s.Like Z tail R₁ t

end Turn

section

variable {known : Decl → Prop} {R R' : Pairing}

theorem forall₂_mono {l l' : List Value} (alike : List.Forall₂ (Value.Like known R) l l')
    (more : ∀ x x', R x x' → R' x x') : List.Forall₂ (Value.Like known R') l l' :=
  alike.imp fun _ _ pair => pair.mono (fun _ => id) more

theorem Pending.Like.mono {waiting waiting' : Pending} (like : waiting.Like known R waiting')
    (more : ∀ x x', R x x' → R' x x') : waiting.Like known R' waiting' := by
  have values : ∀ {v v' : Value}, v.Like known R v' → v.Like known R' v' :=
    fun alike => alike.mono (fun _ => id) more
  cases like with
  | element id done done' rest alike => exact .element id done done' rest (forall₂_mono alike more)
  | accessIndex id a a' pair => exact .accessIndex id a a' (more _ _ pair)
  | argument id callee callee' first done done' rest same alike =>
    exact .argument id _ _ first _ _ rest (values same) (forall₂_mono alike more)
  | rightOperand id op left right l l' alike => exact .rightOperand id op left right l l' (values alike)
  | storeIndex id target value a a' pair => exact .storeIndex id target value a a' (more _ _ pair)
  | storeElement id target a a' i pair => exact .storeElement id target a a' i (more _ _ pair)
  | storeField id target stem stem' field alike => exact .storeField id target _ _ field (values alike)
  | leaveBlock saved saved' pair => exact .leaveBlock saved saved' (more _ _ pair)
  | leaveCall saved saved' pair => exact .leaveCall saved saved' (more _ _ pair)
  | same waiting bare => exact .same waiting bare

theorem StackLike.mono {Z : Region} {tail stack stack' : List Pending}
    (like : StackLike Z tail R stack stack') (more : ∀ x x', R x x' → R' x x') :
    StackLike Z tail R' stack stack' := by
  induction like with
  | bottom => exact .bottom
  | cons first within _ ih => exact .cons (first.mono more) within ih

theorem Exit.Like.mono {e e' : Exit} (like : e.Like known R e') (more : ∀ x x', R x x' → R' x x') :
    e.Like known R' e' := by
  cases like with
  | ret v v' alike => exact .ret v v' (alike.mono (fun _ => id) more)
  | fault f => exact .fault f
  | crash message => exact .crash message

theorem Control.Like.mono {Z : Region} {c c' : Control} (like : c.Like Z R c')
    (more : ∀ x x', R x x' → R' x x') : c.Like Z R' c' := by
  cases like with
  | eval n inside => exact .eval n inside
  | give v v' alike => exact .give v v' (alike.mono (fun _ => id) more)
  | leave e e' alike => exact .leave e e' (alike.mono more)
  | invoke span function arguments arguments' knows alike =>
    exact .invoke span function _ _ knows (forall₂_mono alike more)
  | startLine text loud => exact .startLine text loud
  | writeText text loud => exact .writeText text loud
  | writeBreak text loud => exact .writeBreak text loud
  | endLine text loud => exact .endLine text loud
  | spin => exact .spin

theorem Env.Like.mono {env env' : Env} (like : env.Like R env') (more : ∀ x x', R x x' → R' x x') :
    env.Like R' env' :=
  ⟨like.root, like.root', more _ _ like.current⟩

end

namespace Turn

variable {p : Program} {Z : Region} {tail : List Pending} {R R₁ : Pairing} {s t : Turn}

/-! ## 2. Ways to go on -/

namespace Like

variable (like : s.Like Z tail R t)

include like

theorem stay {s' t' : Turn} (world : s'.world = s.world) (world' : t'.world = t.world)
    (env : s'.env.Like R t'.env) (control : s'.control.Like Z R t'.control)
    (stack : StackLike Z tail R s'.stack t'.stack) : Follows Z tail R s.world s' t' := by
  refine ⟨R, ?_, ?_, env, control, stack⟩
  · rw [world, world']
    exact .refl like.world
  · rw [world, world']
    exact like.world

theorem goTo {c c' : Control} (control : c.Like Z R c') :
    Follows Z tail R s.world { s with control := c } { t with control := c' } :=
  like.stay rfl rfl like.env control like.stack

theorem give {v v' : Value} (alike : v.Like Z.functions R v') :
    Follows Z tail R s.world (s.give v) (t.give v') := like.goTo (.give v v' alike)

theorem leave {e e' : Exit} (alike : e.Like Z.functions R e') :
    Follows Z tail R s.world (s.leave e) (t.leave e') := like.goTo (.leave e e' alike)

theorem raise (node : NodeId) (cause : Cause) :
    Follows Z tail R s.world (s.raise p node cause) (t.raise p node cause) :=
  like.leave (.fault _)

theorem abort (node : NodeId) (a : Abort) :
    Follows Z tail R s.world (s.abort p node a) (t.abort p node a) := by
  cases a with
  | fault cause => exact like.raise node cause
  | outOfRange read => exact like.leave (.crash _)
  | diverges => exact like.goTo .spin

theorem orAbort {α β : Type} {r : α → β → Prop} {node : NodeId} {result : Except Abort α}
    {result' : Except Abort β} {next : α → Turn} {next' : β → Turn} (agree : Agree r result result')
    (goesOn : ∀ a b, r a b → Follows Z tail R s.world (next a) (next' b)) :
    Follows Z tail R s.world (s.orAbort p node result next)
      (t.orAbort p node result' next') := by
  cases agree with
  | ok a b pair => exact goesOn a b pair
  | error e => exact like.abort node e

theorem orFault {α β : Type} {r : α → β → Prop} {node : NodeId} {result : Except Cause α}
    {result' : Except Cause β} {next : α → Turn} {next' : β → Turn} (agree : Agree r result result')
    (goesOn : ∀ a b, r a b → Follows Z tail R s.world (next a) (next' b)) :
    Follows Z tail R s.world (s.orFault p node result next)
      (t.orFault p node result' next') := by
  cases agree with
  | ok a b pair => exact goesOn a b pair
  | error cause => exact like.raise node cause

/-- What both find out alike. -/
theorem orFaultSame {α : Type} {node : NodeId} {result : Except Cause α} {next next' : α → Turn}
    (goesOn : ∀ a, Follows Z tail R s.world (next a) (next' a)) :
    Follows Z tail R s.world (s.orFault p node result next)
      (t.orFault p node result next') :=
  like.orFault (.ofEq rfl) fun a _ same => same ▸ goesOn a

theorem await {n : NodeId} {waiting waiting' : Pending} (inside : ∀ m ∈ n :: waiting.leads, Z.nodes m)
    (stores : ∀ m ∈ waiting.stores, Z.locals m) (same : waiting.Like Z.functions R waiting') :
    Follows Z tail R s.world (s.await n waiting) (t.await n waiting') := by
  refine like.stay rfl rfl like.env (.eval n (inside n List.mem_cons_self)) (.cons same ?_ like.stack)
  exact ⟨fun m later => inside m (List.mem_cons_of_mem _ later), stores⟩

/-- Both go on in worlds that have gone on. -/
theorem onward {w₁ w₁' : World} (evolves : World.Evolves Z R s.world R₁ w₁ w₁') {c c' : Control}
    (control : c.Like Z R₁ c') :
    Follows Z tail R s.world { s with world := w₁, control := c }
      { t with world := w₁', control := c' } :=
  ⟨R₁, evolves, evolves.like, like.env.mono evolves.more, control, like.stack.mono evolves.more⟩

theorem ofNest {node : NodeId} {result : Except Abort Nest}
    (scalar : ∀ nest, result = .ok nest → nest.Scalar) :
    Follows Z tail R s.world (s.ofNest p node result) (t.ofNest p node result) := by
  cases result with
  | error e => exact like.abort node e
  | ok nest =>
    have scalar := scalar nest rfl
    cases nest with
    | leaf v =>
      cases scalar with
      | leaf _ scalar => exact like.give (.ofScalar scalar)
    | row elements =>
      obtain ⟨R₁, evolves, alike⟩ := World.Evolves.place scalar like.world
      exact like.onward evolves (.give _ _ alike)

theorem makeArray {values values' : List Value}
    (alike : List.Forall₂ (Value.Like Z.functions R) values values') :
    Follows Z tail R s.world (s.makeArray values) (t.makeArray values') := by
  have elements : List.Forall₂ (Value.Like Z.functions R) values.toArray.toList
      values'.toArray.toList := by simpa only using alike
  exact like.onward (.newArray like.world elements) (.give _ _ (.array _ _ (.inr ⟨rfl, rfl⟩)))

theorem runStatements {statements : List NodeId} (inside : ∀ n ∈ statements, Z.nodes n) :
    Follows Z tail R s.world (s.runStatements statements) (t.runStatements statements) := by
  cases statements with
  | nil => exact like.give .void
  | cons statement rest => exact like.await inside (List.forall_mem_nil _) (.same _ rfl)

/-- The name of a declaration or of the target of an assignment gets its value. -/
theorem store (closed : Z.Closed p) {v v' u u' : Value} (alike : v.Like Z.functions R v')
    (gives : u.Like Z.functions R u') (node : NodeId) {n : NodeId} (inner : Z.locals n) (name : Name) :
    Follows Z tail R s.world
      (s.orFault p node (p.scopeOf n (p.text name)) fun scope =>
        s.orFault p node (s.env.frameToSet s.world.frames scope (p.text name)) fun f =>
          { s with world.frames := s.world.frames.define f name v, control := .give u })
      (t.orFault p node (p.scopeOf n (p.text name)) fun scope =>
        t.orFault p node (t.env.frameToSet t.world.frames scope (p.text name)) fun f =>
          { t with world.frames := t.world.frames.define f name v', control := .give u' }) := by
  have scopes : Agree (fun a b => a = b ∧ (Z.guarded → a ≠ Z.rootScope)) (p.scopeOf n (p.text name))
      (p.scopeOf n (p.text name)) := by
    cases here : p.scopeOf n (p.text name) with
    | error cause => exact .error _
    | ok scope =>
      exact .ok _ _ ⟨rfl, fun guarded same =>
        closed.locals guarded n inner (same ▸ Program.scopeOf_eq_ok.mp here)⟩
  refine like.orFault scopes fun scope scope' same => ?_
  obtain ⟨rfl, outside⟩ := same
  refine like.orFault (like.env.frameToSet like.world outside (p.text name)) fun f f' pair => ?_
  exact like.onward (.define like.world pair.1 pair.2 name alike) (.give _ _ gives)

end Like

/-- Both enter a new frame, and will go back to what was there before. -/
theorem Like.inner (like : s.Like Z tail R t) {g g' : FrameId} (pair : R (.frame g) (.frame g'))
    (scope : ScopeId) {bindings bindings' : Bindings}
    (alike : bindings.Like Z.functions R (fun _ => True) bindings') {left left' : Pending}
    (same : left.Like Z.functions R left') (leads : left.leads = []) (stores : left.stores = []) :
    ∃ R₁, (∀ x x', R x x' → R₁ x x') ∧
      World.Evolves Z R s.world R₁
        { s.world with frames := (s.world.frames.push scope bindings (some g)).2 }
        { t.world with frames := (t.world.frames.push scope bindings' (some g')).2 } ∧
      ∀ c c', c.Like Z R₁ c' → Like Z tail R₁
        { s with
          world.frames := (s.world.frames.push scope bindings (some g)).2
          env := s.env.restore (s.world.frames.push scope bindings (some g)).1
          control := c
          stack := left :: s.stack }
        { t with
          world.frames := (t.world.frames.push scope bindings' (some g')).2
          env := t.env.restore (t.world.frames.push scope bindings' (some g')).1
          control := c'
          stack := left' :: t.stack } := by
  have evolves := World.Evolves.push like.world pair scope alike
  refine ⟨_, evolves.more, evolves, fun c c' control => ?_⟩
  refine ⟨evolves.like, ⟨like.env.root, like.env.root', .inr ⟨rfl, rfl⟩⟩, control,
    .cons (same.mono evolves.more) (.plain ?_ stores) (like.stack.mono evolves.more)⟩
  rw [leads]
  exact List.forall_mem_nil _

/-! ## 3. The functions of the evaluator -/

theorem follows_enter (like : s.Like Z tail R t) (closed : Z.Closed p) {id : NodeId} {kind : NodeKind}
    (inside : Z.nodes id) (found : p.arena.kind? id = some kind) :
    Follows Z tail R s.world (enter p s id kind) (enter p t id kind) := by
  have quiet := closed.quiet id kind inside found
  -- most nodes leave a pending without values, which leads to parts of the node
  have goOn : ∀ {n : NodeId} {waiting : Pending}, n :: waiting.leads ⊆ p.parts id →
      waiting.isBare = true → waiting.stores = [] →
      Follows Z tail R s.world (s.await n waiting) (t.await n waiting) := by
    intro n waiting parts bare plain
    refine like.await (fun m member => closed.parts id inside m (parts member)) ?_ (.same _ bare)
    rw [plain]
    exact List.forall_mem_nil _
  cases kind with
  | intLiteral n => exact like.give (.int n)
  | floatLiteral x => exact like.give (.float x)
  | stringLiteral text => exact like.give (.str text)
  | reference name =>
    exact like.orAbort (like.env.readName like.world closed inside found) fun _ _ alike => like.give alike
  | constructor reference =>
    simp only [enter]
    split
    · exact like.give (.constructor _)
    · exact like.raise ..
  | parenthesized inner =>
    exact like.goTo (.eval inner (closed.parts id inside inner
      (by simp [Program.parts, found, NodeKind.operands])))
  | arrayLiteral elements =>
    cases elements with
    | nil => exact like.makeArray .nil
    | cons first rest =>
      refine like.await (fun m member => closed.parts id inside m ?_) (List.forall_mem_nil _)
        (.element id [] [] rest .nil)
      simpa [Program.parts, found, NodeKind.callee?, NodeKind.operands, NodeKind.substatements,
        Pending.leads, Pending.nodes] using member
  | arrayAccess array index =>
    exact goOn (by simp [Program.parts, found, NodeKind.operands, Pending.leads, Pending.nodes]) rfl rfl
  | fieldAccess stem field =>
    exact goOn (by simp [Program.parts, found, NodeKind.operands, Pending.leads, Pending.nodes]) rfl rfl
  | call callee arguments =>
    exact goOn (by simp [Program.parts, found, NodeKind.operands, NodeKind.callee?, Pending.leads,
      Pending.nodes]) rfl rfl
  | not operand =>
    exact goOn (by simp [Program.parts, found, NodeKind.operands, Pending.leads, Pending.nodes]) rfl rfl
  | binary op left right =>
    simp only [enter]
    split <;>
      exact goOn (by simp [Program.parts, found, NodeKind.operands, Pending.leads, Pending.nodes]) rfl rfl
  | assignment target value =>
    simp only [enter, Program.kind]
    cases target_ : p.arena.kind? target with
    | none => exact like.abort ..
    | some kind =>
      cases kind with
      | reference name =>
        have part : ∀ m ∈ [value], Z.nodes m := fun m member => closed.parts id inside m (by
          simp_all [Program.parts])
        exact like.await part (List.forall_mem_singleton.mpr
          (closed.assigns id target value name inside found target_)) (.same _ rfl)
      | arrayAccess array index =>
        exact goOn (by simp [Program.parts, found, target_, NodeKind.operands, Pending.leads,
          Pending.nodes]) rfl rfl
      | fieldAccess stem field =>
        exact goOn (by simp [Program.parts, found, target_, NodeKind.operands, Pending.leads,
          Pending.nodes]) rfl rfl
      | _ => exact like.raise ..
  | block statements =>
    refine like.orFaultSame fun scope => ?_
    have empty : Bindings.empty.Like Z.functions R (fun _ => True) .empty := fun _ _ => .none
    obtain ⟨R₁, more, evolves, entered⟩ := like.inner like.env.current scope empty
      (.leaveBlock _ _ like.env.current) rfl rfl
    obtain ⟨R₂, later, alike⟩ := (entered _ _ (like.control.mono more)).runStatements
      (closed.statements id statements inside found)
    exact ⟨R₂, evolves.trans later, alike⟩
  | expression inner =>
    exact goOn (by simp [Program.parts, found, NodeKind.operands, Pending.leads, Pending.nodes]) rfl rfl
  | conditional condition thenBranch elseBranch =>
    exact goOn (by simp [Program.parts, found, NodeKind.operands, NodeKind.substatements,
      Pending.leads, Pending.nodes]) rfl rfl
  | loop condition body =>
    exact goOn (by simp [Program.parts, found, NodeKind.operands, NodeKind.substatements,
      Pending.leads, Pending.nodes]) rfl rfl
  | ret value =>
    cases value with
    | none => exact like.leave (.ret _ _ .void)
    | some value =>
      exact goOn (by simp [Program.parts, found, NodeKind.operands, Pending.leads, Pending.nodes]) rfl rfl
  | varDecl name initializer =>
    have part : ∀ m ∈ [initializer], Z.nodes m := fun m member => closed.parts id inside m (by
      simpa [Program.parts, found, NodeKind.operands, NodeKind.callee?, NodeKind.substatements]
        using member)
    exact like.await part (List.forall_mem_singleton.mpr
      (closed.declares id name initializer inside found)) (.same _ rfl)
  | funDecl | parameter | structDecl | fieldDecl => exact like.give .void
  | root | launch | launchDecl | protect => exact quiet.elim

/-- A builtin function is called, and it is not `wait`. -/
theorem follows_callBuiltin (like : s.Like Z tail R t) (loud : ¬ Z.guarded) (id : NodeId) {name : String}
    (other : name ≠ "wait") (first : Option NodeId) {values values' : List Value}
    (alike : List.Forall₂ (Value.Like Z.functions R) values values') :
    Follows Z tail R s.world (callBuiltin p s id name first values)
      (callBuiltin p t id name first values') := by
  unfold callBuiltin
  split
  · cases alike with
    | nil => exact like.raise ..
    | cons pair rest =>
      cases rest with
      | nil =>
        simp only [render_like like.world.heap like.world.one pair, like.world.output.isSilent]
        refine like.orAbort (.ofEq rfl) fun text _ same => ?_
        subst same
        split
        · exact like.give (.str text)
        · exact like.goTo (.startLine text loud)
      | cons pair' rest =>
        simp only [List.length_cons, rest.length_eq]
        exact like.raise ..
  · exact like.raise ..

theorem follows_apply (like : s.Like Z tail R t) (closed : Z.Closed p) (id : NodeId)
    {callee callee' : Value} (same : callee.Like Z.functions R callee') (first : Option NodeId)
    {values values' : List Value} (alike : List.Forall₂ (Value.Like Z.functions R) values values') :
    Follows Z tail R s.world (apply p s id callee first values)
      (apply p t id callee' first values') := by
  cases same with
  | function d knows =>
    cases d with
    | host host =>
      obtain ⟨loud, other⟩ := closed.hosts host knows
      exact follows_callBuiltin like loud id other first alike
    | node function => exact like.goTo (.invoke _ function _ _ knows alike)
  | constructor decl =>
    exact like.orAbort (instantiate_like decl alike) fun _ _ record =>
      like.onward (.newRecord like.world record) (.give _ _ (.struct _ _ (.inr ⟨rfl, rfl⟩)))
  | null => exact like.raise ..
  | _ => exact like.raise ..

theorem follows_invoke (like : s.Like Z tail R t) (closed : Z.Closed p) (span : Option Span)
    {function : NodeId} (knows : Z.functions (.node function)) {arguments arguments' : List Value}
    (alike : List.Forall₂ (Value.Like Z.functions R) arguments arguments') :
    Follows Z tail R s.world (invoke p s span function arguments)
      (invoke p t span function arguments') := by
  have fails : ∀ cause, Follows Z tail R s.world (invoke.fail s span cause)
      (invoke.fail t span cause) := fun cause => like.leave (.fault _)
  simp only [invoke, Program.kind, alike.length_eq]
  cases found : p.arena.kind? function with
  | none => exact like.leave (.crash _)
  | some kind =>
    cases kind with
    | funDecl name parameters body =>
      simp only
      split
      · exact fails _
      · split
        · exact fails _
        · next scope _ =>
          have bound : Agree (Bindings.Like Z.functions R fun _ => True)
              (p.bindParameters parameters arguments .empty)
              (p.bindParameters parameters arguments' .empty) :=
            bindParameters_like parameters alike fun _ _ => .none
          generalize p.bindParameters parameters arguments .empty = x at bound
          generalize p.bindParameters parameters arguments' .empty = x' at bound
          cases bound with
          | error read => exact like.leave (.crash _)
          | ok bindings bindings' same =>
            obtain ⟨R₁, more, evolves, entered⟩ := like.inner
              (like.env.declaringFrame like.world p scope) scope same
              (.leaveCall _ _ like.env.current) rfl rfl
            exact ⟨R₁, evolves, entered _ _ (.eval body
              (closed.bodies function name parameters body knows found))⟩
    | _ => exact fails _

/-- What waits holds no value of its own. -/
theorem follows_resume_bare (like : s.Like Z tail R t) (closed : Z.Closed p) {v v' : Value}
    (alike : v.Like Z.functions R v') {waiting : Pending} (bare : waiting.isBare = true)
    (leads : ∀ n ∈ waiting.leads, Z.nodes n) (stores : ∀ n ∈ waiting.stores, Z.locals n) :
    Follows Z tail R s.world (resume p s v waiting) (resume p t v' waiting) := by
  have truth := Arith.expectBool_like alike
  -- most of them only go on with a truth value
  have decides : ∀ {node : NodeId} {next next' : Bool → Turn},
      (∀ b, Follows Z tail R s.world (next b) (next' b)) →
      Follows Z tail R s.world (s.orFault p node (Arith.expectBool v) next)
        (t.orFault p node (Arith.expectBool v') next') := by
    intro node next next' goesOn
    rw [truth]
    exact like.orFaultSame goesOn
  have goOn : ∀ {n : NodeId} {next : Pending}, (∀ m ∈ n :: next.leads, m ∈ waiting.leads) →
      next.Like Z.functions R next → next.stores = [] →
      Follows Z tail R s.world (s.await n next) (t.await n next) := by
    intro n next fewer same plain
    refine like.await (fun m member => leads m (fewer m member)) ?_ same
    rw [plain]
    exact List.forall_mem_nil _
  cases waiting with
  | accessedArray id index =>
    refine like.orFault (Arith.expectArray_like alike) fun a a' pair => ?_
    exact like.await leads (List.forall_mem_nil _) (.accessIndex id a a' pair)
  | readStem id field =>
    exact like.orFault (readField_like like.world.heap alike field) fun _ _ => like.give
  | callee id arguments =>
    cases arguments with
    | nil => exact follows_apply like closed id alike none .nil
    | cons first rest =>
      refine like.await (fun m member => leads m ?_) (List.forall_mem_nil _)
        (.argument id _ _ (some first) [] [] rest alike .nil)
      simp only [Pending.leads, Pending.nodes, Option.toList_some, List.mem_cons, List.mem_append] at member ⊢
      tauto
  | negated id => exact decides fun b => like.give (.bool _)
  | shortCircuit id op right =>
    refine decides fun b => ?_
    split
    · exact like.give (.bool b)
    · exact goOn (fun m member => member) (.same _ rfl) rfl
  | truth id => exact decides fun b => like.give (.bool b)
  | leftOperand id op left right =>
    exact like.await leads (List.forall_mem_nil _) (.rightOperand id op left right _ _ alike)
  | assignName id target name =>
    exact like.store closed (alike.widen _) (alike.widen _) id (stores target List.mem_cons_self) name
  | storeArray id target index value =>
    refine like.orFault (Arith.expectArray_like alike) fun a a' pair => ?_
    exact like.await leads (List.forall_mem_nil _) (.storeIndex id target value a a' pair)
  | storeStem id target value field =>
    exact like.await leads (List.forall_mem_nil _) (.storeField id target _ _ field alike)
  | statements rest => exact like.runStatements leads
  | dropped => exact like.give .void
  | branch id thenBranch elseBranch =>
    refine decides fun b => ?_
    split
    · exact goOn (by simp [Pending.leads, Pending.nodes]) (.same _ rfl) rfl
    · cases elseBranch with
      | none => exact like.give .void
      | some elseBranch => exact goOn (by simp [Pending.leads, Pending.nodes]) (.same _ rfl) rfl
  | loopTest id condition body =>
    refine decides fun b => ?_
    split
    · exact goOn (by simp [Pending.leads, Pending.nodes]) (.same _ rfl) rfl
    · exact like.give .void
  | loopBody id condition body =>
    exact goOn (by simp [Pending.leads, Pending.nodes]) (.same _ rfl) rfl
  | returned => exact like.leave (.ret _ _ alike)
  | declaration id name =>
    exact like.store closed (alike.widen _) .void id (stores id List.mem_cons_self) name
  | _ => cases bare

theorem follows_resume (like : s.Like Z tail R t) (closed : Z.Closed p) {v v' : Value}
    (alike : v.Like Z.functions R v') {waiting waiting' : Pending}
    (same : waiting.Like Z.functions R waiting') (within : waiting.Within Z) :
    Follows Z tail R s.world (resume p s v waiting) (resume p t v' waiting') := by
  obtain ⟨leads, stores⟩ := within
  cases same with
  | element id done done' rest dones =>
    cases rest with
    | nil => exact like.makeArray (List.rel_append (List.rel_reverse dones) (.cons alike .nil))
    | cons next rest =>
      exact like.await leads (List.forall_mem_nil _) (.element id _ _ rest (.cons alike dones))
  | accessIndex id a a' pair =>
    refine like.orFault (.ofEq (checkIndex_like alike)) fun i j same => ?_
    subst same
    have element := like.world.heap.element? pair i
    rw [like.world.heap.length pair]
    generalize s.world.heap.element? a i = x at element
    generalize t.world.heap.element? a' i = x' at element
    cases element with
    | none => exact like.raise ..
    | some alike => exact like.give alike
  | argument id callee callee' first done done' rest same dones =>
    cases rest with
    | nil =>
      exact follows_apply like closed id same first
        (List.rel_append (List.rel_reverse dones) (.cons alike .nil))
    | cons next rest =>
      refine like.await (fun m member => leads m ?_) (List.forall_mem_nil _)
        (.argument id _ _ first _ _ rest same (.cons alike dones))
      simp only [Pending.leads, Pending.nodes, List.mem_cons, List.mem_append] at member ⊢
      tauto
  | rightOperand id op left right l l' alike' =>
    simp only [resume, Arith.matrixProduct_like like.world.heap alike' alike,
      Arith.binary_like like.world.heap like.world.one op alike' alike]
    split
    · exact like.ofNest fun nest => Arith.scalar_of_matrixProduct
    · exact like.ofNest fun nest => Arith.scalar_of_binary
  | storeIndex id target value a a' pair =>
    refine like.orFault (.ofEq (checkIndex_like alike)) fun i j same => ?_
    subst same
    exact like.await leads (List.forall_mem_nil _) (.storeElement id target a a' i pair)
  | storeElement id target a a' i pair =>
    simp only [resume, like.world.heap.length pair]
    split
    · exact like.onward (.setElement like.world pair i (alike.widen _)) (.give _ _ (alike.widen _))
    · exact like.raise ..
  | storeField id target stem stem' field alike' =>
    cases alike' with
    | struct r r' pair =>
      have value := like.world.heap.field? pair field
      have same : (s.world.heap.field? r field).isSome = (t.world.heap.field? r' field).isSome := by
        generalize s.world.heap.field? r field = u at value
        generalize t.world.heap.field? r' field = u' at value
        cases value <;> rfl
      simp only [resume, same]
      split
      · exact like.onward (.setField like.world pair field (alike.widen _)) (.give _ _ (alike.widen _))
      · exact like.raise ..
    | _ => exact like.raise ..
  | leaveBlock saved saved' pair =>
    exact like.stay rfl rfl ⟨like.env.root, like.env.root', pair⟩ (.give _ _ .void) like.stack
  | leaveCall saved saved' pair =>
    exact like.stay rfl rfl ⟨like.env.root, like.env.root', pair⟩ (.give _ _ .void) like.stack
  | same waiting bare => exact follows_resume_bare like closed alike bare leads stores

theorem follows_unwind (like : s.Like Z tail R t) {e e' : Exit} (alike : e.Like Z.functions R e')
    {waiting waiting' : Pending} (same : waiting.Like Z.functions R waiting') :
    Follows Z tail R s.world (unwind s e waiting) (unwind t e' waiting') := by
  cases same with
  | leaveBlock saved saved' pair =>
    exact like.stay rfl rfl ⟨like.env.root, like.env.root', pair⟩ (.leave _ _ alike) like.stack
  | leaveCall saved saved' pair =>
    have env : (s.env.restore saved).Like R (t.env.restore saved') :=
      ⟨like.env.root, like.env.root', pair⟩
    cases alike with
    | ret v v' alike => exact like.stay rfl rfl env (.give _ _ alike) like.stack
    | fault f => exact like.stay rfl rfl env (.leave _ _ (.fault f)) like.stack
    | crash message => exact like.stay rfl rfl env (.leave _ _ (.crash message)) like.stack
  | same waiting bare => cases waiting <;> first | exact like.leave alike | cases bare
  | _ => exact like.leave alike

/-! ## 4. Steps -/

/-- As long as the second thread has not come to its end, both take a step alike. -/
theorem Like.step (like : s.Like Z tail R t) (closed : Z.Closed p) (who who' : ThreadId)
    (going : t.stack = [] → ¬ t.control.Hands) :
    Follows Z tail R s.world (s.step p who) (t.step p who') := by
  obtain ⟨w, env, control, stack⟩ := s
  obtain ⟨w', env', control', stack'⟩ := t
  obtain ⟨world, stands, same, waits⟩ := id like
  cases same with
  | eval n inside =>
    simp only [step, Program.kind]
    cases found : p.arena.kind? n with
    | none => exact like.leave (.crash _)
    | some kind => exact follows_enter like closed inside found
  | give v v' alike =>
    cases waits with
    | bottom => exact (going rfl trivial).elim
    | @cons _ _ stack stack' first within rest =>
      have popped : Like Z tail R ⟨w, env, .give v, stack⟩ ⟨w', env', .give v', stack'⟩ :=
        ⟨world, stands, .give v v' alike, rest⟩
      exact follows_resume popped closed alike first within
  | leave e e' alike =>
    cases waits with
    | bottom => exact (going rfl trivial).elim
    | @cons _ _ stack stack' first within rest =>
      have popped : Like Z tail R ⟨w, env, .leave e, stack⟩ ⟨w', env', .leave e', stack'⟩ :=
        ⟨world, stands, .leave e e' alike, rest⟩
      exact follows_unwind popped alike first
  | invoke span function arguments arguments' knows alike =>
    exact follows_invoke like closed span knows alike
  | startLine text loud =>
    simp only [step, world.output.available]
    split
    · exact like.onward (.print world loud (world.output.acquire who who')) (.writeText text loud)
    · exact like.goTo (.startLine text loud)
  | writeText text loud =>
    exact like.onward (.print world loud (world.output.append text)) (.writeBreak text loud)
  | writeBreak text loud =>
    exact like.onward (.print world loud (world.output.append "\n")) (.endLine text loud)
  | endLine text loud => exact like.onward (.print world loud world.output.release) (.give _ _ (.str text))
  | spin => exact like.stay rfl rfl like.env like.control like.stack

end Turn

end Strand
