import Mathlib
import Strand.Proofs.Accounting
import Strand.Proofs.Scope.Nesting

/-!
# A statement is run once in a frame

A block has each of its statements at a position of its own, and every time the block is entered there
is a new frame. So of the statements of one position, at most one is still to be run in a frame, and by
at most one of all threads, those that wait to be started included (`Run.dueCount_le_one`). For this a
statement and the declaration that it launches are counted as one: when the one has been run, the other
is still due.

What carries this is that a thread goes back to expressions and blocks only. Statements are taken from
their list one by one, and nothing is put back there (`Thread.Sound`).
-/

set_option autoImplicit false

namespace Strand

/-! ## 1. What a thread goes back to -/

namespace Program

/-- An expression or a block: a node that is a part of others. -/
def IsPart (p : Program) (n : NodeId) : Prop :=
  ∃ kind, p.arena.kind? n = some kind ∧
    (kind.isExpression = true ∨ ∃ statements, kind = .block statements)

/-- A node that is not the root. -/
def IsInner (p : Program) (n : NodeId) : Prop :=
  ∃ kind, p.arena.kind? n = some kind ∧ kind.isRoot = false

variable {p : Program} {context : NodeId → Context} {inPlace : Bool} {Γ : Context} {m n : NodeId}

theorem IsPart.isInner (h : p.IsPart n) : p.IsInner n := by
  obtain ⟨kind, found, expression | ⟨statements, rfl⟩⟩ := h
  · refine ⟨kind, found, ?_⟩
    cases kind <;> first | rfl | cases expression
  · exact ⟨_, found, rfl⟩

theorem isPart_of_operand (operand : (p.scoping context inPlace).Operand Γ n) : p.IsPart n := by
  obtain ⟨kind, found, expression⟩ := operand.kind
  exact ⟨kind, found, .inl expression⟩

theorem isInner_of_statement (statement : (p.scoping context inPlace).Statement Γ n) :
    p.IsInner n := by
  obtain ⟨kind, found, shape⟩ := statement.kind
  refine ⟨kind, found, ?_⟩
  cases kind <;> first | rfl | cases shape

/-- What a node evaluates in its own frame are expressions and blocks. -/
theorem isPart_of_mem_parts (nodes : (p.scoping context inPlace).WellScoped) (member : n ∈ p.parts m) :
    p.IsPart n := by
  unfold parts at member
  split at member
  · next target value found =>
    have operands := (nodes m _ found).operands
    rcases List.mem_cons.mp member with rfl | inner
    · exact isPart_of_operand (operands _ (by simp [NodeKind.operands]))
    · obtain ⟨kind, found', -⟩ := (operands target (by simp [NodeKind.operands])).kind
      have found' : p.arena.kind? target = some kind := found'
      rw [found'] at inner
      exact isPart_of_operand ((nodes target kind found').operands n inner)
  · cases member
  · cases member
  · next kind _ other found =>
    have parts := (nodes m _ found).toParts
    simp only [List.mem_append, Option.mem_toList] at member
    rcases member with (calls | uses) | runs
    · exact isPart_of_operand (parts.callee n calls)
    · exact isPart_of_operand (parts.operands n uses)
    · obtain ⟨part, found', hosts⟩ := parts.shapes n runs
      refine ⟨part, found', .inr ?_⟩
      cases part with
      | block statements => exact ⟨statements, rfl⟩
      | varDecl name initializer =>
        cases kind with
        | launchDecl declaration => exact absurd rfl (other declaration)
        | _ => cases hosts
      | _ => cases kind <;> cases hosts

end Program

/-- What waits evaluates parts of nodes, and binds only what the program says. -/
structure Pending.Sound (p : Program) (waiting : Pending) : Prop where
  parts : ∀ n ∈ waiting.nodes, p.IsPart n
  inner : ∀ n ∈ waiting.dues, p.IsInner n
  declares : ∀ n name, waiting = .declaration n name →
    ∃ initializer, p.arena.kind? n = some (.varDecl name initializer)
  assigns : ∀ n target name, waiting = .assignName n target name →
    p.arena.kind? target = some (.reference name) ∧
      ∃ value, p.arena.kind? n = some (.assignment target value)

/-- Nothing waits in a thread but parts of nodes and the statements of blocks. -/
structure Thread.Sound (p : Program) (t : Thread) : Prop where
  control : t.control.FromProgram
  inner : ∀ n ∈ t.control.dues, p.IsInner n
  parts : ∀ n ∈ t.control.nodes p, p.IsPart n
  stack : ∀ waiting ∈ t.stack, waiting.Sound p

/-- What evaluates nothing and binds nothing is sound. -/
theorem Pending.sound_of_saved? {p : Program} {waiting : Pending} {saved : FrameId}
    (saves : waiting.saved? = some saved) : waiting.Sound p := by
  cases waiting with
  | leaveBlock | leaveCall => exact ⟨nofun, nofun, nofun, nofun⟩
  | _ => cases saves

theorem Pending.sound_statements {p : Program} {statements : List NodeId}
    (inner : ∀ n ∈ statements, p.IsInner n) : (Pending.statements statements).Sound p :=
  ⟨nofun, inner, nofun, nofun⟩

theorem Pending.LeftBy.sound {p : Program} {control : Control} {waiting : Pending}
    (left : waiting.LeftBy p control) (parts : ∀ n ∈ waiting.nodes, p.IsPart n)
    (inner : ∀ n ∈ control.dues, p.IsInner n) : waiting.Sound p := by
  refine ⟨parts, fun n due => ?_, ?_, ?_⟩
  · rcases left.dues with same | same
    · exact (parts n (same ▸ due)).isInner
    · exact inner n (same ▸ due)
  · rintro n name rfl
    cases left with
    | plain control waiting plain => cases plain
    | declaration n initializer name kind => exact ⟨initializer, kind⟩
  · rintro n target name rfl
    cases left with
    | plain control waiting plain => cases plain
    | assignName n target value name kind refers => exact ⟨refers, value, kind⟩

theorem Control.IsIdle.nodes {p : Program} {control : Control} (idle : control.IsIdle) :
    control.nodes p = [] := by
  cases control <;> first | rfl | cases idle

namespace Thread.Sound

variable {p : Program} {context : NodeId → Context} {inPlace : Bool} {env : Env} {control : Control}
  {stack : List Pending} {n : NodeId} (stacked : ∀ waiting ∈ stack, waiting.Sound p)

include stacked

theorem of_idle (idle : control.IsIdle) : Sound p ⟨env, control, stack⟩ := by
  refine ⟨?_, ?_, ?_, stacked⟩
  · cases control <;> trivial
  · rw [idle.dues]
    exact List.forall_mem_nil _
  · rw [idle.nodes]
    exact List.forall_mem_nil _

theorem of_eval (nodes : (p.scoping context inPlace).WellScoped) (inner : p.IsInner n) :
    Sound p ⟨env, .eval n, stack⟩ :=
  ⟨trivial, List.forall_mem_singleton.mpr inner, fun _ => Program.isPart_of_mem_parts nodes, stacked⟩

theorem of_leadsTo (nodes : (p.scoping context inPlace).WellScoped) (leads : control.LeadsTo n)
    (part : p.IsPart n) : Sound p ⟨env, control, stack⟩ := by
  cases leads with
  | eval => exact .of_eval stacked nodes part.isInner
  | find | add | enter =>
    exact ⟨trivial, List.forall_mem_singleton.mpr part.isInner, List.forall_mem_singleton.mpr part, stacked⟩

theorem of_submit (inner : p.IsInner n) : Sound p ⟨env, .submit [.eval n], stack⟩ :=
  ⟨List.forall_mem_singleton.mpr ⟨n, rfl⟩, List.forall_mem_singleton.mpr inner, nofun, stacked⟩

end Thread.Sound

namespace Turn

variable {p : Program} {context : NodeId → Context} {inPlace : Bool} {s s' : Turn}
  {nodes : List NodeId} {stack : List Pending}

theorem Under.subset (under : s.Under stack) : stack ⊆ s.stack := by
  obtain rfl | ⟨waiting, waits, -⟩ := under
  · exact List.Subset.refl _
  · rw [waits]
    exact List.subset_cons_self _ _

/-- A sound thread goes on with parts of nodes. -/
theorem Source.isPart (source : Source p s nodes stack) (sound : s.thread.Sound p) :
    ∀ n ∈ nodes, p.IsPart n := by
  cases source with
  | control => exact sound.parts
  | pending v waiting stack gives waits =>
    have top : waiting ∈ s.stack := by rw [waits]; exact List.mem_cons_self
    exact (sound.stack waiting top).parts

/-- A sound thread has the root behind it, so the statements that it runs have been waiting. -/
theorem Runs.waits (runs : Runs p s nodes stack) (sound : s.thread.Sound p) :
    (∃ v, s.control = .give v) ∧ s.stack = .statements nodes :: stack := by
  cases runs with
  | root root _ evaluates kind =>
    have due : root ∈ s.control.dues := by rw [evaluates]; exact List.mem_cons_self
    obtain ⟨kind', found, shape⟩ := sound.inner root due
    cases kind.symm.trans found
    cases shape
  | rest v _ _ gives waits => exact ⟨⟨v, gives⟩, waits⟩

theorem Course.sound (course : Course p s s') (nodes : (p.scoping context inPlace).WellScoped)
    (sound : s.thread.Sound p) : s'.thread.Sound p := by
  have stacked : ∀ waiting ∈ s.stack, waiting.Sound p := sound.stack
  have below : ∀ {stack}, s.Under stack → ∀ waiting ∈ stack, waiting.Sound p :=
    fun under waiting waits => stacked waiting (under.subset waits)
  unfold Turn.thread
  cases course with
  | still same => exact same ▸ sound
  | idle frames env stack control => exact .of_idle (below stack) control
  | back saved left frames env stack saves control =>
    rw [stack] at stacked
    exact .of_idle (List.forall_mem_cons.mp stacked).2 control
  | watch left target id name scope g frames env stack saves refers owns found control hands =>
    rw [control]
    exact ⟨trivial, nofun, nofun, below (.inr ⟨left, stack, saves, hands⟩)⟩
  | store v left n name scope g gives stack stores owns found env frames control =>
    obtain ⟨w, control⟩ := control
    exact .of_idle (below (.inr ⟨left, stack, stores.saved?, gives ▸ trivial⟩)) (control ▸ trivial)
  | part nodes' stack n left source member frames env control leaves leftBy others =>
    have parts := source.isPart sound
    rw [leaves]
    refine .of_leadsTo (List.forall_mem_append.mpr ⟨fun waiting new => ?_, below (source.under member)⟩)
      nodes control (parts n member)
    have new : waiting ∈ left := Option.mem_toList.mp new
    exact (leftBy waiting new).sound (fun m part => parts m (others waiting new part)) sound.inner
  | run n later stack runs frames env control leaves =>
    have waits : .statements (n :: later) ∈ s.stack := (runs.waits sound).2 ▸ List.mem_cons_self
    obtain ⟨first, inner⟩ := List.forall_mem_cons.mp (stacked _ waits).inner
    rw [control, leaves]
    have rest : (Pending.statements later).Sound p := Pending.sound_statements inner
    exact .of_eval (List.forall_mem_cons.mpr ⟨rest, below runs.under⟩) nodes first
  | block n statements scope evaluates kind here current frames begins =>
    obtain ⟨outside, scope', Δ, head, opens, parent, fresh, sequence⟩ := (nodes n _ kind).fits
    have inner : ∀ m ∈ statements, p.IsInner m := by
      intro m member
      obtain ⟨Γ, statement, -⟩ := sequence.statement member
      exact Program.isInner_of_statement statement
    have outer : ∀ waiting ∈ .leaveBlock s.env.current :: s.stack, waiting.Sound p :=
      List.forall_mem_cons.mpr ⟨Pending.sound_of_saved? rfl, stacked⟩
    cases statements with
    | nil =>
      rw [begins.1, begins.2]
      exact .of_idle outer trivial
    | cons first rest =>
      obtain ⟨first, inner⟩ := List.forall_mem_cons.mp inner
      rw [begins.1, begins.2]
      exact .of_eval (List.forall_mem_cons.mpr ⟨Pending.sound_statements inner, outer⟩) nodes first
  | call span function arguments name parameters body scope bindings invokes kind opens bound current
      frames control stack =>
    obtain ⟨outside, scope', names, -, -, -, -, -, -, body⟩ := (nodes function _ kind).fits
    rw [control, stack]
    exact .of_eval (List.forall_mem_cons.mpr ⟨Pending.sound_of_saved? rfl, stacked⟩) nodes
      (Program.isInner_of_statement body.toStatement)
  | launch n call evaluates kind frames env control stack =>
    have operand := (nodes n _ kind).operands call List.mem_cons_self
    rw [control, stack]
    exact .of_submit stacked (Program.isPart_of_operand operand).isInner
  | launchDecl n declaration initializer name scope g evaluates kind declares owns found frames env
      control stack =>
    rw [control, stack]
    exact .of_submit stacked ⟨_, declares, rfl⟩
  | take lock takes =>
    have simple : s.control.FromProgram := sound.control
    rw [takes] at simple
    exact simple.elim

end Turn

/-! ## 2. Statements of one position -/

/-- Statements that are never due together: they have the position of a block in common, and with a
declaration the statements that launch it are among them. -/
structure Scoping.Exclusive (G : Scoping) (chosen : NodeId → Bool) : Prop where
  statement : ∀ n kind, chosen n = true → G.arena.kind? n = some kind →
    kind.isExpression = false ∧ ∀ statements, kind ≠ .block statements
  launch : ∀ n declaration, G.arena.kind? n = some (.launchDecl declaration) →
    chosen declaration = true → chosen n = true
  position : ∀ m n, chosen m = true → chosen n = true → (G.context m).position = (G.context n).position

/-- How many of these nodes are such statements, if they are to be run in the frame. -/
def counted (chosen : NodeId → Bool) (f here : FrameId) (nodes : List NodeId) : Nat :=
  if here = f then nodes.countP chosen else 0

/-- How many of these statements a stack has still to do with in a frame. -/
def stackedDues (chosen : NodeId → Bool) (f here : FrameId) (stack : List Pending) : Nat :=
  ((framed here stack).map fun x => counted chosen f x.1 x.2.dues).sum

/-- How many of these statements a thread has still to do with in a frame. -/
def Thread.dueCount (chosen : NodeId → Bool) (f : FrameId) (t : Thread) : Nat :=
  counted chosen f t.env.current t.control.dues + stackedDues chosen f t.env.current t.stack

section

variable {chosen : NodeId → Bool} {f here : FrameId} {nodes : List NodeId} {n : NodeId}

@[simp] theorem counted_nil (chosen : NodeId → Bool) (f here : FrameId) : counted chosen f here [] = 0 := by
  simp [counted]

theorem counted_eq_zero (none : ∀ n ∈ nodes, chosen n = false) : counted chosen f here nodes = 0 := by
  unfold counted
  split
  · exact List.countP_eq_zero.mpr fun n member => by simp [none n member]
  · rfl

theorem counted_cons (n : NodeId) (nodes : List NodeId) : counted chosen f here (n :: nodes) =
    counted chosen f here [n] + counted chosen f here nodes := by
  unfold counted
  split
  · show ([n] ++ nodes).countP chosen = _
    exact List.countP_append ..
  · rfl

theorem counted_mono {other : NodeId → Bool} (more : ∀ n, chosen n = true → other n = true)
    (nodes : List NodeId) : counted chosen f here nodes ≤ counted other f here nodes := by
  unfold counted
  split
  · exact List.countP_mono_left fun n _ => more n
  · exact le_refl _

theorem mem_of_counted_pos (due : 0 < counted chosen f here nodes) :
    here = f ∧ ∃ n ∈ nodes, chosen n = true := by
  unfold counted at due
  split at due
  · next same => exact ⟨same, List.countP_pos_iff.mp due⟩
  · cases due

@[simp] theorem stackedDues_nil (chosen : NodeId → Bool) (f here : FrameId) :
    stackedDues chosen f here [] = 0 := rfl

theorem stackedDues_cons (waiting : Pending) (stack : List Pending) :
    stackedDues chosen f here (waiting :: stack) =
      counted chosen f here waiting.dues + stackedDues chosen f (waiting.saved?.getD here) stack := rfl

theorem stackedDues_cons_of_unsaved {waiting : Pending} (unsaved : waiting.saved? = none)
    (stack : List Pending) : stackedDues chosen f here (waiting :: stack) =
      counted chosen f here waiting.dues + stackedDues chosen f here stack := by
  rw [stackedDues_cons, unsaved]
  rfl

theorem stackedDues_cons_of_saves {waiting : Pending} {saved : FrameId}
    (saves : waiting.saved? = some saved) (stack : List Pending) :
    stackedDues chosen f here (waiting :: stack) = stackedDues chosen f saved stack := by
  have none : waiting.dues = [] := by cases waiting <;> first | rfl | cases saves
  rw [stackedDues_cons, none, counted_nil, Nat.zero_add, saves]
  rfl

theorem stackedDues_mono {other : NodeId → Bool} (more : ∀ n, chosen n = true → other n = true)
    (stack : List Pending) : stackedDues chosen f here stack ≤ stackedDues other f here stack := by
  induction stack generalizing here with
  | nil => exact le_refl _
  | cons waiting stack ih =>
    rw [stackedDues_cons, stackedDues_cons]
    exact Nat.add_le_add (counted_mono more _) ih

theorem Thread.dueCount_mono {other : NodeId → Bool} (more : ∀ n, chosen n = true → other n = true)
    (t : Thread) : t.dueCount chosen f ≤ t.dueCount other f :=
  Nat.add_le_add (counted_mono more _) (stackedDues_mono more _)

end

namespace Scoping

variable {G : Scoping} {chosen : NodeId → Bool} {Γ Δ : Context} {statements : List NodeId}

/-- Of the statements of a block, at most one is of such a position. -/
theorem Exclusive.countP_le_one (exclusive : G.Exclusive chosen)
    (sequence : G.Sequence Γ statements Δ) : statements.countP chosen ≤ 1 := by
  induction sequence with
  | nil => exact Nat.zero_le _
  | @cons Γ Δ first rest names statement declares others ih =>
    rw [List.countP_cons]
    split
    · next one =>
      have none : rest.countP chosen = 0 := by
        refine List.countP_eq_zero.mpr fun n member other => ?_
        obtain ⟨Θ, later, -, position⟩ := others.statement member
        have same := exclusive.position first n one other
        rw [statement.position, later.position] at same
        exact absurd (same ▸ position) (Nat.not_succ_le_self _)
      rw [none]
    · exact ih

end Scoping

namespace Turn

variable {p : Program} {context : NodeId → Context} {inPlace : Bool} {chosen : NodeId → Bool}
  {s s' : Turn} {f : FrameId}

theorem not_of_isPart (exclusive : (p.scoping context inPlace).Exclusive chosen) {n : NodeId}
    (part : p.IsPart n) : chosen n = false := by
  obtain ⟨kind, found, shape⟩ := part
  cases one : chosen n with
  | false => rfl
  | true =>
    obtain ⟨statement, noBlock⟩ := exclusive.statement n kind one found
    rcases shape with expression | ⟨statements, same⟩
    · cases statement.symm.trans expression
    · exact absurd same (noBlock statements)

/-- A thread has nothing to do in a frame that does not exist. -/
theorem dueCount_of_not_live (chosen : NodeId → Bool) (f : FrameId) {t : Thread} {fs : Frames}
    (anchored : t.Anchored fs)
    (new : ¬ fs.Live f) : t.dueCount chosen f = 0 := by
  have away : ∀ g ∈ held t.env.current t.stack, g ≠ f := fun g member same =>
    new (same ▸ anchored.live g member)
  have below : ∀ (stack : List Pending) (here : FrameId), (∀ g ∈ held here stack, g ≠ f) →
      stackedDues chosen f here stack = 0 := by
    intro stack
    induction stack with
    | nil => intro here away; rfl
    | cons waiting stack ih =>
      intro here away
      rw [held_cons] at away
      rw [stackedDues_cons, counted, if_neg (away here List.mem_cons_self), Nat.zero_add]
      refine ih _ fun g member => away g ?_
      rcases List.mem_cons.mp member with rfl | outer
      · cases saves : waiting.saved? with
        | none => exact List.mem_cons_self
        | some saved => exact List.mem_cons_of_mem _ (List.mem_append_left _ List.mem_cons_self)
      · exact List.mem_cons_of_mem _ (List.mem_append_right _ outer)
  rw [Thread.dueCount, counted, if_neg (away _ List.mem_cons_self), below _ _ away]

theorem counted_of_isPart (exclusive : (p.scoping context inPlace).Exclusive chosen) {nodes : List NodeId}
    (parts : ∀ n ∈ nodes, p.IsPart n) (here : FrameId) : counted chosen f here nodes = 0 :=
  counted_eq_zero fun n member => not_of_isPart exclusive (parts n member)

/-- What is left behind is the end of the node that left it, or has parts of nodes to evaluate. -/
theorem counted_of_leftBy (exclusive : (p.scoping context inPlace).Exclusive chosen) {waiting : Pending}
    {control : Control} (left : waiting.LeftBy p control) (parts : ∀ n ∈ waiting.nodes, p.IsPart n)
    (here : FrameId) : counted chosen f here waiting.dues ≤ counted chosen f here control.dues := by
  rcases left.dues with same | same
  · rw [same, counted_of_isPart exclusive parts]
    exact Nat.zero_le _
  · rw [same]

theorem Under.stackedDues_le {stack : List Pending} (under : s.Under stack) :
    stackedDues chosen f s.env.current stack ≤ stackedDues chosen f s.env.current s.stack := by
  obtain rfl | ⟨waiting, waits, unsaved, -⟩ := under
  · exact le_refl _
  · rw [waits, stackedDues_cons_of_unsaved unsaved]
    exact Nat.le_add_left _ _

/-- A step adds nothing to what is due in a frame. If the frame is new, at most one of the statements
is due there. -/
theorem Course.dueCount (course : Course p s s') (nodes : (p.scoping context inPlace).WellScoped)
    (exclusive : (p.scoping context inPlace).Exclusive chosen) (sound : s.thread.Sound p)
    (anchored : s.thread.Anchored s.world.frames) :
    s'.thread.dueCount chosen f ≤ s.thread.dueCount chosen f ∨
      ¬ s.world.frames.Live f ∧ s'.thread.dueCount chosen f ≤ 1 := by
  have before : s.thread.dueCount chosen f =
    counted chosen f s.env.current s.control.dues + stackedDues chosen f s.env.current s.stack := rfl
  have after : s'.thread.dueCount chosen f =
    counted chosen f s'.env.current s'.control.dues + stackedDues chosen f s'.env.current s'.stack := rfl
  have fewer : counted chosen f s'.env.current s'.control.dues = 0 →
      stackedDues chosen f s'.env.current s'.stack ≤ stackedDues chosen f s.env.current s.stack →
      s'.thread.dueCount chosen f ≤ s.thread.dueCount chosen f := by
    intro none less
    omega
  have part : ∀ {n}, p.IsPart n → ∀ here, counted chosen f here [n] = 0 := fun part =>
    counted_of_isPart exclusive (List.forall_mem_singleton.mpr part)
  cases course with
  | still same => exact .inl (same ▸ le_refl _)
  | idle frames env stack control =>
    refine .inl (fewer (by rw [control.dues, counted_nil]) ?_)
    rw [env]
    exact Under.stackedDues_le stack
  | back saved left frames env stack saves control =>
    refine .inl (fewer (by rw [control.dues, counted_nil]) ?_)
    rw [env, stack, stackedDues_cons_of_saves saves]
    exact le_refl _
  | watch left target id name scope g frames env stack saves refers owns found control hands =>
    refine .inl (fewer (by rw [control]; exact counted_nil ..) ?_)
    rw [env]
    exact Under.stackedDues_le (.inr ⟨left, stack, saves, hands⟩)
  | store v left n name scope g gives stack stores owns found env frames control =>
    obtain ⟨w, control⟩ := control
    refine .inl (fewer (by rw [control]; exact counted_nil ..) ?_)
    rw [env]
    exact Under.stackedDues_le (.inr ⟨left, stack, stores.saved?, gives ▸ trivial⟩)
  | part nodes' stack n left source member frames env control leaves leftBy others =>
    have parts := source.isPart sound
    have below : stackedDues chosen f s.env.current stack ≤ stackedDues chosen f s.env.current s.stack :=
      (source.under member).stackedDues_le
    refine .inl ?_
    rw [before, after, control.dues, env, part (parts n member), Nat.zero_add, leaves]
    cases left with
    | none => exact below.trans (Nat.le_add_left _ _)
    | some waiting =>
      have left := leftBy waiting rfl
      have own := counted_of_leftBy (f := f) exclusive left (fun m part => parts m (others waiting rfl part))
        s.env.current
      rw [Option.toList_some, List.singleton_append, stackedDues_cons_of_unsaved left.saved?]
      exact Nat.add_le_add own below
  | run n rest stack runs frames env control leaves =>
    obtain ⟨⟨v, gives⟩, waits⟩ := runs.waits sound
    refine .inl ?_
    rw [before, after, control, env, leaves, gives, waits, stackedDues_cons_of_unsaved rfl,
      stackedDues_cons_of_unsaved rfl]
    simp only [Control.dues, Pending.dues, counted_cons n rest]
    omega
  | block n statements scope evaluates kind here current frames begins =>
    obtain ⟨outside, scope', Δ, head, opens, parent, fresh, sequence⟩ := (nodes n _ kind).fits
    have outer : stackedDues chosen f s'.env.current (.leaveBlock s.env.current :: s.stack) =
      stackedDues chosen f s.env.current s.stack := stackedDues_cons_of_saves rfl _
    -- in the new frame all the statements are due, and what waits outside is as before
    have inside : s'.thread.dueCount chosen f =
        counted chosen f s'.env.current statements + stackedDues chosen f s.env.current s.stack := by
      rw [after]
      cases statements with
      | nil => rw [begins.1, begins.2, outer]; rfl
      | cons first rest =>
        rw [begins.1, begins.2, stackedDues_cons_of_unsaved rfl, outer, counted_cons, Nat.add_assoc]
        rfl
    rw [inside]
    by_cases here : s'.env.current = f
    · have new : ¬ s.world.frames.Live f := by
        rw [← here, current]
        exact Frames.not_live_push _ _ _ _
      have none := dueCount_of_not_live chosen f anchored new
      rw [before] at none
      have one := exclusive.countP_le_one sequence
      refine .inr ⟨new, ?_⟩
      rw [counted, if_pos here]
      omega
    · refine .inl ?_
      rw [counted, if_neg here, Nat.zero_add, before]
      exact Nat.le_add_left _ _
  | call span function arguments name parameters body scope bindings invokes kind opens bound current
      frames control stack =>
    obtain ⟨outside, scope', names, -, -, -, -, -, -, block⟩ := (nodes function _ kind).fits
    obtain ⟨statements, found⟩ := block.block
    refine .inl (fewer (by rw [control]; exact part ⟨_, found, .inr ⟨_, rfl⟩⟩ _) ?_)
    rw [stack, stackedDues_cons_of_saves rfl]
  | launch n call evaluates kind frames env control stack =>
    have operand := Program.isPart_of_operand ((nodes n _ kind).operands call List.mem_cons_self)
    refine .inl (fewer (by rw [control]; exact part operand _) ?_)
    rw [env, stack]
  | launchDecl n declaration initializer name scope g evaluates kind declares owns found frames env
      control stack =>
    refine .inl ?_
    rw [before, after, control, env, stack, evaluates]
    simp only [Control.dues, List.filterMap_cons, List.filterMap_nil]
    refine Nat.add_le_add_right ?_ _
    unfold counted
    split
    · simp only [List.countP_cons, List.countP_nil, Nat.zero_add]
      by_cases one : chosen declaration = true
      · rw [if_pos one, if_pos (exclusive.launch n declaration kind one)]
      · rw [if_neg one]
        exact Nat.zero_le _
    · exact le_refl _
  | take lock takes =>
    have simple : s.control.FromProgram := sound.control
    rw [takes] at simple
    exact simple.elim

end Turn

/-! ## 3. Machines and runs -/

/-- The thread of a task, also while it waits to be started. -/
def TaskState.carried? : TaskState → Option Thread
  | .submitted env job => some (.start env job)
  | .running t => some t
  | _ => none

namespace TaskState

def dueCount (chosen : NodeId → Bool) (f : FrameId) (state : TaskState) : Nat :=
  (state.carried?.map (Thread.dueCount chosen f)).getD 0

theorem dueCount_ofOutcome (chosen : NodeId → Bool) (f : FrameId) (outcome : Outcome) :
    (ofOutcome outcome).dueCount chosen f = 0 := by
  rcases outcome with v | e
  · rfl
  · cases e <;> rfl

end TaskState

theorem Thread.dueCount_of_eval {chosen : NodeId → Bool} {f : FrameId} {t : Thread} {n : NodeId}
    (one : chosen n = true) (evaluates : t.control = .eval n) (here : t.env.current = f) :
    0 < t.dueCount chosen f := by
  have due : counted chosen f f [n] = 1 := by
    rw [counted, if_pos rfl, List.countP_cons, if_pos one]
    rfl
  rw [Thread.dueCount, evaluates, here, show (Control.eval n).dues = [n] from rfl, due]
  omega

/-- What a thread launches is due by the new task, and no more by the thread. -/
theorem Thread.dueCount_launch (chosen : NodeId → Bool) (f : FrameId) {t rest : Thread} {job : Control}
    (launches : t.launch? = some (job, rest)) (simple : t.control.FromProgram) :
    t.dueCount chosen f =
      (Thread.start rest.env job).dueCount chosen f + rest.dueCount chosen f := by
  obtain ⟨jobs, submits, rfl⟩ := Machine.launch?_eq_some launches
  rw [submits] at simple
  obtain ⟨n, rfl⟩ := simple job List.mem_cons_self
  have dues : t.control.dues = n :: (Control.submit jobs).dues := by rw [submits]; rfl
  rw [Thread.dueCount, dues, counted_cons, Nat.add_assoc]
  rfl

namespace Machine

/-- How many of these statements all the threads have still to do with in a frame. -/
def dueCount (chosen : NodeId → Bool) (f : FrameId) (m : Machine) : Nat :=
  m.main.dueCount chosen f + (m.tasks.toList.map fun task => task.state.dueCount chosen f).sum

/-- Every thread is sound, and every task will be when it is started. -/
structure Sound (p : Program) (m : Machine) : Prop where
  threads : ∀ who t, m.thread? who = some t → t.Sound p
  jobs : ∀ id env job, m.Waits id env job → (Thread.start env job).Sound p

variable {p : Program} {context : NodeId → Context} {inPlace : Bool} {chosen : NodeId → Bool}
  {m m' : Machine} {seen : Option Sighting} {f : FrameId}

/-- What a thread launches is sound, and so is the thread afterwards. -/
theorem Sound.launch (nodes : (p.scoping context inPlace).WellScoped) {t rest : Thread} {job : Control}
    (sound : t.Sound p) (launches : t.launch? = some (job, rest)) :
    rest.Sound p ∧ ∀ env, (Thread.start env job).Sound p := by
  obtain ⟨jobs, submits, rfl⟩ := launch?_eq_some launches
  obtain ⟨simple, inner, -, stack⟩ := sound
  rw [submits] at simple inner
  obtain ⟨n, rfl⟩ := simple job List.mem_cons_self
  refine ⟨⟨fun other member => simple other (List.mem_cons_of_mem _ member),
    fun n due => inner n (List.mem_cons_of_mem _ due), nofun, stack⟩, fun env => ⟨trivial, ?_, ?_, nofun⟩⟩
  · intro m due
    cases List.mem_singleton.mp due
    exact inner _ List.mem_cons_self
  · exact fun m part => Program.isPart_of_mem_parts nodes part

theorem Sound.next (sound : m.Sound p) (nodes : (p.scoping context inPlace).WellScoped)
    (next : Next p m seen m') : m'.Sound p := by
  refine ⟨?_, fun id env job waits => ?_⟩
  · refine next.forall_threads sound.threads (fun who t found _ turned => ?_)
      (fun who t rest job found launches => ?_) sound.jobs
    · subst turned
      exact (Turn.step_course p who (t.inside m.world)).sound nodes (sound.threads who t found)
    · exact (Sound.launch nodes (sound.threads who t found) launches).1
  · obtain waited | ⟨who, t, rest, found, launches, rfl, -⟩ := next.waits waits
    · exact sound.jobs id env job waited
    · exact (Sound.launch nodes (sound.threads who t found) launches).2 _

theorem dueCount_mono {other : NodeId → Bool} (more : ∀ n, chosen n = true → other n = true)
    (m : Machine) : m.dueCount chosen f ≤ m.dueCount other f := by
  refine Nat.add_le_add (Thread.dueCount_mono more _) (List.sum_le_sum fun task _ => ?_)
  cases carried : task.state.carried? with
  | none => simp [TaskState.dueCount, carried]
  | some t => simpa [TaskState.dueCount, carried] using Thread.dueCount_mono more t

section

variable (chosen : NodeId → Bool) (f : FrameId)

theorem dueCount_setTask {id : TaskId} {old : TaskState}
    (found : m.tasks[id.index]? = some ⟨id, old⟩) (new : TaskState) :
    (m.setTask id new).dueCount chosen f + old.dueCount chosen f =
      m.dueCount chosen f + new.dueCount chosen f := by
  obtain ⟨before, after, split, splits⟩ := split_setTask found
  simp only [dueCount, main_setTask, split, splits new, List.map_append, List.map_cons,
    List.sum_append, List.sum_cons]
  omega

theorem dueCount_setThread (numbered : m.Numbered) {who : ThreadId} {t : Thread}
    (found : m.thread? who = some t) (t' : Thread) :
    (m.setThread who t').dueCount chosen f + t.dueCount chosen f =
      m.dueCount chosen f + t'.dueCount chosen f := by
  cases who with
  | main =>
    cases found
    simp only [dueCount, setThread]
    omega
  | task id => exact dueCount_setTask chosen f (numbered.found found) (.running t')

theorem dueCount_afterTurn (numbered : m.Numbered) {who : ThreadId} {t : Thread}
    (found : m.thread? who = some t) (turn : Turn) :
    (m.afterTurn who turn).dueCount chosen f + t.dueCount chosen f =
      m.dueCount chosen f + turn.thread.dueCount chosen f :=
  dueCount_setThread chosen f numbered found turn.thread

theorem dueCount_submit (numbered : m.Numbered) {who : ThreadId} {t rest : Thread} {job : Control}
    (found : m.thread? who = some t) (launches : t.launch? = some (job, rest))
    (simple : t.control.FromProgram) :
    ((m.setThread who rest).submit rest.env job).2.dueCount chosen f = m.dueCount chosen f := by
  have split := Thread.dueCount_launch chosen f launches simple
  have changes := dueCount_setThread chosen f numbered found rest
  have pushed : ((m.setThread who rest).submit rest.env job).2.dueCount chosen f =
      (m.setThread who rest).dueCount chosen f + (Thread.start rest.env job).dueCount chosen f := by
    simp only [dueCount, submit, Array.toList_push, List.map_append, List.map_cons, List.map_nil,
      List.sum_append, List.sum_cons, List.sum_nil, Nat.add_zero]
    exact (Nat.add_assoc ..).symm
  omega

theorem dueCount_le (numbered : m.Numbered) {who : ThreadId} {t : Thread}
    (found : m.thread? who = some t) : t.dueCount chosen f ≤ m.dueCount chosen f := by
  have changes := dueCount_setThread chosen f numbered found
    (.start t.env (.give .void))
  have none : (Thread.start t.env (.give .void)).dueCount chosen f = 0 :=
    Nat.add_eq_zero_iff.mpr ⟨counted_nil .., rfl⟩
  omega

theorem dueCount_of_not_live (numbered : m.Numbered) (anchored : m.Anchored p)
    (new : ¬ m.world.frames.Live f) : m.dueCount chosen f = 0 := by
  have main : m.main.dueCount chosen f = 0 :=
    Turn.dueCount_of_not_live chosen f (anchored.threads .main m.main rfl) new
  rw [dueCount, main, Nat.zero_add]
  refine List.sum_eq_zero_iff_forall_eq_nat.mpr fun count member => ?_
  obtain ⟨⟨id, state⟩, inside, rfl⟩ := List.mem_map.mp member
  obtain ⟨i, found⟩ := List.getElem?_of_mem inside
  rw [Array.getElem?_toList] at found
  obtain rfl : id = ⟨i⟩ := numbered.ids i _ found
  cases state with
  | submitted env job =>
    obtain ⟨⟨n, rfl⟩, rooted, live⟩ := anchored.jobs ⟨i⟩ env job found
    exact Turn.dueCount_of_not_live chosen f (.start rooted live) new
  | running t =>
    have here : m.thread? (.task ⟨i⟩) = some t := by
      rw [thread?_of_found found]
      rfl
    exact Turn.dueCount_of_not_live chosen f (anchored.threads _ t here) new
  | _ => rfl

end

/-- No step adds to what is due in a frame that exists. -/
theorem Next.dueCount_le (next : Next p m seen m') (nodes : (p.scoping context inPlace).WellScoped)
    (exclusive : (p.scoping context inPlace).Exclusive chosen) (numbered : m.Numbered)
    (anchored : m.Anchored p) (sound : m.Sound p) :
    m'.dueCount chosen f ≤ m.dueCount chosen f ∨
      ¬ m.world.frames.Live f ∧ m'.dueCount chosen f ≤ 1 := by
  cases next with
  | idle => exact .inl (le_refl _)
  | turn who t found silent going =>
    have changes := dueCount_afterTurn chosen f numbered found
      ((t.inside m.world).step p who)
    rcases (Turn.step_course p who (t.inside m.world)).dueCount nodes exclusive
      (sound.threads who t found) (anchored.threads who t found) with fewer | ⟨new, one⟩
    · refine .inl ?_
      have fewer : _ ≤ t.dueCount chosen f := fewer
      omega
    · refine .inr ⟨new, ?_⟩
      have none := dueCount_of_not_live chosen f numbered anchored new
      have nothing := Turn.dueCount_of_not_live chosen f (anchored.threads who t found) new
      omega
  | launch who t rest job found launches =>
    exact .inl (dueCount_submit chosen f numbered found launches (sound.threads who t found).control).le
  | start id env job found =>
    have changes := dueCount_setTask chosen f found (.running (.start env job))
    have same : TaskState.dueCount chosen f (.running (.start env job)) =
      TaskState.dueCount chosen f (.submitted env job) := rfl
    exact .inl (by omega)
  | finished id t outcome found ended =>
    have changes := dueCount_setTask chosen f (numbered.found found)
      (.ofOutcome outcome)
    rw [TaskState.dueCount_ofOutcome] at changes
    exact .inl (by omega)
  | record id fault found =>
    have changes := dueCount_setTask chosen f found .ending
    exact .inl (Nat.le_of_add_right_le changes.le)
  | release id found =>
    have changes := dueCount_setTask chosen f found .ended
    exact .inl (Nat.le_of_add_right_le changes.le)

end Machine

namespace Run

variable {p : Program} {context : NodeId → Context} {rules : Rules} {chosen : NodeId → Bool}

/-- Whatever waits in a run is sound. -/
theorem sound_play (made : p.Made context rules) (c : RunConfig) (moves : List Move) :
    ((initial p c).play p c moves).machine.Sound p := by
  refine holds_play (fun r => r.machine.Sound p) ?_ (fun r r' _ sound next => ?_) moves
  · obtain ⟨bindings, machine, -⟩ := machine_initial_single p c
    obtain ⟨statements, found⟩ := made.root
    obtain ⟨Δ, sequence⟩ := (made.nodes p.root _ found).fits
    rw [machine]
    refine ⟨fun who t found' => ?_, fun id env job waits => nomatch waits⟩
    cases who with
    | task id => cases found'
    | main =>
      cases found'
      refine ⟨trivial, nofun, nofun, fun waiting member => ?_⟩
      cases List.mem_singleton.mp member
      rw [Program.rootStatements, Program.kind_eq_ok.mpr found]
      refine Pending.sound_statements fun n member => ?_
      obtain ⟨Θ, statement, -⟩ := sequence.statement member
      exact Program.isInner_of_statement statement
  · cases next with
    | same | look | giveUp => exact sound
    | step seen machine next here => exact sound.next made.nodes next
    | close | report => exact ⟨sound.threads, sound.jobs⟩

/-- Of the statements of one position, at most one is still to be run in a frame, by at most one of the
threads of a run. -/
theorem dueCount_le_one (made : p.Made context rules)
    (exclusive : (p.scoping context rules.inPlace).Exclusive chosen) (c : RunConfig) (moves : List Move)
    (f : FrameId) : ((initial p c).play p c moves).machine.dueCount chosen f ≤ 1 := by
  induction moves using List.reverseRecOn with
  | nil =>
    obtain ⟨bindings, machine, -⟩ := machine_initial_single p c
    obtain ⟨statements, found⟩ := made.root
    obtain ⟨Δ, sequence⟩ := (made.nodes p.root _ found).fits
    rw [play_nil, machine, Program.rootStatements, Program.kind_eq_ok.mpr found]
    have one : counted chosen f Frames.root statements ≤ 1 := by
      unfold counted
      split
      · exact exclusive.countP_le_one sequence
      · exact Nat.zero_le _
    have stacked : stackedDues chosen f Frames.root [.statements statements] =
      counted chosen f Frames.root statements := stackedDues_cons_of_unsaved rfl []
    simpa [Machine.dueCount, Thread.dueCount, Control.dues, stacked] using one
  | append_singleton moves last ih =>
    have numbered := numbered_play p c moves
    rw [play_append]
    rcases machine_move p c numbered last with next | ⟨-, ledger, same⟩
    · rcases next.dueCount_le (f := f) made.nodes exclusive numbered
        (anchored_play p c moves) (sound_play made c moves) with fewer | ⟨-, one⟩
      · exact fewer.trans ih
      · exact one
    · rw [play_cons, play_nil, same]
      exact ih

end Run

end Strand
