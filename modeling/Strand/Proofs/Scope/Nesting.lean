import Mathlib.Data.List.Perm.Subperm
import Mathlib.Logic.Relation
import Strand.Proofs.Reach
import Strand.Proofs.Scope.Scripts

/-!
# Frames nest as scopes do

A function value may be called anywhere, and the frame of the call is made inside whatever frame of the
declaring scope is found there, or inside the root frame. Still the scopes on the way outward are
distinct, and each is a static ancestor of the one before it: the scopes on the way are a sublist of the
scopes around the innermost one (`Frames.Nested.path_sublist`).

What carries this is that a statement is run only in a frame of the innermost scope of its context
(`Scoping.Stands`). Expressions may be used anywhere, but only statements open scopes.
-/

set_option autoImplicit false

namespace Strand

/-! ## 1. The scopes around a scope -/

namespace Attributes

/-- The scopes from a scope outward, so many at most. -/
def outward (attrs : Attributes) : Nat → ScopeId → List ScopeId
  | 0, _ => []
  | count + 1, scope => scope :: ((attrs.parent? scope).map (attrs.outward count)).getD []

/-- The scopes from a scope outward. There are no more than the scopes of the table, which may have a
parent, and one that has none. -/
def enclosing (attrs : Attributes) (scope : ScopeId) : List ScopeId :=
  attrs.outward (attrs.scopeCount + 1) scope

/-- How deep a scope is nested: the number of scopes from it outward. -/
def nesting (attrs : Attributes) (scope : ScopeId) : Nat := (attrs.enclosing scope).length

/-- A scope encloses another, directly or not. -/
def Encloses (attrs : Attributes) : ScopeId → ScopeId → Prop :=
  Relation.TransGen fun scope outside => attrs.parent? scope = some outside

instance (attrs : Attributes) : Trans attrs.Encloses attrs.Encloses attrs.Encloses :=
  ⟨Relation.TransGen.trans⟩

variable {attrs : Attributes} {scopes : List ScopeId} {scope : ScopeId}

theorem outward_of_isChain (inside : scopes.IsChain fun scope outside => attrs.parent? scope = some outside)
    (last : scopes.getLast? = some attrs.rootScope) (outermost : attrs.parent? attrs.rootScope = none)
    (head : scopes.head? = some scope) {count : Nat} (enough : scopes.length ≤ count) :
    attrs.outward count scope = scopes := by
  induction scopes generalizing scope count with
  | nil => cases head
  | cons first rest ih =>
    obtain rfl : first = scope := Option.some.inj head
    obtain ⟨count, rfl⟩ : ∃ n, count = n + 1 := ⟨count - 1, by simp at enough; omega⟩
    cases rest with
    | nil =>
      have root : first = attrs.rootScope := Option.some.inj last
      simp [outward, root, outermost]
    | cons second rest =>
      rw [List.isChain_cons_cons] at inside
      rw [outward, inside.1, Option.map_some, Option.getD_some]
      rw [ih inside.2 (by rw [← last, List.getLast?_cons_cons]) rfl (by simpa using enough)]

theorem isSome_parent?_of_mem_dropLast
    (inside : scopes.IsChain fun scope outside => attrs.parent? scope = some outside)
    (member : scope ∈ scopes.dropLast) : (attrs.parent? scope).isSome := by
  induction scopes with
  | nil => cases member
  | cons first rest ih =>
    cases rest with
    | nil => cases member
    | cons second rest =>
      rw [List.isChain_cons_cons] at inside
      rw [List.dropLast_cons_cons] at member
      rcases List.mem_cons.mp member with rfl | later
      · rw [inside.1]
        rfl
      · exact ih inside.2 later

end Attributes

namespace Scoping

variable {G : Scoping} {Γ : Context} {scope outside : ScopeId}

/-- A scope that has a proper context. -/
def Regular (G : Scoping) (scope : ScopeId) : Prop := ∃ Γ, G.Proper Γ ∧ Γ.scopes.head? = some scope

theorem Proper.length_le (proper : G.Proper Γ) : Γ.scopes.length ≤ G.attrs.scopeCount + 1 := by
  have indices : (Γ.scopes.dropLast.map ScopeId.index).Subperm (List.range G.attrs.scopeCount) := by
    refine List.subperm_of_subset ?_ fun i member => ?_
    · refine List.Nodup.map (fun s s' same => ?_) (proper.distinct.sublist (List.dropLast_sublist _))
      cases s
      cases s'
      exact congrArg _ same
    · obtain ⟨s, within, rfl⟩ := List.mem_map.mp member
      have parent := Attributes.isSome_parent?_of_mem_dropLast proper.inside within
      obtain ⟨outside, parent⟩ := Option.isSome_iff_exists.mp parent
      exact List.mem_range.mpr (Attributes.lt_of_parent? parent)
  have := indices.length_le
  simp only [List.length_map, List.length_dropLast, List.length_range] at this
  omega

/-- The scopes of a proper context are those around its innermost scope. -/
theorem Proper.enclosing (proper : G.Proper Γ) (outermost : G.attrs.parent? G.attrs.rootScope = none)
    (head : Γ.scopes.head? = some scope) : G.attrs.enclosing scope = Γ.scopes :=
  Attributes.outward_of_isChain proper.inside proper.last outermost head proper.length_le

/-- A new scope inside the innermost one is regular, and enclosed by the scopes of the context. -/
theorem Proper.regular_push (proper : G.Proper Γ)
    (outermost : G.attrs.parent? G.attrs.rootScope = none) (head : Γ.scopes.head? = some outside)
    (parent : G.attrs.parent? scope = some outside) (fresh : scope ∉ Γ.scopes) :
    G.Regular scope ∧ (G.attrs.enclosing scope).tail = Γ.scopes := by
  have inner := proper.push head parent fresh []
  exact ⟨⟨_, inner, rfl⟩, by rw [inner.enclosing outermost rfl]; rfl⟩

section

variable (outermost : G.attrs.parent? G.attrs.rootScope = none) (regular : G.Regular scope)

include outermost regular

/-- A scope around a regular one is regular, and the scopes around it are around that, too. -/
theorem Regular.outer (member : outside ∈ (G.attrs.enclosing scope).tail) :
    G.attrs.enclosing outside <:+ (G.attrs.enclosing scope).tail := by
  obtain ⟨Γ, proper, head⟩ := regular
  rw [proper.enclosing outermost head] at member ⊢
  obtain ⟨before, after, split⟩ := List.append_of_mem member
  have suffix : outside :: after <:+ Γ.scopes.tail := ⟨before, split.symm⟩
  have within : outside :: after <:+ Γ.scopes := suffix.trans (List.tail_suffix _)
  have last : (outside :: after).getLast? = some G.attrs.rootScope := by
    obtain ⟨before, same⟩ := within
    rw [← proper.last, ← same]
    simp [List.getLast?_cons]
  have proper' : G.Proper ⟨outside :: after, [], 0⟩ :=
    ⟨nofun, proper.inside.suffix within, last, proper.distinct.sublist within.sublist⟩
  exact proper'.enclosing outermost rfl ▸ suffix

theorem Regular.nodup : (G.attrs.enclosing scope).Nodup := by
  obtain ⟨Γ, proper, head⟩ := regular
  exact proper.enclosing outermost head ▸ proper.distinct

theorem Regular.pairwise : (G.attrs.enclosing scope).Pairwise G.attrs.Encloses := by
  obtain ⟨Γ, proper, head⟩ := regular
  rw [proper.enclosing outermost head]
  have chain : Γ.scopes.IsChain G.attrs.Encloses :=
    proper.inside.imp fun _ _ parent => Relation.TransGen.single parent
  exact chain.pairwise

end

end Scoping

/-! ## 2. Frames -/

namespace Frames

variable {G : Scoping} {fs fs' : Frames} {f g : FrameId} {scope : ScopeId}

/-- Every frame is an activation of a regular scope, and inside of a frame of a scope around its own. -/
structure Nested (G : Scoping) (fs : Frames) : Prop extends Linked fs G.attrs.rootScope where
  regular : ∀ f frame, fs.frame? f = some frame → G.Regular frame.scope
  inside : ∀ f g frame, fs.frame? f = some frame → frame.parent = some g →
    ∃ outside, fs.scope? g = some outside ∧ outside ∈ (G.attrs.enclosing frame.scope).tail

theorem Nested.define (h : fs.Nested G) (g : FrameId) (name : Name) (value : Value) :
    (fs.define g name value).Nested G := by
  have old : ∀ {f frame}, (fs.define g name value).frame? f = some frame →
      ∃ before, fs.frame? f = some before ∧ frame.scope = before.scope ∧
        frame.parent = before.parent := by
    intro f frame found
    rw [frame?_define] at found
    split at found
    · obtain ⟨before, here, rfl⟩ := Option.map_eq_some_iff.mp found
      exact ⟨before, here, rfl, rfl⟩
    · exact ⟨frame, found, rfl, rfl⟩
  refine ⟨h.toLinked.define g name value, fun f frame found => ?_, fun f parent frame found within => ?_⟩
  · obtain ⟨before, found, same, -⟩ := old found
    exact same ▸ h.regular f before found
  · obtain ⟨before, found, same, parents⟩ := old found
    rw [scope?_define, same]
    exact h.inside f parent before found (parents ▸ within)

theorem Nested.push (h : fs.Nested G) {outside : ScopeId} (owns : fs.scope? g = some outside)
    (regular : G.Regular scope) (inside : outside ∈ (G.attrs.enclosing scope).tail)
    (bindings : Bindings) : (fs.push scope bindings (some g)).2.Nested G := by
  have live : fs.Live g := by
    obtain ⟨frame, found, -⟩ := Option.map_eq_some_iff.mp owns
    exact live_of_found found
  have grows := grows_push fs scope bindings (some g)
  refine ⟨h.toLinked.push live scope bindings, fun f frame found => ?_, fun f parent frame found within => ?_⟩
  · rw [frame?_push_eq] at found
    split at found
    · cases found
      exact regular
    · exact h.regular f frame found
  · rw [frame?_push_eq] at found
    split at found
    · cases found
      cases within
      exact ⟨outside, grows.scope? owns, inside⟩
    · obtain ⟨outside, owns, inside⟩ := h.inside f parent frame found within
      exact ⟨outside, grows.scope? owns, inside⟩

section

variable (outermost : G.attrs.parent? G.attrs.rootScope = none)

include outermost

/-- The scopes on the way outward are some of those around the scope of the frame. -/
theorem Nested.path_sublist (h : fs.Nested G) (owns : fs.scope? f = some scope) :
    (fs.path f).Sublist (G.attrs.enclosing scope) := by
  have live : fs.Live f := by
    obtain ⟨frame, found, -⟩ := Option.map_eq_some_iff.mp owns
    exact live_of_found found
  revert scope
  refine h.toLinked.induction (fun f => ∀ {scope}, fs.scope? f = some scope →
    (fs.path f).Sublist (G.attrs.enclosing scope)) ?_ ?_ f live
  · intro scope owns
    obtain rfl : scope = G.attrs.rootScope := Option.some.inj (owns.symm.trans h.scope?_root)
    rw [h.path_root]
    exact List.singleton_sublist.mpr List.mem_cons_self
  · intro f g frame found parent _ ih scope owns
    obtain rfl : frame.scope = scope := by
      rw [scope?, found] at owns
      exact Option.some.inj owns
    obtain ⟨outside, outer, inside⟩ := h.inside f g frame found parent
    have suffix := (h.regular f frame found).outer outermost inside
    rw [h.path_cons found parent]
    exact ((ih outer).trans suffix.sublist).cons_cons frame.scope

theorem Nested.sound (h : fs.Nested G) : fs.Sound G.attrs.rootScope := by
  refine ⟨h.toLinked, fun f => ?_⟩
  cases found : fs.frame? f with
  | none =>
    rw [path, chain_of_none found]
    exact List.nodup_nil
  | some frame =>
    have owns : fs.scope? f = some frame.scope := by rw [scope?, found]; rfl
    exact ((h.regular f frame found).nodup outermost).sublist (h.path_sublist outermost owns)

end

end Frames

/-! ## 3. What is still to be evaluated -/

/-- What waits, each with the frame where it goes on. -/
def framed (f : FrameId) : List Pending → List (FrameId × Pending)
  | [] => []
  | waiting :: stack => (f, waiting) :: framed (waiting.saved?.getD f) stack

/-- The nodes that a pending has still to do with: those that it evaluates, the statements that follow,
and the declaration that it is the end of. -/
def Pending.dues : Pending → List NodeId
  | statements rest => rest
  | declaration n _ => [n]
  | waiting => waiting.nodes

/-- The nodes that a control evaluates. -/
def Control.dues : Control → List NodeId
  | eval n | findSite _ n | addSite _ n | enterSite _ _ n => [n]
  | submit jobs => jobs.filterMap fun
    | eval n => some n
    | _ => none
  | _ => []

/-- A node that a thread has still to evaluate in a frame, or to come to the end of. -/
inductive Thread.Due (t : Thread) : FrameId → NodeId → Prop
  | control {n : NodeId} (member : n ∈ t.control.dues) : Due t t.env.current n
  | pending {f : FrameId} {waiting : Pending} {n : NodeId}
      (waits : (f, waiting) ∈ framed t.env.current t.stack) (member : n ∈ waiting.dues) : Due t f n

theorem framed_cons {f : FrameId} {waiting : Pending} (stack : List Pending)
    (unsaved : waiting.saved? = none) : framed f (waiting :: stack) = (f, waiting) :: framed f stack := by
  rw [framed, unsaved]
  rfl

theorem framed_append (f : FrameId) (top base : List Pending) :
    framed f (top ++ base) = framed f top ++ framed (home f top) base := by
  induction top generalizing f with
  | nil => rfl
  | cons waiting top ih => exact congrArg ((f, waiting) :: ·) (ih _)

/-- What is under the top waits in the same frame. -/
theorem Turn.Under.framed_subset {s : Turn} {stack : List Pending} (under : s.Under stack) :
    framed s.env.current stack ⊆ framed s.env.current s.stack := by
  obtain rfl | ⟨waiting, waits, unsaved, -⟩ := under
  · exact List.Subset.refl _
  · rw [waits, framed_cons _ unsaved]
    exact List.subset_cons_self _ _

theorem Control.IsIdle.dues {control : Control} (idle : control.IsIdle) : control.dues = [] := by
  cases control <;> first | rfl | cases idle

theorem Control.LeadsTo.dues {control : Control} {n : NodeId} (leads : control.LeadsTo n) :
    control.dues = [n] := by
  cases leads <;> rfl

theorem Pending.nodes_subset_dues (waiting : Pending) : waiting.nodes ⊆ waiting.dues := by
  cases waiting <;> first | exact List.Subset.refl _ | exact List.nil_subset _

theorem Pending.dues_of_isPlain {waiting : Pending} (plain : waiting.isPlain = true) :
    waiting.dues = waiting.nodes := by
  cases waiting <;> first | rfl | cases plain

/-- What is left behind has parts of the node that left it to evaluate, or is the end of that node. -/
theorem Pending.LeftBy.dues {p : Program} {control : Control} {waiting : Pending}
    (left : waiting.LeftBy p control) :
    waiting.dues = waiting.nodes ∨ waiting.dues = control.dues := by
  cases left with
  | plain control waiting plain => exact .inl (Pending.dues_of_isPlain plain)
  | declaration => exact .inr rfl
  | assignName => exact .inl rfl

namespace Scoping

variable {G : Scoping} {fs fs' : Frames} {f : FrameId} {m n : NodeId} {kind : NodeKind}

/-- A statement that can be run in a frame: the frame is of the innermost scope of its context. -/
def Stands (G : Scoping) (fs : Frames) (f : FrameId) (n : NodeId) : Prop :=
  ∀ kind, G.arena.kind? n = some kind → kind.isExpression = false →
    ∃ scope, fs.scope? f = some scope ∧ (G.context n).scopes.head? = some scope

theorem Stands.grows (h : G.Stands fs f n) (grows : fs.Grows fs') : G.Stands fs' f n := by
  intro kind found shape
  obtain ⟨scope, owns, head⟩ := h kind found shape
  exact ⟨scope, grows.scope? owns, head⟩

theorem Stands.of_operand {Γ : Context} (operand : G.Operand Γ n) : G.Stands fs f n := by
  obtain ⟨kind, found, expression⟩ := operand.kind
  intro kind' found' shape
  cases found.symm.trans found'
  cases expression.symm.trans shape

theorem Stands.of_scopes (h : G.Stands fs f m) (found : G.arena.kind? m = some kind)
    (shape : kind.isExpression = false) (scopes : (G.context n).scopes = (G.context m).scopes) :
    G.Stands fs f n := by
  intro _ _ _
  rw [scopes]
  exact h kind found shape

/-- Every statement of a sequence is run in the scopes of the first, and comes no earlier. -/
theorem Sequence.statement {Γ Δ : Context} {statements : List NodeId}
    (sequence : G.Sequence Γ statements Δ) (member : n ∈ statements) :
    ∃ Θ, G.Statement Θ n ∧ Θ.scopes = Γ.scopes ∧ Γ.position ≤ Θ.position := by
  induction sequence with
  | nil => cases member
  | @cons Γ Δ first rest names statement declares others ih =>
    rcases List.mem_cons.mp member with rfl | later
    · exact ⟨Γ, statement, rfl, le_refl _⟩
    · obtain ⟨Θ, statement, scopes, position⟩ := ih later
      exact ⟨Θ, statement, scopes, Nat.le_of_succ_le position⟩

theorem Sequence.scopes {Γ Δ : Context} {statements : List NodeId}
    (sequence : G.Sequence Γ statements Δ) (member : n ∈ statements) :
    (G.context n).scopes = Γ.scopes := by
  obtain ⟨Θ, statement, scopes, -⟩ := sequence.statement member
  exact statement.scopes.trans scopes

end Scoping

/-- A program with a context for every node. -/
def Program.scoping (p : Program) (context : NodeId → Context) (inPlace : Bool) : Scoping :=
  ⟨p.arena, p.attrs, context, inPlace⟩

namespace Turn

variable {p : Program} {context : NodeId → Context} {inPlace : Bool} {s s' : Turn} {f : FrameId}
  {m n : NodeId}

/-- The parts of a node stand where the node does. -/
theorem stands_part (nodes : (p.scoping context inPlace).WellScoped) {fs : Frames}
    (stands : (p.scoping context inPlace).Stands fs f m) (member : n ∈ p.parts m) :
    (p.scoping context inPlace).Stands fs f n := by
  unfold Program.parts at member
  split at member
  · next target value found =>
    have parts := (nodes m _ found).toParts
    rcases List.mem_cons.mp member with rfl | inner
    · exact .of_operand (parts.operands _ (by simp [NodeKind.operands]))
    · obtain ⟨kind, found', -⟩ := (parts.operands target (by simp [NodeKind.operands])).kind
      have found' : p.arena.kind? target = some kind := found'
      rw [found'] at inner
      exact .of_operand ((nodes target kind found').operands n inner)
  · cases member
  · cases member
  · next kind _ _ found =>
    have parts := (nodes m _ found).toParts
    simp only [List.mem_append, Option.mem_toList] at member
    rcases member with (calls | uses) | runs
    · exact .of_operand (parts.callee n calls)
    · exact .of_operand (parts.operands n uses)
    · refine stands.of_scopes found ?_ (parts.substatements n runs).scopes
      cases kind <;> first | rfl | cases runs

/-- A thread whose nodes stand, in frames that nest as the scopes do. -/
structure Placed (G : Scoping) (s : Turn) : Prop where
  frames : s.world.frames.Nested G
  stands : ∀ f n, s.thread.Due f n → G.Stands s.world.frames f n

/-- The node that a turn evaluates is due where it is. -/
theorem due_of_eval (evaluates : s.control = .eval m) : s.thread.Due s.env.current m := by
  have member : m ∈ s.control.dues := by
    rw [evaluates]
    exact List.mem_cons_self
  exact .control member

/-- What waits for the value or the exit of a turn is due where that is. -/
theorem due_of_waits {waiting : Pending} {stack : List Pending} (waits : s.stack = waiting :: stack)
    (member : n ∈ waiting.dues) : s.thread.Due s.env.current n := by
  have top : (s.env.current, waiting) ∈ framed s.env.current s.stack := by
    rw [waits]
    exact List.mem_cons_self
  exact .pending top member

/-- Where a node comes from that is due after a step. -/
inductive Arises (p : Program) (s s' : Turn) : FrameId → NodeId → Prop
  | before {f : FrameId} {n : NodeId} (due : s.thread.Due f n) : Arises p s s' f n
  | part {m n : NodeId} (due : s.thread.Due s.env.current m) (member : n ∈ p.parts m) :
      Arises p s s' s.env.current n
  | statement {m n : NodeId} {statements : List NodeId} (due : s.thread.Due s.env.current m)
      (kind : p.arena.kind? m = some (.root statements)) (member : n ∈ statements) :
      Arises p s s' s.env.current n
  | declaration {m n : NodeId} (due : s.thread.Due s.env.current m)
      (kind : p.arena.kind? m = some (.launchDecl n)) : Arises p s s' s.env.current n
  /-- A statement of a block, in the frame that is made for it. -/
  | block {m n : NodeId} {statements : List NodeId} {scope : ScopeId}
      (kind : p.arena.kind? m = some (.block statements)) (opens : p.attrs.scope? m = some scope)
      (owns : s'.world.frames.scope? s'.env.current = some scope) (member : n ∈ statements) :
      Arises p s s' s'.env.current n
  /-- The body of a function, in the frame of the call. -/
  | body {function n : NodeId} {name : Name} {parameters : List NodeId} {scope : ScopeId}
      (kind : p.arena.kind? function = some (.funDecl name parameters n))
      (opens : p.attrs.bodyScope? function = some scope)
      (owns : s'.world.frames.scope? s'.env.current = some scope) : Arises p s s' s'.env.current n

theorem Source.arises {nodes : List NodeId} {stack : List Pending} (source : Source p s nodes stack)
    (member : n ∈ nodes) : Arises p s s' s.env.current n := by
  cases source with
  | control =>
    cases control : s.control with
    | eval m =>
      rw [control] at member
      exact .part (due_of_eval control) member
    | findSite | addSite | enterSite =>
      have due : n ∈ s.control.dues := by
        rw [control] at member ⊢
        exact member
      exact .before (.control due)
    | _ =>
      rw [control] at member
      cases member
  | pending v waiting stack gives waits =>
    exact .before (due_of_waits waits (waiting.nodes_subset_dues member))

theorem Runs.arises {statements : List NodeId} {stack : List Pending} (runs : Runs p s statements stack)
    (member : n ∈ statements) : Arises p s s' s.env.current n := by
  cases runs with
  | root root _ evaluates kind => exact .statement (due_of_eval evaluates) kind member
  | rest v _ stack gives waits => exact .before (due_of_waits waits member)

theorem Course.arises (course : Course p s s') (simple : s.control.FromProgram) (due : s'.thread.Due f n) :
    Arises p s s' f n := by
  have old : ∀ {f waiting}, (f, waiting) ∈ framed s.env.current s.stack → n ∈ waiting.dues →
      Arises p s s' f n := fun waits member => .before (.pending waits member)
  -- the steps that go on with no node, and leave nothing behind
  have fewer : s'.control.dues = [] → framed s'.env.current s'.stack ⊆ framed s.env.current s.stack →
      Arises p s s' f n := by
    intro none inside
    cases due with
    | control member => exact absurd (none ▸ member) List.not_mem_nil
    | pending waits member => exact old (inside waits) member
  have goesOn : ∀ {m}, s'.control.dues = [m] → Arises p s s' s'.env.current m →
      (∀ f waiting, (f, waiting) ∈ framed s'.env.current s'.stack → n ∈ waiting.dues →
        Arises p s s' f n) → Arises p s s' f n := by
    intro m one here stacked
    cases due with
    | control member =>
      rw [Turn.thread, one] at member
      exact List.mem_singleton.mp member ▸ here
    | pending waits member => exact stacked _ _ waits member
  cases course with
  | still same => exact .before (same ▸ due)
  | idle frames env stack control =>
    refine fewer control.dues ?_
    rw [env]
    exact Under.framed_subset stack
  | back saved left frames env stack saves control =>
    refine fewer control.dues ?_
    rw [env, stack, framed, saves]
    exact List.subset_cons_self _ _
  | watch left target id name scope g frames env stack saves refers owns found control hands =>
    refine fewer (control ▸ rfl) ?_
    rw [env]
    exact Under.framed_subset (.inr ⟨left, stack, saves, hands⟩)
  | store v left n name scope g gives stack stores owns found env frames control =>
    obtain ⟨w, control⟩ := control
    refine fewer (control ▸ rfl) ?_
    rw [env]
    exact Under.framed_subset (.inr ⟨left, stack, stores.saved?, gives ▸ trivial⟩)
  | part nodes stack m left source member frames env control leaves leftBy others =>
    have below := (source.under member).framed_subset
    refine goesOn control.dues (env ▸ source.arises member) fun f waiting waits member => ?_
    rw [env, leaves] at waits
    cases left with
    | none => exact old (below waits) member
    | some first =>
      rw [Option.toList_some, List.singleton_append, framed_cons _ (leftBy first rfl).saved?] at waits
      rcases List.mem_cons.mp waits with same | waited
      · cases same
        rcases (leftBy waiting rfl).dues with same | same
        · exact source.arises (others waiting rfl (same ▸ member))
        · exact .before (.control (same ▸ member))
      · exact old (below waited) member
  | run m rest stack runs frames env control leaves =>
    refine goesOn (control ▸ rfl) (env ▸ runs.arises List.mem_cons_self) fun f waiting waits member => ?_
    rw [env, leaves, framed_cons _ rfl] at waits
    rcases List.mem_cons.mp waits with same | waited
    · cases same
      exact runs.arises (List.mem_cons_of_mem _ member)
    · exact old (runs.under.framed_subset waited) member
  | block m statements scope evaluates kind here current frames begins =>
    have owns : s'.world.frames.scope? s'.env.current = some scope := by
      rw [frames, current]
      exact Frames.scope?_push ..
    have inside : ∀ n ∈ statements, Arises p s s' s'.env.current n := fun n => .block kind here owns
    have outer : ∀ f waiting, (f, waiting) ∈ framed s'.env.current (.leaveBlock s.env.current :: s.stack) →
        n ∈ waiting.dues → Arises p s s' f n := by
      intro f waiting waits member
      rcases List.mem_cons.mp waits with same | waited
      · cases same
        cases member
      · exact old waited member
    cases statements with
    | nil =>
      cases due with
      | control member =>
        rw [Turn.thread, begins.1] at member
        cases member
      | pending waits member =>
        rw [Turn.thread, begins.2] at waits
        exact outer _ _ waits member
    | cons first rest =>
      refine goesOn (begins.1 ▸ rfl) (inside first List.mem_cons_self) fun f waiting waits member => ?_
      rw [begins.2, framed_cons _ rfl] at waits
      rcases List.mem_cons.mp waits with same | waits
      · cases same
        exact inside n (List.mem_cons_of_mem _ member)
      · exact outer f waiting waits member
  | call span function arguments name parameters body scope bindings invokes kind opens bound current frames
      control stack =>
    have owns : s'.world.frames.scope? s'.env.current = some scope := by
      rw [frames, current]
      exact Frames.scope?_push ..
    refine goesOn (control ▸ rfl) (.body kind opens owns) fun f waiting waits member => ?_
    rw [stack] at waits
    rcases List.mem_cons.mp waits with same | waited
    · cases same
      cases member
    · exact old waited member
  | launch m call evaluates kind frames env control stack =>
    have launched : call ∈ p.parts m := by simp [Program.parts, kind, NodeKind.operands]
    have here : Arises p s s' s.env.current call := .part (due_of_eval evaluates) launched
    refine goesOn (m := call) (by rw [control]; rfl) (env ▸ here) fun f waiting waits member => ?_
    exact old (by rwa [env, stack] at waits) member
  | launchDecl m declaration initializer name scope g evaluates kind declares owns found frames env control
      stack =>
    have here : Arises p s s' s.env.current declaration := .declaration (due_of_eval evaluates) kind
    refine goesOn (m := declaration) (by rw [control]; rfl) (env ▸ here) fun f waiting waits member => ?_
    exact old (by rwa [env, stack] at waits) member
  | take lock takes =>
    rw [takes] at simple
    exact simple.elim

/-- What is due after a step stands. -/
theorem Arises.stands (arises : Arises p s s' f n) (nodes : (p.scoping context inPlace).WellScoped)
    (placed : s.Placed (p.scoping context inPlace)) (grows : s.world.frames.Grows s'.world.frames) :
    (p.scoping context inPlace).Stands s'.world.frames f n := by
  cases arises with
  | before due => exact (placed.stands _ _ due).grows grows
  | part due member => exact (stands_part nodes (placed.stands _ _ due) member).grows grows
  | statement due kind member =>
    obtain ⟨Δ, sequence⟩ := (nodes _ _ kind).fits
    exact ((placed.stands _ _ due).of_scopes kind rfl (sequence.scopes member)).grows grows
  | declaration due kind =>
    have scopes := ((nodes _ _ kind).substatements n List.mem_cons_self).scopes
    exact ((placed.stands _ _ due).of_scopes kind rfl scopes).grows grows
  | block kind opens owns member =>
    obtain ⟨outside, scope, Δ, -, opens', -, -, sequence⟩ := (nodes _ _ kind).fits
    cases opens.symm.trans opens'
    intro _ _ _
    rw [sequence.scopes member]
    exact ⟨_, owns, rfl⟩
  | body kind opens owns =>
    obtain ⟨outside, scope, names, -, -, opens', -, -, -, body⟩ := (nodes _ _ kind).fits
    cases opens.symm.trans opens'
    intro _ _ _
    rw [body.scopes]
    exact ⟨_, owns, rfl⟩

/-- The frame outside of a call owns the scope around the function, or the outermost one. -/
theorem scope?_declaringFrame (nested : s.world.frames.Nested (p.scoping context inPlace))
    (anchored : s.thread.Anchored s.world.frames) {scope outside : ScopeId}
    (parent : p.attrs.parent? scope = some outside) :
    s.world.frames.scope? (p.declaringFrame s.env s.world.frames scope) = some outside ∨
      s.world.frames.scope? (p.declaringFrame s.env s.world.frames scope) = some p.attrs.rootScope := by
  unfold Program.declaringFrame
  rw [parent, Option.bind_some]
  cases found : s.env.frameFor s.world.frames outside with
  | none =>
    rw [show s.env.root = Frames.root from anchored.root]
    exact .inr nested.scope?_root
  | some g => exact .inl (Env.frameFor_eq_some nested.toLinked anchored.root anchored.here found).2

/-- A new frame nests: a block is entered in a frame of the scope around it, and a call in its declaring
frame. -/
theorem Course.nested (course : Course p s s') (nodes : (p.scoping context inPlace).WellScoped)
    (outermost : p.attrs.parent? p.attrs.rootScope = none)
    (anchored : s.thread.Anchored s.world.frames) (placed : s.Placed (p.scoping context inPlace)) :
    s'.world.frames.Nested (p.scoping context inPlace) := by
  cases course with
  | still same => exact same ▸ placed.frames
  | idle frames | back _ _ frames | watch _ _ _ _ _ _ frames | part _ _ _ _ _ _ frames | run _ _ _ _ frames
  | launch _ _ _ _ frames | take _ _ frames => exact frames ▸ placed.frames
  | store _ _ _ _ _ _ _ _ _ _ _ _ frames | launchDecl _ _ _ _ _ _ _ _ _ _ _ frames =>
    exact frames ▸ placed.frames.define ..
  | block n statements scope evaluates kind here current frames begins =>
    obtain ⟨outside, scope', Δ, head, opens, parent, fresh, -⟩ := (nodes n _ kind).fits
    obtain rfl : scope = scope' := Option.some.inj (here.symm.trans opens)
    obtain ⟨regular, around⟩ := (nodes n _ kind).proper.regular_push outermost head parent fresh
    -- the block stands in a frame of the scope around it
    obtain ⟨outside', owns, head'⟩ := placed.stands _ _ (due_of_eval evaluates) _ kind rfl
    obtain rfl : outside = outside' := Option.some.inj (head.symm.trans head')
    exact frames ▸ placed.frames.push owns regular (around ▸ List.mem_of_mem_head? head) .empty
  | call span function arguments name parameters body scope bindings invokes kind opens bound current frames =>
    obtain ⟨outside, scope', names, head, -, opens', parent, fresh, -⟩ := (nodes function _ kind).fits
    obtain rfl : scope = scope' := Option.some.inj (opens.symm.trans opens')
    have proper := (nodes function _ kind).proper
    obtain ⟨regular, around⟩ := proper.regular_push outermost head parent fresh
    rw [frames]
    rcases scope?_declaringFrame placed.frames anchored parent with owns | owns
    · exact placed.frames.push owns regular (around ▸ List.mem_of_mem_head? head) bindings
    · exact placed.frames.push owns regular (around ▸ List.mem_of_getLast? proper.last) bindings

theorem Course.placed (course : Course p s s') (nodes : (p.scoping context inPlace).WellScoped)
    (outermost : p.attrs.parent? p.attrs.rootScope = none)
    (anchored : s.thread.Anchored s.world.frames) (placed : s.Placed (p.scoping context inPlace))
    (grows : s.world.frames.Grows s'.world.frames) : s'.Placed (p.scoping context inPlace) :=
  ⟨course.nested nodes outermost anchored placed,
    fun _ _ due => (course.arises anchored.control due).stands nodes placed grows⟩

end Turn

/-! ## 5. Machines and runs -/

/-- Every thread of a machine is placed, and every task that waits to begin will be. -/
structure Machine.Placed (G : Scoping) (m : Machine) : Prop where
  frames : m.world.frames.Nested G
  threads : ∀ who t, m.thread? who = some t → ∀ f n, t.Due f n → G.Stands m.world.frames f n
  jobs : ∀ id env n, m.Waits id env (.eval n) → G.Stands m.world.frames env.current n

/-- A task has nothing to do but the node that was launched. -/
theorem Thread.due_start {env : Env} {f : FrameId} {m n : NodeId}
    (due : (Thread.start env (.eval n)).Due f m) : f = env.current ∧ m = n := by
  cases due with
  | control member => exact ⟨rfl, List.mem_singleton.mp member⟩
  | pending waits => cases waits

namespace Machine

variable {p : Program} {context : NodeId → Context} {inPlace : Bool} {m m' : Machine}
  {seen : Option Sighting}

theorem Placed.next (placed : m.Placed (p.scoping context inPlace)) (anchored : m.Anchored p)
    (nodes : (p.scoping context inPlace).WellScoped)
    (outermost : p.attrs.parent? p.attrs.rootScope = none) (next : Next p m seen m') :
    m'.Placed (p.scoping context inPlace) := by
  have turned : ∀ {who t}, m.thread? who = some t →
      ((t.inside m.world).step p who).Placed (p.scoping context inPlace) := fun {who t} found =>
    (Turn.step_course p who (t.inside m.world)).placed nodes outermost (anchored.threads who t found)
      ⟨placed.frames, placed.threads who t found⟩ (Turn.step_moves p who (t.inside m.world)).keeps.2.2
  have nested : m'.world.frames.Nested (p.scoping context inPlace) := by
    cases next with
    | turn who t found silent going => exact (turned found).frames
    | launch who t rest job found launches =>
      have same : (m.setThread who rest).world = m.world := world_setThread m who rest
      exact (congrArg World.frames same).symm ▸ placed.frames
    | _ => exact placed.frames
  have launch : ∀ who t rest job, m.thread? who = some t → t.launch? = some (job, rest) →
      (∀ f n, rest.Due f n → t.Due f n) ∧ ∀ n, job = .eval n → t.Due rest.env.current n := by
    intro who t rest job found launches
    obtain ⟨jobs, submits, rfl⟩ := launch?_eq_some launches
    have dues : t.control.dues = (Control.submit (job :: jobs)).dues := by rw [submits]
    refine ⟨fun f n due => ?_, fun n same => .control ?_⟩
    · cases due with
      | control member =>
        refine .control (dues ▸ ?_)
        cases job <;> first | exact member | exact List.mem_cons_of_mem _ member
      | pending waits member => exact .pending waits member
    · rw [dues, same]
      exact List.mem_cons_self
  refine ⟨nested, ?_, fun id env n waits => ?_⟩
  · refine next.forall_threads
      (fun who t found f n due => (placed.threads who t found f n due).grows next.frames)
      (fun who t found _ same => ?_) (fun who t rest job found launches f n due => ?_)
      fun id env job waits f n due => ?_
    · subst same
      exact (turned found).stands
    · have due := (launch who t rest job found launches).1 f n due
      exact (placed.threads who t found f n due).grows next.frames
    · obtain ⟨⟨node, rfl⟩, -⟩ := anchored.jobs id env job waits
      obtain ⟨rfl, rfl⟩ := Thread.due_start due
      exact (placed.jobs id env n waits).grows next.frames
  · obtain waited | ⟨who, t, rest, found, launches, rfl, -⟩ := next.waits waits
    · exact (placed.jobs id env n waited).grows next.frames
    · have due := (launch who t rest _ found launches).2 n rfl
      exact (placed.threads who t found _ n due).grows next.frames

end Machine

namespace Run

variable {p : Program} {context : NodeId → Context} {rules : Rules}

theorem placed_play (made : p.Made context rules) (c : RunConfig) (moves : List Move) :
    ((initial p c).play p c moves).machine.Placed (p.scoping context rules.inPlace) := by
  have start : (initial p c).machine.Anchored p ∧
      (initial p c).machine.Placed (p.scoping context rules.inPlace) := by
    refine ⟨anchored_play p c [], ?_⟩
    obtain ⟨bindings, machine, -⟩ := machine_initial_single p c
    obtain ⟨statements, found⟩ := made.root
    have linked := (Frames.sound_single p.attrs.rootScope bindings).toLinked
    have root := made.nodes p.root _ found
    have head : (context p.root).scopes.head? = some p.attrs.rootScope := by
      rw [made.scopes_root]
      rfl
    rw [machine]
    refine ⟨⟨linked, fun f frame found => ?_, fun f g frame found parent => ?_⟩,
      fun who t found' f n due => ?_, nofun⟩
    · obtain ⟨-, rfl⟩ := Frames.frame?_single found
      exact ⟨_, root.proper, head⟩
    · obtain ⟨-, rfl⟩ := Frames.frame?_single found
      cases parent
    · cases who with
      | task id => cases found'
      | main =>
        cases found'
        cases due with
        | control member => cases member
        | pending waits member =>
          cases List.mem_singleton.mp waits
          obtain ⟨Δ, sequence⟩ := root.fits
          have member : n ∈ statements := by
            rwa [Pending.dues, Program.rootStatements, Program.kind_eq_ok.mpr found] at member
          intro _ _ _
          exact ⟨_, linked.scope?_root, (congrArg List.head? (sequence.scopes member)).trans head⟩
  refine (holds_play (fun r => r.machine.Anchored p ∧
    r.machine.Placed (p.scoping context rules.inPlace)) start (fun r r' _ h next => ?_) moves).2
  obtain ⟨anchored, placed⟩ := h
  cases next with
  | same | look | giveUp => exact ⟨anchored, placed⟩
  | step seen machine next here =>
    exact ⟨anchored.next next, placed.next anchored made.nodes made.outermost next⟩
  | close | report =>
    exact ⟨⟨anchored.frames, anchored.threads, anchored.jobs⟩, placed.frames, placed.threads, placed.jobs⟩

end Run

/-! ## 6. The way outward -/

/-- What is true of the way outward from an environment: its frames are activations of scopes that are
distinct, each of which encloses the one before it, up to the only root frame. So a scope is found in
just one frame, and there are no more frames than scopes around the innermost one. -/
structure Env.WellNested (attrs : Attributes) (env : Env) (fs : Frames) : Prop where
  scopes : (env.chain fs).map fs.scope? = (fs.path env.current).map some
  distinct : (fs.path env.current).Nodup
  ancestors : (fs.path env.current).IsChain attrs.Encloses
  acyclic : (env.chain fs).Nodup
  last : (env.chain fs).getLast? = some env.root
  root : ∀ f frame, fs.frame? f = some frame → (frame.parent = none ↔ f = env.root)
  unambiguous : ∀ f ∈ env.chain fs, ∀ scope, fs.scope? f = some scope →
    env.frameFor fs scope = some f ∧ ∀ g ∈ env.chain fs, fs.scope? g = some scope → g = f
  depth : ∃ scope, fs.scope? env.current = some scope ∧ env.depth fs ≤ attrs.nesting scope

namespace Frames

variable {G : Scoping} {fs : Frames} {f : FrameId} {rootScope : ScopeId}

theorem Linked.scope?_of_mem_chain (h : fs.Linked rootScope) {g : FrameId} (member : g ∈ fs.chain f) :
    ∃ scope, fs.scope? g = some scope := by
  obtain ⟨frame, found⟩ := Option.isSome_iff_exists.mp (h.of_mem_chain member).1
  exact ⟨frame.scope, by rw [scope?, found]; rfl⟩

theorem Linked.map_scope?_chain (h : fs.Linked rootScope) (f : FrameId) :
    (fs.chain f).map fs.scope? = (fs.path f).map some := by
  have all : ∀ g ∈ fs.chain f, ∃ scope, fs.scope? g = some scope :=
    fun g member => h.scope?_of_mem_chain member
  unfold path
  generalize fs.chain f = chain at all ⊢
  induction chain with
  | nil => rfl
  | cons g chain ih =>
    obtain ⟨scope, owns⟩ := all g List.mem_cons_self
    rw [List.map_cons, List.filterMap_cons_some owns, List.map_cons, owns,
      ih fun g member => all g (List.mem_cons_of_mem _ member)]

theorem Linked.getLast?_chain (h : fs.Linked rootScope) (live : fs.Live f) :
    (fs.chain f).getLast? = some root := by
  refine h.induction (fun f => (fs.chain f).getLast? = some root) ?_ ?_ f live
  · rw [h.chain_root]
    rfl
  · intro f g frame found parent _ ih
    rw [h.chain_cons found parent, List.getLast?_cons, ih]
    rfl

theorem Nested.wellNested (h : fs.Nested G) (outermost : G.attrs.parent? G.attrs.rootScope = none)
    {env : Env} (rooted : env.root = root) (live : fs.Live env.current) :
    env.WellNested G.attrs fs := by
  have sound := h.sound outermost
  obtain ⟨frame, found⟩ := Option.isSome_iff_exists.mp live
  have owns : fs.scope? env.current = some frame.scope := by rw [scope?, found]; rfl
  have sublist := h.path_sublist outermost owns
  have regular := h.regular _ frame found
  have scopes := h.map_scope?_chain env.current
  refine ⟨scopes, sound.distinct _, (List.Pairwise.sublist sublist (regular.pairwise outermost)).isChain,
    ?_, ?_, fun f frame found => ?_, fun f member scope owns => ?_, frame.scope, owns, ?_⟩
  · refine List.Nodup.of_map fs.scope? ?_
    rw [Env.chain, scopes]
    exact (sound.distinct _).map fun _ _ same => Option.some.inj same
  · rw [rooted]
    exact h.getLast?_chain live
  · rw [rooted]
    refine ⟨fun none => ?_, ?_⟩
    · rcases h.older f frame found with same | ⟨g, parent, -⟩
      · exact same
      · cases none.symm.trans parent
    · rintro rfl
      obtain ⟨bindings, base⟩ := h.base
      cases found.symm.trans base
      rfl
  · have unique : ∀ g ∈ env.chain fs, fs.scope? g = some scope → g = f :=
      fun g member' owns' => sound.owner_unique member' owns' member owns
    obtain ⟨g, member', found, owns'⟩ := sound.frameFor rooted (mem_path.mpr ⟨f, member, owns⟩)
    exact ⟨unique g member' owns' ▸ found, unique⟩
  · rw [Env.depth, Env.chain, ← List.length_map (f := fs.scope?), scopes, List.length_map]
    exact sublist.length_le

end Frames

namespace Run

/-- Whatever a script does that uses its statements where they were made, in whatever order the threads
of its run take their steps: the frames around a thread nest as the scopes do. -/
theorem ways_nested {script : Script} {p : Program} (built : script.program = .ok p)
    (labelled : script.Labelled) (c : RunConfig) (moves : List Move) :
    let r := (initial p c).play p c moves
    ∀ who t, r.machine.thread? who = some t →
      t.env.WellNested p.attrs r.machine.world.frames := by
  intro r who t found
  obtain ⟨context, made⟩ := labelled.made built
  have placed := placed_play made c moves
  have anchored := (anchored_play p c moves).threads who t found
  exact placed.frames.wellNested made.outermost anchored.root anchored.here

/-! ### A function that outlives the call that declared it -/

def escaping : Script :=
  [.function "make" [("n", .plain .int)] (.plain .void)
      [.function "inner" [] (.plain .int) [.ret (some (.int 1))],
        .ret (some (.reference "inner"))],
    .ret (some (.callWith (.call "make" [.int 1]) []))]

def escapingProgram : Program := escaping.program.toOption.getD default

theorem escaping_built : escaping.program = .ok escapingProgram :=
  escaping.program_eq_ok (by decide +kernel)

theorem escaping_nested :
    let r := (initial escapingProgram default).play escapingProgram default (List.replicate 24 .main)
    ∀ who t, r.machine.thread? who = some t →
      t.env.WellNested escapingProgram.attrs r.machine.world.frames :=
  ways_nested escaping_built (by decide +kernel) default (List.replicate 24 .main)

end Run

end Strand
