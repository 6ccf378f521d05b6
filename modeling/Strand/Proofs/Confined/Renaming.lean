import Mathlib.Data.List.Find
import Strand.Proofs.Reach

/-!
# Frames under other names

A thread cannot tell how its frames are called. If the frames that it reaches are found in another store, too,
under other names but with the same scopes, bindings and ways outward, it makes the same step there, with the
names changed (`Turn.step_renamed`). Nor does it look at what is beneath what it has left itself: a step is the
same whatever lies there, as long as there is something of its own to go on with.

The lemmas follow the evaluator, one for each of its functions that has to do with frames.
-/

set_option autoImplicit false

namespace Strand

/-! ## 1. Renamings -/

/-- Other names for frames. Of the frames that were there first, when there were `count`, only some need be
found elsewhere; of those that are made later, all are. -/
structure Renaming where
  rename : FrameId → FrameId
  old : FrameId → Prop
  count : Nat

/-- A frame that is found elsewhere. -/
def Renaming.Knows (ρ : Renaming) (fs : Frames) (f : FrameId) : Prop := ρ.old f ∨ ρ.count ≤ f.index ∧ fs.Live f

namespace Frames

/-- The known frames are found in a second store under their other names. -/
structure Renamed (ρ : Renaming) (rootScope : ScopeId) (fs fs' : Frames) : Prop where
  linked : fs.Linked rootScope
  linked' : fs'.Linked rootScope
  root : ρ.Knows fs root ∧ ρ.rename root = root
  count : ρ.count ≤ fs.frames.size
  frame : ∀ f, ρ.Knows fs f → ∃ frame, fs.frame? f = some frame ∧
    fs'.frame? (ρ.rename f) = some { frame with parent := frame.parent.map ρ.rename } ∧
    ∀ g, frame.parent = some g → ρ.Knows fs g
  distinct : ∀ f g, ρ.Knows fs f → ρ.Knows fs g → ρ.rename f = ρ.rename g → f = g
  fresh : ∀ i, ρ.rename ⟨fs.frames.size + i⟩ = ⟨fs'.frames.size + i⟩

variable {ρ : Renaming} {rootScope : ScopeId} {fs fs' : Frames} {f g : FrameId}

namespace Renamed

variable (named : fs.Renamed ρ rootScope fs')

include named

theorem live (known : ρ.Knows fs f) : fs.Live f ∧ fs'.Live (ρ.rename f) := by
  obtain ⟨frame, found, found', -⟩ := named.frame f known
  exact ⟨live_of_found found, live_of_found found'⟩

theorem lookup (known : ρ.Knows fs f) (name : Name) : fs'.lookup (ρ.rename f) name = fs.lookup f name := by
  obtain ⟨frame, found, found', -⟩ := named.frame f known
  simp only [Frames.lookup, found, found', Option.bind_some]

theorem scope? (known : ρ.Knows fs f) : fs'.scope? (ρ.rename f) = fs.scope? f := by
  obtain ⟨frame, found, found', -⟩ := named.frame f known
  simp only [Frames.scope?, found, found', Option.map_some]

/-- The way outward is the same, under the other names, and leads to nothing unknown. -/
theorem chain (known : ρ.Knows fs f) :
    fs'.chain (ρ.rename f) = (fs.chain f).map ρ.rename ∧ ∀ g ∈ fs.chain f, ρ.Knows fs g := by
  have here := (named.live known).1
  revert known
  refine named.linked.induction (fun f => ρ.Knows fs f →
    fs'.chain (ρ.rename f) = (fs.chain f).map ρ.rename ∧ ∀ g ∈ fs.chain f, ρ.Knows fs g) ?_ ?_ f here
  · intro known
    rw [named.root.2, named.linked.chain_root, named.linked'.chain_root]
    exact ⟨by rw [List.map_singleton, named.root.2], List.forall_mem_singleton.mpr known⟩
  · intro f g frame found parent _ ih known
    obtain ⟨frame', here, found', outside⟩ := named.frame f known
    cases found.symm.trans here
    obtain ⟨same, all⟩ := ih (outside g parent)
    have parent' : frame.parent.map ρ.rename = some (ρ.rename g) := by rw [parent, Option.map_some]
    rw [named.linked.chain_cons found parent, named.linked'.chain_cons found' parent', same]
    exact ⟨rfl, List.forall_mem_cons.mpr ⟨known, all⟩⟩

/-- A name is bound in both stores. -/
theorem define (known : ρ.Knows fs g) (name : Name) (value : Value) :
    (fs.define g name value).Renamed ρ rootScope (fs'.define (ρ.rename g) name value) := by
  have knows : ∀ {f}, ρ.Knows (fs.define g name value) f ↔ ρ.Knows fs f := by
    intro f
    unfold Renaming.Knows
    rw [live_define]
  refine ⟨named.linked.define .., named.linked'.define .., ⟨knows.mpr named.root.1, named.root.2⟩, ?_, ?_, ?_,
    ?_⟩
  · simpa [Frames.define] using named.count
  · intro f member
    have member := knows.mp member
    obtain ⟨frame, found, found', outside⟩ := named.frame f member
    -- two known frames have two names, so the write meets the same one in both stores
    by_cases same : f = g
    · subst same
      refine ⟨{ frame with bindings := frame.bindings.insert name value }, ?_, ?_, ?_⟩
      · rw [frame?_define, if_pos rfl, found]
        rfl
      · rw [frame?_define, if_pos rfl, found']
        rfl
      · exact fun h parent => knows.mpr (outside h parent)
    · have other : ρ.rename f ≠ ρ.rename g := fun equal => same (named.distinct f g member known equal)
      refine ⟨frame, ?_, ?_, fun h parent => knows.mpr (outside h parent)⟩
      · rw [frame?_define, if_neg same, found]
      · rw [frame?_define, if_neg other, found']
  · intro f h member member'
    exact named.distinct f h (knows.mp member) (knows.mp member')
  · simpa [Frames.define] using named.fresh

/-- A frame is made in both stores, with the next name in each. -/
theorem push (known : ρ.Knows fs g) (scope : ScopeId) (bindings : Bindings) :
    (fs.push scope bindings (some g)).2.Renamed ρ rootScope (fs'.push scope bindings (some (ρ.rename g))).2 ∧
      ρ.rename (fs.push scope bindings (some g)).1 = (fs'.push scope bindings (some (ρ.rename g))).1 := by
  have new : ρ.rename (fs.push scope bindings (some g)).1 = (fs'.push scope bindings (some (ρ.rename g))).1 :=
    named.fresh 0
  obtain ⟨live, live'⟩ := named.live known
  have knows : ∀ {f}, ρ.Knows (fs.push scope bindings (some g)).2 f ↔
      ρ.Knows fs f ∨ f = (fs.push scope bindings (some g)).1 := by
    intro f
    unfold Renaming.Knows
    rw [Live, frame?_push_eq]
    split
    · next same =>
      subst same
      simp [Frames.push, named.count]
    · next other => simp [other, Live]
  -- in neither store is the new name that of a known frame
  have apart : ∀ {f}, ρ.Knows fs f → ρ.rename f ≠ (fs'.push scope bindings (some (ρ.rename g))).1 := by
    intro f member same
    have inside := live_iff.mp (named.live member).2
    rw [same] at inside
    exact absurd inside (Nat.lt_irrefl _)
  have apart' : ∀ {f}, ρ.Knows fs f → f ≠ (fs.push scope bindings (some g)).1 := by
    intro f member same
    have inside := live_iff.mp (named.live member).1
    rw [same] at inside
    exact absurd inside (Nat.lt_irrefl _)
  have root := named.root
  refine ⟨⟨named.linked.push live .., named.linked'.push live' .., ⟨knows.mpr (.inl root.1), root.2⟩,
    ?_, ?_, ?_, ?_⟩, new⟩
  · exact Nat.le_trans named.count (by simp [Frames.push])
  · intro f member
    rcases knows.mp member with before | rfl
    · obtain ⟨frame, found, found', outside⟩ := named.frame f before
      refine ⟨frame, ?_, ?_, fun h parent => knows.mpr (.inl (outside h parent))⟩
      · rw [frame?_push_eq, if_neg (apart' before), found]
      · rw [frame?_push_eq, if_neg (apart before), found']
    · refine ⟨⟨scope, bindings, some g⟩, ?_, ?_, ?_⟩
      · rw [frame?_push_eq, if_pos rfl]
      · rw [frame?_push_eq, if_pos new]
        rfl
      · rintro h same
        cases same
        exact knows.mpr (.inl known)
  · intro f h member member' same
    rcases knows.mp member with before | rfl <;> rcases knows.mp member' with before' | rfl
    · exact named.distinct f h before before' same
    · exact absurd (same.trans new) (apart before)
    · exact absurd (same.symm.trans new) (apart before')
    · rfl
  · intro i
    have := named.fresh (i + 1)
    simpa [Frames.push, Nat.add_assoc, Nat.add_comm 1 i] using this

end Renamed

end Frames

/-! ## 2. Reading and writing -/

namespace Env

/-- The same place, under the other names. -/
def renamed (ρ : Renaming) (env : Env) : Env := ⟨ρ.rename env.current, ρ.rename env.root⟩

end Env

namespace Frames.Renamed

variable {ρ : Renaming} {rootScope : ScopeId} {fs fs' : Frames} {env : Env}

section

variable (named : fs.Renamed ρ rootScope fs') (rooted : env.root = Frames.root) (here : ρ.Knows fs env.current)

include named rooted here

theorem frameFor (scope : ScopeId) :
    (env.renamed ρ).frameFor fs' scope = (env.frameFor fs scope).map ρ.rename ∧
      ∀ f, env.frameFor fs scope = some f → ρ.Knows fs f := by
  obtain ⟨way, known⟩ := named.chain here
  have rooted' : (env.renamed ρ).root = Frames.root := by
    rw [← named.root.2, ← rooted]
    rfl
  unfold Env.frameFor
  rw [rooted, rooted', named.linked.scope?_root, named.linked'.scope?_root]
  split
  · refine ⟨by rw [Option.map_some, named.root.2], ?_⟩
    intro f found
    cases found
    exact named.root.1
  · rw [owner?_eq_find?, owner?_eq_find?]
    refine ⟨?_, ?_⟩
    · rw [Env.renamed, way, List.find?_map]
      congr 1
      apply List.find?_congr
      intro f member
      simp only [Function.comp_apply, named.scope? (known f member)]
    · intro f found
      exact known f (List.mem_of_find?_eq_some found)

theorem get (scope : ScopeId) (name : Name) (text : String) :
    (env.renamed ρ).get fs' scope name text = env.get fs scope name text := by
  obtain ⟨same, known⟩ := named.frameFor rooted here scope
  simp only [Env.get, same]
  cases found : env.frameFor fs scope with
  | none => rfl
  | some f => simp only [Option.map_some, Option.bind_some, named.lookup (known f found)]

theorem readName (p : Program) (id : NodeId) (name : Name) :
    p.readName (env.renamed ρ) fs' id name = p.readName env fs id name := by
  have base : fs'.lookup (env.renamed ρ).root name = fs.lookup env.root name := by
    rw [Env.renamed, rooted]
    exact named.lookup named.root.1 name
  simp only [Program.readName, base, named.get rooted here]

theorem declaringFrame (p : Program) (scope : ScopeId) :
    p.declaringFrame (env.renamed ρ) fs' scope = ρ.rename (p.declaringFrame env fs scope) ∧
      ρ.Knows fs (p.declaringFrame env fs scope) := by
  unfold Program.declaringFrame
  cases p.attrs.parent? scope with
  | none => exact ⟨rfl, rooted ▸ named.root.1⟩
  | some outside =>
    obtain ⟨same, known⟩ := named.frameFor rooted here outside
    rw [Option.bind_some, Option.bind_some, same]
    cases found : env.frameFor fs outside with
    | none => exact ⟨rfl, rooted ▸ named.root.1⟩
    | some f => exact ⟨rfl, known f found⟩

theorem watched (p : Program) (target : NodeId) :
    p.watched (env.renamed ρ) fs' target =
      (p.watched env fs target).map fun found => (ρ.rename found.1, found.2) := by
  unfold Program.watched
  cases p.kind target with
  | error e => rfl
  | ok kind =>
    cases kind with
    | reference name =>
      cases p.attrs.scope? target with
      | none => rfl
      | some scope =>
        obtain ⟨same, -⟩ := named.frameFor rooted here scope
        simp only [Option.bind_some, same]
        cases env.frameFor fs scope <;> rfl
    | _ => rfl

end

end Frames.Renamed

/-! ## 3. Turns -/

/-- The same control, under the other names. -/
def Control.renamed (ρ : Renaming) : Control → Control
  | await n f name => await n (ρ.rename f) name
  | control => control

/-- The same pending, under the other names. -/
def Pending.renamed (ρ : Renaming) : Pending → Pending
  | leaveBlock saved => leaveBlock (ρ.rename saved)
  | leaveCall saved => leaveCall (ρ.rename saved)
  | waiting => waiting

/-- The same thread in another store, with something else beneath. -/
def Turn.renamed (ρ : Renaming) (beneath : List Pending) (fs' : Frames) (s : Turn) : Turn :=
  ⟨{ s.world with frames := fs' }, s.env.renamed ρ, s.control.renamed ρ,
    s.stack.map (Pending.renamed ρ) ++ beneath⟩

namespace Turn

/-- A turn in which another is found again: under other names, in another store, on top of something else. -/
def Mirrors (ρ : Renaming) (rootScope : ScopeId) (beneath : List Pending) (s t : Turn) : Prop :=
  ∃ fs', s.world.frames.Renamed ρ rootScope fs' ∧ t = s.renamed ρ beneath fs'

/-- A thread that stands among the known frames. -/
structure Within (ρ : Renaming) (s : Turn) : Prop where
  simple : s.control.FromProgram
  rooted : s.env.root = Frames.root
  here : ρ.Knows s.world.frames s.env.current
  watched : ∀ f ∈ s.control.watched, ρ.Knows s.world.frames f

variable {p : Program} {ρ : Renaming} {rootScope : ScopeId} {beneath : List Pending} {s t : Turn} {fs' : Frames}

section

variable (named : s.world.frames.Renamed ρ rootScope fs')

include named

theorem mirrors_abort (n : NodeId) (e : Abort) :
    Mirrors ρ rootScope beneath (s.abort p n e) ((s.renamed ρ beneath fs').abort p n e) := by
  cases e <;> exact ⟨fs', named, rfl⟩

theorem mirrors_orAbort {α : Type} {n : NodeId} {result : Except Abort α} {next next' : α → Turn}
    (goesOn : ∀ a, result = .ok a → Mirrors ρ rootScope beneath (next a) (next' a)) :
    Mirrors ρ rootScope beneath (s.orAbort p n result next) ((s.renamed ρ beneath fs').orAbort p n result next') := by
  cases result with
  | ok a => exact goesOn a rfl
  | error e => exact mirrors_abort named n e

theorem mirrors_orFault {α : Type} {n : NodeId} {result : Except Cause α} {next next' : α → Turn}
    (goesOn : ∀ a, result = .ok a → Mirrors ρ rootScope beneath (next a) (next' a)) :
    Mirrors ρ rootScope beneath (s.orFault p n result next) ((s.renamed ρ beneath fs').orFault p n result next') := by
  cases result with
  | ok a => exact goesOn a rfl
  | error cause => exact ⟨fs', named, rfl⟩

theorem mirrors_ofNest (n : NodeId) (result : Except Abort Nest) :
    Mirrors ρ rootScope beneath (s.ofNest p n result) ((s.renamed ρ beneath fs').ofNest p n result) := by
  cases result with
  | error e => exact mirrors_abort named n e
  | ok nest => cases nest <;> exact ⟨fs', named, rfl⟩

/-- A list of statements is begun where one stands, or where one has just come to. -/
theorem mirrors_statements (statements : List NodeId) :
    Mirrors ρ rootScope beneath (s.runStatements statements)
      ((s.renamed ρ beneath fs').runStatements statements) := by
  cases statements <;> exact ⟨fs', named, rfl⟩

section

variable (within : s.Within ρ)

include within

/-- A name is bound in the frame that owns a scope. -/
theorem mirrors_store (n m : NodeId) (label text : String) (name : Name) (v : Value) {control : Control}
    (same : control.renamed ρ = control) :
    Mirrors ρ rootScope beneath
      (s.orFault p n (p.scopeOf m label) fun scope =>
        s.orFault p n (s.env.frameToSet s.world.frames scope text) fun f =>
          { s with world.frames := s.world.frames.define f name v, control })
      ((s.renamed ρ beneath fs').orFault p n (p.scopeOf m label) fun scope =>
        (s.renamed ρ beneath fs').orFault p n ((s.env.renamed ρ).frameToSet fs' scope text) fun f =>
          { s.renamed ρ beneath fs' with world.frames := fs'.define f name v, control }) := by
  refine mirrors_orFault named fun scope _ => ?_
  obtain ⟨owner, known⟩ := named.frameFor within.rooted within.here scope
  simp only [Env.frameToSet, owner]
  cases found : s.env.frameFor s.world.frames scope with
  | none => exact ⟨fs', named, rfl⟩
  | some f =>
    refine ⟨_, named.define (known f found) name v, ?_⟩
    simp only [renamed, orFault, Option.map_some, same]

theorem mirrors_enter (n : NodeId) (kind : NodeKind) :
    Mirrors ρ rootScope beneath (enter p s n kind) (enter p (s.renamed ρ beneath fs') n kind) := by
  cases kind with
  | reference name =>
    have read := named.readName within.rooted within.here p n name
    simp only [enter]
    rw [show (s.renamed ρ beneath fs').env = s.env.renamed ρ from rfl,
      show (s.renamed ρ beneath fs').world.frames = fs' from rfl, read]
    exact mirrors_orAbort named fun v _ => ⟨fs', named, rfl⟩
  | constructor reference =>
    simp only [enter]
    split <;> exact ⟨fs', named, rfl⟩
  | arrayLiteral elements => cases elements <;> exact ⟨fs', named, rfl⟩
  | binary op left right =>
    simp only [enter]
    split <;> exact ⟨fs', named, rfl⟩
  | assignment target value =>
    refine mirrors_orAbort named fun kind _ => ?_
    cases kind <;> exact ⟨fs', named, rfl⟩
  | root statements => exact mirrors_statements named statements
  | block statements =>
    refine mirrors_orFault named fun scope _ => ?_
    obtain ⟨pushed, new⟩ := named.push within.here scope .empty
    let inside : Turn :=
      { s with
        world.frames := (s.world.frames.push scope .empty (some s.env.current)).2
        env := s.env.restore (s.world.frames.push scope .empty (some s.env.current)).1
        stack := .leaveBlock s.env.current :: s.stack }
    have entered : Mirrors ρ rootScope beneath (inside.runStatements statements) _ :=
      mirrors_statements pushed statements
    simp only [inside, renamed, Env.renamed, Env.restore, new] at entered
    exact entered
  | ret value => cases value <;> exact ⟨fs', named, rfl⟩
  | launchDecl declaration =>
    refine mirrors_orAbort named fun kind _ => ?_
    cases kind with
    | varDecl name initializer => exact mirrors_store named within n declaration _ _ name .void rfl
    | _ => exact ⟨fs', named, rfl⟩
  | _ => exact ⟨fs', named, rfl⟩

theorem mirrors_callBuiltin (n : NodeId) (name : String) (first : Option NodeId) (values : List Value) :
    Mirrors ρ rootScope beneath (s.callBuiltin p n name first values)
      ((s.renamed ρ beneath fs').callBuiltin p n name first values) := by
  simp only [callBuiltin]
  split
  · split
    · refine mirrors_orAbort named fun text _ => ?_
      show Mirrors ρ rootScope beneath _ (if s.world.output.isSilent then _ else _)
      split <;> exact ⟨fs', named, rfl⟩
    · exact ⟨fs', named, rfl⟩
  · split
    · split
      · next target =>
        rw [show (s.renamed ρ beneath fs').env = s.env.renamed ρ from rfl,
          show (s.renamed ρ beneath fs').world.frames = fs' from rfl,
          named.watched within.rooted within.here]
        cases p.watched s.env s.world.frames target with
        | error e => exact mirrors_abort named n e
        | ok found => exact ⟨fs', named, rfl⟩
      · exact ⟨fs', named, rfl⟩
    · exact ⟨fs', named, rfl⟩

theorem mirrors_apply (n : NodeId) (callee : Value) (first : Option NodeId) (values : List Value) :
    Mirrors ρ rootScope beneath (s.apply p n callee first values)
      ((s.renamed ρ beneath fs').apply p n callee first values) := by
  simp only [apply]
  split
  · exact mirrors_callBuiltin named within n _ first values
  · exact ⟨fs', named, rfl⟩
  · exact mirrors_orAbort named fun record _ => ⟨fs', named, rfl⟩
  · exact ⟨fs', named, rfl⟩
  · exact ⟨fs', named, rfl⟩

theorem mirrors_resume (v : Value) (waiting : Pending) :
    Mirrors ρ rootScope beneath (resume p s v waiting)
      (resume p (s.renamed ρ beneath fs') v (waiting.renamed ρ)) := by
  cases waiting with
  | element n done rest => cases rest <;> exact ⟨fs', named, rfl⟩
  | accessedArray | readStem | negated | truth | storeArray | storeIndex =>
    exact mirrors_orFault named fun _ _ => ⟨fs', named, rfl⟩
  | accessIndex n a =>
    refine mirrors_orFault named fun i _ => ?_
    have same : (s.renamed ρ beneath fs').world.heap = s.world.heap := rfl
    rw [same]
    cases s.world.heap.element? a i <;> exact ⟨fs', named, rfl⟩
  | callee n arguments =>
    cases arguments with
    | nil => exact mirrors_apply named within n v none []
    | cons => exact ⟨fs', named, rfl⟩
  | argument n callee first done rest =>
    cases rest with
    | nil => exact mirrors_apply named within n callee first _
    | cons => exact ⟨fs', named, rfl⟩
  | shortCircuit n op right =>
    refine mirrors_orFault named fun b _ => ?_
    split <;> exact ⟨fs', named, rfl⟩
  | rightOperand n op left right l =>
    simp only [resume, Pending.renamed]
    split <;> exact mirrors_ofNest named n _
  | assignName n target name => exact mirrors_store named within n target _ _ name _ rfl
  | storeElement n target a i =>
    show Mirrors ρ rootScope beneath _ (if i < s.world.heap.length a then _ else _)
    simp only [resume]
    split <;> exact ⟨fs', named, rfl⟩
  | storeField n target stem field =>
    simp only [resume, Pending.renamed]
    split
    · exact ⟨fs', named, rfl⟩
    · show Mirrors ρ rootScope beneath _ (if (s.world.heap.field? _ field).isSome = true then _ else _)
      split <;> exact ⟨fs', named, rfl⟩
    · exact ⟨fs', named, rfl⟩
  | statements rest => exact mirrors_statements named rest
  | branch n thenBranch elseBranch =>
    refine mirrors_orFault named fun b _ => ?_
    split
    · exact ⟨fs', named, rfl⟩
    · cases elseBranch <;> exact ⟨fs', named, rfl⟩
  | loopTest n condition body =>
    refine mirrors_orFault named fun b _ => ?_
    split <;> exact ⟨fs', named, rfl⟩
  | declaration n name => exact mirrors_store named within n n _ _ name _ rfl
  | _ => exact ⟨fs', named, rfl⟩

omit within in
theorem mirrors_unwind (e : Exit) (waiting : Pending) :
    Mirrors ρ rootScope beneath (unwind s e waiting) (unwind (s.renamed ρ beneath fs') e (waiting.renamed ρ)) := by
  cases waiting with
  | leaveCall saved => cases e <;> exact ⟨fs', named, rfl⟩
  | _ => exact ⟨fs', named, rfl⟩

theorem mirrors_invoke (span : Option Span) (function : NodeId) (arguments : List Value) :
    Mirrors ρ rootScope beneath (s.invoke p span function arguments)
      ((s.renamed ρ beneath fs').invoke p span function arguments) := by
  simp only [invoke]
  split
  · exact ⟨fs', named, rfl⟩
  · split
    · exact ⟨fs', named, rfl⟩
    · split
      · exact ⟨fs', named, rfl⟩
      · next scope opens =>
        split
        · exact ⟨fs', named, rfl⟩
        · next bindings bound =>
          obtain ⟨outside, known⟩ := named.declaringFrame within.rooted within.here p scope
          obtain ⟨pushed, new⟩ := named.push known scope bindings
          refine ⟨_, pushed, ?_⟩
          rw [show (s.renamed ρ beneath fs').env = s.env.renamed ρ from rfl,
            show (s.renamed ρ beneath fs').world.frames = fs' from rfl, outside]
          simp only [renamed, Env.renamed, Env.restore, new]
          rfl
  · exact ⟨fs', named, rfl⟩

end

end

/-- A thread that has something to go on with takes the same step among other frames, with anything beneath. -/
theorem step_renamed (named : s.world.frames.Renamed ρ rootScope fs') (within : s.Within ρ)
    (busy : s.stack = [] → ¬ s.control.Hands) (p : Program) (who : ThreadId) :
    Mirrors ρ rootScope beneath (s.step p who) ((s.renamed ρ beneath fs').step p who) := by
  obtain ⟨world, env, control, stack⟩ := s
  cases control with
  | eval n =>
    simp only [step, renamed, Control.renamed]
    split
    · exact mirrors_enter named within n _
    · exact ⟨fs', named, rfl⟩
  | give v =>
    cases stack with
    | nil => exact absurd trivial (busy rfl)
    | cons waiting stack =>
      exact mirrors_resume (s := ⟨world, env, .give v, stack⟩) named
        ⟨within.simple, within.rooted, within.here, within.watched⟩ v waiting
  | leave e =>
    cases stack with
    | nil => exact absurd trivial (busy rfl)
    | cons waiting stack => exact mirrors_unwind (s := ⟨world, env, .leave e, stack⟩) named e waiting
  | invoke span function arguments => exact mirrors_invoke named within span function arguments
  | await n f name =>
    -- a thread that waits for a variable looks into the frame that it has found before
    have known : ρ.Knows world.frames f := within.watched f (List.mem_singleton_self _)
    show Mirrors ρ rootScope beneath _ (if (fs'.lookup (ρ.rename f) name).any (fun v => !v.isVoid) then _
      else if world.ledger.closed then _ else _)
    rw [named.lookup known]
    simp only [step]
    split
    · exact ⟨fs', named, rfl⟩
    · split <;> exact ⟨fs', named, rfl⟩
  | submit jobs => cases jobs <;> exact ⟨fs', named, rfl⟩
  | findSite site block =>
    simp only [step, renamed, Control.renamed]
    split <;> exact ⟨fs', named, rfl⟩
  | enterSite site lock block =>
    show Mirrors ρ rootScope beneath _ (if world.locks.available lock who then _ else _)
    simp only [step]
    split <;> exact ⟨fs', named, rfl⟩
  | acquire lock inside => exact absurd within.simple id
  | startLine text =>
    show Mirrors ρ rootScope beneath _ (if world.output.available then _ else _)
    simp only [step]
    split <;> exact ⟨fs', named, rfl⟩
  | addSite | writeText | writeBreak | endLine | spin => exact ⟨fs', named, rfl⟩

end Turn

/-! ## 4. What lies beneath -/

/-- The same thread on top of something else. -/
def Thread.onto (t : Thread) (beneath : List Pending) : Thread := ⟨t.env, t.control, t.stack ++ beneath⟩

namespace Turn

/-- The same thread on top of something else. -/
def onto (s : Turn) (beneath : List Pending) : Turn := { s with stack := s.stack ++ beneath }

variable {s : Turn}

section Onto

variable {p : Program} (beneath : List Pending) {α : Type} {n : NodeId}

theorem abort_onto (e : Abort) : (s.onto beneath).abort p n e = (s.abort p n e).onto beneath := by
  cases e <;> rfl

theorem orAbort_onto {result : Except Abort α} {next next' : α → Turn}
    (same : ∀ a, next' a = (next a).onto beneath) :
    (s.onto beneath).orAbort p n result next' = (s.orAbort p n result next).onto beneath := by
  cases result with
  | ok a => exact same a
  | error e => exact abort_onto beneath e

theorem orFault_onto {result : Except Cause α} {next next' : α → Turn}
    (same : ∀ a, next' a = (next a).onto beneath) :
    (s.onto beneath).orFault p n result next' = (s.orFault p n result next).onto beneath := by
  cases result with
  | ok a => exact same a
  | error cause => rfl

theorem ite_onto {c : Prop} [Decidable c] {yes no yes' no' : Turn} (same : yes' = yes.onto beneath)
    (same' : no' = no.onto beneath) : (if c then yes' else no') = (if c then yes else no).onto beneath := by
  split
  · exact same
  · exact same'

theorem ofNest_onto {result : Except Abort Nest} :
    (s.onto beneath).ofNest p n result = (s.ofNest p n result).onto beneath := by
  cases result with
  | error e => exact abort_onto beneath e
  | ok nest => cases nest <;> rfl

theorem runStatements_onto (statements : List NodeId) :
    (s.onto beneath).runStatements statements = (s.runStatements statements).onto beneath := by
  cases statements <;> rfl

theorem enter_onto (kind : NodeKind) : (s.onto beneath).enter p n kind = (s.enter p n kind).onto beneath := by
  cases kind with
  | reference name => exact orAbort_onto beneath fun v => rfl
  | constructor reference =>
    simp only [enter]
    split <;> rfl
  | arrayLiteral elements => cases elements <;> rfl
  | binary op left right => exact ite_onto beneath rfl rfl
  | assignment target value =>
    refine orAbort_onto beneath fun kind => ?_
    cases kind <;> rfl
  | root statements => exact runStatements_onto beneath statements
  | block statements =>
    refine orFault_onto beneath fun scope => ?_
    let frame := s.env.push s.world.frames scope
    exact runStatements_onto beneath statements (s := ⟨{ s.world with frames := frame.2 }, frame.1, s.control,
      .leaveBlock s.env.current :: s.stack⟩)
  | ret value => cases value <;> rfl
  | launchDecl declaration =>
    refine orAbort_onto beneath fun kind => ?_
    cases kind with
    | varDecl name initializer => exact orFault_onto beneath fun scope => orFault_onto beneath fun f => rfl
    | _ => rfl
  | _ => rfl

theorem callBuiltin_onto (name : String) (first : Option NodeId) (values : List Value) :
    (s.onto beneath).callBuiltin p n name first values = (s.callBuiltin p n name first values).onto beneath := by
  simp only [callBuiltin]
  split
  · split
    · exact orAbort_onto beneath fun text => ite_onto beneath rfl rfl
    · rfl
  · split
    · split
      · exact orAbort_onto beneath fun watched => rfl
      · rfl
    · rfl

theorem apply_onto (callee : Value) (first : Option NodeId) (values : List Value) :
    (s.onto beneath).apply p n callee first values = (s.apply p n callee first values).onto beneath := by
  simp only [Turn.apply]
  split
  · exact callBuiltin_onto beneath _ first values
  · rfl
  · exact orAbort_onto beneath fun record => rfl
  · rfl
  · rfl

theorem resume_onto (v : Value) (waiting : Pending) :
    (s.onto beneath).resume p v waiting = (s.resume p v waiting).onto beneath := by
  cases waiting with
  | element n done rest => cases rest <;> rfl
  | accessedArray n index => exact orFault_onto beneath fun a => rfl
  | accessIndex n a =>
    refine orFault_onto beneath fun i => ?_
    simp only [onto]
    cases s.world.heap.element? a i <;> rfl
  | readStem n field => exact orFault_onto beneath fun w => rfl
  | callee n arguments =>
    cases arguments with
    | nil => exact apply_onto beneath v none []
    | cons first rest => rfl
  | argument n callee first done rest =>
    cases rest with
    | nil => exact apply_onto beneath callee first _
    | cons next rest => rfl
  | negated n | truth n => exact orFault_onto beneath fun b => rfl
  | shortCircuit n op right => exact orFault_onto beneath fun b => ite_onto beneath rfl rfl
  | rightOperand n op left right l => exact ite_onto beneath (ofNest_onto beneath) (ofNest_onto beneath)
  | assignName n target name => exact orFault_onto beneath fun scope => orFault_onto beneath fun f => rfl
  | storeArray n target index value => exact orFault_onto beneath fun a => rfl
  | storeIndex n target value a => exact orFault_onto beneath fun i => rfl
  | storeElement n target a i => exact ite_onto beneath rfl rfl
  | storeField n target stem field =>
    cases stem with
    | struct r => exact ite_onto beneath rfl rfl
    | _ => rfl
  | statements rest => exact runStatements_onto beneath rest
  | branch n thenBranch elseBranch =>
    refine orFault_onto beneath fun b => ite_onto beneath rfl ?_
    cases elseBranch <;> rfl
  | loopTest n condition body => exact orFault_onto beneath fun b => ite_onto beneath rfl rfl
  | declaration n name => exact orFault_onto beneath fun scope => orFault_onto beneath fun f => rfl
  | _ => rfl

theorem unwind_onto (e : Exit) (waiting : Pending) :
    (s.onto beneath).unwind e waiting = (s.unwind e waiting).onto beneath := by
  cases waiting <;> rfl

theorem invoke_onto (span : Option Span) (function : NodeId) (arguments : List Value) :
    (s.onto beneath).invoke p span function arguments = (s.invoke p span function arguments).onto beneath := by
  simp only [invoke]
  split
  · rfl
  · split
    · rfl
    · split
      · rfl
      · split <;> rfl
  · rfl

end Onto

/-- A step does not look at what is beneath what the thread has left itself. -/
theorem step_onto (busy : s.stack = [] → ¬ s.control.Hands) (p : Program) (who : ThreadId)
    (beneath : List Pending) :
    (s.onto beneath).step p who = (s.step p who).onto beneath := by
  obtain ⟨world, env, control, stack⟩ := s
  cases control with
  | eval n =>
    simp only [step, onto]
    cases p.kind n with
    | ok kind => exact enter_onto (s := ⟨world, env, .eval n, stack⟩) beneath kind
    | error read => rfl
  | give v =>
    cases stack with
    | nil => exact absurd trivial (busy rfl)
    | cons waiting rest => exact resume_onto (s := ⟨world, env, .give v, rest⟩) beneath v waiting
  | leave e =>
    cases stack with
    | nil => exact absurd trivial (busy rfl)
    | cons waiting rest => exact unwind_onto (s := ⟨world, env, .leave e, rest⟩) beneath e waiting
  | invoke span function arguments => exact invoke_onto beneath span function arguments
  | findSite site block =>
    simp only [step, onto]
    split <;> rfl
  | enterSite site lock block | acquire lock inside => exact ite_onto beneath rfl rfl
  | submit jobs => cases jobs <;> rfl
  | await n f name => exact ite_onto beneath rfl (ite_onto beneath rfl rfl)
  | startLine text => exact ite_onto beneath rfl rfl
  | _ => rfl

end Turn

end Strand
