import Strand.Proofs.Confined.Callers
import Strand.Proofs.Scope.Nesting

/-!
# Calls are confined

Of the frames that were there before, a call reaches only those around it: the declaring frame, the frames outward
of that one, and the root frame. So its moves neither read nor change what is bound in another (`Run.Spares`), and
two callers for whom the frames around the call are the same come back with the same (`Run.Agree`).

The frames of other activations of the function are among those that a call spares, if the program was built with
its statements where they were made. For the scopes of an activation are inside the scope of the parameters, and
those of the frames around the call enclose it.
-/

set_option autoImplicit false

namespace Strand

/-! ## 1. The frames around a call, in two stores -/

namespace Invocation

variable {p : Program} {call call' : Invocation} {fs fs' : Frames} {rootScope : ScopeId} {f g : FrameId}

theorem live_of_around (linked : fs.Linked rootScope) (rooted : call.env.root = Frames.root)
    (member : f ∈ call.around p fs) : fs.Live f := by
  rcases List.mem_cons.mp member with rfl | member
  · exact rooted ▸ linked.live_root
  · cases opens : p.attrs.bodyScope? call.function with
    | none =>
      rw [opens] at member
      cases member
    | some scope =>
      rw [opens] at member
      exact (linked.of_mem_chain member).1

/-- Outward of a frame around a call there are only others around it. -/
theorem around_parent (linked : fs.Linked rootScope) (rooted : call.env.root = Frames.root)
    (member : f ∈ call.around p fs) {frame : Frame} (found : fs.frame? f = some frame)
    (parent : frame.parent = some g) : g ∈ call.around p fs := by
  rcases List.mem_cons.mp member with rfl | member
  · have older := linked.descending _ _ _ found parent
    rw [rooted] at older
    exact absurd older (Nat.not_lt_zero _)
  · cases opens : p.attrs.bodyScope? call.function with
    | none =>
      rw [opens] at member
      cases member
    | some scope =>
      rw [opens] at member
      apply List.mem_cons_of_mem
      rw [opens]
      have older := linked.descending _ _ _ found parent
      have next : g ∈ fs.chain f := by
        rw [linked.chain_cons found parent]
        have live : fs.Live g := Frames.live_of_lt (Frames.live_of_found found) older
        exact List.mem_cons_of_mem _ (linked.self_mem live)
      exact (linked.of_mem_chain member).2.subset next

/-- The frames that are there keep their names, and those that are made later are found at the end of the second
store, in the same order. -/
def names (call : Invocation) (p : Program) (fs fs' : Frames) : Renaming where
  rename f := if f.index < fs.frames.size then f else ⟨f.index - fs.frames.size + fs'.frames.size⟩
  old f := f ∈ call.around p fs
  count := fs.frames.size

theorem rename_of_around (linked : fs.Linked rootScope) (rooted : call.env.root = Frames.root)
    (member : f ∈ call.around p fs) : (call.names p fs fs').rename f = f :=
  if_pos (Frames.live_iff.mp (live_of_around linked rooted member))

/-- Where the frames around a call are the same, they are known. -/
theorem renamed (linked : fs.Linked rootScope) (linked' : fs'.Linked rootScope)
    (rooted : call.env.root = Frames.root)
    (same : ∀ f ∈ call.around p fs, fs'.frame? f = fs.frame? f) :
    fs.Renamed (call.names p fs fs') rootScope fs' := by
  have around : ∀ {f}, (call.names p fs fs').Knows fs f → f ∈ call.around p fs := by
    rintro f (old | ⟨new, live⟩)
    · exact old
    · exact absurd (Frames.live_iff.mp live) (Nat.not_lt_of_le new)
  have keeps : ∀ {f}, f ∈ call.around p fs → (call.names p fs fs').rename f = f :=
    rename_of_around linked rooted
  have root : Frames.root ∈ call.around p fs := root_mem_around rooted
  refine ⟨linked, linked', ⟨.inl root, keeps root⟩, le_refl _, ?_, ?_, ?_⟩
  · intro f known
    have member := around known
    obtain ⟨frame, found⟩ := Option.isSome_iff_exists.mp (live_of_around linked rooted member)
    have parents : ∀ g, frame.parent = some g → g ∈ call.around p fs :=
      fun g parent => around_parent linked rooted member found parent
    have parent : frame.parent.map (call.names p fs fs').rename = frame.parent := by
      cases outside : frame.parent with
      | none => rfl
      | some g => rw [Option.map_some, keeps (parents g outside)]
    refine ⟨frame, found, ?_, fun g outside => .inl (parents g outside)⟩
    rw [keeps member, same f member, found, parent]
  · intro f g known known' equal
    rwa [keeps (around known), keeps (around known')] at equal
  · intro i
    have later : ¬ fs.frames.size + i < fs.frames.size := Nat.not_lt_of_le (Nat.le_add_right _ _)
    show (if _ then _ else _) = _
    rw [if_neg later, Nat.add_sub_cancel_left, Nat.add_comm]

end Invocation

/-! ## 2. Two callers -/

namespace Run

variable {p : Program} {c : RunConfig} {who : ThreadId} {call call' : Invocation} {r r' : Run}

/-- A thread is about to make a call. -/
structure Calls (p : Program) (who : ThreadId) (call : Invocation) (r : Run) : Prop where
  numbered : r.machine.Numbered
  anchored : r.machine.Anchored p
  caller : r.machine.thread? who = some call.thread

/-- Two calls of a function with the same arguments and the same declaring frame, in worlds that are the same but
for the frames, of which those around the call are the same, too. -/
structure SameCall (p : Program) (call call' : Invocation) (r r' : Run) : Prop where
  function : call'.function = call.function
  arguments : call'.arguments = call.arguments
  phase : r'.phase = r.phase
  world : r'.machine.world = { r.machine.world with frames := r'.machine.world.frames }
  declaring : ∀ scope, p.attrs.bodyScope? call.function = some scope →
    call'.declaring p r'.machine.world.frames scope = call.declaring p r.machine.world.frames scope
  around : ∀ f ∈ call.around p r.machine.world.frames,
    r'.machine.world.frames.frame? f = r.machine.world.frames.frame? f

theorem SameCall.inStep (same : SameCall p call call' r r') (calls : r.Calls p who call)
    (calls' : r'.Calls p who call') :
    InStep p (call.names p r.machine.world.frames r'.machine.world.frames) who call call'
      (call.own p r.machine.world.frames) r.machine.tasks.size r r' := by
  obtain ⟨numbered, anchored, caller⟩ := calls
  obtain ⟨numbered', anchored', caller'⟩ := calls'
  obtain ⟨function, arguments, phase, world, declaring, around⟩ := same
  have stands := anchored.threads who _ caller
  have stands' := anchored'.threads who _ caller'
  have ledger : r'.machine.world.ledger = r.machine.world.ledger := by rw [world]
  have size : r'.machine.tasks.size = r.machine.tasks.size := by
    rw [← numbered'.next, ← numbered.next, ledger]
  refine ⟨secludes_call numbered anchored caller, ?_, numbered', anchored', stands'.here, phase, ?_, ?_⟩
  · intro f mine
    exact mine.imp id fun new => Nat.le_of_not_lt fun inside => new (Frames.live_iff.mpr inside)
  · refine ⟨function, arguments, stands.root, stands'.root, ?_⟩
    intro scope opens
    -- the declaring frame is around the call, and so it keeps its name
    have member : p.declaringFrame call.env r.machine.world.frames scope ∈ call.around p r.machine.world.frames := by
      apply Invocation.chain_declaringFrame anchored.frames stands.root opens
      apply anchored.frames.self_mem
      have inside := Env.declaringFrame_mem anchored.frames stands.root stands.here p scope
      exact (anchored.frames.of_mem_chain inside).1
    refine ⟨?_, .inl member⟩
    rw [Invocation.rename_of_around anchored.frames stands.root member,
      Invocation.declaringFrame_eq anchored'.frames stands'.root,
      Invocation.declaringFrame_eq anchored.frames stands.root, declaring scope opens]
  · refine ⟨⟨Invocation.renamed anchored.frames anchored'.frames stands.root around, world⟩, size, ?_, _, _, caller,
      caller', .before⟩
    -- there is no task yet that was launched since
    intro i later
    rw [Array.getElem?_eq_none (size.trans_le later), Array.getElem?_eq_none later]
    rfl

/-- How two runs stand to each other after moves of two calls: in the shared state and in the frames around the
call there is no difference, and either both calls go on or both have come back with the same. -/
structure Agree (who : ThreadId) (call call' : Invocation) (around : List FrameId) (s s' : Run) : Prop where
  world : s'.machine.world = { s.machine.world with frames := s'.machine.world.frames }
  frames : ∀ f ∈ around, s'.machine.world.frames.frame? f = s.machine.world.frames.frame? f
  caller : ∃ t t', s.machine.thread? who = some t ∧ s'.machine.thread? who = some t' ∧
    (t.Above call.base ↔ t'.Above call'.base) ∧
    ∀ control, control.Hands → t = call.back control →
      ∃ control', t' = call'.back control' ∧ call.Answers call' control control'

theorem SameCall.agree (same : SameCall p call call' r r') (calls : r.Calls p who call)
    (calls' : r'.Calls p who call') {moves : List Move}
    (alone : ByItself p c who call.base r.machine.tasks.size r moves) :
    ByItself p c who call'.base r'.machine.tasks.size r' moves ∧
      Agree who call call' (call.around p r.machine.world.frames) (r.play p c moves) (r'.play p c moves) := by
  obtain ⟨played, alone'⟩ := (same.inStep calls calls').play alone
  have size : r'.machine.tasks.size = r.machine.tasks.size := (same.inStep calls calls').parallel.size
  have stands := calls.anchored.threads who _ calls.caller
  have confines := played.secludes.toConfines
  have worlds := played.parallel.worlds
  have later : Frames.Onward p.attrs.rootScope r.machine.world.frames (r.play p c moves).machine.world.frames :=
    ⟨grows_play calls.numbered moves, calls.anchored.frames, confines.anchored.frames⟩
  refine ⟨size ▸ alone', worlds.rest, ?_, ?_⟩
  · -- a frame around the call keeps its name, and its parent is around the call, too
    intro f member
    have keeps : ∀ {f}, f ∈ call.around p r.machine.world.frames →
        (call.names p r.machine.world.frames r'.machine.world.frames).rename f = f :=
      Invocation.rename_of_around calls.anchored.frames stands.root
    obtain ⟨frame, found, found', -⟩ := worlds.frames.frame f (.inl member)
    have parent : frame.parent.map (call.names p r.machine.world.frames r'.machine.world.frames).rename =
        frame.parent := by
      cases outside : frame.parent with
      | none => rfl
      | some g =>
        have stays := Invocation.around_onward (p := p) later stands.root stands.here
        have inside := Invocation.around_parent confines.anchored.frames stands.root (stays ▸ member) found outside
        rw [Option.map_some, keeps (stays ▸ inside)]
    rw [keeps member, parent] at found'
    exact found'.trans found.symm
  · obtain ⟨t, t', here, here', threads⟩ := played.parallel.caller
    exact ⟨t, t', here, here', threads.above_iff, fun control hands back => threads.answers hands back⟩

/-- The moves of a call neither read nor change what is bound in a frame. -/
def Spares (p : Program) (c : RunConfig) (who : ThreadId) (call : Invocation) (g : FrameId) (r : Run) : Prop :=
  ∀ moves first t, Evaluating p c who call.base r (moves ++ [first]) →
    (r.play p c moves).mover? first = some ⟨who, t⟩ →
    ((r.play p c moves).move p c first).machine.world.frames.frame? g =
        (r.play p c moves).machine.world.frames.frame? g ∧
      ∀ bindings, ((r.play p c moves).rebind g bindings).move p c first =
        ((r.play p c moves).move p c first).rebind g bindings

/-- A call spares the frames that are not around it. -/
theorem Calls.spares (calls : r.Calls p who call) {g : FrameId} (live : r.machine.world.frames.Live g)
    (apart : g ∉ call.around p r.machine.world.frames) : r.Spares p c who call g := by
  intro moves first t goesOn mover
  obtain ⟨before, ⟨t', here, above⟩, -⟩ := evaluating_append goesOn
  have confines := (confines_call calls.numbered calls.anchored calls.caller).play before
  have live' : (r.play p c moves).machine.world.frames.Live g := live_play calls.numbered live moves
  have hidden : ¬ call.own p r.machine.world.frames g := by
    rintro (member | new)
    · exact apart member
    · exact new live
  cases here.symm.trans (found_of_mover confines.numbered mover)
  have ignores := confines.ignores mover above live' hidden
  exact ⟨frame?_of_ignores confines.numbered mover live' ignores, fun bindings => move_of_ignores mover ignores⟩

end Run

/-! ## 3. Activations -/

namespace Invocation

variable {p : Program} {context : NodeId → Context} {inPlace : Bool} {call : Invocation} {fs : Frames}
  {scope inner : ScopeId} {g : FrameId}

/-- The declaring frame is of a scope around the parameters. -/
theorem scope?_declaring (nested : fs.Nested (p.scoping context inPlace)) (rooted : call.env.root = Frames.root)
    {outside : ScopeId} (parent : p.attrs.parent? scope = some outside)
    (around : ∀ s, s = outside ∨ s = p.attrs.rootScope → s ∈ (p.attrs.enclosing scope).tail) :
    ∃ s, fs.scope? (call.declaring p fs scope) = some s ∧ s ∈ (p.attrs.enclosing scope).tail := by
  unfold declaring
  rw [parent, Option.bind_some]
  cases found : (call.env.chain fs).find? fun f => fs.scope? f = some outside with
  | none => exact ⟨p.attrs.rootScope, rooted ▸ nested.scope?_root, around _ (.inr rfl)⟩
  | some f => exact ⟨outside, by simpa using List.find?_some found, around _ (.inl rfl)⟩

/-- No frame of an activation of the function is around a call. -/
theorem not_around_of_activation (nodes : (p.scoping context inPlace).WellScoped)
    (outermost : p.attrs.parent? p.attrs.rootScope = none) (nested : fs.Nested (p.scoping context inPlace))
    (rooted : call.env.root = Frames.root) {name : Name} {parameters : List NodeId} {body : NodeId}
    (kind : p.kind call.function = .ok (.funDecl name parameters body))
    (opens : p.attrs.bodyScope? call.function = some scope) (owns : fs.scope? g = some inner)
    (within : scope ∈ p.attrs.enclosing inner) : g ∉ call.around p fs := by
  have function := nodes call.function _ (Program.kind_eq_ok.mp kind)
  obtain ⟨outside, scope', names, head, -, opens', parent, fresh, -⟩ := function.fits
  obtain rfl : scope = scope' := Option.some.inj (opens.symm.trans opens')
  obtain ⟨regular, tail⟩ := function.proper.regular_push outermost head parent fresh
  have around : ∀ s, s = outside ∨ s = p.attrs.rootScope → s ∈ (p.attrs.enclosing scope).tail := by
    rintro s (rfl | rfl)
    · exact tail ▸ List.mem_of_mem_head? head
    · exact tail ▸ List.mem_of_getLast? function.proper.last
  -- a scope around the parameters is not inside of them
  have apart : inner ∉ (p.attrs.enclosing scope).tail := by
    intro member
    have again := (regular.outer outermost member).subset within
    exact (List.nodup_cons.mp (regular.nodup outermost)).1 again
  intro member
  apply apart
  rcases List.mem_cons.mp member with rfl | member
  · rw [rooted, nested.scope?_root] at owns
    cases owns
    exact around _ (.inr rfl)
  · rw [opens] at member
    obtain ⟨s, owns', inside⟩ := scope?_declaring nested rooted parent around
    have path : inner ∈ fs.path (call.declaring p fs scope) := Frames.mem_path.mpr ⟨g, member, owns⟩
    have suffix := regular.outer outermost inside
    exact suffix.subset ((nested.path_sublist outermost owns').subset path)

end Invocation

namespace Run

/-- What a call of a function touches. Of the frames that are there before, the moves of the caller change none
but the declaring frame, those outward of it and the root frame, and read no other, whatever other threads do in
between; and the whole call, with the tasks that it launches, goes the same way whatever is bound elsewhere. So two
callers with the same arguments and the same declaring frame come back with the same, after the same effects. In
a program that a script built with its statements where they were made, a call spares the frames of all
activations of its function. -/
theorem calls_confined (p : Program) (c : RunConfig) :
    (∀ r who call, r.Calls p who call → ∀ g, r.machine.world.frames.Live g →
      g ∉ call.around p r.machine.world.frames →
      r.Spares p c who call g ∧
      ∀ moves, ByItself p c who call.base r.machine.tasks.size r moves →
        ∀ bindings, (r.rebind g bindings).play p c moves = (r.play p c moves).rebind g bindings) ∧
    (∀ r r' who call call', r.Calls p who call → r'.Calls p who call' → SameCall p call call' r r' →
      ∀ moves, ByItself p c who call.base r.machine.tasks.size r moves →
        ByItself p c who call'.base r'.machine.tasks.size r' moves ∧
        Agree who call call' (call.around p r.machine.world.frames) (r.play p c moves) (r'.play p c moves)) ∧
    ∀ script : Script, script.program = .ok p → script.Labelled → ∀ moves,
      let r := (initial p c).play p c moves
      ∀ who call, r.machine.thread? who = some call.thread →
      ∀ name parameters body scope, p.kind call.function = .ok (.funDecl name parameters body) →
      p.attrs.bodyScope? call.function = some scope →
      ∀ g inner, r.machine.world.frames.scope? g = some inner → scope ∈ p.attrs.enclosing inner →
      r.Spares p c who call g := by
  refine ⟨?_, ?_, ?_⟩
  · intro r who call calls g live apart
    refine ⟨calls.spares live apart, ?_⟩
    intro moves alone bindings
    have hidden : ¬ call.own p r.machine.world.frames g := not_or.mpr ⟨apart, not_not_intro live⟩
    exact (secludes_call calls.numbered calls.anchored calls.caller).play_rebind alone live hidden bindings
  · intro r r' who call call' calls calls' same moves alone
    exact same.agree calls calls' alone
  · intro script built labelled moves r who call caller name parameters body scope kind opens g inner owns within
    obtain ⟨context, made⟩ := labelled.made built
    have calls : r.Calls p who call := ⟨numbered_play p c moves, anchored_play p c moves, caller⟩
    have nested := (placed_play made c moves).frames
    have live : r.machine.world.frames.Live g := by
      obtain ⟨frame, found, -⟩ := Option.map_eq_some_iff.mp owns
      exact Frames.live_of_found found
    apply calls.spares live
    exact Invocation.not_around_of_activation made.nodes made.outermost nested
      (calls.anchored.threads who _ caller).root kind opens owns within

/-! ### A function that calls itself -/

/-- ```
fun down(n: Int): Int {
  var k: Int = n
  if n == 0 { return k }
  return down(k - 1)
}
return down(1)
``` -/
def descending : Script :=
  [.function "down" [("n", .plain .int)] (.plain .int)
      [.var "k" (.plain .int) (.reference "n"),
        .ifThen (.binary .eq (.reference "n") (.int 0)) [.ret (some (.reference "k"))],
        .ret (some (.call "down" [.binary .sub (.reference "k") (.int 1)]))],
    .ret (some (.call "down" [.int 1]))]

def descendingProgram : Program := descending.program.toOption.getD default

theorem descending_built : descending.program = .ok descendingProgram :=
  descending.program_eq_ok (by decide +kernel)

/-- The first activation is about to call the function again. -/
def descendingRun : Run := (initial descendingProgram default).play descendingProgram default (List.replicate 33 .main)

/-- The call that a thread is about to make. -/
def callOf (t : Thread) : Option Invocation :=
  match t.control with
  | .invoke span function arguments => some ⟨t.env, span, function, arguments, t.stack⟩
  | _ => none

theorem thread_of_callOf {t : Thread} {call : Invocation} (calls : callOf t = some call) : t = call.thread := by
  obtain ⟨env, control, stack⟩ := t
  unfold callOf at calls
  split at calls
  · next same =>
    cases same
    cases calls
    rfl
  · cases calls

def descendingCall : Invocation := (callOf descendingRun.machine.main).getD default

theorem descending_calls : descendingRun.machine.thread? .main = some descendingCall.thread := by
  have calls : callOf descendingRun.machine.main = some descendingCall := by
    have begins : (callOf descendingRun.machine.main).isSome = true := by decide +kernel
    obtain ⟨call, same⟩ := Option.isSome_iff_exists.mp begins
    rw [descendingCall, same]
    rfl
  exact congrArg some (thread_of_callOf calls)

/-- A run in which the main program is about to make a call. -/
def calling (r : Run) (call : Invocation) : Run := { r with machine := r.machine.setThread .main call.thread }

theorem world_calling (r : Run) (call : Invocation) : (r.calling call).machine.world = r.machine.world := rfl

theorem calls_calling {p : Program} {r : Run} {call : Invocation} (numbered : r.machine.Numbered)
    (anchored : r.machine.Anchored p) (rooted : call.env.root = Frames.root)
    (live : r.machine.world.frames.Live call.env.current) (outermost : call.base = []) :
    (r.calling call).Calls p .main call := by
  refine ⟨numbered.setThread .main _, ⟨anchored.frames, ?_, anchored.jobs⟩, rfl⟩
  intro who t found
  cases who with
  | task id => exact anchored.threads (.task id) t found
  | main =>
    cases found
    refine ⟨trivial, rooted, ?_, nofun⟩
    intro f member
    have member : f ∈ held call.env.current call.base := member
    rw [outermost] at member
    cases List.mem_singleton.mp member
    exact live

/-- A call that the main program makes by itself. -/
theorem byItself_of_evaluating {p : Program} {c : RunConfig} {base : List Pending} {count n : Nat} {r : Run}
    (goesOn : Evaluating p c .main base r (List.replicate n .main)) :
    ByItself p c .main base count r (List.replicate n .main) := by
  induction n generalizing r with
  | zero => trivial
  | succ n ih =>
    obtain ⟨⟨t, here, above⟩, later⟩ := goesOn
    cases here
    exact ⟨⟨rfl, above⟩, ih later⟩

theorem sameCall_calling {p : Program} {r : Run} {call call' : Invocation} (function : call'.function = call.function)
    (arguments : call'.arguments = call.arguments)
    (declaring : (p.attrs.bodyScope? call.function).all (fun scope =>
      call'.declaring p r.machine.world.frames scope = call.declaring p r.machine.world.frames scope) = true) :
    SameCall p call call' (r.calling call) (r.calling call') := by
  refine ⟨function, arguments, rfl, rfl, ?_, fun _ _ => rfl⟩
  intro scope opens
  rw [opens] at declaring
  exact of_decide_eq_true declaring

/-- The same call, from some place, with nothing that waits for the result. -/
def descendingFrom (place : FrameId) : Invocation :=
  { descendingCall with env := ⟨place, Frames.root⟩, base := [] }

def descendingMoves : List Move := List.replicate 23 .main

/-- A call of a function, and a frame of one of its activations. -/
theorem exists_activation {p : Program} {n : NodeId} {fs : Frames} {g : FrameId}
    (declares : (p.kind n).toOption.any (fun kind => kind matches .funDecl ..) = true)
    (within : (fs.scope? g).any (fun inner => (p.attrs.bodyScope? n).any (· ∈ p.attrs.enclosing inner)) = true) :
    ∃ name parameters body scope inner, p.kind n = .ok (.funDecl name parameters body) ∧
      p.attrs.bodyScope? n = some scope ∧ fs.scope? g = some inner ∧ scope ∈ p.attrs.enclosing inner := by
  cases found : p.kind n with
  | error e =>
    rw [found] at declares
    cases declares
  | ok kind =>
    cases owns : fs.scope? g with
    | none =>
      rw [owns] at within
      cases within
    | some inner =>
      cases opens : p.attrs.bodyScope? n with
      | none =>
        rw [owns, opens] at within
        cases within
      | some scope =>
        rw [owns, opens] at within
        rw [found] at declares
        cases kind with
        | funDecl name parameters body =>
          exact ⟨name, parameters, body, scope, inner, rfl, rfl, rfl, of_decide_eq_true within⟩
        | _ => cases declares

/-- The second activation spares the frames of the first one. From there the function comes back with the same as
from the outermost block, and goes the same way whatever is bound in the first activation. -/
theorem descending_confined :
    let r := descendingRun.calling (descendingFrom ⟨2⟩)
    let r' := descendingRun.calling (descendingFrom ⟨0⟩)
    let played := r.play descendingProgram default descendingMoves
    played.machine.main.outcome?.isSome ∧
    (r.rebind ⟨2⟩ .empty).play descendingProgram default descendingMoves = played.rebind ⟨2⟩ .empty ∧
    Agree .main (descendingFrom ⟨2⟩) (descendingFrom ⟨0⟩) [⟨0⟩, ⟨0⟩] played
      (r'.play descendingProgram default descendingMoves) ∧
    ∀ i, i = 1 ∨ i = 2 → descendingRun.Spares descendingProgram default .main descendingCall ⟨i⟩ := by
  intro r r' played
  have numbered : descendingRun.machine.Numbered :=
    numbered_play descendingProgram default (List.replicate 33 .main)
  have anchored : descendingRun.machine.Anchored descendingProgram :=
    anchored_play descendingProgram default (List.replicate 33 .main)
  have live : ∀ i, i < 3 → descendingRun.machine.world.frames.Live ⟨i⟩ := by
    unfold Frames.Live
    decide +kernel
  have calls : r.Calls descendingProgram .main (descendingFrom ⟨2⟩) :=
    calls_calling numbered anchored rfl (live 2 (by decide)) rfl
  have calls' : r'.Calls descendingProgram .main (descendingFrom ⟨0⟩) :=
    calls_calling numbered anchored rfl (live 0 (by decide)) rfl
  have same : SameCall descendingProgram (descendingFrom ⟨2⟩) (descendingFrom ⟨0⟩) r r' :=
    sameCall_calling rfl rfl (by decide +kernel)
  have around : (descendingFrom ⟨2⟩).around descendingProgram r.machine.world.frames = [⟨0⟩, ⟨0⟩] := by
    decide +kernel
  have goesOn : Evaluating descendingProgram default .main [] r descendingMoves := by
    apply evaluating_nil
    decide +kernel
  have alone : ByItself descendingProgram default .main [] r.machine.tasks.size r descendingMoves :=
    byItself_of_evaluating goesOn
  obtain ⟨confined, callers, activations⟩ := calls_confined descendingProgram default
  refine ⟨by decide +kernel, ?_, ?_, ?_⟩
  · have here : r.machine.world.frames.Live ⟨2⟩ := by
      rw [show r.machine.world = descendingRun.machine.world from world_calling ..]
      exact live 2 (by decide)
    have apart : (⟨2⟩ : FrameId) ∉ (descendingFrom ⟨2⟩).around descendingProgram r.machine.world.frames := by
      rw [around]
      decide
    exact (confined r .main (descendingFrom ⟨2⟩) calls ⟨2⟩ here apart).2 descendingMoves alone .empty
  · have agree := (callers r r' .main (descendingFrom ⟨2⟩) (descendingFrom ⟨0⟩) calls calls' same descendingMoves
      alone).2
    rwa [around] at agree
  · have labelled : descending.Labelled := by decide +kernel
    have within : ∀ i, i = 1 ∨ i = 2 → ∃ name parameters body scope inner,
        descendingProgram.kind descendingCall.function = .ok (.funDecl name parameters body) ∧
        descendingProgram.attrs.bodyScope? descendingCall.function = some scope ∧
        descendingRun.machine.world.frames.scope? ⟨i⟩ = some inner ∧
        scope ∈ descendingProgram.attrs.enclosing inner := by
      rintro i (rfl | rfl)
      · exact exists_activation (by decide +kernel) (by decide +kernel)
      · exact exists_activation (by decide +kernel) (by decide +kernel)
    intro i one
    obtain ⟨name, parameters, body, scope, inner, kind, opens, owns, inside⟩ := within i one
    have played : descendingRun =
        (initial descendingProgram default).play descendingProgram default (List.replicate 33 .main) := rfl
    have caller := descending_calls
    rw [played] at caller owns ⊢
    exact activations descending descending_built labelled (List.replicate 33 .main) .main descendingCall caller
      name parameters body scope kind opens ⟨i⟩ inner owns inside

end Run

end Strand
