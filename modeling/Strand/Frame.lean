import Strand.Fault
import Strand.Value

/-!
# Frames

One frame exists for every activation of a lexical scope. It holds the bindings of the scope's names
and the frame outside of it. Frames are shared: every evaluation that can reach a frame sees what the
others write there. A frame is never removed and its parent never changes; the parent is an older
frame, so the way outward ends.

An environment is where an evaluation stands: its current frame and the root frame. It finds the
frame that owns a scope by going outward from the current one, except for the root scope, whose
frame it holds directly.
-/

set_option autoImplicit false

namespace Strand

/-- The identity of a frame. -/
structure FrameId where
  index : Nat
deriving DecidableEq, Inhabited, Repr

/-- Values of names; every name occurs at most once. -/
structure Bindings where
  entries : List (Name × Value)
deriving Inhabited

namespace Bindings

def empty : Bindings := ⟨[]⟩

def find? (b : Bindings) (name : Name) : Option Value := b.entries.lookup name

/-- Replaces the value of a name, or adds the name. -/
def put (name : Name) (value : Value) : List (Name × Value) → List (Name × Value)
  | [] => [(name, value)]
  | (n, v) :: rest => if n = name then (n, value) :: rest else (n, v) :: put name value rest

def insert (b : Bindings) (name : Name) (value : Value) : Bindings := ⟨put name value b.entries⟩

def size (b : Bindings) : Nat := b.entries.length

@[simp] theorem find?_empty (name : Name) : empty.find? name = none := rfl

theorem lookup_put (name other : Name) (value : Value) (entries : List (Name × Value)) :
    (put name value entries).lookup other =
      if other = name then some value else entries.lookup other := by
  induction entries with
  | nil => simp [put, List.lookup_cons]; grind
  | cons entry rest ih =>
    obtain ⟨n, v⟩ := entry
    simp only [put]
    split <;> simp only [List.lookup_cons] <;> grind

/-- An insertion shows at its own name only. -/
theorem find?_insert (b : Bindings) (name other : Name) (value : Value) :
    (b.insert name value).find? other = if other = name then some value else b.find? other :=
  lookup_put name other value b.entries

end Bindings

/-- An activation of a scope. -/
structure Frame where
  scope : ScopeId
  bindings : Bindings
  parent : Option FrameId
deriving Inhabited

/-- Every frame that was ever made. -/
structure Frames where
  frames : Array Frame
deriving Inhabited

namespace Frames

def empty : Frames := ⟨#[]⟩

@[inline] def frame? (fs : Frames) (f : FrameId) : Option Frame := fs.frames[f.index]?

/-- Makes a frame with the given bindings. -/
def push (fs : Frames) (scope : ScopeId) (bindings : Bindings) (parent : Option FrameId) :
    FrameId × Frames :=
  (⟨fs.frames.size⟩, ⟨fs.frames.push ⟨scope, bindings, parent⟩⟩)

@[inline] def scope? (fs : Frames) (f : FrameId) : Option ScopeId := (fs.frame? f).map Frame.scope

def parent? (fs : Frames) (f : FrameId) : Option FrameId := (fs.frame? f).bind Frame.parent

/-- The value of a name in one frame. -/
@[inline] def lookup (fs : Frames) (f : FrameId) (name : Name) : Option Value :=
  (fs.frame? f).bind fun frame => frame.bindings.find? name

/-- Binds a name in one frame. -/
def define (fs : Frames) (f : FrameId) (name : Name) (value : Value) : Frames :=
  ⟨fs.frames.modify f.index fun frame =>
    { frame with bindings := frame.bindings.insert name value }⟩

/-- The first `count` frames from a frame outward. -/
def outward (fs : Frames) : Nat → FrameId → List FrameId
  | 0, _ => []
  | count + 1, f =>
    match fs.frame? f with
    | none => []
    | some frame =>
      match frame.parent with
      | none => [f]
      | some parent => f :: outward fs count parent

/-- The frames from a frame outward. A parent is older than its children, so there are no more of
them than the position of the frame allows. -/
def chain (fs : Frames) (f : FrameId) : List FrameId := fs.outward (f.index + 1) f

/-- The first frame that owns a scope, of `count` frames from a frame outward. -/
def findOutward (fs : Frames) (scope : ScopeId) : Nat → FrameId → Option FrameId
  | 0, _ => none
  | count + 1, f =>
    match fs.frame? f with
    | none => none
    | some frame =>
      if frame.scope = scope then some f
      else
        match frame.parent with
        | none => none
        | some parent => findOutward fs scope count parent

/-- The first frame that owns a scope, from a frame outward. -/
@[inline] def owner? (fs : Frames) (scope : ScopeId) (f : FrameId) : Option FrameId :=
  fs.findOutward scope (f.index + 1) f

theorem findOutward_eq_find? (fs : Frames) (scope : ScopeId) (count : Nat) (f : FrameId) :
    fs.findOutward scope count f =
      (fs.outward count f).find? fun g => fs.scope? g = some scope := by
  induction count generalizing f with
  | zero => rfl
  | succ count ih =>
    simp only [findOutward, outward]
    split
    · rfl
    · next frame found =>
      have owns : fs.scope? f = some frame.scope := by simp [scope?, found]
      cases parent : frame.parent <;> by_cases same : frame.scope = scope <;>
        simp [ih, owns, same]

/-- The owner of a scope is the first frame of the chain with that scope. -/
theorem owner?_eq_find? (fs : Frames) (scope : ScopeId) (f : FrameId) :
    fs.owner? scope f = (fs.chain f).find? fun g => fs.scope? g = some scope :=
  findOutward_eq_find? fs scope (f.index + 1) f

/-! ### What a definition changes

It changes one name of one frame: scopes, parents and with them the ways outward stay. -/

theorem frame?_define (fs : Frames) (f g : FrameId) (name : Name) (value : Value) :
    (fs.define f name value).frame? g =
      if g = f then (fs.frame? g).map fun frame =>
        { frame with bindings := frame.bindings.insert name value }
      else fs.frame? g := by
  obtain ⟨i⟩ := f
  obtain ⟨j⟩ := g
  simp only [frame?, define, Array.getElem?_modify, FrameId.mk.injEq]
  by_cases same : i = j
  · simp [same]
  · simp [same, Ne.symm same]

@[simp] theorem scope?_define (fs : Frames) (f g : FrameId) (name : Name) (value : Value) :
    (fs.define f name value).scope? g = fs.scope? g := by
  simp only [scope?, frame?_define]
  split
  · cases fs.frame? g <;> rfl
  · rfl

@[simp] theorem parent?_define (fs : Frames) (f g : FrameId) (name : Name) (value : Value) :
    (fs.define f name value).parent? g = fs.parent? g := by
  simp only [parent?, frame?_define]
  split
  · cases fs.frame? g <;> rfl
  · rfl

theorem lookup_define (fs : Frames) (f g : FrameId) (name other : Name) (value : Value) :
    (fs.define f name value).lookup g other =
      if g = f ∧ other = name ∧ (fs.frame? f).isSome then some value else fs.lookup g other := by
  simp only [lookup, frame?_define]
  by_cases same : g = f
  · subst same
    cases fs.frame? g with
    | none => simp
    | some frame => simp [Bindings.find?_insert]
  · simp [same]

@[simp] theorem outward_define (fs : Frames) (f : FrameId) (name : Name) (value : Value) (count : Nat)
    (g : FrameId) : (fs.define f name value).outward count g = fs.outward count g := by
  induction count generalizing g with
  | zero => rfl
  | succ count ih =>
    simp only [outward, frame?_define, ih]
    by_cases same : g = f
    · cases fs.frame? g <;> simp [same]
    · simp [same]

@[simp] theorem chain_define (fs : Frames) (f g : FrameId) (name : Name) (value : Value) :
    (fs.define f name value).chain g = fs.chain g :=
  outward_define fs f name value (g.index + 1) g

end Frames

/-- Where an evaluation stands among the frames. -/
structure Env where
  current : FrameId
  root : FrameId
deriving DecidableEq, Inhabited, Repr

namespace Env

/-- Makes a root frame and stands in it. -/
def new (fs : Frames) (rootScope : ScopeId) : Env × Frames :=
  let (root, fs) := fs.push rootScope .empty none
  (⟨root, root⟩, fs)

/-- Enters a new frame inside the given one. -/
def pushUnder (env : Env) (fs : Frames) (scope : ScopeId) (parent : FrameId) : Env × Frames :=
  let (f, fs) := fs.push scope .empty (some parent)
  ({ env with current := f }, fs)

/-- Enters a new frame inside the current one. -/
def push (env : Env) (fs : Frames) (scope : ScopeId) : Env × Frames :=
  env.pushUnder fs scope env.current

/-- Goes one frame outward, if there is one. -/
def pop (env : Env) (fs : Frames) : Env :=
  match fs.parent? env.current with
  | some parent => { env with current := parent }
  | none => env

def restore (env : Env) (f : FrameId) : Env := { env with current := f }

/-- The frames from the current one outward. -/
def chain (env : Env) (fs : Frames) : List FrameId := fs.chain env.current

/-- The number of frames from the current one outward. -/
def depth (env : Env) (fs : Frames) : Nat := (env.chain fs).length

/-- The frame that owns a scope: the root frame for its own scope, else the innermost on the way
outward. -/
def frameFor (env : Env) (fs : Frames) (scope : ScopeId) : Option FrameId :=
  if fs.scope? env.root = some scope then some env.root
  else fs.owner? scope env.current

/-- The value of a name in the frame that owns a scope. -/
@[inline] def get (env : Env) (fs : Frames) (scope : ScopeId) (name : Name) (text : String) :
    Except Cause Value :=
  match (env.frameFor fs scope).bind fun f => fs.lookup f name with
  | some v => .ok v
  | none => .error (.unboundName text)

/-- The frame in which a name of a scope is written. -/
@[inline] def frameToSet (env : Env) (fs : Frames) (scope : ScopeId) (text : String) :
    Except Cause FrameId :=
  match env.frameFor fs scope with
  | some f => .ok f
  | none => .error (.unboundName text)

/-- Binds a name in the frame that owns a scope. -/
def set (env : Env) (fs : Frames) (scope : ScopeId) (name : Name) (value : Value) (text : String) :
    Except Cause Frames :=
  (env.frameToSet fs scope text).map fun f => fs.define f name value

end Env

/-- For diagnostics, as in `Frame \x7b scope: ScopeId(4), bindings: 0, has_parent: true \x7d`. -/
def Frame.describe (f : Frame) : String :=
  "Frame \x7b scope: " ++ f.scope.describe ++ ", bindings: " ++ toString f.bindings.size ++
    ", has_parent: " ++ (if f.parent.isSome then "true" else "false") ++ " \x7d"

end Strand
