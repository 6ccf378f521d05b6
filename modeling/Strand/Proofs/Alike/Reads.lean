import Strand.Proofs.Alike.Worlds
import Strand.Proofs.Reach

/-!
# What is read alike

In worlds that are alike the same is found: the ways outward pass frames that stand for each other, so a
scope has owners that do, and a name values that are alike. This holds as far as a region of the program
goes, which is closed under everything that its nodes lead to.
-/

set_option autoImplicit false

namespace Strand

variable {p : Program} {Z : Region} {R : Pairing} {w w' : World}

/-! ## 1. Regions -/

/-- A kind of node that launches nothing, takes no lock, and is not the root. -/
def NodeKind.IsQuiet : NodeKind → Prop
  | launch _ | launchDecl _ | protect _ | root _ => False
  | _ => True

namespace Region

/-- What a reference in a region may denote. A variable of the root frame, and a constant, must have a
name that may be used there, and a function must be known. -/
def Reads (Z : Region) (p : Program) (n : NodeId) (name : Name) : Decl → Prop
  | .host ⟨_, .value⟩ => Z.names name
  | .host ⟨host, .function⟩ => Z.functions (.host ⟨host, .function⟩)
  | .host ⟨_, .type⟩ => True
  | .node declaration =>
    match p.arena.kind? declaration with
    | some (.varDecl ..) | some (.parameter _) =>
      Z.names name ∨ p.attrs.scope? n ≠ some Z.rootScope
    | some (.funDecl ..) => Z.functions (.node declaration)
    | _ => True

/-- A region that is left by nothing that its nodes do, and in which nothing is waited for. If it is
guarded, it binds no name of the root frame, and knows no builtin function. -/
structure Closed (Z : Region) (p : Program) : Prop where
  quiet : ∀ n kind, Z.nodes n → p.arena.kind? n = some kind → kind.IsQuiet
  parts : ∀ n, Z.nodes n → ∀ m ∈ p.parts n, Z.nodes m
  statements : ∀ n statements, Z.nodes n → p.arena.kind? n = some (.block statements) →
    ∀ m ∈ statements, Z.nodes m
  reads : ∀ n name decl, Z.nodes n → p.arena.kind? n = some (.reference name) →
    p.attrs.decl? n = some decl → Z.Reads p n name decl
  bodies : ∀ function name parameters body, Z.functions (.node function) →
    p.arena.kind? function = some (.funDecl name parameters body) → Z.nodes body
  hosts : ∀ host, Z.functions (.host host) → ¬ Z.guarded ∧ p.text host.name ≠ "wait"
  locals : Z.guarded → ∀ n, Z.locals n → p.attrs.scope? n ≠ some Z.rootScope
  declares : ∀ n name initializer, Z.nodes n → p.arena.kind? n = some (.varDecl name initializer) →
    Z.locals n
  assigns : ∀ n target value name, Z.nodes n → p.arena.kind? n = some (.assignment target value) →
    p.arena.kind? target = some (.reference name) → Z.locals target

end Region

/-! ## 2. Frames -/

/-- Two places to stand that stand for each other. -/
structure Env.Like (R : Pairing) (env env' : Env) : Prop where
  root : env.root = Frames.root
  root' : env'.root = Frames.root
  current : R (.frame env.current) (.frame env'.current)

/-- The ways outward pass frames that stand for each other. -/
theorem World.Like.chain (like : w.Like Z R w') {f f' : FrameId} (pair : R (.frame f) (.frame f')) :
    List.Forall₂ (fun g g' => R (.frame g) (.frame g')) (w.frames.chain f) (w'.frames.chain f') := by
  refine like.linked.induction (fun f => ∀ f', R (.frame f) (.frame f') →
    List.Forall₂ (fun g g' => R (.frame g) (.frame g')) (w.frames.chain f) (w'.frames.chain f'))
    (fun f' pair => ?_) (fun f g frame found parent _ ih f' pair => ?_) f (like.live pair).1 f' pair
  · obtain rfl : f' = Frames.root := by simpa using like.one.2 pair like.root
    rw [like.linked.chain_root, like.linked'.chain_root]
    exact .cons pair .nil
  · obtain ⟨frame', found', same⟩ : ∃ frame', w'.frames.frame? f' = some frame' ∧
        frame.Like Z.functions R (Z.Sees (.frame f)) frame' := by
      obtain ⟨_, frame', here, here', alike⟩ := like.frame pair
      cases found.symm.trans here
      exact ⟨frame', here', alike⟩
    have outside := same.parent
    rw [parent] at outside
    cases parent' : frame'.parent with
    | none =>
      rw [parent'] at outside
      cases outside
    | some g' =>
      rw [parent'] at outside
      cases outside with
      | some outer =>
        rw [like.linked.chain_cons found parent, like.linked'.chain_cons found' parent']
        exact .cons pair (ih g' outer)

theorem find?_rel {α β : Type} {r : α → β → Prop} {l : List α} {l' : List β} {f : α → Bool}
    {f' : β → Bool} (alike : List.Forall₂ r l l') (same : ∀ a b, r a b → f a = f' b) :
    Option.Rel r (l.find? f) (l'.find? f') := by
  induction alike with
  | nil => exact .none
  | cons first _ ih =>
    rw [List.find?_cons, List.find?_cons, same _ _ first]
    split
    · exact .some first
    · exact ih

namespace Env.Like

variable {env env' : Env} (stands : env.Like R env') (like : w.Like Z R w')

include stands like

theorem frameFor (scope : ScopeId) :
    Option.Rel (fun f f' => R (.frame f) (.frame f')) (env.frameFor w.frames scope)
      (env'.frameFor w'.frames scope) := by
  unfold Env.frameFor
  rw [stands.root, stands.root', like.linked.scope?_root, like.linked'.scope?_root]
  split
  · exact .some like.root
  · rw [Frames.owner?_eq_find?, Frames.owner?_eq_find?]
    exact find?_rel (like.chain stands.current) fun f f' pair => by rw [like.scope pair]

/-- The frame that is found for a scope shows a name that may be used, or one of an inner scope. -/
theorem sees {scope : ScopeId} {name : Name} (seen : Z.names name ∨ scope ≠ Z.rootScope) {f : FrameId}
    (found : env.frameFor w.frames scope = some f) : Z.Sees (.frame f) name := by
  intro same
  obtain rfl : f = Frames.root := by simpa using same
  refine seen.resolve_right fun inner => inner ?_
  have owns := (Env.frameFor_eq_some like.linked stands.root (like.live stands.current).1 found).2
  rw [like.linked.scope?_root] at owns
  exact (Option.some.inj owns).symm

theorem get (text : String) {scope : ScopeId} {name : Name}
    (seen : Z.names name ∨ scope ≠ Z.rootScope) :
    Agree (Value.Like Z.functions R) (env.get w.frames scope name text)
      (env'.get w'.frames scope name text) := by
  have owner := stands.frameFor like scope
  have sees := fun f => stands.sees like (f := f) seen
  unfold Env.get
  generalize env.frameFor w.frames scope = x at owner sees
  generalize env'.frameFor w'.frames scope = x' at owner
  cases owner with
  | none => exact .error _
  | @some f f' pair =>
    have value := like.lookup pair (sees f rfl)
    simp only [Option.bind_some]
    generalize w.frames.lookup f name = v at value
    generalize w'.frames.lookup f' name = v' at value
    cases value with
    | none => exact .error _
    | some alike => exact .ok _ _ alike

/-- A name is bound in frames that stand for each other, and a name of an inner scope not in the root
frame. -/
theorem frameToSet {scope : ScopeId} (inner : Z.guarded → scope ≠ Z.rootScope) (text : String) :
    Agree (fun f f' => R (.frame f) (.frame f') ∧ (Z.guarded → f ≠ Frames.root))
      (env.frameToSet w.frames scope text) (env'.frameToSet w'.frames scope text) := by
  have owner := stands.frameFor like scope
  have away : ∀ f, env.frameFor w.frames scope = some f → Z.guarded → f ≠ Frames.root := by
    rintro f found guarded rfl
    have owns := (Env.frameFor_eq_some like.linked stands.root (like.live stands.current).1 found).2
    rw [like.linked.scope?_root] at owns
    exact inner guarded (Option.some.inj owns).symm
  unfold Env.frameToSet
  generalize env.frameFor w.frames scope = x at owner away
  generalize env'.frameFor w'.frames scope = x' at owner
  cases owner with
  | none => exact .error _
  | some pair => exact .ok _ _ ⟨pair, away _ rfl⟩

theorem declaringFrame (p : Program) (scope : ScopeId) :
    R (.frame (p.declaringFrame env w.frames scope)) (.frame (p.declaringFrame env' w'.frames scope)) := by
  unfold Program.declaringFrame
  cases p.attrs.parent? scope with
  | none =>
    rw [Option.bind_none, Option.bind_none, Option.getD_none, Option.getD_none, stands.root, stands.root']
    exact like.root
  | some outside =>
    have owner := stands.frameFor like outside
    rw [Option.bind_some, Option.bind_some]
    generalize env.frameFor w.frames outside = x at owner
    generalize env'.frameFor w'.frames outside = x' at owner
    cases owner with
    | none =>
      rw [Option.getD_none, Option.getD_none, stands.root, stands.root']
      exact like.root
    | some pair => exact pair

/-- A reference of a region has values that are alike. -/
theorem readName (closed : Z.Closed p) {n : NodeId} {name : Name} (inside : Z.nodes n)
    (kind : p.arena.kind? n = some (.reference name)) :
    Agree (Value.Like Z.functions R) (p.readName env w.frames n name)
      (p.readName env' w'.frames n name) := by
  unfold Program.readName
  cases denoted : p.attrs.decl? n with
  | none => exact .error _
  | some decl =>
    have reads := closed.reads n name decl inside kind denoted
    cases decl with
    | host host =>
      obtain ⟨host, kind⟩ := host
      cases kind with
      | value =>
        have value : Option.Rel (Value.Like Z.functions R) (w.frames.lookup Frames.root name)
            (w'.frames.lookup Frames.root name) := like.lookup like.root fun _ => reads
        simp only [stands.root, stands.root']
        generalize w.frames.lookup Frames.root name = v at value
        generalize w'.frames.lookup Frames.root name = v' at value
        cases value with
        | none => exact .error _
        | some alike => exact .ok _ _ alike
      | function => exact .ok _ _ (.function _ reads)
      | type => exact .ok _ _ (.type _)
    | node declaration =>
      simp only [Region.Reads] at reads
      simp only [Program.kind]
      cases found : p.arena.kind? declaration with
      | none => exact .error _
      | some kind =>
        rw [found] at reads
        have variable_ : (Z.names name ∨ p.attrs.scope? n ≠ some Z.rootScope) →
            Agree (Value.Like Z.functions R)
              (Abort.ofFault (p.scopeOf n (p.text name)) >>= fun scope =>
                Abort.ofFault (env.get w.frames scope name (p.text name)))
              (Abort.ofFault (p.scopeOf n (p.text name)) >>= fun scope =>
                Abort.ofFault (env'.get w'.frames scope name (p.text name))) := by
          intro seen
          unfold Program.scopeOf
          cases here : p.attrs.scope? n with
          | none => exact .error _
          | some scope =>
            exact (stands.get like _ (seen.imp_right fun inner same => inner (same ▸ here))).ofFault
        cases kind with
        | varDecl | parameter => exact variable_ reads
        | funDecl => exact .ok _ _ (.function _ reads)
        | structDecl => exact .ok _ _ (.type _)
        | _ => exact .error _

end Env.Like

/-! ## 3. Fields, parameters and instances -/

variable {known : Decl → Prop} {h h' : Heap}

theorem readField_like (like : h.Like known R h') {v v' : Value} (alike : v.Like known R v')
    (field : Name) : Agree (Value.Like known R) (p.readField h v field) (p.readField h' v' field) := by
  unfold Program.readField
  cases alike with
  | null => exact .error _
  | array a a' pair =>
    simp only
    split
    · rw [like.length pair]
      exact .ok _ _ (.int _)
    · exact .error _
  | struct r r' pair =>
    have value := like.field? pair field
    simp only
    generalize h.field? r field = u at value
    generalize h'.field? r' field = u' at value
    cases value with
    | none => exact .error _
    | some alike => exact .ok _ _ alike
  | _ => exact .error _

theorem bindParameters_like (parameters : List NodeId) {arguments arguments' : List Value}
    (alike : List.Forall₂ (Value.Like known R) arguments arguments') {bindings bindings' : Bindings}
    (same : bindings.Like known R (fun _ => True) bindings') :
    Agree (Bindings.Like known R fun _ => True) (p.bindParameters parameters arguments bindings)
      (p.bindParameters parameters arguments' bindings') := by
  induction alike generalizing parameters bindings bindings' with
  | nil =>
    cases parameters <;> exact .ok _ _ same
  | @cons v v' arguments arguments' first rest ih =>
    cases parameters with
    | nil => exact .ok _ _ same
    | cons parameter parameters =>
      simp only [Program.bindParameters, Program.kind]
      cases p.arena.kind? parameter with
      | none => exact .error _
      | some kind =>
        cases kind with
        | parameter name => exact ih parameters (same.insert name (first.widen _))
        | _ => exact ih parameters same

theorem instanceFields_like (fields : List NodeId) {values values' : List Value}
    (alike : List.Forall₂ (Value.Like known R) values values') :
    Agree (List.Forall₂ fun f f' => f.1 = f'.1 ∧ f.2.Like known R f'.2)
      (p.instanceFields fields values) (p.instanceFields fields values') := by
  induction alike generalizing fields with
  | nil => cases fields <;> exact .ok _ _ .nil
  | @cons v v' values values' first rest ih =>
    cases fields with
    | nil => exact .ok _ _ .nil
    | cons field fields =>
      simp only [Program.instanceFields, Program.kind]
      cases p.arena.kind? field with
      | none => exact .error _
      | some kind =>
        cases kind with
        | fieldDecl name =>
          exact (ih fields).bind fun _ _ others => .ok _ _ (.cons ⟨rfl, first.widen _⟩ others)
        | _ => exact ih fields

theorem instantiate_like (decl : NodeId) {values values' : List Value}
    (alike : List.Forall₂ (Value.Like known R) values values') :
    Agree (Record.Like known R) (p.instantiate decl values) (p.instantiate decl values') := by
  unfold Program.instantiate Program.kind
  cases p.arena.kind? decl with
  | none => exact .error _
  | some kind =>
    cases kind with
    | structDecl name fields =>
      simp only [Abort.ofRead, bind, Except.bind, alike.length_eq]
      split
      · exact .error _
      · exact (instanceFields_like fields alike).ofRead.bind fun _ _ same => .ok _ _ ⟨rfl, same⟩
    | _ => exact .error _

end Strand
