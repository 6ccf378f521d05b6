import Strand.Proofs.ForkJoin.Root

/-!
# The same variables, one after the other

In sequence each variable is computed at its declaration, in the world that the declarations before it
have left. What is computed is alike to the computation by itself, as it is when it is computed by a task
(`ForkJoin.gathers`). So the world in which the variables have been gathered from the tasks and the one in
which they have been computed in sequence are alike (`ForkJoin.Gathered.like`).
-/

set_option autoImplicit false

namespace Strand

namespace ForkJoin

variable {p : Program} (x : ForkJoin p) (w₀ : World)

/-! ## 1. Worlds in which the variables have their values -/

/-- What is returned, what is launched, and the functions. -/
def outer : Region := p.region (x.readers ++ x.nodes) x.functions [] false

/-- A variable has the value that its computation comes to by itself. -/
def Has (k : Fork) (R : Pairing) (w' w : World) : Prop :=
  ∃ v v' : Value, Solved p w₀ k w' v' ∧ v.Like x.inner.functions R v' ∧
    w.frames.lookup Frames.root k.name = some (v.widen (p.typeOf k.declaration))

/-- A world that so many computations share, and in which the variables have their values. -/
structure Gathered (count : Nat) (R : Nat → Pairing) (ws : Nat → World) (w : World) : Prop where
  shared : World.Shared x.inner w₀ count R ws w
  each : ∀ i k, i < count → x.forks[i]? = some k → x.Has w₀ k (R i) (ws i) w

variable {x w₀} {R Q : Nat → Pairing} {ws : Nat → World} {w w' : World} {n : Nat} {k : Fork}

theorem outer_closed : x.outer.Closed p := x.shown.closed

theorem outer_of_inner (d : Decl) (known : x.inner.functions d) : x.outer.functions d := by
  cases d with
  | node f => exact known.imp_right fun inside => List.mem_append_right _ inside
  | host host => cases known.1

/-- The computation by itself comes to one value. -/
theorem Solved.unique {w₁ w₂ : World} {v₁ v₂ : Value} (first : Solved p w₀ k w₁ v₁)
    (second : Solved p w₀ k w₂ v₂) : v₁ = v₂ := by
  obtain ⟨s, reached, -, ended⟩ := first
  obtain ⟨s', reached', -, ended'⟩ := second
  cases reached.unique ended reached' ended'
  cases ended.symm.trans ended'
  rfl

/-- Two worlds in which the variables have their values are alike. -/
theorem Gathered.like (h : x.Gathered w₀ x.forks.length R ws w)
    (h' : x.Gathered w₀ x.forks.length Q ws w') :
    w.Like x.outer (joined x.forks.length R Q) w' := by
  have knows : ∀ d, x.inner.functions d → x.outer.functions d := outer_of_inner
  refine h.shared.meet h'.shared knows rfl fun name _ => ?_
  by_cases launched : name ∈ x.forks.map Fork.name
  · obtain ⟨k, member, rfl⟩ := List.mem_map.mp launched
    obtain ⟨i, fork⟩ := List.mem_iff_getElem?.mp member
    obtain ⟨inside, -⟩ := List.getElem?_eq_some_iff.mp fork
    obtain ⟨v, u, solved, alike, found⟩ := h.each i k inside fork
    obtain ⟨v', u', solved', alike', found'⟩ := h'.each i k inside fork
    cases solved.unique solved'
    have both : v.Like x.inner.functions (joined x.forks.length R Q) v' :=
      Value.Like.meet (fun a b z pair pair' => .inr ⟨i, inside, z, pair, pair'⟩) alike alike'
    rw [found, found']
    exact .some ((both.mono knows fun _ _ => id).widen _)
  · have value := h.shared.base.lookup h.shared.base.root fun _ => launched
    have value' := h'.shared.base.lookup h'.shared.base.root fun _ => launched
    have both : ∀ a b z, rootPair a z → rootPair b z → joined x.forks.length R Q a b :=
      fun a b z pair pair' => .inl ⟨pair.1, pair'.1⟩
    have values : ∀ v v' u : Value, v.Like x.inner.functions rootPair u →
        v'.Like x.inner.functions rootPair u → v.Like x.outer.functions (joined x.forks.length R Q) v' :=
      fun _ _ _ alike alike' => (alike.meet both alike').mono knows fun _ _ => id
    exact optionRel_meet values value value'

/-- When every variable has been waited for, the tasks have come to the values and are over. -/
theorem Crew.gathered {tasks : Array Task} (crew : x.Crew w₀ R ws tasks w)
    (all : tasks.size = x.forks.length) (settled : ∀ k ∈ x.forks, Settled w k) :
    x.Gathered w₀ x.forks.length R ws w ∧
      ∀ (i : Nat) (task : Task), tasks[i]? = some task → task.state.IsOver := by
  have stored : ∀ (i : Nat) (k : Fork) (task : Task), x.forks[i]? = some k → tasks[i]? = some task →
      x.Has w₀ k (R i) (ws i) w ∧ task.state.IsOver := by
    intro i k task fork found
    obtain ⟨l, there, stage⟩ := crew.stages i task found
    cases fork.symm.trans there
    obtain ⟨v, bound, set_⟩ := settled k (List.mem_of_getElem? fork)
    unfold Has
    rw [bound] at stage ⊢
    generalize task.state = state at stage ⊢
    cases stage with
    | stored v v' solved alike state ended => exact ⟨⟨v, v', solved, alike, rfl⟩, ended⟩
    | submitted | fresh | going | lost => cases set_
  refine ⟨⟨all ▸ crew.shared, fun i k inside fork => ?_⟩, fun i task found => ?_⟩
  · exact (stored i k tasks[i] fork (Array.getElem?_eq_getElem (by omega))).1
  · obtain ⟨l, there, -⟩ := crew.stages i task found
    exact (stored i l task there found).2

/-! ## 2. One statement after the other -/

/-- The program in sequence before its first statement. -/
def begun (x : ForkJoin p) (w₀ : World) : Turn :=
  ⟨w₀, .outermost, .give .void, [.statements (x.functions ++ x.forks.map Fork.declaration ++ [x.last])]⟩

/-- The main program about to evaluate what it returns. -/
def returning (x : ForkJoin p) (w : World) : Turn :=
  ⟨w, .outermost, .eval x.result, [.returned, .statements []]⟩

theorem ne_root (x : ForkJoin p) {n : NodeId} {kind : NodeKind} (found : p.arena.kind? n = some kind)
    (other : ∀ l, kind ≠ .root l) : n ≠ p.root := by
  rintro rfl
  exact other _ (Option.some.inj (found.symm.trans x.root))

/-- A statement begins. -/
theorem goes_statement {first : NodeId} (rest : List NodeId) :
    Turn.Goes p ⟨w, .outermost, .give .void, [.statements (first :: rest)]⟩
      ⟨w, .outermost, .eval first, [.statements rest]⟩ :=
  ⟨rfl, nofun, rfl⟩

/-- A step of the evaluation of a node that is not the root. -/
theorem goes_eval (x : ForkJoin p) {n : NodeId} {kind : NodeKind} (found : p.arena.kind? n = some kind)
    (other : ∀ l, kind ≠ .root l) (env : Env) (stack : List Pending) :
    Turn.Goes p ⟨w, env, .eval n, stack⟩ (Turn.enter p ⟨w, env, .eval n, stack⟩ n kind) := by
  refine ⟨rfl, fun same => x.ne_root found other (Control.eval.inj same), ?_⟩
  simp only [Turn.step, Program.kind, found]

/-- The declarations of functions do nothing. -/
theorem reaches_functions (fs : List NodeId) (known : ∀ f ∈ fs, f ∈ x.functions) (rest : List NodeId) :
    Turn.Reaches p ⟨w, .outermost, .give .void, [.statements (fs ++ rest)]⟩
      ⟨w, .outermost, .give .void, [.statements rest]⟩ := by
  induction fs with
  | nil => exact .refl
  | cons f fs ih =>
    obtain ⟨name, parameters, body, declares⟩ := x.declares f (known f List.mem_cons_self)
    have rest := ih fun g member => known g (List.mem_cons_of_mem _ member)
    exact .head (goes_statement _) (.head (goes_eval x declares nofun _ _) rest)

/-- The next variable is computed at its declaration. -/
theorem Gathered.declare (h : x.Gathered w₀ n R ws w) (fork : x.forks[n]? = some k) {v' : Value}
    (solved : Solved p w₀ k (ws n) v') (rest : List NodeId) :
    ∃ R' w₁, Turn.Reaches p ⟨w, .outermost, .give .void, [.statements (k.declaration :: rest)]⟩
        ⟨w₁, .outermost, .give .void, [.statements rest]⟩ ∧
      x.Gathered w₀ (n + 1) (Function.update R n R') ws w₁ := by
  have member : k ∈ x.forks := List.mem_of_getElem? fork
  have of := x.launches k member
  obtain ⟨t, reached, own, ended⟩ := id solved
  -- the computation comes along with the one by itself
  have like : Turn.Like x.inner [.declaration k.declaration k.name, .statements rest] rootPair
      ⟨w, .outermost, .eval k.initializer, [.declaration k.declaration k.name, .statements rest]⟩
      (alone w₀ k) := ⟨h.shared.base, ⟨rfl, rfl, rfl, rfl⟩, .eval _ of.inside, .bottom⟩
  obtain ⟨s, reaches, ⟨R', evolves, like⟩, home⟩ := like.run x.inner_closed ⟨_, x.root⟩ reached
  obtain ⟨waits, ⟨v, u, gives, same, alike⟩ | ⟨e, e', -, same, -⟩⟩ := like.ends ended
  swap
  · cases same
  cases same
  have back : s.env = .outermost := (home .outermost ⟨[], rfl, rfl, rfl⟩).env_eq waits
  have shared : World.Shared x.inner w₀ (n + 1) (Function.update R n R') ws s.world := by
    have grown := h.shared.grow.evolve x.inner_guarded (Nat.lt_succ_self n)
      (by rw [Function.update_self]; exact evolves)
    rwa [own, Function.update_idem, Function.update_idem, Function.update_eq_self] at grown
  obtain ⟨w₁, env, control, stack⟩ := s
  obtain rfl : env = .outermost := back
  obtain rfl : control = .give v := gives
  obtain rfl : stack = [.declaration k.declaration k.name, .statements rest] := waits
  have linked : w₁.frames.Linked p.attrs.rootScope := shared.base.linked
  have stores : Turn.Goes p
      ⟨w₁, .outermost, .give v, [.declaration k.declaration k.name, .statements rest]⟩
      ⟨{ w₁ with frames := w₁.frames.define Frames.root k.name (v.widen (p.typeOf k.declaration)) },
        .outermost, .give .void, [.statements rest]⟩ :=
    ⟨rfl, nofun, (of.resume_declaration ⟨w₁, .outermost, .give v, [.statements rest]⟩ rfl linked v).symm⟩
  refine ⟨R', _, .head (goes_statement _) (.head (goes_eval x of.declares nofun _ _) (reaches.tail stores)),
    shared.keeps (World.keeps_define (not_names member) _), fun i l inside there => ?_⟩
  by_cases last : i = n
  · subst last
    cases fork.symm.trans there
    rw [Function.update_self]
    refine ⟨v, _, solved, alike, ?_⟩
    rw [linked.lookup_define, if_pos rfl]
  · rw [Function.update_of_ne last]
    obtain ⟨u, u', solved, alike, found⟩ := h.each i l (by omega) there
    refine ⟨u, u', solved, alike, ?_⟩
    rw [linked.lookup_define, if_neg (name_ne fork there last), evolves.lookup x.inner_guarded]
    exact found

/-- If every computation comes to a value by itself, the program in sequence comes to its return, in a
world in which the variables have their values. -/
theorem gathers (base : w₀.Like x.inner rootPair w₀)
    (solved : ∀ i k, x.forks[i]? = some k → ∃ v', Solved p w₀ k (ws i) v') :
    ∃ Q w, Turn.Reaches p (x.begun w₀) (x.returning w) ∧ x.Gathered w₀ x.forks.length Q ws w := by
  have declared : ∀ n ≤ x.forks.length, ∃ Q w, Turn.Reaches p (x.begun w₀) ⟨w, .outermost, .give .void,
      [.statements ((x.forks.drop n).map Fork.declaration ++ [x.last])]⟩ ∧ x.Gathered w₀ n Q ws w := by
    intro n inside
    induction n with
    | zero =>
      refine ⟨fun _ => rootPair, w₀, ?_, ⟨base, nofun, nofun⟩, nofun⟩
      rw [begun, List.append_assoc, List.drop_zero]
      exact reaches_functions x.functions (fun _ => id) _
    | succ n ih =>
      obtain ⟨Q, w, reaches, gathered⟩ := ih (by omega)
      have fork : x.forks[n]? = some x.forks[n] := List.getElem?_eq_getElem inside
      obtain ⟨v', solved⟩ := solved n _ fork
      rw [List.drop_eq_getElem_cons inside] at reaches
      obtain ⟨R', w₁, later, gathered⟩ := gathered.declare fork solved
        ((x.forks.drop (n + 1)).map Fork.declaration ++ [x.last])
      exact ⟨_, w₁, reaches.trans later, gathered⟩
  obtain ⟨Q, w, reaches, gathered⟩ := declared x.forks.length (Nat.le_refl _)
  rw [List.drop_length] at reaches
  exact ⟨Q, w, (reaches.tail (goes_statement _)).tail (goes_eval x x.returns nofun _ _), gathered⟩

end ForkJoin

end Strand
