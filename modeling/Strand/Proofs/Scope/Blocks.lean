import Strand.Proofs.Scope.Build

/-!
# Builders make well-scoped statements

A statement may declare a variable, so the context after it is not the one before it. A block opens a
scope, and when the scope is closed the builder is back in the context before the block: whatever can
still be named from there has been made outside the scope.
-/

set_option autoImplicit false

namespace Strand

open Context (Later)

/-! ## 1. Closing a scope -/

/-- The labels after scopes have been closed until `depth` of them remain. -/
def Marks.close (marks : Marks) (depth : Nat) : Marks :=
  marks.map fun (key, level) => (key, level.filter (· ≤ depth))

def Levels.close (levels : Levels) (depth : Nat) : Levels :=
  { levels with entries := levels.entries.close depth }

theorem Levels.close_close (levels : Levels) {depth deeper : Nat} (h : depth ≤ deeper) :
    (levels.close deeper).close depth = levels.close depth := by
  simp only [close, Marks.close, List.map_map, mk.injEq, true_and]
  refine List.map_congr_left fun (key, level) _ => ?_
  cases level with
  | none => rfl
  | some level =>
    simp only [Function.comp_apply, Option.filter_some, Prod.mk.injEq, true_and]
    grind

namespace Scoping

variable {G : Scoping} {Γ Δ : Context} {s : ScopeId} {names : List Name}

theorem Denotes.close {scope : ScopeId} {name : Name} {decl : Decl}
    (denotes : G.Denotes Δ scope name decl) (inside : Later (Γ.push s names) Δ)
    (fresh : s ∉ Γ.scopes) (outside : scope ∈ Γ.scopes) (root : G.attrs.rootScope ∈ Γ.scopes) :
    G.Denotes Γ scope name decl := by
  cases decl with
  | host host =>
    obtain ⟨text, kind⟩ := host
    cases kind with
    | value => exact Context.mem_of_close inside denotes fun same => fresh (same ▸ root)
    | function | type => trivial
  | node declaration =>
    have other : scope ≠ s := fun same => fresh (same ▸ outside)
    simp only [Denotes] at denotes ⊢
    split at denotes
    · exact Context.mem_of_close inside denotes other
    · exact Context.mem_of_close inside denotes other
    · obtain ⟨declared, head, within, wellFormed⟩ := denotes
      refine ⟨declared, head, Context.le_of_close inside within wellFormed ?_ fresh, wellFormed⟩
      intro same
      rw [same] at head
      exact other (Option.some.inj head).symm
    · trivial
    · exact denotes

theorem Known.close {level : Option Nat} {n : NodeId} (known : G.Known Δ level n)
    (inside : Later (Γ.push s names) Δ) (fresh : s ∉ Γ.scopes) :
    G.Known Γ (level.filter (· ≤ Γ.scopes.length)) n := by
  refine ⟨known.kind, fun depth kept => ?_⟩
  obtain ⟨same, small⟩ := Option.filter_eq_some_iff.mp kept
  obtain ⟨within, length, wellFormed⟩ := known.within depth same
  refine ⟨Context.le_of_close inside within wellFormed ?_ fresh, length, wellFormed⟩
  intro whole
  rw [whole, List.length_cons] at length
  simp only [decide_eq_true_eq] at small
  omega

end Scoping

namespace Builder

variable {b b' b'' : Builder} {context context' context'' : Contexts} {Γ Δ : Context}
  {levels levels' levels'' : Levels}

theorem Inv.ne_nil (inv : b.Inv context Γ levels) : Γ.scopes ≠ [] := by
  rw [inv.scopes]
  simp

theorem Inv.head (inv : b.Inv context Γ levels) : Γ.scopes.head? = some b.currentScope.id := by
  rw [inv.scopes, currentScope]
  cases b.inner <;> rfl

/-- The builder has left a scope: what the outer scopes hold can be read in the outer context. -/
theorem Inv.close {s : ScopeId} {names : List Name} (inv : b.Inv context Δ levels)
    (inside : Later (Γ.push s names) Δ) (fresh : s ∉ Γ.scopes) (some : Γ.scopes ≠ [])
    (proper : (b'.scoping context').Proper Γ)
    (grows : (b.scoping context).Grows (b'.scoping context'))
    (count : b.attrs.scopeCount ≤ b'.attrs.scopeCount) (inner : b'.inner = b.inner.tail)
    (globals : b'.globals = b.globals) (labels : b'.labels = b.labels)
    (tidy : b'.Tidy levels.reserved) (outermost : b'.attrs.parent? b'.attrs.rootScope = none) :
    b'.Inv context' Γ (levels.close Γ.scopes.length) := by
  have opened : s :: Γ.scopes = b.inner.map OpenScope.id ++ [b.globals.id] :=
    inside.scopes.symm.trans inv.scopes
  obtain ⟨scopes, outer⟩ : Γ.scopes = b.inner.tail.map OpenScope.id ++ [b.globals.id] ∧
      ∀ scope ∈ b.inner.tail ++ [b.globals], scope ∈ b.inner ++ [b.globals] := by
    cases top : b.inner with
    | nil =>
      rw [top] at opened
      exact absurd (List.cons.inj opened).2 some
    | cons first rest =>
      rw [top] at opened
      exact ⟨(List.cons.inj opened).2, fun _ => List.mem_cons_of_mem _⟩
  have root : b'.attrs.rootScope = b.globals.id := grows.root.trans inv.root.symm
  have bottom : b'.attrs.rootScope ∈ Γ.scopes := by simp [root, scopes]
  refine ⟨by rw [inner, globals, scopes], by rw [globals, root], fun t member => ?_, proper, ?_, ?_,
    grows.inPlace.trans inv.inPlace, tidy, outermost⟩
  · have before := inv.made t (inside.scopes ▸ List.mem_cons_of_mem _ member)
    exact Nat.lt_of_lt_of_le before count
  · rw [inner, globals]
    intro scope member x here
    refine ((inv.names scope (outer scope member) x here).grows grows).close inside fresh ?_ bottom
    rw [scopes, ← List.map_singleton, ← List.map_append]
    exact List.mem_map_of_mem member
  · rw [labels, Levels.close, Marks.close, List.forall₂_map_right_iff]
    exact inv.labels.imp fun label level known =>
      ⟨known.1, (known.2.grows grows).close inside fresh⟩

/-- The builder has gone on: more may be open, and more may be declared. -/
theorem Inv.grow (inv : b.Inv context Γ levels)
    (grows : (b.scoping context).Grows (b'.scoping context')) (h : Γ ≤ Δ)
    (scopes : Δ.scopes = b'.inner.map OpenScope.id ++ [b'.globals.id])
    (globals : b'.globals.id = b.globals.id) (made : ∀ s ∈ Δ.scopes, s.index < b'.attrs.scopeCount)
    (proper : (b'.scoping context').Proper Δ)
    (names : ∀ scope ∈ b'.inner ++ [b'.globals], ∀ x ∈ scope.names,
      (∃ old ∈ b.inner ++ [b.globals], old.id = scope.id ∧ x ∈ old.names) ∨
        (b'.scoping context').Denotes Δ scope.id x.1 x.2)
    (labels : b'.labels = b.labels) (tidy : b'.Tidy levels.reserved)
    (outermost : b'.attrs.parent? b'.attrs.rootScope = none) : b'.Inv context' Δ levels := by
  refine ⟨scopes, ?_, made, proper, fun scope member x here => ?_, ?_,
    grows.inPlace.trans inv.inPlace, tidy, outermost⟩
  · rw [globals, inv.root]
    exact grows.root.symm
  · rcases names scope member x here with ⟨old, before, same, here⟩ | new
    · exact same ▸ ((inv.names old before x here).grows grows).mono h
    · exact new
  · rw [labels]
    exact inv.labels.imp fun label level known => ⟨known.1, (known.2.grows grows).mono h⟩

/-- After a statement everything can be read that could be read before. -/
theorem Inv.next (inv : b.Inv context Γ levels) : b.Inv context Γ.next levels := by
  refine inv.grow (.refl _) (Context.le_next Γ) inv.scopes rfl inv.made
    (inv.proper.later (Context.later_next Γ)) (fun scope member x here => ?_) rfl inv.tidy
    inv.outermost
  exact .inl ⟨scope, member, rfl, here⟩

/-! ## 2. Blocks -/

/-- A scope and a block have been opened. -/
def opened (b : Builder) : Builder :=
  { b with
    attrs := (b.attrs.newScope (some b.currentScope.id)).2
    inner := ⟨⟨b.attrs.scopeCount⟩, []⟩ :: b.inner
    blocks := [] :: b.blocks }

theorem adds_opened (b : Builder) (context : Contexts) :
    b.Adds context b.opened context :=
  adds_none context rfl (fun n => (Attributes.Only.refl n _).newScope _) fun _ _ => id

theorem Inv.fresh (inv : b.Inv context Γ levels) : (⟨b.attrs.scopeCount⟩ : ScopeId) ∉ Γ.scopes :=
  fun member => Nat.lt_irrefl _ (inv.made _ member)

theorem made_push (inv : b.Inv context Γ levels) {count : Nat} (more : b.attrs.scopeCount < count) :
    ∀ s ∈ (Γ.push ⟨b.attrs.scopeCount⟩ []).scopes, s.index < count := by
  intro s member
  rcases List.mem_cons.mp member with rfl | before
  · exact more
  · exact Nat.lt_trans (inv.made s before) more

theorem opened_parent (b : Builder) :
    b.opened.attrs.parent? ⟨b.attrs.scopeCount⟩ = some b.currentScope.id :=
  (Attributes.parent?_newScope ..).trans (if_pos rfl)

theorem Inv.opened (inv : b.Inv context Γ levels) :
    b.opened.Inv context (Γ.push ⟨b.attrs.scopeCount⟩ []) levels := by
  have adds := adds_opened b context
  have tidy : b.opened.Tidy levels.reserved :=
    inv.tidy.same rfl (fun _ => rfl) (fun _ => rfl) adds.count (fun _ _ => id)
      inv.tidy.interner rfl fun sc member => by
        rcases List.mem_cons.mp member with rfl | before
        · exact .inr ⟨rfl, Nat.le_refl _⟩
        · exact .inl before
  refine inv.grow adds.grows (Context.le_push ..) ?_ rfl (made_push inv ?_)
    ((inv.proper.grows adds.grows).push inv.head (opened_parent b) inv.fresh [])
    (fun scope member x here => ?_) rfl tidy (adds.outermost inv)
  · exact congrArg (_ :: ·) inv.scopes
  · exact (Attributes.Only.scopeCount_newScope ..).symm ▸ Nat.lt_succ_self _
  · rcases List.mem_cons.mp member with rfl | before
    · exact nomatch here
    · exact .inl ⟨scope, before, rfl, here⟩

/-- An operation that emits statements, and the context after them. -/
structure Builds {α : Type} (Γ : Context) (levels levels' : Levels) (op : BuildM α)
    (pre : Scoping → Prop) : Prop where
  sticky : ∀ b, (op.run b).2.error = none → b.error = none
  builds : ∀ b context, b.Inv context Γ levels → pre (b.scoping context) →
    (op.run b).2.error = none → ∃ context' Δ new, (op.run b).2.Inv context' Δ levels' ∧
      b.Step context new (op.run b).2 context' ∧ Later Γ Δ ∧
      ((op.run b).2.scoping context').Sequence Γ new Δ

/-- The innermost scope and the innermost block have been closed, and there is a node for them. -/
def closed (b : Builder) (scope : ScopeId) : Builder :=
  { b with
    arena := (b.arena.alloc (.block (b.blocks.headD []).reverse) b.span).2
    attrs := b.attrs.setScope ⟨b.arena.size⟩ scope
    inner := b.inner.tail
    blocks := b.blocks.tail }

theorem run_scopedBlock (body : BuildM Unit) (b : Builder) : (scopedBlock body).run b =
    (⟨(body.run b.opened).2.arena.size⟩, (body.run b.opened).2.closed ⟨b.attrs.scopeCount⟩) := rfl

/-- What a block emits is in the block. -/
theorem makes_scopedBlock {body : BuildM Unit}
    (h : ∀ Δ, Δ.scopes.length = Γ.scopes.length + 1 →
      Builds Δ levels levels' body fun _ => True) :
    Makes Γ levels (levels'.close Γ.scopes.length) (scopedBlock body) (fun _ => True)
      fun n G => G.Block Γ n := by
  refine ⟨fun b ended => ?_, fun b context inv _ ended => ?_⟩
  · exact (h (Γ.push ⟨0⟩ []) rfl).sticky b.opened ended
  · obtain ⟨context', Δ, new, inv', step, later, sequence⟩ :=
      (h _ rfl).builds b.opened context inv.opened trivial ended
    rw [run_scopedBlock] at ended ⊢
    generalize (body.run b.opened).2 = b' at *
    obtain ⟨blocks, statements⟩ := step.emits
    have block : (b'.blocks.headD []).reverse = new := by
      rw [blocks]
      simp
    have allocates : b'.Allocates (.block new) (b'.closed ⟨b.attrs.scopeCount⟩) :=
      ⟨block ▸ rfl, (Attributes.Only.refl ..).setScope _, fun _ _ => id⟩
    obtain ⟨context'', extended, found, own⟩ := allocates.extends context' Γ
    have here := (Attributes.scope?_setScope b'.attrs ⟨b'.arena.size⟩ ⟨b'.arena.size⟩
      ⟨b.attrs.scopeCount⟩).trans (if_pos rfl)
    have grows := (adds_opened b context).grows.trans (step.grows.trans extended.grows)
    have count : b.attrs.scopeCount < b'.attrs.scopeCount := by
      refine Nat.lt_of_lt_of_le ?_ step.count
      exact (Attributes.Only.scopeCount_newScope ..).symm ▸ Nat.lt_succ_self _
    have tidy := inv'.tidy.allocates allocates (.inr rfl) rfl inv'.tidy.interner (.inl rfl)
      (fun scope same => by
        cases here.symm.trans same
        exact count)
      fun name scope decl refers => by cases found.symm.trans refers.kind
    refine ⟨context'', inv'.close later inv.fresh inv.ne_nil (inv.proper.grows grows) extended.grows
      extended.count rfl rfl rfl tidy (extended.outermost inv'), ⟨?_, .none ?_ ?_⟩,
      Scoping.Made.statement ⟨found, own, inv.wellFormed⟩ rfl, new, found⟩
    · have head := inv.head
      have fresh := inv.fresh
      have sequence := sequence.grows extended.grows
      have parent := extended.grows.parent _ _ (step.grows.parent _ _ (opened_parent b))
      rw [← own] at head fresh sequence
      exact (adds_opened b context).trans (step.toAdds.trans (allocates.adds extended
        (.of_context own ⟨nofun, nofun, nofun, nofun⟩ (inv.proper.grows grows)
          ⟨_, _, Δ, head, here, parent, fresh, sequence⟩)))
    · exact congrArg List.tail blocks
    · exact statements

/-! ## 3. Statements -/

section

variable {α β : Type} {pre : Scoping → Prop} {post : α → Scoping → Prop} {op : BuildM α}

theorem builds_pure (a : α) : Builds Γ levels levels (pure a) pre :=
  ⟨fun _ h => h, fun b context inv _ _ =>
    ⟨context, Γ, [], inv, .refl b context, .refl Γ, .nil Γ⟩⟩

/-- First the parts of a statement are made, then the statement. -/
theorem Makes.builds {next : α → BuildM β} (first : Makes Γ levels levels' op pre post)
    (second : ∀ a, Builds Γ levels' levels'' (next a) (post a)) :
    Builds Γ levels levels'' (op >>= next) pre := by
  refine ⟨fun b ended => first.sticky b ((second _).sticky _ ended),
    fun b context inv holds ended => ?_⟩
  obtain ⟨context', inv', step, holds'⟩ :=
    first.makes b context inv holds ((second _).sticky _ ended)
  obtain ⟨context'', Δ, new, inv'', step', later, sequence⟩ :=
    (second _).builds _ context' inv' holds' ended
  exact ⟨context'', Δ, new, inv'', step.trans step', later, sequence⟩

theorem Makes.then {next : α → BuildM β} (first : Makes Γ levels levels' op (fun _ => True) post)
    {holds : Scoping → Prop} (kept : ∀ G G', G.Grows G' → holds G → holds G')
    (second : ∀ a, Builds Γ levels' levels'' (next a) fun G => holds G ∧ post a G) :
    Builds Γ levels levels'' (op >>= next) holds :=
  ((first.frame kept).mono (fun _ h => ⟨h, trivial⟩) fun _ _ h => h).builds second

/-- One statement after the other. -/
theorem Builds.bind {next : α → BuildM β} (first : Builds Γ levels levels' op pre)
    (second : ∀ a Δ, Later Γ Δ → Builds Δ levels' levels'' (next a) fun _ => True) :
    Builds Γ levels levels'' (op >>= next) pre := by
  refine ⟨fun b ended => first.sticky b ((second _ Γ (.refl Γ)).sticky _ ended),
    fun b context inv holds ended => ?_⟩
  obtain ⟨context', Δ, new, inv', step, later, sequence⟩ :=
    first.builds b context inv holds ((second _ Γ (.refl Γ)).sticky _ ended)
  obtain ⟨context'', Θ, new', inv'', step', later', sequence'⟩ :=
    (second _ Δ later).builds _ context' inv' trivial ended
  exact ⟨context'', Θ, new ++ new', inv'', step.trans step', later.trans later',
    (sequence.grows step'.grows).append sequence'⟩

theorem Builds.mono {pre' : Scoping → Prop} (h : Builds Γ levels levels' op pre)
    (before : ∀ G, pre' G → pre G) : Builds Γ levels levels' op pre' :=
  ⟨h.sticky, fun b context inv holds => h.builds b context inv (before _ holds)⟩

theorem Builds.discard (h : Builds Γ levels levels' op pre) :
    Builds Γ levels levels' (discard op) pre :=
  ⟨h.sticky, h.builds⟩

end

/-- An expression that is only made. -/
theorem Makes.discard {α : Type} {pre : Scoping → Prop} {post : α → Scoping → Prop} {op : BuildM α}
    (h : Makes Γ levels levels' op pre post) : Builds Γ levels levels' (discard op) pre := by
  refine ⟨h.sticky, fun b context inv holds ended => ?_⟩
  obtain ⟨context', inv', step, -⟩ := h.makes b context inv holds ended
  exact ⟨context', Γ, [], inv', step, .refl Γ, .nil Γ⟩

theorem run_emit (n : NodeId) (b : Builder) : ∃ statements blocks,
    (emit n).run b = (n, { b with statements, blocks }) ∧ b.Emits [n] { b with statements, blocks } := by
  obtain ⟨_, _, _, _, _, _, _ | ⟨block, outer⟩, _⟩ := b
  · exact ⟨_, _, rfl, rfl, rfl⟩
  · exact ⟨_, _, rfl, rfl, rfl⟩

/-- To emit a node changes nothing but the block it is emitted to. -/
theorem emits_one (n : NodeId) (b : Builder) (context : Contexts) :
    ((emit n).run b).2.error = b.error ∧ b.Same ((emit n).run b).2 ∧
      b.Step context [n] ((emit n).run b).2 context := by
  obtain ⟨statements, blocks, run, emits⟩ := run_emit n b
  rw [run]
  exact ⟨rfl, ⟨rfl, rfl, rfl⟩, adds_none context rfl (.refl · _) fun _ _ => id, emits⟩

theorem none_of_emit {n : NodeId} {b : Builder} (ended : ((emit n).run b).2.error = none) :
    b.error = none :=
  (emits_one n b ⟨fun _ => ⟨[], [], 0⟩, false⟩).1.symm.trans ended

theorem Inv.emit (inv : b.Inv context Γ levels) (n : NodeId) :
    ((emit n).run b).2.Inv context Γ levels := by
  obtain ⟨-, same, step⟩ := emits_one n b context
  refine inv.extend step.toExtends same ?_
  obtain ⟨statements, blocks, run, -⟩ := run_emit n b
  rw [run]
  exact inv.tidy.same rfl (fun _ => rfl) (fun _ => rfl) (Nat.le_refl _) (fun _ _ => id)
    inv.tidy.interner rfl fun _ => .inl

theorem builds_emit (n : NodeId) : Builds Γ levels levels (emit n) (·.Statement Γ n) := by
  refine ⟨fun b => none_of_emit, fun b context inv statement ended => ?_⟩
  obtain ⟨-, -, step⟩ := emits_one n b context
  exact ⟨context, Γ.next, [n], (inv.emit n).next, step, Context.later_next Γ,
    .cons [] (statement.grows step.grows) nofun (.nil _)⟩

/-- A statement of a kind that declares nothing. -/
theorem builds_alloc (kind : NodeKind) (shape : kind.isStatement = true)
    (fits : ∀ (G : Scoping) n, G.Fits n kind) :
    Builds Γ levels levels (do emit (← alloc kind)) (·.Parts Γ kind) :=
  (makes_alloc kind fits).builds fun n => (builds_emit n).mono fun _ made => made.statement shape

theorem builds_expression (inner : NodeId) :
    Builds Γ levels levels (expression inner) (·.Operand Γ inner) :=
  (builds_alloc (.expression inner) rfl fun _ _ => trivial).mono fun _ h =>
    .of_operands rfl rfl (List.forall_mem_singleton.mpr h)

theorem builds_set (name : String) (value : NodeId) :
    Builds Γ levels levels (set name value) (·.Operand Γ value) :=
  (makes_reference name).then (fun _ _ grows h => h.grows grows) fun target =>
    ((makes_assign target value).mono (fun _ h => ⟨h.2.operand, h.1⟩) fun _ _ h => h).builds
      fun assignment => (builds_expression assignment).mono fun _ h => h.operand

theorem builds_launch (callee : String) (arguments : List NodeId) :
    Builds Γ levels levels (launch callee arguments) fun G => ∀ m ∈ arguments, G.Operand Γ m := by
  refine (makes_call callee arguments).builds fun call => ?_
  refine ((makes_alloc (.launch call) fun _ _ => trivial).mono (fun G known => .of_operands rfl rfl
    (List.forall_mem_singleton.mpr known.operand)) fun _ _ h => h).builds fun n => ?_
  exact (makes_setType n _).then (fun _ _ grows made => made.grows grows nofun) fun _ =>
    (builds_emit n).mono fun _ h => h.1.statement rfl

theorem builds_ret (value : Option NodeId) :
    Builds Γ levels levels (ret value) fun G => ∀ m ∈ value, G.Operand Γ m :=
  (builds_alloc (.ret value) rfl fun _ _ => trivial).mono fun _ h =>
    .of_operands rfl rfl fun m uses => h m (Option.mem_toList.mp uses)

/-- A node of which blocks are parts. -/
theorem parts_of_blocks {G : Scoping} {kind : NodeKind} (callee : kind.callee? = none)
    (operands : ∀ m ∈ kind.operands, G.Operand Γ m)
    (blocks : ∀ m ∈ kind.substatements, G.Block Γ m)
    (hosts : ∀ statements, kind.hosts (.block statements) = true) : G.Parts Γ kind := by
  refine ⟨fun m calls => ?_, operands, fun m runs => (blocks m runs).toStatement, fun m runs => ?_⟩
  · rw [callee] at calls
    cases calls
  · obtain ⟨statements, found⟩ := (blocks m runs).block
    exact ⟨_, found, hosts statements⟩

section

variable {body elseBody : BuildM Unit}

theorem builds_block (h : ∀ Δ, Δ.scopes.length = Γ.scopes.length + 1 →
      Builds Δ levels levels' body fun _ => True) :
    Builds Γ levels (levels'.close Γ.scopes.length) (block body) fun _ => True :=
  (makes_scopedBlock h).builds fun n => (builds_emit n).mono fun _ made => made.toStatement

theorem builds_protect (h : ∀ Δ, Δ.scopes.length = Γ.scopes.length + 1 →
      Builds Δ levels levels' body fun _ => True) :
    Builds Γ levels (levels'.close Γ.scopes.length) (protect body) fun _ => True :=
  (makes_scopedBlock h).builds fun inner => (builds_alloc (.protect inner) rfl
    fun _ _ => trivial).mono fun _ block => parts_of_blocks rfl nofun
      (List.forall_mem_singleton.mpr block) fun _ => rfl

theorem builds_ifThen (condition : NodeId) (h : ∀ Δ, Δ.scopes.length = Γ.scopes.length + 1 →
      Builds Δ levels levels' body fun _ => True) :
    Builds Γ levels (levels'.close Γ.scopes.length) (ifThen condition body)
      (·.Operand Γ condition) :=
  (makes_scopedBlock h).then (fun _ _ grows h => h.grows grows) fun inner =>
    (builds_alloc (.conditional condition inner none) rfl fun _ _ => trivial).mono fun _ h =>
      parts_of_blocks rfl (List.forall_mem_singleton.mpr h.1) (List.forall_mem_singleton.mpr h.2)
        fun _ => rfl

theorem builds_ifElse (condition : NodeId)
    (h : ∀ Δ, Δ.scopes.length = Γ.scopes.length + 1 →
      Builds Δ levels levels' body fun _ => True)
    (h' : ∀ Δ, Δ.scopes.length = Γ.scopes.length + 1 →
      Builds Δ (levels'.close Γ.scopes.length) levels'' elseBody fun _ => True) :
    Builds Γ levels (levels''.close Γ.scopes.length) (ifElse condition body elseBody)
      (·.Operand Γ condition) := by
  refine (makes_scopedBlock h).then (fun _ _ grows h => h.grows grows) fun inner => ?_
  refine (makes_scopedBlock h').then (fun _ _ grows h => ⟨h.1.grows grows, h.2.grows grows⟩)
    fun other => (builds_alloc (.conditional condition inner (some other)) rfl
      fun _ _ => trivial).mono fun G h => ?_
  exact parts_of_blocks rfl (List.forall_mem_singleton.mpr h.1.1)
    (List.forall_mem_cons.mpr ⟨h.1.2, List.forall_mem_singleton.mpr h.2⟩) fun _ => rfl

theorem builds_whileLoop (condition : NodeId) (h : ∀ Δ, Δ.scopes.length = Γ.scopes.length + 1 →
      Builds Δ levels levels' body fun _ => True) :
    Builds Γ levels (levels'.close Γ.scopes.length) (whileLoop condition body)
      (·.Operand Γ condition) :=
  (makes_scopedBlock h).then (fun _ _ grows h => h.grows grows) fun inner =>
    (builds_alloc (.loop condition inner) rfl fun _ _ => trivial).mono fun _ h =>
      parts_of_blocks rfl (List.forall_mem_singleton.mpr h.1) (List.forall_mem_singleton.mpr h.2)
        fun _ => rfl

end

end Builder

end Strand
