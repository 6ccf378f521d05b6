import Strand.Builder
import Strand.Proofs.Scope.Context

/-!
# Names are declared once

A scope has at most one node that declares a name, since a second one is a problem. So a reference
denotes *the* declaration of its name in its scope, and a name of the host denotes a host declaration
of that name in the root scope.

The host declares names before a program is built, and the program may have others declared in place
of what they meant. `Naming.reserved` lists texts that no such declaration takes: what they name in the
root scope, a node has declared.
-/

set_option autoImplicit false

namespace Strand

theorem Interner.find?_intern {table : Interner} {other : String} {name : Name} (text : String)
    (found : table.find? other = some name) : (table.intern text).2.find? other = some name := by
  unfold intern addIfMissing
  cases missing : table.find? text with
  | some known => exact found
  | none =>
    have differ : text ≠ other := fun same => by
      rw [same, found] at missing
      cases missing
    simp only [find?, Std.TreeMap.getElem?_insert, Std.LawfulEqCmp.compare_eq_iff_eq, if_neg differ]
    exact found

theorem Interner.find?_intern_self (table : Interner) (text : String) :
    (table.intern text).2.find? text = some (table.intern text).1 := by
  unfold intern
  cases found : table.find? text with
  | some known => exact found
  | none => exact find?_addIfMissing table text

theorem Arena.kind?_alloc (arena : Arena) (kind : NodeKind) (span : Span) (n : NodeId) :
    (arena.alloc kind span).2.kind? n = if n = ⟨arena.size⟩ then some kind else arena.kind? n := by
  rw [kind?, node?_alloc, apply_ite (Option.map Node.kind)]
  rfl

theorem Arena.size_alloc (arena : Arena) (kind : NodeKind) (span : Span) :
    (arena.alloc kind span).2.size = arena.size + 1 := Array.size_push _

theorem Arena.isSome_kind? {arena : Arena} {n : NodeId} :
    (arena.kind? n).isSome ↔ n.index < arena.size := by
  simp [Arena.kind?, Arena.node?, Arena.size]

theorem Arena.kind?_size (arena : Arena) : arena.kind? ⟨arena.size⟩ = none := by
  simp [kind?, node?, size]

theorem Arena.ne_of_kind? {arena : Arena} {n : NodeId} {kind : NodeKind}
    (found : arena.kind? n = some kind) : n ≠ ⟨arena.size⟩ := by
  rintro rfl
  rw [kind?_size] at found
  cases found

theorem OpenScope.isSome_find?_insert {scope : OpenScope} {name other : Name} {decl : Decl}
    (h : other = name ∨ (scope.find? other).isSome) :
    ((scope.insert name decl).find? other).isSome := by
  simp only [find?, insert, List.lookup_cons] at h ⊢
  split
  · rfl
  · next differ => exact h.resolve_left (by simpa using differ)

/-! ## 1. What names denote -/

/-- The names that the host declares before a program is built. -/
def preludeNames : List Name := Builder.new.globals.names.map Prod.fst

/-- What there is to say of names: the nodes and their attributes, the texts, the root scope, and texts
that the host declares no name of later. -/
structure Naming where
  arena : Arena
  attrs : Attributes
  interner : Interner
  root : ScopeId
  reserved : List String

namespace Naming

variable (N : Naming)

/-- A node declares a name in a scope. -/
structure Declared (n : NodeId) (scope : ScopeId) (name : Name) : Prop where
  name : (N.arena.kind? n).bind NodeKind.declaredName? = some name
  scope : N.attrs.scope? n = some scope

/-- A node refers to a name of a scope, and denotes a declaration. -/
structure Refers (n : NodeId) (scope : ScopeId) (name : Name) (decl : Decl) : Prop where
  kind : N.arena.kind? n = some (.reference name)
  scope : N.attrs.scope? n = some scope
  decl : N.attrs.decl? n = some decl

/-- A name that the host may have declared. -/
def Hosted (name : Name) : Prop :=
  name ∈ preludeNames ∨ ∃ text, text ∉ N.reserved ∧ N.interner.find? text = some name

theorem declared_iff {n : NodeId} {scope : ScopeId} {name : Name} : N.Declared n scope name ↔
    (N.arena.kind? n).bind NodeKind.declaredName? = some name ∧ N.attrs.scope? n = some scope :=
  ⟨fun h => ⟨h.name, h.scope⟩, fun h => ⟨h.1, h.2⟩⟩

/-- What a name of a scope may denote. -/
def Resolves (scope : ScopeId) (name : Name) : Decl → Prop
  | .node n => N.Declared n scope name
  | .host host => host.name = name ∧ scope = N.root ∧ N.Hosted name

/-- Names are declared once, and references denote what was declared. -/
structure Tidy : Prop where
  unique : ∀ m n scope name, N.Declared m scope name → N.Declared n scope name → m = n
  references : ∀ n scope name decl, N.Refers n scope name decl → N.Resolves scope name decl
  prelude : ∀ n name, N.Declared n N.root name → name ∉ preludeNames
  interner : N.interner.WellFormed

variable {N} {N' : Naming}

/-- `N'` has the declarations of `N`, and maybe others. -/
structure Grows (N N' : Naming) : Prop where
  declared : ∀ n scope name, N.Declared n scope name → N'.Declared n scope name
  interner : ∀ text name, N.interner.find? text = some name → N'.interner.find? text = some name
  root : N'.root = N.root
  reserved : N'.reserved = N.reserved

theorem Resolves.grows {scope : ScopeId} {name : Name} {decl : Decl} (h : N.Resolves scope name decl)
    (grows : N.Grows N') : N'.Resolves scope name decl := by
  cases decl with
  | node n => exact grows.declared n scope name h
  | host host =>
    obtain ⟨same, atRoot, hosted⟩ := h
    refine ⟨same, atRoot.trans grows.root.symm, hosted.imp_right fun ⟨text, free, found⟩ => ?_⟩
    exact ⟨text, grows.reserved ▸ free, grows.interner text name found⟩

/-- Nothing more is declared. -/
theorem Tidy.grows (h : N.Tidy) (grows : N.Grows N')
    (back : ∀ n scope name, N'.Declared n scope name → N.Declared n scope name)
    (references : ∀ n scope name decl, N'.Refers n scope name decl →
      N.Refers n scope name decl ∨ N'.Resolves scope name decl)
    (interner : N'.interner.WellFormed) : N'.Tidy := by
  refine ⟨fun m n scope name first second => ?_, fun n scope name decl refers => ?_,
    fun n name declared => ?_, interner⟩
  · exact h.unique m n scope name (back m scope name first) (back n scope name second)
  · rcases references n scope name decl refers with before | new
    · exact (h.references n scope name decl before).grows grows
    · exact new
  · exact h.prelude n name (grows.root ▸ back n _ name declared)

/-- A variable of a reserved name is denoted by all that refers to it. -/
theorem Tidy.resolves_node (h : N.Tidy) {declaration n : NodeId} {scope : ScopeId} {name : Name}
    {decl : Decl} (declared : N.Declared declaration scope name)
    (free : N.interner.lookup name ∈ N.reserved) (refers : N.Refers n scope name decl) :
    decl = .node declaration := by
  have resolves := h.references n scope name decl refers
  cases decl with
  | node other => rw [h.unique other declaration scope name resolves declared]
  | host host =>
    obtain ⟨-, rfl, known | ⟨text, other, found⟩⟩ := resolves
    · exact absurd known (h.prelude declaration name declared)
    · rw [Interner.lookup_of_find? h.interner found] at free
      exact absurd free other

end Naming

/-! ## 2. Builders -/

theorem Attributes.lt_of_parent? {attrs : Attributes} {s outside : ScopeId}
    (parent : attrs.parent? s = some outside) : s.index < attrs.scopeCount := by
  by_contra beyond
  rw [parent?, Array.getElem?_eq_none (Nat.not_lt.mp beyond)] at parent
  cases parent

/-- At one node the attributes may differ, and there may be more scopes. -/
structure Attributes.Only (node : NodeId) (attrs attrs' : Attributes) : Prop where
  scope : ∀ n ≠ node, attrs'.scope? n = attrs.scope? n
  decl : ∀ n ≠ node, attrs'.decl? n = attrs.decl? n
  bodyScope : ∀ n ≠ node, attrs'.bodyScope? n = attrs.bodyScope? n
  parent : ∀ s : ScopeId, s.index < attrs.scopeCount → attrs'.parent? s = attrs.parent? s
  count : attrs.scopeCount ≤ attrs'.scopeCount
  root : attrs'.rootScope = attrs.rootScope

namespace Attributes.Only

variable {node : NodeId} {attrs attrs' : Attributes}

theorem refl (node : NodeId) (attrs : Attributes) : Only node attrs attrs :=
  ⟨fun _ _ => rfl, fun _ _ => rfl, fun _ _ => rfl, fun _ _ => rfl, Nat.le_refl _, rfl⟩

theorem setType (h : Only node attrs attrs') (n : NodeId) (ty : Ty) :
    Only node attrs (attrs'.setType n ty) :=
  ⟨h.scope, h.decl, h.bodyScope, h.parent, h.count, h.root⟩

theorem setScope (h : Only node attrs attrs') (scope : ScopeId) :
    Only node attrs (attrs'.setScope node scope) := by
  refine ⟨fun n other => ?_, h.decl, h.bodyScope, h.parent, h.count, h.root⟩
  rw [scope?_setScope, if_neg other, h.scope n other]

theorem setDecl (h : Only node attrs attrs') (decl : Decl) :
    Only node attrs (attrs'.setDecl node decl) := by
  refine ⟨h.scope, fun n other => ?_, h.bodyScope, h.parent, h.count, h.root⟩
  rw [decl?_setDecl, if_neg other, h.decl n other]

theorem setBodyScope (h : Only node attrs attrs') (scope : ScopeId) :
    Only node attrs (attrs'.setBodyScope node scope) := by
  refine ⟨h.scope, h.decl, fun n other => ?_, h.parent, h.count, h.root⟩
  rw [bodyScope?_setBodyScope, if_neg other, h.bodyScope n other]

theorem scopeCount_newScope (attrs : Attributes) (parent : Option ScopeId) :
    (attrs.newScope parent).2.scopeCount = attrs.scopeCount + 1 :=
  Array.size_push ..

theorem newScope (h : Only node attrs attrs') (outside : ScopeId) :
    Only node attrs (attrs'.newScope (some outside)).2 := by
  refine ⟨h.scope, h.decl, h.bodyScope, fun s old => ?_, ?_, h.root⟩
  · rw [parent?_newScope, if_neg, h.parent s old]
    rintro rfl
    exact absurd old (Nat.not_lt.mpr h.count)
  · exact Nat.le_trans h.count (scopeCount_newScope attrs' _ ▸ Nat.le_succ _)

end Attributes.Only

namespace Builder

/-- One node more. Only of this node the attributes may have changed. -/
structure Allocates (b : Builder) (kind : NodeKind) (b' : Builder) : Prop where
  arena : b'.arena = (b.arena.alloc kind b.span).2
  attrs : Attributes.Only ⟨b.arena.size⟩ b.attrs b'.attrs
  interner : ∀ text name, b.interner.find? text = some name → b'.interner.find? text = some name

theorem Allocates.kind? {b b' : Builder} {kind : NodeKind} (h : b.Allocates kind b') (n : NodeId) :
    b'.arena.kind? n = if n = ⟨b.arena.size⟩ then some kind else b.arena.kind? n := by
  rw [h.arena, Arena.kind?_alloc]

/-- Between the open scopes and the labels of `b` and `b'` there is no difference. -/
structure Same (b b' : Builder) : Prop where
  inner : b'.inner = b.inner
  globals : b'.globals = b.globals
  labels : b'.labels = b.labels

def naming (b : Builder) (reserved : List String) : Naming :=
  ⟨b.arena, b.attrs, b.interner, b.globals.id, reserved⟩

/-- What is declared in a scope that is still open is known there, and what is known there has been
declared. -/
structure Tidy (b : Builder) (reserved : List String) : Prop
    extends (b.naming reserved).Tidy where
  fresh : ∀ n, b.arena.kind? n = none → b.attrs.scope? n = none
  older : ∀ n scope, b.attrs.scope? n = some scope → scope.index < b.attrs.scopeCount
  known : ∀ n scope name, (b.naming reserved).Declared n scope name →
    ∀ sc ∈ b.inner ++ [b.globals], sc.id = scope → (sc.find? name).isSome
  entries : ∀ sc ∈ b.inner ++ [b.globals], ∀ x ∈ sc.names,
    (b.naming reserved).Resolves sc.id x.1 x.2
  hosts : ∀ name ∈ preludeNames, (b.globals.find? name).isSome

variable {b b' : Builder} {reserved : List String}

theorem currentScope_mem (b : Builder) : b.currentScope ∈ b.inner ++ [b.globals] := by
  unfold currentScope
  cases b.inner with
  | nil => exact List.mem_cons_self
  | cons first outer => exact List.mem_cons_self

/-- Without a new node, and with the same attributes, everything is as before; scopes may have been
opened and closed. -/
theorem Tidy.same (h : b.Tidy reserved) (arena : b'.arena = b.arena)
    (scope : ∀ n, b'.attrs.scope? n = b.attrs.scope? n)
    (decl : ∀ n, b'.attrs.decl? n = b.attrs.decl? n) (count : b.attrs.scopeCount ≤ b'.attrs.scopeCount)
    (interner : ∀ text name, b.interner.find? text = some name → b'.interner.find? text = some name)
    (wf : b'.interner.WellFormed) (globals : b'.globals = b.globals)
    (inner : ∀ sc ∈ b'.inner, sc ∈ b.inner ∨ sc.names = [] ∧ b.attrs.scopeCount ≤ sc.id.index) :
    b'.Tidy reserved := by
  have kind : ∀ n, b'.arena.kind? n = b.arena.kind? n := fun n => by rw [arena]
  have declared : ∀ n s name,
      (b'.naming reserved).Declared n s name ↔ (b.naming reserved).Declared n s name := by
    intro n s name
    simp only [Naming.declared_iff, naming, kind, scope]
  have grows : (b.naming reserved).Grows (b'.naming reserved) :=
    ⟨fun n s name => (declared n s name).mpr, interner, congrArg OpenScope.id globals, rfl⟩
  have opens : ∀ sc ∈ b'.inner ++ [b'.globals], sc ∈ b.inner ++ [b.globals] ∨
      sc.names = [] ∧ b.attrs.scopeCount ≤ sc.id.index := by
    intro sc member
    rcases List.mem_append.mp member with inside | bottom
    · exact (inner sc inside).imp_left fun old => List.mem_append_left _ old
    · exact .inl (List.mem_append_right _ (globals ▸ bottom))
  refine ⟨h.toTidy.grows grows (fun n s name => (declared n s name).mp)
    (fun n s name d refers => .inl ⟨(kind n).symm.trans refers.kind,
      (scope n).symm.trans refers.scope, (decl n).symm.trans refers.decl⟩) wf, fun n missing => ?_,
    fun n s here => ?_, fun n s name new sc member same => ?_, fun sc member x here => ?_,
    fun name prelude => ?_⟩
  · exact (scope n).trans (h.fresh n ((kind n).symm.trans missing))
  · exact Nat.lt_of_lt_of_le (h.older n s ((scope n).symm.trans here)) count
  · have before := (declared n s name).mp new
    rcases opens sc member with old | ⟨-, new⟩
    · exact h.known n s name before sc old same
    · -- in a new scope nothing has been declared yet
      exact absurd (h.older n s before.scope) (Nat.not_lt.mpr (same ▸ new))
  · rcases opens sc member with old | ⟨empty, -⟩
    · exact (h.entries sc old x here).grows grows
    · rw [empty] at here
      cases here
  · rw [globals]
    exact h.hosts name prelude

/-- Of the old nodes everything is the same. -/
theorem Allocates.old {kind : NodeKind} (made : b.Allocates kind b') {n : NodeId}
    (differ : n ≠ ⟨b.arena.size⟩) :
    (∀ s name, (b'.naming reserved).Declared n s name ↔ (b.naming reserved).Declared n s name) ∧
      ∀ s name d, (b'.naming reserved).Refers n s name d → (b.naming reserved).Refers n s name d := by
  have kind' : b'.arena.kind? n = b.arena.kind? n := (made.kind? n).trans (if_neg differ)
  refine ⟨fun s name => ?_, fun s name d refers => ⟨kind'.symm.trans refers.kind,
    (made.attrs.scope n differ).symm.trans refers.scope,
    (made.attrs.decl n differ).symm.trans refers.decl⟩⟩
  simp only [Naming.declared_iff, naming, kind', made.attrs.scope n differ]

/-- The new node was not there before. -/
theorem ne_of_declared {n : NodeId} {s : ScopeId} {name : Name}
    (declared : (b.naming reserved).Declared n s name) : n ≠ ⟨b.arena.size⟩ := by
  rintro rfl
  have none := declared.name
  rw [show (b.naming reserved).arena = b.arena from rfl, Arena.kind?_size] at none
  cases none

theorem Allocates.grows {kind : NodeKind} (made : b.Allocates kind b')
    (globals : b'.globals.id = b.globals.id) :
    (b.naming reserved).Grows (b'.naming reserved) :=
  ⟨fun _ s name declared => ((made.old (ne_of_declared declared)).1 s name).mpr declared,
    made.interner, globals, rfl⟩

/-- A new node has a scope that exists, and is the only node of which there is something new. -/
theorem Tidy.of_allocates {kind : NodeKind} (h : b.Tidy reserved) (made : b.Allocates kind b')
    (tidy : (b'.naming reserved).Tidy)
    (older : ∀ scope, b'.attrs.scope? ⟨b.arena.size⟩ = some scope →
      scope.index < b'.attrs.scopeCount)
    (known : ∀ n scope name, (b'.naming reserved).Declared n scope name →
      ∀ sc ∈ b'.inner ++ [b'.globals], sc.id = scope → (sc.find? name).isSome)
    (entries : ∀ sc ∈ b'.inner ++ [b'.globals], ∀ x ∈ sc.names,
      (b'.naming reserved).Resolves sc.id x.1 x.2)
    (hosts : ∀ name, (b.globals.find? name).isSome → (b'.globals.find? name).isSome) :
    b'.Tidy reserved := by
  refine ⟨tidy, fun n missing => ?_, fun n s here => ?_, known, entries,
    fun name prelude => hosts name (h.hosts name prelude)⟩
  · rw [made.kind?] at missing
    split at missing
    · cases missing
    · next differ => rw [made.attrs.scope n differ, h.fresh n missing]
  · by_cases same : n = ⟨b.arena.size⟩
    · exact older s (same ▸ here)
    · exact Nat.lt_of_lt_of_le (h.older n s ((made.attrs.scope n same).symm.trans here))
        made.attrs.count

/-- A new node that declares nothing; if it is a reference, it denotes what its name means. -/
theorem Tidy.allocates {kind : NodeKind} (h : b.Tidy reserved) (made : b.Allocates kind b')
    (inner : b'.inner = b.inner ∨ b'.inner = b.inner.tail) (globals : b'.globals = b.globals)
    (wf : b'.interner.WellFormed)
    (silent : kind.declaredName? = none ∨ b'.attrs.scope? ⟨b.arena.size⟩ = none)
    (older : ∀ scope, b'.attrs.scope? ⟨b.arena.size⟩ = some scope →
      scope.index < b'.attrs.scopeCount)
    (resolves : ∀ scope name decl, (b'.naming reserved).Refers ⟨b.arena.size⟩ scope name decl →
      (b'.naming reserved).Resolves scope name decl) : b'.Tidy reserved := by
  have back : ∀ n s name, (b'.naming reserved).Declared n s name →
      (b.naming reserved).Declared n s name := by
    intro n s name declared
    by_cases same : n = ⟨b.arena.size⟩
    · subst same
      obtain ⟨name', here⟩ := declared
      have found : b'.arena.kind? ⟨b.arena.size⟩ = some kind := (made.kind? _).trans (if_pos rfl)
      rw [show (b'.naming reserved).arena = b'.arena from rfl, found] at name'
      rcases silent with none | none
      · cases none.symm.trans name'
      · cases none.symm.trans here
    · exact ((made.old same).1 s name).mp declared
  have grows : (b.naming reserved).Grows (b'.naming reserved) :=
    made.grows (congrArg OpenScope.id globals)
  have opens : ∀ sc ∈ b'.inner ++ [b'.globals], sc ∈ b.inner ++ [b.globals] := by
    intro sc member
    rw [globals] at member
    rcases List.mem_append.mp member with inside | bottom
    · refine List.mem_append_left _ ?_
      rcases inner with same | closed
      · exact same ▸ inside
      · exact List.mem_of_mem_tail (closed ▸ inside)
    · exact List.mem_append_right _ bottom
  refine h.of_allocates made (h.toTidy.grows grows back (fun n s name d refers => ?_) wf) older
    (fun _ s name new sc member => h.known _ s name (back _ s name new) sc (opens sc member))
    (fun sc member x here => (h.entries sc (opens sc member) x here).grows grows)
    fun name known => globals ▸ known
  by_cases same : n = ⟨b.arena.size⟩
  · subst same
    exact .inr (resolves s name d refers)
  · exact .inl ((made.old same).2 s name d refers)

/-- A new node that declares a name which its scope does not have yet. -/
theorem Tidy.declares {kind : NodeKind} {name : Name} (h : b.Tidy reserved)
    (made : b.Allocates kind b') (declares : kind.declaredName? = some name)
    (here : b'.attrs.scope? ⟨b.arena.size⟩ = some b.currentScope.id)
    (count : b.currentScope.id.index < b.attrs.scopeCount)
    (free : b.currentScope.find? name = none) (wf : b'.interner.WellFormed)
    (globals : b'.globals.id = b.globals.id)
    (hosts : ∀ other, (b.globals.find? other).isSome → (b'.globals.find? other).isSome)
    (opens : ∀ sc ∈ b'.inner ++ [b'.globals],
      (sc ∈ b.inner ++ [b.globals] ∧ sc.id ≠ b.currentScope.id) ∨
      sc = b.currentScope.insert name (.node ⟨b.arena.size⟩))
    (root : b.currentScope.id = b.globals.id → b.currentScope = b.globals) : b'.Tidy reserved := by
  have own : (b'.naming reserved).Declared ⟨b.arena.size⟩ b.currentScope.id name := by
    refine ⟨?_, here⟩
    rw [show (b'.naming reserved).arena = b'.arena from rfl, made.kind?, if_pos rfl]
    exact declares
  have back : ∀ n s other, (b'.naming reserved).Declared n s other →
      (b.naming reserved).Declared n s other ∨
        n = ⟨b.arena.size⟩ ∧ s = b.currentScope.id ∧ other = name := by
    intro n s other declared
    by_cases same : n = ⟨b.arena.size⟩
    · subst same
      refine .inr ⟨rfl, Option.some.inj (declared.scope.symm.trans here), ?_⟩
      exact Option.some.inj (declared.name.symm.trans own.name)
    · exact .inl (((made.old same).1 s other).mp declared)
  have grows : (b.naming reserved).Grows (b'.naming reserved) := made.grows globals
  -- the name was not declared here before, for then the scope would know it
  have clash : ∀ n, ¬ (b.naming reserved).Declared n b.currentScope.id name := fun n declared => by
    have known := h.known n _ name declared b.currentScope b.currentScope_mem rfl
    rw [free] at known
    cases known
  refine h.of_allocates made ⟨fun m n s other first second => ?_, fun n s other d refers => ?_,
    fun n other declared => ?_, wf⟩ (fun s declared => ?_)
    (fun n s other declared sc member same => ?_) (fun sc member x inside => ?_) hosts
  · rcases back m s other first with first | ⟨rfl, rfl, rfl⟩
    · rcases back n s other second with second | ⟨rfl, rfl, rfl⟩
      · exact h.unique m n s other first second
      · exact absurd first (clash m)
    · rcases back n _ _ second with second | ⟨rfl, -, -⟩
      · exact absurd second (clash n)
      · rfl
  · by_cases same : n = ⟨b.arena.size⟩
    · subst same
      have found := (made.kind? ⟨b.arena.size⟩).trans (if_pos rfl)
      cases found.symm.trans refers.kind
      cases declares
    · exact (h.references n s other d ((made.old same).2 s other d refers)).grows grows
  · rcases back n _ other declared with before | ⟨-, atRoot, rfl⟩
    · exact h.prelude n other (grows.root ▸ before)
    · intro prelude
      have known := h.hosts other prelude
      rw [← root (atRoot.symm.trans globals), free] at known
      cases known
  · cases here.symm.trans declared
    exact Nat.lt_of_lt_of_le count made.attrs.count
  · rcases back n s other declared with before | ⟨rfl, rfl, rfl⟩
    · rcases opens sc member with ⟨inside, -⟩ | rfl
      · exact h.known n s other before sc inside same
      · exact OpenScope.isSome_find?_insert
          (.inr (h.known n s other before _ b.currentScope_mem same))
    · rcases opens sc member with ⟨-, differ⟩ | rfl
      · exact absurd same differ
      · exact OpenScope.isSome_find?_insert (.inl rfl)
  · rcases opens sc member with ⟨old, -⟩ | rfl
    · exact (h.entries sc old x inside).grows grows
    · rcases List.mem_cons.mp inside with rfl | before
      · exact own
      · exact (h.entries _ b.currentScope_mem x before).grows grows

/-- A node that gets its final shape declares what it did, and a scope may be closed. -/
theorem Tidy.setKind (h : b.Tidy reserved) {n : NodeId} {kind kind' : NodeKind}
    (found : b.arena.kind? n = some kind) (name : kind'.declaredName? = kind.declaredName?)
    (shape : ∀ name, kind' ≠ .reference name) :
    Tidy { b with inner := b.inner.tail, arena := b.arena.setKind n kind' } reserved := by
  have after : ∀ m, (b.arena.setKind n kind').kind? m =
      if m = n then (b.arena.kind? m).map fun _ => kind' else b.arena.kind? m :=
    fun m => Arena.kind?_setKind ..
  have name? : ∀ m, ((b.arena.setKind n kind').kind? m).bind NodeKind.declaredName? =
      (b.arena.kind? m).bind NodeKind.declaredName? := by
    intro m
    rw [after]
    split
    · next same => simp [same, found, name]
    · rfl
  let b' : Builder := { b with inner := b.inner.tail, arena := b.arena.setKind n kind' }
  have declared : ∀ m s other,
      (b'.naming reserved).Declared m s other ↔ (b.naming reserved).Declared m s other := by
    intro m s other
    simp only [Naming.declared_iff, naming, b', name?]
  have grows : (b.naming reserved).Grows (b'.naming reserved) :=
    ⟨fun m s other => (declared m s other).mpr, fun _ _ => id, rfl, rfl⟩
  have opens : ∀ sc ∈ b'.inner ++ [b'.globals], sc ∈ b.inner ++ [b.globals] := by
    intro sc member
    exact (List.mem_append.mp member).elim
      (fun inside => List.mem_append_left _ (List.mem_of_mem_tail inside)) (List.mem_append_right _)
  refine ⟨h.toTidy.grows grows (fun m s other => (declared m s other).mp)
    (fun m s other d refers => .inl ?_) h.interner, fun m missing => h.fresh m ?_, h.older,
    fun m s other new sc member => h.known m s other ((declared m s other).mp new) sc
      (opens sc member), fun sc member x here => (h.entries sc (opens sc member) x here).grows grows,
    h.hosts⟩
  · obtain ⟨here, scope, denotes⟩ := refers
    have here := (after m).symm.trans here
    split at here
    · obtain ⟨_, -, same⟩ := Option.map_eq_some_iff.mp here
      exact absurd same (shape other)
    · exact ⟨here, scope, denotes⟩
  · have missing := (after m).symm.trans missing
    split at missing
    · exact Option.map_eq_none_iff.mp missing
    · exact missing

/-- The host declares a name in place of what it meant, unless that is reserved. -/
theorem Tidy.host (h : b.Tidy reserved) {text : String} (free : text ∉ reserved) (kind : HostKind)
    (globals : b'.globals = b.globals.insert (b.interner.intern text).1
      (.host ⟨(b.interner.intern text).1, kind⟩))
    (interner : b'.interner = (b.interner.intern text).2) (arena : b'.arena = b.arena)
    (attrs : b'.attrs = b.attrs) (inner : b'.inner = b.inner) : b'.Tidy reserved := by
  have kept : ∀ other name, b.interner.find? other = some name →
      b'.interner.find? other = some name :=
    fun _ _ found => interner ▸ Interner.find?_intern text found
  have declared : ∀ m s other,
      (b'.naming reserved).Declared m s other ↔ (b.naming reserved).Declared m s other := by
    intro m s other
    simp only [Naming.declared_iff, naming, arena, attrs]
  have root : b'.globals.id = b.globals.id := by
    rw [globals]
    rfl
  have grows : (b.naming reserved).Grows (b'.naming reserved) :=
    ⟨fun m s other => (declared m s other).mpr, kept, root, rfl⟩
  have wf : b'.interner.WellFormed := interner ▸ h.interner.intern text
  have own : b'.interner.find? text = some (b.interner.intern text).1 :=
    interner ▸ Interner.find?_intern_self b.interner text
  refine ⟨h.toTidy.grows grows (fun m s other => (declared m s other).mp)
    (fun m s other d refers => .inl ?_) wf, fun m missing => ?_,
    fun m s here => ?_, fun m s other new sc member same => ?_, fun sc member x here => ?_,
    fun name prelude => ?_⟩
  · obtain ⟨here, scope, denotes⟩ := refers
    simp only [naming, arena, attrs] at here scope denotes
    exact ⟨here, scope, denotes⟩
  · rw [attrs]
    exact h.fresh m (arena ▸ missing)
  · rw [attrs] at here ⊢
    exact h.older m s here
  · have before := (declared m s other).mp new
    rw [inner, globals] at member
    rcases List.mem_append.mp member with inside | bottom
    · exact h.known m s other before sc (List.mem_append_left _ inside) same
    · cases List.mem_singleton.mp bottom
      exact OpenScope.isSome_find?_insert (.inr (h.known m s other before b.globals
        (List.mem_append_right _ List.mem_cons_self) same))
  · rw [inner, globals] at member
    rcases List.mem_append.mp member with inside | bottom
    · exact (h.entries sc (List.mem_append_left _ inside) x here).grows grows
    · cases List.mem_singleton.mp bottom
      rcases List.mem_cons.mp here with rfl | before
      · exact ⟨rfl, root.symm, .inr ⟨text, free, own⟩⟩
      · exact (h.entries b.globals (List.mem_append_right _ List.mem_cons_self) x before).grows grows
  · rw [globals]
    exact OpenScope.isSome_find?_insert (.inr (h.hosts name prelude))

end Builder

end Strand
