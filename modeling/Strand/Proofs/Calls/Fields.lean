import Mathlib.Data.List.Find
import Strand.Proofs.Calls.Resolution
import Strand.Proofs.Course
import Strand.Proofs.Scope.Scripts

/-!
# The types of fields

An access to a field is given a type when it is built. The builder looks for the fields of a struct by the name
of the struct, and finds those of the struct that was declared last under this name, even if the scope of that
one is closed by then. So the type of an access is the one that the last struct of the name declares, among
those before the access (`Call.field_types`). It is the type that the instances of a struct are made with as
long as no other struct of the name comes after.

All this is read off the nodes of the finished program. Nodes are numbered as they are made, and what has been
found out about a node does not change later (`Builder.Preserves`); so what the builder knew when it made a node
is what the nodes before it say (`Builder.Laid`).
-/

set_option autoImplicit false

namespace Strand

/-! ## 1. Structs and their fields -/

namespace Arena

/-- Whether a node declares a struct of a name. -/
def declaresStruct (arena : Arena) (name : Name) (n : NodeId) : Bool :=
  match arena.kind? n with
  | some (.structDecl other _) => other == name
  | _ => false

/-- The last struct of a name among the first nodes. -/
def lastStruct? (arena : Arena) (name : Name) : Nat → Option NodeId
  | 0 => none
  | count + 1 => if arena.declaresStruct name ⟨count⟩ then some ⟨count⟩ else arena.lastStruct? name count

/-- The type that a struct declares for a field: that of its first field of the name. -/
def fieldType? (arena : Arena) (attrs : Attributes) (d : NodeId) (field : Name) : Option Ty :=
  match arena.kind? d with
  | some (.structDecl _ fields) =>
    (fields.find? fun m => arena.kind? m = some (.fieldDecl field)).bind attrs.type?
  | _ => none

/-- The type that the last struct of a name, among the first nodes, declares for a field. -/
def lastFieldType (arena : Arena) (attrs : Attributes) (name : Name) (count : Nat) (field : Name) : Ty :=
  ((arena.lastStruct? name count).bind fun d => arena.fieldType? attrs d field).getD .void

variable {arena : Arena} {name : Name} {n : NodeId}

theorem declaresStruct_iff : arena.declaresStruct name n = true ↔
    ∃ fields, arena.kind? n = some (.structDecl name fields) := by
  simp only [declaresStruct]
  split
  · next other fields found => simp [found]
  · next none =>
    refine ⟨nofun, ?_⟩
    rintro ⟨fields, found⟩
    exact absurd found (none name fields)

theorem lastStruct?_eq_some {count : Nat} {d : NodeId} : arena.lastStruct? name count = some d ↔
    d.index < count ∧ arena.declaresStruct name d = true ∧
      ∀ e : NodeId, e.index < count → arena.declaresStruct name e = true → e.index ≤ d.index := by
  induction count with
  | zero => simp [lastStruct?]
  | succ count ih =>
    simp only [lastStruct?]
    split
    · next here =>
      refine ⟨?_, ?_⟩
      · rintro ⟨⟩
        exact ⟨Nat.lt_succ_self _, here, fun e earlier _ => Nat.le_of_lt_succ earlier⟩
      · rintro ⟨earlier, -, last⟩
        have later : count ≤ d.index := last ⟨count⟩ (Nat.lt_succ_self _) here
        obtain rfl : count = d.index := Nat.le_antisymm later (Nat.le_of_lt_succ earlier)
        rfl
    · next other =>
      have inside : ∀ e : NodeId, arena.declaresStruct name e = true → (e.index < count + 1 ↔ e.index < count) := by
        intro e declares
        refine ⟨fun earlier => ?_, Nat.lt_succ_of_lt⟩
        rcases Nat.lt_succ_iff_lt_or_eq.mp earlier with earlier | same
        · exact earlier
        · obtain ⟨i⟩ := e
          obtain rfl : i = count := same
          exact absurd declares other
      rw [ih]
      refine ⟨?_, ?_⟩
      · rintro ⟨earlier, declares, last⟩
        exact ⟨Nat.lt_succ_of_lt earlier, declares, fun e here there => last e ((inside e there).mp here) there⟩
      · rintro ⟨earlier, declares, last⟩
        exact ⟨(inside d declares).mp earlier, declares, fun e here there => last e (Nat.lt_succ_of_lt here) there⟩

/-- Between the structs that are there, there is a last one. -/
theorem exists_lastStruct? {count : Nat} {d : NodeId} (earlier : d.index < count)
    (declares : arena.declaresStruct name d = true) :
    ∃ d', arena.lastStruct? name count = some d' ∧ d.index ≤ d'.index := by
  cases found : arena.lastStruct? name count with
  | some d' => exact ⟨d', rfl, (lastStruct?_eq_some.mp found).2.2 d earlier declares⟩
  | none =>
    exfalso
    induction count with
    | zero => exact absurd earlier (Nat.not_lt_zero _)
    | succ count ih =>
      simp only [lastStruct?] at found
      split at found
      · cases found
      · next other =>
        rcases Nat.lt_succ_iff_lt_or_eq.mp earlier with earlier | same
        · exact ih earlier found
        · obtain ⟨i⟩ := d
          obtain rfl : i = count := same
          exact other declares

end Arena

/-! ## 2. What a builder has found out -/

def NodeKind.isFunction : NodeKind → Bool
  | funDecl _ _ _ => true
  | _ => false

namespace Builder

/-- The nodes of `b` are nodes of `b'`, and what has been found out about them is the same. A function may have
got its body. -/
structure Preserves (b b' : Builder) : Prop where
  size : b.arena.size ≤ b'.arena.size
  kind : ∀ n kind, n.index < b.arena.size → kind.isFunction = false →
    (b'.arena.kind? n = some kind ↔ b.arena.kind? n = some kind)
  type : ∀ n, n.index < b.arena.size → b'.attrs.type? n = b.attrs.type? n
  decl : ∀ n, n.index < b.arena.size → b'.attrs.decl? n = b.attrs.decl? n

/-- What is known of a node when it is made, by its kind. The nodes that it is made of are known as well, if
they are older. -/
def Fits (b : Builder) (n : NodeId) : NodeKind → Prop
  | .constructor reference => reference.index < n.index
  | .structDecl _ fields => ∀ m ∈ fields, m.index < n.index
  | .reference _ => ∀ d ty, b.attrs.decl? n = some (.node d) → b.attrs.type? d = some ty →
      b.attrs.type? n = some ty
  | .call callee _ => callee.index < n.index → ∀ reference d name fields,
      b.arena.kind? callee = some (.constructor reference) → b.attrs.decl? reference = some (.node d) →
      b.arena.kind? d = some (.structDecl name fields) → b.attrs.type? n = some (.struct name)
  | .fieldAccess stem field => stem.index < n.index → ∀ name, b.attrs.type? stem = some (.struct name) →
      b.attrs.type? n = some (b.arena.lastFieldType b.attrs name n.index field)
  | _ => True

/-- The nodes are as they were made, and the builder knows the fields of the last struct of each name. -/
structure Laid (b : Builder) : Prop where
  known : ∀ sc ∈ b.inner ++ [b.globals], ∀ x ∈ sc.names, ∀ d, x.2 = .node d → d.index < b.arena.size
  denoted : ∀ n d, b.attrs.decl? n = some (.node d) → d.index < n.index ∧ n.index < b.arena.size
  fits : ∀ n kind, b.arena.kind? n = some kind → b.Fits n kind
  fields : ∀ name field, ((b.structFields.lookup name).bind fun fields => fields.lookup field) =
    (b.arena.lastStruct? name b.arena.size).bind fun d => b.arena.fieldType? b.attrs d field

variable {b b' b'' : Builder}

theorem lt_of_kind? {n : NodeId} {kind : NodeKind} (found : b.arena.kind? n = some kind) :
    n.index < b.arena.size :=
  Arena.isSome_kind?.mp (Option.isSome_of_eq_some found)

namespace Preserves

theorem trans (first : b.Preserves b') (second : b'.Preserves b'') : b.Preserves b'' := by
  have inside : ∀ {n : NodeId}, n.index < b.arena.size → n.index < b'.arena.size :=
    fun here => Nat.lt_of_lt_of_le here first.size
  exact ⟨Nat.le_trans first.size second.size,
    fun n kind here other => (second.kind n kind (inside here) other).trans (first.kind n kind here other),
    fun n here => (second.type n (inside here)).trans (first.type n here),
    fun n here => (second.decl n (inside here)).trans (first.decl n here)⟩

theorem of_eq (arena : b'.arena = b.arena) (types : b'.attrs.types = b.attrs.types)
    (decls : b'.attrs.decls = b.attrs.decls) : b.Preserves b' := by
  refine ⟨by rw [arena], fun n kind _ _ => by rw [arena], fun n _ => ?_, fun n _ => ?_⟩
  · simp only [Attributes.type?, types]
  · simp only [Attributes.decl?, decls]

/-- A function stays a function. -/
theorem isFunction (h : b.Preserves b') {n : NodeId} {kind : NodeKind} (found : b.arena.kind? n = some kind)
    (function : kind.isFunction = true) : ∃ kind', b'.arena.kind? n = some kind' ∧ kind'.isFunction = true := by
  have here := lt_of_kind? found
  obtain ⟨kind', found'⟩ := Option.isSome_iff_exists.mp
    (Arena.isSome_kind?.mpr (Nat.lt_of_lt_of_le here h.size))
  cases same : kind'.isFunction with
  | true => exact ⟨kind', found', same⟩
  | false =>
    cases found.symm.trans ((h.kind n kind' here same).mp found')
    exact absurd function (by simp [same])

theorem declaresStruct (h : b.Preserves b') (name : Name) {n : NodeId} (here : n.index < b.arena.size) :
    b'.arena.declaresStruct name n = b.arena.declaresStruct name n := by
  rw [Bool.eq_iff_iff, Arena.declaresStruct_iff, Arena.declaresStruct_iff]
  exact exists_congr fun fields => h.kind n _ here rfl

theorem lastStruct? (h : b.Preserves b') (name : Name) {count : Nat} (here : count ≤ b.arena.size) :
    b'.arena.lastStruct? name count = b.arena.lastStruct? name count := by
  induction count with
  | zero => rfl
  | succ count ih =>
    have declares := h.declaresStruct name (n := ⟨count⟩) here
    simp only [Arena.lastStruct?, declares, ih (Nat.le_of_succ_le here)]

end Preserves

namespace Laid

variable (h : b.Laid) (preserves : b.Preserves b')

include h preserves

theorem fieldType? {d : NodeId} (here : d.index < b.arena.size) (field : Name) :
    b'.arena.fieldType? b'.attrs d field = b.arena.fieldType? b.attrs d field := by
  by_cases declares : ∃ name fields, b.arena.kind? d = some (.structDecl name fields)
  · obtain ⟨name, fields, found⟩ := declares
    have older := h.fits d _ found
    simp only [Arena.fieldType?, found, (preserves.kind d _ here rfl).mpr found]
    have inside : ∀ m ∈ fields, m.index < b.arena.size := fun m member => Nat.lt_trans (older m member) here
    have same : (fields.find? fun m => b'.arena.kind? m = some (.fieldDecl field)) =
        fields.find? fun m => b.arena.kind? m = some (.fieldDecl field) :=
      List.find?_congr fun m member => by rw [decide_eq_decide]; exact preserves.kind m _ (inside m member) rfl
    rw [same]
    cases found : fields.find? fun m => b.arena.kind? m = some (.fieldDecl field) with
    | none => rfl
    | some m => exact preserves.type m (inside m (List.mem_of_find?_eq_some found))
  · have other : ∀ b : Builder, (¬∃ name fields, b.arena.kind? d = some (.structDecl name fields)) →
        b.arena.fieldType? b.attrs d field = none := by
      intro b none
      simp only [Arena.fieldType?]
      split
      · next name fields found => exact absurd ⟨name, fields, found⟩ none
      · rfl
    rw [other b declares, other b']
    rintro ⟨name, fields, found⟩
    exact declares ⟨name, fields, (preserves.kind d _ here rfl).mp found⟩

theorem lastFieldType (name : Name) {count : Nat} (here : count ≤ b.arena.size) (field : Name) :
    b'.arena.lastFieldType b'.attrs name count field = b.arena.lastFieldType b.attrs name count field := by
  simp only [Arena.lastFieldType, preserves.lastStruct? name here]
  cases found : b.arena.lastStruct? name count with
  | none => rfl
  | some d =>
    have inside := (Arena.lastStruct?_eq_some.mp found).1
    rw [Option.bind_some, Option.bind_some, h.fieldType? preserves (Nat.lt_of_lt_of_le inside here)]

/-- What was known of a node is known of it later. -/
theorem fits_preserved {n : NodeId} {kind : NodeKind} (found : b.arena.kind? n = some kind) :
    b'.Fits n kind := by
  have here := lt_of_kind? found
  have fits := h.fits n kind found
  cases kind with
  | constructor | structDecl => exact fits
  | reference name =>
    intro d ty decl type
    rw [preserves.decl n here] at decl
    have older := Nat.lt_trans (h.denoted n d decl).1 here
    rw [preserves.type d older] at type
    rw [preserves.type n here]
    exact fits d ty decl type
  | call callee arguments =>
    intro older reference d name fields constructs decl struct
    -- the struct is older than the reference to it, and this one than the callee
    have callee' := Nat.lt_trans older here
    have constructs := (preserves.kind callee _ callee' rfl).mp constructs
    have reference' := Nat.lt_trans (h.fits callee _ constructs) callee'
    rw [preserves.decl reference reference'] at decl
    have d' := Nat.lt_trans (h.denoted reference d decl).1 reference'
    rw [preserves.type n here]
    exact fits older reference d name fields constructs decl ((preserves.kind d _ d' rfl).mp struct)
  | fieldAccess stem field =>
    intro older name type
    rw [preserves.type stem (Nat.lt_trans older here)] at type
    rw [preserves.type n here, h.lastFieldType preserves name (Nat.le_of_lt here)]
    exact fits older name type
  | _ => trivial

end Laid

end Builder

/-! ## 3. Steps of building -/

/-- Whatever the names of some scopes denote is among the first nodes. -/
def OpenScope.Older (scopes : List OpenScope) (count : Nat) : Prop :=
  ∀ sc ∈ scopes, ∀ x ∈ sc.names, ∀ d, x.2 = .node d → d.index < count

/-- A kind of nodes of which there is nothing to be known. -/
def NodeKind.isLoose : NodeKind → Bool
  | constructor _ | structDecl _ _ | reference _ | call _ _ | fieldAccess _ _ => false
  | _ => true

namespace Builder

variable {b b' : Builder}

theorem fits_of_isLoose {n : NodeId} {kind : NodeKind} (loose : kind.isLoose = true) : b.Fits n kind := by
  cases kind with
  | constructor | structDecl | reference | call | fieldAccess => cases loose
  | _ => trivial

namespace Laid

/-- A step lays out the nodes that are new. -/
theorem step (h : b.Laid) (preserves : b.Preserves b')
    (known : OpenScope.Older (b'.inner ++ [b'.globals]) b'.arena.size)
    (denoted : ∀ n d, b.arena.size ≤ n.index → b'.attrs.decl? n = some (.node d) →
      d.index < n.index ∧ n.index < b'.arena.size)
    (fits : ∀ n kind, b.arena.size ≤ n.index → b'.arena.kind? n = some kind → b'.Fits n kind)
    (fields : ∀ name field, ((b'.structFields.lookup name).bind fun fields => fields.lookup field) =
      (b'.arena.lastStruct? name b'.arena.size).bind fun d => b'.arena.fieldType? b'.attrs d field) :
    b'.Laid := by
  refine ⟨known, ?_, ?_, fields⟩
  · intro n d decl
    rcases Nat.lt_or_ge n.index b.arena.size with old | new
    · have older := h.denoted n d ((preserves.decl n old).symm.trans decl)
      exact ⟨older.1, Nat.lt_of_lt_of_le old preserves.size⟩
    · exact denoted n d new decl
  · intro n kind found
    rcases Nat.lt_or_ge n.index b.arena.size with old | new
    · cases function : kind.isFunction with
      | true =>
        cases kind with
        | funDecl => trivial
        | _ => cases function
      | false => exact h.fits_preserved preserves ((preserves.kind n kind old function).mp found)
    · exact fits n kind new found

/-- The fields that were known are those that are. -/
theorem fields_preserved (h : b.Laid) (preserves : b.Preserves b') (name field : Name) :
    ((b.structFields.lookup name).bind fun fields => fields.lookup field) =
      (b'.arena.lastStruct? name b.arena.size).bind fun d => b'.arena.fieldType? b'.attrs d field := by
  rw [h.fields, preserves.lastStruct? name (Nat.le_refl _)]
  cases found : b.arena.lastStruct? name b.arena.size with
  | none => rfl
  | some d => exact (h.fieldType? preserves (Arena.lastStruct?_eq_some.mp found).1 field).symm

/-- A step without new nodes. -/
theorem quiet (h : b.Laid) (preserves : b.Preserves b') (size : b'.arena.size = b.arena.size)
    (decls : b'.attrs.decls = b.attrs.decls)
    (known : OpenScope.Older (b'.inner ++ [b'.globals]) b.arena.size)
    (same : b'.structFields = b.structFields) : b'.Laid := by
  refine h.step preserves (size ▸ known) ?_ ?_ ?_
  · intro n d new decl
    rw [Attributes.decl?, decls] at decl
    exact absurd (h.denoted n d decl).2 (Nat.not_lt.mpr new)
  · intro n kind new found
    exact absurd (size ▸ lt_of_kind? found) (Nat.not_lt.mpr new)
  · intro name field
    rw [same, size, h.fields_preserved preserves]

/-- A step that neither the nodes nor the names notice. -/
theorem same (h : b.Laid) (arena : b'.arena = b.arena) (attrs : b'.attrs = b.attrs)
    (inner : b'.inner = b.inner) (globals : b'.globals = b.globals)
    (fields : b'.structFields = b.structFields) : b'.Laid ∧ b.Preserves b' := by
  have preserves : b.Preserves b' := .of_eq arena (by rw [attrs]) (by rw [attrs])
  refine ⟨h.quiet preserves (by rw [arena]) (by rw [attrs]) ?_ fields, preserves⟩
  rw [inner, globals]
  exact h.known

end Laid

/-- A new node, of which alone something has been found out. -/
theorem preserves_make {kind : NodeKind} (arena : b'.arena = (b.arena.alloc kind b.span).2)
    (attrs : Recording.Beside ⟨b.arena.size⟩ b.attrs b'.attrs) : b.Preserves b' := by
  have other : ∀ {n : NodeId}, n.index < b.arena.size → n ≠ ⟨b.arena.size⟩ := by
    rintro n here rfl
    exact Nat.lt_irrefl _ here
  refine ⟨?_, fun n kind' here _ => ?_, fun n here => attrs.type n (other here),
    fun n here => attrs.decl n (other here)⟩
  · rw [arena, Arena.size_alloc]
    exact Nat.le_succ _
  · rw [arena, Arena.kind?_alloc, if_neg (other here)]

namespace Laid

/-- A step that makes a node. -/
theorem make (h : b.Laid) {kind : NodeKind} (arena : b'.arena = (b.arena.alloc kind b.span).2)
    (attrs : Recording.Beside ⟨b.arena.size⟩ b.attrs b'.attrs)
    (known : OpenScope.Older (b'.inner ++ [b'.globals]) (b.arena.size + 1))
    (denoted : ∀ d, b'.attrs.decl? ⟨b.arena.size⟩ = some (.node d) → d.index < b.arena.size)
    (fits : b'.Fits ⟨b.arena.size⟩ kind)
    (fields : ∀ name field, ((b'.structFields.lookup name).bind fun fields => fields.lookup field) =
      (b'.arena.lastStruct? name (b.arena.size + 1)).bind fun d => b'.arena.fieldType? b'.attrs d field) :
    b'.Laid := by
  have size : b'.arena.size = b.arena.size + 1 := by rw [arena, Arena.size_alloc]
  have own : ∀ {n : NodeId}, b.arena.size ≤ n.index → n.index < b.arena.size + 1 → n = ⟨b.arena.size⟩ := by
    rintro ⟨i⟩ new here
    obtain rfl : i = b.arena.size := Nat.le_antisymm (Nat.le_of_lt_succ here) new
    rfl
  refine h.step (preserves_make arena attrs) (size ▸ known) ?_ ?_ (size ▸ fields)
  · intro n d new decl
    by_cases same : n = ⟨b.arena.size⟩
    · subst same
      exact ⟨denoted d decl, size ▸ Nat.lt_succ_self _⟩
    · rw [attrs.decl n same] at decl
      exact absurd (h.denoted n d decl).2 (Nat.not_lt.mpr new)
  · intro n kind' new found
    obtain rfl := own new (size ▸ lt_of_kind? found)
    rw [arena, Arena.kind?_alloc, if_pos rfl] at found
    cases found
    exact fits

/-- A step that makes a node, but no struct. -/
theorem make_other (h : b.Laid) {kind : NodeKind} (arena : b'.arena = (b.arena.alloc kind b.span).2)
    (attrs : Recording.Beside ⟨b.arena.size⟩ b.attrs b'.attrs)
    (known : OpenScope.Older (b'.inner ++ [b'.globals]) (b.arena.size + 1))
    (denoted : ∀ d, b'.attrs.decl? ⟨b.arena.size⟩ = some (.node d) → d.index < b.arena.size)
    (fits : b'.Fits ⟨b.arena.size⟩ kind) (other : kind.isStructDecl = false)
    (same : b'.structFields = b.structFields) : b'.Laid := by
  refine h.make arena attrs known denoted fits fun name field => ?_
  have new : b'.arena.declaresStruct name ⟨b.arena.size⟩ = false := by
    rw [Arena.declaresStruct, arena, Arena.kind?_alloc, if_pos rfl]
    cases kind with
    | structDecl => cases other
    | _ => rfl
  rw [same, Arena.lastStruct?, new, h.fields_preserved (preserves_make arena attrs)]
  rfl

theorem older (h : b.Laid) {count : Nat} (more : b.arena.size ≤ count) :
    OpenScope.Older (b.inner ++ [b.globals]) count :=
  fun sc member x named d denotes => Nat.lt_of_lt_of_le (h.known sc member x named d denotes) more

end Laid

/-! ## 4. Operations -/

/-- An operation that lays out what it makes, and preserves what there is. -/
def Lays {α : Type} (op : BuildM α) : Prop := ∀ b : Builder, b.Laid → (op.run b).2.Laid ∧ b.Preserves (op.run b).2

variable {α β : Type} {op : BuildM α}

theorem lays_pure (a : α) : Lays (pure a : BuildM α) := fun _ h => h.same rfl rfl rfl rfl rfl

theorem Lays.bind {next : α → BuildM β} (first : Lays op) (second : ∀ a, Lays (next a)) :
    Lays (op >>= next) := by
  intro b h
  obtain ⟨middle, preserves⟩ := first b h
  obtain ⟨after, preserves'⟩ := second (op.run b).1 _ middle
  exact ⟨after, preserves.trans preserves'⟩

theorem Lays.map {f : α → β} (h : Lays op) : Lays (f <$> op) := h

theorem lays_intern (text : String) : Lays (intern text) := fun _ h => h.same rfl rfl rfl rfl rfl

theorem lays_emit (n : NodeId) : Lays (emit n) := by
  intro b h
  obtain ⟨statements, blocks, run, -⟩ := run_emit n b
  rw [run]
  exact h.same rfl rfl rfl rfl rfl

/-- A node of a kind of which there is nothing to be known. -/
theorem Laid.make_loose (h : b.Laid) {kind : NodeKind} (arena : b'.arena = (b.arena.alloc kind b.span).2)
    (attrs : Recording.Beside ⟨b.arena.size⟩ b.attrs b'.attrs) (decls : b'.attrs.decls = b.attrs.decls)
    (known : OpenScope.Older (b'.inner ++ [b'.globals]) (b.arena.size + 1)) (loose : kind.isLoose = true)
    (same : b'.structFields = b.structFields) : b'.Laid ∧ b.Preserves b' := by
  refine ⟨h.make_other arena attrs known ?_ (fits_of_isLoose loose) ?_ same, preserves_make arena attrs⟩
  · intro d decl
    rw [Attributes.decl?, decls] at decl
    exact (h.denoted _ d decl).1
  · cases kind with
    | structDecl => cases loose
    | _ => rfl

theorem lays_alloc (kind : NodeKind) (loose : kind.isLoose = true) : Lays (alloc kind) :=
  fun _ h => h.make_loose rfl (.refl _ _) rfl (h.older (Nat.le_succ _)) loose rfl

theorem Laid.allocated (h : b.Laid) {kind : NodeKind} (ty : Ty) (loose : kind.isLoose = true) :
    (b.allocated kind ty).Laid ∧ b.Preserves (b.allocated kind ty) :=
  h.make_loose rfl ((Recording.Beside.refl _ _).setType ty) rfl (h.older (Nat.le_succ _)) loose rfl

theorem lays_expr (kind : NodeKind) (ty : Ty) (loose : kind.isLoose = true) : Lays (expr kind ty) :=
  fun _ h => h.allocated ty loose

/-! ### Expressions -/

theorem preserves_allocated (b : Builder) (kind : NodeKind) (ty : Ty) : b.Preserves (b.allocated kind ty) :=
  preserves_make rfl ((Recording.Beside.refl _ _).setType ty)

theorem type?_allocated (b : Builder) (kind : NodeKind) (ty : Ty) :
    (b.allocated kind ty).attrs.type? ⟨b.arena.size⟩ = some ty :=
  (Attributes.type?_setType ..).trans (if_pos rfl)

/-- A new node of a type. -/
theorem Laid.typed (h : b.Laid) (kind : NodeKind) (ty : Ty) (fits : (b.allocated kind ty).Fits ⟨b.arena.size⟩ kind)
    (other : kind.isStructDecl = false) : (b.allocated kind ty).Laid ∧ b.Preserves (b.allocated kind ty) := by
  refine ⟨h.make_other rfl ((Recording.Beside.refl _ _).setType ty) (h.older (Nat.le_succ _)) ?_ fits other rfl,
    b.preserves_allocated kind ty⟩
  exact fun d decl => (h.denoted _ d decl).1

/-- The declarations that are found are among the nodes. -/
theorem Laid.lt_of_resolve (h : b.Laid) {name : Name} {d : NodeId} {s : ScopeId}
    (found : b.resolve name = some (.node d, s)) : d.index < b.arena.size := by
  obtain ⟨sc, member, entry, -⟩ := mem_of_resolve found
  exact h.known sc member _ entry d rfl

theorem lays_reference (text : String) : Lays (reference text) := by
  intro b h
  obtain ⟨attrs, error, run, beside, unresolved, resolved⟩ := Recording.run_reference text b
  rw [run]
  refine ⟨?_, preserves_make rfl beside⟩
  cases found : b.resolve (b.interner.intern text).1 with
  | none =>
    obtain ⟨rfl, -⟩ := unresolved found
    have unknown : ∀ d, b.attrs.decl? ⟨b.arena.size⟩ ≠ some (.node d) :=
      fun d decl => Nat.lt_irrefl _ (h.denoted _ d decl).2
    refine h.make_other rfl beside (h.older (Nat.le_succ _)) ?_ ?_ rfl rfl
    · exact fun d decl => absurd decl (unknown d)
    · exact fun d ty decl => absurd decl (unknown d)
  | some result =>
    obtain ⟨decl, s⟩ := result
    obtain ⟨-, denoted, -, type⟩ := resolved decl s found
    refine h.make_other rfl beside (h.older (Nat.le_succ _)) ?_ ?_ rfl rfl
    · intro d decl'
      cases denoted.symm.trans decl'
      exact h.lt_of_resolve found
    · intro d ty decl' known
      cases denoted.symm.trans decl'
      have other : d ≠ ⟨b.arena.size⟩ := by
        rintro rfl
        exact Nat.lt_irrefl _ (h.lt_of_resolve found)
      exact type ty ((beside.type d other).symm.trans known)

/-- What is looked up does not change the builder, but that there may be a problem. -/
theorem lays_checkStruct (text : String) (n : NodeId) : Lays (Recording.checkStruct text n) := by
  intro b h
  simp only [Recording.checkStruct, StateT.run_bind, StateT.run_get, pure_bind]
  split <;> exact h.same rfl rfl rfl rfl rfl

theorem lays_constructor (text : String) : Lays (constructor text) := by
  rw [Recording.constructor_eq]
  intro b h
  obtain ⟨attrs, error, run, -⟩ := Recording.run_reference text b
  obtain ⟨first, preserves⟩ := lays_reference text b h
  obtain ⟨checked, preserves'⟩ := lays_checkStruct text ((reference text).run b).1 _ first
  have older : ((reference text).run b).1.index < ((reference text).run b).2.arena.size := by
    rw [run, Arena.size_alloc]
    exact Nat.lt_succ_self _
  obtain ⟨after, preserves''⟩ := checked.typed (.constructor _) .function
    (Nat.lt_of_lt_of_le older preserves'.size) rfl
  exact ⟨after, (preserves.trans preserves').trans preserves''⟩

/-- The type of a field is that of the last struct of the name. -/
theorem Laid.fieldType_eq (h : b.Laid) (preserves : b.Preserves b') (name field : Name) :
    b.fieldType (.struct name) field = b'.arena.lastFieldType b'.attrs name b.arena.size field := by
  rw [Arena.lastFieldType, ← h.fields_preserved preserves name field, fieldType]
  cases (b.structFields.lookup name).bind fun fields => fields.lookup field <;> rfl

theorem lays_field (stem : NodeId) (text : String) : Lays (field stem text) := by
  intro b h
  -- there may be a new name
  obtain ⟨h, same⟩ : Laid { b with interner := (b.interner.intern text).2 } ∧
      b.Preserves { b with interner := (b.interner.intern text).2 } := h.same rfl rfl rfl rfl rfl
  generalize named : Builder.mk _ _ _ _ _ _ _ _ _ _ _ _ _ = b₁ at h same
  have run : (field stem text).run b = (⟨b₁.arena.size⟩, b₁.allocated
      (.fieldAccess stem (b.interner.intern text).1)
      (b₁.fieldType (b₁.attrs.typeOf stem) (b.interner.intern text).1)) := by
    rw [← named]
    rfl
  rw [run]
  generalize (b.interner.intern text).1 = name
  have preserves := b₁.preserves_allocated (.fieldAccess stem name) (b₁.fieldType (b₁.attrs.typeOf stem) name)
  refine ⟨(h.typed (.fieldAccess stem name) _ ?_ rfl).1, same.trans preserves⟩
  intro older struct type
  rw [preserves.type stem older] at type
  have stem : b₁.attrs.typeOf stem = .struct struct := by rw [Attributes.typeOf, type, Option.getD_some]
  rw [← h.fieldType_eq preserves, ← stem]
  exact b₁.type?_allocated _ _

theorem lays_callWith (callee : NodeId) (arguments : List NodeId) : Lays (callWith callee arguments) := by
  intro b h
  have preserves := b.preserves_allocated (.call callee arguments) (b.callType callee)
  refine h.typed (.call callee arguments) (b.callType callee) ?_ rfl
  intro older reference d name fields constructs decl struct
  have constructs := (preserves.kind callee _ older rfl).mp constructs
  have reference' := Nat.lt_trans (h.fits callee _ constructs) older
  rw [preserves.decl reference reference'] at decl
  have d' := Nat.lt_trans (h.denoted reference d decl).1 reference'
  have struct := (preserves.kind d _ d' rfl).mp struct
  have type : b.callType callee = .struct name := by
    simp only [callType, constructs, decl, Option.bind_some, declName?, struct, NodeKind.declaredName?]
  rw [← type]
  exact b.type?_allocated _ _

theorem lays_plain (e : Plain) : Lays e.build := by
  cases e with
  | int | float | string => exact lays_expr _ _ rfl
  | paren inner => exact fun b => lays_expr (.parenthesized inner) (b.attrs.typeOf inner) rfl b
  | array elements =>
    cases elements with
    | nil => exact lays_expr _ _ rfl
    | cons first rest =>
      exact fun b => lays_expr (.arrayLiteral (first :: rest)) (.array (b.attrs.typeOf first)) rfl b
  | index stem position => exact fun b => lays_expr (.arrayAccess stem position) _ rfl b
  | field stem text => exact lays_field stem text
  | callWith callee arguments => exact lays_callWith callee arguments
  | not operand => exact lays_expr _ _ rfl
  | binary op left right => exact fun b => lays_expr (.binary op left right) _ rfl b
  | assign target value => exact fun b => lays_expr (.assignment target value) (b.attrs.typeOf target) rfl b

/-! ### Declarations -/

/-- A name is given to a node that is there. -/
theorem Laid.declare (h : b.Laid) (name : Name) {n : NodeId} (here : n.index < b.arena.size) :
    ((Builder.declare name n).run b).2.Laid ∧ b.Preserves ((Builder.declare name n).run b).2 := by
  obtain ⟨inner, globals, error, run, -, ⟨outer, before, after⟩, -⟩ := run_declare name n b
  rw [run]
  have preserves : b.Preserves { b with
      attrs := b.attrs.setScope n b.currentScope.id, inner, globals, error } := .of_eq rfl rfl rfl
  refine ⟨h.quiet preserves rfl rfl ?_ rfl, preserves⟩
  have known := h.known
  rw [before] at known
  show OpenScope.Older (inner ++ [globals]) b.arena.size
  rw [after]
  obtain ⟨first, others⟩ := List.forall_mem_cons.mp known
  refine List.forall_mem_cons.mpr ⟨List.forall_mem_cons.mpr ⟨?_, first⟩, others⟩
  rintro d ⟨⟩
  exact here

theorem lays_declaration (name : Name) (kind : NodeKind) (ty : Ty) (loose : kind.isLoose = true) :
    Lays (declaration name kind ty) := by
  intro b h
  obtain ⟨made, preserves⟩ := h.allocated ty loose
  have here : b.arena.size < (b.allocated kind ty).arena.size := by
    rw [Builder.allocated, Arena.size_alloc]
    exact Nat.lt_succ_self _
  obtain ⟨declared, preserves'⟩ := made.declare name (n := ⟨b.arena.size⟩) here
  exact ⟨declared, preserves.trans preserves'⟩

theorem lays_declareVar (text : String) (ty : Ty) (initializer : NodeId) :
    Lays (declareVar text ty initializer) := by
  rw [declareVar_eq]
  exact (lays_intern text).bind fun name => lays_declaration name _ ty rfl

theorem lays_parameters (parameters : List (String × Ty)) :
    Lays (parameters.mapM fun (name, ty) => parameter name ty) := by
  induction parameters with
  | nil => exact lays_pure []
  | cons first rest ih =>
    rw [List.mapM_cons]
    have one : Lays (parameter first.1 first.2) := by
      rw [parameter_eq]
      exact (lays_intern first.1).bind fun name => lays_declaration name _ first.2 rfl
    exact one.bind fun n => ih.bind fun others => lays_pure (n :: others)

/-! ### Blocks and functions -/

theorem lays_scopedBlock {body : BuildM Unit} (lays : Lays body) : Lays (scopedBlock body) := by
  intro b h
  rw [run_scopedBlock]
  have opens : b.Preserves b.opened := .of_eq rfl rfl rfl
  have opened : b.opened.Laid := h.quiet opens rfl rfl (List.forall_mem_cons.mpr ⟨nofun, h.known⟩) rfl
  obtain ⟨inside, preserves⟩ := lays _ opened
  have fewer : ∀ (b : Builder) (s : ScopeId), b.Laid → (b.closed s).Laid ∧ b.Preserves (b.closed s) := by
    intro b s h
    refine h.make_loose rfl ((Recording.Beside.refl _ _).setScope s) rfl ?_ rfl rfl
    intro sc member
    refine h.older (Nat.le_succ _) sc (List.mem_append.mpr ?_)
    exact (List.mem_append.mp member).imp List.mem_of_mem_tail id
  obtain ⟨after, preserves'⟩ := fewer _ ⟨b.attrs.scopeCount⟩ inside
  exact ⟨after, (opens.trans preserves).trans preserves'⟩

/-- A function that is there gets its parameters and its body. -/
theorem Laid.left (h : b.Laid) {f : NodeId} {kind : NodeKind} (found : b.arena.kind? f = some kind)
    (function : kind.isFunction = true) (kind' : NodeKind) (function' : kind'.isFunction = true) :
    (b.left f kind').Laid ∧ b.Preserves (b.left f kind') := by
  have preserves : b.Preserves (b.left f kind') := by
    -- only the node of the function changes its kind, and neither the old one nor the new is looked at
    refine ⟨Nat.le_of_eq (Arena.size_setKind ..).symm, ?_, fun _ _ => rfl, fun _ _ => rfl⟩
    intro n other here differs
    rw [show (b.left f kind').arena.kind? n = _ from Arena.kind?_setKind ..]
    split
    · next same =>
      subst same
      rw [found, Option.map_some, Option.some.injEq, Option.some.injEq]
      refine ⟨?_, ?_⟩
      · rintro rfl
        exact absurd function' (by simp [differs])
      · rintro rfl
        exact absurd function (by simp [differs])
    · rfl
  refine ⟨h.quiet preserves (Arena.size_setKind ..) rfl ?_ rfl, preserves⟩
  intro sc member
  exact h.known sc (List.mem_append.mpr ((List.mem_append.mp member).imp List.mem_of_mem_tail id))

theorem Laid.entered (h : b.Laid) (f : NodeId) : (b.entered f).Laid ∧ b.Preserves (b.entered f) := by
  have preserves : b.Preserves (b.entered f) := .of_eq rfl rfl rfl
  exact ⟨h.quiet preserves rfl rfl (List.forall_mem_cons.mpr ⟨nofun, h.known⟩) rfl, preserves⟩

/-- A function is declared, and the scope of its parameters is opened. -/
theorem Laid.started (h : b.Laid) (text : String) (returns : Ty) :
    (Recording.started text returns b).Laid ∧ b.Preserves (Recording.started text returns b) ∧
      ∃ kind, (Recording.started text returns b).arena.kind? ⟨b.arena.size⟩ = some kind ∧
        kind.isFunction = true := by
  let named : Builder := { b with interner := (b.interner.intern text).2 }
  let made := named.allocated (.funDecl (b.interner.intern text).1 [] .invalid) .function
  let known : Builder := { made with returns := (.node ⟨b.arena.size⟩, returns) :: b.returns }
  obtain ⟨h, before⟩ : named.Laid ∧ b.Preserves named := h.same rfl rfl rfl rfl rfl
  obtain ⟨h, making⟩ : made.Laid ∧ named.Preserves made := h.allocated .function rfl
  obtain ⟨h, knowing⟩ : known.Laid ∧ made.Preserves known := h.same rfl rfl rfl rfl rfl
  have found : made.arena.kind? ⟨b.arena.size⟩ = some (.funDecl (b.interner.intern text).1 [] .invalid) :=
    (Arena.kind?_alloc ..).trans (if_pos rfl)
  obtain ⟨h, declaring⟩ := h.declare (b.interner.intern text).1 (lt_of_kind? found)
  obtain ⟨h, entering⟩ := h.entered ⟨b.arena.size⟩
  have after := (knowing.trans declaring).trans entering
  exact ⟨h, (before.trans making).trans after, after.isFunction found rfl⟩

theorem lays_functionNode (text : String) (parameters : List (String × Ty)) (returns : Ty)
    {body : BuildM Unit} (lays : Lays body) : Lays (Recording.functionNode text parameters returns body) := by
  intro b h
  rw [Recording.run_functionNode]
  obtain ⟨started, preserves, kind, found, function⟩ := h.started text returns
  obtain ⟨declared, preserves'⟩ := lays_parameters parameters _ started
  obtain ⟨block, preserves''⟩ := lays_scopedBlock lays _ declared
  obtain ⟨kind, there, function⟩ := (preserves'.trans preserves'').isFunction found function
  obtain ⟨after, last⟩ := block.left there function (.funDecl _ _ _) rfl
  exact ⟨after, (preserves.trans (preserves'.trans preserves'')).trans last⟩

/-! ### Structs -/

theorem lays_fields (fields : List (String × Ty)) (h : b.Laid) :
    let made := (fields.mapM fun (field, ty) => fieldDecl field ty).run b
    made.2.Laid ∧ b.Preserves made.2 ∧ ∀ x ∈ made.1, made.2.arena.kind? x.1 = some (.fieldDecl x.2.1) ∧
      made.2.attrs.type? x.1 = some x.2.2 := by
  induction fields generalizing b with
  | nil =>
    obtain ⟨h, preserves⟩ := lays_pure (α := List (NodeId × Name × Ty)) [] b h
    exact ⟨h, preserves, nofun⟩
  | cons first rest ih =>
    rw [List.mapM_cons]
    let named : Builder := { b with interner := (b.interner.intern first.1).2 }
    let name := (b.interner.intern first.1).1
    obtain ⟨h, before⟩ : named.Laid ∧ b.Preserves named := h.same rfl rfl rfl rfl rfl
    obtain ⟨h, making⟩ : (named.allocated (.fieldDecl name) first.2).Laid ∧
        named.Preserves (named.allocated (.fieldDecl name) first.2) := h.allocated first.2 rfl
    obtain ⟨h, preserves, each⟩ := ih h
    have found : (named.allocated (.fieldDecl name) first.2).arena.kind? ⟨named.arena.size⟩ =
        some (.fieldDecl name) := (Arena.kind?_alloc ..).trans (if_pos rfl)
    refine ⟨h, (before.trans making).trans preserves, List.forall_mem_cons.mpr ⟨⟨?_, ?_⟩, each⟩⟩
    · exact (preserves.kind _ _ (lt_of_kind? found) rfl).mpr found
    · exact (preserves.type _ (lt_of_kind? found)).trans (named.type?_allocated _ _)

/-- The fields that the builder remembers have the types of the nodes. -/
theorem lookup_fields {arena : Arena} {attrs : Attributes} (field : Name) (made : List (NodeId × Name × Ty))
    (each : ∀ x ∈ made, arena.kind? x.1 = some (.fieldDecl x.2.1) ∧ attrs.type? x.1 = some x.2.2) :
    ((made.map Prod.fst).find? fun m => arena.kind? m = some (.fieldDecl field)).bind attrs.type? =
      (made.map Prod.snd).lookup field := by
  induction made with
  | nil => rfl
  | cons first rest ih =>
    obtain ⟨n, name, ty⟩ := first
    obtain ⟨⟨kind, type⟩, each⟩ := List.forall_mem_cons.mp each
    simp only [List.map_cons, List.find?_cons, List.lookup_cons, kind, Option.some.injEq, NodeKind.fieldDecl.injEq]
    by_cases same : name = field
    · subst same
      simp only [decide_true, beq_self_eq_true, Option.bind_some]
      exact type
    · have other : (field == name) = false := beq_eq_false_iff_ne.mpr (Ne.symm same)
      simp only [same, decide_false, other]
      exact ih each

/-- The fields of a new struct are those of the last one of the name. -/
theorem Laid.struct (h : b.Laid) {name : Name} {made : List (NodeId × Name × Ty)}
    (each : ∀ x ∈ made, b.arena.kind? x.1 = some (.fieldDecl x.2.1) ∧ b.attrs.type? x.1 = some x.2.2)
    (arena : b'.arena = (b.arena.alloc (.structDecl name (made.map Prod.fst)) b.span).2)
    (attrs : Recording.Beside ⟨b.arena.size⟩ b.attrs b'.attrs) (decls : b'.attrs.decls = b.attrs.decls)
    (known : OpenScope.Older (b'.inner ++ [b'.globals]) (b.arena.size + 1))
    (more : b'.structFields = (name, made.map Prod.snd) :: b.structFields) : b'.Laid ∧ b.Preserves b' := by
  have preserves := preserves_make arena attrs
  have found : b'.arena.kind? ⟨b.arena.size⟩ = some (.structDecl name (made.map Prod.fst)) := by
    rw [arena, Arena.kind?_alloc, if_pos rfl]
  refine ⟨h.make arena attrs known ?_ ?_ ?_, preserves⟩
  · intro d decl
    rw [Attributes.decl?, decls] at decl
    exact (h.denoted _ d decl).1
  · intro m member
    obtain ⟨x, here, rfl⟩ := List.mem_map.mp member
    exact lt_of_kind? (each x here).1
  · intro other field
    rw [more, List.lookup_cons, Arena.lastStruct?]
    -- the new struct hides the older ones of its name, and no others
    by_cases same : name = other
    · subst same
      have each' : ∀ x ∈ made, b'.arena.kind? x.1 = some (.fieldDecl x.2.1) ∧
          b'.attrs.type? x.1 = some x.2.2 := by
        intro x member
        obtain ⟨kind, type⟩ := each x member
        have here := lt_of_kind? kind
        exact ⟨(preserves.kind _ _ here rfl).mpr kind, (preserves.type _ here).trans type⟩
      rw [if_pos (Arena.declaresStruct_iff.mpr ⟨_, found⟩), Option.bind_some, Arena.fieldType?, found,
        beq_self_eq_true]
      exact (lookup_fields field made each').symm
    · have differs : ¬b'.arena.declaresStruct other ⟨b.arena.size⟩ = true := by
        rw [Arena.declaresStruct_iff, found]
        rintro ⟨fields, ⟨⟩⟩
        exact same rfl
      rw [if_neg differs, ← h.fields_preserved preserves, beq_eq_false_iff_ne.mpr (Ne.symm same)]

theorem lays_structNode (text : String) (fields : List (String × Ty)) :
    Lays (Recording.structNode text fields) := by
  intro b h
  let named : Builder := { b with interner := (b.interner.intern text).2 }
  let name := (b.interner.intern text).1
  obtain ⟨h, before⟩ : named.Laid ∧ b.Preserves named := h.same rfl rfl rfl rfl rfl
  have fields' := lays_fields fields h
  cases parts : (fields.mapM fun (field, ty) => fieldDecl field ty).run named with
  | mk made b₁ =>
    rw [parts] at fields'
    obtain ⟨h, preserves, each⟩ : b₁.Laid ∧ named.Preserves b₁ ∧ ∀ x ∈ made,
      b₁.arena.kind? x.1 = some (.fieldDecl x.2.1) ∧ b₁.attrs.type? x.1 = some x.2.2 := fields'
    rw [Recording.run_structNode parts]
    let allocated : Builder := { b₁.allocated (.structDecl name (made.map Prod.fst)) .type with
      returns := (.node ⟨b₁.arena.size⟩, .struct name) :: b₁.returns
      structFields := (name, made.map Prod.snd) :: b₁.structFields }
    obtain ⟨h, making⟩ : allocated.Laid ∧ b₁.Preserves allocated :=
      h.struct each rfl ((Recording.Beside.refl _ _).setType .type) rfl (h.older (Nat.le_succ _)) rfl
    have found : allocated.arena.kind? ⟨b₁.arena.size⟩ = some (.structDecl name (made.map Prod.fst)) :=
      (Arena.kind?_alloc ..).trans (if_pos rfl)
    obtain ⟨h, declaring⟩ := h.declare name (lt_of_kind? found)
    exact ⟨h, ((before.trans preserves).trans making).trans declaring⟩

/-! ## 5. Programs -/

theorem laid_blank : blank.Laid := by
  have nothing : ∀ n : NodeId, blank.arena.kind? n = none := fun n => rfl
  refine ⟨?_, nofun, ?_, fun _ _ => rfl⟩
  · intro sc member x named
    cases List.mem_singleton.mp member
    cases named
  · intro n kind found
    rw [nothing] at found
    cases found

theorem lays_host (text : String) (kind : HostKind) (ty : Ty) : Lays (host text kind ty) := by
  intro b h
  have preserves : b.Preserves ((host text kind ty).run b).2 := .of_eq rfl rfl rfl
  refine ⟨h.quiet preserves rfl rfl ?_ rfl, preserves⟩
  intro sc member x named d denotes
  rcases List.mem_append.mp member with inner | globals
  · exact h.known sc (List.mem_append_left _ inner) x named d denotes
  · cases List.mem_singleton.mp globals
    rcases List.mem_cons.mp named with rfl | old
    · cases denotes
    · exact h.known b.globals (List.mem_append_right _ (List.mem_singleton_self _)) x old d denotes

theorem laid_new : Builder.new.Laid :=
  keeps_prelude (fun text kind ty b h => (lays_host text kind ty b h).1)
    (fun b returns h => (h.same rfl rfl rfl rfl rfl : Laid { b with returns } ∧ b.Preserves { b with returns }).1)
    blank laid_blank

end Builder

open Builder

theorem Builder.lays_call (callee : String) (arguments : List NodeId) : Lays (call callee arguments) :=
  (lays_reference callee).bind fun n => lays_callWith n arguments

mutual

/-- What is called lays out what it makes. -/
theorem Call.lays : (c : Call) → Lays c.run
  | .builtin text returns => by
    rw [Call.run]
    have declared : Lays (Builder.builtin text returns) :=
      (lays_host text .function .function).bind fun decl b h => h.same rfl rfl rfl rfl rfl
    exact declared.bind fun _ => lays_pure none
  | .setSpan span => by
    rw [Call.run]
    exact fun b h => h.same rfl rfl rfl rfl rfl
  | .name text => by
    rw [Call.run]
    exact fun b h => h.same rfl rfl rfl rfl rfl
  | .plain e => by
    rw [Call.run]
    exact (lays_plain e).map
  | .reference text => by
    rw [Call.run]
    exact (lays_reference text).map
  | .boolean value => by
    rw [Call.run]
    exact (lays_reference _).map
  | .null => by
    rw [Call.run]
    exact (lays_reference "null").map
  | .constructor text => by
    rw [Call.run]
    exact (lays_constructor text).map
  | .call callee arguments => by
    rw [Call.run]
    exact (lays_call callee arguments).map
  | .expression wrapped => by
    rw [Call.run]
    exact ((lays_alloc (.expression wrapped) rfl).bind lays_emit).map
  | .set text value => by
    rw [Call.run]
    refine Lays.map ((lays_reference text).bind fun target => ?_)
    refine (lays_plain (.assign target value)).bind fun assignment => ?_
    exact (lays_alloc (.expression assignment) rfl).bind lays_emit
  | .var text ty initializer => by
    rw [Call.run]
    exact ((lays_declareVar text ty initializer).bind lays_emit).map
  | .launch callee arguments => by
    rw [Call.run]
    refine Lays.map ((lays_call callee arguments).bind fun called => ?_)
    exact (lays_expr (.launch called) .void rfl).bind lays_emit
  | .launchVar text ty callee arguments => by
    rw [Call.run]
    refine Lays.map ((lays_call callee arguments).bind fun called => ?_)
    refine (lays_declareVar text ty called).bind fun declared => ?_
    exact (lays_expr (.launchDecl declared) .void rfl).bind lays_emit
  | .ret value => by
    rw [Call.run]
    exact ((lays_alloc (.ret value) rfl).bind lays_emit).map
  | .block body => by
    rw [Call.run]
    exact ((lays_scopedBlock (Call.laysAll body).map).bind lays_emit).map
  | .protect body => by
    rw [Call.run]
    refine Lays.map ((lays_scopedBlock (Call.laysAll body).map).bind fun block => ?_)
    exact (lays_alloc (.protect block) rfl).bind lays_emit
  | .ifThen condition thenBranch => by
    rw [Call.run]
    refine Lays.map ((lays_scopedBlock (Call.laysAll thenBranch).map).bind fun block => ?_)
    exact (lays_alloc (.conditional condition block none) rfl).bind lays_emit
  | .ifElse condition thenBranch elseBranch => by
    rw [Call.run]
    refine Lays.map ((lays_scopedBlock (Call.laysAll thenBranch).map).bind fun block => ?_)
    refine (lays_scopedBlock (Call.laysAll elseBranch).map).bind fun block' => ?_
    exact (lays_alloc (.conditional condition block (some block')) rfl).bind lays_emit
  | .whileLoop condition body => by
    rw [Call.run]
    refine Lays.map ((lays_scopedBlock (Call.laysAll body).map).bind fun block => ?_)
    exact (lays_alloc (.loop condition block) rfl).bind lays_emit
  | .function text parameters returns body => by
    rw [Call.run]
    have runs : Lays (discard (runAll body)) := (Call.laysAll body).map
    exact ((lays_functionNode text parameters returns runs).bind lays_emit).map
  | .struct text fields => by
    rw [Call.run]
    exact ((lays_structNode text fields).bind lays_emit).map

theorem Call.laysAll : (calls : List Call) → Lays (Call.runAll calls)
  | [] => by
    rw [Call.runAll]
    exact lays_pure []
  | first :: rest => by
    rw [Call.runAll]
    exact (Call.lays first).bind fun result => (Call.laysAll rest).bind fun results => lays_pure _

end

theorem Call.laid_built (calls : List Call) : (Call.built calls).Laid :=
  (Call.laysAll calls Builder.new laid_new).1

/-! ## 6. Instances -/

namespace Program

variable {p : Program} {d n : NodeId} {name field : Name} {ty : Ty}

/-- A node stands for an instance of a struct: it calls the constructor, or it refers to something that was
declared with the type of the struct. -/
inductive StandsFor (p : Program) (d : NodeId) (name : Name) : NodeId → Prop
  | call {n callee reference : NodeId} {arguments : List NodeId}
      (calls : p.arena.kind? n = some (.call callee arguments)) (older : callee.index < n.index)
      (constructs : p.arena.kind? callee = some (.constructor reference))
      (denotes : p.attrs.decl? reference = some (.node d)) : StandsFor p d name n
  | reference {n v : NodeId} {text : Name} (refers : p.arena.kind? n = some (.reference text))
      (denotes : p.attrs.decl? n = some (.node v)) (declared : p.attrs.type? v = some (.struct name)) :
      StandsFor p d name n

theorem instanceFields_lookup {fields : List NodeId} {values : List Value} {entries : List (Name × Value)}
    (makes : p.instanceFields fields values = .ok entries) {v : Value} (found : entries.lookup field = some v) :
    ∃ m, (fields.find? fun m => p.arena.kind? m = some (.fieldDecl field)) = some m ∧
      ∃ w ∈ values, v = w.widen (p.typeOf m) := by
  induction fields generalizing values entries with
  | nil =>
    cases makes
    cases found
  | cons first rest ih =>
    cases values with
    | nil =>
      cases makes
      cases found
    | cons value others =>
      obtain ⟨kind, read, makes⟩ := of_bind_eq_ok makes
      have read := kind_eq_ok.mp read
      rw [List.find?_cons]
      by_cases here : kind = .fieldDecl field
      · subst here
        obtain ⟨later, -, same⟩ := of_bind_eq_ok makes
        cases same
        rw [List.lookup_cons, beq_self_eq_true] at found
        cases found
        exact ⟨first, by simp only [read, decide_true], value, List.mem_cons_self, rfl⟩
      · have skipped : decide (p.arena.kind? first = some (.fieldDecl field)) = false := by
          rw [read, decide_eq_false_iff_not, Option.some.injEq]
          exact here
        have others' : ∃ entries, p.instanceFields rest others = .ok entries ∧ entries.lookup field = some v := by
          cases kind with
          | fieldDecl other =>
            obtain ⟨later, made, same⟩ := of_bind_eq_ok makes
            cases same
            have differs : (field == other) = false :=
              beq_eq_false_iff_ne.mpr fun same => here (congrArg NodeKind.fieldDecl same.symm)
            rw [List.lookup_cons, differs] at found
            exact ⟨later, made, found⟩
          | _ => exact ⟨entries, makes, found⟩
        obtain ⟨later, made, found⟩ := others'
        obtain ⟨m, first', w, member, same⟩ := ih made found
        exact ⟨m, by rw [skipped]; exact first', w, List.mem_cons_of_mem _ member, same⟩

/-- The fields of a new instance have the types that its struct declares. -/
theorem instantiate_lookup {values : List Value} {record : Record} (makes : p.instantiate d values = .ok record)
    {v : Value} (found : record.fields.lookup field = some v)
    (declares : p.arena.fieldType? p.attrs d field = some ty) : ∃ w ∈ values, v = w.widen ty := by
  obtain ⟨kind, read, makes⟩ := of_bind_eq_ok makes
  have read := kind_eq_ok.mp (Abort.ofRead_eq_ok.mp read)
  cases kind with
  | structDecl name fields =>
    dsimp only at makes
    split at makes
    · cases makes
    · obtain ⟨entries, made, same⟩ := of_bind_eq_ok makes
      cases same
      obtain ⟨m, first, w, member, same⟩ := instanceFields_lookup (Abort.ofRead_eq_ok.mp made) found
      simp only [Arena.fieldType?, read, first, Option.bind_some] at declares
      refine ⟨w, member, ?_⟩
      rw [same, typeOf, Attributes.typeOf, declares, Option.getD_some]
  | _ => cases makes

end Program

namespace Builder

variable {b : Builder}

theorem Laid.rooted (h : b.Laid) : b.rooted.Laid := by
  have made : b.rooted.Laid ∧ b.Preserves b.rooted :=
    h.make_loose rfl ((Recording.Beside.refl _ _).setScope _) rfl (h.older (Nat.le_succ _)) rfl rfl
  exact made.1

/-- What stands for an instance of a struct has the type of its name. -/
theorem type_standsFor (h : b.rooted.Laid) {d n : NodeId} {name : Name}
    (struct : b.program.arena.declaresStruct name d = true) (stands : b.program.StandsFor d name n) :
    b.program.attrs.type? n = some (.struct name) := by
  cases stands with
  | call calls older constructs denotes =>
    obtain ⟨fields, declares⟩ := Arena.declaresStruct_iff.mp struct
    exact h.fits _ _ calls older _ _ _ _ constructs denotes declares
  | reference refers denotes declared => exact h.fits _ _ refers _ _ denotes declared

end Builder

/-- An access to a field of an instance has the type that the last struct of the name before it declares. If no
struct of the name was declared in between, this is the type that the values of the field are widened to when
instances are made. -/
theorem Call.field_types (calls : List Call) {d n stem : NodeId} {name field : Name} :
    let p := (Call.built calls).program
    p.arena.declaresStruct name d = true → d.index < n.index →
    p.arena.kind? n = some (.fieldAccess stem field) → stem.index < n.index → p.StandsFor d name stem →
    ∃ d', p.arena.lastStruct? name n.index = some d' ∧ d.index ≤ d'.index ∧
      p.attrs.type? n = some ((p.arena.fieldType? p.attrs d' field).getD .void) ∧
      ∀ ty, p.arena.fieldType? p.attrs d field = some ty →
        ((∀ e : NodeId, p.arena.declaresStruct name e = true → e.index < n.index → e.index ≤ d.index) →
          p.attrs.type? n = some ty) ∧
        ∀ values record v, p.instantiate d values = .ok record → record.fields.lookup field = some v →
          ∃ w ∈ values, v = w.widen ty := by
  intro p struct before access older stands
  have h : (Call.built calls).rooted.Laid := (Call.laid_built calls).rooted
  obtain ⟨d', last, later⟩ := Arena.exists_lastStruct? before struct
  have type : p.attrs.type? n = some (p.arena.lastFieldType p.attrs name n.index field) :=
    h.fits n _ access older name (type_standsFor h struct stands)
  rw [Arena.lastFieldType, last, Option.bind_some] at type
  refine ⟨d', last, later, type, fun ty declares => ⟨fun none => ?_, fun values record v makes found => ?_⟩⟩
  · have same : d = d' := by
      obtain ⟨earlier, declares', -⟩ := Arena.lastStruct?_eq_some.mp last
      obtain ⟨i⟩ := d
      obtain ⟨j⟩ := d'
      exact congrArg NodeId.mk (Nat.le_antisymm later (none ⟨j⟩ declares' earlier))
    rw [type, ← same, declares]
    rfl
  · exact Program.instantiate_lookup makes found declares

/-- Before there is another struct of the name, the field of an instance has the type that it was made with. -/
theorem Call.field_types_alone :
    let p := (Call.built [.struct "S" [("x", .float)], .plain (.int 1), .constructor "S",
      .plain (.callWith ⟨4⟩ [⟨2⟩]), .plain (.field ⟨5⟩ "x")]).program
    p.arena.declaresStruct ⟨12⟩ ⟨1⟩ = true ∧ p.arena.kind? ⟨6⟩ = some (.fieldAccess ⟨5⟩ ⟨13⟩) ∧
      p.StandsFor ⟨1⟩ ⟨12⟩ ⟨5⟩ ∧ p.arena.fieldType? p.attrs ⟨1⟩ ⟨13⟩ = some .float ∧
      p.attrs.type? ⟨6⟩ = some .float := by
  intro p
  have struct : p.arena.declaresStruct ⟨12⟩ ⟨1⟩ = true := by decide +kernel
  have access : p.arena.kind? ⟨6⟩ = some (.fieldAccess ⟨5⟩ ⟨13⟩) := by decide +kernel
  have calls : p.arena.kind? ⟨5⟩ = some (.call ⟨4⟩ [⟨2⟩]) := by decide +kernel
  have constructs : p.arena.kind? ⟨4⟩ = some (.constructor ⟨3⟩) := by decide +kernel
  have stands : p.StandsFor ⟨1⟩ ⟨12⟩ ⟨5⟩ := .call calls (by decide) constructs (by decide +kernel)
  have declares : p.arena.fieldType? p.attrs ⟨1⟩ ⟨13⟩ = some .float := by decide +kernel
  obtain ⟨d', last, -, type, -⟩ := Call.field_types _ struct (by decide) access (by decide) stands
  have same : p.arena.lastStruct? ⟨12⟩ 6 = some ⟨1⟩ := by decide +kernel
  cases last.symm.trans same
  exact ⟨struct, access, stands, declares, by rw [type, declares]; rfl⟩

/-- The field of an instance does not keep its type when a block declares another struct of the name. -/
theorem Call.field_types_lost : ¬∀ (calls : List Call) (d n stem : NodeId) (name field : Name) (ty : Ty),
    let p := (Call.built calls).program
    p.arena.declaresStruct name d = true → d.index < n.index →
    p.arena.kind? n = some (.fieldAccess stem field) → stem.index < n.index → p.StandsFor d name stem →
    p.arena.fieldType? p.attrs d field = some ty → p.attrs.type? n = some ty := by
  intro keeps
  let calls : List Call := [.struct "S" [("x", .float)], .plain (.int 1), .constructor "S",
    .plain (.callWith ⟨4⟩ [⟨2⟩]), .block [.struct "S" [("x", .int)]], .plain (.field ⟨5⟩ "x")]
  let p := (Call.built calls).program
  have called : p.arena.kind? ⟨5⟩ = some (.call ⟨4⟩ [⟨2⟩]) := by decide +kernel
  have constructs : p.arena.kind? ⟨4⟩ = some (.constructor ⟨3⟩) := by decide +kernel
  have stands : p.StandsFor ⟨1⟩ ⟨12⟩ ⟨5⟩ := .call called (by decide) constructs (by decide +kernel)
  have kept : p.attrs.type? ⟨9⟩ = some .float := keeps calls ⟨1⟩ ⟨9⟩ ⟨5⟩ ⟨12⟩ ⟨13⟩ .float (by decide +kernel)
    (by decide) (by decide +kernel) (by decide) stands (by decide +kernel)
  have changed : p.attrs.type? ⟨9⟩ = some .int := by decide +kernel
  cases kept.symm.trans changed

end Strand
