import Mathlib.Data.List.Nodup
import Strand.Proofs.Calls.Resolution

/-!
# Well-formed programs

Whoever calls the builder with nodes that it has returned before gets a tree: the nodes are completed one
after the other, and the children of a node before the node (`Ordered`). The number of a node is no such
order, since a function has its number before its body. Every statement is in the list of one block, the
innermost one around its call.
-/

set_option autoImplicit false

namespace Strand

/-! ## 1. The order of completion -/

namespace Event

/-- The nodes that the builder is called with. -/
def arguments : Event → List NodeId
  | call arguments => arguments
  | _ => []

/-- The node that the builder returns. -/
def returned? : Event → Option NodeId
  | returned n => some n
  | _ => none

theorem returned?_eq_some {e : Event} {n : NodeId} : e.returned? = some n ↔ returned n = e := by
  cases e <;> simp [returned?, eq_comm]

end Event

/-- All nodes that the builder is called with have been returned before. -/
def Sound (events : List Event) : Prop :=
  ∀ before e, Happens events before e → ∀ n ∈ e.arguments, .returned n ∈ before

/-- Whether the nodes that the builder is called with have been returned by then, also before these events. -/
def soundAfter (returned : List NodeId) : List Event → Bool
  | [] => true
  | e :: events =>
    e.arguments.all returned.contains && soundAfter (e.returned?.toList ++ returned) events

theorem soundAfter_iff {returned : List NodeId} {events : List Event} :
    soundAfter returned events = true ↔ ∀ before e, Happens events before e →
      ∀ n ∈ e.arguments, n ∈ returned ∨ .returned n ∈ before := by
  induction events generalizing returned with
  | nil =>
    refine ⟨?_, fun _ => rfl⟩
    intro _ before e happens
    cases happens.mem
  | cons first events ih =>
    simp only [soundAfter, Bool.and_eq_true, List.all_eq_true, List.contains_iff_mem, ih, happens_cons,
      List.mem_append, Option.mem_toList, Event.returned?_eq_some]
    constructor
    · rintro ⟨here, later⟩ before e (⟨rfl, rfl⟩ | ⟨rest, rfl, happens⟩) n member
      · exact .inl (here n member)
      · rcases later rest e happens n member with (now | old) | between
        · exact .inr (now ▸ List.mem_cons_self)
        · exact .inl old
        · exact .inr (List.mem_cons_of_mem _ between)
    · intro all
      refine ⟨?_, ?_⟩
      · intro n member
        exact (all [] first (.inl ⟨rfl, rfl⟩) n member).resolve_right List.not_mem_nil
      · intro rest e happens n member
        rcases all (first :: rest) e (.inr ⟨rest, rfl, happens⟩) n member with old | inside
        · exact .inl (.inr old)
        · rcases List.mem_cons.mp inside with now | between
          · exact .inl (.inl now)
          · exact .inr between

instance (events : List Event) : Decidable (Sound events) :=
  decidable_of_iff (soundAfter [] events = true) (by simp [soundAfter_iff, Sound])

/-- A node has got its children. -/
def Complete (events : List Event) (n : NodeId) : Prop :=
  ∃ e ∈ events, ∃ children, e.completed? = some (n, children)

/-- The children of a node have theirs before the node, and so have the nodes that are returned or that go to
a block. -/
structure Ordered (events : List Event) : Prop where
  children : ∀ before e n children, Happens events before e → e.completed? = some (n, children) →
    ∀ c ∈ children, Complete before c
  returned : ∀ n, .returned n ∈ events → Complete events n
  statement : ∀ s n, .statement s n ∈ events → Complete events n

theorem Complete.mono {events events' : List Event} {n : NodeId} (h : Complete events n)
    (more : events ⊆ events') : Complete events' n := by
  obtain ⟨e, member, rest⟩ := h
  exact ⟨e, more member, rest⟩

theorem Sound.of_prefix {events events' : List Event} (h : Sound events') (more : events <+: events') :
    Sound events :=
  fun before e happens => h before e (happens.trans more)

/-- One more event, after those that it needs. -/
theorem Ordered.concat {events : List Event} (h : Ordered events) (e : Event)
    (children : ∀ n children, e.completed? = some (n, children) → ∀ c ∈ children, Complete events c)
    (returned : ∀ n, e = .returned n → Complete events n)
    (statement : ∀ s n, e = .statement s n → Complete events n) : Ordered (events ++ [e]) := by
  have more : events ⊆ events ++ [e] := List.subset_append_left _ _
  refine ⟨?_, ?_, ?_⟩
  · intro before other n cs happens completes
    rcases happens_concat.mp happens with ⟨rfl, rfl⟩ | earlier
    · exact children n cs completes
    · exact h.children before other n cs earlier completes
  · intro n member
    rcases List.mem_append.mp member with before | new
    · exact (h.returned n before).mono more
    · exact (returned n (List.mem_singleton.mp new).symm).mono more
  · intro s n member
    rcases List.mem_append.mp member with before | new
    · exact (h.statement s n before).mono more
    · exact (statement s n (List.mem_singleton.mp new).symm).mono more

namespace Recording

/-- A recording keeps the order if the nodes that it uses are complete before it, and its results are complete
after it. -/
structure Orders {α : Type} (uses : List NodeId) (spec : Recording α) (results : α → List NodeId) :
    Prop where
  grows : ∀ events, events <+: (spec.run events).2
  ordered : ∀ events, Ordered events → (∀ n ∈ uses, Complete events n) →
    Sound (spec.run events).2 → Ordered (spec.run events).2 ∧
      ∀ n ∈ results (spec.run events).1, Complete (spec.run events).2 n

section

variable {α β : Type} {uses : List NodeId} {spec : Recording α} {results : α → List NodeId}

theorem orders_pure (a : α) (h : ∀ n ∈ results a, n ∈ uses) : Orders uses (pure a) results :=
  ⟨fun _ => List.prefix_rfl, fun _ ordered complete _ => ⟨ordered, fun n member => complete n (h n member)⟩⟩

theorem Orders.bind {next : α → Recording β} {results' : β → List NodeId}
    (first : Orders uses spec results) (second : ∀ a, Orders (results a ++ uses) (next a) results') :
    Orders uses (spec >>= next) results' := by
  refine ⟨fun events => (first.grows events).trans ((second _).grows _), ?_⟩
  intro events ordered complete sound
  have later := (second (spec.run events).1).grows (spec.run events).2
  obtain ⟨ordered', complete'⟩ := first.ordered events ordered complete (sound.of_prefix later)
  refine (second _).ordered _ ordered' ?_ sound
  intro n member
  rcases List.mem_append.mp member with new | old
  · exact complete' n new
  · exact (complete n old).mono (first.grows events).subset

theorem Orders.mono (h : Orders uses spec results) {uses' : List NodeId} (more : uses ⊆ uses') :
    Orders uses' spec results :=
  ⟨h.grows, fun events ordered complete => h.ordered events ordered fun n member => complete n (more member)⟩

end

variable {uses : List NodeId} {place : Position}

/-- An event that completes no node. -/
theorem orders_add (e : Event) (completes : e.completed? = none) (returned : ∀ n, e = .returned n → n ∈ uses)
    (statement : ∀ s n, e = .statement s n → n ∈ uses) : Orders uses (add e) fun _ => [] := by
  refine ⟨fun _ => List.prefix_append _ _, fun events ordered complete _ => ⟨?_, nofun⟩⟩
  refine ordered.concat e ?_ (fun n same => complete n (returned n same))
    fun s n same => complete n (statement s n same)
  intro n children same
  rw [completes] at same
  cases same

/-- A new node, with children that are complete. -/
theorem orders_make (e : NodeId → Event) (children : List NodeId)
    (completes : ∀ n, (e n).completed? = some (n, children)) (known : ∀ n ∈ children, n ∈ uses) :
    Orders uses (make e) fun n => [n] := by
  refine ⟨fun _ => List.prefix_append _ _, fun events ordered complete _ => ⟨?_, ?_⟩⟩
  · refine ordered.concat (e ⟨nodesIn events⟩) ?_ ?_ ?_
    · intro n cs same c member
      rw [completes] at same
      cases same
      exact complete c (known c member)
    · intro n same
      have none := completes ⟨nodesIn events⟩
      rw [same] at none
      cases none
    · intro s n same
      have none := completes ⟨nodesIn events⟩
      rw [same] at none
      cases none
  · intro n member
    rw [List.mem_singleton.mp member]
    exact ⟨_, List.mem_append_right _ (List.mem_singleton_self _), children, completes _⟩

theorem orders_node (children : List NodeId) (known : ∀ n ∈ children, n ∈ uses) :
    Orders uses (node children) fun n => [n] := orders_make _ children (fun _ => rfl) known

theorem orders_reference (text : String) : Orders uses (place.reference text) fun n => [n] :=
  orders_make _ [] (fun _ => rfl) nofun

theorem orders_declaration (text : String) (isStruct : Bool) (children : List NodeId)
    (known : ∀ n ∈ children, n ∈ uses) :
    Orders uses (place.declaration text isStruct children) fun n => [n] :=
  orders_make _ children (fun _ => rfl) known

theorem orders_call (callee : String) (arguments : List NodeId) (known : ∀ n ∈ arguments, n ∈ uses) :
    Orders uses (place.call callee arguments) fun n => [n] := by
  refine (orders_reference callee).bind fun target => orders_node _ ?_
  simpa using fun n member => .inr (known n member)

/-- A statement goes to a block when it is complete. -/
theorem Orders.statement {spec : Recording NodeId} (h : Orders uses spec fun n => [n]) :
    Orders uses (spec >>= place.statement) fun n => [n] := by
  refine h.bind fun n => ?_
  refine (orders_add (.statement place.block n) rfl nofun ?_).bind fun _ => orders_pure n (by simp)
  rintro s m ⟨⟩
  exact List.mem_append_left _ (List.mem_singleton_self n)

/-- The nodes that the builder is called with are complete, and so is the one that it returns. -/
theorem Orders.returning {arguments : List NodeId} {spec : Recording NodeId}
    (h : Orders arguments spec fun n => [n]) : Orders [] (returning arguments spec) fun _ => [] := by
  have called : Orders [] (add (.call arguments)) fun _ => arguments := by
    refine ⟨fun _ => List.prefix_append _ _, fun events ordered complete sound => ?_⟩
    have added : Orders [] (add (.call arguments)) fun _ => [] := orders_add _ rfl nofun nofun
    refine ⟨(added.ordered events ordered nofun sound).1, ?_⟩
    intro n member
    exact (ordered.returned n (sound events (.call arguments) List.prefix_rfl n member)).mono
      (List.subset_append_left _ _)
  refine called.bind fun _ => (h.mono (List.subset_append_left _ _)).bind fun n => ?_
  refine (orders_add (.returned n) rfl ?_ nofun).bind fun _ => orders_pure _ nofun
  rintro m ⟨⟩
  exact List.mem_append_left _ (List.mem_singleton_self n)

theorem orders_openScope (outside : ScopeId) : Orders uses (openScope outside) fun _ => [] := by
  refine ⟨fun _ => List.prefix_append _ _, fun events ordered complete sound => ?_⟩
  have added : Orders uses (add (.scope ⟨scopesIn events⟩ outside)) fun _ => [] :=
    orders_add _ rfl nofun nofun
  exact ⟨(added.ordered events ordered complete sound).1, nofun⟩

theorem mem_statementsAt {events : List Event} {s : ScopeId} {n : NodeId} :
    n ∈ statementsAt events s ↔ .statement s n ∈ events := by
  rw [statementsAt, List.mem_filterMap]
  constructor
  · rintro ⟨e, member, same⟩
    cases e with
    | statement s' n' =>
      simp only [Event.statement?] at same
      split at same
      · next is =>
        cases same
        exact is ▸ member
      · cases same
    | _ => cases same
  · intro member
    exact ⟨_, member, if_pos rfl⟩

/-- A block is complete after its statements. -/
theorem orders_inBlock {body : Position → Recording Unit}
    (h : ∀ place, Orders uses (body place) fun _ => []) :
    Orders uses (place.inBlock body) fun n => [n] := by
  refine (orders_openScope _).bind fun s => (h _).bind fun _ => ?_
  refine ⟨fun _ => List.prefix_append _ _, fun events ordered _ sound => ?_⟩
  have closes : Orders (statementsAt events s) (make (.block · s (statementsAt events s))) fun n => [n] :=
    orders_make _ _ (fun _ => rfl) fun _ => id
  refine closes.ordered events ordered ?_ sound
  intro n member
  exact ordered.statement s n (mem_statementsAt.mp member)

/-- Several nodes are made one after the other. -/
theorem orders_mapM {α : Type} {f : α → Recording NodeId} (l : List α)
    (h : ∀ a, ∀ uses, Orders uses (f a) fun n => [n]) : Orders uses (l.mapM f) id := by
  induction l generalizing uses with
  | nil => exact orders_pure [] nofun
  | cons first rest ih =>
    rw [List.mapM_cons]
    refine (h first uses).bind fun n => ih.bind fun others => orders_pure _ ?_
    intro m member
    rcases List.mem_cons.mp member with rfl | other
    · exact List.mem_append_right _ List.mem_cons_self
    · exact List.mem_append_left _ other

/-- A function is complete after its parameters and its body. -/
theorem orders_function {body : Position → Recording Unit} (text : String)
    (parameters : List (String × Ty)) (h : ∀ place uses, Orders uses (body place) fun _ => []) :
    Orders uses (place.function text parameters body) fun n => [n] := by
  have declares : Orders uses (make (.function · place.here text)) fun _ => [] := by
    refine ⟨fun _ => List.prefix_append _ _, fun events ordered complete sound => ?_⟩
    have added : Orders uses (add (.function ⟨nodesIn events⟩ place.here text)) fun _ => [] :=
      orders_add _ rfl nofun nofun
    exact ⟨(added.ordered events ordered complete sound).1, nofun⟩
  refine declares.bind fun f => (orders_openScope _).bind fun s => ?_
  refine (orders_add (.parameters f s) rfl nofun nofun).bind fun _ => ?_
  refine (orders_mapM parameters fun parameter uses => orders_declaration _ _ [] nofun).bind
    fun declared => (orders_inBlock fun place => h place _).bind fun block => ?_
  have finishes : Orders ([block] ++ (id declared ++ ([] ++ ([] ++ ([] ++ uses)))))
      (add (.finished f declared block)) fun _ => [f] := by
    refine ⟨fun _ => List.prefix_append _ _, fun events ordered complete sound => ⟨?_, ?_⟩⟩
    · refine ordered.concat _ ?_ nofun nofun
      rintro n children ⟨⟩ c member
      apply complete
      rcases List.mem_append.mp member with parameter | body
      · exact List.mem_append_right _ (List.mem_append_left _ parameter)
      · exact List.mem_append_left _ body
    · intro n member
      rw [List.mem_singleton.mp member]
      exact ⟨_, List.mem_append_right _ (List.mem_singleton_self _), _, rfl⟩
  exact finishes.bind fun _ => orders_pure f fun n member => List.mem_append_left _ member

theorem orders_struct (text : String) (fields : List (String × Ty)) :
    Orders uses (place.struct text fields) fun n => [n] := by
  refine (orders_mapM fields fun _ uses => orders_node [] nofun).bind fun parts => ?_
  exact orders_declaration text true parts fun n member => List.mem_append_left _ member

/-- A body is made by calls. -/
theorem orders_body {body : List Call}
    (h : ∀ place, Orders [] (Call.recordAll place body) fun _ => []) :
    Orders uses (place.inBlock fun place => discard (Call.recordAll place body)) fun n => [n] := by
  refine orders_inBlock fun place => ?_
  have all : Orders uses _ _ := (h place).mono (List.nil_subset _)
  refine all.bind fun _ => orders_pure _ ?_
  nofun

end Recording

open Recording in
mutual

/-- A call keeps the order if it is sound. -/
theorem Call.orders (place : Position) : (c : Call) → Orders [] (c.record place) fun _ => []
  | .builtin text returns => by
    rw [Call.record]
    exact (orders_add (.host text .function) rfl nofun nofun).bind fun _ => orders_pure _ nofun
  | .setSpan span => by
    rw [Call.record]
    exact orders_pure _ nofun
  | .name text => by
    rw [Call.record]
    exact orders_pure _ nofun
  | .plain e => by
    rw [Call.record]
    exact (orders_node e.operands fun _ => id).returning
  | .reference text => by
    rw [Call.record]
    exact (orders_reference text).returning
  | .boolean value => by
    rw [Call.record]
    exact (orders_reference _).returning
  | .null => by
    rw [Call.record]
    exact (orders_reference "null").returning
  | .constructor text => by
    rw [Call.record]
    refine Orders.returning ((orders_reference text).bind fun callee => ?_)
    refine (orders_add (.constructor place.path text) rfl nofun nofun).bind fun _ => ?_
    exact orders_node [callee] (by simp)
  | .call callee arguments => by
    rw [Call.record]
    exact (orders_call callee arguments fun _ => id).returning
  | .expression inner => by
    rw [Call.record]
    exact (orders_node [inner] fun _ => id).statement.returning
  | .set text value => by
    rw [Call.record]
    refine Orders.returning ((orders_reference text).bind fun target => ?_)
    refine (orders_node [target, value] (by simp)).bind fun assignment => ?_
    exact (orders_node [assignment] (by simp)).statement
  | .var text ty initializer => by
    rw [Call.record]
    exact (orders_declaration text false [initializer] fun _ => id).statement.returning
  | .launch callee arguments => by
    rw [Call.record]
    refine Orders.returning ((orders_call callee arguments fun _ => id).bind fun called => ?_)
    exact (orders_node [called] (by simp)).statement
  | .launchVar text ty callee arguments => by
    rw [Call.record]
    refine Orders.returning ((orders_call callee arguments fun _ => id).bind fun called => ?_)
    refine (orders_declaration text false [called] (by simp)).bind fun declared => ?_
    exact (orders_node [declared] (by simp)).statement
  | .ret value => by
    rw [Call.record]
    exact (orders_node value.toList fun _ => id).statement.returning
  | .block body => by
    rw [Call.record]
    exact (orders_body fun place => Call.ordersAll place body).statement.returning
  | .protect body => by
    rw [Call.record]
    refine Orders.returning ((orders_body fun place => Call.ordersAll place body).bind fun block => ?_)
    exact (orders_node [block] (by simp)).statement
  | .ifThen condition thenBranch => by
    rw [Call.record]
    refine Orders.returning ((orders_body fun place => Call.ordersAll place thenBranch).bind fun block => ?_)
    exact (orders_node [condition, block] (by simp)).statement
  | .ifElse condition thenBranch elseBranch => by
    rw [Call.record]
    refine Orders.returning ((orders_body fun place => Call.ordersAll place thenBranch).bind fun block => ?_)
    refine (orders_body fun place => Call.ordersAll place elseBranch).bind fun block' => ?_
    exact (orders_node [condition, block, block'] (by simp)).statement
  | .whileLoop condition body => by
    rw [Call.record]
    refine Orders.returning ((orders_body fun place => Call.ordersAll place body).bind fun block => ?_)
    exact (orders_node [condition, block] (by simp)).statement
  | .function text parameters returns body => by
    rw [Call.record]
    refine Orders.returning (orders_function text parameters fun place uses => ?_).statement
    have all : Orders uses _ _ := (Call.ordersAll place body).mono (List.nil_subset _)
    refine all.bind fun _ => orders_pure _ ?_
    nofun
  | .struct text fields => by
    rw [Call.record]
    exact (orders_struct text fields).statement.returning

/-- Sound calls keep the order. -/
theorem Call.ordersAll (place : Position) :
    (calls : List Call) → Orders [] (Call.recordAll place calls) fun _ => []
  | [] => by
    rw [Call.recordAll]
    exact orders_pure _ nofun
  | first :: rest => by
    rw [Call.recordAll]
    exact (Call.orders place first).bind fun _ => (Call.ordersAll place rest).bind fun _ =>
      orders_pure _ nofun

end

/-! ## 2. Ranks -/

theorem ordered_prelude : Ordered preludeEvents := by
  have hosts : ∀ e ∈ preludeEvents, ∃ text kind, e = .host text kind := by
    simp [preludeEvents]
  refine ⟨?_, ?_, ?_⟩
  · intro before e n children happens completes
    obtain ⟨text, kind, rfl⟩ := hosts e happens.mem
    cases completes
  · intro n member
    obtain ⟨text, kind, same⟩ := hosts _ member
    cases same
  · intro s n member
    obtain ⟨text, kind, same⟩ := hosts _ member
    cases same

/-- The position of the event that completes a node. -/
def rank (events : List Event) (n : NodeId) : Nat :=
  events.findIdx fun e => e.completed?.map Prod.fst = some n

section

variable {events before : List Event} {n : NodeId}

theorem rank_lt_iff : rank events n < events.length ↔ Complete events n := by
  rw [rank, List.findIdx_lt_length]
  simp only [decide_eq_true_eq, Option.map_eq_some_iff, Complete, Prod.exists]
  constructor
  · rintro ⟨e, member, m, children, completes, rfl⟩
    exact ⟨e, member, children, completes⟩
  · rintro ⟨e, member, children, completes⟩
    exact ⟨e, member, n, children, completes, rfl⟩

theorem Complete.rank_lt (h : Complete before n) (more : before <+: events) :
    rank events n < before.length := by
  obtain ⟨later, rfl⟩ := more
  have inside := rank_lt_iff.mpr h
  rw [rank] at inside ⊢
  rw [List.findIdx_append, if_pos inside]
  exact inside

theorem Complete.exists_first (h : Complete events n) : ∃ before e children, Happens events before e ∧
    e.completed? = some (n, children) ∧ before.length = rank events n := by
  have inside := rank_lt_iff.mpr h
  have found := List.findIdx_getElem (w := inside)
  simp only [decide_eq_true_eq, Option.map_eq_some_iff, Prod.exists] at found
  obtain ⟨m, children, completes, rfl⟩ := found
  refine ⟨events.take (rank events m), events[rank events m], children, ?_, completes, ?_⟩
  · rw [Happens, ← List.take_succ_eq_append_getElem inside]
    exact List.take_prefix _ _
  · rw [List.length_take, Nat.min_eq_left (Nat.le_of_lt inside)]

end

/-! ## 3. Programs -/

/-- The statements of the root or of a block. -/
def NodeKind.sequence? : NodeKind → Option (List NodeId)
  | root statements | block statements => some statements
  | _ => none

namespace Program

/-- A node is a child of another. -/
def Child (p : Program) (c n : NodeId) : Prop := ∃ kind, p.arena.kind? n = some kind ∧ c ∈ kind.children

/-- The lists of statements of the root and of all blocks. -/
def sequences (p : Program) : List (List NodeId) :=
  (List.range p.arena.size).filterMap fun i => (p.arena.kind? ⟨i⟩).bind NodeKind.sequence?

/-- The nodes of a program form a tree, whose blocks have the statements that were recorded for them. -/
structure Tree (p : Program) (events : List Event) : Prop where
  inside : ∀ c n, p.Child c n → c.index < p.arena.size
  bodies : ∀ n name parameters body, p.arena.kind? n = some (.funDecl name parameters body) →
    ∃ statements, p.arena.kind? body = some (.block statements)
  acyclic : WellFounded p.Child
  root : p.arena.kind? p.root = some (.root (statementsAt events .outermost))
  block : ∀ n statements, p.arena.kind? n = some (.block statements) →
    ∃ s, p.attrs.scope? n = some s ∧ statements = statementsAt events s
  /-- A statement is in the list of the block that it went to. -/
  placed : ∀ s n, .statement s n ∈ events → s = .outermost ∨
    ∃ m, p.arena.kind? m = some (.block (statementsAt events s)) ∧ p.attrs.scope? m = some s
  once : ∀ s n, .statement s n ∈ events → p.sequences.flatten.count n = 1
  /-- Nothing else is in a list. -/
  emitted : ∀ n ∈ p.sequences.flatten, ∃ s, .statement s n ∈ events

theorem mem_sequences {p : Program} {l : List NodeId} : l ∈ p.sequences ↔
    ∃ n kind, p.arena.kind? n = some kind ∧ kind.sequence? = some l := by
  simp only [sequences, List.mem_filterMap, List.mem_range, Option.bind_eq_some_iff]
  constructor
  · rintro ⟨i, -, kind, found, same⟩
    exact ⟨⟨i⟩, kind, found, same⟩
  · rintro ⟨⟨i⟩, kind, found, same⟩
    exact ⟨i, Arena.isSome_kind?.mp (by simp [found]), kind, found, same⟩

end Program

namespace Recording.Agrees

variable {events : List Event} {b : Builder}

/-- A node of a program is complete, but for the root. -/
theorem complete (h : Agrees events .top [] b) {n : NodeId} {kind : NodeKind}
    (found : b.rooted.arena.kind? n = some kind) :
    n = ⟨b.arena.size⟩ ∧ kind = .root (statementsAt events .outermost) ∨ Complete events n := by
  rw [b.makes_rooted.kind?] at found
  split at found
  · next same =>
    cases found
    exact .inl ⟨same, congrArg _ h.lists.bottom⟩
  · refine .inr ?_
    rcases h.nodes.complete n (by simp [found]) with none | complete
    · cases none
    · exact complete

theorem kind_of_complete (h : Agrees events .top [] b) {n : NodeId} (complete : Complete events n) :
    (b.arena.kind? n).isSome := by
  obtain ⟨e, member, children, completes⟩ := complete
  obtain ⟨before, happens⟩ := exists_happens member
  exact isSome_of_completed (h.nodes.holds before e happens) completes

/-- A child is complete before its parent. -/
theorem child (h : Agrees events .top [] b) (ordered : Ordered events) {c n : NodeId}
    (child : b.program.Child c n) : Complete events c ∧ rank events c < rank events n := by
  obtain ⟨kind, found, member⟩ := child
  rcases h.complete found with ⟨rfl, rfl⟩ | complete
  · -- the root is complete after all events
    have complete := ordered.statement _ c (mem_statementsAt.mp member)
    refine ⟨complete, Nat.lt_of_lt_of_le (rank_lt_iff.mpr complete) ?_⟩
    rw [← Nat.not_lt, rank_lt_iff]
    intro root
    have there := h.kind_of_complete root
    rw [Arena.kind?_size] at there
    cases there
  · obtain ⟨before, e, children, happens, completes, first⟩ := complete.exists_first
    obtain ⟨kind', there, same, -⟩ := children_of_completed (h.holds_program happens) completes
    cases there.symm.trans found
    have earlier := ordered.children before e n children happens completes c (same ▸ member)
    refine ⟨earlier.mono happens.subset, ?_⟩
    rw [← first]
    exact earlier.rank_lt ((List.prefix_append _ _).trans happens)

theorem block (h : Agrees events .top [] b) {n : NodeId} {statements : List NodeId}
    (found : b.rooted.arena.kind? n = some (.block statements)) :
    ∃ s, .block n s statements ∈ events ∧ b.rooted.attrs.scope? n = some s := by
  obtain ⟨e, member, made⟩ := h.exists_made found nofun
  obtain ⟨before, holds⟩ := h.exists_holds member
  rcases shape_of_made holds made found with plain | ⟨_, _, _, -, other⟩ |
    ⟨_, _, _, _, _, -, other⟩ | ⟨s, l, rfl, same⟩
  · cases plain
  · cases other
  · cases other
  · cases same
    exact ⟨s, member, holds.2⟩

/-- A list of statements is that of the scope of its node. -/
theorem sequence (h : Agrees events .top [] b) {n : NodeId} {kind : NodeKind} {l : List NodeId}
    (found : b.rooted.arena.kind? n = some kind) (is : kind.sequence? = some l) :
    ∃ s, l = statementsAt events s ∧
      (n = ⟨b.arena.size⟩ ∧ s = .outermost ∨ Owns events n s ∧ s ≠ .outermost) := by
  rcases h.complete found with ⟨rfl, rfl⟩ | complete
  · cases is
    exact ⟨_, rfl, .inl ⟨rfl, rfl⟩⟩
  · obtain ⟨e, member, children, completes⟩ := complete
    obtain ⟨before, holds⟩ := h.exists_holds member
    obtain ⟨kind', there, -, inner⟩ := children_of_completed holds completes
    cases there.symm.trans found
    cases kind with
    | root statements => exact absurd rfl (inner statements)
    | block statements =>
      obtain rfl := Option.some.inj is
      obtain ⟨s, member, -⟩ := h.block found
      obtain ⟨-, proper, same⟩ := h.lists.closed n s statements member
      exact ⟨s, same, .inr ⟨.inl ⟨statements, member⟩, proper⟩⟩
    | _ => cases is

/-- No two events emit the same statement. -/
theorem emitted_apart (h : Agrees events .top [] b) :
    events.Pairwise fun e e' => ∀ n, e.emitted? = some n → e'.emitted? ≠ some n :=
  (List.pairwise_filterMap.mp h.lists.once).imp fun apart n first second => apart n first n second rfl

/-- A statement goes to one block. -/
theorem scope_unique (h : Agrees events .top [] b) {s s' : ScopeId} {n : NodeId}
    (first : .statement s n ∈ events) (second : .statement s' n ∈ events) : s = s' := by
  by_contra differ
  have symm : Std.Symm fun e e' : Event => ∀ n, e.emitted? = some n → e'.emitted? ≠ some n :=
    ⟨fun e e' apart n first second => apart n second first⟩
  have others : Event.statement s n ≠ .statement s' n := by
    rintro ⟨⟩
    exact differ rfl
  exact h.emitted_apart.forall first second others n rfl rfl

/-- No statement goes to a block twice. -/
theorem statementsAt_nodup (h : Agrees events .top [] b) (s : ScopeId) : (statementsAt events s).Nodup := by
  have emits : ∀ (e : Event) n, e.statement? s = some n → e.emitted? = some n := by
    intro e n same
    cases e with
    | statement s' n' =>
      simp only [Event.statement?] at same
      split at same
      · exact same
      · cases same
    | _ => cases same
  refine List.pairwise_filterMap.mpr (h.emitted_apart.imp ?_)
  rintro e e' apart n first n' second rfl
  exact apart n (emits e n first) (emits e' n second)

theorem sequences_nodup (h : Agrees events .top [] b) : b.program.sequences.flatten.Nodup := by
  rw [List.nodup_flatten]
  refine ⟨?_, ?_⟩
  · intro l member
    obtain ⟨n, kind, found, is⟩ := Program.mem_sequences.mp member
    obtain ⟨s, rfl, -⟩ := h.sequence found is
    exact h.statementsAt_nodup s
  · rw [Program.sequences, List.pairwise_filterMap]
    refine List.Pairwise.imp ?_ List.nodup_range
    intro i j differ l first l' second
    simp only [Option.bind_eq_some_iff] at first second
    obtain ⟨kind, found, is⟩ := first
    obtain ⟨kind', found', is'⟩ := second
    obtain ⟨s, rfl, owner⟩ := h.sequence found is
    obtain ⟨s', rfl, owner'⟩ := h.sequence found' is'
    rw [List.disjoint_left]
    intro n member member'
    have same := h.scope_unique (mem_statementsAt.mp member) (mem_statementsAt.mp member')
    subst same
    apply differ
    rcases owner with ⟨root, outermost⟩ | ⟨owns, inner⟩ <;>
      rcases owner' with ⟨root', outermost'⟩ | ⟨owns', inner'⟩
    · exact congrArg NodeId.index (root.trans root'.symm)
    · exact absurd outermost inner'
    · exact absurd outermost' inner
    · exact congrArg NodeId.index (h.lists.owner _ _ _ owns owns')

/-- Sound calls make a tree. -/
theorem tree (h : Agrees events .top [] b) (ordered : Ordered events) : b.program.Tree events := by
  have placed : ∀ s n, .statement s n ∈ events → s = .outermost ∨
      ∃ m, b.rooted.arena.kind? m = some (.block (statementsAt events s)) ∧
        b.rooted.attrs.scope? m = some s := by
    intro s n member
    rcases h.lists.owners s (h.lists.bound s n member).1 with outermost | open_ | ⟨m, owns⟩
    · exact .inl outermost
    · cases open_
    · refine .inr ⟨m, ?_⟩
      rcases owns with ⟨l, block⟩ | parameters
      · obtain ⟨-, -, same⟩ := h.lists.closed m s l block
        obtain ⟨before, holds⟩ := h.exists_holds block
        exact same ▸ holds
      · -- nothing goes to a parameter scope
        obtain ⟨-, -, none⟩ := h.lists.parameters m s parameters
        have here := mem_statementsAt.mpr member
        rw [none] at here
        cases here
  have root : b.rooted.arena.kind? ⟨b.arena.size⟩ = some (.root (statementsAt events .outermost)) := by
    rw [b.makes_rooted.own, h.lists.bottom]
  refine ⟨?_, ?_, ?_, root, ?_, placed, ?_, ?_⟩
  · intro c n child
    have there := h.kind_of_complete (h.child ordered child).1
    exact Arena.isSome_kind?.mp (b.makes_rooted.keeps.isSome there)
  · intro n name parameters body found
    obtain ⟨before, _, _, _, -, -, -, block, -⟩ := h.exists_holds (h.finished_of_function found)
    exact block
  · have ranked : Subrelation b.program.Child (InvImage (· < ·) (rank events)) :=
      fun child => (h.child ordered child).2
    exact ranked.wf (InvImage.wf _ Nat.lt_wfRel.wf)
  · intro n statements found
    obtain ⟨s, member, scope⟩ := h.block found
    exact ⟨s, scope, (h.lists.closed n s statements member).2.2⟩
  · intro s n member
    refine List.count_eq_one_of_mem h.sequences_nodup (List.mem_flatten.mpr ?_)
    refine ⟨statementsAt events s, Program.mem_sequences.mpr ?_, mem_statementsAt.mpr member⟩
    rcases placed s n member with rfl | ⟨m, found, -⟩
    · exact ⟨_, _, root, rfl⟩
    · exact ⟨m, _, found, rfl⟩
  · intro n member
    obtain ⟨l, inside, here⟩ := List.mem_flatten.mp member
    obtain ⟨m, kind, found, is⟩ := Program.mem_sequences.mp inside
    obtain ⟨s, rfl, -⟩ := h.sequence found is
    exact ⟨s, mem_statementsAt.mp here⟩

end Recording.Agrees

/-- A call that makes a statement. -/
def Call.isStatement : Call → Bool
  | .expression _ | .set _ _ | .var _ _ _ | .launch _ _ | .launchVar _ _ _ _ | .ret _ | .block _
  | .protect _ | .ifThen _ _ | .ifElse _ _ _ | .whileLoop _ _ | .function _ _ _ _ | .struct _ _ => true
  | _ => false

/-- The nodes of a program that was built with nodes of the same builder form a tree, and every statement is
once in the block that it went to. -/
theorem Call.program_tree (calls : List Call) (p : Program) (sound : Sound (Call.events calls))
    (built : Call.program calls = .ok p) : p.Tree (Call.events calls) := by
  have ordered := (Call.ordersAll .top calls).ordered preludeEvents ordered_prelude nofun sound
  rw [Call.program_eq] at built
  split at built
  · cases built
  · cases built
    exact (Call.agrees calls).tree ordered.1

/-- A function that calls itself, with its parameter: its number is smaller than those of its body. -/
theorem Call.program_tree_recursive :
    let calls : List Call := [.function "f" [("x", .int)] .int
      [.reference "x", .call "f" [⟨2⟩], .ret (some ⟨4⟩)], .block [.launch "f" []]]
    Sound (Call.events calls) ∧ Call.program calls = .ok (Call.built calls).program ∧
      (Call.built calls).program.Tree (Call.events calls) := by
  intro calls
  have sound : Sound (Call.events calls) := by decide +kernel
  have fine : problems (Call.events calls) = [] := by decide +kernel
  have built : Call.program calls = .ok (Call.built calls).program := by rw [Call.program_eq, fine]; rfl
  exact ⟨sound, built, Call.program_tree calls _ sound built⟩

end Strand
