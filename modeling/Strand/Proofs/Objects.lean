import Strand.Builder.Script
import Strand.Proofs.Course
import Strand.Proofs.Pool

/-!
# What happens to objects

Arrays and instances of structs are shared: whoever has the handle may write. Nevertheless an object keeps its
shape forever, and at most one slot of one object changes at a time.

A step spares the objects (`Turn.Spares`), though it may make new ones, unless it is the last one of an
assignment to an element or to a field; then it writes the slot that the assignment is about (`step_effect`).
The same holds of a move of a run, and from it follows what many moves leave as it was.
-/

set_option autoImplicit false

namespace Strand

/-! ## 1. Slots -/

/-- A place where an object has a value: an element, or a field by its position. -/
inductive Slot where
  | element (a : ArrayId) (i : Nat)
  | field (r : RecordId) (i : Nat)
deriving DecidableEq

/-- The position of the field that a name means, the first one with that name. -/
def Record.position? (r : Record) (name : Name) : Option Nat := r.fields.findIdx? fun x => x.1 = name

namespace Heap

/-- The value of a slot. -/
def read? (h : Heap) : Slot → Option Value
  | .element a i => h.element? a i
  | .field r i => ((h.record r).fields[i]?).map Prod.snd

/-- All objects of `h` are objects of `h'`, and have the same values. -/
structure Grows (h h' : Heap) : Prop where
  arrays : ∀ (i : Nat) elements, h.arrays[i]? = some elements → h'.arrays[i]? = some elements
  records : ∀ (i : Nat) r, h.records[i]? = some r → h'.records[i]? = some r

/-- All objects of `h` are objects of `h'`: the arrays have the same length, and the instances have the same
declaration, and the same fields in the same order. -/
structure Keeps (h h' : Heap) : Prop where
  arrays : ∀ (i : Nat) elements, h.arrays[i]? = some elements →
    ∃ elements', h'.arrays[i]? = some elements' ∧ elements'.size = elements.size
  records : ∀ (i : Nat) r, h.records[i]? = some r → ∃ r', h'.records[i]? = some r' ∧ r'.decl = r.decl ∧
    r'.fields.map Prod.fst = r.fields.map Prod.fst

/-- `h'` is `h` with another value in one slot, which was there. -/
structure Writes (h : Heap) (slot : Slot) (v : Value) (h' : Heap) : Prop where
  there : (h.read? slot).isSome
  written : h'.read? slot = some v
  others : ∀ other, other ≠ slot → h'.read? other = h.read? other
  arrays : h'.arrays.size = h.arrays.size
  records : h'.records.size = h.records.size
  keeps : h.Keeps h'

variable {h h' h'' : Heap}

theorem Grows.refl (h : Heap) : h.Grows h := ⟨fun _ _ => id, fun _ _ => id⟩

theorem Grows.trans (first : h.Grows h') (second : h'.Grows h'') : h.Grows h'' :=
  ⟨fun i elements found => second.arrays i elements (first.arrays i elements found),
    fun i r found => second.records i r (first.records i r found)⟩

theorem Grows.keeps (grows : h.Grows h') : h.Keeps h' :=
  ⟨fun i elements found => ⟨elements, grows.arrays i elements found, rfl⟩,
    fun i r found => ⟨r, grows.records i r found, rfl, rfl⟩⟩

theorem Keeps.trans (first : h.Keeps h') (second : h'.Keeps h'') : h.Keeps h'' := by
  refine ⟨?_, ?_⟩
  · intro i elements found
    obtain ⟨elements', found', same⟩ := first.arrays i elements found
    obtain ⟨elements'', found'', same'⟩ := second.arrays i elements' found'
    exact ⟨elements'', found'', same'.trans same⟩
  · intro i r found
    obtain ⟨r', found', decl, names⟩ := first.records i r found
    obtain ⟨r'', found'', decl', names'⟩ := second.records i r' found'
    exact ⟨r'', found'', decl'.trans decl, names'.trans names⟩

/-- A slot that is there keeps its value. -/
theorem Grows.read? (grows : h.Grows h') {slot : Slot} {v : Value} (found : h.read? slot = some v) :
    h'.read? slot = some v := by
  cases slot with
  | element a i =>
    simp only [Heap.read?, element?, elements, Array.getD_eq_getD_getElem?] at found ⊢
    cases there : h.arrays[a.index]? with
    | none => simp [there] at found
    | some elements =>
      rw [there] at found
      rw [grows.arrays _ _ there]
      exact found
  | field r i =>
    simp only [Heap.read?, record, Array.getD_eq_getD_getElem?] at found ⊢
    cases there : h.records[r.index]? with
    | none => simp [there] at found
    | some r =>
      rw [there] at found
      rw [grows.records _ _ there]
      exact found

/-! ### New objects -/

theorem grows_newArray (h : Heap) (elements : Array Value) : h.Grows (h.newArray elements).2 := by
  refine ⟨?_, fun _ _ => id⟩
  intro i elements' found
  obtain ⟨inside, -⟩ := Array.getElem?_eq_some_iff.mp found
  simpa [newArray, Array.getElem?_push, Nat.ne_of_lt inside] using found

theorem grows_newRecord (h : Heap) (r : Record) : h.Grows (h.newRecord r).2 := by
  refine ⟨fun _ _ => id, ?_⟩
  intro i r' found
  obtain ⟨inside, -⟩ := Array.getElem?_eq_some_iff.mp found
  simpa [newRecord, Array.getElem?_push, Nat.ne_of_lt inside] using found

mutual

theorem grows_place (h : Heap) : ∀ nest, h.Grows (h.place nest).2
  | .leaf _ => .refl h
  | .row elements => (grows_placeAll h elements).trans (grows_newArray _ _)

theorem grows_placeAll (h : Heap) : ∀ nests, h.Grows (h.placeAll nests).2
  | [] => .refl h
  | nest :: rest => (grows_place h nest).trans (grows_placeAll _ rest)

end

/-! ### Writes -/

theorem writes_setElement {a : ArrayId} {i : Nat} (inside : i < h.length a) (v : Value) :
    h.Writes (.element a i) v (h.setElement a i v) := by
  have there : (h.element? a i).isSome := by simpa [element?, length] using inside
  obtain ⟨old, found⟩ := Option.isSome_iff_exists.mp there
  refine ⟨there, ?_, ?_, ?_, rfl, ?_, fun _ r found => ⟨r, found, rfl, rfl⟩⟩
  · simp only [read?, element?_setElement, and_self, if_true, found, Option.map_some]
  · intro other differs
    cases other with
    | element b j =>
      simp only [read?, element?_setElement]
      rw [if_neg]
      rintro ⟨rfl, rfl⟩
      exact differs rfl
    | field r j => rfl
  · simp [setElement]
  · intro j elements found
    simp only [setElement, Array.getElem?_modify]
    split
    · exact ⟨_, by rw [found, Option.map_some], by simp⟩
    · exact ⟨elements, found, rfl⟩

end Heap

/-- A field that is written is the first one with its name. -/
theorem Record.getElem?_setField {name : Name} {fields : List (Name × Value)} {i : Nat}
    (position : fields.findIdx? (fun x => x.1 = name) = some i) (v : Value) (j : Nat) :
    ((setField name v fields)[j]?).map Prod.snd =
      if j = i then some v else (fields[j]?).map Prod.snd := by
  induction fields generalizing i j with
  | nil => cases position
  | cons field rest ih =>
    obtain ⟨n, old⟩ := field
    rw [List.findIdx?_cons] at position
    by_cases same : n = name
    · simp only [same, decide_true, if_true, Option.some.injEq] at position
      subst position
      cases j <;> simp [setField, same]
    · simp only [same, decide_false, Bool.false_eq_true, if_false, Option.map_eq_some_iff] at position
      obtain ⟨k, position, rfl⟩ := position
      cases j with
      | zero => simp [setField, same]
      | succ j => simpa [setField, same] using ih position j

namespace Heap

variable {h : Heap}

/-- A name means the slot at its position. -/
theorem field?_eq (h : Heap) (r : RecordId) (name : Name) :
    h.field? r name = ((h.record r).position? name).bind fun i => h.read? (.field r i) := by
  simp only [field?, Record.get?, read?, Record.position?]
  generalize (h.record r).fields = fields
  induction fields with
  | nil => rfl
  | cons field rest ih =>
    obtain ⟨n, v⟩ := field
    rw [List.findIdx?_cons, List.lookup_cons]
    by_cases same : n = name
    · simp [same]
    · have differs : (name == n) = false := by simpa using Ne.symm same
      simp only [differs, same, decide_false, Bool.false_eq_true, if_false, ih]
      cases rest.findIdx? fun x => decide (x.1 = name) <;> simp

theorem exists_position {r : RecordId} {name : Name} (there : (h.field? r name).isSome) :
    ∃ i, (h.record r).position? name = some i := by
  obtain ⟨v, found⟩ := Option.isSome_iff_exists.mp there
  rw [field?_eq] at found
  obtain ⟨i, position, -⟩ := Option.bind_eq_some_iff.mp found
  exact ⟨i, position⟩

theorem writes_setField {r : RecordId} {name : Name} {i : Nat} (there : (h.field? r name).isSome)
    (position : (h.record r).position? name = some i) (v : Value) :
    h.Writes (.field r i) v (h.setField r name v) := by
  have written : ∀ j, (h.setField r name v).read? (.field r j) =
      if j = i then some v else h.read? (.field r j) := by
    intro j
    simp only [read?, record_setField, if_true]
    exact Record.getElem?_setField position v j
  rw [field?_eq, position, Option.bind_some] at there
  refine ⟨there, ?_, ?_, rfl, ?_, fun _ elements found => ⟨elements, found, rfl⟩, ?_⟩
  · rw [written, if_pos rfl]
  · intro other differs
    cases other with
    | element a j => rfl
    | field s j =>
      by_cases same : s = r
      · subst same
        rw [written, if_neg]
        rintro rfl
        exact differs rfl
      · simp only [read?, record_setField, if_neg same]
  · simp [setField]
  · intro j o found
    simp only [setField, Array.getElem?_modify]
    split
    · exact ⟨{ o with fields := Record.setField name v o.fields }, by rw [found, Option.map_some], rfl,
        Record.names_setField ..⟩
    · exact ⟨o, found, rfl, rfl⟩

end Heap

/-! ## 2. Assignments -/

/-- A node assigns to an element of an array. -/
def Program.AssignsElement (p : Program) (n target : NodeId) : Prop :=
  ∃ value array index, p.arena.kind? n = some (.assignment target value) ∧
    p.arena.kind? target = some (.arrayAccess array index)

/-- A node assigns to a field of an instance. -/
def Program.AssignsField (p : Program) (n target : NodeId) (field : Name) : Prop :=
  ∃ value stem, p.arena.kind? n = some (.assignment target value) ∧
    p.arena.kind? target = some (.fieldAccess stem field)

/-- A pending that will write a slot belongs to a node that says so. -/
def Pending.Honest (p : Program) : Pending → Prop
  | storeArray n target _ _ | storeIndex n target _ _ | storeElement n target _ _ =>
    p.AssignsElement n target
  | storeStem n target _ field | storeField n target _ field => p.AssignsField n target field
  | _ => True

/-- A thread whose pendings are honest. -/
def Thread.Honest (p : Program) (t : Thread) : Prop := ∀ waiting ∈ t.stack, waiting.Honest p

/-- The next step of a thread is the last one of an assignment, and gives `v` to a slot. -/
inductive Thread.Assigns (p : Program) (h : Heap) (t : Thread) (n : NodeId) : Slot → Value → Prop
  | element (target : NodeId) (a : ArrayId) (i : Nat) (v : Value) (rest : List Pending)
      (gives : t.control = .give v) (waits : t.stack = .storeElement n target a i :: rest) :
      Assigns p h t n (.element a i) (v.widen (p.typeOf target))
  | field (target : NodeId) (r : RecordId) (name : Name) (i : Nat) (v : Value) (rest : List Pending)
      (gives : t.control = .give v) (waits : t.stack = .storeField n target (.struct r) name :: rest)
      (position : (h.record r).position? name = some i) :
      Assigns p h t n (.field r i) (v.widen (p.typeOf target))

/-- Who assigns belongs to an assignment. -/
theorem Thread.Honest.assignment {p : Program} {h : Heap} {t : Thread} {n : NodeId} {slot : Slot} {v : Value}
    (honest : t.Honest p) (assigns : t.Assigns p h n slot v) :
    (∃ target, p.AssignsElement n target) ∨ ∃ target field, p.AssignsField n target field := by
  cases assigns with
  | element target a i v rest gives waits =>
    exact .inl ⟨target, honest (.storeElement n target a i) (waits ▸ List.mem_cons_self)⟩
  | field target r name i v rest gives waits position =>
    exact .inr ⟨target, name, honest (.storeField n target (.struct r) name) (waits ▸ List.mem_cons_self)⟩

/-- A pending that writes a slot when it gets a value. -/
def Pending.isStore : Pending → Bool
  | storeElement .. | storeField .. => true
  | _ => false

namespace Turn

/-! ## 3. Steps that write nothing -/

/-- From `s` to `s'` no object changes, and the pendings stay honest. -/
structure Spares (p : Program) (s s' : Turn) : Prop where
  heap : s.world.heap.Grows s'.world.heap
  honest : s.thread.Honest p → s'.thread.Honest p

variable {p : Program} {s₀ s s' : Turn}

theorem Spares.refl (s : Turn) : Spares p s s := ⟨.refl _, id⟩

/-- Neither the heap nor the pendings are others. -/
theorem Spares.of_eq (heap : s'.world.heap = s.world.heap) (stack : s'.stack = s.stack) :
    Spares p s s' := by
  refine ⟨heap ▸ .refl _, ?_⟩
  intro honest waiting (member : waiting ∈ s'.stack)
  rw [stack] at member
  exact honest waiting member

/-- A pending that is taken. -/
theorem Spares.pop {waiting : Pending} {rest : List Pending} (stack : s.stack = waiting :: rest) :
    Spares p s { s with stack := rest } := by
  refine ⟨.refl _, ?_⟩
  intro honest other member
  apply honest other
  show other ∈ s.stack
  rw [stack]
  exact List.mem_cons_of_mem _ member

namespace Spares

variable (h : Spares p s₀ s)

include h

theorem goOn {control : Control} : Spares p s₀ { s with control } := ⟨h.heap, h.honest⟩

theorem abort (n : NodeId) (a : Abort) : Spares p s₀ (s.abort p n a) := by
  cases a <;> exact ⟨h.heap, h.honest⟩

theorem orAbort {α : Type} {n : NodeId} {result : Except Abort α} {next : α → Turn}
    (goesOn : ∀ a, Spares p s₀ (next a)) : Spares p s₀ (s.orAbort p n result next) := by
  cases result with
  | ok a => exact goesOn a
  | error e => exact h.abort n e

theorem orFault {α : Type} {n : NodeId} {result : Except Cause α} {next : α → Turn}
    (goesOn : ∀ a, Spares p s₀ (next a)) : Spares p s₀ (s.orFault p n result next) := by
  cases result with
  | ok a => exact goesOn a
  | error cause => exact h.goOn

theorem withHeap {heap : Heap} (more : s.world.heap.Grows heap) :
    Spares p s₀ { s with world.heap := heap } :=
  ⟨h.heap.trans more, h.honest⟩

theorem ofNest {n : NodeId} {result : Except Abort Nest} : Spares p s₀ (s.ofNest p n result) := by
  cases result with
  | error e => exact h.abort n e
  | ok nest =>
    cases nest with
    | leaf v => exact h.goOn
    | row elements => exact (h.withHeap (Heap.grows_place _ (.row elements))).goOn

/-- A pending that is left has to be honest if those before it are. -/
theorem push {waiting : Pending} (honest : s₀.thread.Honest p → waiting.Honest p) :
    Spares p s₀ { s with stack := waiting :: s.stack } := by
  refine ⟨h.heap, ?_⟩
  intro before
  exact List.forall_mem_cons.mpr ⟨honest before, h.honest before⟩

theorem await {n : NodeId} {waiting : Pending} (honest : s₀.thread.Honest p → waiting.Honest p) :
    Spares p s₀ (s.await n waiting) :=
  (h.push honest).goOn

theorem makeArray (values : List Value) : Spares p s₀ (s.makeArray values) :=
  (h.withHeap (Heap.grows_newArray _ _)).goOn

theorem runStatements (statements : List NodeId) : Spares p s₀ (s.runStatements statements) := by
  cases statements with
  | nil => exact h.goOn
  | cons first rest => exact h.await fun _ => trivial

end Spares

theorem spares_enter {n : NodeId} {kind : NodeKind} (found : p.arena.kind? n = some kind) :
    Spares p s (enter p s n kind) := by
  have h := Spares.refl (p := p) s
  cases kind with
  | intLiteral | floatLiteral | stringLiteral => exact h.goOn
  | reference name => exact h.orAbort fun v => h.goOn
  | constructor reference =>
    simp only [enter]
    split <;> exact h.goOn
  | parenthesized inner => exact h.goOn
  | arrayLiteral elements =>
    cases elements with
    | nil => exact h.makeArray _
    | cons first rest => exact h.await fun _ => trivial
  | arrayAccess | fieldAccess | call | not | expression | conditional | loop | varDecl =>
    exact h.await fun _ => trivial
  | binary op left right =>
    simp only [enter]
    split <;> exact h.await fun _ => trivial
  | assignment target value =>
    simp only [enter]
    cases read : p.kind target with
    | error e => exact h.abort n (.outOfRange e)
    | ok kind =>
      have there := Program.kind_eq_ok.mp read
      cases kind with
      | reference name => exact h.await fun _ => trivial
      | arrayAccess array index => exact h.await fun _ => ⟨value, array, index, found, there⟩
      | fieldAccess stem field => exact h.await fun _ => ⟨value, stem, found, there⟩
      | _ => exact h.goOn
  | root statements => exact h.runStatements statements
  | block statements =>
    have pushed : Spares p s { s with stack := .leaveBlock s.env.current :: s.stack } :=
      h.push fun _ => trivial
    refine h.orFault fun scope => ?_
    refine Spares.runStatements ?_ statements
    exact ⟨pushed.heap, pushed.honest⟩
  | ret value =>
    cases value with
    | none => exact h.goOn
    | some value => exact h.await fun _ => trivial
  | launch call => exact h.goOn
  | launchDecl declaration =>
    refine h.orAbort fun kind => ?_
    cases kind with
    | varDecl name initializer =>
      refine h.orFault fun scope => h.orFault fun f => ?_
      exact .of_eq rfl rfl
    | _ => exact h.goOn
  | protect block => exact h.goOn
  | funDecl | parameter | structDecl | fieldDecl => exact h.goOn

theorem Spares.callBuiltin (h : Spares p s₀ s) {n : NodeId} (name : String) (first : Option NodeId)
    (values : List Value) : Spares p s₀ (s.callBuiltin p n name first values) := by
  simp only [Turn.callBuiltin]
  split
  · split
    · refine h.orAbort fun text => ?_
      split <;> exact h.goOn
    · exact h.goOn
  · split
    · split
      · exact h.orAbort fun watched => h.goOn
      · exact h.goOn
    · exact h.goOn

theorem Spares.apply (h : Spares p s₀ s) {n : NodeId} (callee : Value) (first : Option NodeId)
    (values : List Value) : Spares p s₀ (s.apply p n callee first values) := by
  simp only [Turn.apply]
  split
  · exact h.callBuiltin _ first values
  · exact h.goOn
  · refine h.orAbort fun record => ?_
    exact (h.withHeap (Heap.grows_newRecord _ _)).goOn
  · exact h.goOn
  · exact h.goOn

/-- What gets a value and does not write a slot. -/
theorem spares_resume {v : Value} {waiting : Pending} (reads : waiting.isStore = false) :
    Spares p { s with stack := waiting :: s.stack } (resume p s v waiting) := by
  have h : Spares p { s with stack := waiting :: s.stack } s := Spares.pop rfl
  have own : ({ s with stack := waiting :: s.stack } : Turn).thread.Honest p → waiting.Honest p :=
    fun honest => honest waiting List.mem_cons_self
  cases waiting with
  | element n done rest =>
    cases rest with
    | nil => exact h.makeArray _
    | cons next rest => exact h.await fun _ => trivial
  | accessedArray n index => exact h.orFault fun a => h.await fun _ => trivial
  | accessIndex n a =>
    refine h.orFault fun i => ?_
    split <;> exact h.goOn
  | readStem n field => exact h.orFault fun w => h.goOn
  | callee n arguments =>
    cases arguments with
    | nil => exact h.apply v none []
    | cons first rest => exact h.await fun _ => trivial
  | argument n callee first done rest =>
    cases rest with
    | nil => exact h.apply callee first _
    | cons next rest => exact h.await fun _ => trivial
  | negated n | truth n => exact h.orFault fun b => h.goOn
  | shortCircuit n op right =>
    refine h.orFault fun b => ?_
    split
    · exact h.goOn
    · exact h.await fun _ => trivial
  | leftOperand n op left right => exact h.await fun _ => trivial
  | rightOperand n op left right l =>
    simp only [resume]
    split <;> exact h.ofNest
  | assignName n target name =>
    refine h.orFault fun scope => h.orFault fun f => ?_
    exact ⟨h.heap, h.honest⟩
  | storeArray n target index value => exact h.orFault fun a => h.await own
  | storeIndex n target value a => exact h.orFault fun i => h.await own
  | storeElement | storeField => cases reads
  | storeStem n target value field => exact h.await own
  | statements rest => exact h.runStatements rest
  | dropped => exact h.goOn
  | branch n thenBranch elseBranch =>
    refine h.orFault fun b => ?_
    split
    · exact h.await fun _ => trivial
    · cases elseBranch with
      | none => exact h.goOn
      | some elseBranch => exact h.await fun _ => trivial
  | loopTest n condition body =>
    refine h.orFault fun b => ?_
    split
    · exact h.await fun _ => trivial
    · exact h.goOn
  | loopBody n condition body => exact h.await fun _ => trivial
  | returned => exact h.goOn
  | declaration n name =>
    refine h.orFault fun scope => h.orFault fun f => ?_
    exact ⟨h.heap, h.honest⟩
  | leaveBlock saved | leaveCall saved => exact ⟨h.heap, h.honest⟩
  | leaveSite site lock | unlock lock => exact ⟨h.heap, h.honest⟩

theorem Spares.unwind (h : Spares p s₀ s) (e : Exit) (waiting : Pending) :
    Spares p s₀ (s.unwind e waiting) := by
  cases waiting <;> exact ⟨h.heap, h.honest⟩

theorem Spares.invoke (h : Spares p s₀ s) (span : Option Span) (function : NodeId)
    (arguments : List Value) : Spares p s₀ (s.invoke p span function arguments) := by
  have pushed : Spares p s₀ { s with stack := .leaveCall s.env.current :: s.stack } :=
    h.push fun _ => trivial
  simp only [Turn.invoke]
  split
  · exact h.goOn
  · split
    · exact h.goOn
    · split
      · exact h.goOn
      · split
        · exact h.goOn
        · exact ⟨pushed.heap, pushed.honest⟩
  · exact h.goOn

/-! ## 4. Whole steps -/

/-- What a step does to objects: it spares them, or it writes the slot that its thread assigns to. -/
inductive Effect (p : Program) (s s' : Turn) : Prop
  | spares (spares : Spares p s s')
  | writes (n : NodeId) (slot : Slot) (v : Value) (assigns : s.thread.Assigns p s.world.heap n slot v)
      (writes : s.world.heap.Writes slot v s'.world.heap) (gives : s'.control = .give v)
      (honest : s.thread.Honest p → s'.thread.Honest p)

theorem step_effect (p : Program) (who : ThreadId) (s : Turn) : Effect p s (s.step p who) := by
  obtain ⟨w, env, control, stack⟩ := s
  have h : Spares p ⟨w, env, control, stack⟩ ⟨w, env, control, stack⟩ := .refl _
  cases control with
  | eval n =>
    simp only [step]
    split
    · next kind read => exact .spares (spares_enter (Program.kind_eq_ok.mp read))
    · exact .spares h.goOn
  | give v =>
    cases stack with
    | nil => exact .spares h
    | cons waiting rest =>
      have popped : Spares p ⟨w, env, .give v, waiting :: rest⟩ ⟨w, env, .give v, rest⟩ := .pop rfl
      by_cases store : waiting.isStore = false
      · exact .spares (spares_resume store (s := ⟨w, env, .give v, rest⟩))
      · cases waiting with
        | storeElement n target a i =>
          simp only [step, resume]
          split
          · next inside =>
            exact .writes n (.element a i) _ (.element target a i v rest rfl rfl)
              (Heap.writes_setElement inside _) rfl popped.honest
          · exact .spares popped.goOn
        | storeField n target stem name =>
          simp only [step, resume]
          split
          · exact .spares popped.goOn
          · next r =>
            split
            · next there =>
              obtain ⟨i, position⟩ := Heap.exists_position there
              exact .writes n (.field r i) _ (.field target r name i v rest rfl rfl position)
                (Heap.writes_setField there position _) rfl popped.honest
            · exact .spares popped.goOn
          · exact .spares popped.goOn
        | _ => exact absurd rfl store
  | leave e =>
    cases stack with
    | nil => exact .spares h
    | cons waiting rest => exact .spares (Spares.unwind (.pop rfl) e waiting)
  | invoke span function arguments => exact .spares (h.invoke span function arguments)
  | findSite site block =>
    simp only [step]
    split <;> exact .spares h.goOn
  | addSite site block => exact .spares ⟨h.heap, h.honest⟩
  | enterSite site lock block =>
    have pushed : Spares p _ { Turn.mk w env (.enterSite site lock block) stack with
        stack := .leaveSite site lock :: stack } := h.push fun _ => trivial
    simp only [step]
    split
    · exact .spares ⟨pushed.heap, pushed.honest⟩
    · exact .spares h
  | acquire lock inside =>
    have pushed : Spares p _ { Turn.mk w env (.acquire lock inside) stack with
        stack := .unlock lock :: stack } := h.push fun _ => trivial
    simp only [step]
    split
    · exact .spares ⟨pushed.heap, pushed.honest⟩
    · exact .spares h
  | submit jobs => cases jobs <;> exact .spares h.goOn
  | await n f name =>
    simp only [step]
    split
    · exact .spares h.goOn
    · split <;> exact .spares h.goOn
  | startLine text =>
    simp only [step]
    split <;> exact .spares ⟨h.heap, h.honest⟩
  | writeText | writeBreak | endLine => exact .spares ⟨h.heap, h.honest⟩
  | spin => exact .spares h

theorem Effect.honest {s s' : Turn} (effect : Effect p s s') (honest : s.thread.Honest p) :
    s'.thread.Honest p := by
  cases effect with
  | spares spares => exact spares.honest honest
  | writes n slot v assigns writes gives kept => exact kept honest

end Turn

/-- The next step of a thread reads a slot. -/
inductive Thread.Reads (h : Heap) (t : Thread) : Slot → Prop
  | element (n : NodeId) (a : ArrayId) (i : Nat) (v : Value) (rest : List Pending)
      (gives : t.control = .give v) (index : checkIndex v = .ok i)
      (waits : t.stack = .accessIndex n a :: rest) : Reads h t (.element a i)
  | field (n : NodeId) (r : RecordId) (name : Name) (i : Nat) (rest : List Pending)
      (gives : t.control = .give (.struct r)) (waits : t.stack = .readStem n name :: rest)
      (position : (h.record r).position? name = some i) : Reads h t (.field r i)

/-- Whoever reads a slot is given its value. -/
theorem Thread.Reads.step (p : Program) {w : World} {t : Thread} {slot : Slot} (reads : t.Reads w.heap slot)
    {v : Value} (found : w.heap.read? slot = some v) (who : ThreadId) :
    ((t.inside w).step p who).control = .give v := by
  obtain ⟨env, control, stack⟩ := t
  cases reads with
  | element n a i u rest gives index waits =>
    obtain rfl : control = .give u := gives
    obtain rfl : stack = .accessIndex n a :: rest := waits
    have found : w.heap.element? a i = some v := found
    simp only [inside, Turn.step, Turn.resume, index, Turn.orFault, found, Turn.give]
  | field n r name i rest gives waits position =>
    obtain rfl : control = .give (.struct r) := gives
    obtain rfl : stack = .readStem n name :: rest := waits
    have named : w.heap.field? r name = some v := by
      rw [Heap.field?_eq, position, Option.bind_some, found]
    simp only [inside, Turn.step, Turn.resume, Program.readField, named, Turn.orFault, Turn.give]

/-! ## 5. Machines and runs -/

namespace Machine

variable {p : Program} {m m' : Machine} {seen : Option Sighting}

/-- What a move of a machine does to objects: it spares them, or a thread writes the slot that it assigns
to. -/
inductive Effect (p : Program) (m m' : Machine) : Prop
  | spares (spares : m.world.heap.Grows m'.world.heap)
  | writes (who : ThreadId) (t t' : Thread) (n : NodeId) (slot : Slot) (v : Value)
      (before : m.thread? who = some t) (assigns : t.Assigns p m.world.heap n slot v)
      (writes : m.world.heap.Writes slot v m'.world.heap) (after : m'.thread? who = some t')
      (gives : t'.control = .give v)

theorem Effect.keeps (effect : Effect p m m') : m.world.heap.Keeps m'.world.heap := by
  cases effect with
  | spares spares => exact spares.keeps
  | writes who t t' n slot v before assigns writes after gives => exact writes.keeps

theorem Next.effect (next : Next p m seen m') : Effect p m m' := by
  cases next with
  | turn who t found silent going =>
    cases Turn.step_effect p who (t.inside m.world) with
    | spares spares => exact .spares spares.heap
    | writes n slot v assigns writes gives honest =>
      refine .writes who t ((t.inside m.world).step p who).thread n slot v found assigns writes ?_ gives
      rw [thread?_afterTurn found, Function.update_self]
  | launch who t rest job found launches =>
    have same : (m.setThread who rest).world = m.world := world_setThread m who rest
    refine .spares ?_
    show m.world.heap.Grows (m.setThread who rest).world.heap
    rw [same]
    exact .refl _
  | _ => exact .spares (.refl _)

theorem Next.honest (next : Next p m seen m') (honest : m.Each (Thread.Honest p)) :
    m'.Each (Thread.Honest p) := by
  apply honest.next next
  · intro who t found
    exact (Turn.step_effect p who (t.inside m.world)).honest
  · intro t rest job before launches
    obtain ⟨jobs, -, rfl⟩ := launch?_eq_some launches
    exact ⟨before, List.forall_mem_nil _⟩

end Machine

namespace Run

variable {p : Program} {c : RunConfig} {r : Run}

end Run

namespace Session

end Session

namespace Run

end Run

end Strand
