import Strand.Proofs.Alike.Steps

/-!
# Programs that fork and join

Such a program declares functions, launches variables, waits for each of them in whatever order, and
returns an expression. What is launched does not read the variables that are launched; the nodes that it
consists of form a `Region` that is closed (`Program.Confined.closed`).

The program in sequence has a plain declaration for every launch, at the same place, and does not wait.
It is the same program but for the statements of its root, so whatever does not evaluate the root takes
the same steps in both (`Turn.step_withRoot`).
-/

set_option autoImplicit false

namespace Strand

/-! ## 1. Nodes that keep to themselves -/

namespace Program

variable (p : Program) (nodes functions : List NodeId) (hidden : List Name) (guarded : Bool)

/-- What a reference may denote: of the root frame no name that is hidden, of the functions only those that
are given and those that are declared inside, and no builtin function. Where nothing is guarded, builtin
functions may be called, except `wait`. -/
def mayRead (n : NodeId) (name : Name) : Bool :=
  match p.attrs.decl? n with
  | none | some (.host ⟨_, .type⟩) => true
  | some (.host ⟨_, .value⟩) => name ∉ hidden
  | some (.host ⟨host, .function⟩) => !guarded && p.text host != "wait"
  | some (.node declaration) =>
    match p.arena.kind? declaration with
    | some (.varDecl ..) | some (.parameter _) =>
      name ∉ hidden || p.attrs.scope? n != some p.attrs.rootScope
    | some (.funDecl ..) => declaration ∈ functions || declaration ∈ nodes
    | _ => true

/-- Whether a node stands for a variable that may be bound: not one of the root scope, unless nothing is
guarded. -/
def mayBind (n : NodeId) : Bool := !guarded || p.attrs.scope? n != some p.attrs.rootScope

/-- Whether a node launches nothing and takes no lock, reads and binds only what it may, and leads to given
nodes. -/
def confines (n : NodeId) : Bool :=
  (p.parts n).all (· ∈ nodes) &&
  match p.arena.kind? n with
  | some (.launch _) | some (.launchDecl _) | some (.protect _) | some (.root _) => false
  | some (.block statements) => statements.all (· ∈ nodes)
  | some (.reference name) => p.mayRead nodes functions hidden guarded n name
  | some (.varDecl ..) => p.mayBind guarded n
  | some (.assignment target _) =>
    match p.arena.kind? target with
    | some (.reference _) => p.mayBind guarded target
    | _ => true
  | some (.funDecl _ _ body) => body ∈ nodes
  | _ => true

/-- Nodes that keep to themselves, and to functions whose bodies are among them. -/
structure Confined : Prop where
  each : ∀ n ∈ nodes, p.confines nodes functions hidden guarded n = true
  bodies : ∀ f ∈ functions, ∀ name parameters body,
    p.arena.kind? f = some (.funDecl name parameters body) → body ∈ nodes

/-- The region of such nodes. -/
def region : Region where
  nodes n := n ∈ nodes
  functions
    | .node f => f ∈ functions ∨ f ∈ nodes
    | .host host => guarded = false ∧ p.text host.name ≠ "wait"
  names name := name ∉ hidden
  locals n := p.mayBind guarded n = true
  rootScope := p.attrs.rootScope
  guarded := guarded = true

variable {p nodes functions hidden guarded}

theorem Confined.reads (confined : p.Confined nodes functions hidden guarded) {n : NodeId} {name : Name}
    {decl : Decl} (inside : n ∈ nodes) (kind : p.arena.kind? n = some (.reference name))
    (denotes : p.attrs.decl? n = some decl) :
    (p.region nodes functions hidden guarded).Reads p n name decl := by
  have may := confined.each n inside
  simp only [confines, kind, Bool.and_eq_true, mayRead, denotes] at may
  have may := may.2
  cases decl with
  | host host =>
    obtain ⟨host, sort⟩ := host
    cases sort with
    | value => simpa [Region.Reads, region] using may
    | function => simpa [Region.Reads, region] using may
    | type => trivial
  | node declaration =>
    simp only [Region.Reads, region]
    split
    · next found => simpa [found] using may
    · next found => simpa [found] using may
    · next found => simpa [found] using may
    · trivial

/-- Nodes that keep to themselves form a closed region. -/
theorem Confined.closed (confined : p.Confined nodes functions hidden guarded) :
    (p.region nodes functions hidden guarded).Closed p where
  quiet n kind inside found := by
    have may := confined.each n inside
    simp only [confines, found, Bool.and_eq_true] at may
    cases kind <;> first | trivial | cases may.2
  parts n inside m part := by
    have may := confined.each n inside
    simp only [confines, Bool.and_eq_true, List.all_eq_true] at may
    show m ∈ nodes
    exact of_decide_eq_true (may.1 m part)
  statements n statements inside found m member := by
    have may := confined.each n inside
    simp only [confines, found, Bool.and_eq_true, List.all_eq_true] at may
    show m ∈ nodes
    exact of_decide_eq_true (may.2 m member)
  reads n name decl inside found denotes := confined.reads inside found denotes
  bodies function name parameters body known found := by
    rcases known with declared | inside
    · exact confined.bodies _ declared name parameters body found
    · have may := confined.each _ inside
      simp only [confines, found, Bool.and_eq_true] at may
      show body ∈ nodes
      exact of_decide_eq_true may.2
  hosts host known := by
    obtain ⟨free, other⟩ : guarded = false ∧ p.text host.name ≠ "wait" := known
    refine ⟨fun only => ?_, other⟩
    have only : guarded = true := only
    rw [free] at only
    cases only
  locals only n inner := by
    have inner : p.mayBind guarded n = true := inner
    have only : guarded = true := only
    show p.attrs.scope? n ≠ some p.attrs.rootScope
    simpa [mayBind, only] using inner
  declares n name initializer inside found := by
    have may := confined.each n inside
    simp only [confines, found, Bool.and_eq_true] at may
    exact may.2
  assigns n target value name inside found refers := by
    have may := confined.each n inside
    simp only [confines, found, refers, Bool.and_eq_true] at may
    exact may.2

end Program

/-! ## 2. Programs that fork and join -/

/-- A variable that is launched: the statement, the declaration that it launches, and what the value of
the variable is computed from. -/
structure Fork where
  statement : NodeId
  declaration : NodeId
  initializer : NodeId
  name : Name

/-- The statement that launches a variable of the root scope. -/
structure Fork.Of (p : Program) (nodes : List NodeId) (k : Fork) : Prop where
  launches : p.arena.kind? k.statement = some (.launchDecl k.declaration)
  declares : p.arena.kind? k.declaration = some (.varDecl k.name k.initializer)
  scope : p.attrs.scope? k.declaration = some p.attrs.rootScope
  inside : k.initializer ∈ nodes

/-- A call of `wait`: the statement, the call, the reference to `wait`, what it denotes, and the reference
to the variable. -/
structure Join where
  statement : NodeId
  call : NodeId
  callee : NodeId
  builtin : Name
  argument : NodeId
  fork : Fork

/-- The statement that waits for a launched variable. -/
structure Join.Of (p : Program) (j : Join) : Prop where
  expression : p.arena.kind? j.statement = some (.expression j.call)
  calls : p.arena.kind? j.call = some (.call j.callee [j.argument])
  refers : ∃ name, p.arena.kind? j.callee = some (.reference name)
  denotes : p.attrs.decl? j.callee = some (.host ⟨j.builtin, .function⟩)
  builtin : p.text j.builtin = "wait"
  names : p.arena.kind? j.argument = some (.reference j.fork.name)
  variable_ : p.attrs.decl? j.argument = some (.node j.fork.declaration)
  scope : p.attrs.scope? j.argument = some p.attrs.rootScope

/-- A program that declares functions, launches variables with distinct names, waits for each, and returns
an expression. The functions and what is launched use none of these variables, and call no builtin function.
The expression may do both, only it may not call `wait`. -/
structure ForkJoin (p : Program) where
  functions : List NodeId
  forks : List Fork
  joins : List Join
  last : NodeId
  result : NodeId
  /-- The nodes of the functions and of what is launched. -/
  nodes : List NodeId
  /-- The nodes of the expression that is returned. -/
  readers : List NodeId
  root : p.arena.kind? p.root = some (.root
    (functions ++ forks.map Fork.statement ++ joins.map Join.statement ++ [last]))
  declares : ∀ f ∈ functions, ∃ name parameters body,
    p.arena.kind? f = some (.funDecl name parameters body)
  launches : ∀ k ∈ forks, k.Of p nodes
  distinct : (forks.map Fork.name).Nodup
  waits : ∀ j ∈ joins, j.Of p ∧ j.fork ∈ forks
  awaited : ∀ k ∈ forks, ∃ j ∈ joins, j.fork = k
  returns : p.arena.kind? last = some (.ret (some result))
  reads : result ∈ readers
  confined : p.Confined nodes functions (forks.map Fork.name) true
  shown : p.Confined (readers ++ nodes) functions [] false

/-! ## 3. The same program with other statements -/

namespace Program

/-- The program with other statements of the root. -/
def withRoot (p : Program) (statements : List NodeId) : Program :=
  { p with arena := p.arena.setKind p.root (.root statements) }

/-- Two results of reading a node: the same, or two lists of statements of the root. -/
def SameRead (x y : Except OutOfRange NodeKind) : Prop :=
  x = y ∨ ∃ l l', x = .ok (.root l) ∧ y = .ok (.root l')

variable {p : Program} {statements : List NodeId}

theorem kind?_withRoot_of_ne {n : NodeId} (other : n ≠ p.root) :
    (p.withRoot statements).arena.kind? n = p.arena.kind? n := by
  rw [withRoot, Arena.kind?_setKind, if_neg other]

theorem kind_withRoot_of_ne {n : NodeId} (other : n ≠ p.root) :
    (p.withRoot statements).kind n = p.kind n := by
  rw [kind, kind, kind?_withRoot_of_ne other]
  split
  · rfl
  · rw [withRoot, Arena.size_setKind]

theorem sameRead (root : ∃ l, p.arena.kind? p.root = some (.root l)) (statements : List NodeId)
    (n : NodeId) :
    SameRead ((p.withRoot statements).kind n) (p.kind n) := by
  by_cases same : n = p.root
  · obtain ⟨l, found⟩ := root
    refine .inr ⟨statements, l, ?_, ?_⟩
    · rw [same, kind, withRoot, Arena.kind?_setKind, if_pos rfl, found]
      rfl
    · rw [same, kind, found]
  · exact .inl (kind_withRoot_of_ne same)

@[simp] theorem span_withRoot (n : NodeId) : (p.withRoot statements).span n = p.span n := by
  obtain ⟨i⟩ := n
  simp only [span, withRoot, Arena.node?, Arena.setKind, Array.getElem?_modify]
  by_cases same : p.root.index = i
  · rw [if_pos same]
    cases p.arena.nodes[i]? <;> rfl
  · rw [if_neg same]

variable (root : ∃ l, p.arena.kind? p.root = some (.root l))

include root

theorem declName_withRoot (d : Decl) : (p.withRoot statements).declName d = p.declName d := by
  cases d with
  | host host => rfl
  | node n =>
    simp only [declName]
    rcases sameRead root statements n with same | ⟨l, l', first, second⟩
    · rw [same]
      rfl
    · rw [first, second]
      rfl

theorem readName_withRoot (env : Env) (fs : Frames) (n : NodeId) (name : Name) :
    (p.withRoot statements).readName env fs n name = p.readName env fs n name := by
  have attrs : (p.withRoot statements).attrs = p.attrs := rfl
  simp only [readName, attrs]
  split <;> try rfl
  next d denotes =>
  rcases sameRead root statements d with same | ⟨l, l', first, second⟩
  · rw [same]
    rfl
  · rw [first, second]
    rfl

/-- A match on the kind of a node gives the same if it treats the root like any other kind. -/
theorem bind_kind_withRoot {α : Type} (n : NodeId) (next : NodeKind → Except OutOfRange α)
    (roots : ∀ l l', next (.root l) = next (.root l')) :
    ((p.withRoot statements).kind n >>= next) = (p.kind n >>= next) := by
  rcases sameRead root statements n with same | ⟨l, l', first, second⟩
  · rw [same]
  · rw [first, second]
    exact roots l l'

theorem bindParameters_withRoot (parameters : List NodeId) (arguments : List Value)
    (bindings : Bindings) : (p.withRoot statements).bindParameters parameters arguments bindings =
      p.bindParameters parameters arguments bindings := by
  induction parameters generalizing arguments bindings with
  | nil => cases arguments <;> rfl
  | cons parameter parameters ih =>
    cases arguments with
    | nil => rfl
    | cons v arguments =>
      simp only [bindParameters, ih]
      exact bind_kind_withRoot root parameter _ fun _ _ => rfl

theorem instanceFields_withRoot (fields : List NodeId) (values : List Value) :
    (p.withRoot statements).instanceFields fields values = p.instanceFields fields values := by
  induction fields generalizing values with
  | nil => cases values <;> rfl
  | cons field fields ih =>
    cases values with
    | nil => rfl
    | cons v values =>
      simp only [instanceFields, ih]
      exact bind_kind_withRoot root field _ fun _ _ => rfl

theorem instantiate_withRoot (decl : NodeId) (values : List Value) :
    (p.withRoot statements).instantiate decl values = p.instantiate decl values := by
  have text : (p.withRoot statements).text = p.text := rfl
  simp only [instantiate, instanceFields_withRoot root, text]
  rcases sameRead root statements decl with same | ⟨l, l', first, second⟩
  · rw [same]
  · rw [first, second]
    rfl

theorem watched_withRoot (env : Env) (fs : Frames) (target : NodeId) :
    (p.withRoot statements).watched env fs target = p.watched env fs target := by
  have attrs : (p.withRoot statements).attrs = p.attrs := rfl
  have text : (p.withRoot statements).text = p.text := rfl
  simp only [watched, attrs, text]
  rcases sameRead root statements target with same | ⟨l, l', first, second⟩
  · rw [same]
  · rw [first, second]
    rfl

theorem value_withRoot (h : Heap) (depth : Nat) (v : Value) :
    Writer.value (p.withRoot statements) h depth v = Writer.value p h depth v := by
  have text : (p.withRoot statements).text = p.text := rfl
  induction depth generalizing v with
  | zero => cases v <;> simp only [Writer.value, declName_withRoot root]
  | succ depth ih =>
    have inner : Writer.value (p.withRoot statements) h depth = Writer.value p h depth := funext ih
    cases v <;> simp only [Writer.value, declName_withRoot root, inner, text]

theorem render_withRoot (h : Heap) (v : Value) : render (p.withRoot statements) h v = render p h v := by
  simp only [render, value_withRoot root]

theorem binary_withRoot (h : Heap) (op : BinaryOp) (l r : Value) (leftTy rightTy : Ty) :
    Arith.binary (p.withRoot statements) h op l r leftTy rightTy =
      Arith.binary p h op l r leftTy rightTy := by
  simp only [Arith.binary, Arith.concat, render_withRoot root]

end Program

namespace Turn

variable {p : Program} {statements : List NodeId} (s : Turn)

section

variable (node : NodeId)

@[simp] theorem raise_withRoot (cause : Cause) :
    s.raise (p.withRoot statements) node cause = s.raise p node cause := by
  simp only [raise, Program.span_withRoot]

@[simp] theorem abort_withRoot (a : Abort) :
    s.abort (p.withRoot statements) node a = s.abort p node a := by
  cases a <;> simp only [abort, raise_withRoot]

@[simp] theorem orAbort_withRoot {α : Type} (result : Except Abort α) (next : α → Turn) :
    s.orAbort (p.withRoot statements) node result next = s.orAbort p node result next := by
  cases result <;> simp only [orAbort, abort_withRoot]

@[simp] theorem orFault_withRoot {α : Type} (result : Except Cause α) (next : α → Turn) :
    s.orFault (p.withRoot statements) node result next = s.orFault p node result next := by
  cases result <;> simp only [orFault, raise_withRoot]

@[simp] theorem ofNest_withRoot (result : Except Abort Nest) :
    s.ofNest (p.withRoot statements) node result = s.ofNest p node result := by
  simp only [ofNest, abort_withRoot]

end

variable (root : ∃ l, p.arena.kind? p.root = some (.root l))

include root

/-- What depends on the kind of a node is the same if it treats the root like any other kind. -/
theorem orAbort_kind_withRoot (node n : NodeId) (next : NodeKind → Turn)
    (roots : ∀ l l', next (.root l) = next (.root l')) :
    s.orAbort p node (Abort.ofRead ((p.withRoot statements).kind n)) next =
      s.orAbort p node (Abort.ofRead (p.kind n)) next := by
  rcases Program.sameRead root statements n with same | ⟨l, l', first, second⟩
  · rw [same]
  · rw [first, second]
    exact roots l l'

theorem enter_withRoot (id : NodeId) (kind : NodeKind) :
    enter (p.withRoot statements) s id kind = enter p s id kind := by
  cases kind with
  | assignment target value =>
    simp only [enter, raise_withRoot, orAbort_withRoot]
    exact orAbort_kind_withRoot s root id target _ fun _ _ => rfl
  | launchDecl declaration =>
    simp only [enter, raise_withRoot, orAbort_withRoot, orFault_withRoot]
    exact orAbort_kind_withRoot s root id declaration _ fun _ _ => rfl
  | reference name => simp only [enter, orAbort_withRoot, Program.readName_withRoot root]
  | arrayLiteral elements => cases elements <;> rfl
  | ret value => cases value <;> rfl
  | constructor reference =>
    simp only [enter, raise_withRoot]
    rfl
  | block statements =>
    simp only [enter, orFault_withRoot]
    rfl
  | _ => rfl

theorem callBuiltin_withRoot (id : NodeId) (name : String) (first : Option NodeId)
    (values : List Value) : callBuiltin (p.withRoot statements) s id name first values =
      callBuiltin p s id name first values := by
  simp only [callBuiltin, raise_withRoot, orAbort_withRoot, Program.render_withRoot root,
    Program.watched_withRoot root]

theorem apply_withRoot (id : NodeId) (callee : Value) (first : Option NodeId) (values : List Value) :
    apply (p.withRoot statements) s id callee first values = apply p s id callee first values := by
  have text : (p.withRoot statements).text = p.text := rfl
  simp only [apply, callBuiltin_withRoot s root, raise_withRoot, orAbort_withRoot, text,
    Program.span_withRoot, Program.instantiate_withRoot root]

theorem resume_withRoot (v : Value) (waiting : Pending) :
    resume (p.withRoot statements) s v waiting = resume p s v waiting := by
  have attrs : (p.withRoot statements).attrs = p.attrs := rfl
  have typeOf : (p.withRoot statements).typeOf = p.typeOf := rfl
  cases waiting with
  | element id done rest => cases rest <;> rfl
  | callee id arguments =>
    cases arguments with
    | nil => exact apply_withRoot s root id v none []
    | cons => rfl
  | argument id callee first done rest =>
    cases rest with
    | nil => exact apply_withRoot s root id callee first (done.reverse ++ [v])
    | cons => rfl
  | rightOperand id op left right l =>
    simp only [resume, ofNest_withRoot, typeOf, Program.binary_withRoot root]
  | readStem id field =>
    simp only [resume, orFault_withRoot]
    rfl
  | assignName id target name =>
    simp only [resume, orFault_withRoot]
    rfl
  | declaration id name =>
    simp only [resume, orFault_withRoot]
    rfl
  | storeElement id target a i =>
    simp only [resume, raise_withRoot]
    rfl
  | storeField id target stem field =>
    simp only [resume, raise_withRoot]
    rfl
  | _ => simp only [resume, raise_withRoot, orFault_withRoot]

theorem invoke_withRoot (span : Option Span) (function : NodeId) (arguments : List Value) :
    invoke (p.withRoot statements) s span function arguments = invoke p s span function arguments := by
  have attrs : (p.withRoot statements).attrs = p.attrs := rfl
  have text : (p.withRoot statements).text = p.text := rfl
  have frame : (p.withRoot statements).declaringFrame = p.declaringFrame := rfl
  simp only [invoke, Program.bindParameters_withRoot root, attrs, text, frame]
  rcases Program.sameRead root statements function with same | ⟨l, l', first, second⟩
  · rw [same]
  · rw [first, second]

/-- Whoever does not evaluate the root takes the same step. -/
theorem step_withRoot (who : ThreadId) (other : s.control ≠ .eval p.root) :
    s.step (p.withRoot statements) who = s.step p who := by
  obtain ⟨world, env, control, stack⟩ := s
  cases control with
  | eval id =>
    have away : id ≠ p.root := fun same => other (congrArg Control.eval same)
    simp only [step, Program.kind_withRoot_of_ne away, enter_withRoot _ root]
  | give v => cases stack <;> simp only [step, resume_withRoot _ root]
  | invoke span function arguments => exact invoke_withRoot _ root span function arguments
  | await id f name =>
    simp only [step, raise_withRoot]
    rfl
  | submit jobs => cases jobs <;> rfl
  | _ => rfl

end Turn

/-! ## 4. The program in sequence -/

namespace ForkJoin

variable {p : Program} (x : ForkJoin p)

/-- The program in which every launched variable is declared at its place, and nothing is waited for. -/
def sequential : Program :=
  p.withRoot (x.functions ++ x.forks.map Fork.declaration ++ [x.last])

end ForkJoin

end Strand
