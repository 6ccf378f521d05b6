import Mathlib.Data.Finset.Card
import Mathlib.Logic.Function.Basic
import Strand.Coordination.Task
import Strand.Interner

/-!
# An interner that threads share

To intern a text a thread looks at the table, and only if it misses the text it comes back and looks again
before it adds. In between any other thread may have interned the same text, or another one. `SharedInterner`
plays any order of such steps and remembers what every call gave.

The invariant, `Exact`, says that the table holds what was asked for and nothing else: a text has a name in it
exactly if some call has interned the text and got that name. All agreement follows, since the table gives a
text one name and a name one text (`SharedInterner.interning_agrees`).
-/

set_option autoImplicit false

namespace Strand

/-! ## 1. Calls -/

/-- A call that has come back, and what it gave. -/
inductive InternerCall where
  | intern (who : ThreadId) (text : String) (name : Name)
  | get (who : ThreadId) (text : String) (result : Option Name)
  | lookup (who : ThreadId) (name : Name) (text : String)
deriving DecidableEq, Repr

namespace InternerCall

/-- The text that a call has interned. -/
def interned? : InternerCall → Option String
  | intern _ text _ => some text
  | get .. | lookup .. => none

/-- After these calls the text is interned under the name. The empty text is from the start. -/
def Interned (calls : List InternerCall) (text : String) (name : Name) : Prop :=
  text = "" ∧ name = .empty ∨ ∃ who, intern who text name ∈ calls

/-- What a call gives, after the calls before it: looking for a text finds its name exactly if it is
interned, and the text of a name is the one that was interned under it. -/
def Truthful (before : List InternerCall) : InternerCall → Prop
  | intern _ text name => ∀ other, Interned before text other → name = other
  | get _ text result => ∀ name, result = some name ↔ Interned before text name
  | lookup _ name text => ∀ other, Interned before other name → text = other

theorem Interned.cons {calls : List InternerCall} {text : String} {name : Name}
    (interned : Interned calls text name) (call : InternerCall) : Interned (call :: calls) text name :=
  interned.imp_right fun ⟨who, member⟩ => ⟨who, List.mem_cons_of_mem _ member⟩

/-- A call that interns nothing adds nothing. -/
theorem interned_cons_of_none {calls : List InternerCall} {call : InternerCall}
    (idle : call.interned? = none) (text : String) (name : Name) :
    Interned (call :: calls) text name ↔ Interned calls text name := by
  refine ⟨Or.imp_right ?_, fun interned => interned.cons call⟩
  rintro ⟨who, member⟩
  rcases List.mem_cons.mp member with rfl | before
  · cases idle
  · exact ⟨who, before⟩

/-- A text is interned if a call has interned it, and from the start if it is empty. -/
theorem exists_interned_iff {calls : List InternerCall} {text : String} :
    (∃ name, Interned calls text name) ↔ text = "" ∨ text ∈ calls.filterMap interned? := by
  rw [List.mem_filterMap]
  constructor
  · rintro ⟨name, ⟨rfl, -⟩ | ⟨who, member⟩⟩
    · exact .inl rfl
    · exact .inr ⟨_, member, rfl⟩
  · rintro (rfl | ⟨call, member, asked⟩)
    · exact ⟨.empty, .inl ⟨rfl, rfl⟩⟩
    · cases call with
      | intern who other name =>
        cases asked
        exact ⟨name, .inr ⟨who, member⟩⟩
      | get | lookup => cases asked

end InternerCall

open InternerCall

/-! ## 2. The table -/

namespace Interner

variable {table : Interner}

/-- Adding a text leaves the names of all others. -/
theorem find?_addIfMissing_of_ne {text other : String} (ne : other ≠ text) :
    (table.addIfMissing text).2.find? other = table.find? other := by
  unfold addIfMissing
  cases table.find? text with
  | some name => rfl
  | none =>
    have apart : compare text other ≠ .eq := fun same => ne (Std.LawfulEqOrd.eq_of_compare same).symm
    simp only [find?, Std.TreeMap.getElem?_insert, apart, if_false]

/-- A text that is there keeps its name. -/
theorem addIfMissing_of_find? {text : String} {name : Name} (found : table.find? text = some name) :
    table.addIfMissing text = (name, table) := by
  simp only [addIfMissing, found]

theorem WellFormed.nodup (h : table.WellFormed) : table.texts.toList.Nodup := by
  rw [List.nodup_iff_injective_getElem]
  rintro ⟨i, iInside⟩ ⟨j, jInside⟩ same
  have same : table.texts.toList[i] = table.texts.toList[j] := same
  have there : table.texts[i]? = some table.texts.toList[i] := by
    rw [← Array.getElem?_toList, List.getElem?_eq_getElem]
  have also : table.texts[j]? = some table.texts.toList[i] := by
    rw [same, ← Array.getElem?_toList, List.getElem?_eq_getElem]
  exact Fin.ext (Option.some.inj (((h.inverse _ i).mpr there).symm.trans ((h.inverse _ j).mpr also)))

/-- The texts of the table are those that have a name. -/
theorem mem_texts_iff (h : table.WellFormed) {text : String} :
    text ∈ table.texts.toList ↔ ∃ name, table.find? text = some name := by
  rw [List.mem_iff_getElem?]
  constructor
  · rintro ⟨i, here⟩
    exact ⟨⟨i⟩, (find?_eq_some_iff h).mpr (by simpa using here)⟩
  · rintro ⟨name, found⟩
    exact ⟨name.index, by simpa using (find?_eq_some_iff h).mp found⟩

end Interner

/-! ## 3. Steps of threads -/

/-- An interner with the threads that use it. -/
structure SharedInterner where
  table : Interner
  /-- The text that a thread has missed and has still to look for again. -/
  missed : ThreadId → Option String
  /-- The calls that have come back, the latest first. -/
  calls : List InternerCall

/-- What a thread does next. -/
inductive InternerMove where
  /-- The first look of a call that interns a text. -/
  | look (who : ThreadId) (text : String)
  /-- The second look of a thread whose first one has missed. -/
  | add (who : ThreadId)
  | get (who : ThreadId) (text : String)
  | lookup (who : ThreadId) (name : Name)
deriving DecidableEq, Repr

namespace SharedInterner

def new : SharedInterner := ⟨.new, fun _ => none, []⟩

/-- A call comes back. -/
def answer (s : SharedInterner) (call : InternerCall) : SharedInterner := { s with calls := call :: s.calls }

/-- The interner after a move. A thread between its two looks makes no other call, and there is no second
look without a first one that has missed. -/
def move (s : SharedInterner) : InternerMove → SharedInterner
  | .look who text =>
    if (s.missed who).isSome then s
    else
      match s.table.find? text with
      | some name => s.answer (.intern who text name)
      | none => { s with missed := Function.update s.missed who (some text) }
  | .add who =>
    match s.missed who with
    | none => s
    | some text =>
      let (name, table) := s.table.addIfMissing text
      { s with table, missed := Function.update s.missed who none }.answer (.intern who text name)
  | .get who text =>
    if (s.missed who).isSome then s else s.answer (.get who text (s.table.find? text))
  | .lookup who name =>
    if (s.missed who).isSome then s else s.answer (.lookup who name (s.table.lookup name))

/-- The interner after a list of moves. -/
def play (s : SharedInterner) (moves : List InternerMove) : SharedInterner := moves.foldl move s

/-- Both looks of a call without anyone in between do what `Interner.intern` does at once. -/
theorem play_look_add (s : SharedInterner) {who : ThreadId} (free : s.missed who = none) (text : String) :
    (s.play [.look who text, .add who]).table = (s.table.intern text).2 ∧
      (s.play [.look who text, .add who]).calls = .intern who text (s.table.intern text).1 :: s.calls := by
  simp only [play, List.foldl_cons, List.foldl_nil, move, free, Option.isSome_none, Bool.false_eq_true,
    if_false, Interner.intern]
  cases s.table.find? text with
  | some name => simp [free, answer]
  | none => simp [answer]

/-- The table holds what was interned and nothing else, and every call gave the right answer. -/
structure Exact (s : SharedInterner) : Prop where
  wellFormed : s.table.WellFormed
  contents : ∀ text name, s.table.find? text = some name ↔ Interned s.calls text name
  truthful : ∀ after call before, s.calls = after ++ call :: before → call.Truthful before

variable {s : SharedInterner}

theorem exact_new : new.Exact := by
  refine ⟨Interner.wellFormed_new, fun text name => ?_, fun after call before split => ?_⟩
  · show Interner.new.find? text = some name ↔ Interned [] text name
    rw [Interner.find?_eq_some_iff Interner.wellFormed_new]
    obtain ⟨i⟩ := name
    cases i <;> simp [Interned, Interner.new, Name.empty, eq_comm]
  · simp [new] at split

/-- What holds of a call in the light of those before it stays true when another call comes back. -/
theorem truthful_cons {call : InternerCall} {calls : List InternerCall}
    (old : ∀ after call before, calls = after ++ call :: before → call.Truthful before)
    (now : call.Truthful calls) (after : List InternerCall) (other : InternerCall)
    (before : List InternerCall) (split : call :: calls = after ++ other :: before) :
    other.Truthful before := by
  cases after with
  | nil =>
    cases split
    exact now
  | cons first after =>
    cases split
    exact old after other before rfl

/-- A call that interns nothing leaves the table as exact as it was. -/
theorem Exact.answer_idle (h : s.Exact) {call : InternerCall} (idle : call.interned? = none)
    (truthful : call.Truthful s.calls) : (s.answer call).Exact :=
  ⟨h.wellFormed, fun text name => (h.contents text name).trans (interned_cons_of_none idle text name).symm,
    truthful_cons h.truthful truthful⟩

/-- A call that finds or adds its text gives the name that the text has from then on. -/
theorem Exact.intern (h : s.Exact) (who : ThreadId) (text : String)
    (missed : ThreadId → Option String) :
    (answer { s with table := (s.table.addIfMissing text).2, missed }
      (.intern who text (s.table.addIfMissing text).1)).Exact := by
  have known := s.table.find?_addIfMissing text
  refine ⟨h.wellFormed.addIfMissing text, fun other name => ?_, truthful_cons h.truthful ?_⟩
  · by_cases same : other = text
    · subst same
      show (s.table.addIfMissing other).2.find? other = some name ↔ _
      rw [known]
      constructor
      · rintro ⟨⟩
        exact .inr ⟨who, List.mem_cons_self⟩
      · intro interned
        rcases interned with ⟨rfl, rfl⟩ | ⟨whose, member⟩
        · rw [Interner.addIfMissing_of_find? ((h.contents "" .empty).mpr (.inl ⟨rfl, rfl⟩))]
        · rcases List.mem_cons.mp member with now | before
          · cases now
            rfl
          · rw [Interner.addIfMissing_of_find? ((h.contents other name).mpr (.inr ⟨whose, before⟩))]
    · show (s.table.addIfMissing text).2.find? other = some name ↔ _
      rw [Interner.find?_addIfMissing_of_ne same, h.contents]
      refine ⟨fun interned => interned.cons _, Or.imp_right ?_⟩
      rintro ⟨whose, member⟩
      rcases List.mem_cons.mp member with now | before
      · cases now
        exact absurd rfl same
      · exact ⟨whose, before⟩
  · intro other interned
    rw [Interner.addIfMissing_of_find? ((h.contents text other).mpr interned)]

theorem Exact.move (h : s.Exact) (next : InternerMove) : (s.move next).Exact := by
  cases next with
  | look who text =>
    simp only [SharedInterner.move]
    split
    · exact h
    · split
      · next name found =>
        have looked := h.intern who text s.missed
        rwa [Interner.addIfMissing_of_find? found] at looked
      · exact ⟨h.wellFormed, h.contents, h.truthful⟩
  | add who =>
    simp only [SharedInterner.move]
    split
    · exact h
    · next text _ => exact h.intern who text _
  | get who text =>
    simp only [SharedInterner.move]
    split
    · exact h
    · exact h.answer_idle rfl fun name => h.contents text name
  | lookup who name =>
    simp only [SharedInterner.move]
    split
    · exact h
    · refine h.answer_idle rfl fun text interned => ?_
      exact Interner.lookup_of_find? h.wellFormed ((h.contents text name).mpr interned)

/-! ## 4. Runs -/

theorem Exact.play (h : s.Exact) (moves : List InternerMove) : (s.play moves).Exact := by
  induction moves generalizing s with
  | nil => exact h
  | cons next moves ih => exact ih (h.move next)

/-- Calls that have come back are remembered. -/
theorem suffix_calls_move (s : SharedInterner) (next : InternerMove) : s.calls <:+ (s.move next).calls := by
  cases next with
  | look who text =>
    simp only [move]
    split
    · exact List.suffix_rfl
    · split
      · exact List.suffix_cons ..
      · exact List.suffix_rfl
  | add who =>
    simp only [move]
    split
    · exact List.suffix_rfl
    · exact List.suffix_cons ..
  | get who text | lookup who name =>
    simp only [move]
    split
    · exact List.suffix_rfl
    · exact List.suffix_cons ..

theorem suffix_calls_play (s : SharedInterner) (moves : List InternerMove) :
    s.calls <:+ (s.play moves).calls := by
  induction moves generalizing s with
  | nil => exact List.suffix_rfl
  | cons next moves ih => exact (suffix_calls_move s next).trans (ih _)

theorem interned_play {text : String} {name : Name} (interned : Interned s.calls text name)
    (moves : List InternerMove) : Interned (s.play moves).calls text name :=
  interned.imp_right fun ⟨who, member⟩ => ⟨who, (suffix_calls_play s moves).subset member⟩

theorem Exact.size_eq (h : s.Exact) :
    s.table.size = (insert "" (s.calls.filterMap interned?).toFinset).card := by
  have texts : insert "" (s.calls.filterMap interned?).toFinset = s.table.texts.toList.toFinset := by
    ext text
    rw [Finset.mem_insert, List.mem_toFinset, List.mem_toFinset, ← exists_interned_iff,
      Interner.mem_texts_iff h.wellFormed]
    exact exists_congr fun name => (h.contents text name).symm
  rw [texts, List.toFinset_card_of_nodup h.wellFormed.nodup, Array.length_toList]
  rfl

/-- However the looks of several threads at one interner are interleaved, calls agree. Two calls get the same
name exactly if they intern the same text, and the name has that text from then on. A text is in the table
exactly if a call has interned it, so looking adds nothing, and every call that only looks gives the right
answer. The table holds no text twice, its two halves are inverse, and it has as many entries as there are
different texts, the empty one included, whose name is the first. -/
theorem interning_agrees (moves : List InternerMove) :
    let s := new.play moves
    (∀ text text' name name', Interned s.calls text name → Interned s.calls text' name' →
      (name = name' ↔ text = text')) ∧
    (∀ text name, Interned s.calls text name →
      ∀ later, (s.play later).table.lookup name = text ∧ (s.play later).table.find? text = some name) ∧
    (∀ text name, s.table.find? text = some name ↔ Interned s.calls text name) ∧
    (∀ after call before, s.calls = after ++ call :: before → call.Truthful before) ∧
    s.table.texts.toList.Nodup ∧
    (∀ (text : String) (i : Nat), s.table.positions[text]? = some i ↔ s.table.texts[i]? = some text) ∧
    s.table.size = (insert "" (s.calls.filterMap interned?).toFinset).card ∧
    s.table.texts[Name.empty.index]? = some "" := by
  intro s
  have h : s.Exact := exact_new.play moves
  refine ⟨fun text text' name name' one other => ?_, fun text name interned later => ?_, h.contents,
    h.truthful, h.wellFormed.nodup, h.wellFormed.inverse, h.size_eq, ?_⟩
  · have found := (h.contents text name).mpr one
    have found' := (h.contents text' name').mpr other
    constructor
    · rintro rfl
      exact (Interner.lookup_of_find? h.wellFormed found).symm.trans
        (Interner.lookup_of_find? h.wellFormed found')
    · rintro rfl
      exact Option.some.inj (found.symm.trans found')
  · have h' := h.play later
    have found := (h'.contents text name).mpr (interned_play interned later)
    exact ⟨Interner.lookup_of_find? h'.wellFormed found, found⟩
  · exact (Interner.find?_eq_some_iff h.wellFormed).mp ((h.contents "" .empty).mpr (.inl ⟨rfl, rfl⟩))

end SharedInterner

end Strand
