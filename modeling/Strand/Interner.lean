import Strand.Ident

/-!
# The interner

An interner gives every text one `Name` and keeps the text of every name. The empty text is interned
from the start, as `Name.empty`.

Interning a text takes two looks at the table. The first only reads; a miss is followed by
`addIfMissing`, which looks again before it adds, because several threads may intern at once and the
text may have arrived in between. Each of the two is atomic, the pair is not.
-/

set_option autoImplicit false

namespace Strand

/-- The texts in the order of their interning, and the position of each text. -/
structure Interner where
  texts : Array String
  positions : Std.TreeMap String Nat

namespace Interner

/-- The interner that holds the empty text alone. -/
def new : Interner := ⟨#[""], (Std.TreeMap.empty).insert "" 0⟩

instance : Inhabited Interner := ⟨new⟩

/-- The name of a text, if the text was interned. -/
def find? (table : Interner) (text : String) : Option Name :=
  table.positions[text]?.map Name.mk

/-- The name of a text; a text that the table lacks is added at the end. -/
def addIfMissing (table : Interner) (text : String) : Name × Interner :=
  match table.find? text with
  | some name => (name, table)
  | none =>
    (⟨table.texts.size⟩, ⟨table.texts.push text, table.positions.insert text table.texts.size⟩)

/-- The name of a text, which is interned if it was not. -/
def intern (table : Interner) (text : String) : Name × Interner :=
  match table.find? text with
  | some name => (name, table)
  | none => table.addIfMissing text

/-- The text of a name; a name of another interner may have none here, and its text is then empty. -/
def lookup (table : Interner) (name : Name) : String := table.texts.getD name.index ""

/-- The number of texts, the empty one included. -/
def size (table : Interner) : Nat := table.texts.size

/-! ## Laws -/

/-- The two halves of the table are inverse to each other. -/
structure WellFormed (table : Interner) : Prop where
  inverse : ∀ (text : String) (i : Nat),
    table.positions[text]? = some i ↔ table.texts[i]? = some text

theorem find?_eq_some_iff {table : Interner} (h : table.WellFormed) {text : String} {name : Name} :
    table.find? text = some name ↔ table.texts[name.index]? = some text := by
  rw [← h.inverse text name.index, find?, Option.map_eq_some_iff]
  constructor
  · rintro ⟨i, found, rfl⟩
    exact found
  · intro found
    exact ⟨name.index, found, rfl⟩

theorem wellFormed_new : new.WellFormed := by
  refine ⟨fun text i => ?_⟩
  rw [new, Std.TreeMap.getElem?_insert]
  cases i <;> simp [Std.LawfulEqCmp.compare_eq_iff_eq]

/-- Adding keeps the table well-formed. A new text differs from all others because the second look
missed it. -/
theorem WellFormed.addIfMissing {table : Interner} (h : table.WellFormed) (text : String) :
    (table.addIfMissing text).2.WellFormed := by
  unfold Interner.addIfMissing
  cases missing : table.find? text with
  | some name => exact h
  | none =>
    have absent : table.positions[text]? = none := by simpa [find?] using missing
    refine ⟨fun other i => ?_⟩
    rw [Std.TreeMap.getElem?_insert, Array.getElem?_push]
    by_cases same : text = other
    · subst same
      have : ∀ i : Nat, table.texts[i]? ≠ some text := fun i found => by
        simp [(h.inverse text i).mpr found] at absent
      grind
    · have below := h.inverse other i
      grind

theorem WellFormed.intern {table : Interner} (h : table.WellFormed) (text : String) :
    (table.intern text).2.WellFormed := by
  unfold Interner.intern
  split
  · exact h
  · exact h.addIfMissing text

/-- The name that adding gives is the name of the text from then on. -/
theorem find?_addIfMissing (table : Interner) (text : String) :
    (table.addIfMissing text).2.find? text = some (table.addIfMissing text).1 := by
  unfold addIfMissing
  cases found : table.find? text with
  | some name => exact found
  | none => simp [find?]

theorem lookup_of_find? {table : Interner} (h : table.WellFormed) {text : String} {name : Name}
    (found : table.find? text = some name) : table.lookup name = text := by
  simp [lookup, (find?_eq_some_iff h).mp found]

end Interner

end Strand
