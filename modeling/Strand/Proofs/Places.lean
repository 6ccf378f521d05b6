import Strand.Proofs.SideEffects

/-!
# Places that are read and written

`A[I]` and `A[I] = e` are evaluated on two paths. Both find the place first: the array, the index, and whether
the one is an array and the other an index at all. Then the one reads, and the other evaluates `e` and writes.
The same is so for `s.f` and `s.f = e`, but that the write path looks for the field last.

What comes before the value is common to both (`Program.Locates`), and whether the place is there does not
change while the value is computed, since objects keep their shapes. So the two paths fault together, and for
the same cause; and a write changes its place and nothing else (`Program.stores_agree_with_loads`).
-/

set_option autoImplicit false

namespace Strand

/-! ## 1. Elements -/

/-- What an array expression and an index expression come to: one of them does not give a value, or one of the
values is not what it should be, or they denote a position of an array. -/
inductive Located where
  | exits (e : Exit)
  | fails (cause : Cause)
  | element (a : ArrayId) (i : Nat)

/-- The array is evaluated, then the index, and each of the two values is checked before it goes on. -/
inductive Program.Locates (p : Program) (who : ThreadId) (env : Env) (w : World) (array index : NodeId) :
    World → Located → Prop
  | arrayExits (w₁ : World) (e : Exit) (evaluates : p.Evaluates who env w array w₁ (.exit e)) :
      Locates p who env w array index w₁ (.exits e)
  | noArray (w₁ : World) (v : Value) (cause : Cause) (evaluates : p.Evaluates who env w array w₁ (.value v))
      (fails : Arith.expectArray v = .error cause) : Locates p who env w array index w₁ (.fails cause)
  | indexExits (w₁ w₂ : World) (a : ArrayId) (e : Exit)
      (evaluates : p.Evaluates who env w array w₁ (.value (.array a)))
      (evaluates' : p.Evaluates who env w₁ index w₂ (.exit e)) : Locates p who env w array index w₂ (.exits e)
  | noIndex (w₁ w₂ : World) (a : ArrayId) (u : Value) (cause : Cause)
      (evaluates : p.Evaluates who env w array w₁ (.value (.array a)))
      (evaluates' : p.Evaluates who env w₁ index w₂ (.value u)) (fails : checkIndex u = .error cause) :
      Locates p who env w array index w₂ (.fails cause)
  | element (w₁ w₂ : World) (a : ArrayId) (u : Value) (i : Nat)
      (evaluates : p.Evaluates who env w array w₁ (.value (.array a)))
      (evaluates' : p.Evaluates who env w₁ index w₂ (.value u)) (position : checkIndex u = .ok i) :
      Locates p who env w array index w₂ (.element a i)

/-- An index is an integer from zero up to a fixed maximum. -/
theorem checkIndex_int (n : Int64) :
    checkIndex (.int n) =
      if n.toInt < 0 then .error (.negativeIndex n)
      else if 2147483646 ≤ n.toInt then .error (.indexTooLarge n)
      else .ok n.toInt.toNat := by
  have negative : n < 0 ↔ n.toInt < 0 := Int64.lt_iff_toInt_lt
  have large : maxIndex ≤ n ↔ 2147483646 ≤ n.toInt := Int64.le_iff_toInt_le
  simp only [checkIndex, Arith.expectInt, Value.asInt?, bind, Except.bind, negative, large]
  split
  · rfl
  · split <;> rfl

theorem checkIndex_eq_ok {u : Value} {i : Nat} :
    checkIndex u = .ok i ↔ ∃ n : Int64, u = .int n ∧ 0 ≤ n.toInt ∧ n.toInt < 2147483646 ∧ n.toInt.toNat = i := by
  cases u with
  | int n =>
    simp only [checkIndex_int, Value.int.injEq, exists_eq_left']
    split
    · simp
      omega
    · split
      · simp
        omega
      · simp
        omega
  | _ => simp [checkIndex, Arith.expectInt, Value.asInt?, bind, Except.bind]

section Elements

open Program Turn

variable {p : Program} {who : ThreadId} {env : Env} {w w' : World} {n target array index value : NodeId}
  {o : Outcome}

/-- How the evaluation of a node ends that goes on when its operands denote a position. -/
def Located.Leads (p : Program) (n : NodeId) (onward : ArrayId → Nat → Prop) (w₂ w' : World) (o : Outcome) :
    Located → Prop
  | exits e => w' = w₂ ∧ o = .exit e
  | fails cause => w' = w₂ ∧ o = raised p n cause
  | element a i => onward a i

/-- The two paths are one up to here: what waits for the array, and then for the index, checks each of them. -/
theorem ends_located {waiting : Pending} (waiting' : ArrayId → Pending)
    {onward : World → ArrayId → Nat → World → Outcome → Prop} (passes : Passes waiting)
    (passes' : ∀ a, Passes (waiting' a))
    (first : ∀ s v, resume p s v waiting = s.orFault p n (Arith.expectArray v) fun a => s.await index (waiting' a))
    (second : ∀ w₂ u a, Ends p who (resume p ⟨w₂, env, .give u, []⟩ u (waiting' a)) w' o ↔
      (∃ cause, checkIndex u = .error cause ∧ w' = w₂ ∧ o = raised p n cause) ∨
        ∃ i, checkIndex u = .ok i ∧ onward w₂ a i w' o) :
    Ends p who ⟨w, env, .eval array, [waiting]⟩ w' o ↔
      ∃ w₂ located, p.Locates who env w array index w₂ located ∧
        located.Leads p n (fun a i => onward w₂ a i w' o) w₂ w' o := by
  rw [ends_operand passes]
  refine ⟨?_, ?_⟩
  · rintro (⟨e, evaluates, rfl⟩ | ⟨w₁, v, evaluates, after⟩)
    · exact ⟨w', .exits e, .arrayExits w' e evaluates, rfl, rfl⟩
    · rw [first, ends_orFault] at after
      rcases after with ⟨cause, fails, rfl, rfl⟩ | ⟨a, found, after⟩
      · exact ⟨w', .fails cause, .noArray w' v cause evaluates fails, rfl, rfl⟩
      · obtain rfl := Arith.expectArray_eq_ok found
        rcases (ends_operand (passes' a)).mp after with ⟨e, evaluates', rfl⟩ | ⟨w₂, u, evaluates', after⟩
        · exact ⟨w', .exits e, .indexExits w₁ w' a e evaluates evaluates', rfl, rfl⟩
        · rcases (second w₂ u a).mp after with ⟨cause, fails, rfl, rfl⟩ | ⟨i, position, after⟩
          · exact ⟨w', .fails cause, .noIndex w₁ w' a u cause evaluates evaluates' fails, rfl, rfl⟩
          · exact ⟨w₂, .element a i, .element w₁ w₂ a u i evaluates evaluates' position, after⟩
  · rintro ⟨w₂, located, locates, leads⟩
    cases locates with
    | arrayExits w₁ e evaluates =>
      obtain ⟨rfl, rfl⟩ := leads
      exact .inl ⟨e, evaluates, rfl⟩
    | noArray w₁ v cause evaluates fails =>
      refine .inr ⟨w₂, v, evaluates, ?_⟩
      rw [first, ends_orFault]
      exact .inl ⟨cause, fails, leads⟩
    | indexExits w₁ w₂ a e evaluates evaluates' =>
      obtain ⟨rfl, rfl⟩ := leads
      refine .inr ⟨w₁, .array a, evaluates, ?_⟩
      rw [first, ends_orFault]
      exact .inr ⟨a, rfl, (ends_operand (passes' a)).mpr (.inl ⟨e, evaluates', rfl⟩)⟩
    | noIndex w₁ w₂ a u cause evaluates evaluates' fails =>
      refine .inr ⟨w₁, .array a, evaluates, ?_⟩
      rw [first, ends_orFault]
      refine .inr ⟨a, rfl, (ends_operand (passes' a)).mpr (.inr ⟨w₂, u, evaluates', ?_⟩)⟩
      exact (second w₂ u a).mpr (.inl ⟨cause, fails, leads⟩)
    | element w₁ w₂ a u i evaluates evaluates' position =>
      refine .inr ⟨w₁, .array a, evaluates, ?_⟩
      rw [first, ends_orFault]
      refine .inr ⟨a, rfl, (ends_operand (passes' a)).mpr (.inr ⟨w₂, u, evaluates', ?_⟩)⟩
      exact (second w₂ u a).mpr (.inr ⟨i, position, leads⟩)

/-- The fault of an access to a position that the array does not have. -/
def outside (h : Heap) (a : ArrayId) (i : Nat) : Cause := .indexOutOfBounds (Int64.ofNat i) (h.length a)

/-- An access reads the position. -/
theorem evaluates_access (is : p.kind n = .ok (.arrayAccess array index)) :
    p.Evaluates who env w n w' o ↔
      ∃ w₂ located, p.Locates who env w array index w₂ located ∧
        located.Leads p n (fun a i => w' = w₂ ∧
          ((∃ v, w₂.heap.element? a i = some v ∧ o = .value v) ∨
            w₂.heap.element? a i = none ∧ o = raised p n (outside w₂.heap a i))) w₂ w' o := by
  rw [evaluates_iff is]
  show Ends p who ⟨w, env, .eval array, [.accessedArray n index]⟩ w' o ↔ _
  apply ends_located (.accessIndex n) (fun s e => rfl) (fun a s e => rfl) (fun s v => rfl)
  intro w₂ u a
  refine ends_orFault.trans (or_congr_right (exists_congr fun i => and_congr_right fun _ => ?_))
  cases found : w₂.heap.element? a i with
  | some v => simp [ends_give]
  | none => simp [ends_raise, outside]

/-- An assignment to an element evaluates the value once the position is known, and then looks whether the array
has the position. -/
theorem evaluates_elementStore (is : p.kind n = .ok (.assignment target value))
    (targets : p.kind target = .ok (.arrayAccess array index)) :
    p.Evaluates who env w n w' o ↔
      ∃ w₂ located, p.Locates who env w array index w₂ located ∧
        located.Leads p n (fun a i =>
          (∃ e, p.Evaluates who env w₂ value w' (.exit e) ∧ o = .exit e) ∨
          ∃ w₃ u, p.Evaluates who env w₂ value w₃ (.value u) ∧
            (i < w₃.heap.length a ∧
                w' = { w₃ with heap := w₃.heap.setElement a i (u.widen (p.typeOf target)) } ∧
                o = .value (u.widen (p.typeOf target)) ∨
              ¬i < w₃.heap.length a ∧ w' = w₃ ∧ o = raised p n (outside w₃.heap a i))) w₂ w' o := by
  rw [evaluates_iff is]
  simp only [enter, targets, Abort.ofRead, orAbort]
  show Ends p who ⟨w, env, .eval array, [.storeArray n target index value]⟩ w' o ↔ _
  apply ends_located (.storeIndex n target value) (fun s e => rfl) (fun a s e => rfl) (fun s v => rfl)
  intro w₂ u a
  refine ends_orFault.trans (or_congr_right (exists_congr fun i => and_congr_right fun _ => ?_))
  show Ends p who ⟨w₂, env, .eval value, [.storeElement n target a i]⟩ w' o ↔ _
  refine (ends_operand fun s e => rfl).trans
    (or_congr_right (exists_congr fun w₃ => exists_congr fun u => and_congr_right fun _ => ?_))
  simp only [resume]
  by_cases inside : i < w₃.heap.length a
  · simp only [inside, if_true, true_and, not_true_eq_false, false_and, or_false]
    exact ends_of_over (o := .value (u.widen (p.typeOf target)))
  · simp only [inside, if_false, false_and, not_false_eq_true, true_and, false_or]
    exact ends_raise

/-- Why there is no element where the operands lead. -/
def Located.Faults (h : Heap) (cause : Cause) : Located → Prop
  | exits e => ∃ f, e = .fault f ∧ f.cause = cause
  | fails c => c = cause
  | element a i => h.length a ≤ i ∧ cause = outside h a i

/-- An array that is there is as long as it was. -/
theorem length_of_keeps {h h' : Heap} {a : ArrayId} (keeps : h.Keeps h') (live : h.Live (.array a)) :
    h'.length a = h.length a := by
  obtain ⟨elements, found⟩ := live
  obtain ⟨elements', found', same⟩ := keeps.arrays _ _ found
  simp only [Heap.length, Heap.elements, Array.getD_eq_getD_getElem?, found, found', Option.getD_some, same]

theorem element?_eq_none {h : Heap} {a : ArrayId} {i : Nat} : h.element? a i = none ↔ h.length a ≤ i := by
  simp [Heap.element?, Heap.length]

theorem exists_element? {h : Heap} {a : ArrayId} {i : Nat} : (∃ v, h.element? a i = some v) ↔ i < h.length a := by
  rw [← Option.isSome_iff_exists]
  simp [Heap.element?, Heap.length]

/-- The array that the operands denote is there. -/
theorem Program.Locates.live {a : ArrayId} {i : Nat} {w₂ : World} (whole : w.Whole)
    (locates : p.Locates who env w array index w₂ (.element a i)) : w₂.heap.Live (.array a) := by
  cases locates with
  | element w₁ w₂ a u i evaluates evaluates' position =>
    exact ((evaluates.whole whole).2 _ rfl).keeps evaluates'.keeps

theorem faultsWith_access (is : p.kind n = .ok (.arrayAccess array index)) (cause : Cause) :
    p.FaultsWith who env w n cause ↔
      ∃ w₂ located, p.Locates who env w array index w₂ located ∧ located.Faults w₂.heap cause := by
  refine ⟨?_, ?_⟩
  · rintro ⟨w', f, evaluates, rfl⟩
    obtain ⟨w₂, located, locates, leads⟩ := (evaluates_access is).mp evaluates
    refine ⟨w₂, located, locates, ?_⟩
    cases located with
    | exits e => exact ⟨f, (Outcome.exit.inj leads.2).symm, rfl⟩
    | fails c =>
      cases leads.2
      rfl
    | element a i =>
      obtain ⟨-, ⟨v, -, same⟩ | ⟨none, same⟩⟩ := leads
      · cases same
      · cases same
        exact ⟨element?_eq_none.mp none, rfl⟩
  · rintro ⟨w₂, located, locates, faults⟩
    cases located with
    | exits e =>
      obtain ⟨f, rfl, same⟩ := faults
      exact ⟨w₂, f, (evaluates_access is).mpr ⟨w₂, _, locates, rfl, rfl⟩, same⟩
    | fails c =>
      exact ⟨w₂, _, (evaluates_access is).mpr ⟨w₂, _, locates, rfl, rfl⟩, faults⟩
    | element a i =>
      obtain ⟨beyond, rfl⟩ := faults
      exact ⟨w₂, _, (evaluates_access is).mpr
        ⟨w₂, _, locates, rfl, .inr ⟨element?_eq_none.mpr beyond, rfl⟩⟩, rfl⟩

theorem succeeds_access (is : p.kind n = .ok (.arrayAccess array index)) :
    p.Succeeds who env w n ↔
      ∃ w₂ a i, p.Locates who env w array index w₂ (.element a i) ∧ i < w₂.heap.length a := by
  refine ⟨?_, ?_⟩
  · rintro ⟨w', v, evaluates⟩
    obtain ⟨w₂, located, locates, leads⟩ := (evaluates_access is).mp evaluates
    cases located with
    | exits e => cases leads.2
    | fails c => cases leads.2
    | element a i =>
      obtain ⟨-, ⟨v, found, -⟩ | ⟨-, same⟩⟩ := leads
      · exact ⟨w₂, a, i, locates, exists_element?.mp ⟨v, found⟩⟩
      · cases same
  · rintro ⟨w₂, a, i, locates, inside⟩
    obtain ⟨v, found⟩ := exists_element?.mpr inside
    exact ⟨w₂, v, (evaluates_access is).mpr ⟨w₂, _, locates, rfl, .inl ⟨v, found, rfl⟩⟩⟩

section Stores

variable (is : p.kind n = .ok (.assignment target value))
  (targets : p.kind target = .ok (.arrayAccess array index)) (whole : w.Whole)
  (gives : ∀ w₂ a i, p.Locates who env w array index w₂ (.element a i) → p.Succeeds who env w₂ value)

include is targets whole gives

/-- Where the value is known to come out, it is known before whether the position will be there. -/
theorem elementStore_iff :
    p.Evaluates who env w n w' o ↔
      ∃ w₂ located, p.Locates who env w array index w₂ located ∧
        located.Leads p n (fun a i => ∃ w₃ u, p.Evaluates who env w₂ value w₃ (.value u) ∧
          (i < w₂.heap.length a ∧
              w' = { w₃ with heap := w₃.heap.setElement a i (u.widen (p.typeOf target)) } ∧
              o = .value (u.widen (p.typeOf target)) ∨
            w₂.heap.length a ≤ i ∧ w' = w₃ ∧ o = raised p n (outside w₂.heap a i))) w₂ w' o := by
  rw [evaluates_elementStore is targets]
  refine exists_congr fun w₂ => exists_congr fun located => and_congr_right fun locates => ?_
  cases located with
  | exits | fails => exact Iff.rfl
  | element a i =>
    have length : ∀ w₃ u, p.Evaluates who env w₂ value w₃ (.value u) →
        w₃.heap.length a = w₂.heap.length a :=
      fun w₃ u evaluates => length_of_keeps evaluates.keeps (locates.live whole)
    refine ⟨?_, ?_⟩
    · rintro (⟨e, exits, -⟩ | ⟨w₃, u, evaluates, ends⟩)
      · obtain ⟨w₃, u, evaluates⟩ := gives w₂ a i locates
        cases (evaluates.unique exits).2
      · refine ⟨w₃, u, evaluates, ?_⟩
        rw [length w₃ u evaluates, outside, length w₃ u evaluates] at ends
        exact ends.imp id fun ⟨beyond, rest⟩ => ⟨Nat.le_of_not_lt beyond, rest⟩
    · rintro ⟨w₃, u, evaluates, ends⟩
      refine .inr ⟨w₃, u, evaluates, ?_⟩
      rw [length w₃ u evaluates, outside, length w₃ u evaluates]
      exact ends.imp id fun ⟨beyond, rest⟩ => ⟨Nat.not_lt.mpr beyond, rest⟩

theorem faultsWith_elementStore (cause : Cause) :
    p.FaultsWith who env w n cause ↔
      ∃ w₂ located, p.Locates who env w array index w₂ located ∧ located.Faults w₂.heap cause := by
  have ends : ∀ w' o, p.Evaluates who env w n w' o ↔ _ := fun w' o => elementStore_iff is targets whole gives
  refine ⟨?_, ?_⟩
  · rintro ⟨w', f, evaluates, rfl⟩
    obtain ⟨w₂, located, locates, leads⟩ := (ends w' _).mp evaluates
    refine ⟨w₂, located, locates, ?_⟩
    cases located with
    | exits e => exact ⟨f, (Outcome.exit.inj leads.2).symm, rfl⟩
    | fails c =>
      cases leads.2
      rfl
    | element a i =>
      obtain ⟨w₃, u, -, ⟨-, -, same⟩ | ⟨beyond, -, same⟩⟩ := leads
      · cases same
      · cases same
        exact ⟨beyond, rfl⟩
  · rintro ⟨w₂, located, locates, faults⟩
    cases located with
    | exits e =>
      obtain ⟨f, rfl, same⟩ := faults
      exact ⟨w₂, f, (ends w₂ _).mpr ⟨w₂, _, locates, rfl, rfl⟩, same⟩
    | fails c => exact ⟨w₂, _, (ends w₂ _).mpr ⟨w₂, _, locates, rfl, rfl⟩, faults⟩
    | element a i =>
      obtain ⟨beyond, rfl⟩ := faults
      obtain ⟨w₃, u, evaluates⟩ := gives w₂ a i locates
      exact ⟨w₃, _, (ends w₃ _).mpr ⟨w₂, _, locates, w₃, u, evaluates, .inr ⟨beyond, rfl, rfl⟩⟩, rfl⟩

theorem succeeds_elementStore :
    p.Succeeds who env w n ↔
      ∃ w₂ a i, p.Locates who env w array index w₂ (.element a i) ∧ i < w₂.heap.length a := by
  have ends : ∀ w' o, p.Evaluates who env w n w' o ↔ _ := fun w' o => elementStore_iff is targets whole gives
  refine ⟨?_, ?_⟩
  · rintro ⟨w', v, evaluates⟩
    obtain ⟨w₂, located, locates, leads⟩ := (ends w' _).mp evaluates
    cases located with
    | exits e => cases leads.2
    | fails c => cases leads.2
    | element a i =>
      obtain ⟨w₃, u, -, ⟨inside, -, -⟩ | ⟨-, -, same⟩⟩ := leads
      · exact ⟨w₂, a, i, locates, inside⟩
      · cases same
  · rintro ⟨w₂, a, i, locates, inside⟩
    obtain ⟨w₃, u, evaluates⟩ := gives w₂ a i locates
    exact ⟨_, _, (ends _ _).mpr ⟨w₂, _, locates, w₃, u, evaluates, .inl ⟨inside, rfl, rfl⟩⟩⟩

end Stores

/-! ### Effects -/

/-- Where the operands have no side effects, nothing has changed once they have led somewhere. -/
theorem Program.Locates.spares {w₂ : World} {located : Located} (free : p.SideEffectFree who env w array)
    (free' : ∀ w₁ v, p.Evaluates who env w array w₁ (.value v) → p.SideEffectFree who env w₁ index)
    (locates : p.Locates who env w array index w₂ located) : w.Spares w₂ := by
  cases locates with
  | arrayExits w₁ e evaluates => exact free _ _ evaluates
  | noArray w₁ v cause evaluates fails => exact free _ _ evaluates
  | indexExits w₁ w₂ a e evaluates evaluates' =>
    exact (free _ _ evaluates).trans (free' _ _ evaluates _ _ evaluates')
  | noIndex w₁ w₂ a u cause evaluates evaluates' fails =>
    exact (free _ _ evaluates).trans (free' _ _ evaluates _ _ evaluates')
  | element w₁ w₂ a u i evaluates evaluates' position =>
    exact (free _ _ evaluates).trans (free' _ _ evaluates _ _ evaluates')

/-- The operands denote an element that is there if the one is an array, and the other an integer that is a
position of it. -/
theorem exists_located :
    (∃ w₂ a i, p.Locates who env w array index w₂ (.element a i) ∧ i < w₂.heap.length a) ↔
      ∃ w₁ w₂ a, ∃ n : Int64, p.Evaluates who env w array w₁ (.value (.array a)) ∧
        p.Evaluates who env w₁ index w₂ (.value (.int n)) ∧
        0 ≤ n.toInt ∧ n.toInt < w₂.heap.length a ∧ n.toInt < 2 ^ 31 - 2 := by
  refine ⟨?_, ?_⟩
  · rintro ⟨w₂, a, i, locates, inside⟩
    cases locates with
    | element w₁ w₂ a u i evaluates evaluates' position =>
      obtain ⟨n, rfl, positive, small, rfl⟩ := checkIndex_eq_ok.mp position
      exact ⟨w₁, w₂, a, n, evaluates, evaluates', positive, by omega, by omega⟩
  · rintro ⟨w₁, w₂, a, n, evaluates, evaluates', positive, inside, small⟩
    have position : checkIndex (.int n) = .ok n.toInt.toNat :=
      checkIndex_eq_ok.mpr ⟨n, rfl, positive, by omega, rfl⟩
    exact ⟨w₂, a, n.toInt.toNat, .element w₁ w₂ a _ _ evaluates evaluates' position, by omega⟩

section Writes

variable (is : p.kind n = .ok (.assignment target value))
  (targets : p.kind target = .ok (.arrayAccess array index)) (whole : w.Whole)
  (free : p.SideEffectFree who env w array)
  (free' : ∀ w₁ v, p.Evaluates who env w array w₁ (.value v) → p.SideEffectFree who env w₁ index)
  (gives : ∀ w₂ a i, p.Locates who env w array index w₂ (.element a i) →
    p.SideEffectFree who env w₂ value ∧ p.Succeeds who env w₂ value)

include is targets whole free free' gives

/-- An assignment to an element that succeeds has written that element, and nothing else. -/
theorem elementStore_writes {v : Value} (evaluates : p.Evaluates who env w n w' (.value v)) :
    ∃ w₁ w₂ a, ∃ i : Int64, p.Evaluates who env w array w₁ (.value (.array a)) ∧
      p.Evaluates who env w₁ index w₂ (.value (.int i)) ∧
      w'.heap.element? a i.toInt.toNat = some v ∧ w.SparesBut (.element a i.toInt.toNat) w' := by
  obtain ⟨w₂, located, locates, leads⟩ :=
    (elementStore_iff is targets whole fun w₂ a i here => (gives w₂ a i here).2).mp evaluates
  have before := locates.spares free free'
  cases located with
  | exits e => cases leads.2
  | fails c => cases leads.2
  | element a i =>
    have quiet := (gives w₂ a i locates).1
    have live := locates.live whole
    cases locates with
    | element w₁ w₂ a u i arrays indexes position =>
      obtain ⟨n, rfl, -, -, rfl⟩ := checkIndex_eq_ok.mp position
      obtain ⟨w₃, x, values, ⟨inside, rfl, same⟩ | ⟨-, -, same⟩⟩ := leads
      · cases same
        rw [← length_of_keeps values.keeps live] at inside
        have writes := Heap.writes_setElement inside (x.widen (p.typeOf target))
        exact ⟨w₁, w₂, a, n, arrays, indexes, writes.written,
          (before.trans (quiet _ _ values)).write writes⟩
      · cases same

/-- An assignment to an element that faults has changed nothing. -/
theorem elementStore_clean {f : Fault} (evaluates : p.Evaluates who env w n w' (.exit (.fault f))) :
    w.Spares w' := by
  obtain ⟨w₂, located, locates, leads⟩ :=
    (elementStore_iff is targets whole fun w₂ a i here => (gives w₂ a i here).2).mp evaluates
  have before := locates.spares free free'
  cases located with
  | exits e => exact leads.1 ▸ before
  | fails c => exact leads.1 ▸ before
  | element a i =>
    obtain ⟨w₃, u, values, ⟨-, -, same⟩ | ⟨-, rfl, -⟩⟩ := leads
    · cases same
    · exact before.trans ((gives w₂ a i locates).1 _ _ values)

end Writes

end Elements

/-! ## 2. Fields -/

section Fields

open Program Turn

variable {p : Program} {who : ThreadId} {env : Env} {w w' : World} {n target stem value : NodeId} {field : Name}
  {o : Outcome}

/-- An access to a field reads it. -/
theorem evaluates_field (is : p.kind n = .ok (.fieldAccess stem field)) :
    p.Evaluates who env w n w' o ↔
      (∃ e, p.Evaluates who env w stem w' (.exit e) ∧ o = .exit e) ∨
      ∃ w₁ v, p.Evaluates who env w stem w₁ (.value v) ∧
        ((∃ cause, p.readField w₁.heap v field = .error cause ∧ w' = w₁ ∧ o = raised p n cause) ∨
          ∃ u, p.readField w₁.heap v field = .ok u ∧ w' = w₁ ∧ o = .value u) := by
  rw [evaluates_iff is]
  show Ends p who ⟨w, env, .eval stem, [.readStem n field]⟩ w' o ↔ _
  refine (ends_operand fun s e => rfl).trans
    (or_congr_right (exists_congr fun w₁ => exists_congr fun v => and_congr_right fun _ => ?_))
  exact ends_orFault.trans (or_congr_right (exists_congr fun u => and_congr_right fun _ => ends_give))

/-- The fields of an instance are those that can be read. -/
theorem readField_eq_ok {h : Heap} {v : Value} (notArray : ∀ a, v ≠ .array a) :
    (∃ u, p.readField h v field = .ok u) ↔ ∃ r, v = .struct r ∧ (h.field? r field).isSome := by
  cases v with
  | array a => exact absurd rfl (notArray a)
  | struct r => cases found : h.field? r field <;> simp [readField, found]
  | _ => simp [readField]

/-- An assignment to a field of what is no array faults where the field cannot be read, and for the same
cause. -/
theorem ends_storeField {w₂ : World} {v u : Value} (notArray : ∀ a, v ≠ .array a) :
    Ends p who (resume p ⟨w₂, env, .give u, []⟩ u (.storeField n target v field)) w' o ↔
      (∃ cause, p.readField w₂.heap v field = .error cause ∧ w' = w₂ ∧ o = raised p n cause) ∨
      ∃ r, v = .struct r ∧ (w₂.heap.field? r field).isSome ∧
        w' = { w₂ with heap := w₂.heap.setField r field (u.widen (p.typeOf target)) } ∧
        o = .value (u.widen (p.typeOf target)) := by
  cases v with
  | array a => exact absurd rfl (notArray a)
  | struct r =>
    cases found : w₂.heap.field? r field with
    | none => simp [resume, readField, found, ends_raise]
    | some old =>
      simp only [resume, readField, found, Option.isSome_some, if_true, reduceCtorEq, false_and, exists_false,
        false_or, Value.struct.injEq, exists_eq_left', true_and]
      exact ends_of_over (o := .value (u.widen (p.typeOf target)))
  | _ => simp [resume, readField, ends_raise]

/-- An assignment to a field evaluates the stem and the value, and then looks for the field. -/
theorem evaluates_fieldStore (is : p.kind n = .ok (.assignment target value))
    (targets : p.kind target = .ok (.fieldAccess stem field)) :
    p.Evaluates who env w n w' o ↔
      (∃ e, p.Evaluates who env w stem w' (.exit e) ∧ o = .exit e) ∨
      ∃ w₁ v, p.Evaluates who env w stem w₁ (.value v) ∧
        ((∃ e, p.Evaluates who env w₁ value w' (.exit e) ∧ o = .exit e) ∨
        ∃ w₂ u, p.Evaluates who env w₁ value w₂ (.value u) ∧
          Ends p who (resume p ⟨w₂, env, .give u, []⟩ u (.storeField n target v field)) w' o) := by
  rw [evaluates_iff is]
  simp only [enter, targets, Abort.ofRead, orAbort]
  show Ends p who ⟨w, env, .eval stem, [.storeStem n target value field]⟩ w' o ↔ _
  refine (ends_operand fun s e => rfl).trans
    (or_congr_right (exists_congr fun w₁ => exists_congr fun v => and_congr_right fun _ => ?_))
  show Ends p who ⟨w₁, env, .eval value, [.storeField n target v field]⟩ w' o ↔ _
  exact ends_operand fun s e => rfl

/-- An instance that is there has the fields that it had. -/
theorem isSome_field?_of_keeps {h h' : Heap} {r : RecordId} (keeps : h.Keeps h') (live : h.Live (.struct r))
    (field : Name) :
    (h'.field? r field).isSome = (h.field? r field).isSome := by
  obtain ⟨fields, found⟩ := live
  obtain ⟨fields', found', -, names⟩ := keeps.records _ _ found
  have there : ∀ fields : List (Name × Value),
      (fields.lookup field).isSome = (fields.map Prod.fst).contains field := by
    intro fields
    induction fields with
    | nil => rfl
    | cons first rest ih =>
      rw [List.lookup_cons, List.map_cons, List.contains_cons]
      cases field == first.1 <;> simp [ih]
  simp only [Heap.field?, Heap.record, Record.get?, Array.getD_eq_getD_getElem?, found, found', Option.getD_some,
    there, names]

/-- What keeps the objects keeps the reason why a field cannot be read. -/
theorem readField_of_keeps {h h' : Heap} {v : Value} {cause : Cause} (keeps : h.Keeps h') (live : h.Live v)
    (notArray : ∀ a, v ≠ .array a) :
    p.readField h' v field = .error cause ↔ p.readField h v field = .error cause := by
  cases v with
  | array a => exact absurd rfl (notArray a)
  | struct r =>
    have same := isSome_field?_of_keeps keeps live field
    cases found : h.field? r field <;> cases found' : h'.field? r field <;> simp_all [readField]
  | _ => exact Iff.rfl

/-- Why there is no such field where the stem leads. -/
def FieldFaults (p : Program) (who : ThreadId) (env : Env) (w : World) (stem : NodeId) (field : Name)
    (cause : Cause) : Prop :=
  p.FaultsWith who env w stem cause ∨
    ∃ w₁ v, p.Evaluates who env w stem w₁ (.value v) ∧ p.readField w₁.heap v field = .error cause

theorem faultsWith_field (is : p.kind n = .ok (.fieldAccess stem field)) (cause : Cause) :
    p.FaultsWith who env w n cause ↔ FieldFaults p who env w stem field cause := by
  refine ⟨?_, ?_⟩
  · rintro ⟨w', f, evaluates, rfl⟩
    rcases (evaluates_field is).mp evaluates with
      ⟨e, exits, same⟩ | ⟨w₁, v, stems, ⟨c, fails, rfl, same⟩ | ⟨u, -, -, same⟩⟩
    · cases same
      exact .inl ⟨w', f, exits, rfl⟩
    · cases same
      exact .inr ⟨w', v, stems, fails⟩
    · cases same
  · rintro (⟨w', f, exits, same⟩ | ⟨w₁, v, stems, fails⟩)
    · exact ⟨w', f, (evaluates_field is).mpr (.inl ⟨_, exits, rfl⟩), same⟩
    · exact ⟨w₁, _, (evaluates_field is).mpr (.inr ⟨w₁, v, stems, .inl ⟨cause, fails, rfl, rfl⟩⟩), rfl⟩

theorem succeeds_field (is : p.kind n = .ok (.fieldAccess stem field))
    (notArray : ∀ w₁ a, ¬p.Evaluates who env w stem w₁ (.value (.array a))) :
    p.Succeeds who env w n ↔
      ∃ w₁ r, p.Evaluates who env w stem w₁ (.value (.struct r)) ∧ (w₁.heap.field? r field).isSome := by
  refine ⟨?_, ?_⟩
  · rintro ⟨w', v, evaluates⟩
    rcases (evaluates_field is).mp evaluates with
      ⟨e, -, same⟩ | ⟨w₁, x, stems, ⟨c, -, -, same⟩ | ⟨u, reads, -, -⟩⟩
    · cases same
    · cases same
    · have none : ∀ a, x ≠ .array a := by
        rintro a rfl
        exact notArray w₁ a stems
      obtain ⟨r, rfl, there⟩ := (readField_eq_ok none).mp ⟨u, reads⟩
      exact ⟨w₁, r, stems, there⟩
  · rintro ⟨w₁, r, stems, there⟩
    obtain ⟨u, reads⟩ := (readField_eq_ok (p := p) (v := .struct r) nofun).mpr ⟨r, rfl, there⟩
    exact ⟨w₁, u, (evaluates_field is).mpr (.inr ⟨w₁, _, stems, .inr ⟨u, reads, rfl, rfl⟩⟩)⟩

section Stores

variable (is : p.kind n = .ok (.assignment target value))
  (targets : p.kind target = .ok (.fieldAccess stem field)) (whole : w.Whole)
  (notArray : ∀ w₁ a, ¬p.Evaluates who env w stem w₁ (.value (.array a)))
  (gives : ∀ w₁ v, p.Evaluates who env w stem w₁ (.value v) → p.Succeeds who env w₁ value)

include is targets whole notArray gives

/-- Where the value is known to come out, it is known before whether the field will be there. -/
theorem fieldStore_iff :
    p.Evaluates who env w n w' o ↔
      (∃ e, p.Evaluates who env w stem w' (.exit e) ∧ o = .exit e) ∨
      ∃ w₁ v w₂ u, p.Evaluates who env w stem w₁ (.value v) ∧ p.Evaluates who env w₁ value w₂ (.value u) ∧
        ((∃ cause, p.readField w₁.heap v field = .error cause ∧ w' = w₂ ∧ o = raised p n cause) ∨
          ∃ r, v = .struct r ∧ (w₁.heap.field? r field).isSome ∧ (w₂.heap.field? r field).isSome ∧
            w' = { w₂ with heap := w₂.heap.setField r field (u.widen (p.typeOf target)) } ∧
            o = .value (u.widen (p.typeOf target))) := by
  rw [evaluates_fieldStore is targets]
  refine or_congr_right ?_
  have none : ∀ {w₁ v}, p.Evaluates who env w stem w₁ (.value v) → ∀ a, v ≠ .array a := by
    rintro w₁ v stems a rfl
    exact notArray w₁ a stems
  have fields : ∀ {w₁ w₂ r u}, p.Evaluates who env w stem w₁ (.value (.struct r)) →
      p.Evaluates who env w₁ value w₂ (.value u) →
      (w₂.heap.field? r field).isSome = (w₁.heap.field? r field).isSome :=
    fun stems evaluates => isSome_field?_of_keeps evaluates.keeps ((stems.whole whole).2 _ rfl) field
  refine ⟨?_, ?_⟩
  · rintro ⟨w₁, v, stems, ⟨e, exits, -⟩ | ⟨w₂, u, evaluates, ends⟩⟩
    · obtain ⟨w₂, u, evaluates⟩ := gives w₁ v stems
      cases (evaluates.unique exits).2
    · refine ⟨w₁, v, w₂, u, stems, evaluates, ?_⟩
      rcases (ends_storeField (none stems)).mp ends with ⟨cause, fails, rest⟩ | ⟨r, rfl, there, rest⟩
      · exact .inl ⟨cause,
          (readField_of_keeps evaluates.keeps ((stems.whole whole).2 _ rfl) (none stems)).mp fails, rest⟩
      · exact .inr ⟨r, rfl, fields stems evaluates ▸ there, there, rest⟩
  · rintro ⟨w₁, v, w₂, u, stems, evaluates, ends⟩
    refine ⟨w₁, v, stems, .inr ⟨w₂, u, evaluates, (ends_storeField (none stems)).mpr ?_⟩⟩
    rcases ends with ⟨cause, fails, rest⟩ | ⟨r, rfl, -, there, rest⟩
    · exact .inl ⟨cause,
        (readField_of_keeps evaluates.keeps ((stems.whole whole).2 _ rfl) (none stems)).mpr fails, rest⟩
    · exact .inr ⟨r, rfl, there, rest⟩

theorem faultsWith_fieldStore (cause : Cause) :
    p.FaultsWith who env w n cause ↔ FieldFaults p who env w stem field cause := by
  have ends : ∀ w' o, p.Evaluates who env w n w' o ↔ _ :=
    fun w' o => fieldStore_iff is targets whole notArray gives
  refine ⟨?_, ?_⟩
  · rintro ⟨w', f, evaluates, rfl⟩
    rcases (ends w' _).mp evaluates with
      ⟨e, exits, same⟩ | ⟨w₁, v, w₂, u, stems, -, ⟨c, fails, -, same⟩ | ⟨r, -, -, -, -, same⟩⟩
    · cases same
      exact .inl ⟨w', f, exits, rfl⟩
    · cases same
      exact .inr ⟨w₁, v, stems, fails⟩
    · cases same
  · rintro (⟨w', f, exits, same⟩ | ⟨w₁, v, stems, fails⟩)
    · exact ⟨w', f, (ends w' _).mpr (.inl ⟨_, exits, rfl⟩), same⟩
    · obtain ⟨w₂, u, evaluates⟩ := gives w₁ v stems
      exact ⟨w₂, _, (ends w₂ _).mpr (.inr ⟨w₁, v, w₂, u, stems, evaluates, .inl ⟨cause, fails, rfl, rfl⟩⟩), rfl⟩

theorem succeeds_fieldStore :
    p.Succeeds who env w n ↔
      ∃ w₁ r, p.Evaluates who env w stem w₁ (.value (.struct r)) ∧ (w₁.heap.field? r field).isSome := by
  have ends : ∀ w' o, p.Evaluates who env w n w' o ↔ _ :=
    fun w' o => fieldStore_iff is targets whole notArray gives
  refine ⟨?_, ?_⟩
  · rintro ⟨w', v, evaluates⟩
    rcases (ends w' _).mp evaluates with
      ⟨e, -, same⟩ | ⟨w₁, x, w₂, u, stems, -, ⟨c, -, -, same⟩ | ⟨r, rfl, there, -⟩⟩
    · cases same
    · cases same
    · exact ⟨w₁, r, stems, there⟩
  · rintro ⟨w₁, r, stems, there⟩
    obtain ⟨w₂, u, evaluates⟩ := gives w₁ _ stems
    have there' : (w₂.heap.field? r field).isSome :=
      (isSome_field?_of_keeps evaluates.keeps ((stems.whole whole).2 _ rfl) field).trans there
    exact ⟨_, _, (ends _ _).mpr (.inr ⟨w₁, _, w₂, u, stems, evaluates, .inr ⟨r, rfl, there, there', rfl, rfl⟩⟩)⟩

end Stores

/-- A write leaves every field at its position. -/
theorem position?_setField (h : Heap) (r : RecordId) (v : Value) :
    ((h.setField r field v).record r).position? field = (h.record r).position? field := by
  have named : ∀ fields : List (Name × Value), fields.findIdx? (fun x => x.1 = field) =
      (fields.map Prod.fst).findIdx? fun name => name = field := by
    intro fields
    rw [List.findIdx?_map]
    rfl
  simp only [Heap.record_setField, if_true, Record.position?, named, Record.names_setField]

section Writes

variable (is : p.kind n = .ok (.assignment target value))
  (targets : p.kind target = .ok (.fieldAccess stem field)) (whole : w.Whole)
  (free : p.SideEffectFree who env w stem)
  (notArray : ∀ w₁ a, ¬p.Evaluates who env w stem w₁ (.value (.array a)))
  (gives : ∀ w₁ v, p.Evaluates who env w stem w₁ (.value v) →
    p.SideEffectFree who env w₁ value ∧ p.Succeeds who env w₁ value)

include is targets whole free notArray gives

/-- An assignment to a field that succeeds has written that field, and nothing else. -/
theorem fieldStore_writes {v : Value} (evaluates : p.Evaluates who env w n w' (.value v)) :
    ∃ w₁ r i, p.Evaluates who env w stem w₁ (.value (.struct r)) ∧
      (w'.heap.record r).position? field = some i ∧
      w'.heap.field? r field = some v ∧ w.SparesBut (.field r i) w' := by
  rcases (fieldStore_iff is targets whole notArray fun w₁ v here => (gives w₁ v here).2).mp evaluates with
    ⟨e, -, same⟩ | ⟨w₁, x, w₂, u, stems, values, ⟨c, -, -, same⟩ | ⟨r, rfl, -, there, rfl, same⟩⟩
  · cases same
  · cases same
  · cases same
    obtain ⟨i, position⟩ := Heap.exists_position there
    have writes := Heap.writes_setField there position (u.widen (p.typeOf target))
    have position' := (position?_setField w₂.heap r (u.widen (p.typeOf target))).trans position
    refine ⟨w₁, r, i, stems, position', ?_, ?_⟩
    · rw [Heap.field?_eq, position', Option.bind_some]
      exact writes.written
    · exact ((free _ _ stems).trans ((gives _ _ stems).1 _ _ values)).write writes

/-- An assignment to a field that faults has changed nothing. -/
theorem fieldStore_clean {f : Fault} (evaluates : p.Evaluates who env w n w' (.exit (.fault f))) :
    w.Spares w' := by
  rcases (fieldStore_iff is targets whole notArray fun w₁ v here => (gives w₁ v here).2).mp evaluates with
    ⟨e, exits, -⟩ | ⟨w₁, x, w₂, u, stems, values, ⟨c, -, rfl, -⟩ | ⟨r, -, -, -, -, same⟩⟩
  · exact free _ _ exits
  · exact (free _ _ stems).trans ((gives _ _ stems).1 _ _ values)
  · cases same

end Writes

end Fields

/-! ## 3. Agreement -/

namespace Program

variable (p : Program) (who : ThreadId) (env : Env) (w : World)

/-- Two expressions fault for the same causes, with the same kinds and messages, and one has a value where the
other has. -/
structure FaultAlike (load store : NodeId) : Prop where
  faults : ∀ cause, p.FaultsWith who env w load cause ↔ p.FaultsWith who env w store cause
  succeeds : p.Succeeds who env w load ↔ p.Succeeds who env w store

/-- If an assignment faults, nothing has changed. -/
def FaultsCleanly (store : NodeId) : Prop :=
  ∀ w' f, p.Evaluates who env w store w' (.exit (.fault f)) → w.Spares w'

/-- Reading an element and writing it, whatever the state is in which the operands have no side effects and the
value comes out: the two fault alike; they succeed exactly with an array, and an integer that is a position of it
and below the fixed maximum; a write changes its element only, which then reads back what the assignment gave;
and a fault changes nothing. The same holds of the fields of what is not an array. -/
theorem stores_agree_with_loads (whole : w.Whole) :
    (∀ load store target array index value : NodeId,
      p.kind load = .ok (.arrayAccess array index) →
      p.kind store = .ok (.assignment target value) → p.kind target = .ok (.arrayAccess array index) →
      p.SideEffectFree who env w array →
      (∀ w₁ v, p.Evaluates who env w array w₁ (.value v) → p.SideEffectFree who env w₁ index) →
      (∀ w₁ v w₂ u, p.Evaluates who env w array w₁ (.value v) → p.Evaluates who env w₁ index w₂ (.value u) →
        p.SideEffectFree who env w₂ value ∧ p.Succeeds who env w₂ value) →
      p.FaultAlike who env w load store ∧
      (p.Succeeds who env w load ↔ ∃ w₁ w₂ a i,
        p.Evaluates who env w array w₁ (.value (.array a)) ∧
        p.Evaluates who env w₁ index w₂ (.value (.int i)) ∧
        0 ≤ i.toInt ∧ i.toInt < w₂.heap.length a ∧ i.toInt < 2 ^ 31 - 2) ∧
      (∀ w' v, p.Evaluates who env w store w' (.value v) → ∃ w₁ w₂ a i,
        p.Evaluates who env w array w₁ (.value (.array a)) ∧
        p.Evaluates who env w₁ index w₂ (.value (.int i)) ∧
        w'.heap.element? a i.toInt.toNat = some v ∧ w.SparesBut (.element a i.toInt.toNat) w') ∧
      p.FaultsCleanly who env w store) ∧
    ∀ (load store target stem value : NodeId) (field : Name),
      p.kind load = .ok (.fieldAccess stem field) →
      p.kind store = .ok (.assignment target value) → p.kind target = .ok (.fieldAccess stem field) →
      p.SideEffectFree who env w stem →
      (∀ w₁ a, ¬p.Evaluates who env w stem w₁ (.value (.array a))) →
      (∀ w₁ v, p.Evaluates who env w stem w₁ (.value v) →
        p.SideEffectFree who env w₁ value ∧ p.Succeeds who env w₁ value) →
      p.FaultAlike who env w load store ∧
      (p.Succeeds who env w load ↔ ∃ w₁ r,
        p.Evaluates who env w stem w₁ (.value (.struct r)) ∧ (w₁.heap.field? r field).isSome) ∧
      (∀ w' v, p.Evaluates who env w store w' (.value v) → ∃ w₁ r i,
        p.Evaluates who env w stem w₁ (.value (.struct r)) ∧
        (w'.heap.record r).position? field = some i ∧
        w'.heap.field? r field = some v ∧ w.SparesBut (.field r i) w') ∧
      p.FaultsCleanly who env w store := by
  refine ⟨?_, ?_⟩
  · intro load store target array index value loads is targets free free' gives
    have located : ∀ w₂ a i, p.Locates who env w array index w₂ (.element a i) →
        p.SideEffectFree who env w₂ value ∧ p.Succeeds who env w₂ value := by
      intro w₂ a i locates
      cases locates with
      | element w₁ w₂ a u i evaluates evaluates' position => exact gives _ _ _ _ evaluates evaluates'
    have comes := fun w₂ a i here => (located w₂ a i here).2
    refine ⟨⟨?_, ?_⟩, ?_, ?_, ?_⟩
    · intro cause
      exact (faultsWith_access loads cause).trans (faultsWith_elementStore is targets whole comes cause).symm
    · exact (succeeds_access loads).trans (succeeds_elementStore is targets whole comes).symm
    · exact (succeeds_access loads).trans exists_located
    · intro w' v evaluates
      exact elementStore_writes is targets whole free free' located evaluates
    · intro w' f evaluates
      exact elementStore_clean is targets whole free free' located evaluates
  · intro load store target stem value field loads is targets free notArray gives
    have comes := fun w₁ v here => (gives w₁ v here).2
    refine ⟨⟨?_, ?_⟩, succeeds_field loads notArray, ?_, ?_⟩
    · intro cause
      exact (faultsWith_field loads cause).trans
        (faultsWith_fieldStore is targets whole notArray comes cause).symm
    · exact (succeeds_field loads notArray).trans (succeeds_fieldStore is targets whole notArray comes).symm
    · intro w' v evaluates
      exact fieldStore_writes is targets whole free notArray gives evaluates
    · intro w' f evaluates
      exact fieldStore_clean is targets whole free notArray gives evaluates

/-! ### An element and a field -/

def places : Script :=
  [.struct "P" [("x", .plain .float)],
    .var "a" (.array (.plain .int)) (.array [.int 1, .int 2]),
    .var "s" (.struct "P") (.callWith (.constructor "P") [.int 1]),
    .expression (.assign (.index (.reference "a") (.int 0)) (.int 5)),
    .expression (.assign (.field (.reference "s") "x") (.int 7))]

def placesProgram : Program := places.program.toOption.getD default

/-- A run of it that has come to the assignments. -/
def placesRun : Run := (Run.initial placesProgram default).play placesProgram default (List.replicate 19 .main)

/-- Where the element and the field can be read, they can be written, and a write gives what is read then. -/
theorem places_stored :
    let w := placesRun.machine.world
    let env := placesRun.machine.main.env
    (∃ w' v a i, placesProgram.Evaluates .main env w ⟨15⟩ w' (.value v) ∧ w'.heap.element? a i = some v ∧
        w.SparesBut (.element a i) w') ∧
      ∃ w' v r i, placesProgram.Evaluates .main env w ⟨20⟩ w' (.value v) ∧
        w'.heap.field? r ⟨13⟩ = some v ∧ w.SparesBut (.field r i) w' := by
  intro w env
  have whole : w.Whole := (Run.whole_play placesProgram default _).world
  obtain ⟨elements, fields⟩ := stores_agree_with_loads placesProgram .main env w whole
  -- what the nodes are
  have access : placesProgram.kind ⟨13⟩ = .ok (.arrayAccess ⟨11⟩ ⟨12⟩) := kind_eq_ok.mpr (by decide +kernel)
  have array : placesProgram.kind ⟨11⟩ = .ok (.reference ⟨14⟩) := kind_eq_ok.mpr (by decide +kernel)
  have index : placesProgram.kind ⟨12⟩ = .ok (.intLiteral 0) := kind_eq_ok.mpr (by decide +kernel)
  have store : placesProgram.kind ⟨15⟩ = .ok (.assignment ⟨13⟩ ⟨14⟩) := kind_eq_ok.mpr (by decide +kernel)
  have five : placesProgram.kind ⟨14⟩ = .ok (.intLiteral 5) := kind_eq_ok.mpr (by decide +kernel)
  have read : placesProgram.kind ⟨18⟩ = .ok (.fieldAccess ⟨17⟩ ⟨13⟩) := kind_eq_ok.mpr (by decide +kernel)
  have stem : placesProgram.kind ⟨17⟩ = .ok (.reference ⟨15⟩) := kind_eq_ok.mpr (by decide +kernel)
  have store' : placesProgram.kind ⟨20⟩ = .ok (.assignment ⟨18⟩ ⟨19⟩) := kind_eq_ok.mpr (by decide +kernel)
  have seven : placesProgram.kind ⟨19⟩ = .ok (.intLiteral 7) := kind_eq_ok.mpr (by decide +kernel)
  -- names and integers have no side effects, and an integer has a value
  have name : ∀ {n name w}, placesProgram.kind n = .ok (.reference name) →
      placesProgram.SideEffectFree .main env w n := fun is =>
    Inert.sideEffectFree (.node _ _ [] is rfl (List.forall_mem_nil _)) .main env _
  have literal : ∀ {n i w}, placesProgram.kind n = .ok (.intLiteral i) →
      placesProgram.SideEffectFree .main env w n ∧ placesProgram.Succeeds .main env w n := fun is =>
    ⟨Inert.sideEffectFree (.node _ _ [] is rfl (List.forall_mem_nil _)) .main env _,
      _, _, (evaluates_iff is).mpr (Turn.ends_give.mpr ⟨rfl, rfl⟩)⟩
  -- the operands are what they should be
  have anArray : placesProgram.Evaluates .main env w ⟨11⟩ w (.value (.array ⟨0⟩)) :=
    Turn.evaluates_reference array (by decide +kernel)
  have aStruct : placesProgram.Evaluates .main env w ⟨17⟩ w (.value (.struct ⟨0⟩)) :=
    Turn.evaluates_reference stem (by decide +kernel)
  obtain ⟨alike, succeeds, stored, -⟩ := elements ⟨13⟩ ⟨15⟩ ⟨13⟩ ⟨11⟩ ⟨12⟩ ⟨14⟩ access store access (name array)
    (fun _ _ _ => (literal index).1) fun _ _ _ _ _ _ => literal five
  obtain ⟨alike', succeeds', stored', -⟩ := fields ⟨18⟩ ⟨20⟩ ⟨18⟩ ⟨17⟩ ⟨19⟩ ⟨13⟩ read store' read (name stem)
    (fun w₁ a other => by cases (aStruct.unique other).2) fun _ _ _ => literal seven
  refine ⟨?_, ?_⟩
  · obtain ⟨w', v, evaluates⟩ := alike.succeeds.mp (succeeds.mpr ⟨w, w, ⟨0⟩, 0, anArray,
      (evaluates_iff index).mpr (Turn.ends_give.mpr ⟨rfl, rfl⟩), by decide, by decide +kernel, by decide⟩)
    obtain ⟨w₁, w₂, a, i, -, -, reads, spares⟩ := stored w' v evaluates
    exact ⟨w', v, a, _, evaluates, reads, spares⟩
  · obtain ⟨w', v, evaluates⟩ := alike'.succeeds.mp (succeeds'.mpr ⟨w, ⟨0⟩, aStruct, by decide +kernel⟩)
    obtain ⟨w₁, r, i, -, -, reads, spares⟩ := stored' w' v evaluates
    exact ⟨w', v, r, i, evaluates, reads, spares⟩

end Program

end Strand
