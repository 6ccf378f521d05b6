/-!
# The shortest decimal that reads back

Reading a decimal rounds it to the nearest float, and to the one with the even significand if two
are equally near. The decimals that are read as `significand * 2 ^ exponent` form an interval around
it, which reaches half way to each neighbour; its ends belong to it iff the significand is even. The
lower neighbour of a power of two is nearer than the upper one.

Of that interval this module picks the decimal with the fewest digits, and of those the nearest one;
of two equally near ones the larger. It looks at ever finer decimal grids and, on each, only at the
two grid points around the number, for if a grid has a point in the interval then one of these two
is in it. All comparisons are exact.
-/

set_option autoImplicit false

namespace Strand

/-- The number `digits * 10 ^ exponent`. -/
structure Decimal where
  digits : Nat
  exponent : Int
deriving DecidableEq, Inhabited, Repr

namespace Decimal

/-- A number to be written: `significand * 2 ^ exponent`, and whether the float below it is only half
as far away as the one above it. -/
structure Target where
  significand : Nat
  exponent : Int
  narrowBelow : Bool

namespace Target

/-- The number, in units of a quarter of the distance to the float above it. -/
def center (t : Target) : Nat := 4 * t.significand

/-- The lower end of the interval, in the same units. -/
def lower (t : Target) : Nat := if t.narrowBelow then t.center - 1 else t.center - 2

/-- The upper end of the interval, in the same units. -/
def upper (t : Target) : Nat := t.center + 2

/-- The ends of the interval round to the number iff its significand is even. -/
def endsIncluded (t : Target) : Bool := t.significand % 2 == 0

/-- What turns a number of quarter units into a numerator over `gridUnit`, for the grid of the
multiples of `10 ^ k`. -/
def scale (t : Target) (k : Int) : Nat :=
  Nat.pow 2 (t.exponent - 2).toNat * Nat.pow 10 (-k).toNat

/-- The distance of two neighbours on the grid of the multiples of `10 ^ k`, as a numerator. -/
def gridUnit (t : Target) (k : Int) : Nat :=
  Nat.pow 10 k.toNat * Nat.pow 2 (2 - t.exponent).toNat

/-- Whether `d * 10 ^ k` lies in the interval. -/
def contains (t : Target) (k : Int) (d : Nat) : Bool :=
  let point := d * t.gridUnit k
  let low := t.lower * t.scale k
  let high := t.upper * t.scale k
  if t.endsIncluded then low ≤ point && point ≤ high else low < point && point < high

/-- The point in the interval that a grid offers, if it has one. -/
def onGrid? (t : Target) (k : Int) : Option Decimal :=
  let center := t.center * t.scale k
  let unit := t.gridUnit k
  let below := center / unit
  let above := below + 1
  let belowFits := below != 0 && t.contains k below
  let aboveFits := t.contains k above
  if belowFits && (!aboveFits || 2 * (center - below * unit) < unit) then some ⟨below, k⟩
  else if aboveFits then some ⟨above, k⟩
  else none

/-- A decimal exponent so large that no coarser grid has a point in the interval. -/
def topExponent (t : Target) : Int :=
  (t.exponent + t.significand.log2 + 1) * 30103 / 100000 + 1

/-- The number of grids that are looked at. Seventeen digits always suffice. -/
def gridCount : Nat := 20

/-- The number itself, with all its digits. -/
def exact (t : Target) : Decimal :=
  if 0 ≤ t.exponent then ⟨t.significand * Nat.pow 2 t.exponent.toNat, 0⟩
  else ⟨t.significand * Nat.pow 5 (-t.exponent).toNat, t.exponent⟩

/-- The decimal with the fewest digits that reads back as the number. -/
def shortest (t : Target) : Decimal :=
  let found := (List.range gridCount).findSome? fun (i : Nat) => t.onGrid? (t.topExponent - i)
  found.getD t.exact

end Target

end Decimal

end Strand
