import ExprLowering.Number.Binary64
import ExprLowering.Number.Decimal

/-!
# The fewest digits that read back

A finite positive double is the nearest one to every real number of an interval around it, its
rounding interval. `Shortest.decimal` takes the coarsest decimal grid that has a point in that
interval, and of two such points the nearer, the upper one if both are equally near. No decimal
with fewer digits reads back as the same double.

## Design notes

Everything is exact arithmetic on natural numbers. Reals are counted in quarters of the last
place, `2 ^ (scale - 2)`, so that both ends of the interval are whole; a grid point
`d * 10 ^ g` is compared with `x` quarters as `d * gridUnit` with `x * quarterUnit`.
-/

namespace ExprLowering.Shortest

/-- The lower end of the rounding interval, in quarters of the last place. -/
def lowerEnd (x : Binary64) : Nat :=
  4 * x.significand - if x.isBinadeStart then 1 else 2

/-- The upper end of the rounding interval, in quarters of the last place. -/
def upperEnd (x : Binary64) : Nat := 4 * x.significand + 2

/-- One step of the grid `10 ^ g`, in the unit shared with `quarterUnit`. -/
def gridUnit (x : Binary64) (g : Int) : Nat := Nat.pow 10 g.toNat <<< (2 - x.scale).toNat

/-- One quarter of the last place, in the unit shared with `gridUnit`. -/
def quarterUnit (x : Binary64) (g : Int) : Nat :=
  Nat.pow 10 (-g).toNat <<< (x.scale - 2).toNat

/-- Whether the grid point `d * 10 ^ g` lies in the rounding interval; the ends belong to it
exactly if the significand is even. -/
def rounds (x : Binary64) (g : Int) (d : Nat) : Bool :=
  let point := d * gridUnit x g
  let lower := lowerEnd x * quarterUnit x g
  let upper := upperEnd x * quarterUnit x g
  if x.significand % 2 = 0 then decide (lower ≤ point ∧ point ≤ upper)
  else decide (lower < point ∧ point < upper)

/-- The last grid point that is not above the number. -/
def below (x : Binary64) (g : Int) : Nat :=
  4 * x.significand * quarterUnit x g / gridUnit x g

/-- Whether the grid point after `below` is at least as near to the number as `below`. -/
def prefersAbove (x : Binary64) (g : Int) : Bool :=
  let exact := 4 * x.significand * quarterUnit x g
  let d := below x g
  decide ((d + 1) * gridUnit x g - exact ≤ exact - d * gridUnit x g)

/-- The nearer of the number's two neighbours on the grid among those in the rounding interval,
if there is one. -/
def onGrid? (x : Binary64) (g : Int) : Option Nat :=
  let d := below x g
  match rounds x g d, rounds x g (d + 1) with
  | true, true => some (if prefersAbove x g then d + 1 else d)
  | true, false => some d
  | false, true => some (d + 1)
  | false, false => none

/-- The exponent of the finest grid that is ever needed. -/
def finest : Int := -324

/-- An exponent from which on no grid has a point in the rounding interval: the number is below
`2 ^ (scale + 54)`, and `0.30103` is a little more than the decimal logarithm of 2. -/
def coarsest (x : Binary64) : Int := (x.scale + 54) * 30103 / 100000 + 1

/-- Searches the grids from `finest + steps` down to `finest`, which has a point in every
rounding interval. -/
def search (x : Binary64) : Nat → Decimal
  | 0 => ⟨(onGrid? x finest).getD (below x finest), finest⟩
  | steps + 1 =>
    let g := finest + (steps + 1 : Nat)
    match onGrid? x g with
    | some d => ⟨d, g⟩
    | none => search x steps

/-- The decimal with the fewest digits that reads back as the finite positive double `x`, and the
nearest to it among those. -/
def decimal (x : Binary64) : Decimal := search x (coarsest x - finest).toNat

end ExprLowering.Shortest
