/-
This file finds the shortest decimal that reads back as a given binary number, and writes
decimals in positional notation.
-/

namespace RouteSearch

/-- The number `digits * 10 ^ exponent`. -/
structure Decimal where
  digits : Nat
  exponent : Int
deriving DecidableEq

/-- A positive binary number `mantissa * 2 ^ exponent`, where `closerBelow` says that
its lower neighbour is half as far away as its upper one. -/
structure Binary where
  mantissa : Nat
  exponent : Int
  closerBelow : Bool

namespace Binary

/-- The two natural factors `quarter` and `unit` for which comparing
`quarters * 2 ^ (exponent - 2)` with `units * 10 ^ grid` is comparing `quarters * quarter` with
`units * unit`. -/
def scales (number : Binary) (grid : Int) : Nat × Nat :=
  let binary := number.exponent - 2
  (Nat.pow 2 binary.toNat * Nat.pow 10 (-grid).toNat,
    Nat.pow 2 (-binary).toNat * Nat.pow 10 grid.toNat)

/-- The ends of the interval of numbers nearest to this one, in quarters of its last place. -/
def interval (number : Binary) : Nat × Nat :=
  (4 * number.mantissa - (if number.closerBelow then 1 else 2), 4 * number.mantissa + 2)

/-- Whether `units * 10 ^ grid` reads back as the number. An end of the interval is as near to
the next number, and reading takes the one with an even mantissa. -/
def readsBack (number : Binary) (grid : Int) (units : Nat) : Bool :=
  let (quarter, unit) := number.scales grid
  let (low, high) := number.interval
  let place := units * unit
  if number.mantissa % 2 = 0 then
    decide (low * quarter ≤ place) && decide (place ≤ high * quarter)
  else
    decide (low * quarter < place) && decide (place < high * quarter)

/-- The multiple of `10 ^ grid` that reads back as the number and is nearest to it. Of two that
are equally near it is the greater one. -/
def onGrid? (number : Binary) (grid : Int) : Option Nat :=
  let (quarter, unit) := number.scales grid
  let exact := 4 * number.mantissa * quarter
  let below := exact / unit
  match number.readsBack grid below, number.readsBack grid (below + 1) with
  | true, true =>
      if exact - below * unit < (below + 1) * unit - exact then some below else some (below + 1)
  | true, false => some below
  | false, true => some (below + 1)
  | false, false => none

/-- The first grid with a hit, from `grid` downwards. -/
def searchGrids (number : Binary) : Nat → Int → Option Decimal
  | 0, _ => none
  | fuel + 1, grid =>
      match number.onGrid? grid with
      | some digits => some ⟨digits, grid⟩
      | none => number.searchGrids fuel (grid - 1)

/-- The shortest decimal that reads back: the coarsest grid with a hit. Every number of double
precision lies below `10 ^ 309`, and has a hit on a grid above `10 ^ (-342)`. -/
def shortest (number : Binary) : Decimal :=
  (number.searchGrids 651 309).getD ⟨0, 0⟩

end Binary

/-- Positional notation, without a point where nothing stands behind it. -/
def Decimal.positional (decimal : Decimal) : String :=
  let digits := toString decimal.digits
  if 0 ≤ decimal.exponent then
    digits ++ "".pushn '0' decimal.exponent.toNat
  else
    let places := (-decimal.exponent).toNat
    let padded := "".pushn '0' (places + 1 - digits.length) ++ digits
    String.ofList (padded.toList.take (padded.length - places)) ++ "." ++
      String.ofList (padded.toList.drop (padded.length - places))

end RouteSearch
