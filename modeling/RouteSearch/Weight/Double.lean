/-
This file gives the numbers a route is computed with: double precision.
-/

import RouteSearch.Weight
import RouteSearch.Decimal.Shortest

namespace RouteSearch.Double

/-- The mantissa and the exponent that the bits of a positive finite number stand for. -/
def binary (number : Float) : Binary :=
  let bits := number.toBits.toNat
  let exponentBits : Nat := bits / Nat.pow 2 52 % Nat.pow 2 11
  let fraction := bits % Nat.pow 2 52
  if exponentBits = 0 then
    ⟨fraction, -1074, false⟩
  else
    ⟨fraction + Nat.pow 2 52, (exponentBits : Int) - 1075, fraction = 0 && 1 < exponentBits⟩

def isSigned (number : Float) : Bool :=
  Nat.pow 2 63 ≤ number.toBits.toNat

/-- The shortest digits that read back, always positional. -/
def text (number : Float) : String :=
  if number.isNaN then "NaN"
  else
    let sign := if isSigned number then "-" else ""
    let size := number.abs
    if number.isInf then sign ++ "inf"
    else if size == 0 then sign ++ "0"
    else sign ++ (binary size).shortest.positional

instance : Weight Float where
  zero := 0
  infinity := 1 / 0
  decimal digits places := Float.ofScientific digits true places
  less first second := first < second
  atMost first second := first ≤ second
  isNaN := Float.isNaN
  isInfinite := Float.isInf
  text := text

end RouteSearch.Double
