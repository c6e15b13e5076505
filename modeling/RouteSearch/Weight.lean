/-
This file says what the search asks of the numbers that lengths, speeds and costs are made of.
-/

namespace RouteSearch

/-- Numbers with an infinity, in which a cost is infinite when an edge must not be used.
`less` and `atMost` answer false when an operand is not a number. -/
class Weight (W : Type) extends Add W, Sub W, Div W where
  zero : W
  infinity : W
  /-- The number with the given digits, of which the last `places` stand behind the point. -/
  decimal (digits places : Nat) : W
  less : W → W → Bool
  atMost : W → W → Bool
  isNaN : W → Bool
  isInfinite : W → Bool
  text : W → String

namespace Weight

variable {W : Type} [Weight W]

/-- The order of a queue: what is not a number comes after everything else. -/
def precedes (first second : W) : Bool :=
  less first second || (!isNaN first && isNaN second)

/-- The smaller of two numbers; if one is not a number, the other one. -/
def smaller (first second : W) : W :=
  if isNaN first then second
  else if isNaN second then first
  else if less second first then second
  else first

def isFinite (weight : W) : Bool :=
  !isNaN weight && !isInfinite weight

end Weight

end RouteSearch
