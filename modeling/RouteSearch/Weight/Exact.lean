/-
This file gives the exact numbers: fractions with infinities, computed without rounding.
-/

import RouteSearch.Weight

namespace RouteSearch

inductive Exact where
  | finite (value : Rat)
  | infinity
  | negativeInfinity
  | undefined
deriving DecidableEq

namespace Exact

def neg : Exact → Exact
  | .finite value => .finite (-value)
  | .infinity => .negativeInfinity
  | .negativeInfinity => .infinity
  | .undefined => .undefined

def add : Exact → Exact → Exact
  | .finite first, .finite second => .finite (first + second)
  | .undefined, _ | _, .undefined => .undefined
  | .infinity, .negativeInfinity | .negativeInfinity, .infinity => .undefined
  | .infinity, _ | _, .infinity => .infinity
  | .negativeInfinity, _ | _, .negativeInfinity => .negativeInfinity

def sub (first second : Exact) : Exact := add first (neg second)

/-- A number divided by zero is infinite, unless it is zero itself. -/
def div : Exact → Exact → Exact
  | .undefined, _ | _, .undefined => .undefined
  | .finite first, .finite second =>
      if second = 0 then
        if first = 0 then .undefined
        else if first < 0 then .negativeInfinity
        else .infinity
      else .finite (first / second)
  | .finite _, _ => .finite 0
  | infinite, .finite second => if second < 0 then neg infinite else infinite
  | _, _ => .undefined

def less : Exact → Exact → Bool
  | .finite first, .finite second => first < second
  | .finite _, .infinity => true
  | .negativeInfinity, .finite _ => true
  | .negativeInfinity, .infinity => true
  | _, _ => false

def atMost (first second : Exact) : Bool :=
  less first second || (first = second && first != .undefined)

def text : Exact → String
  | .finite value => s!"{value.num}/{value.den}"
  | .infinity => "inf"
  | .negativeInfinity => "-inf"
  | .undefined => "NaN"

instance : Weight Exact where
  add := add
  sub := sub
  div := div
  zero := .finite 0
  infinity := .infinity
  decimal digits places := .finite ((digits : Rat) / (10 : Rat) ^ places)
  less := less
  atMost := atMost
  isNaN number := number = .undefined
  isInfinite number := number = .infinity || number = .negativeInfinity
  text := text

end Exact

end RouteSearch
