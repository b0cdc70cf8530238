import LazyQuery.Number.Basic

/-!
# Rounding to a number

`Number.ofRatio` rounds an exact quotient to the nearest number, a quotient halfway between two numbers to the one of
even rank.  Integers and decimals are rounded through it.
-/

namespace LazyQuery

/-- `num / den` rounded to the nearest whole number, a half to the even neighbour. -/
def roundDiv (num den : Nat) : Nat :=
  let floor := num / den
  match compare (2 * (num % den)) den with
  | .lt => floor
  | .gt => floor + 1
  | .eq => floor + floor % 2

namespace Number

/-- The greatest `e` with `2 ^ e ≤ num / den`, for a positive quotient. -/
def floorLog2 (num den : Nat) : Int :=
  let e : Int := (num.log2 : Int) - den.log2
  let reached : Bool :=
    match e with
    | .ofNat k => den * Nat.pow 2 k ≤ num
    | .negSucc k => den ≤ num * Nat.pow 2 (k + 1)
  if reached then e else e - 1

/-- The power of two of the last binary place that a number near `num / den` has. -/
def lastPlace (num den : Nat) : Int :=
  max (-1074) (floorLog2 num den - 52)

/-- The rank nearest to the quotient `num / den`.  Counting in units of the last place, the ranks from one power of two
to the next are consecutive, so rounding up past the next power of two needs no case of its own. -/
def nearestRank (num den : Nat) : Nat :=
  if num = 0 then 0
  else
    let place := lastPlace num den
    let units :=
      match place with
      | .ofNat k => roundDiv num (den * Nat.pow 2 k)
      | .negSucc k => roundDiv (num * Nat.pow 2 (k + 1)) den
    (place + 1074).toNat * 0x10000000000000 + units

/-- The number nearest to `± num / den`. -/
def ofRatio (negative : Bool) (num den : Nat) : Number :=
  ofRank negative (nearestRank num den)

/-- The number nearest to an integer. -/
def ofInt (i : Int) : Number :=
  ofRatio (i < 0) i.natAbs 1

/-- The number nearest to a count. -/
def ofNat (n : Nat) : Number :=
  ofRatio false n 1

/-- The number nearest to `± coefficient · 10 ^ exponent`.  Magnitudes of more than 400 places before or after the point
are settled at once: they are infinite or vanish. -/
def ofDecimal (negative : Bool) (coefficient : Nat) (exponent : Int) : Number :=
  if coefficient = 0 then ofRank negative 0
  else if 400 < exponent then ofRank negative infiniteRank
  else if exponent + coefficient.log2 < -400 then ofRank negative 0
  else
    match exponent with
    | .ofNat e => ofRatio negative (coefficient * Nat.pow 10 e) 1
    | .negSucc e => ofRatio negative coefficient (Nat.pow 10 (e + 1))

end Number

end LazyQuery
