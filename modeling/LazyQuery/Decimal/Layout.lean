import LazyQuery.Decimal.Shortest

/-!
# Writing decimals

The digits of a decimal are laid out either in full (`0.0015`, `1500`) or with a power of ten (`1.5e-10`).
-/

namespace LazyQuery.Decimal

/-- The significant digits of a positive decimal, without zeros at the end, and the decimal place of the first. -/
structure Significant where
  digits : List Char
  lead : Int

def dropTrailingZeros (digits : List Char) : List Char :=
  (digits.reverse.dropWhile (· == '0')).reverse

def significant (d : Decimal) : Significant :=
  let digits := Nat.toDigits 10 d.coefficient
  ⟨dropTrailingZeros digits, d.exponent + digits.length - 1⟩

/-- All places from the first digit or the units to the last digit or the units. -/
def Significant.inFull (s : Significant) : List Char :=
  match s.lead with
  | .negSucc k => '0' :: '.' :: (List.replicate k '0' ++ s.digits)
  | .ofNat k =>
    let whole := s.digits.take (k + 1)
    let fraction := s.digits.drop (k + 1)
    whole ++ List.replicate (k + 1 - whole.length) '0'
      ++ if fraction.isEmpty then [] else '.' :: fraction

/-- One digit before the point, and the power of ten with its sign. -/
def Significant.withPower (s : Significant) : List Char :=
  let sign := if s.lead < 0 then '-' else '+'
  let rest := s.digits.drop 1
  s.digits.take 1 ++ (if rest.isEmpty then [] else '.' :: rest)
    ++ 'e' :: sign :: Nat.toDigits 10 s.lead.natAbs

end LazyQuery.Decimal
