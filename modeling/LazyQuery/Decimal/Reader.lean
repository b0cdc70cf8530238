import LazyQuery.Number.Rounding

/-!
# Reading decimals

A number is read from the whole of a text: an optional sign, then `inf`, `infinity` or `nan` in any case, or digits with
an optional point and an optional power of ten.  At least one digit must stand before or after the point.

A power of ten is read digit by digit until it has reached `2 ^ 16`; the digits after that must be digits, but they no
longer count.
-/

namespace LazyQuery.Number

/-- An optional sign; true for minus. -/
def readSign : List Char → Bool × List Char
  | '-' :: rest => (true, rest)
  | '+' :: rest => (false, rest)
  | rest => (false, rest)

/-- The digits at the front, and what follows them. -/
def readDigits (text : List Char) : List Char × List Char :=
  (text.takeWhile Char.isDigit, text.dropWhile Char.isDigit)

/-- An optional point with the digits after it. -/
def readFraction : List Char → List Char × List Char
  | '.' :: rest => readDigits rest
  | rest => ([], rest)

/-- The power of ten that the digits stand for. -/
def powerOfDigits (digits : List Char) : Nat :=
  digits.foldl (fun power c => if power < 0x10000 then 10 * power + (c.toNat - '0'.toNat) else power) 0

/-- An optional power of ten, which must end the text. -/
def readPower? : List Char → Option Int
  | [] => some 0
  | c :: rest =>
    if c = 'e' ∨ c = 'E' then
      let (negative, rest) := readSign rest
      let (digits, rest) := readDigits rest
      if digits.isEmpty ∨ ¬ rest.isEmpty then none
      else
        let power := powerOfDigits digits
        some (if negative then -(power : Int) else power)
    else none

/-- A decimal without sign. -/
def readDecimal? (negative : Bool) (text : List Char) : Option Number := do
  let (whole, rest) := readDigits text
  let (fraction, rest) := readFraction rest
  if whole.isEmpty ∧ fraction.isEmpty then none
  else
    let power ← readPower? rest
    some (ofDecimal negative (Nat.ofDigitChars 10 (whole ++ fraction) 0) (power - fraction.length))

/-- The number that a text without blanks around it denotes. -/
def ofChars? (text : List Char) : Option Number :=
  let (negative, rest) := readSign text
  match rest.map Char.toLower with
  | ['i', 'n', 'f'] => some (ofRank negative infiniteRank)
  | ['i', 'n', 'f', 'i', 'n', 'i', 't', 'y'] => some (ofRank negative infiniteRank)
  | ['n', 'a', 'n'] => some (.nan (.quiet negative))
  | _ => readDecimal? negative rest

end LazyQuery.Number
