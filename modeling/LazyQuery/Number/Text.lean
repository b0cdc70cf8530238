import LazyQuery.Decimal.Layout
import LazyQuery.Decimal.Reader
import LazyQuery.Text.Blank

/-!
# The text of a number

A number without fraction below `2 ^ 63` in magnitude is written as an integer.  Every other finite number is written
with its shortest digits, laid out as the form says.

* `Number.plainText` — the form used when a number is cast to a string: never a power of ten;
* `Number.decimalText` — the form used in JSON: a power of ten below `10 ^ -5` and from `10 ^ 16` on.
-/

namespace LazyQuery

/-- How numbers with a fraction, and very large ones, are laid out. -/
structure NumberForm where
  tie : Decimal.Tie
  /-- Is a number with its first digit at this decimal place written in full? -/
  inFull : Int → Bool

namespace NumberForm

/-- Digits are always written in full, and a tie between two shortest decimals goes up. -/
def plain : NumberForm where
  tie := .up
  inFull _ := true

/-- Digits are written in full from `10 ^ -5` up to `10 ^ 16`, and a tie goes to the even digit. -/
def json : NumberForm where
  tie := .toEven
  inFull lead := -5 ≤ lead && lead < 16

end NumberForm

namespace Number

/-- The integer that a number is written as, if it has no fraction and is below `2 ^ 63` in magnitude. -/
def writtenInteger? (x : Number) : Option Int :=
  match x.whole? with
  | some i => if i.natAbs < 0x8000000000000000 then some i else none
  | none => none

/-- The text of a finite number other than zero by its shortest digits. -/
def shortestText (form : NumberForm) (negative : Bool) (rank : Nat) : String :=
  let s := (Decimal.shortest form.tie rank).significant
  let digits := if form.inFull s.lead then s.inFull else s.withPower
  String.ofList (if negative then '-' :: digits else digits)

/-- The text of a finite number. -/
def finiteText (form : NumberForm) (negative : Bool) (rank : Nat) : String :=
  match writtenInteger? (ofRank negative rank) with
  | some i => toString i
  | none => shortestText form negative rank

/-- The text of a number cast to a string. -/
def plainText : Number → String
  | .nan _ => "NaN"
  | .real negative rank =>
    if rank.val < infiniteRank then finiteText .plain negative rank
    else if negative then "-inf"
    else "inf"

/-- The text of a finite number in JSON. -/
def decimalText : Number → Option String
  | .nan _ => none
  | .real negative rank => if rank.val < infiniteRank then some (finiteText .json negative rank) else none

/-- The number that a text denotes, blanks at its ends apart. -/
def ofText? (text : String) : Option Number :=
  ofChars? (trimBlanks text.toList)

end Number

end LazyQuery
