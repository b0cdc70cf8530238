import LazyQuery.Number.Rounding

/-!
# Shortest decimals

A finite positive number is written with the fewest digits that read back as that number.  On each decimal grid, from
the coarsest on, the two neighbours of the exact value are tried, the nearer one first; the first that reads back is
taken.  Reading back is asked of `Number.ofDecimal` itself.

* `Decimal.nearestOnGrid?` — the neighbour on one grid that reads back;
* `Decimal.shortest` — the first such neighbour over all grids, and otherwise the exact value.
-/

namespace LazyQuery

/-- The decimal `coefficient · 10 ^ exponent`. -/
structure Decimal where
  coefficient : Nat
  exponent : Int
  deriving DecidableEq, Repr

namespace Decimal

/-- Which of two equally near decimals is taken. -/
inductive Tie where
  | toEven
  | up
  deriving DecidableEq, Repr

/-- Does the decimal read back as the number of this rank? -/
def readsBackAs (d : Decimal) (rank : Nat) : Bool :=
  Number.ofDecimal false d.coefficient d.exponent == Number.ofRank false rank

/-- The exact magnitude of a finite rank as a quotient. -/
def exactRatio (rank : Nat) : Nat × Nat :=
  match Number.exponent rank with
  | .ofNat e => (Number.significand rank * Nat.pow 2 e, 1)
  | .negSucc e => (Number.significand rank, Nat.pow 2 (e + 1))

/-- The exact magnitude of a finite rank as a decimal. -/
def exact (rank : Nat) : Decimal :=
  match Number.exponent rank with
  | .ofNat e => ⟨Number.significand rank * Nat.pow 2 e, 0⟩
  | .negSucc e => ⟨Number.significand rank * Nat.pow 5 (e + 1), .negSucc e⟩

/-- The quotient `num / den` in units of `10 ^ place`. -/
def scaleBy (num den : Nat) : Int → Nat × Nat
  | .ofNat p => (num, den * Nat.pow 10 p)
  | .negSucc p => (num * Nat.pow 10 (p + 1), den)

/-- How many decimal digits a whole number has. -/
def digitCount (n : Nat) : Nat :=
  (Nat.toDigits 10 n).length

/-- The decimal place of the first digit of a positive quotient. -/
def leadingPlace (num den : Nat) : Int :=
  if den ≤ num then (digitCount (num / den) : Int) - 1
  else -(digitCount ((den + num - 1) / num - 1) : Int)

/-- Is the upper of the two grid points around `num / den` the one to try first? -/
def prefersAbove (tie : Tie) (num den : Nat) : Bool :=
  match compare (2 * (num % den)) den with
  | .lt => false
  | .gt => true
  | .eq =>
    match tie with
    | .toEven => num / den % 2 == 1
    | .up => true

/-- The neighbour of a number's exact value on the grid of multiples of `10 ^ place` that reads back, if there is one:
the nearer if it does, else the other. -/
def nearestOnGrid? (tie : Tie) (rank : Nat) (place : Int) : Option Decimal :=
  let (num, den) := exactRatio rank
  let (num, den) := scaleBy num den place
  let below : Decimal := ⟨num / den, place⟩
  let above : Decimal := ⟨num / den + 1, place⟩
  let (near, far) := if prefersAbove tie num den then (above, below) else (below, above)
  if near.readsBackAs rank then some near
  else if far.readsBackAs rank then some far
  else none

/-- The decimal with the fewest digits that reads back as the number of the given finite rank, the nearest of those.
Seventeen digits are always enough. -/
def shortest (tie : Tie) (rank : Nat) : Decimal :=
  let (num, den) := exactRatio rank
  let lead := leadingPlace num den
  ((List.range 17).findSome? fun (digits : Nat) => nearestOnGrid? tie rank (lead - digits)).getD (exact rank)

end Decimal

end LazyQuery
