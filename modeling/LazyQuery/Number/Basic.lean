/-!
# Numbers

The numbers of a query are the binary64 numbers.  Those that are not a number keep their bits (`NaNBits`).  Every other one
is a sign and a *rank*: its place in the list `0, smallest subnormal, …, largest finite, infinity` of the magnitudes.
Ranks are ordered like the magnitudes they stand for, so comparing numbers is comparing integers.

* `Number.key` — the signed rank, the same for the two zeros;
* `Number.significand`, `Number.exponent` — a finite magnitude is exactly `significand · 2 ^ exponent`;
* `Number.toInteger?` — the integer that a number without fraction denotes, kept within 64 bits;
* `Number.ofBits`, `Number.toBits` — the interchange format, in which every pattern of 64 bits is one number.
-/

namespace LazyQuery

/-- The rank of infinity; the ranks below it are the finite magnitudes in increasing order. -/
def infiniteRank : Nat := 0x7FF0000000000000

/-- The patterns of 64 bits whose magnitude is past infinity: those that are not a number. -/
def NaNBits : Type :=
  {bits : UInt64 // infiniteRank < bits.toNat % 0x8000000000000000}
  deriving DecidableEq

namespace NaNBits

/-- The pattern of a result that is not a number, with the given sign. -/
def quiet (negative : Bool) : NaNBits :=
  match negative with
  | false => ⟨0x7FF8000000000000, by decide⟩
  | true => ⟨0xFFF8000000000000, by decide⟩

instance : Repr NaNBits := ⟨fun bits precedence => reprPrec bits.val precedence⟩

end NaNBits

/-- A binary64 number. -/
inductive Number where
  | nan (bits : NaNBits := .quiet false)
  | real (negative : Bool) (rank : Fin (infiniteRank + 1))
  deriving DecidableEq, Repr

namespace Number

/-- The number with the given sign and the given rank, ranks past infinity standing for infinity. -/
def ofRank (negative : Bool) (rank : Nat) : Number :=
  .real negative ⟨min rank infiniteRank, by omega⟩

def zero : Number := ofRank false 0

def infinity : Number := ofRank false infiniteRank

instance : Inhabited Number := ⟨zero⟩

def isNaN : Number → Bool
  | .nan _ => true
  | .real _ _ => false

def isFinite : Number → Bool
  | .nan _ => false
  | .real _ rank => rank.val < infiniteRank

/-- The signed rank: negative numbers below zero, both zeros at zero.  What is not a number has none. -/
def key? : Number → Option Int
  | .nan _ => none
  | .real true rank => some (-rank.val)
  | .real false rank => some rank.val

/-! ## Comparing -/

/-- Numeric equality: the two zeros are equal, and what is not a number equals nothing. -/
def equals : Number → Number → Bool
  | .real s i, .real t j => i == j && (s == t || i == 0)
  | _, _ => false

/-- The sorting order: numeric, and what is not a number is below every number. -/
def order (x y : Number) : Ordering :=
  match x.key?, y.key? with
  | none, none => .eq
  | none, some _ => .lt
  | some _, none => .gt
  | some i, some j => compare i j

def isZero (x : Number) : Bool :=
  x.key? == some 0

/-! ## The value of a finite number -/

/-- The whole number `m` of the exact magnitude `m · 2 ^ e` with a finite rank. -/
def significand (rank : Nat) : Nat :=
  if rank < 0x10000000000000 then rank else 0x10000000000000 + rank % 0x10000000000000

/-- The power `e` of the exact magnitude `m · 2 ^ e` with a finite rank. -/
def exponent (rank : Nat) : Int :=
  if rank < 0x10000000000000 then -1074 else (rank / 0x10000000000000 : Nat) - 1075

/-- The magnitude of a finite rank, if it is a whole number. -/
def wholeMagnitude? (rank : Nat) : Option Nat :=
  match exponent rank with
  | .ofNat e => some (significand rank * Nat.pow 2 e)
  | .negSucc e =>
    if significand rank % Nat.pow 2 (e + 1) = 0 then some (significand rank / Nat.pow 2 (e + 1)) else none

/-- The exact integer that a finite number without fraction is. -/
def whole? : Number → Option Int
  | .nan _ => none
  | .real negative rank =>
    if rank.val < infiniteRank then
      (wholeMagnitude? rank).map fun m => if negative then -(m : Int) else m
    else none

/-- The least and the greatest integer of 64 bits. -/
def minInteger : Int := -0x8000000000000000
def maxInteger : Int := 0x7FFFFFFFFFFFFFFF

/-- The nearest integer of 64 bits. -/
def clampInteger (i : Int) : Int :=
  max minInteger (min i maxInteger)

/-- A number without fraction as an integer of 64 bits; beyond them the nearest of these is taken. -/
def toInteger? (x : Number) : Option Int :=
  x.whole?.map clampInteger

/-! ## Interchange format -/

/-- The number with the given 64 bits. -/
def ofBits (bits : UInt64) : Number :=
  let rank := bits.toNat % 0x8000000000000000
  if h : infiniteRank < rank then .nan ⟨bits, h⟩ else ofRank (bits.toNat / 0x8000000000000000 == 1) rank

/-- The 64 bits of a number. -/
def toBits : Number → UInt64
  | .nan bits => bits.val
  | .real negative rank => UInt64.ofNat (rank.val + if negative then 0x8000000000000000 else 0)

end Number

end LazyQuery
