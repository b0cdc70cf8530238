import LazyQuery.Item.Order
import LazyQuery.Number.Arithmetic
import LazyQuery.Operator.Part
import LazyQuery.Sequence.Reduce

/-!
# Operators that consume their source

Each goes through the sequence no further than its answer needs.

* element access: `Sequence.first`, `Sequence.last`, `Sequence.single`, `Sequence.elementAt`;
* quantifiers: `Sequence.contains`, `Sequence.equalTo`, `Sequence.any`, `Sequence.all`;
* aggregates: `Sequence.count`, `Sequence.extreme`, `Sequence.sum`, `Sequence.average`, `Sequence.aggregate`.
-/

namespace LazyQuery.Sequence

/-! ## Element access -/

/-- The result where no item was accepted. -/
def absence (operator : String) (whenAbsent : WhenAbsent) (sawAny : Bool) : Except QueryError (Option Item) :=
  match whenAbsent with
  | .noValue => .ok none
  | .fails => .error (if sawAny then .noMatch operator else .emptySequence operator)

/-- The first accepted item. -/
def first (operator : String) (whenAbsent : WhenAbsent) (predicate : Option Callable) (budget : Nat)
    (s : Sequence) : Eval (Option Item) :=
  reduce
    (fun (_ : Bool) item => do
      if ← Callable.accepts predicate item then return .settled (some item) else return .more true)
    (absence operator whenAbsent) budget false s

/-- Whether any item was seen, and the item found so far. -/
structure Finding where
  sawAny : Bool := false
  found : Option Item := none

def Finding.result (operator : String) (whenAbsent : WhenAbsent) (finding : Finding) :
    Except QueryError (Option Item) :=
  match finding.found with
  | some item => .ok (some item)
  | none => absence operator whenAbsent finding.sawAny

/-- The last accepted item. -/
def last (operator : String) (whenAbsent : WhenAbsent) (predicate : Option Callable) (budget : Nat)
    (s : Sequence) : Eval (Option Item) :=
  reduce
    (fun finding item => do
      if ← Callable.accepts predicate item then return .more ⟨true, some item⟩
      else return .more ⟨true, finding.found⟩)
    (Finding.result operator whenAbsent) budget {} s

/-- The only accepted item.  A second one is an error. -/
def single (operator : String) (whenAbsent : WhenAbsent) (predicate : Option Callable) (budget : Nat)
    (s : Sequence) : Eval (Option Item) :=
  reduce
    (fun finding item => do
      if ← Callable.accepts predicate item then
        if finding.found.isSome then throw (.multipleMatches operator)
        else return .more ⟨true, some item⟩
      else return .more ⟨true, finding.found⟩)
    (Finding.result operator whenAbsent) budget {} s

/-- The error for an index, or no value. -/
def outOfRange (whenAbsent : WhenAbsent) (index : Int) (length : Nat) : Except QueryError (Option Item) :=
  match whenAbsent with
  | .noValue => .ok none
  | .fails => .error (.indexOutOfRange index length)

/-- The item at a position counted from zero.  A negative one is refused without a look at the source. -/
def elementAt (whenAbsent : WhenAbsent) (index : Int) (budget : Nat) (s : Sequence) : Eval (Option Item) :=
  if index < 0 then Eval.ofExcept (outOfRange whenAbsent index 0)
  else
    reduce
      (fun (passed : Nat) item => do
        if passed = index then return .settled (some item) else return .more (passed + 1))
      (outOfRange whenAbsent index) budget 0 s

/-! ## Quantifiers -/

/-- Is an item identical to the given one? -/
def contains (needle : Item) (budget : Nat) (s : Sequence) : Eval Bool :=
  reduce
    (fun (_ : Unit) item => return if item.identical needle then .settled true else .more ())
    (fun _ => .ok false) budget () s

/-- Are the items as many as the others, and loosely equal to them one by one? -/
def equalTo (others : List Item) (budget : Nat) (s : Sequence) : Eval Bool :=
  reduce
    (fun (expected : List Item) item =>
      match expected with
      | other :: rest => return if item.looselyEqual other then .more rest else .settled false
      | [] => return .settled false)
    (fun expected => .ok expected.isEmpty) budget others s

def any (predicate : Option Callable) (budget : Nat) (s : Sequence) : Eval Bool :=
  reduce
    (fun (_ : Unit) item => do
      if ← Callable.accepts predicate item then return .settled true else return .more ())
    (fun _ => .ok false) budget () s

def all (predicate : Callable) (budget : Nat) (s : Sequence) : Eval Bool :=
  reduce
    (fun (_ : Unit) item => do
      if ← predicate.test item then return .more () else return .settled false)
    (fun _ => .ok true) budget () s

/-! ## Aggregates -/

/-- How many items are accepted. -/
def count (predicate : Option Callable) (budget : Nat) (s : Sequence) : Eval Nat :=
  reduce
    (fun total item => do
      if ← Callable.accepts predicate item then return .more (total + 1) else return .more total)
    .ok budget 0 s

/-- The value kept at the end, if there was any. -/
def kept (operator : String) : Option Item → Except QueryError Item
  | some item => .ok item
  | none => .error (.emptySequence operator)

/-- The first of the values that stand to all others as `wanted` says. -/
def extreme (operator : String) (wanted : Ordering) (selector : Option Callable) (budget : Nat)
    (s : Sequence) : Eval Item :=
  reduce
    (fun (best : Option Item) item => do
      let value ← Callable.project selector item
      match best with
      | some current => return .more (some (if value.order current = wanted then value else current))
      | none => return .more (some value))
    (kept operator) budget none s

/-- The numeric value of an item, which must have one. -/
def numeric (item : Item) : Except QueryError Number :=
  match item.toNumber? with
  | some x => .ok x
  | none => .error (.invalidCast item.typeTag .number)

/-- The sum of the numeric values from left to right. -/
def sum (selector : Option Callable) (budget : Nat) (s : Sequence) : Eval Number :=
  reduce
    (fun total item => do
      let value ← Callable.project selector item
      let x ← Eval.ofExcept (numeric value)
      return .more (total + x))
    .ok budget .zero s

/-- The sum divided by the number of items; zero where there are none. -/
def average (selector : Option Callable) (budget : Nat) (s : Sequence) : Eval Number :=
  reduce
    (fun (total, n) item => do
      let value ← Callable.project selector item
      let x ← Eval.ofExcept (numeric value)
      return .more (total + x, n + 1))
    (fun (total, n) => .ok (if n = 0 then .zero else total / .ofNat n)) budget (Number.zero, 0) s

/-- Folds the projected items from the left.  Without a seed the first of them starts. -/
def aggregate (folder : Callable) (seed : Option Item) (projection : Option Callable) (budget : Nat)
    (s : Sequence) : Eval Item :=
  reduce
    (fun (held : Option Item) item => do
      let value ← Callable.project projection item
      match held with
      | some held => return .more (some (← folder.call2 held value))
      | none => return .more (some value))
    (kept "aggregate") budget seed s

end LazyQuery.Sequence
