import LazyQuery.Sequence.Reduce

/-!
# Outputs

What a query has come to: a sequence still to be gone through, a value, or no value.
-/

namespace LazyQuery

inductive Output where
  | sequence (s : Sequence)
  | value (item : Item)
  | absent

namespace Output

def shape : Output → String
  | .sequence _ => "sequence"
  | .value _ => "value"
  | .absent => "absent"

def ofOption : Option Item → Output
  | some item => .value item
  | none => .absent

/-- The output as a source for the next operator.  The elements of an array are one. -/
def toSequence : Output → Except QueryError Sequence
  | .sequence s => .ok s
  | .value item => Sequence.ofItem? item
  | .absent => .error (.invalidSource "input is absent")

/-- All items of the output. -/
def collect (budget : Nat) (output : Output) : Eval (List Item) := do
  (← Eval.ofExcept output.toSequence).collect budget

def value? : Output → Option Item
  | .value item => some item
  | _ => none

end Output

end LazyQuery
