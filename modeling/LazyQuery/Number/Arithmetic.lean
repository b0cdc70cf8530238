import LazyQuery.Number.Basic

/-!
# Arithmetic on numbers

The four operations are those of the machine's binary64 unit.
-/

namespace LazyQuery.Number

def ofFloat (x : Float) : Number :=
  ofBits x.toBits

def toFloat (x : Number) : Float :=
  Float.ofBits x.toBits

instance : Add Number := ⟨fun x y => ofFloat (x.toFloat + y.toFloat)⟩

instance : Sub Number := ⟨fun x y => ofFloat (x.toFloat - y.toFloat)⟩

instance : Mul Number := ⟨fun x y => ofFloat (x.toFloat * y.toFloat)⟩

instance : Div Number := ⟨fun x y => ofFloat (x.toFloat / y.toFloat)⟩

end LazyQuery.Number
