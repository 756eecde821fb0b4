set_option autoImplicit false

namespace ChainedTable

/-- The smaller of two, and of equals the first; a value that is not a number is passed over. -/
def smaller (x y : Float) : Float := if x.isNaN then y else if y < x then y else x

def larger (x y : Float) : Float := if x.isNaN then y else if x < y then y else x

def countFloat (n : Nat) : Float := n.toUInt64.toFloat

/-- The count below a double: nothing for a negative value or none at all, the greatest word for a
value beyond it. -/
def floatCount (x : Float) : Nat := x.toUInt64.toNat

structure Summary where
  num : Nat
  sum : Float
  sumOfSquares : Float
  minimum : Float
  maximum : Float

namespace Summary

def zero : Summary := ⟨0, 0, 0, 0, 0⟩

def add (s : Summary) (x : Float) : Summary where
  num := s.num + 1
  sum := s.sum + x
  sumOfSquares := s.sumOfSquares + x * x
  minimum := if s.num = 0 then x else smaller s.minimum x
  maximum := if s.num = 0 then x else larger s.maximum x

def ofList (xs : List Float) : Summary := xs.foldl add zero

def mean (s : Summary) : Float := if s.num = 0 then 0 else s.sum / countFloat s.num

/-- The mean of the squares less the square of the mean, raised to zero where rounding made it
negative. -/
def variance (s : Summary) : Float :=
  if s.num = 0 then 0
  else larger (s.sumOfSquares / countFloat s.num - s.mean * s.mean) 0

def deviation (s : Summary) : Float := s.variance.sqrt

@[simp] theorem num_add (s : Summary) (x : Float) : (s.add x).num = s.num + 1 := rfl

end Summary

end ChainedTable
