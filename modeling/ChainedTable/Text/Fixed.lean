import ChainedTable.Text.Align

set_option autoImplicit false

/-!
Decimal text with a fixed number of places. The exact value of a double is a quotient of natural
numbers; the quotient is scaled and rounded once, to the nearest integer and a half to the even
one, so no exponent is ever written and no digit is lost before the rounding.
-/

namespace ChainedTable

/-- The integer nearest to `num / den`, and of two the even one. -/
def roundDiv (num den : Nat) : Nat :=
  if 2 * (num % den) < den then num / den
  else if 2 * (num % den) = den then num / den + num / den % 2
  else num / den + 1

/-- Within half a unit from above. -/
theorem roundDiv_mul_le {num den : Nat} : 2 * (roundDiv num den * den) ≤ 2 * num + den := by
  have hd := Nat.div_add_mod num den
  rw [Nat.mul_comm] at hd
  simp only [roundDiv]
  split
  · omega
  · split
    · rcases Nat.mod_two_eq_zero_or_one (num / den) with h | h <;> rw [h]
      · simp only [Nat.add_zero]
        omega
      · rw [Nat.add_mul, Nat.one_mul]
        omega
    · rw [Nat.add_mul, Nat.one_mul]
      omega

/-- Within half a unit from below. -/
theorem le_roundDiv_mul {num den : Nat} (h : 0 < den) :
    2 * num ≤ 2 * (roundDiv num den * den) + den := by
  have hd := Nat.div_add_mod num den
  have hm := Nat.mod_lt num h
  rw [Nat.mul_comm] at hd
  simp only [roundDiv]
  split
  · omega
  · split
    · rcases Nat.mod_two_eq_zero_or_one (num / den) with h | h <;> rw [h]
      · simp only [Nat.add_zero]
        omega
      · rw [Nat.add_mul, Nat.one_mul]
        omega
    · rw [Nat.add_mul, Nat.one_mul]
      omega

theorem roundDiv_tie {num den : Nat} (h : 2 * (num % den) = den) :
    roundDiv num den % 2 = 0 := by
  simp only [roundDiv]
  rw [if_neg (by omega), if_pos h]
  omega

inductive Binary where
  | nan
  | infinite (negative : Bool)
  /-- The magnitude `num / den`. -/
  | finite (negative : Bool) (num den : Nat)
  deriving DecidableEq

def Binary.ofFloat (x : Float) : Binary :=
  let bits := x.toBits.toNat
  let negative := decide (0x8000000000000000 ≤ bits)
  let exponent := (bits >>> 52) % 0x800
  let fraction := bits % 0x10000000000000
  if exponent = 2047 then (if fraction = 0 then .infinite negative else .nan)
  else if exponent = 0 then .finite negative fraction (1 <<< 1074)
  else
    .finite negative ((0x10000000000000 + fraction) <<< (exponent - 1075))
      (1 <<< (1075 - exponent))

def signText (negative : Bool) : String := if negative then "-" else ""

def placesText (places n : Nat) : String :=
  let fraction := toString (n % Nat.pow 10 places)
  toString (n / Nat.pow 10 places) ++ "." ++
    String.ofList (List.replicate (places - fraction.length) '0') ++ fraction

/-- A negative zero keeps its sign, and a value that is not a number has none. -/
def Binary.fixedText (places : Nat) : Binary → String
  | .nan => "NaN"
  | .infinite negative => signText negative ++ "inf"
  | .finite negative num den =>
    signText negative ++ placesText places (roundDiv (num * Nat.pow 10 places) den)

def fixedText (places : Nat) (x : Float) : String := (Binary.ofFloat x).fixedText places

def fixedColumn (width : Nat) (x : Float) : String := alignRight width (fixedText 3 x)

end ChainedTable
