import ChainedTable.Fault

set_option autoImplicit false

namespace ChainedTable

def wordLimit : Nat := 0x10000000000000000

def addWord (a b : Nat) : Except Fault Nat :=
  if a + b < wordLimit then .ok (a + b) else .error .additionOverflow

def mulWord (a b : Nat) : Except Fault Nat :=
  if a * b < wordLimit then .ok (a * b) else .error .multiplicationOverflow

theorem addWord_eq_ok {a b c : Nat} : addWord a b = .ok c ↔ c = a + b ∧ a + b < wordLimit := by
  simp only [addWord]
  split <;> simp [*, eq_comm]

theorem addWord_eq_error {a b : Nat} {f : Fault} :
    addWord a b = .error f ↔ f = .additionOverflow ∧ wordLimit ≤ a + b := by
  simp only [addWord]
  split
  · simp
    omega
  · simp [eq_comm]
    omega

theorem mulWord_eq_ok {a b c : Nat} : mulWord a b = .ok c ↔ c = a * b ∧ a * b < wordLimit := by
  simp only [mulWord]
  split <;> simp [*, eq_comm]

theorem mulWord_eq_error {a b : Nat} {f : Fault} :
    mulWord a b = .error f ↔ f = .multiplicationOverflow ∧ wordLimit ≤ a * b := by
  simp only [mulWord]
  split
  · simp
    intro
    assumption
  · simp [eq_comm]
    intro
    omega

end ChainedTable
