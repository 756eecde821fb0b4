import ChainedTable.Word

set_option autoImplicit false

namespace ChainedTable

class SlotSize (α : Type) where
  bytes : Nat

def maxBlockEntries : Nat := 512

structure Sizing where
  tableSize : Nat
  numberOfEntries : Nat
  deriving DecidableEq

/-- Entries wanted before the byte length is rounded: at least one, so that an empty table of one
bucket can still hold its first entry. -/
def Sizing.wanted (z : Sizing) : Nat :=
  max 1 (min maxBlockEntries (max (z.tableSize / 2) z.numberOfEntries))

theorem Sizing.wanted_pos (z : Sizing) : 1 ≤ z.wanted := by
  simp only [wanted]
  omega

theorem Sizing.wanted_le (z : Sizing) : z.wanted ≤ maxBlockEntries := by
  simp only [wanted, maxBlockEntries]
  omega

/-- The entries of size `entrySize` that fit in the largest power of two up to `bytes`, at least
one. -/
def fitting (entrySize bytes : Nat) : Nat := max 1 (1 <<< bytes.log2 / entrySize)

def blockEntries (entrySize : Nat) (z : Sizing) : Except Fault Nat :=
  (mulWord (max 1 entrySize) z.wanted).map (fitting (max 1 entrySize))

theorem fitting_pos (entrySize bytes : Nat) : 1 ≤ fitting entrySize bytes := by
  simp only [fitting]
  omega

theorem fitting_mul_le {e w : Nat} (he : 1 ≤ e) (hw : 1 ≤ w) : fitting e (e * w) ≤ w := by
  have hb : e * w ≠ 0 := Nat.mul_ne_zero (by omega) (by omega)
  have hp : 1 <<< (e * w).log2 ≤ e * w := by
    rw [Nat.one_shiftLeft]
    exact Nat.log2_self_le hb
  have hd : 1 <<< (e * w).log2 / e ≤ w := by
    calc 1 <<< (e * w).log2 / e ≤ e * w / e := Nat.div_le_div_right hp
      _ = w := Nat.mul_div_cancel_left w (by omega)
  simp only [fitting]
  omega

section
variable {entrySize n : Nat} {z : Sizing} {f : Fault}

theorem blockEntries_eq_ok : blockEntries entrySize z = .ok n ↔
    n = fitting (max 1 entrySize) (max 1 entrySize * z.wanted) ∧
      max 1 entrySize * z.wanted < wordLimit := by
  rw [blockEntries]
  cases hm : mulWord (max 1 entrySize) z.wanted with
  | error f =>
    obtain ⟨-, hle⟩ := mulWord_eq_error.mp hm
    simp [Except.map, Nat.not_lt_of_le hle]
  | ok bytes =>
    obtain ⟨rfl, hlt⟩ := mulWord_eq_ok.mp hm
    simp [Except.map, hlt, eq_comm]

theorem blockEntries_eq_error : blockEntries entrySize z = .error f ↔
    f = .multiplicationOverflow ∧ wordLimit ≤ max 1 entrySize * z.wanted := by
  rw [blockEntries]
  cases hm : mulWord (max 1 entrySize) z.wanted with
  | error f =>
    obtain ⟨rfl, hle⟩ := mulWord_eq_error.mp hm
    simp [Except.map, hle, eq_comm]
  | ok bytes =>
    obtain ⟨rfl, hlt⟩ := mulWord_eq_ok.mp hm
    simp [Except.map, Nat.not_le_of_lt hlt]

theorem blockEntries_bounds (h : blockEntries entrySize z = .ok n) : 1 ≤ n ∧ n ≤ z.wanted := by
  obtain ⟨rfl, -⟩ := blockEntries_eq_ok.mp h
  exact ⟨fitting_pos _ _, fitting_mul_le (by omega) z.wanted_pos⟩

end

end ChainedTable
