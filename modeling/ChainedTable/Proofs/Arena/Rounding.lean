import ChainedTable.Arena.Block
import ChainedTable.Proofs.HighestBit
import Mathlib.Data.Nat.Log
import Mathlib.Order.Bounds.Basic

set_option autoImplicit false

namespace ChainedTable

/-- What a block of `r` slots of `e` bytes has to do with the `w` slots wanted. -/
structure RoundedDown (e w r : Nat) : Prop where
  half_le : max 1 (w / 2) ≤ r
  le_wanted : r ≤ w
  wanted_le : w ≤ maxBlockEntries
  /-- As many slots as fit in a power of two, or one slot that does not fit. -/
  fills : ∃ p, p = (topBit (BitVec.ofNat 64 (e * w))).toNat ∧ (∃ k, p = 2 ^ k) ∧ p ≤ e * w ∧
    e * w < 2 * p ∧ (IsGreatest {m | m * e ≤ p} r ∨ p < e ∧ r = 1 ∧ w = 1)
  /-- Slots whose size is a power of two leave nothing over. -/
  of_power : ∀ j, e = 2 ^ j → IsGreatest {m | m ≤ w ∧ ∃ k, m = 2 ^ k} r

variable {e v w : Nat}

theorem fitting_eq (e w : Nat) : fitting e (e * w) = max 1 (2 ^ (e * w).log2 / e) := by
  rw [fitting, Nat.one_shiftLeft]

theorem power_bounds (he : 1 ≤ e) (hw : 1 ≤ w) :
    2 ^ (e * w).log2 ≤ e * w ∧ e * w < 2 * 2 ^ (e * w).log2 := by
  have hb : e * w ≠ 0 := Nat.mul_ne_zero (by omega) (by omega)
  refine ⟨Nat.log2_self_le hb, ?_⟩
  rw [← Nat.pow_succ']
  exact Nat.lt_log2_self

theorem half_le_fitting (he : 1 ≤ e) (hw : 1 ≤ w) : max 1 (w / 2) ≤ fitting e (e * w) := by
  have hhalf : w / 2 ≤ 2 ^ (e * w).log2 / e := by
    rw [Nat.le_div_iff_mul_le he]
    have hlt := (power_bounds he hw).2
    have hle : 2 * (w / 2 * e) ≤ e * w := by
      calc 2 * (w / 2 * e) = e * (2 * (w / 2)) := by rw [Nat.mul_comm _ e, Nat.mul_left_comm]
        _ ≤ e * w := Nat.mul_le_mul_left e (Nat.mul_div_le w 2)
    omega
  rw [fitting_eq]
  omega

/-- One slot that does not fit is all that was wanted. -/
theorem fitting_fills (he : 1 ≤ e) (hw : 1 ≤ w) :
    IsGreatest {m | m * e ≤ 2 ^ (e * w).log2} (fitting e (e * w)) ∨
      2 ^ (e * w).log2 < e ∧ fitting e (e * w) = 1 ∧ w = 1 := by
  obtain ⟨-, hlt⟩ := power_bounds he hw
  rw [fitting_eq]
  rcases Nat.lt_or_ge (2 ^ (e * w).log2) e with hone | hfit
  · right
    have hw2 : w < 2 := by
      by_contra hge
      have : e * 2 ≤ e * w := Nat.mul_le_mul_left e (by omega)
      omega
    exact ⟨hone, by rw [Nat.div_eq_of_lt hone]; rfl, by omega⟩
  · left
    have hpos : 1 ≤ 2 ^ (e * w).log2 / e := (Nat.one_le_div_iff he).mpr hfit
    rw [max_eq_right hpos]
    exact ⟨Nat.div_mul_le_self _ e, fun m hm => (Nat.le_div_iff_mul_le he).mpr hm⟩

theorem fitting_power (hw : 1 ≤ w) (j : Nat) :
    fitting (2 ^ j) (2 ^ j * w) = 2 ^ w.log2 := by
  have hlog : (2 ^ j * w).log2 = w.log2 + j := by
    rw [Nat.mul_comm, log2_mul_two_pow (by omega)]
  rw [fitting_eq, hlog, Nat.pow_add, Nat.mul_div_cancel _ (Nat.two_pow_pos j)]
  exact max_eq_right (Nat.one_le_two_pow)

theorem greatest_power (hw : 1 ≤ w) : IsGreatest {m | m ≤ w ∧ ∃ k, m = 2 ^ k} (2 ^ w.log2) := by
  refine ⟨⟨Nat.log2_self_le (by omega), w.log2, rfl⟩, fun m hm => ?_⟩
  obtain ⟨hm, k, rfl⟩ := hm
  exact Nat.pow_le_pow_right (by decide) ((Nat.le_log2 (by omega)).mpr hm)

theorem roundedDown_fitting (he : 1 ≤ e) (hw : 1 ≤ w) (hle : w ≤ maxBlockEntries)
    (hlt : e * w < wordLimit) : RoundedDown e w (fitting e (e * w)) where
  half_le := half_le_fitting he hw
  le_wanted := fitting_mul_le he hw
  wanted_le := hle
  fills := by
    obtain ⟨hlow, hup⟩ := power_bounds he hw
    have htop := toNat_topBit (Nat.mul_pos he hw) hlt
    exact ⟨_, htop.symm, ⟨_, rfl⟩, hlow, hup, fitting_fills he hw⟩
  of_power := by
    rintro j rfl
    rw [fitting_power hw j]
    exact greatest_power hw

theorem fitting_mono (hvw : v ≤ w) (e : Nat) :
    fitting e (e * v) ≤ fitting e (e * w) := by
  have hlog : (e * v).log2 ≤ (e * w).log2 := by
    rw [Nat.log2_eq_log_two, Nat.log2_eq_log_two]
    exact Nat.log_mono_right (Nat.mul_le_mul_left e hvw)
  have hdiv : 2 ^ (e * v).log2 / e ≤ 2 ^ (e * w).log2 / e :=
    Nat.div_le_div_right (Nat.pow_le_pow_right (by decide) hlog)
  rw [fitting_eq, fitting_eq]
  omega

theorem Sizing.wanted_mono {y z : Sizing} (ht : y.tableSize ≤ z.tableSize)
    (hn : y.numberOfEntries ≤ z.numberOfEntries) : y.wanted ≤ z.wanted := by
  simp only [wanted]
  omega

/-- A block is refused when the length of the bytes wanted is no word. Otherwise it is as long as the
rounding of that length allows, and a smaller table gets no longer block. -/
theorem blockEntries_rounds_down (s : Nat) (z : Sizing) :
    (blockEntries s z = .error .multiplicationOverflow ↔ wordLimit ≤ max 1 s * z.wanted) ∧
    (max 1 s * z.wanted < wordLimit →
      ∃ r, blockEntries s z = .ok r ∧ RoundedDown (max 1 s) z.wanted r) ∧
    ∀ y r, y.tableSize ≤ z.tableSize → y.numberOfEntries ≤ z.numberOfEntries →
      blockEntries s z = .ok r → ∃ q ≤ r, blockEntries s y = .ok q := by
  refine ⟨by simp [blockEntries_eq_error], fun h => ⟨_, blockEntries_eq_ok.mpr ⟨rfl, h⟩, ?_⟩, ?_⟩
  · exact roundedDown_fitting (by omega) z.wanted_pos z.wanted_le h
  · intro y r ht hn hr
    obtain ⟨rfl, hz⟩ := blockEntries_eq_ok.mp hr
    have hwanted := Sizing.wanted_mono ht hn
    have hy := Nat.lt_of_le_of_lt (Nat.mul_le_mul_left (max 1 s) hwanted) hz
    exact ⟨_, fitting_mono hwanted _, blockEntries_eq_ok.mpr ⟨rfl, hy⟩⟩

/-- 512 slots of 24 bytes take 12288 bytes, of which 8192 are left. -/
example : blockEntries 24 ⟨1024, 0⟩ = .ok 341 := by rfl

end ChainedTable
