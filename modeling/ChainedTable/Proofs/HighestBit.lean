import Mathlib.Algebra.GroupWithZero.Nat
import ChainedTable.Word

set_option autoImplicit false

namespace ChainedTable

def topBit (b : BitVec 64) : BitVec 64 := 1#64 <<< (63 - b.clz.toNat)

variable {n k : Nat}

theorem log2_eq (hle : 2 ^ k ≤ n) (hlt : n < 2 ^ (k + 1)) : n.log2 = k := by
  have hn : n ≠ 0 := Nat.ne_of_gt (Nat.lt_of_lt_of_le (Nat.two_pow_pos k) hle)
  exact (Nat.log2_eq_iff hn).mpr ⟨hle, hlt⟩

theorem log2_mul_two_pow (hn : n ≠ 0) (k : Nat) : (n * 2 ^ k).log2 = n.log2 + k := by
  apply log2_eq
  · rw [Nat.pow_add]
    exact Nat.mul_le_mul_right _ (Nat.log2_self_le hn)
  · rw [Nat.add_right_comm, Nat.pow_add _ _ k]
    exact Nat.mul_lt_mul_of_pos_right Nat.lt_log2_self (Nat.two_pow_pos k)

theorem toNat_topBit (hn : 0 < n) (hlt : n < wordLimit) :
    (topBit (BitVec.ofNat 64 n)).toNat = 2 ^ n.log2 := by
  have hword : (BitVec.ofNat 64 n).toNat = n := Nat.mod_eq_of_lt hlt
  have hne : BitVec.ofNat 64 n ≠ 0#64 := by
    intro h
    rw [h, BitVec.toNat_zero] at hword
    omega
  have hclz : (BitVec.ofNat 64 n).clz.toNat < 64 := BitVec.clz_lt_iff_ne_zero.mpr hne
  have hle := BitVec.two_pow_sub_clz_le_toNat_of_ne_zero (by decide) hne
  have hup := BitVec.toNat_lt_two_pow_sub_clz (x := BitVec.ofNat 64 n)
  rw [topBit, BitVec.toNat_shiftLeft, Nat.shiftLeft_eq]
  rw [hword] at hle hup
  generalize (BitVec.ofNat 64 n).clz.toNat = c at hclz hle hup ⊢
  have hsucc : 64 - c = 63 - c + 1 := by omega
  have hlog : n.log2 = 63 - c := log2_eq hle (hsucc ▸ hup)
  have hpow : 2 ^ (63 - c) < 2 ^ 64 := Nat.pow_lt_pow_right (by decide) (by omega)
  rw [hlog]
  simpa using hpow

end ChainedTable
