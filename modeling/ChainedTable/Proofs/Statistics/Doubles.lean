import Mathlib
import ChainedTable.Statistics.Summary
import ChainedTable.Proofs.HighestBit

set_option autoImplicit false

/-!
Counts as doubles. A count of at most 53 bits is a double, namely the one whose mantissa is the
count shifted up to 53 bits. Such doubles are added, compared and read back as the counts are, with
no rounding on the way.
-/

namespace ChainedTable

open Float.Model (UnpackedFloat Format totalExponent)
open Float.Model.UnpackedFloat (Sign Accuracy ExtendedMantissa decreaseExponent shiftToExponent
  shiftToTargetExponent packComponents)

/-- Counts from here on may not be doubles. -/
def exactLimit : Nat := 0x20000000000000

def headroom (n : Nat) : Nat := 52 - n.log2

def countParts (n : Nat) : UnpackedFloat :=
  if h : n = 0 then .zero .positive
  else .finite .positive (n * 2 ^ headroom n) (-headroom n)
    (Nat.mul_pos (Nat.pos_of_ne_zero h) (Nat.two_pow_pos _))

variable {a b n k : Nat}

theorem countParts_pos (hn : n ≠ 0) : countParts n =
    .finite .positive (n * 2 ^ headroom n) (-headroom n)
      (Nat.mul_pos (Nat.pos_of_ne_zero hn) (Nat.two_pow_pos _)) := dif_neg hn

theorem log2_add_headroom (hn : n ≠ 0) (hlt : n < exactLimit) : n.log2 + headroom n = 52 :=
  Nat.add_sub_cancel' (Nat.le_of_lt_succ ((Nat.log2_lt hn).mpr hlt))

theorem log2_mantissa (hn : n ≠ 0) (hlt : n < exactLimit) : (n * 2 ^ headroom n).log2 = 52 := by
  rw [log2_mul_two_pow hn, log2_add_headroom hn hlt]

theorem shiftRight_exact (n k : Nat) :
    (ExtendedMantissa.mk (n * 2 ^ k) false false) >>> k = ⟨n, false, false⟩ := by
  induction k generalizing n with
  | zero => simp [HShiftRight.hShiftRight, Nat.repeat]
  | succ k ih =>
    have hk := ih (n * 2)
    simp only [HShiftRight.hShiftRight] at hk ⊢
    rw [Nat.repeat, Nat.pow_succ', ← Nat.mul_assoc, hk]
    simp [ExtendedMantissa.shiftRightOne]

theorem targetExponent_eq (hn : n ≠ 0) (hlt : n < exactLimit) (k : Nat) :
    Format.binary64.targetExponent (totalExponent (n * 2 ^ k) (-k)) = -headroom n := by
  have hh := log2_add_headroom hn hlt
  have hbits : Format.binary64.mantissaBits = 53 := rfl
  have hmin : Format.binary64.minExponent = -1074 := rfl
  rw [Format.targetExponent, totalExponent, log2_mul_two_pow hn, hbits, hmin]
  omega

theorem shiftToExponent_eq (n : Nat) {k s : Nat} (h : s ≤ k) :
    shiftToExponent (n * 2 ^ k) (-k) .exact (-s) =
      (⟨n * 2 ^ s, false, false⟩, -(s : Int)) := by
  obtain ⟨d, rfl⟩ := Nat.exists_eq_add_of_le h
  have hd : (-(s : Int) - -((s + d : Nat) : Int)).toNat = d := by omega
  have hs : -((s + d : Nat) : Int) + d = -s := by omega
  rw [shiftToExponent, hd, hs, Nat.pow_add, ← Nat.mul_assoc]
  simp only [ExtendedMantissa.ofMantissaAndAccuracy, shiftRight_exact]

theorem shiftToTargetExponent_eq (hn : n ≠ 0) (hlt : n < exactLimit) (hk : headroom n ≤ k) :
    shiftToTargetExponent .binary64 (n * 2 ^ k) (-k) .exact =
      (⟨n * 2 ^ headroom n, false, false⟩, -(headroom n : Int)) := by
  rw [shiftToTargetExponent, targetExponent_eq hn hlt, shiftToExponent_eq n hk]

theorem decreaseExponent_eq (n k s : Nat) :
    decreaseExponent (n * 2 ^ k) (-k) (-s) = (n * 2 ^ max k s, -((max k s : Nat) : Int)) := by
  have hd : (-(k : Int) - -(s : Int)).toNat = s - k := by omega
  rw [decreaseExponent, hd]
  have hmax : max k s = k + (s - k) := by omega
  rw [hmax, Nat.shiftLeft_eq, Nat.mul_assoc, ← Nat.pow_add]
  simp only [Prod.mk.injEq, true_and]
  omega

/-- A count is rounded to itself, however far it is shifted up. -/
theorem round_countParts (hn : n ≠ 0) (hlt : n < exactLimit) (k : Nat) :
    UnpackedFloat.round .binary64 .positive (n * 2 ^ k) (-k) = countParts n := by
  have hpos : n * 2 ^ headroom n ≠ 0 :=
    Nat.mul_ne_zero hn (Nat.ne_of_gt (Nat.two_pow_pos _))
  rw [UnpackedFloat.round, targetExponent_eq hn hlt, decreaseExponent_eq, countParts_pos hn]
  simp only [UnpackedFloat.roundWithAccuracy, shiftToTargetExponent_eq hn hlt (Nat.le_max_right _ _),
    ExtendedMantissa.roundedMantissa, ExtendedMantissa.accuracy, Accuracy.roundToNearestEven,
    shiftToTargetExponent_eq hn hlt (Nat.le_refl _), dif_neg hpos]

theorem normalize_countParts (hlt : n < exactLimit) (k : Nat) :
    UnpackedFloat.normalize .binary64 ((n * 2 ^ k : Nat) : Int) (-k) .positive = countParts n := by
  by_cases hn : n = 0
  · subst hn
    simp [UnpackedFloat.normalize, countParts]
  · have hpos : 0 < n * 2 ^ k := Nat.mul_pos (Nat.pos_of_ne_zero hn) (Nat.two_pow_pos k)
    have hgt : compare ((n * 2 ^ k : Nat) : Int) 0 = .gt := by
      rw [Int.compare_eq_gt]
      exact Int.natCast_pos.mpr hpos
    rw [UnpackedFloat.normalize, hgt]
    exact round_countParts hn hlt k

theorem toNat_lead (m : Nat) (hlog : m.log2 = 52) : (1#1 ++ BitVec.ofNat 52 m).toNat = m := by
  have hm : m ≠ 0 := by
    rintro rfl
    simp at hlog
  have hlo := Nat.log2_self_le hm
  have hhi : m < 2 ^ (m.log2 + 1) := Nat.lt_log2_self
  rw [hlog] at hlo hhi
  rw [BitVec.toNat_append, ← Nat.shiftLeft_add_eq_or_of_lt (BitVec.ofNat 52 m).isLt,
    Nat.shiftLeft_eq, BitVec.toNat_ofNat, BitVec.toNat_ofNat]
  omega

def exponentField (n : Nat) : BitVec 11 := BitVec.ofNat 11 (1023 + n.log2)

theorem toNat_exponentField (hn : n ≠ 0) (hlt : n < exactLimit) :
    (exponentField n).toNat = 1023 + n.log2 := by
  have hh := log2_add_headroom hn hlt
  rw [exponentField, BitVec.toNat_ofNat, Nat.mod_eq_of_lt (by omega)]

theorem pack_countParts (hn : n ≠ 0) (hlt : n < exactLimit) :
    UnpackedFloat.pack .binary64 (countParts n) =
      packComponents .binary64 .positive (exponentField n)
        (BitVec.ofNat 52 (n * 2 ^ headroom n)) := by
  have hh := log2_add_headroom hn hlt
  have hbias : Format.binary64.exponentBias = 1023 := rfl
  have hbits : Format.binary64.mantissaBits = 53 := rfl
  have hexp : (-(headroom n : Int) + (1023 : Nat) + (52 : Nat)).toNat = 1023 + n.log2 := by omega
  rw [countParts_pos hn, UnpackedFloat.pack]
  simp only [log2_mantissa hn hlt, hbias, hbits, hexp]
  rw [if_neg (by omega), if_pos trivial]
  rfl

theorem unpack_pack_countParts (hlt : n < exactLimit) :
    UnpackedFloat.unpack .binary64 (UnpackedFloat.pack .binary64 (countParts n)) = countParts n := by
  by_cases hn : n = 0
  · subst hn
    rfl
  · have hh := log2_add_headroom hn hlt
    have hword := toNat_exponentField hn hlt
    have hbias : Format.binary64.exponentBias = 1023 := rfl
    have hinf : exponentField n ≠ -1#11 := by
      intro h
      rw [h, show (-1#11).toNat = 2047 from rfl] at hword
      omega
    have hsub : exponentField n ≠ 0#11 := by
      intro h
      rw [h, BitVec.toNat_zero] at hword
      omega
    rw [pack_countParts hn hlt, countParts_pos hn, UnpackedFloat.unpack]
    simp only [UnpackedFloat.unpackMantissa_packComponents,
      UnpackedFloat.unpackExponent_packComponents, UnpackedFloat.unpackSign_packComponents,
      Sign.ofBitVec_toBitVec, if_neg hinf, if_neg hsub, hword, hbias,
      toNat_lead _ (log2_mantissa hn hlt)]
    congr 1
    omega

theorem countFloat_eq (hlt : n < exactLimit) :
    countFloat n = .ofModel (.pack (countParts n)) := by
  have hword : n.toUInt64.toNat = n := UInt64.toNat_ofNat_of_lt (Nat.lt_trans hlt (by decide))
  have hnorm := normalize_countParts hlt 0
  rw [Nat.pow_zero, Nat.mul_one] at hnorm
  rw [countFloat, UInt64.toFloat, Float.Model.ofUInt64, UnpackedFloat.ofUInt64, hword,
    UnpackedFloat.ofNat, UnpackedFloat.ofInt, ← hnorm]
  rfl

theorem unpack_countFloat (hlt : n < exactLimit) :
    (countFloat n).toModel.unpack = countParts n := by
  rw [countFloat_eq hlt]
  exact unpack_pack_countParts hlt

theorem isNaN_countFloat (hlt : n < exactLimit) : (countFloat n).isNaN = false := by
  rw [Float.isNaN, Float.Model.isNaN, unpack_countFloat hlt, countParts]
  split <;> rfl

theorem toInt_countParts (n : Nat) (lo hi : Int) : (countParts n).toInt lo hi = n := by
  by_cases hn : n = 0
  · subst hn
    rfl
  · have hup := decreaseExponent_eq n (headroom n) 0
    have hdown := shiftToExponent_eq n (Nat.zero_le (headroom n))
    rw [Nat.max_zero] at hup
    rw [Nat.pow_zero, Nat.mul_one] at hdown
    simp only [Int.natCast_zero, Int.neg_zero] at hup hdown
    rw [countParts_pos hn, UnpackedFloat.toInt, UnpackedFloat.roundToInt, hup]
    simp only [hdown, Sign.apply]

theorem floatCount_countFloat (hlt : n < exactLimit) : floatCount (countFloat n) = n := by
  have hword : n < UInt64.size := Nat.lt_trans hlt (by decide)
  rw [floatCount, Float.toUInt64, Float.Model.toUInt64, unpack_countFloat hlt,
    UnpackedFloat.toUInt64, toInt_countParts, Int.toNat_natCast, UInt64.toNat_ofNatClamp_of_lt hword]

theorem add_countParts (h : a + b < exactLimit) :
    UnpackedFloat.add .binary64 (countParts a) (countParts b) = countParts (a + b) := by
  by_cases ha : a = 0
  · subst ha
    rw [Nat.zero_add]
    by_cases hb : b = 0
    · subst hb
      rfl
    · rw [countParts_pos hb]
      rfl
  · by_cases hb : b = 0
    · subst hb
      rw [Nat.add_zero, countParts_pos ha]
      rfl
    · have hmin : min (-(headroom a : Int)) (-headroom b) =
          -((max (headroom a) (headroom b) : Nat) : Int) := by omega
      rw [countParts_pos ha, countParts_pos hb, UnpackedFloat.add]
      simp only [hmin, decreaseExponent_eq, Sign.apply]
      rw [Nat.max_eq_right (Nat.le_max_left _ _), Nat.max_eq_right (Nat.le_max_right _ _),
        ← Int.natCast_add, ← Nat.add_mul]
      exact normalize_countParts h _

/-- No sum of counts is rounded. -/
theorem countFloat_add (h : a + b < exactLimit) :
    countFloat a + countFloat b = countFloat (a + b) := by
  have ha : a < exactLimit := Nat.lt_of_le_of_lt (Nat.le_add_right a b) h
  have hb : b < exactLimit := Nat.lt_of_le_of_lt (Nat.le_add_left b a) h
  have hsum : (countFloat a).toModel + (countFloat b).toModel = .pack (countParts (a + b)) := by
    rw [← add_countParts h, ← unpack_countFloat ha, ← unpack_countFloat hb]
    rfl
  rw [countFloat_eq h, ← hsum]
  rfl

theorem headroom_le (ha : a ≠ 0) (h : a ≤ b) : headroom b ≤ headroom a := by
  have hb : b ≠ 0 := Nat.ne_of_gt (Nat.lt_of_lt_of_le (Nat.pos_of_ne_zero ha) h)
  have hlog : a.log2 ≤ b.log2 := (Nat.le_log2 hb).mpr (Nat.le_trans (Nat.log2_self_le ha) h)
  exact Nat.sub_le_sub_left hlog 52

/-- Filled mantissas are ordered by exponent and then by mantissa, as their counts are. -/
theorem mantissa_lt_iff (ha : a ≠ 0) (hb : b ≠ 0) :
    -(headroom a : Int) < -headroom b ∨
      -(headroom a : Int) = -headroom b ∧ a * 2 ^ headroom a < b * 2 ^ headroom b ↔ a < b := by
  constructor
  · rintro (hexp | ⟨hexp, hm⟩)
    · refine Nat.lt_of_not_le fun hle => ?_
      have hback := headroom_le hb hle
      omega
    · have heq : headroom a = headroom b := by omega
      rw [heq] at hm
      exact Nat.lt_of_mul_lt_mul_right hm
  · intro hab
    rcases Nat.lt_or_eq_of_le (headroom_le ha (Nat.le_of_lt hab)) with hlt | heq
    · exact .inl (by omega)
    · refine .inr ⟨by omega, ?_⟩
      rw [heq]
      exact Nat.mul_lt_mul_of_pos_right hab (Nat.two_pow_pos _)

theorem lt_countParts (a b : Nat) : (countParts a).lt (countParts b) = true ↔ a < b := by
  by_cases ha : a = 0
  · subst ha
    by_cases hb : b = 0
    · subst hb
      decide
    · rw [countParts_pos hb]
      exact iff_of_true rfl (Nat.pos_of_ne_zero hb)
  · by_cases hb : b = 0
    · subst hb
      rw [countParts_pos ha]
      exact iff_of_false Bool.false_ne_true (Nat.not_lt_zero a)
    · rw [countParts_pos ha, countParts_pos hb, ← mantissa_lt_iff ha hb]
      simp only [UnpackedFloat.lt, UnpackedFloat.compare, beq_iff_eq, Option.some.injEq,
        Ordering.then_eq_lt, Int.compare_eq_lt, Int.compare_eq_eq, Nat.compare_eq_lt]

theorem countFloat_lt (ha : a < exactLimit) (hb : b < exactLimit) :
    countFloat a < countFloat b ↔ a < b := by
  rw [← lt_countParts, ← unpack_countFloat ha, ← unpack_countFloat hb]
  exact decide_eq_true_iff

theorem smaller_countFloat (ha : a < exactLimit) (hb : b < exactLimit) :
    smaller (countFloat a) (countFloat b) = countFloat (min a b) := by
  rw [smaller, isNaN_countFloat ha, if_neg Bool.false_ne_true]
  by_cases hba : b < a
  · rw [if_pos ((countFloat_lt hb ha).mpr hba), Nat.min_eq_right (Nat.le_of_lt hba)]
  · rw [if_neg (mt (countFloat_lt hb ha).mp hba), Nat.min_eq_left (Nat.le_of_not_lt hba)]

theorem larger_countFloat (ha : a < exactLimit) (hb : b < exactLimit) :
    larger (countFloat a) (countFloat b) = countFloat (max a b) := by
  rw [larger, isNaN_countFloat ha, if_neg Bool.false_ne_true]
  by_cases hab : a < b
  · rw [if_pos ((countFloat_lt ha hb).mpr hab), Nat.max_eq_right (Nat.le_of_lt hab)]
  · rw [if_neg (mt (countFloat_lt ha hb).mp hab), Nat.max_eq_left (Nat.le_of_not_lt hab)]

end ChainedTable
