import Mathlib.Algebra.Order.Ring.Int
import Mathlib.Data.Nat.Bitwise
import Mathlib.Tactic.Ring
import Mathlib.Data.Int.Lemmas
import Mathlib.Algebra.Order.Group.Unbundled.Int

/-!
# Bitvector arithmetic

Facts about quotients, remainders, shifts and masks of bitvectors at an arbitrary width.
-/

namespace Caffeine

namespace BitVecFacts

variable {w : Nat} {x y : BitVec w}

theorem smtUDiv_of_ne_zero (hy : y ≠ 0) : x.smtUDiv y = x / y := by
  rw [BitVec.smtUDiv_eq]
  exact if_neg hy

theorem smtSDiv_of_ne_zero (hy : y ≠ 0) : x.smtSDiv y = x.sdiv y := by
  have hneg : -y ≠ 0 := fun h => hy (BitVec.neg_eq_zero_iff.mp h)
  rw [BitVec.smtSDiv_eq, BitVec.sdiv_eq]
  cases x.msb <;> cases y.msb <;> simp only [smtUDiv_of_ne_zero hy, smtUDiv_of_ne_zero hneg] <;> rfl

theorem toNat_pos (hy : y ≠ 0) : 0 < y.toNat := by
  rcases Nat.eq_zero_or_pos y.toNat with h | h
  · exact absurd (BitVec.eq_of_toNat_eq (by simpa using h)) hy
  · exact h

theorem toInt_ne_zero (hy : y ≠ 0) : y.toInt ≠ 0 := by
  intro h
  exact hy (BitVec.eq_of_toInt_eq (by simpa using h))

theorem udiv_eq_right_iff (hy : y ≠ 0) :
    x / y = y ↔ y.toNat * y.toNat ≤ x.toNat ∧ x.toNat < y.toNat * y.toNat + y.toNat := by
  have hpos := toNat_pos hy
  rw [← BitVec.toNat_inj, BitVec.toNat_udiv, Nat.div_eq_iff hpos]
  omega

theorem tdiv_eq_right_iff {a b : Int} (hb : b ≠ 0) :
    a.tdiv b = b ↔ b * b ≤ a ∧ a < b * b + b.natAbs := by
  have habs : (b.natAbs : Int) = |b| := Int.natCast_natAbs b
  have hsq : 0 < b * b := mul_self_pos.mpr hb
  constructor
  · intro h
    have ha : 0 ≤ a := by
      by_contra hneg
      have hq : a.tdiv b = -((-a) / b) := by
        rw [← Int.tdiv_eq_ediv_of_nonneg (by omega : 0 ≤ -a), Int.neg_tdiv, neg_neg]
      rcases lt_or_gt_of_ne hb with hb | hb
      · have hneg' : -((-a) / b) = (-a) / (-b) := (Int.ediv_neg (-a) b).symm
        have := Int.ediv_nonneg (by omega : 0 ≤ -a) (by omega : 0 ≤ -b)
        omega
      · have := Int.ediv_nonneg (by omega : 0 ≤ -a) hb.le
        omega
    rw [Int.tdiv_eq_ediv_of_nonneg ha] at h
    obtain ⟨hsum, hnonneg, hlt⟩ := (Int.ediv_emod_unique'' hb).mp ⟨h, rfl⟩
    omega
  · rintro ⟨hle, hlt⟩
    rw [Int.tdiv_eq_ediv_of_nonneg (by omega)]
    exact ((Int.ediv_emod_unique'' (r := a - b * b) hb).mpr ⟨by omega, by omega, by omega⟩).1

theorem sdiv_eq_right_iff (hy : y ≠ 0) (hover : x ≠ BitVec.intMin w ∨ y ≠ -1#w) :
    x.sdiv y = y ↔
      y.toInt * y.toInt ≤ x.toInt ∧ x.toInt < y.toInt * y.toInt + y.toInt.natAbs := by
  rw [← BitVec.toInt_inj, BitVec.toInt_sdiv_of_ne_or_ne x y hover,
    tdiv_eq_right_iff (toInt_ne_zero hy)]

theorem umod_ne_right (hy : y ≠ 0) : x % y ≠ y := by
  intro h
  have hlt := Nat.mod_lt x.toNat (toNat_pos hy)
  rw [← BitVec.toNat_umod, h] at hlt
  exact lt_irrefl _ hlt

theorem srem_ne_right (hy : y ≠ 0) : x.srem y ≠ y := by
  intro h
  have hlt : x.toInt.natAbs % y.toInt.natAbs < y.toInt.natAbs :=
    Nat.mod_lt _ (Int.natAbs_pos.mpr (toInt_ne_zero hy))
  rw [← Int.natAbs_tmod, ← BitVec.toInt_srem, h] at hlt
  exact lt_irrefl _ hlt

theorem zero_smtUDiv (hy : y ≠ 0) : (0#w).smtUDiv y = 0#w := by
  rw [smtUDiv_of_ne_zero hy]
  exact BitVec.zero_udiv

theorem zero_smtSDiv (hy : y ≠ 0) : (0#w).smtSDiv y = 0#w := by
  rw [smtSDiv_of_ne_zero hy]
  exact BitVec.zero_sdiv

theorem ne_zero_of_toNat_one (h : y.toNat = 1) : y ≠ 0 := by
  rintro rfl
  simp at h

theorem smtUDiv_one (h : y.toNat = 1) : x.smtUDiv y = x := by
  rw [smtUDiv_of_ne_zero (ne_zero_of_toNat_one h)]
  apply BitVec.eq_of_toNat_eq
  rw [BitVec.toNat_udiv, h, Nat.div_one]

theorem umod_one (h : y.toNat = 1) : x % y = 0#w := by
  apply BitVec.eq_of_toNat_eq
  rw [BitVec.toNat_umod, h, Nat.mod_one]
  rfl

theorem toInt_one (hw : 1 < w) (h : y.toNat = 1) : y.toInt = 1 := by
  have hpow : 2 ^ 2 ≤ 2 ^ w := Nat.pow_le_pow_right (by omega) hw
  rw [BitVec.toInt_eq_toNat_of_lt (by omega)]
  omega

theorem smtSDiv_one (hw : 1 < w) (h : y.toNat = 1) : x.smtSDiv y = x := by
  have hone : y ≠ -1#w := by
    have hpow : 2 ^ 2 ≤ 2 ^ w := Nat.pow_le_pow_right (by omega) hw
    rintro rfl
    rw [BitVec.neg_one_eq_allOnes, BitVec.toNat_allOnes] at h
    omega
  rw [smtSDiv_of_ne_zero (ne_zero_of_toNat_one h)]
  apply BitVec.eq_of_toInt_eq
  rw [BitVec.toInt_sdiv_of_ne_or_ne x y (.inr hone), toInt_one hw h, Int.tdiv_one]

theorem srem_one (hw : 1 < w) (h : y.toNat = 1) : x.srem y = 0#w := by
  apply BitVec.eq_of_toInt_eq
  rw [BitVec.toInt_srem, toInt_one hw h, Int.tmod_one]
  exact BitVec.toInt_zero.symm

theorem and_shiftLeft_ushiftRight (x m s : BitVec w) : (x &&& m <<< s) >>> s = x >>> s &&& m := by
  ext i hi
  simp only [BitVec.ushiftRight_eq', BitVec.shiftLeft_eq', BitVec.getElem_ushiftRight,
    BitVec.getLsbD_and, BitVec.getLsbD_shiftLeft, BitVec.getElem_and]
  by_cases h : s.toNat + i < w
  · simp [h, BitVec.getLsbD_eq_getElem hi]
  · simp [h, BitVec.getLsbD_of_ge x _ (Nat.le_of_not_lt h)]

theorem ushiftRight_shiftLeft (x : BitVec w) (n : Nat) :
    (x >>> n) <<< n = x &&& BitVec.allOnes w <<< n := by
  ext i hi
  by_cases h : i < n
  · simp [h]
  · have hadd : n + (i - n) = i := by omega
    simp [h, hadd, BitVec.getLsbD_eq_getElem hi]

theorem setWidth_setWidth_eq_and {t v : Nat} (x : BitVec w) :
    (x.setWidth t).setWidth v = x.setWidth v &&& (BitVec.allOnes t).setWidth v := by
  ext i hi
  simp [BitVec.getLsbD_setWidth, BitVec.getLsbD_allOnes, Bool.and_comm]

/-! ### Rounding to a power of two -/

theorem toNat_lowMask {n k : Nat} (hk : k < n) : (BitVec.twoPow n k - 1).toNat = 2 ^ k - 1 := by
  have hlt : 2 ^ k < 2 ^ n := Nat.pow_lt_pow_right (by decide) hk
  have hone : (1 : BitVec n).toNat = 1 := by
    rw [BitVec.ofNat_eq_ofNat, BitVec.toNat_ofNat, Nat.mod_eq_of_lt (Nat.one_lt_two_pow (by omega))]
  have htwo : (BitVec.twoPow n k).toNat = 2 ^ k := by
    rw [BitVec.toNat_twoPow, Nat.mod_eq_of_lt hlt]
  rw [BitVec.toNat_sub_of_le, htwo, hone]
  rw [BitVec.le_def, htwo, hone]
  exact Nat.one_le_two_pow

/-- Clearing the low bits rounds down to a multiple of a power of two. -/
theorem toNat_and_not_lowMask {n k : Nat} (hk : k < n) (x : BitVec n) :
    (x &&& ~~~(BitVec.twoPow n k - 1)).toNat = x.toNat / 2 ^ k * 2 ^ k := by
  have hsh : x &&& ~~~(BitVec.twoPow n k - 1) = (x >>> k) <<< k := by
    apply BitVec.eq_of_getLsbD_eq
    intro i hi
    have hmask : (BitVec.twoPow n k - 1).getLsbD i = decide (i < k) := by
      rw [BitVec.getLsbD, toNat_lowMask hk, Nat.testBit_two_pow_sub_one]
    rw [BitVec.getLsbD_and, BitVec.getLsbD_not, hmask, BitVec.getLsbD_shiftLeft,
      BitVec.getLsbD_ushiftRight]
    by_cases hik : i < k
    · simp [hik]
    · simp [hi, hik, Nat.add_sub_cancel' (Nat.le_of_not_lt hik)]
  rw [hsh, BitVec.toNat_shiftLeft, BitVec.toNat_ushiftRight, Nat.shiftRight_eq_div_pow,
    Nat.shiftLeft_eq, Nat.mod_eq_of_lt]
  exact (Nat.div_mul_le_self _ _).trans_lt x.isLt

/-- Rounding up to a multiple of a power of two, modulo `2 ^ n`. -/
theorem toNat_roundUp {n k c : Nat} (hk : k < n) {x : BitVec n} (hx : x.toNat = c % 2 ^ n) :
    ((x + (BitVec.twoPow n k - 1)) &&& ~~~(BitVec.twoPow n k - 1)).toNat =
      (c + (2 ^ k - 1)) / 2 ^ k * 2 ^ k % 2 ^ n := by
  obtain ⟨m, rfl⟩ := Nat.exists_eq_add_of_lt hk
  have hpow : 2 ^ (k + m + 1) = 2 ^ k * 2 ^ (m + 1) := by ring
  rw [toNat_and_not_lowMask hk, BitVec.toNat_add, toNat_lowMask hk, hx, Nat.mod_add_mod, hpow,
    Nat.mod_mul_right_div_self, Nat.mul_comm (2 ^ k) (2 ^ (m + 1)), ← Nat.mul_mod_mul_right]

end BitVecFacts

end Caffeine
