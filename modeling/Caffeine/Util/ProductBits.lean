import Mathlib.Algebra.Order.Ring.Nat
import Mathlib.Data.Nat.Bitwise

/-!
# Leading bits of a product

How large a product is can be read off the leading bits of its factors, up to a factor of two. A
bit of one factor and a bit of the other meet at `m` when their positions add up to `m` or more.
-/

namespace ProductBits

variable {m i x y : Nat}

theorem two_pow_le_iff {j : Nat} : 2 ^ j ≤ x ↔ 2 ^ (j + 1) ≤ x ∨ x.testBit j = true := by
  constructor
  · intro hle
    by_cases hlt : x < 2 ^ (j + 1)
    · refine .inr ?_
      have hone : x / 2 ^ j = 1 := by
        refine Nat.div_eq_of_lt_le ?_ ?_
        · rwa [one_mul]
        · rwa [one_add_one_eq_two, ← pow_succ']
      rw [Nat.testBit_eq_decide_div_mod_eq, hone]
      rfl
    · exact .inl (Nat.le_of_not_lt hlt)
  · rintro (hle | hbit)
    · exact le_trans (Nat.pow_le_pow_right Nat.two_pos j.le_succ) hle
    · exact Nat.ge_two_pow_of_testBit hbit

def Meet (m i x y : Nat) : Prop :=
  ∃ k, k ≤ i ∧ 1 ≤ k ∧ y.testBit k = true ∧ 2 ^ (m - k) ≤ x

instance : Decidable (Meet m i x y) :=
  inferInstanceAs (Decidable (∃ k, k ≤ i ∧ 1 ≤ k ∧ y.testBit k = true ∧ 2 ^ (m - k) ≤ x))

theorem meet_one : Meet m 1 x y ↔ y.testBit 1 = true ∧ 2 ^ (m - 1) ≤ x := by
  constructor
  · rintro ⟨k, hle, hpos, hbit⟩
    obtain rfl := Nat.le_antisymm hle hpos
    exact hbit
  · exact fun h => ⟨1, le_rfl, le_rfl, h⟩

theorem meet_succ : Meet m (i + 1) x y ↔
    Meet m i x y ∨ (y.testBit (i + 1) = true ∧ 2 ^ (m - (i + 1)) ≤ x) := by
  constructor
  · rintro ⟨k, hle, hpos, hbit⟩
    rcases Nat.le_succ_iff.mp hle with hle | rfl
    · exact .inl ⟨k, hle, hpos, hbit⟩
    · exact .inr hbit
  · rintro (⟨k, hle, hpos, hbit⟩ | hbit)
    · exact ⟨k, Nat.le_succ_of_le hle, hpos, hbit⟩
    · exact ⟨i + 1, le_rfl, Nat.le_add_left 1 i, hbit⟩

theorem meet_iff_of_lt (hy : y < 2 ^ m) (hi : m - 1 ≤ i) : Meet m i x y ↔ Meet m (m - 1) x y := by
  constructor
  · rintro ⟨k, -, hpos, hbit, hx⟩
    have hk : k < m :=
      (Nat.pow_lt_pow_iff_right Nat.one_lt_two).mp ((Nat.ge_two_pow_of_testBit hbit).trans_lt hy)
    exact ⟨k, Nat.le_pred_of_lt hk, hpos, hbit, hx⟩
  · rintro ⟨k, hle, h⟩
    exact ⟨k, hle.trans hi, h⟩

theorem Meet.le_mul (h : Meet m i x y) : 2 ^ m ≤ x * y := by
  obtain ⟨k, -, -, hbit, hx⟩ := h
  calc 2 ^ m ≤ 2 ^ (m - k + k) := Nat.pow_le_pow_right Nat.two_pos (by omega)
    _ = 2 ^ (m - k) * 2 ^ k := pow_add 2 (m - k) k
    _ ≤ x * y := Nat.mul_le_mul hx (Nat.ge_two_pow_of_testBit hbit)

/-- Factors whose bits do not meet have a small product, even when each is increased by one. -/
theorem succ_mul_succ_le (hx : x < 2 ^ m) (hy : y < 2 ^ m) (h : ¬ Meet m (m - 1) x y) :
    (x + 1) * (y + 1) ≤ 2 ^ (m + 1) := by
  rcases Nat.eq_zero_or_pos y.log2 with hzero | hpos
  · have hsmall : y + 1 ≤ 2 := by
      have hlt := Nat.lt_log2_self (n := y)
      rw [hzero] at hlt
      exact hlt
    rw [pow_succ]
    exact Nat.mul_le_mul hx hsmall
  · have hne : y ≠ 0 := by
      rintro rfl
      simp at hpos
    have hlog : y.log2 < m := (Nat.log2_lt hne).mpr hy
    have hlt : x < 2 ^ (m - y.log2) :=
      Nat.lt_of_not_le fun hle => h ⟨y.log2, by omega, hpos, Nat.testBit_log2 hne, hle⟩
    calc (x + 1) * (y + 1) ≤ 2 ^ (m - y.log2) * 2 ^ (y.log2 + 1) :=
        Nat.mul_le_mul hlt Nat.lt_log2_self
      _ = 2 ^ (m + 1) := by rw [← pow_add]; congr 1; omega

theorem testBit_iff_of_lt {n p : Nat} (hp : p < 2 ^ (n + 1)) : p.testBit n = true ↔ 2 ^ n ≤ p := by
  rw [two_pow_le_iff, or_iff_right (Nat.not_le.mpr hp)]

theorem testBit_bne_iff {n p : Nat} (hp : p ≤ 2 ^ (n + 1)) :
    (p.testBit (n + 1) ^^ p.testBit n) = true ↔ 2 ^ n ≤ p := by
  rcases Nat.lt_or_eq_of_le hp with hlt | rfl
  · rw [Nat.testBit_lt_two_pow hlt, Bool.false_xor, testBit_iff_of_lt hlt]
  · simp only [Nat.testBit_two_pow_self, Nat.testBit_two_pow, Nat.succ_ne_self, decide_false,
      Bool.xor_false, true_iff]
    exact Nat.pow_le_pow_right Nat.two_pos n.le_succ

end ProductBits
