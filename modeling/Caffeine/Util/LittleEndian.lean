import Mathlib.Algebra.Ring.Nat
import Mathlib.Logic.Function.Basic

/-!
# Little-endian bytes

The bytes of a bitvector of any width, the bitvector that bytes combine to, and the memory in which
bytes have been placed at consecutive addresses. A last byte that is not full is padded with zeros.
-/

open Function

namespace LittleEndian

open BitVec

variable {n m w : Nat}

def byte (v : BitVec n) (i : Nat) : BitVec 8 := v.extractLsb' (8 * i) 8

theorem getLsbD_byte (v : BitVec n) (i j : Nat) :
    (byte v i).getLsbD j = (decide (j < 8) && v.getLsbD (8 * i + j)) := by
  rw [byte, getLsbD_extractLsb']

theorem byte_zero (v : BitVec 8) : byte v 0 = v := by
  refine eq_of_getLsbD_eq fun j hj => ?_
  rw [getLsbD_byte, decide_eq_true hj, Bool.true_and, Nat.mul_zero, Nat.zero_add]

variable {i k : Nat} {x : BitVec w}

theorem ushiftRight_setWidth_eq_byte (v : BitVec n) (hi : 8 * (i + 1) ≤ m) :
    (v.setWidth m >>> (8 * i)).setWidth 8 = byte v i := by
  refine eq_of_getLsbD_eq fun j hj => ?_
  have hlt : 8 * i + j < m := by omega
  rw [getLsbD_byte, getLsbD_setWidth, getLsbD_ushiftRight, getLsbD_setWidth,
    decide_eq_true hlt, Bool.true_and]

def combine (m : Nat) (bytes : Nat → BitVec 8) : Nat → BitVec m
  | 0 => 0
  | k + 1 => combine m bytes k ||| (bytes k).setWidth m <<< (8 * k)

theorem getLsbD_combine (bytes : Nat → BitVec 8) (k : Nat) {j : Nat} (hj : j < m) :
    (combine m bytes k).getLsbD j = (decide (j < 8 * k) && (bytes (j / 8)).getLsbD (j % 8)) := by
  induction k with
  | zero => simp [combine]
  | succ k ih =>
    rw [combine, getLsbD_or, ih, getLsbD_shiftLeft, getLsbD_setWidth]
    rcases Nat.lt_trichotomy (j / 8) k with hlt | heq | hgt
    · have hbef : j < 8 * k := by omega
      have haft : j < 8 * (k + 1) := by omega
      simp [hbef, haft]
    · have hbef : ¬ j < 8 * k := by omega
      have haft : j < 8 * (k + 1) := by omega
      have hbit : j - 8 * k = j % 8 := by omega
      have hwid : j % 8 < m := by omega
      simp [hbef, haft, hj, hbit, hwid, heq]
    · have hbef : ¬ j < 8 * k := by omega
      have haft : ¬ j < 8 * (k + 1) := by omega
      have hbit : (bytes k).getLsbD (j - 8 * k) = false := getLsbD_of_ge _ _ (by omega)
      simp [hbef, haft, hbit]

theorem byte_combine (bytes : Nat → BitVec 8) (hi : i < k) (hk : 8 * k ≤ n) :
    byte (combine n bytes k) i = bytes i := by
  refine eq_of_getLsbD_eq fun j hj => ?_
  rw [getLsbD_byte, getLsbD_combine _ _ (by omega)]
  simp [hj, show 8 * i + j < 8 * k by omega, show (8 * i + j) / 8 = i by omega,
    show (8 * i + j) % 8 = j by omega]

theorem combine_byte (v : BitVec n) (hn : n ≤ 8 * k) (hm : n ≤ m) :
    (combine m (byte v) k).setWidth n = v := by
  refine eq_of_getLsbD_eq fun j hj => ?_
  have hlt : j < 8 * k := by omega
  have hdiv : 8 * (j / 8) + j % 8 = j := Nat.div_add_mod j 8
  have hmod : j % 8 < 8 := Nat.mod_lt j (by decide)
  rw [getLsbD_setWidth, getLsbD_combine _ _ (Nat.lt_of_lt_of_le hj hm), getLsbD_byte, hdiv]
  simp [hj, hlt, hmod]

/-- The memory `f` with the first `k` bytes placed from address `x` on. -/
def splice (f : BitVec w → BitVec 8) (x : BitVec w) (bytes : Nat → BitVec 8) :
    Nat → BitVec w → BitVec 8
  | 0 => f
  | k + 1 => update (splice f x bytes k) (x + BitVec.ofNat w k) (bytes k)

theorem toNat_add_ofNat (h : x.toNat + i < 2 ^ w) : (x + BitVec.ofNat w i).toNat = x.toNat + i := by
  rw [toNat_add, toNat_ofNat, Nat.add_mod_mod, Nat.mod_eq_of_lt h]

theorem splice_at {f : BitVec w → BitVec 8} {bytes : Nat → BitVec 8} (hi : i < k)
    (hk : x.toNat + k ≤ 2 ^ w) : splice f x bytes k (x + BitVec.ofNat w i) = bytes i := by
  induction k with
  | zero => cases hi
  | succ k ih =>
    rw [splice]
    rcases Nat.lt_succ_iff_lt_or_eq.mp hi with hlt | rfl
    · have hne : x + BitVec.ofNat w i ≠ x + BitVec.ofNat w k := by
        intro heq
        have hnat := congrArg BitVec.toNat heq
        rw [toNat_add_ofNat (by omega), toNat_add_ofNat (by omega)] at hnat
        omega
      rw [update_of_ne hne, ih hlt (by omega)]
    · exact update_self ..

theorem splice_outside {f : BitVec w → BitVec 8} {j : BitVec w} {bytes : Nat → BitVec 8}
    (hj : j.toNat < x.toNat ∨ x.toNat + k ≤ j.toNat) (hk : x.toNat + k ≤ 2 ^ w) :
    splice f x bytes k j = f j := by
  induction k with
  | zero => rfl
  | succ k ih =>
    have hne : j ≠ x + BitVec.ofNat w k := by
      rintro rfl
      rw [toNat_add_ofNat (by omega)] at hj
      omega
    rw [splice, update_of_ne hne, ih (by omega) (by omega)]

end LittleEndian
