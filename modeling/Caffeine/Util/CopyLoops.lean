import Mathlib.Data.BitVec
import Mathlib.Logic.Function.Basic

/-!
# Copying a range cell by cell

Two loops copy a range of cells of a memory within the memory, one from the lowest cell up and one
from the highest down. Each is right if no cell is overwritten that it still has to read.
-/

open Function

namespace Caffeine

open BitVec

namespace CopyLoops

variable {β : Type*} {w : Nat}

def cell (a : BitVec w) (i : Nat) : BitVec w := a + BitVec.ofNat w i

def copyUp : Nat → BitVec w → BitVec w → (BitVec w → β) → BitVec w → β
  | 0, _, _, mem => mem
  | n + 1, dst, src, mem => copyUp n (dst + 1) (src + 1) (update mem dst (mem src))

def copyDown : Nat → BitVec w → BitVec w → (BitVec w → β) → BitVec w → β
  | 0, _, _, mem => mem
  | n + 1, dst, src, mem =>
    copyDown n dst src (update mem (cell dst n) (mem (cell src n)))

/-- The `n` cells at `dst` hold what the cells at `src` held, and the others what they held. -/
structure Moved (n : Nat) (dst src : BitVec w) (mem mem' : BitVec w → β) : Prop where
  inside : ∀ i < n, mem' (cell dst i) = mem (cell src i)
  outside : ∀ a, (∀ i < n, a ≠ cell dst i) → mem' a = mem a

theorem toNat_cell {a : BitVec w} {i : Nat} (h : a.toNat + i < 2 ^ w) :
    (cell a i).toNat = a.toNat + i := by
  rw [cell, toNat_add, toNat_ofNat, Nat.add_mod_mod, Nat.mod_eq_of_lt h]

@[simp] theorem cell_zero (a : BitVec w) : cell a 0 = a := BitVec.add_zero a

theorem cell_add_one (a : BitVec w) (i : Nat) : cell (a + 1) i = cell a (i + 1) := by
  rw [cell, cell, BitVec.add_assoc, BitVec.add_comm 1, ofNat_add]
  rfl

variable {n : Nat} {dst src : BitVec w} {mem : BitVec w → β}

theorem copyDown_moved (hdst : ∀ i j, i < j → j < n → cell dst i ≠ cell dst j)
    (hsafe : ∀ i j, i < j → j < n → cell dst j ≠ cell src i) :
    Moved n dst src mem (copyDown n dst src mem) := by
  induction n generalizing mem with
  | zero => exact ⟨fun i hi => absurd hi (Nat.not_lt_zero i), fun a _ => rfl⟩
  | succ n ih =>
    have hrest : Moved n dst src (update mem (cell dst n) (mem (cell src n))) _ :=
      ih (fun i j hij hj => hdst i j hij (Nat.lt_succ_of_lt hj))
        (fun i j hij hj => hsafe i j hij (Nat.lt_succ_of_lt hj))
    refine ⟨fun i hi => ?_, fun a ha => ?_⟩
    · rw [copyDown]
      rcases Nat.lt_succ_iff_lt_or_eq.mp hi with hlt | rfl
      · rw [hrest.inside i hlt, update_of_ne (hsafe i n hlt n.lt_succ_self).symm]
      · rw [hrest.outside _ fun j hj => (hdst j i hj i.lt_succ_self).symm, update_self]
    · rw [copyDown, hrest.outside a fun i hi => ha i (Nat.lt_succ_of_lt hi),
        update_of_ne (ha n n.lt_succ_self)]

theorem copyUp_moved (hdst : ∀ i j, i < j → j < n → cell dst i ≠ cell dst j)
    (hsafe : ∀ i j, i < j → j < n → cell dst i ≠ cell src j) :
    Moved n dst src mem (copyUp n dst src mem) := by
  induction n generalizing dst src mem with
  | zero => exact ⟨fun i hi => absurd hi (Nat.not_lt_zero i), fun a _ => rfl⟩
  | succ n ih =>
    have hrest : Moved n (dst + 1) (src + 1) (update mem dst (mem src))
        (copyUp n (dst + 1) (src + 1) (update mem dst (mem src))) := by
      refine ih (fun i j hij hj => ?_) (fun i j hij hj => ?_)
      · rw [cell_add_one, cell_add_one]
        exact hdst _ _ (Nat.succ_lt_succ hij) (Nat.succ_lt_succ hj)
      · rw [cell_add_one, cell_add_one]
        exact hsafe _ _ (Nat.succ_lt_succ hij) (Nat.succ_lt_succ hj)
    refine ⟨fun i hi => ?_, fun a ha => ?_⟩
    · rw [copyUp]
      cases i with
      | zero =>
        rw [cell_zero, hrest.outside dst fun j hj => ?_, update_self, cell_zero]
        rw [cell_add_one]
        simpa using hdst 0 (j + 1) j.succ_pos (Nat.succ_lt_succ hj)
      | succ i =>
        have hi' : i < n := Nat.lt_of_succ_lt_succ hi
        rw [← cell_add_one, hrest.inside i hi', cell_add_one, update_of_ne]
        simpa using (hsafe 0 (i + 1) i.succ_pos hi).symm
    · rw [copyUp, hrest.outside a fun i hi => ?_, update_of_ne]
      · simpa using ha 0 n.succ_pos
      · rw [cell_add_one]
        exact ha (i + 1) (Nat.succ_lt_succ hi)

end CopyLoops

end Caffeine
