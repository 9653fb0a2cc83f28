import Mathlib.Data.Multiset.Fold

/-!
# Combining lists with a commutative operation

An associative and commutative operation without a unit combines the elements of a list that is not
empty. The result does not depend on their order or on how they are grouped.
-/

namespace Caffeine

variable {α : Type*} (f : α → α → α) [Std.Commutative f] [Std.Associative f]

def combined (xs : List α) : Option α :=
  ((xs.map some : List (Option α)) : Multiset (Option α)).fold (Option.merge f) none

variable {f} {xs ys : List α} {x y : α}

theorem combined_perm (h : xs.Perm ys) : combined f xs = combined f ys := by
  rw [combined, Multiset.coe_eq_coe.mpr (h.map some), combined]

theorem combined_append (hx : combined f xs = some x) (hy : combined f ys = some y) :
    combined f (xs ++ ys) = some (f x y) := by
  have hfold := Multiset.fold_add (Option.merge f) none none (xs.map some : List (Option α))
    (ys.map some : List (Option α))
  rw [combined, List.map_append, ← Multiset.coe_add]
  rw [combined] at hx hy
  rw [hx, hy] at hfold
  exact hfold

theorem combined_singleton : combined f [x] = some x := by
  rw [combined, List.map_singleton, Multiset.coe_singleton, Multiset.fold_singleton]
  rfl

theorem combined_cons : combined f (x :: xs) = some (xs.foldl f x) := by
  induction xs generalizing x with
  | nil => exact combined_singleton
  | cons y ys ih =>
    have happend : combined f ([x] ++ y :: ys) = some (f x (ys.foldl f y)) :=
      combined_append combined_singleton ih
    rw [List.foldl_cons, List.foldl_assoc]
    exact happend

end Caffeine
