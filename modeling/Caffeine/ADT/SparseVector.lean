import Mathlib.Data.List.Basic
import Mathlib.Data.List.Nodup

/-!
# Vectors with holes

`SparseVector` keeps its elements in a list of slots. An erased slot holds the index of the hole
that was made before it, and `head` the hole that was made last.
-/

namespace Caffeine

open List

/-- A slot is a hole with the next hole of the free list, or a value. -/
structure SparseVector (α : Type*) where
  elements : List (Option Nat ⊕ α)
  size : Nat
  head : Option Nat

namespace SparseVector

variable {α : Type*}

instance : EmptyCollection (SparseVector α) := ⟨⟨[], 0, none⟩⟩

def backingSize (v : SparseVector α) : Nat := v.elements.length

def get? (v : SparseVector α) (i : Nat) : Option α := v.elements[i]? >>= Sum.getRight?

def live (v : SparseVector α) : List α := v.elements.filterMap Sum.getRight?

def pushBack (v : SparseVector α) (a : α) : SparseVector α :=
  { v with elements := v.elements ++ [.inr a], size := v.size + 1 }

def erase (v : SparseVector α) (i : Nat) : SparseVector α where
  elements := v.elements.set i (.inl v.head)
  size := v.size - 1
  head := some i

def compress (v : SparseVector α) : SparseVector α :=
  if v.size = v.backingSize then v else ⟨v.live.map .inr, v.live.length, none⟩

def valuesBefore (v : SparseVector α) (i : Nat) : List α :=
  (v.elements.take i).filterMap Sum.getRight?

def valuesFrom (v : SparseVector α) (i : Nat) : List α :=
  (v.elements.drop i).filterMap Sum.getRight?

variable {v : SparseVector α} {i : Nat} {a : α}

@[simp] theorem live_empty : (∅ : SparseVector α).live = [] := rfl

@[simp] theorem live_pushBack : (v.pushBack a).live = v.live ++ [a] := by
  simp [live, pushBack, filterMap_append]

theorem valuesBefore_append_valuesFrom (v : SparseVector α) (i : Nat) :
    v.valuesBefore i ++ v.valuesFrom i = v.live := by
  rw [valuesBefore, valuesFrom, ← filterMap_append, take_append_drop, live]

theorem get?_eq_some : v.get? i = some a ↔ v.elements[i]? = some (.inr a) := by
  rw [get?, Option.bind_eq_bind, Option.bind_eq_some_iff]
  constructor
  · rintro ⟨x, hx, ha⟩
    cases x with
    | inl => cases ha
    | inr b => rwa [← Option.some.inj ha]
  · exact fun h => ⟨_, h, rfl⟩

theorem mem_live : a ∈ v.live ↔ ∃ i, v.get? i = some a := by
  simp only [get?_eq_some, live, mem_filterMap, ← mem_iff_getElem?]
  constructor
  · rintro ⟨x, hx, ha⟩
    cases x with
    | inl => cases ha
    | inr b => rwa [← Option.some.inj ha]
  · exact fun h => ⟨_, h, rfl⟩

theorem live_eq_of_get? (h : v.get? i = some a) :
    v.live = v.valuesBefore i ++ a :: v.valuesFrom (i + 1) := by
  rw [get?_eq_some] at h
  obtain ⟨hi, hget⟩ := List.getElem?_eq_some_iff.mp h
  have hdrop : v.valuesFrom i = a :: v.valuesFrom (i + 1) := by
    rw [valuesFrom, valuesFrom, drop_eq_getElem_cons hi, hget]
    rfl
  rw [← valuesBefore_append_valuesFrom v i, hdrop]

theorem live_erase (h : v.get? i = some a) :
    (v.erase i).live = v.valuesBefore i ++ v.valuesFrom (i + 1) := by
  rw [get?_eq_some] at h
  obtain ⟨hi, -⟩ := List.getElem?_eq_some_iff.mp h
  rw [live, erase, set_eq_take_append_cons_drop, if_pos hi, filterMap_append]
  rfl

theorem get?_erase_of_ne {j : Nat} (h : j ≠ i) : (v.erase i).get? j = v.get? j := by
  rw [get?, get?, erase, List.getElem?_set_ne h.symm]

theorem live_perm_erase (h : v.get? i = some a) : v.live.Perm (a :: (v.erase i).live) := by
  rw [live_eq_of_get? h, live_erase h]
  exact perm_middle

@[simp] theorem backingSize_erase : (v.erase i).backingSize = v.backingSize :=
  length_set

theorem size_compress_le (v : SparseVector α) : v.compress.size ≤ v.compress.backingSize := by
  unfold compress
  split_ifs with h
  · exact Nat.le_of_eq h
  · simp [backingSize]

@[simp] theorem live_compress (v : SparseVector α) : v.compress.live = v.live := by
  unfold compress
  split_ifs
  · rfl
  · simp [live, filterMap_map, Function.comp_def]

end SparseVector

end Caffeine
