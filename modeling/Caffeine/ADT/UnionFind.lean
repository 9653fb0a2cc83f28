import Mathlib.Data.Fintype.Card
import Mathlib.Logic.Function.Iterate

/-!
# Union-find over a vector of parents

`UnionFind<T>` stores one parent per id. The structure carries what every operation keeps: parents
are ids, and no id is its own proper ancestor. So `find` always reaches a root, and the compressing
`update` returns the same one.
-/

namespace Caffeine

open List Option

structure UnionFind where
  parents : List Nat
  bounded : ∀ i p : Nat, parents[i]? = some p → p < parents.length
  grounded : ∃ height : Nat → Nat, ∀ i p : Nat, parents[i]? = some p → p ≠ i → height p < height i

variable {i r : Nat}

namespace UnionFind

def empty : UnionFind where
  parents := []
  bounded := by simp
  grounded := ⟨id, by simp⟩

def size (u : UnionFind) : Nat := u.parents.length

/-- Total reading of `parent`; the bounds check of `at` is made by the callers. -/
def parent (u : UnionFind) (i : Nat) : Nat := u.parents.getD i i

def IsRoot (u : UnionFind) (r : Nat) : Prop := u.parents[r]? = some r

variable (u : UnionFind)

theorem parent_lt (hi : i < u.size) : u.parent i < u.size := by
  have hp : u.parents[i]? = some (u.parent i) := by
    simp only [parent, getD_eq_getElem?_getD, List.getElem?_eq_getElem hi, getD_some]
  exact u.bounded i _ hp

theorem parent_of_size_le (hi : u.size ≤ i) : u.parent i = i := by
  simp only [parent, getD_eq_getElem?_getD, List.getElem?_eq_none hi, getD_none]

theorem isRoot_iff : u.IsRoot r ↔ r < u.size ∧ u.parent r = r := by
  constructor
  · intro h
    obtain ⟨hr, -⟩ := List.getElem?_eq_some_iff.mp h
    have h' : u.parents[r]? = some r := h
    refine ⟨hr, ?_⟩
    simp only [parent, getD_eq_getElem?_getD, h', getD_some]
  · rintro ⟨hr, hp⟩
    have hlt : r < u.parents.length := hr
    simp only [parent, getD_eq_getElem?_getD, List.getElem?_eq_getElem hlt, getD_some] at hp
    exact List.getElem?_eq_some_iff.mpr ⟨hlt, hp⟩

theorem exists_height :
    ∃ height : Nat → Nat, ∀ i, u.parent i ≠ i → height (u.parent i) < height i := by
  obtain ⟨height, hh⟩ := u.grounded
  refine ⟨height, fun i hi => ?_⟩
  by_cases hlt : i < u.size
  · refine hh i _ ?_ hi
    have hlt' : i < u.parents.length := hlt
    simp only [parent, getD_eq_getElem?_getD, List.getElem?_eq_getElem hlt', getD_some]
  · exact absurd (u.parent_of_size_le (by omega)) hi

/-- The loop of the const `find`, with a step bound. -/
def findFrom (u : UnionFind) : Nat → Nat → Nat
  | 0, current => current
  | fuel + 1, current =>
    if current = u.parent current then current else u.findFrom fuel (u.parent current)

/-- `find`; the number of ids bounds the length of every path to a root. -/
def find (u : UnionFind) (i : Nat) : Nat := u.findFrom u.size i

theorem iterate_parent_of_eq (hr : u.parent r = r) (k : Nat) :
    u.parent^[k] r = r := Function.iterate_fixed hr k

theorem findFrom_eq_iterate (fuel i : Nat) : u.findFrom fuel i = u.parent^[fuel] i := by
  induction fuel generalizing i with
  | zero => rfl
  | succ fuel ih =>
    rw [findFrom, Function.iterate_succ_apply]
    split_ifs with hi
    · rw [← hi, u.iterate_parent_of_eq hi.symm]
    · exact ih _

theorem iterate_parent_lt (hi : i < u.size) (k : Nat) : u.parent^[k] i < u.size := by
  induction k generalizing i with
  | zero => exact hi
  | succ k ih => exact ih (u.parent_lt hi)

theorem exists_iterate_root (hi : i < u.size) :
    ∃ k ≤ u.size, u.parent (u.parent^[k] i) = u.parent^[k] i := by
  by_contra! hne
  obtain ⟨height, hh⟩ := u.exists_height
  have hstep : ∀ k ≤ u.size, height (u.parent^[k + 1] i) < height (u.parent^[k] i) := by
    intro k hk
    rw [Function.iterate_succ_apply']
    exact hh _ (hne k hk)
  have hanti : ∀ k l, k < l → l ≤ u.size + 1 →
      height (u.parent^[l] i) < height (u.parent^[k] i) := by
    intro k l hkl hl
    induction l with
    | zero => omega
    | succ l ih =>
      have hlast := hstep l (by omega)
      rcases Nat.lt_or_ge k l with hlt | hge
      · exact hlast.trans (ih hlt (by omega))
      · have : k = l := by omega
        exact this ▸ hlast
  let f : Fin (u.size + 1) → Fin u.size := fun k => ⟨u.parent^[k.1] i, u.iterate_parent_lt hi _⟩
  have hinj : Function.Injective f := by
    intro a b hab
    have hval : u.parent^[a.1] i = u.parent^[b.1] i := congrArg Fin.val hab
    rcases Nat.lt_trichotomy a.1 b.1 with hlt | heq | hgt
    · have := hanti a.1 b.1 hlt (by omega)
      rw [hval] at this
      omega
    · exact Fin.ext heq
    · have := hanti b.1 a.1 hgt (by omega)
      rw [hval] at this
      omega
  have hcard := Fintype.card_le_of_injective f hinj
  simp only [Fintype.card_fin] at hcard
  omega

theorem parent_find (i : Nat) : u.parent (u.find i) = u.find i := by
  rw [find, findFrom_eq_iterate]
  by_cases hi : i < u.size
  · obtain ⟨k, hk, hroot⟩ := u.exists_iterate_root hi
    have hspl : u.size = (u.size - k) + k := by omega
    rw [hspl, Function.iterate_add_apply, u.iterate_parent_of_eq hroot, hroot]
  · have hp := u.parent_of_size_le (Nat.le_of_not_lt hi)
    rw [u.iterate_parent_of_eq hp, hp]

theorem find_lt (hi : i < u.size) : u.find i < u.size := by
  rw [find, findFrom_eq_iterate]
  exact u.iterate_parent_lt hi _

theorem isRoot_find (hi : i < u.size) : u.IsRoot (u.find i) :=
  u.isRoot_iff.mpr ⟨u.find_lt hi, u.parent_find i⟩

theorem find_of_parent_eq (hr : u.parent r = r) : u.find r = r := by
  rw [find, findFrom_eq_iterate, u.iterate_parent_of_eq hr]

theorem find_of_isRoot (hr : u.IsRoot r) : u.find r = r :=
  u.find_of_parent_eq (u.isRoot_iff.mp hr).2

theorem find_of_size_le (hi : u.size ≤ i) : u.find i = i :=
  u.find_of_parent_eq (u.parent_of_size_le hi)

@[simp] theorem find_find (u : UnionFind) (i : Nat) : u.find (u.find i) = u.find i :=
  u.find_of_parent_eq (u.parent_find i)

theorem find_eq_of_iterate {k : Nat} (hr : u.parent r = r) (hk : u.parent^[k] i = r) :
    u.find i = r := by
  have hfix := u.parent_find i
  rw [find, findFrom_eq_iterate] at hfix ⊢
  rcases Nat.le_total k u.size with hle | hle
  · have hspl : u.size = (u.size - k) + k := by omega
    rw [hspl, Function.iterate_add_apply, hk, u.iterate_parent_of_eq hr]
  · have hspl : k = (k - u.size) + u.size := by omega
    rw [hspl, Function.iterate_add_apply, u.iterate_parent_of_eq hfix] at hk
    exact hk

theorem find_parent (i : Nat) : u.find (u.parent i) = u.find i := by
  refine (u.find_eq_of_iterate (k := u.size + 1) (u.parent_find _) ?_).symm
  rw [Function.iterate_succ_apply, ← findFrom_eq_iterate]
  rfl

theorem parent_induction {P : Nat → Prop} (root : ∀ i, u.parent i = i → P i)
    (step : ∀ i, u.parent i ≠ i → P (u.parent i) → P i) (i : Nat) : P i := by
  obtain ⟨height, hh⟩ := u.exists_height
  induction hn : height i using Nat.strong_induction_on generalizing i with
  | _ n ih =>
    by_cases hp : u.parent i = i
    · exact root i hp
    · exact step i hp (ih _ (hn ▸ hh i hp) _ rfl)

def makeSet (u : UnionFind) : Nat × UnionFind :=
  (u.size, {
    parents := u.parents ++ [u.size]
    bounded := by
      intro i p h
      rw [List.getElem?_append] at h
      split_ifs at h with hi
      · have := u.bounded i p h
        simp only [length_append, length_singleton]
        omega
      · obtain ⟨_, hp⟩ := List.getElem?_eq_some_iff.mp h
        simp only [getElem_singleton] at hp
        simp [← hp, size]
    grounded := by
      obtain ⟨height, hh⟩ := u.grounded
      refine ⟨height, fun i p h hne => ?_⟩
      rw [List.getElem?_append] at h
      split_ifs at h with hi
      · exact hh i p h hne
      · obtain ⟨hlt, hp⟩ := List.getElem?_eq_some_iff.mp h
        simp only [length_singleton] at hlt
        simp only [getElem_singleton] at hp
        exact absurd (by simp only [size] at hp; omega) hne })

@[simp] theorem makeSet_fst (u : UnionFind) : u.makeSet.1 = u.size := rfl

@[simp] theorem size_makeSet (u : UnionFind) : u.makeSet.2.size = u.size + 1 := by
  simp [makeSet, size]

theorem parent_makeSet (i : Nat) : u.makeSet.2.parent i = u.parent i := by
  simp only [parent, makeSet, getD_eq_getElem?_getD, List.getElem?_append]
  split_ifs with hi
  · rfl
  · rw [List.getElem?_eq_none (Nat.le_of_not_lt hi), getD_none]
    rcases Nat.lt_or_ge (i - u.parents.length) 1 with h1 | h1
    · have : i = u.parents.length := by omega
      subst this
      simp [size]
    · rw [List.getElem?_eq_none (by simpa using h1), getD_none]

theorem find_congr {u v : UnionFind} (h : ∀ i, u.parent i = v.parent i) (i : Nat) :
    u.find i = v.find i := by
  have hf : u.parent = v.parent := funext h
  refine u.find_eq_of_iterate (k := v.size) ?_ ?_
  · rw [h, v.parent_find]
  · rw [hf, ← findFrom_eq_iterate]
    rfl

@[simp] theorem find_makeSet (u : UnionFind) (i : Nat) : u.makeSet.2.find i = u.find i :=
  find_congr u.parent_makeSet i

/-- `do_union`: the second root becomes a child of the first. -/
def doUnion (u : UnionFind) (root1 root2 : Nat) (h1 : u.IsRoot root1) (h2 : u.IsRoot root2) :
    UnionFind where
  parents := u.parents.set root2 root1
  bounded := by
    intro i p h
    rw [length_set]
    rw [List.getElem?_set] at h
    split_ifs at h with he hlt
    · cases h
      exact (u.isRoot_iff.mp h1).1
    · exact u.bounded i p h
  grounded := by
    obtain ⟨height, hh⟩ := u.exists_height
    by_cases heq : root1 = root2
    · subst heq
      refine ⟨height, fun i p h hne => ?_⟩
      have hset : u.parents.set root1 root1 = u.parents := by
        obtain ⟨hlt, hv⟩ := List.getElem?_eq_some_iff.mp h1
        conv_rhs => rw [← set_getElem_self hlt, hv]
      rw [hset] at h
      have hp : u.parent i = p := by
        simp only [parent, getD_eq_getElem?_getD, h, getD_some]
      exact hp ▸ hh i (by rwa [hp])
    · refine ⟨fun i => if u.find i = root2 then height i + (height root1 + 1) else height i,
        fun i p h hne => ?_⟩
      rw [List.getElem?_set] at h
      split_ifs at h with he hlt
      · cases h
        subst he
        have hr1 : u.find root1 = root1 := u.find_of_isRoot h1
        have hr2 : u.find root2 = root2 := u.find_of_isRoot h2
        simp only [hr1, heq, if_false, hr2, if_true]
        omega
      · have hp : u.parent i = p := by
          simp only [parent, getD_eq_getElem?_getD, h, getD_some]
        have hlt := hh i (by rwa [hp])
        have hfind : u.find p = u.find i := hp ▸ u.find_parent i
        rw [hp] at hlt
        simp only [hfind]
        split_ifs <;> omega

section DoUnion

variable (u : UnionFind) {r1 r2 : Nat} (h1 : u.IsRoot r1) (h2 : u.IsRoot r2)

@[simp] theorem size_doUnion : (u.doUnion r1 r2 h1 h2).size = u.size := by
  simp [doUnion, size]

theorem parent_doUnion (i : Nat) :
    (u.doUnion r1 r2 h1 h2).parent i = if i = r2 then r1 else u.parent i := by
  simp only [parent, doUnion, getD_eq_getElem?_getD, List.getElem?_set]
  by_cases hi : r2 = i
  · subst hi
    have hlt : r2 < u.parents.length := (u.isRoot_iff.mp h2).1
    simp [hlt]
  · rw [if_neg hi, if_neg (fun h => hi h.symm)]

theorem find_doUnion (i : Nat) :
    (u.doUnion r1 r2 h1 h2).find i = if u.find i = r2 then r1 else u.find i := by
  have hf1 := u.find_of_isRoot h1
  have hf2 := u.find_of_isRoot h2
  have hroot : (u.doUnion r1 r2 h1 h2).find r1 = r1 := by
    apply find_of_parent_eq
    rw [parent_doUnion]
    split_ifs with h
    · rfl
    · exact (u.isRoot_iff.mp h1).2
  refine u.parent_induction (P := fun i =>
    (u.doUnion r1 r2 h1 h2).find i = if u.find i = r2 then r1 else u.find i) ?_ ?_ i
  · intro i hi
    rw [u.find_of_parent_eq hi]
    by_cases hi2 : i = r2
    · rw [if_pos hi2, ← find_parent, parent_doUnion, if_pos hi2, hroot]
    · rw [if_neg hi2]
      apply find_of_parent_eq
      rw [parent_doUnion, if_neg hi2, hi]
  · intro i hi ih
    have hi2 : i ≠ r2 := fun h => hi (h ▸ (u.isRoot_iff.mp h2).2)
    rw [← find_parent, parent_doUnion, if_neg hi2, ih, u.find_parent]

end DoUnion

/-- One turn of the loop of `update`: the parent is replaced by the grandparent. -/
def halve (u : UnionFind) (current : Nat) : UnionFind where
  parents := u.parents.set current (u.parent (u.parent current))
  bounded := by
    intro i p h
    rw [length_set]
    rw [List.getElem?_set] at h
    split_ifs at h with he hlt
    · cases h
      exact u.parent_lt (u.parent_lt hlt)
    · exact u.bounded i p h
  grounded := by
    obtain ⟨height, hh⟩ := u.exists_height
    refine ⟨height, fun i p h hne => ?_⟩
    rw [List.getElem?_set] at h
    split_ifs at h with he hlt
    · cases h
      subst he
      by_cases hp : u.parent current = current
      · exact absurd (by rw [hp, hp]) hne
      · have hlt1 := hh current hp
        by_cases hg : u.parent (u.parent current) = u.parent current
        · rwa [hg]
        · exact (hh _ hg).trans hlt1
    · have hp : u.parent i = p := by
        simp only [parent, getD_eq_getElem?_getD, h, getD_some]
      exact hp ▸ hh i (by rwa [hp])

theorem parent_halve (c i : Nat) :
    (u.halve c).parent i = if i = c then u.parent (u.parent c) else u.parent i := by
  simp only [parent, halve, getD_eq_getElem?_getD, List.getElem?_set]
  by_cases hi : c = i
  · subst hi
    by_cases hlt : c < u.parents.length
    · simp [hlt]
    · simp [hlt]
  · rw [if_neg hi, if_neg (fun h => hi h.symm)]

theorem find_halve (c i : Nat) : (u.halve c).find i = u.find i := by
  refine u.parent_induction (P := fun i => (u.halve c).find i = u.find i) ?_ ?_ i
  · intro i hi
    rw [u.find_of_parent_eq hi]
    apply find_of_parent_eq
    rw [parent_halve]
    split_ifs with hic
    · rw [← hic, hi, hi]
    · exact hi
  · intro i hi ih
    by_cases hic : i = c
    · subst hic
      by_cases hg : u.parent (u.parent i) = u.parent i
      · rw [← find_parent, parent_halve, if_pos rfl, hg, ih, u.find_parent]
      · have hne : u.parent i ≠ i := hi
        have hgp : (u.halve i).find (u.parent (u.parent i)) = (u.halve i).find (u.parent i) := by
          rw [← (u.halve i).find_parent (u.parent i), parent_halve, if_neg hne]
        rw [← find_parent, parent_halve, if_pos rfl, hgp, ih, u.find_parent]
    · rw [← find_parent, parent_halve, if_neg hic, ih, u.find_parent]

/-- `update`: path halving, with a step bound. -/
def updateFrom : Nat → UnionFind → Nat → Nat × UnionFind
  | 0, u, current => (current, u)
  | fuel + 1, u, current =>
    if current = u.parent current then (current, u)
    else updateFrom fuel (u.halve current) (u.parent (u.parent current))

def update (u : UnionFind) (i : Nat) : Nat × UnionFind := updateFrom u.size u i

theorem find_updateFrom (fuel : Nat) (u : UnionFind) (i j : Nat) :
    (updateFrom fuel u i).2.find j = u.find j := by
  induction fuel generalizing u i with
  | zero => rfl
  | succ fuel ih =>
    rw [updateFrom]
    split_ifs with hi
    · rfl
    · rw [ih, find_halve]

theorem exists_iterate_halve (c k i : Nat) (hk : u.parent (u.parent^[k] i) = u.parent^[k] i) :
    ∃ l ≤ k, (u.halve c).parent ((u.halve c).parent^[l] i) = (u.halve c).parent^[l] i := by
  induction k using Nat.strong_induction_on generalizing i with
  | _ k ih =>
    by_cases hroot : u.parent i = i
    · refine ⟨0, Nat.zero_le _, ?_⟩
      rw [Function.iterate_zero_apply, parent_halve]
      split_ifs with hic
      · rw [← hic, hroot, hroot]
      · exact hroot
    · match k with
      | 0 => exact absurd hk hroot
      | k + 1 =>
        rw [Function.iterate_succ_apply] at hk
        by_cases hic : i = c
        · have hgp : u.parent (u.parent^[k - 1] (u.parent (u.parent i))) =
              u.parent^[k - 1] (u.parent (u.parent i)) := by
            match k with
            | 0 => rw [Nat.zero_sub, Function.iterate_zero_apply] at *; rw [hk, hk]
            | k + 1 => exact hk
          obtain ⟨l, hl, hfix⟩ := ih (k - 1) (by omega) _ hgp
          refine ⟨l + 1, by omega, ?_⟩
          rw [Function.iterate_succ_apply, parent_halve u c i, if_pos hic, ← hic]
          exact hic ▸ hfix
        · obtain ⟨l, hl, hfix⟩ := ih k (by omega) _ hk
          refine ⟨l + 1, by omega, ?_⟩
          rw [Function.iterate_succ_apply, parent_halve u c i, if_neg hic]
          exact hfix

theorem updateFrom_fst (fuel : Nat) (u : UnionFind) (i k : Nat) (hle : k ≤ fuel)
    (hk : u.parent (u.parent^[k] i) = u.parent^[k] i) : (updateFrom fuel u i).1 = u.find i := by
  induction fuel generalizing u i k with
  | zero =>
    obtain rfl : k = 0 := by omega
    exact (u.find_of_parent_eq hk).symm
  | succ fuel ih =>
    rw [updateFrom]
    split_ifs with hi
    · exact (u.find_of_parent_eq hi.symm).symm
    · match k with
      | 0 => exact absurd hk.symm hi
      | k + 1 =>
        have hgp : u.parent (u.parent^[k] (u.parent (u.parent i))) =
            u.parent^[k] (u.parent (u.parent i)) := by
          rw [Function.iterate_succ_apply] at hk
          rw [← Function.iterate_succ_apply, Function.iterate_succ_apply', hk, hk]
        obtain ⟨l, hl, hfix⟩ := u.exists_iterate_halve i k _ hgp
        rw [ih (u.halve i) _ l (by omega) hfix, find_halve, u.find_parent, u.find_parent]

/-- Path compression is invisible, so the model of the e-graph calls the const `find`. -/
theorem update_spec (hi : i < u.size) (j : Nat) :
    (u.update i).1 = u.find i ∧ (u.update i).2.find j = u.find j := by
  obtain ⟨k, hk, hroot⟩ := u.exists_iterate_root hi
  exact ⟨updateFrom_fst _ u i k hk hroot, find_updateFrom _ u i j⟩

end UnionFind

end Caffeine
