import Mathlib.Data.List.Basic
import Mathlib.Data.List.Nodup
import Mathlib.Logic.Function.Basic

/-!
# Slots with a free list and holes

A slot that is not in use holds the next free slot, so the free slots form a list; `link i` is what
the slot `i` holds if free. Iterators step over free slots: `seek` is the loop of an increment,
`back` that of a decrement.
-/

open Function

namespace Slots

open List

section FreeList

variable {link link' : Nat → Option (Option Nat)} {head : Option Nat} {i : Nat} {l : List Nat}

/-- The free slots met from `head` on. -/
inductive Visits (link : Nat → Option (Option Nat)) : Option Nat → List Nat → Prop
  | nil : Visits link none []
  | cons {i : Nat} {next : Option Nat} {l : List Nat} :
    link i = some next → Visits link next l → Visits link (some i) (i :: l)

theorem Visits.congr (h : Visits link head l) (hl : ∀ i ∈ l, link' i = link i) :
    Visits link' head l := by
  induction h with
  | nil => exact .nil
  | cons hi _ ih =>
    obtain ⟨hfst, hrest⟩ := forall_mem_cons.mp hl
    exact .cons (hfst.trans hi) (ih hrest)

/-- The free list ends, and it visits every free slot once and no other slot. -/
def Tracks (link : Nat → Option (Option Nat)) (head : Option Nat) : Prop :=
  ∃ l, Visits link head l ∧ l.Nodup ∧ ∀ i, i ∈ l ↔ (link i).isSome

theorem tracks_none : Tracks (fun _ => none) none :=
  ⟨[], .nil, nodup_nil, fun i => by simp⟩

theorem Tracks.push (h : Tracks link head) (hi : link i = none) :
    Tracks (update link i (some head)) (some i) := by
  obtain ⟨l, hviss, hnd, hmem⟩ := h
  have hnot : i ∉ l := by simp [hmem, hi]
  refine ⟨i :: l, .cons (update_self ..) (hviss.congr fun j hj => ?_),
    nodup_cons.mpr ⟨hnot, hnd⟩, fun j => ?_⟩
  · exact update_of_ne (fun h : j = i => hnot (h ▸ hj)) ..
  · rw [mem_cons, hmem, update_apply]
    split_ifs with hj <;> simp [hj]

theorem Tracks.pop (h : Tracks link (some i)) :
    ∃ next, link i = some next ∧ Tracks (update link i none) next := by
  obtain ⟨_, hviss, hnd, hmem⟩ := h
  obtain _ | @⟨_, next, l, hi, hviss⟩ := hviss
  obtain ⟨hnot, hnd⟩ := nodup_cons.mp hnd
  refine ⟨next, hi, l, hviss.congr fun j hj => ?_, hnd, fun j => ?_⟩
  · exact update_of_ne (fun h : j = i => hnot (h ▸ hj)) ..
  · have hj := hmem j
    rw [mem_cons] at hj
    rw [update_apply]
    split_ifs with heq
    · simp [heq, hnot]
    · rw [← hj, or_iff_right heq]

variable {α : Type*} {slots : List (Option Nat ⊕ α)}

def links (slots : List (Option Nat ⊕ α)) (i : Nat) : Option (Option Nat) :=
  slots[i]?.bind Sum.getLeft?

theorem links_set (hi : i < slots.length) (slot : Option Nat ⊕ α) :
    links (slots.set i slot) = update (links slots) i slot.getLeft? := by
  funext j
  rw [links, List.getElem?_set, update_apply]
  by_cases hj : i = j
  · simp [hj ▸ hi, hj]
  · rw [if_neg hj, if_neg (Ne.symm hj), links]

theorem links_append (a : α) : links (slots ++ [.inr a]) = links slots := by
  funext j
  rw [links, links, List.getElem?_append]
  split_ifs with hj
  · rfl
  · rw [List.getElem?_eq_none (Nat.le_of_not_lt hj), List.getElem?_singleton]
    split_ifs <;> rfl

end FreeList

section Iteration

variable {β : Type*} (live : β → Bool) (slots : List β)

def skip : Nat → Nat → Nat
  | 0, i => i
  | fuel + 1, i => if slots[i]?.all live then i else skip fuel (i + 1)

/-- The first slot in use from `i` on, or the end. -/
def seek (i : Nat) : Nat := skip live slots (slots.length - i) i

theorem seek_of_live {i : Nat} {slot : β} (h : slots[i]? = some slot) (hlive : live slot) :
    seek live slots i = i := by
  rw [seek]
  cases slots.length - i with
  | zero => rfl
  | succ k => rw [skip, h, Option.all_some, if_pos hlive]

/-- What an iterator at `i` visits up to the end, with the indices. -/
def visit : Nat → Nat → List (β × Nat)
  | 0, _ => []
  | fuel + 1, i =>
    match slots[i]? with
    | none => []
    | some slot => (slot, i) :: visit fuel (seek live slots (i + 1))

def inUseFrom (i : Nat) : List (β × Nat) := (slots.zipIdx.drop i).filter fun p => live p.1

theorem visit_skip (fuel k i : Nat) (hk : slots.length - i ≤ k) (hfuel : slots.length - i ≤ fuel) :
    visit live slots fuel (skip live slots k i) = inUseFrom live slots i := by
  induction hn : slots.length - i generalizing fuel k i with
  | zero =>
    have hi : slots[i]? = none := List.getElem?_eq_none (by omega)
    have hskip : skip live slots k i = i := by cases k <;> simp [skip, hi]
    rw [hskip, inUseFrom, drop_eq_nil_of_le (by rw [length_zipIdx]; omega)]
    cases fuel <;> simp [visit, hi]
  | succ n ih =>
    obtain ⟨k, rfl⟩ : ∃ k', k = k' + 1 := ⟨k - 1, by omega⟩
    obtain ⟨fuel, rfl⟩ : ∃ f, fuel = f + 1 := ⟨fuel - 1, by omega⟩
    have hlt : i < slots.zipIdx.length := by rw [length_zipIdx]; omega
    rw [inUseFrom, drop_eq_getElem_cons hlt, filter_cons, getElem_zipIdx,
      Nat.zero_add, ← inUseFrom, skip, List.getElem?_eq_getElem (by omega), Option.all_some]
    split_ifs with hlive
    · rw [visit, List.getElem?_eq_getElem (by omega)]
      exact congrArg _ (ih fuel _ (i + 1) (Nat.le_refl _) (by omega) (by omega))
    · exact ih (fuel + 1) k (i + 1) (by omega) (by omega) (by omega)

/-- A decrement, which leaves the slots if none before `i` is in use. -/
def back : Nat → Option Nat
  | 0 => none
  | i + 1 => if slots[i]?.all live then some i else back i

/-- What `k` decrements from `i` visit. -/
def visitBack : Nat → Nat → Option (List (β × Nat))
  | 0, _ => some []
  | k + 1, i => (back live slots i).bind fun j =>
    slots[j]?.bind fun slot => (visitBack k j).map ((slot, j) :: ·)

def inUseBefore (i : Nat) : List (β × Nat) := (slots.zipIdx.take i).filter fun p => live p.1

theorem visitBack_eq (i : Nat) (hi : i ≤ slots.length) :
    visitBack live slots (inUseBefore live slots i).length i =
      some (inUseBefore live slots i).reverse := by
  induction i with
  | zero => rfl
  | succ i ih =>
    have hlt : i < slots.length := hi
    have hspl : inUseBefore live slots (i + 1) = inUseBefore live slots i ++
        if live slots[i] then [(slots[i], i)] else [] := by
      rw [inUseBefore, take_add_one, filter_append, List.getElem?_zipIdx,
        List.getElem?_eq_getElem hlt, ← inUseBefore]
      split_ifs with hlive <;> simp [hlive]
    have hback : back live slots (i + 1) = if live slots[i] then some i else back live slots i := by
      rw [back, List.getElem?_eq_getElem hlt, Option.all_some]
    rw [hspl]
    split_ifs at hback ⊢ with hlive
    · simp [visitBack, hback, ih (by omega), List.getElem?_eq_getElem hlt]
    · have hsame : ∀ k, visitBack live slots k (i + 1) = visitBack live slots k i := by
        intro k
        cases k <;> simp [visitBack, hback]
      rw [append_nil, hsame, ih (by omega)]

end Iteration

end Slots
