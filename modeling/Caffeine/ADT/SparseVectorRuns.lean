import Caffeine.ADT.SparseVector
import Caffeine.Util.Slots

/-!
# Vectors with holes in use

Elements are appended, put into holes and erased. The free list visits the holes, and iterators,
which are positions, find the elements on either side.
-/

namespace Caffeine

namespace SparseVector

open Slots List

variable {α : Type*}

/-- `alloc_slot`, with its assertion that the slot is a hole. -/
def allocSlot (v : SparseVector α) : Option (Nat × SparseVector α) :=
  match v.head with
  | none => some (v.elements.length, { v with elements := v.elements ++ [.inl none] })
  | some i =>
    match v.elements[i]? with
    | some (.inl next) => some (i, { v with head := next })
    | _ => none

def emplace (v : SparseVector α) (a : α) : Option (Nat × SparseVector α) :=
  v.allocSlot.map fun (i, v) => (i, ⟨v.elements.set i (.inr a), v.size + 1, v.head⟩)

/-- Every sequence of calls begins with an empty vector, which `clear` also leaves. -/
inductive Reachable : SparseVector α → Prop
  | new : Reachable ∅
  | emplaceBack {v} (a : α) : Reachable v → Reachable (v.pushBack a)
  | emplace {v v' i} {a : α} : Reachable v → v.emplace a = some (i, v') → Reachable v'
  | erase {v i} {a : α} : Reachable v → v.get? i = some a → Reachable (v.erase i)
  | compress {v} : Reachable v → Reachable v.compress

variable {v v' : SparseVector α} {i : Nat} {a : α}

structure Consistent (v : SparseVector α) : Prop where
  tracks : Tracks (links v.elements) v.head
  size : v.size = v.live.length

theorem emplace_cases (h : v.emplace a = some (i, v')) :
    (v.head = none ∧ i = v.elements.length ∧ v' = v.pushBack a) ∨
    ∃ next, v.head = some i ∧ v.elements[i]? = some (.inl next) ∧
      v' = ⟨v.elements.set i (.inr a), v.size + 1, next⟩ := by
  obtain ⟨⟨i, u⟩, hslot, heq⟩ := Option.map_eq_some_iff.mp h
  cases heq
  rw [allocSlot] at hslot
  split at hslot
  · rename_i hhead
    cases hslot
    exact .inl ⟨hhead, rfl, by simp [pushBack, hhead]⟩
  · rename_i hhead
    split at hslot
    · rename_i hhole
      cases hslot
      exact .inr ⟨_, hhead, hhole, rfl⟩
    · cases hslot

theorem exists_emplace (h : Tracks (links v.elements) v.head) (a : α) :
    ∃ i v', v.emplace a = some (i, v') := by
  obtain ⟨elements, size, head⟩ := v
  cases head with
  | none => simp [emplace, allocSlot]
  | some i =>
    obtain ⟨next, hnext, -⟩ := h.pop
    obtain ⟨slot, hslot, hleft⟩ := Option.bind_eq_some_iff.mp hnext
    obtain rfl := Sum.getLeft?_eq_some_iff.mp hleft
    simp [emplace, allocSlot, hslot]

theorem get?_emplace (h : v.emplace a = some (i, v')) :
    v.get? i = none ∧ v'.get? i = some a ∧ ∀ j, j ≠ i → v'.get? j = v.get? j := by
  obtain ⟨-, rfl, rfl⟩ | ⟨next, -, hhole, rfl⟩ := emplace_cases h
  · refine ⟨by simp [get?], by simp [get?, pushBack], fun j hj => ?_⟩
    rw [get?, get?, pushBack, List.getElem?_append]
    split_ifs with hlt
    · rfl
    · rw [getElem?_eq_none (Nat.le_of_not_lt hlt),
        getElem?_eq_none (by rw [length_singleton]; omega)]
  · have hi := (List.getElem?_eq_some_iff.mp hhole).1
    refine ⟨by simp [get?, hhole], by simp [get?, hi], fun j hj => ?_⟩
    rw [get?, get?, getElem?_set_ne hj.symm]

theorem Consistent.pushBack (h : Consistent v) (a : α) : Consistent (v.pushBack a) :=
  ⟨(links_append a).symm ▸ h.tracks, by simp [SparseVector.pushBack, h.size, live]⟩

theorem Consistent.emplace (h : Consistent v) (he : v.emplace a = some (i, v')) :
    Consistent v' := by
  obtain ⟨-, -, rfl⟩ | ⟨next, hhead, hhole, rfl⟩ := emplace_cases he
  · exact h.pushBack a
  · have hi := (List.getElem?_eq_some_iff.mp hhole).1
    obtain ⟨next', hnext, htracks⟩ := (hhead ▸ h.tracks).pop
    rw [links, hhole] at hnext
    obtain rfl : next = next' := Option.some.inj hnext
    refine ⟨(links_set hi _).symm ▸ htracks, ?_⟩
    -- the vector before is the new one without the element
    have hget : (⟨v.elements.set i (.inr a), v.size + 1, next⟩ : SparseVector α).get? i =
      some a := by
      simp [get?, hi]
    have hlive : (SparseVector.erase ⟨v.elements.set i (.inr a), v.size + 1, next⟩ i).live =
        v.live := by
      rw [live, erase, set_set, ← (List.getElem?_eq_some_iff.mp hhole).2, set_getElem_self, live]
    rw [(live_perm_erase hget).length_eq, length_cons, hlive, h.size]

theorem Consistent.erase (h : Consistent v) (hget : v.get? i = some a) :
    Consistent (v.erase i) := by
  have hslot := get?_eq_some.mp hget
  have hi := (List.getElem?_eq_some_iff.mp hslot).1
  refine ⟨(links_set hi _).symm ▸ h.tracks.push (by rw [links, hslot]; rfl), ?_⟩
  rw [SparseVector.erase, h.size, (live_perm_erase hget).length_eq, length_cons]
  rfl

theorem Consistent.elements_compress (h : Consistent v) :
    v.compress.elements = v.live.map .inr := by
  rw [compress]
  split_ifs with hfull
  · have hall := h.size.symm.trans hfull
    rw [live, backingSize, filterMap_length_eq_length] at hall
    rw [live, map_filterMap, filterMap_congr (g := some), filterMap_some]
    intro slot hslot
    obtain ⟨a, ha⟩ := Option.isSome_iff_exists.mp (hall slot hslot)
    rw [ha, Sum.getRight?_eq_some_iff.mp ha]
    rfl
  · rfl

theorem Consistent.compress (h : Consistent v) : Consistent v.compress := by
  rw [SparseVector.compress]
  split_ifs
  · exact h
  · have hlinks : links (v.live.map (Sum.inr (α := Option Nat))) = fun _ => none := by
      funext i
      rw [links, getElem?_map]
      cases v.live[i]? <;> rfl
    exact ⟨hlinks.symm ▸ tracks_none, by simp [live, filterMap_map, Function.comp_def]⟩

theorem Reachable.consistent (h : Reachable v) : Consistent v := by
  induction h with
  | new => exact ⟨tracks_none, rfl⟩
  | emplaceBack a _ ih => exact ih.pushBack a
  | emplace _ he ih => exact ih.emplace he
  | erase _ hget ih => exact ih.erase hget
  | compress _ ih => exact ih.compress

/-- The free list visits every hole once, `size` counts the elements, `emplace` takes a hole,
iterations visit the elements on their side in order, and `compress` keeps them. -/
theorem reachable_consistent (v : SparseVector α) (h : Reachable v) :
    Tracks (links v.elements) v.head ∧ v.size = v.live.length ∧
    (∀ a, ∃ i v', v.emplace a = some (i, v') ∧
      v.get? i = none ∧ v'.get? i = some a ∧ ∀ j, j ≠ i → v'.get? j = v.get? j) ∧
    (∀ i, visit Sum.isRight v.elements v.backingSize (seek Sum.isRight v.elements i) =
      inUseFrom Sum.isRight v.elements i) ∧
    (∀ i, i ≤ v.backingSize →
      visitBack Sum.isRight v.elements (inUseBefore Sum.isRight v.elements i).length i =
        some (inUseBefore Sum.isRight v.elements i).reverse) ∧
    v.compress.elements = v.live.map .inr := by
  have hv := h.consistent
  refine ⟨hv.tracks, hv.size, fun a => ?_, fun i => ?_, fun i hi => ?_, hv.elements_compress⟩
  · obtain ⟨i, v', he⟩ := exists_emplace hv.tracks a
    exact ⟨i, v', he, get?_emplace he⟩
  · exact visit_skip _ _ _ _ i (Nat.le_refl _) (Nat.sub_le _ _)
  · exact visitBack_eq _ _ i hi

/-- The element at the position of the iterator has been erased. -/
theorem reachable_consistent_erased : ∃ v : SparseVector Nat, v.get? 1 = none ∧
    visit Sum.isRight v.elements 3 (seek Sum.isRight v.elements 2) = [(.inr 9, 2)] := by
  have h : Reachable ((((∅ : SparseVector Nat).pushBack 5).pushBack 7).pushBack 9 |>.erase 1) :=
    .erase (.emplaceBack 9 (.emplaceBack 7 (.emplaceBack 5 .new))) rfl
  exact ⟨_, rfl, (reachable_consistent _ h).2.2.2.1 2⟩

end SparseVector

end Caffeine
