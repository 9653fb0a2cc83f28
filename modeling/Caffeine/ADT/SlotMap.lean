import Caffeine.Util.Containers
import Mathlib.Data.List.Perm.Basic

/-!
# Slot maps

A slot map keeps its values in slots. A key is the index of a slot with its generation, a counter of
63 bits that grows when a value is removed. The empty slots form a list from `head` on.
-/

namespace Caffeine

open List

structure Slot (α : Type) where
  gen : Nat
  content : Option Nat ⊕ α

structure SlotMap (α : Type) where
  entries : List (Slot α)
  head : Option Nat

namespace SlotMap

variable {α : Type}

abbrev Key := Nat × Nat

instance : EmptyCollection (SlotMap α) := ⟨⟨[], none⟩⟩

/-- `next_slot`, with its assertion that the slot is empty. -/
def nextSlot (m : SlotMap α) : Option (Nat × SlotMap α) :=
  match m.head with
  | none => some (m.entries.length, { m with entries := m.entries ++ [⟨0, .inl none⟩] })
  | some i =>
    match m.entries[i]? with
    | some ⟨_, .inl next⟩ => some (i, { m with head := next })
    | _ => none

def emplace (m : SlotMap α) (a : α) : Option (Key × SlotMap α) := do
  let (i, m) ← m.nextSlot
  let slot ← m.entries[i]?
  some ((i, slot.gen), { m with entries := m.entries.set i ⟨slot.gen, .inr a⟩ })

/-- `remove` of a key; there is no result for a key without a value. -/
def remove (m : SlotMap α) (key : Key) : Option (α × SlotMap α) :=
  match m.entries[key.1]? with
  | some ⟨gen, .inr a⟩ =>
    if gen = key.2 then
      some (a, ⟨m.entries.set key.1 ⟨(gen + 1) % 2 ^ 63, .inl m.head⟩, some key.1⟩)
    else none
  | _ => none

def pair? (slot : Slot α × Nat) : Option (Key × α) :=
  slot.1.content.getRight?.map ((slot.2, slot.1.gen), ·)

/-- The values with their keys, in the order of their slots. -/
def pairs (m : SlotMap α) : List (Key × α) := m.entries.zipIdx.filterMap pair?

variable {m m' : SlotMap α} {key : Key} {a : α} {i : Nat}

theorem nodup_keys (m : SlotMap α) : (m.pairs.map Prod.fst).Nodup := by
  have hidx : m.entries.zipIdx.Pairwise fun x y => x.2 ≠ y.2 := by
    apply pairwise_map.mp
    rw [zipIdx_map_snd]
    exact nodup_range'
  refine pairwise_map.mpr (hidx.filterMap pair? ?_)
  intro x y hne e hx e' hy
  obtain ⟨-, -, rfl⟩ := Option.map_eq_some_iff.mp hx
  obtain ⟨-, -, rfl⟩ := Option.map_eq_some_iff.mp hy
  exact fun heq => hne (congrArg Prod.fst heq)

def toMap (m : SlotMap α) : Map Key α where
  entries := m.pairs.map fun e => ⟨e.1, e.2⟩
  nodupKeys := by
    rw [List.NodupKeys, List.keys, List.map_map]
    exact m.nodup_keys

theorem pairs_toMap (m : SlotMap α) : m.toMap.pairs = m.pairs := by
  simp only [toMap, Map.pairs, List.map_map, Function.comp_def, List.map_id']

theorem lookup_toMap : m.toMap.lookup key = some a ↔ (key, a) ∈ m.pairs := by
  rw [← Map.mem_pairs, pairs_toMap]

theorem pairs_append (slot : Slot α) (head : Option Nat) :
    (SlotMap.mk (m.entries ++ [slot]) head).pairs =
      m.pairs ++ (pair? (slot, m.entries.length)).toList := by
  rw [pairs, zipIdx_append, filterMap_append, zipIdx_singleton, filterMap_cons, Nat.zero_add, pairs]
  cases pair? (slot, m.entries.length) <;> rfl

theorem pairs_set {slot : Slot α} (h : m.entries[i]? = some slot) (slot' : Slot α)
    (head : Option Nat) : ∃ before after,
      m.pairs = before ++ (pair? (slot, i)).toList ++ after ∧
      (SlotMap.mk (m.entries.set i slot') head).pairs =
        before ++ (pair? (slot', i)).toList ++ after := by
  obtain ⟨hi, rfl⟩ := List.getElem?_eq_some_iff.mp h
  obtain ⟨l, r, heq, rfl, hset⟩ : ∃ l r, _ ∧ _ ∧ m.entries.set i slot' = l ++ slot' :: r :=
    exists_of_set hi
  have hspl : ∀ s : Slot α, (l ++ s :: r).zipIdx.filterMap pair? =
      l.zipIdx.filterMap pair? ++ (pair? (s, l.length)).toList ++
        (r.zipIdx (l.length + 1)).filterMap pair? := by
    intro s
    rw [zipIdx_append, filterMap_append, zipIdx_cons, filterMap_cons,
      Nat.zero_add, List.append_assoc]
    cases pair? (s, l.length) <;> rfl
  refine ⟨_, _, ?_, (congrArg (·.zipIdx.filterMap pair?) hset).trans (hspl slot')⟩
  exact (congrArg (·.zipIdx.filterMap pair?) heq).trans (hspl _)

theorem emplace_cases (h : m.emplace a = some (key, m')) :
    m.head = none ∧ key = (m.entries.length, 0) ∧ m' = ⟨m.entries ++ [⟨0, .inr a⟩], none⟩ ∨
    ∃ i gen next, m.head = some i ∧ m.entries[i]? = some ⟨gen, .inl next⟩ ∧ key = (i, gen) ∧
      m' = ⟨m.entries.set i ⟨gen, .inr a⟩, next⟩ := by
  obtain ⟨entries, head⟩ := m
  cases head with
  | none =>
    simp only [emplace, nextSlot, some_bind, List.getElem?_concat_length,
      set_append_right _ _ (Nat.le_refl _), Nat.sub_self, set_cons_zero,
      Option.some.injEq, Prod.mk.injEq] at h
    exact .inl ⟨rfl, h.1.symm, h.2.symm⟩
  | some i =>
    simp only [emplace, nextSlot] at h
    split at h
    · rename_i gen next hslot
      simp only [some_bind, hslot, Option.some.injEq, Prod.mk.injEq] at h
      exact .inr ⟨i, gen, next, rfl, hslot, h.1.symm, h.2.symm⟩
    · cases h

theorem emplace_pairs (h : m.emplace a = some (key, m')) : m'.pairs.Perm ((key, a) :: m.pairs) := by
  obtain ⟨-, rfl, rfl⟩ | ⟨i, gen, next, -, hslot, rfl, rfl⟩ := emplace_cases h
  · rw [pairs_append]
    exact perm_append_singleton _ _
  · obtain ⟨before, after, hm, hm'⟩ := pairs_set hslot ⟨gen, .inr a⟩ next
    rw [hm, hm']
    simp [pair?]

theorem remove_cases (h : m.remove key = some (a, m')) :
    m.entries[key.1]? = some ⟨key.2, .inr a⟩ ∧
      m' = ⟨m.entries.set key.1 ⟨(key.2 + 1) % 2 ^ 63, .inl m.head⟩, some key.1⟩ := by
  simp only [remove] at h
  split at h
  · rename_i gen b hslot
    split_ifs at h with hgen
    simp only [Option.some.injEq, Prod.mk.injEq] at h
    obtain ⟨rfl, rfl⟩ := h
    exact ⟨hgen ▸ hslot, by rw [hgen]⟩
  · cases h

theorem remove_pairs (h : m.remove key = some (a, m')) : m.pairs.Perm ((key, a) :: m'.pairs) := by
  obtain ⟨hslot, rfl⟩ := remove_cases h
  obtain ⟨before, after, hm, hm'⟩ :=
    pairs_set hslot ⟨(key.2 + 1) % 2 ^ 63, .inl m.head⟩ (some key.1)
  rw [hm, hm']
  simp [pair?]

theorem notMem_of_perm (h : m'.pairs.Perm ((key, a) :: m.pairs)) : key ∉ m.toMap := by
  intro hmem
  obtain ⟨b, hb⟩ := Map.exists_lookup hmem
  have hnd := ((h.map Prod.fst).nodup_iff).mp m'.nodup_keys
  exact (nodup_cons.mp hnd).1 (List.mem_map.mpr ⟨_, lookup_toMap.mp hb, rfl⟩)

theorem emplace_notMem (h : m.emplace a = some (key, m')) : key ∉ m.toMap :=
  notMem_of_perm (emplace_pairs h)

theorem remove_notMem (h : m.remove key = some (a, m')) : key ∉ m'.toMap :=
  notMem_of_perm (remove_pairs h)

end SlotMap

end Caffeine
