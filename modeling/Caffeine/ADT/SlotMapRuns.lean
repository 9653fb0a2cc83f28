import Caffeine.ADT.SlotMap
import Caffeine.Util.Slots

/-!
# Slot maps in use

Maps are filled, emptied, copied and moved. The free list visits the empty slots, keys are fresh
until a slot has gone through its generations, and lookups find what is there, except for keys with
the index of the end. Decrements of iterators look for an empty slot.
-/

namespace Caffeine

open List Option

namespace SlotMap

open Slots

variable {α : Type} {m m' : SlotMap α} {key : Key} {a : α} {i : Nat}

def isLive (slot : Slot α) : Bool := slot.content.isRight

def link (m : SlotMap α) : Nat → Option (Option Nat) := links (m.entries.map Slot.content)

/-- `at`, which throws if there is no value. -/
def at? (m : SlotMap α) (key : Key) : Option α :=
  m.entries[key.1]?.bind fun slot => if slot.gen = key.2 then slot.content.getRight? else none

/-- The index `find` returns; `none` if a slot outside of the storage is read. -/
def find (m : SlotMap α) (key : Key) : Option Nat :=
  if m.entries.length < key.1 then some m.entries.length
  else m.entries[key.1]?.map fun slot =>
    if isLive slot ∧ slot.gen = key.2 then seek isLive m.entries key.1 else m.entries.length

/-- `remove` with its bounds check. -/
def tryRemove (m : SlotMap α) (key : Key) : Option (Option (α × SlotMap α)) :=
  if m.entries.length < key.1 then some none else m.entries[key.1]?.map fun _ => m.remove key

def iterate (m : SlotMap α) : List (Key × α) :=
  (visit isLive m.entries m.entries.length (seek isLive m.entries 0)).filterMap pair?

def decrement (m : SlotMap α) : Nat → Option Nat
  | 0 => none
  | index + 1 =>
    match m.entries[index]? with
    | none => none
    | some slot => if isLive slot then m.decrement index else some index

theorem iterate_eq (m : SlotMap α) : m.iterate = m.pairs := by
  rw [iterate, seek, visit_skip isLive m.entries _ _ 0 (Nat.le_refl _) (Nat.sub_le _ _), inUseFrom,
    drop_zero, filterMap_filter, pairs]
  refine filterMap_congr fun p _ => ?_
  obtain ⟨⟨gen, next | a⟩, i⟩ := p <;> rfl

theorem at?_eq_some : m.at? key = some a ↔ m.entries[key.1]? = some ⟨key.2, .inr a⟩ := by
  rw [at?, bind_eq_some_iff]
  constructor
  · rintro ⟨⟨gen, content⟩, hslot, h⟩
    split_ifs at h with hgen
    obtain rfl := Sum.getRight?_eq_some_iff.mp h
    rw [hslot, ← hgen]
  · exact fun h => ⟨_, h, if_pos rfl⟩

theorem at?_eq_lookup (m : SlotMap α) (key : Key) : m.at? key = m.toMap.lookup key := by
  ext a
  rw [at?_eq_some, lookup_toMap, pairs, mem_filterMap]
  constructor
  · exact fun h => ⟨(_, key.1), mk_mem_zipIdx_iff_getElem?.mpr h, rfl⟩
  · rintro ⟨⟨⟨gen, content⟩, i⟩, hmem, h⟩
    obtain ⟨b, hb, heq⟩ := map_eq_some_iff.mp h
    cases heq
    rw [← Sum.getRight?_eq_some_iff.mp hb]
    exact mk_mem_zipIdx_iff_getElem?.mp hmem

theorem at?_of_perm (h : m'.pairs.Perm ((key, a) :: m.pairs)) :
    m.at? key = none ∧ ∀ k, m'.at? k = if k = key then some a else m.at? k := by
  have hnone : m.at? key = none := by
    rw [at?_eq_lookup]
    exact AList.lookup_eq_none.mpr (notMem_of_perm h)
  refine ⟨hnone, fun k => Option.ext fun b => ?_⟩
  rw [at?_eq_lookup, lookup_toMap, h.mem_iff, mem_cons, ← lookup_toMap, ← at?_eq_lookup,
    Prod.mk.injEq]
  split_ifs with hk
  · simp [hk, hnone, eq_comm]
  · simp [hk]

theorem exists_emplace (h : Tracks m.link m.head) (a : α) : ∃ r, m.emplace a = some r := by
  obtain ⟨entries, head⟩ := m
  cases head with
  | none => simp [emplace, nextSlot]
  | some i =>
    obtain ⟨next, hnext, -⟩ := h.pop
    obtain ⟨content, hcont, hleft⟩ := bind_eq_some_iff.mp hnext
    rw [List.getElem?_map] at hcont
    obtain ⟨⟨gen, _⟩, hslot, rfl⟩ := map_eq_some_iff.mp hcont
    obtain rfl := Sum.getLeft?_eq_some_iff.mp hleft
    simp [emplace, nextSlot, hslot]

theorem link_set {slot : Slot α} (h : m.entries[i]? = some slot) (slot' : Slot α)
    (head : Option Nat) : (SlotMap.mk (m.entries.set i slot') head).link =
      Function.update m.link i slot'.content.getLeft? := by
  have hi : i < (m.entries.map Slot.content).length := by
    rw [length_map]
    exact (List.getElem?_eq_some_iff.mp h).1
  rw [link, map_set, links_set hi, link]

theorem emplace_tracks (h : m.emplace a = some (key, m')) (hm : Tracks m.link m.head) :
    Tracks m'.link m'.head := by
  obtain ⟨hhead, -, rfl⟩ | ⟨i, gen, next, hhead, hslot, -, rfl⟩ := emplace_cases h
  · rw [hhead] at hm
    rwa [link, map_append, map_singleton, links_append]
  · rw [hhead] at hm
    obtain ⟨next', hnext, htracks⟩ := hm.pop
    rw [link, links, List.getElem?_map, hslot] at hnext
    obtain rfl : next = next' := some.inj hnext
    rwa [link_set hslot]

theorem remove_tracks (h : m.remove key = some (a, m')) (hm : Tracks m.link m.head) :
    Tracks m'.link m'.head := by
  obtain ⟨hslot, rfl⟩ := remove_cases h
  rw [link_set hslot]
  refine hm.push ?_
  rw [link, links, List.getElem?_map, hslot]
  rfl

/-- The entries are copied one by one. -/
def copy (m : SlotMap α) : SlotMap α where
  entries := m.entries.map fun slot =>
    match slot.content with
    | .inl next => ⟨slot.gen, .inl next⟩
    | .inr a => ⟨slot.gen, .inr a⟩
  head := m.head

/-- The map that is moved to, and what is left of the other one. -/
def move (m : SlotMap α) : SlotMap α × SlotMap α := (m, ∅)

theorem copy_eq (m : SlotMap α) : m.copy = m := by
  rw [copy, map_congr_left (g := id) fun slot _ => ?_, List.map_id]
  obtain ⟨gen, next | a⟩ := slot <;> rfl

/-- The maps that arise if `remove` is called for keys with `C` only, the keys returned for their
contents, and those not removed since. -/
inductive Reachable (C : Key → Prop) : SlotMap α → List Key → List Key → Prop
  | new : Reachable C ∅ [] []
  | emplace {m issued held a key m'} : Reachable C m issued held → m.emplace a = some (key, m') →
    Reachable C m' (key :: issued) (key :: held)
  | remove {m issued held key a m'} : Reachable C m issued held → C key →
    m.remove key = some (a, m') → Reachable C m' issued (held.filter (· ≠ key))
  | copy {m issued held} : Reachable C m issued held → Reachable C m.copy issued held
  | moved {m issued held} : Reachable C m issued held → Reachable C m.move.1 issued held

variable {C : Key → Prop} {issued held : List Key}

theorem Reachable.tracks (h : Reachable C m issued held) : Tracks m.link m.head := by
  induction h with
  | new => exact tracks_none
  | emplace _ hem ih => exact emplace_tracks hem ih
  | remove _ _ hrem ih => exact remove_tracks hrem ih
  | copy _ ih => rwa [copy_eq]
  | moved _ ih => exact ih

theorem Reachable.mem_held (h : Reachable C m issued held) : key ∈ held ↔ (m.at? key).isSome := by
  induction h with
  | new => simp [show (∅ : SlotMap α).at? key = none from rfl]
  | emplace _ hem ih =>
    rw [mem_cons, ih, (at?_of_perm (emplace_pairs hem)).2]
    split_ifs with hk <;> simp [hk]
  | remove _ _ hrem ih =>
    obtain ⟨hnone, hat⟩ := at?_of_perm (remove_pairs hrem)
    rw [mem_filter, ih, hat]
    split_ifs with hk <;> simp [hk, hnone]
  | copy _ ih => rwa [copy_eq]
  | moved _ ih => exact ih

/-- The keys of a slot are of earlier generations, or of the present one if it holds a value. -/
def Earlier (entries : List (Slot α)) (keys : List Key) : Prop :=
  ∀ key ∈ keys, ∃ slot, entries[key.1]? = some slot ∧
    (key.2 < slot.gen ∨ key.2 = slot.gen ∧ isLive slot)

variable {keys : List Key}

theorem Earlier.set {entries : List (Slot α)} (hk : Earlier entries keys) {slot slot' : Slot α}
    (h : entries[i]? = some slot)
    (hslot : slot.gen < slot'.gen ∨ slot.gen = slot'.gen ∧ isLive slot') :
    Earlier (entries.set i slot') keys := by
  intro key hkey
  obtain ⟨old, hold, hgen⟩ := hk key hkey
  by_cases heq : i = key.1
  · subst heq
    obtain rfl : slot = old := some.inj (h.symm.trans hold)
    refine ⟨slot', List.getElem?_set_self (List.getElem?_eq_some_iff.mp h).1, ?_⟩
    rcases hgen with hlt | ⟨heq, -⟩
    · exact .inl (hslot.elim (Nat.lt_trans hlt) fun h => h.1 ▸ hlt)
    · rwa [heq]
  · exact ⟨old, by rw [List.getElem?_set_ne heq, hold], hgen⟩

theorem emplace_earlier (h : m.emplace a = some (key, m')) (hk : Earlier m.entries keys) :
    key ∉ keys ∧ Earlier m'.entries (key :: keys) := by
  obtain ⟨-, rfl, rfl⟩ | ⟨i, gen, next, -, hslot, rfl, rfl⟩ := emplace_cases h
  · refine ⟨fun hmem => ?_, forall_mem_cons.mpr
      ⟨⟨_, List.getElem?_concat_length, .inr ⟨rfl, rfl⟩⟩, fun key hkey => ?_⟩⟩
    · obtain ⟨slot, hslot, -⟩ := hk _ hmem
      exact absurd (List.getElem?_eq_some_iff.mp hslot).1 (Nat.lt_irrefl _)
    · obtain ⟨slot, hslot, hgen⟩ := hk key hkey
      exact ⟨slot, (List.getElem?_append_left (List.getElem?_eq_some_iff.mp hslot).1).trans hslot,
        hgen⟩
  · have hi := (List.getElem?_eq_some_iff.mp hslot).1
    refine ⟨fun hmem => ?_, forall_mem_cons.mpr
      ⟨⟨_, List.getElem?_set_self hi, .inr ⟨rfl, rfl⟩⟩, hk.set hslot (.inr ⟨rfl, rfl⟩)⟩⟩
    obtain ⟨slot, hslot', hgen⟩ := hk _ hmem
    obtain rfl := some.inj (hslot.symm.trans hslot')
    exact hgen.elim (Nat.lt_irrefl _) fun h => nomatch h.2

theorem remove_earlier (h : m.remove key = some (a, m')) (hgen : key.2 + 1 < 2 ^ 63)
    (hk : Earlier m.entries keys) : Earlier m'.entries keys := by
  obtain ⟨hslot, rfl⟩ := remove_cases h
  refine hk.set hslot (.inl ?_)
  rw [Nat.mod_eq_of_lt hgen]
  exact Nat.lt_succ_self _

theorem Reachable.earlier (h : Reachable C m issued held) (hC : ∀ key, C key → key.2 + 1 < 2 ^ 63) :
    Earlier m.entries issued := by
  induction h with
  | new => exact nofun
  | emplace _ hem ih => exact (emplace_earlier hem ih).2
  | remove _ hkey hrem ih => exact remove_earlier hrem (hC _ hkey) ih
  | copy _ ih => rwa [copy_eq]
  | moved _ ih => exact ih

/-- The free list visits every empty slot once; `emplace` returns a new key as long as no slot is
emptied in its last generation; `emplace` and `remove` keep other keys; iterations follow the
slots. -/
theorem slots_consistent (C : Key → Prop) (m : SlotMap α) (issued held : List Key)
    (h : Reachable C m issued held) :
    Tracks m.link m.head ∧
    (∀ a, ∃ key m', m.emplace a = some (key, m') ∧
      (∀ k, m'.at? k = if k = key then some a else m.at? k) ∧
      ((∀ key, C key → key.2 + 1 < 2 ^ 63) → key ∉ issued)) ∧
    (∀ key a m', m.remove key = some (a, m') → ∀ k, m'.at? k = if k = key then none else m.at? k) ∧
    m.iterate = m.pairs := by
  refine ⟨h.tracks, fun a => ?_, fun key a m' hrem k => ?_, iterate_eq _⟩
  · obtain ⟨⟨key, m'⟩, hem⟩ := exists_emplace h.tracks a
    exact ⟨key, m', hem, (at?_of_perm (emplace_pairs hem)).2,
      fun hC => (emplace_earlier hem (h.earlier hC)).1⟩
  · obtain ⟨hnone, hat⟩ := at?_of_perm (remove_pairs hrem)
    rw [hat]
    split_ifs with hk
    · rw [hk, hnone]
    · rfl

theorem reachable_sample : Reachable (fun key => key.2 = 0)
    (⟨[⟨1, .inl none⟩, ⟨0, .inr 7⟩], some 0⟩ : SlotMap Nat) [(1, 0), (0, 0)] [(1, 0)] :=
  .remove (C := fun key => key.2 = 0) (.emplace (.emplace .new (a := 5) rfl) (a := 7) rfl) rfl
    (show SlotMap.remove _ (0, 0) = some (5, _) from rfl)

theorem slots_consistent_reused : ∃ key m',
    (⟨[⟨1, .inl none⟩, ⟨0, .inr 7⟩], some 0⟩ : SlotMap Nat).emplace 9 = some (key, m') ∧
      key ∉ [(1, 0), (0, 0)] := by
  obtain ⟨-, hemplace, -⟩ := slots_consistent _ _ _ _ reachable_sample
  obtain ⟨key, m', hem, -, hfr⟩ := hemplace 9
  exact ⟨key, m', hem, hfr fun key hkey => by rw [hkey]; decide⟩

/-- A map that was moved from starts again with the keys it has returned before. -/
theorem moved_from_reuses : ∃ key m m', (∅ : SlotMap Nat).emplace 5 = some (key, m) ∧
    m.move.2.emplace 7 = some (key, m') := ⟨_, _, _, rfl, rfl⟩

/-- Lookups stay inside of the storage and find exactly the live keys unless the index of the key is
the number of slots. For `at` this holds of all keys. -/
theorem lookups_iff (m : SlotMap α) (issued held : List Key)
    (h : Reachable (fun _ => True) m issued held) (key : Key) : ((m.at? key).isSome ↔ key ∈ held) ∧
    ((m.find key).isSome ∧ (m.tryRemove key).isSome ∧
      ((m.find key).any (· < m.entries.length) ↔ key ∈ held) ∧
      ((m.tryRemove key).any Option.isSome ↔ key ∈ held) ↔ key.1 ≠ m.entries.length) := by
  refine ⟨h.mem_held.symm, ?_⟩
  rw [h.mem_held]
  cases hat : m.at? key with
  | some b =>
    have hslot := at?_eq_some.mp hat
    obtain ⟨hlt, -⟩ := List.getElem?_eq_some_iff.mp hslot
    have hfind : m.find key = some key.1 := by
      rw [find, if_neg (Nat.lt_asymm hlt), hslot, map_some, if_pos ⟨rfl, rfl⟩,
        seek_of_live _ _ hslot rfl]
    obtain ⟨m', hremove⟩ : ∃ m', m.tryRemove key = some (some (b, m')) := by
      rw [tryRemove, if_neg (Nat.lt_asymm hlt), hslot, map_some, remove, hslot]
      exact ⟨_, congrArg some (if_pos rfl)⟩
    simp [hfind, hremove, hlt, Nat.ne_of_lt hlt]
  | none =>
    have hremove : m.remove key = none := eq_none_iff_forall_ne_some.mpr fun r hr =>
      by cases hat.symm.trans (at?_eq_some.mpr (remove_cases hr).1)
    rcases Nat.lt_trichotomy key.1 m.entries.length with hlt | heq | hgt
    · obtain ⟨slot, hslot⟩ : ∃ slot, m.entries[key.1]? = some slot :=
        ⟨_, List.getElem?_eq_getElem hlt⟩
      have hfind : m.find key = some m.entries.length := by
        rw [find, if_neg (Nat.lt_asymm hlt), hslot, map_some, if_neg]
        rintro ⟨hlive, hgen⟩
        obtain ⟨b, hb⟩ := Sum.isRight_iff.mp hlive
        cases hat.symm.trans (at?_eq_some.mpr (hslot.trans (by rw [← hgen, ← hb])))
      simp [hfind, tryRemove, hremove, hslot, Nat.lt_asymm hlt, Nat.ne_of_lt hlt]
    · simp [find, heq]
    · simp [find, tryRemove, hgt, Nat.ne_of_gt hgt]

theorem lookups_stale :
    ((⟨[⟨0, .inr 5⟩], none⟩ : SlotMap Nat).tryRemove (0, 3)).any Option.isSome = false := by
  have h : Reachable (fun _ => True) (⟨[⟨0, .inr 5⟩], none⟩ : SlotMap Nat) [(0, 0)] [(0, 0)] :=
    .emplace .new rfl
  simpa using ((lookups_iff _ _ _ h (0, 3)).2.mpr (by decide)).2.2.2

/-- Nothing has been emplaced, and `find` reads the first slot. -/
theorem find_end_outside : Reachable (fun _ => True) (∅ : SlotMap Nat) [] [] ∧
    (∅ : SlotMap Nat).find (0, 0) = none := ⟨.new, rfl⟩

theorem decrement_empty {j : Nat} (h : m.decrement i = some j) :
    ∃ slot, m.entries[j]? = some slot ∧ isLive slot = false := by
  induction i with
  | zero => cases h
  | succ i ih =>
    rw [decrement] at h
    split at h
    · cases h
    · rename_i slot hslot
      split_ifs at h with hlive
      · exact ih h
      · cases h
        exact ⟨slot, hslot, by simpa using hlive⟩

def previous (m : SlotMap α) (i : Nat) : Option (Key × α) :=
  (m.pairs.filter fun e => e.1.1 < i).getLast?

/-- A decrement yields the previous live value and is undone by an increment only in an empty
map. -/
theorem decrement_iff (m : SlotMap α) :
    (∀ i, i = m.entries.length ∨ (∃ e ∈ m.pairs, e.1.1 = i) → ∀ e, m.previous i = some e →
      m.decrement i = some e.1.1 ∧ seek isLive m.entries (e.1.1 + 1) = i) ↔ m.pairs = [] := by
  constructor
  · intro h
    by_contra hne
    have hall : m.pairs.filter (fun e => e.1.1 < m.entries.length) = m.pairs := by
      refine filter_eq_self.mpr fun e he => ?_
      rw [← lookup_toMap, ← at?_eq_lookup, at?_eq_some] at he
      exact decide_eq_true (List.getElem?_eq_some_iff.mp he).1
    have hlast := List.getLast?_eq_getLast_of_ne_nil hne
    obtain ⟨slot, hslot, hdead⟩ := decrement_empty
      (h _ (.inl rfl) (m.pairs.getLast hne) (by rw [previous, hall, hlast])).1
    have hmem := getLast_mem hne
    rw [← lookup_toMap, ← at?_eq_lookup, at?_eq_some, hslot] at hmem
    rw [some.inj hmem] at hdead
    cases hdead
  · intro h i _ e he
    rw [previous, h] at he
    cases he

/-- With two values, the decrement of the end leaves the storage. -/
theorem decrement_leaves : ∃ (m : SlotMap Nat) (keys : List Key),
    Reachable (fun _ => True) m keys keys ∧ m.previous m.entries.length = some ((1, 0), 7) ∧
    m.decrement m.entries.length = none :=
  ⟨⟨[⟨0, .inr 5⟩, ⟨0, .inr 7⟩], none⟩, _, .emplace (.emplace .new rfl) rfl, rfl, rfl⟩

end SlotMap

end Caffeine
