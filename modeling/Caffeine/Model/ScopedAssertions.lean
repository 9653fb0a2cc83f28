import Caffeine.Model.Formulas

/-!
# Lists of assertions with checkpoints

A checkpoint of an `AssertionList` is the index of the end of its slots; `restore` erases what is
there from it on. Erased slots stay as holes. The list refines a pair of lists, the assertions
proven and not proven, on which a scope removes nothing but what was erased in it.
-/

namespace Caffeine

open List

namespace SparseVector

variable {α : Type*} {v : SparseVector α} {i j : Nat} {a : α}

theorem valuesBefore_pushBack (h : i ≤ v.backingSize) :
    (v.pushBack a).valuesBefore i = v.valuesBefore i := by
  rw [valuesBefore, valuesBefore, pushBack, take_append_of_le_length h]

theorem valuesBefore_of_le (h : v.backingSize ≤ i) : v.valuesBefore i = v.live := by
  rw [valuesBefore, take_of_length_le h, live]

theorem valuesBefore_compress (v : SparseVector α) :
    v.compress.valuesBefore v.compress.size = v.live := by
  rw [← live_compress v]
  refine valuesBefore_of_le ?_
  unfold compress
  split_ifs with h
  · exact h.ge
  · simp [backingSize]

theorem valuesBefore_erase_of_le (h : i ≤ j) : (v.erase j).valuesBefore i = v.valuesBefore i := by
  rw [valuesBefore, valuesBefore, erase, take_set_of_le h]

theorem valuesBefore_sublist (h : i ≤ j) : (v.valuesBefore i).Sublist (v.valuesBefore j) :=
  (take_sublist_take_left h).filterMap _

theorem get?_erase_self : (v.erase j).get? j = none := by
  rw [get?, erase]
  by_cases hj : j < v.elements.length
  · rw [List.getElem?_set_self hj]
    rfl
  · rw [List.getElem?_eq_none (by simpa using hj)]
    rfl

theorem valuesFrom_eq_nil (h : ∀ j, i ≤ j → j < v.backingSize → v.get? j = none) :
    v.valuesFrom i = [] := by
  refine filterMap_eq_nil_iff.mpr fun x hx => ?_
  obtain ⟨k, hk, rfl⟩ := mem_iff_getElem.mp hx
  rw [length_drop] at hk
  have hget := h (i + k) (Nat.le_add_right i k) (Nat.add_lt_of_lt_sub' hk)
  rw [get?, List.getElem?_eq_getElem (Nat.add_lt_of_lt_sub' hk)] at hget
  rw [getElem_drop]
  exact hget

section Nodup

variable [DecidableEq α] (hnodup : v.live.Nodup) (h : v.get? j = some a)

include hnodup h

theorem live_erase_eq_filter : (v.erase j).live = v.live.filter (· ≠ a) := by
  rw [live_eq_of_get? h] at hnodup
  obtain ⟨hmid, -⟩ := nodup_cons.mp (perm_middle.nodup_iff.mp hnodup)
  rw [mem_append, not_or] at hmid
  have hkeep : ∀ l : List α, a ∉ l → l.filter (· ≠ a) = l := fun l hl =>
    filter_eq_self.mpr fun b hb => decide_eq_true fun heq => hl (heq ▸ hb)
  rw [live_erase h, live_eq_of_get? h, filter_append, filter_cons_of_neg (by simp),
    hkeep _ hmid.1, hkeep _ hmid.2]

theorem valuesBefore_erase (i : Nat) :
    (v.erase j).valuesBefore i = (v.valuesBefore i).filter (· ≠ a) := by
  rcases Nat.lt_or_ge j i with hlt | hle
  · -- the slots before `i` are a vector of their own
    let u : SparseVector α := ⟨v.elements.take i, v.size, v.head⟩
    have hsub : u.live.Sublist v.live := (take_sublist i v.elements).filterMap _
    have hget : u.get? j = some a := by
      rw [get?_eq_some] at h ⊢
      rw [List.getElem?_take_of_lt hlt, h]
    have herase : (v.erase j).valuesBefore i = (u.erase j).live := by
      rw [valuesBefore, erase, take_set]
      rfl
    rw [herase, live_erase_eq_filter (hnodup.sublist hsub) hget]
    rfl
  · rw [valuesBefore_erase_of_le hle]
    rw [live_eq_of_get? h] at hnodup
    have hne : ∀ b ∈ v.valuesBefore i, b ≠ a := fun b hb =>
      (nodup_append.mp hnodup).2.2 b ((valuesBefore_sublist hle).subset hb) a
        mem_cons_self
    exact (filter_eq_self.mpr fun b hb => decide_eq_true (hne b hb)).symm

end Nodup

end SparseVector

/-- What an `AssertionList` is for: the assertions that were proven and those added since. -/
structure Conjunction where
  proven : List Assertion
  unproven : List Assertion

variable {s : Conjunction} {atoms : Operation → Prop}

namespace Conjunction

def live (s : Conjunction) : List Assertion := s.proven ++ s.unproven

def add (s : Conjunction) (a : Assertion) : Conjunction :=
  if a ∈ s.live then s else { s with unproven := s.unproven ++ [a] }

def without (s : Conjunction) (erased : List Assertion) : Conjunction where
  proven := s.proven.filter (· ∉ erased)
  unproven := s.unproven.filter (· ∉ erased)

theorem without_of_disjoint {erased : List Assertion} (h : ∀ a ∈ erased, a ∉ s.live) :
    s.without erased = s := by
  have hkeep : ∀ as : List Assertion, (∀ a ∈ as, a ∈ s.live) →
      as.filter (· ∉ erased) = as := fun as has =>
    filter_eq_self.mpr fun a ha => decide_eq_true fun hmem => h a hmem (has a ha)
  rw [without, hkeep _ fun a ha => mem_append_left _ ha, hkeep _ fun a ha => mem_append_right _ ha]

def Holds (atoms : Operation → Prop) (as : List Assertion) : Prop :=
  ∀ a ∈ as, a.value.truth atoms

theorem holds_append {as bs : List Assertion} :
    Holds atoms (as ++ bs) ↔ Holds atoms as ∧ Holds atoms bs :=
  forall_mem_append

theorem holds_singleton {a : Assertion} : Holds atoms [a] ↔ a.value.truth atoms :=
  forall_mem_singleton

theorem holds_add {a : Assertion} :
    Holds atoms (s.add a).live ↔ Holds atoms s.live ∧ a.value.truth atoms := by
  unfold add
  split_ifs with h
  · exact ⟨fun hs => ⟨hs, hs a h⟩, And.left⟩
  · rw [live, ← List.append_assoc, holds_append, holds_singleton]
    rfl

theorem holds_foldl_add {as : List Assertion} :
    Holds atoms (as.foldl add s).live ↔ Holds atoms s.live ∧ Holds atoms as := by
  induction as generalizing s with
  | nil => simp [Holds]
  | cons a as ih =>
    rw [foldl_cons, ih, holds_add, and_assoc, ← holds_singleton, ← holds_append]
    rfl

end Conjunction

namespace AssertionList

open Operation

variable {l l' l'' : AssertionList} {a : Assertion} {erased erased' : List Assertion}

def checkpoint (l : AssertionList) : Nat := l.list.backingSize

/-- Erases the assertion in a slot, unless the slot is a hole. -/
def eraseSlot (l : AssertionList) (i : Nat) : Option AssertionList :=
  if (l.list.get? i).isSome then l.erase i else some l

/-- The loop over the slots from a checkpoint on. A checkpoint beyond the end is rejected. -/
def restore (l : AssertionList) (checkpoint : Nat) : Option AssertionList :=
  if checkpoint ≤ l.list.backingSize then
    (List.range' checkpoint (l.list.backingSize - checkpoint)).foldlM eraseSlot l
  else none

def conjunction (l : AssertionList) : Conjunction := ⟨l.proven, l.unproven⟩

theorem conjunction_live (l : AssertionList) : l.conjunction.live = l.live := l.live_eq.symm

/-! ### What operations keep of the slots -/

structure Kept (l l' : AssertionList) (erased : List Assertion) : Prop where
  mark : l'.mark = l.mark
  size : l.list.backingSize ≤ l'.list.backingSize
  before : ∀ i ≤ l.list.backingSize,
    l'.list.valuesBefore i = (l.list.valuesBefore i).filter (· ∉ erased)

theorem Kept.refl (l : AssertionList) : Kept l l [] where
  mark := rfl
  size := le_rfl
  before i _ := by simp

theorem Kept.trans (h : Kept l l' erased) (h' : Kept l' l'' erased') :
    Kept l l'' (erased ++ erased') where
  mark := h'.mark.trans h.mark
  size := h.size.trans h'.size
  before i hi := by
    rw [h'.before i (hi.trans h.size), h.before i hi, List.filter_filter]
    refine filter_congr fun b _ => ?_
    simp [Bool.and_comm]

theorem Kept.proven (h : Kept l l' erased) : l'.proven = l.proven.filter (· ∉ erased) := by
  rw [AssertionList.proven, h.mark, h.before _ l.mark_le, AssertionList.proven]

theorem Kept.insertPart (l : AssertionList) (a : Assertion) : Kept l (l.insertPart a) [] := by
  unfold AssertionList.insertPart
  split_ifs with h
  · exact .refl l
  · refine ⟨rfl, by simp [SparseVector.backingSize, SparseVector.pushBack], fun i hi => ?_⟩
    simp [SparseVector.valuesBefore_pushBack hi]

variable {i : Nat}

theorem erase_kept (h : l.list.get? i = some a) :
    ∃ l', l.erase i = some l' ∧ l'.list = l.list.erase i ∧ l'.mark = l.mark ∧ Kept l l' [a] := by
  unfold AssertionList.erase
  split
  · rename_i hnone
    cases hnone.symm.trans h
  · rename_i b hb
    cases hb.symm.trans h
    refine ⟨_, rfl, rfl, rfl, rfl, by simp, fun j _ => ?_⟩
    simpa using SparseVector.valuesBefore_erase l.nodup h j

structure Emptied (l : AssertionList) (checkpoint : Nat) (done : List Nat) (l' : AssertionList) :
    Prop where
  mark : l'.mark = l.mark
  size : l'.list.backingSize = l.list.backingSize
  before : ∀ i ≤ checkpoint, l'.list.valuesBefore i = l.list.valuesBefore i
  holes : ∀ i ∈ done, l'.list.get? i = none

theorem Emptied.eraseSlot {c : Nat} {done : List Nat} (h : Emptied l c done l') (hi : c ≤ i) :
    ∃ l'', l'.eraseSlot i = some l'' ∧ Emptied l c (done ++ [i]) l'' := by
  rw [AssertionList.eraseSlot]
  cases hget : l'.list.get? i with
  | none =>
    refine ⟨l', rfl, h.mark, h.size, h.before, fun j hj => ?_⟩
    rcases mem_append.mp hj with hj | hj
    · exact h.holes j hj
    · rwa [mem_singleton.mp hj]
  | some a =>
    obtain ⟨next, hnext, hlist, hmark, -⟩ := erase_kept hget
    refine ⟨next, hnext, hmark.trans h.mark, ?_, fun j hj => ?_, fun j hj => ?_⟩
    · rw [hlist, SparseVector.backingSize_erase, h.size]
    · rw [hlist, SparseVector.valuesBefore_erase_of_le (hj.trans hi), h.before j hj]
    · rw [hlist]
      by_cases hji : j = i
      · rw [hji, SparseVector.get?_erase_self]
      · rw [SparseVector.get?_erase_of_ne hji]
        exact h.holes j ((mem_append.mp hj).resolve_right fun hm =>
          hji (mem_singleton.mp hm))

theorem restore_spec {c : Nat} (hc : c ≤ l.list.backingSize) :
    ∃ l', l.restore c = some l' ∧ Emptied l c [] l' ∧ l'.live = l.list.valuesBefore c := by
  have hstart : Emptied l c [] l :=
    ⟨rfl, rfl, fun _ _ => rfl, fun _ hm => absurd hm not_mem_nil⟩
  rw [restore, if_pos hc]
  obtain ⟨l', hrun, hemp⟩ := foldlM_exists_done (Emptied l c)
    (fun done i rest t hl ht => ht.eraseSlot (mem_range'_1.mp
      (hl ▸ mem_append_right done mem_cons_self : i ∈ List.range' c _)).1) hstart
  refine ⟨l', hrun, ⟨hemp.mark, hemp.size, hemp.before, by simp⟩, ?_⟩
  have hnone : l'.list.valuesFrom c = [] := by
    refine SparseVector.valuesFrom_eq_nil fun j hj hlt => hemp.holes j ?_
    rw [hemp.size] at hlt
    exact mem_range'_1.mpr ⟨hj, by omega⟩
  rw [← hemp.before c le_rfl, AssertionList.live,
    ← SparseVector.valuesBefore_append_valuesFrom l'.list c, hnone, append_nil]

/-! ### Refinement -/

theorem unproven_eq (us : List Assertion) (h : l'.live = l'.proven ++ us) : l'.unproven = us :=
  append_cancel_left (l'.live_eq.symm.trans h)

theorem Kept.conjunction (h : Kept l l' erased) (hlive : l'.live = l.live.filter (· ∉ erased)) :
    l'.conjunction = l.conjunction.without erased := by
  have hunproven : l'.unproven = l.unproven.filter (· ∉ erased) :=
    unproven_eq _ (by rw [hlive, h.proven, l.live_eq, filter_append])
  rw [AssertionList.conjunction, h.proven, hunproven]
  rfl

theorem conjunction_insertPart (l : AssertionList) (a : Assertion) :
    (l.insertPart a).conjunction = l.conjunction.add a := by
  have hproven : (l.insertPart a).proven = l.proven := by
    rw [(Kept.insertPart l a).proven]
    simp
  have hmem : a ∈ l.conjunction.live ↔ a ∈ l.lookup := by
    rw [conjunction_live, l.mem_lookup, AssertionList.live]
  unfold Conjunction.add
  by_cases ha : a ∈ l.lookup
  · rw [if_pos (hmem.mpr ha), insertPart, dif_pos ha]
  · rw [if_neg (hmem.not.mpr ha), AssertionList.conjunction, hproven, unproven_eq
      (l.unproven ++ [a])]
    · rfl
    · rw [hproven, ← List.append_assoc, ← l.live_eq, insertPart, dif_neg ha]
      exact SparseVector.live_pushBack

theorem insertParts_refines (as : List Assertion) (l : AssertionList) :
    (as.foldl insertPart l).conjunction = as.foldl Conjunction.add l.conjunction ∧
      Kept l (as.foldl insertPart l) [] := by
  induction as generalizing l with
  | nil => exact ⟨rfl, .refl l⟩
  | cons a as ih =>
    obtain ⟨hconj, hkept⟩ := ih (l.insertPart a)
    refine ⟨?_, (Kept.insertPart l a).trans hkept⟩
    rw [foldl_cons, foldl_cons, hconj, conjunction_insertPart]

theorem foldlM_insertPart (parts : List Operation) (hpts : ∀ p ∈ parts, p.type = .bool)
    (l : AssertionList) : ∃ as : List Assertion, as.map Assertion.value = parts ∧
      parts.foldlM (fun l part => do some (l.insertPart (← Assertion.ofValue part))) l =
        some (as.foldl insertPart l) := by
  induction parts generalizing l with
  | nil => exact ⟨[], rfl, rfl⟩
  | cons p parts ih =>
    obtain ⟨hp, hpts⟩ := forall_mem_cons.mp hpts
    obtain ⟨as, rfl, hrun⟩ := ih hpts (l.insertPart ⟨p, hp⟩)
    refine ⟨⟨p, hp⟩ :: as, rfl, ?_⟩
    have hval : Assertion.ofValue p = some ⟨p, hp⟩ := Assertion.ofValue_eq_some.mpr rfl
    simp only [foldlM_cons, hval, some_bind]
    exact hrun

def Represents (as parts : List Assertion) : Prop :=
  ∀ atoms, Conjunction.Holds atoms parts ↔ Conjunction.Holds atoms as

variable (cache : OperationCache)

theorem insert_refines (l : AssertionList) (ha : Formula a.value) :
    ∃ parts, Represents [a] parts ∧ l.insert cache a = some (parts.foldl insertPart l) := by
  obtain ⟨parts, hrun, hpts⟩ := decompose_formula cache (2 * connectives a.value + 2) [a.value]
    (forall_mem_singleton.mpr ha) (by simp [work])
  rw [AssertionList.insert, hrun, some_bind]
  by_cases hconst : a.isConstantValue true = true
  · refine ⟨[], fun atoms => ?_, if_pos hconst⟩
    have htruth : a.value.truth atoms := by
      obtain ⟨⟨d, ops⟩, htype⟩ := a
      simp only [Assertion.isConstantValue, data_mk] at hconst
      split at hconst
      · rw [truth]
        exact hconst
      · cases hconst
    rw [Conjunction.holds_singleton]
    exact iff_of_true (fun _ hmem => absurd hmem not_mem_nil) htruth
  · obtain ⟨as, rfl, hfold⟩ := foldlM_insertPart parts (fun p hp => (hpts.formula p hp).type_eq) l
    refine ⟨as, fun atoms => ?_, (if_neg hconst).trans hfold⟩
    have hiff := hpts.truth atoms
    rw [List.forall_mem_map, forall_mem_singleton] at hiff
    rw [Conjunction.holds_singleton]
    exact hiff

theorem insertAll_refines (as : List Assertion) (has : ∀ a ∈ as, Formula a.value)
    (l : AssertionList) :
    ∃ parts, Represents as parts ∧ l.insertAll cache as = some (parts.foldl insertPart l) := by
  induction as generalizing l with
  | nil => exact ⟨[], fun _ => Iff.rfl, rfl⟩
  | cons a as ih =>
    obtain ⟨ha, has⟩ := forall_mem_cons.mp has
    obtain ⟨parts, hpts, hrun⟩ := insert_refines cache l ha
    obtain ⟨parts', hpts', hrun'⟩ := ih has (parts.foldl insertPart l)
    refine ⟨parts ++ parts', fun atoms => ?_, ?_⟩
    · rw [Conjunction.holds_append, hpts atoms, hpts' atoms, ← Conjunction.holds_append]
      rfl
    · rw [foldl_append, ← hrun', insertAll, foldlM_cons, hrun]
      rfl

theorem conjunction_markSat (l : AssertionList) : l.markSat.conjunction = ⟨l.live, []⟩ := by
  have hproven : l.markSat.proven = l.live := SparseVector.valuesBefore_compress l.list
  have hlive : l.markSat.live = l.live := SparseVector.live_compress l.list
  rw [AssertionList.conjunction, hproven, unproven_eq []]
  rw [hlive, hproven, append_nil]

theorem erase_refines (h : l.list.get? i = some a) : ∃ l', l.erase i = some l' ∧ Kept l l' [a] ∧
      l'.conjunction = l.conjunction.without [a] ∧ l'.list.get? i = none := by
  obtain ⟨l', herase, hlist, -, hkept⟩ := erase_kept h
  refine ⟨l', herase, hkept, hkept.conjunction ?_, hlist ▸ SparseVector.get?_erase_self⟩
  rw [AssertionList.live, hlist, SparseVector.live_erase_eq_filter l.nodup h]
  simp [AssertionList.live]

theorem Kept.restore (h : Kept l l' erased) :
    ∃ l'', l'.restore l.checkpoint = some l'' ∧ Kept l l'' erased ∧
      l''.conjunction = l.conjunction.without erased := by
  obtain ⟨l'', hrun, hemp, hlive⟩ := restore_spec h.size
  have hkept : Kept l l'' erased := by
    refine ⟨hemp.mark.trans h.mark, hemp.size ▸ h.size, fun i hi => ?_⟩
    rw [hemp.before i hi, h.before i hi]
  refine ⟨l'', hrun, hkept, hkept.conjunction ?_⟩
  rw [hlive, h.before _ le_rfl, SparseVector.valuesBefore_of_le le_rfl]
  rfl

/-! ### Programs -/

/-- A scope is a checkpoint, some commands and the restoration. Erased slots are those of iterators,
so not holes. -/
inductive Command where
  | insert (assertions : List Assertion)
  | erase (slot : Nat)
  | markSat
  | scope (body : List Command)

mutual

def exec (cache : OperationCache) :
    Command → AssertionList → Option (AssertionList × List Assertion)
  | .insert assertions, l => do some (← l.insertAll cache assertions, [])
  | .erase slot, l =>
    match l.list.get? slot with
    | some a => do some (← l.erase slot, [a])
    | none => some (l, [])
  | .markSat, l => some (l.markSat, [])
  | .scope body, l => do
    let (l', erased) ← run cache body l
    some (← l'.restore l.checkpoint, erased)

def run (cache : OperationCache) :
    List Command → AssertionList → Option (AssertionList × List Assertion)
  | [], l => some (l, [])
  | c :: cs, l => do
    let (l', erased) ← exec cache c l
    let (l'', erased') ← run cache cs l'
    some (l'', erased ++ erased')

end

/-- Formulas are inserted, and `mark_sat` is called, if `marks` allows it, outside of scopes. -/
inductive Command.Proper : Bool → Command → Prop
  | insert {marks : Bool} {assertions : List Assertion}
    (formulas : ∀ a ∈ assertions, Formula a.value) : Proper marks (.insert assertions)
  | erase {marks : Bool} {slot : Nat} : Proper marks (.erase slot)
  | markSat : Proper true .markSat
  | scope {marks : Bool} {body : List Command} (inside : ∀ c ∈ body, Proper false c) :
    Proper marks (.scope body)

mutual

/-- What a command does to the conjunction of a list, and which assertions it erases. An erasure
takes the assertion in its slot. -/
inductive Step : Command → AssertionList → AssertionList → List Assertion → Prop
  | insert {l l' : AssertionList} {as parts : List Assertion} (represents : Represents as parts)
    (after : l'.conjunction = parts.foldl Conjunction.add l.conjunction) : Step (.insert as) l l' []
  | erase {l l' : AssertionList} {slot : Nat} {a : Assertion} (slot_eq : l.list.get? slot = some a)
    (after : l'.conjunction = l.conjunction.without [a]) (gone : l'.list.get? slot = none) :
    Step (.erase slot) l l' [a]
  | hole {l : AssertionList} {slot : Nat} (slot_eq : l.list.get? slot = none) :
    Step (.erase slot) l l []
  | markSat {l l' : AssertionList} (after : l'.conjunction = ⟨l.live, []⟩) : Step .markSat l l' []
  | scope {l l' l'' : AssertionList} {body : List Command} {erased : List Assertion}
    (inside : Steps body l l' erased) (after : l''.conjunction = l.conjunction.without erased) :
    Step (.scope body) l l'' erased

inductive Steps : List Command → AssertionList → AssertionList → List Assertion → Prop
  | nil {l : AssertionList} : Steps [] l l []
  | cons {l l' l'' : AssertionList} {c : Command} {cs : List Command}
    {erased erased' : List Assertion} (first : Step c l l' erased)
    (rest : Steps cs l' l'' erased') : Steps (c :: cs) l l'' (erased ++ erased')

end

/-- A command takes the list to one with the conjunction after it. -/
structure Refines (marks : Bool) (c : Command) (l l' : AssertionList) (erased : List Assertion) :
    Prop where
  step : Step c l l' erased
  kept : marks = false → Kept l l' erased

theorem run_of_exec {marks : Bool} (cs : List Command)
    (hcs : ∀ c ∈ cs, ∀ l, ∃ l' erased, exec cache c l = some (l', erased) ∧
      Refines marks c l l' erased) (l : AssertionList) :
    ∃ l' erased, run cache cs l = some (l', erased) ∧
      Steps cs l l' erased ∧ (marks = false → Kept l l' erased) := by
  induction cs generalizing l with
  | nil => exact ⟨l, [], rfl, .nil, fun _ => .refl l⟩
  | cons c cs ih =>
    obtain ⟨hc, hcs⟩ := forall_mem_cons.mp hcs
    obtain ⟨l', erased, hexec, href⟩ := hc l
    obtain ⟨l'', erased', hrun, hsteps, hkept⟩ := ih hcs l'
    refine ⟨l'', erased ++ erased', ?_, .cons href.step hsteps, fun hm =>
      (href.kept hm).trans (hkept hm)⟩
    simp only [run, hexec, hrun, some_bind]

theorem exec_refines {marks : Bool} {c : Command} (hc : c.Proper marks) (l : AssertionList) :
    ∃ l' erased, exec cache c l = some (l', erased) ∧ Refines marks c l l' erased := by
  induction hc generalizing l with
  | @insert marks assertions hformulas =>
    obtain ⟨parts, hpts, hrun⟩ := insertAll_refines cache assertions hformulas l
    obtain ⟨hconj, hkept⟩ := insertParts_refines parts l
    refine ⟨_, [], ?_, .insert hpts hconj, fun _ => hkept⟩
    rw [exec, hrun]
    rfl
  | @erase marks slot =>
    rw [exec]
    split
    · rename_i a hget
      obtain ⟨l', herase, hkept, hconj, hgone⟩ := erase_refines hget
      exact ⟨l', [a], by rw [herase]; rfl, .erase hget hconj hgone, fun _ => hkept⟩
    · rename_i hnone
      exact ⟨l, [], rfl, .hole hnone, fun _ => .refl l⟩
  | markSat =>
    refine ⟨l.markSat, [], rfl, ?_, fun h => nomatch h⟩
    exact .markSat (conjunction_markSat l)
  | @scope marks body _ ih =>
    obtain ⟨l', erased, hrun, hsteps, hkept⟩ := run_of_exec cache body ih l
    obtain ⟨l'', hrestore, hkept', hconj⟩ := (hkept rfl).restore
    refine ⟨l'', erased, ?_, .scope hsteps hconj, fun _ => hkept'⟩
    simp only [exec, hrun, hrestore, some_bind]

/-- What `Z3Solver::check` does to the list it is given. -/
def checked (cache : OperationCache) (l : AssertionList) (extra : Assertion) :
    Option AssertionList :=
  if l.unproven.isEmpty && extra.isConstantValue true then some l
  else if extra.isConstantValue false then some l
  else do (← l.insert cache extra).restore l.checkpoint

theorem lookup_eq (h : l'.conjunction = l.conjunction) : l'.lookup = l.lookup := by
  ext a
  have hlive : l'.live = l.live := by rw [← conjunction_live, h, conjunction_live]
  rw [l'.mem_lookup, l.mem_lookup]
  exact iff_of_eq (congrArg (a ∈ ·) hlive)

theorem checked_refines (l : AssertionList) {extra : Assertion} (hextra : Formula extra.value) :
    ∃ l', l.checked cache extra = some l' ∧ l'.conjunction = l.conjunction := by
  unfold checked
  split_ifs
  · exact ⟨l, rfl, rfl⟩
  · exact ⟨l, rfl, rfl⟩
  · obtain ⟨parts, -, hins⟩ := insert_refines cache l hextra
    obtain ⟨l', hrestore, -, hconj⟩ := (insertParts_refines parts l).2.restore
    refine ⟨l', ?_, hconj.trans (Conjunction.without_of_disjoint (by simp))⟩
    rw [hins]
    exact hrestore

/-- A list of assertions is a conjunction with scopes: insertions extend it, and a scope brings the
list, its lookup and its split back, less what was erased. -/
theorem run_conjunction (cache : OperationCache) (program : List Command)
    (hproper : ∀ c ∈ program, c.Proper true) (l : AssertionList) :
    (∃ l' erased, run cache program l = some (l', erased) ∧
      Steps program l l' erased ∧
      (∀ a, a ∈ l'.lookup ↔ a ∈ l'.live) ∧ l'.live.Nodup ∧
      l'.live = l'.proven ++ l'.unproven) ∧
    (∀ as parts atoms, Represents as parts →
      (Conjunction.Holds atoms (parts.foldl Conjunction.add l.conjunction).live ↔
        Conjunction.Holds atoms l.live ∧ Conjunction.Holds atoms as)) ∧
    (∀ body, (∀ c ∈ body, Command.Proper false c) → ∃ l' erased,
      exec cache (.scope body) l = some (l', erased) ∧
      l'.conjunction = l.conjunction.without erased ∧
      ((∀ a ∈ erased, a ∉ l.live) → l'.conjunction = l.conjunction ∧ l'.lookup = l.lookup)) ∧
    ∀ extra : Assertion, Formula extra.value → ∃ l', l.checked cache extra = some l' ∧
      l'.conjunction = l.conjunction ∧ l'.lookup = l.lookup := by
  refine ⟨?_, ?_, ?_, ?_⟩
  · obtain ⟨l', erased, hrun, hsteps, -⟩ := run_of_exec cache program
      (fun c hc l => exec_refines cache (hproper c hc) l) l
    exact ⟨l', erased, hrun, hsteps, l'.mem_lookup, l'.nodup, l'.live_eq⟩
  · intro as parts atoms hpts
    rw [Conjunction.holds_foldl_add, conjunction_live, hpts]
  · intro body hbody
    obtain ⟨l', erased, hrun, -, hkept⟩ := run_of_exec cache body
      (fun c hc l => exec_refines cache (hbody c hc) l) l
    obtain ⟨l'', hrestore, -, hconj⟩ := (hkept rfl).restore
    refine ⟨l'', erased, ?_, hconj, fun hdisjoint => ?_⟩
    · simp only [exec, hrun, hrestore, some_bind]
    · have hsame := hconj.trans (Conjunction.without_of_disjoint fun a ha =>
        conjunction_live l ▸ hdisjoint a ha)
      exact ⟨hsame, lookup_eq hsame⟩
  · intro extra hextra
    obtain ⟨l', hrun, hsame⟩ := checked_refines cache l hextra
    exact ⟨l', hrun, hsame, lookup_eq hsame⟩

def boolSymbol (n : Nat) : Assertion := ⟨.constant .bool (.numbered n), rfl⟩

def bothSymbols (m n : Nat) : Assertion :=
  ⟨.mk (.binary .and .bool) [(boolSymbol m).value, (boolSymbol n).value], rfl⟩

/-- Two symbols are proven, a scope adds a third one and is left, and a proven one is erased. -/
theorem run_conjunction_scope :
    ∃ l erased, run .full [.insert [bothSymbols 0 1], .markSat,
        .scope [.insert [boolSymbol 2, boolSymbol 1]], .erase 0] ∅ = some (l, erased) ∧
      (∀ a, a ∈ l.lookup ↔ a ∈ l.live) ∧ l.live.Nodup := by
  have hsym : ∀ n, Formula (boolSymbol n).value := fun n => .atom rfl rfl
  have hproper : ∀ c ∈ [.insert [bothSymbols 0 1], .markSat,
      .scope [.insert [boolSymbol 2, boolSymbol 1]], .erase 0], Command.Proper true c := by
    simp only [forall_mem_cons, not_mem_nil, false_implies, implies_true, and_true]
    refine ⟨.insert ?_, .markSat, .scope ?_, .erase⟩
    · exact forall_mem_singleton.mpr (.and (hsym 0) (hsym 1))
    · exact forall_mem_singleton.mpr (.insert (by simp [hsym]))
  obtain ⟨⟨l, erased, hrun, -, hlook, hnodup, -⟩, -⟩ := run_conjunction .full _ hproper ∅
  exact ⟨l, erased, hrun, hlook, hnodup⟩

/-- An assertion of before the checkpoint that is erased in the scope does not come back. -/
theorem restore_keeps_erasure :
    ∃ l l', run .full [.insert [boolSymbol 0]] ∅ = some (l, []) ∧ l.live = [boolSymbol 0] ∧
      run .full [.scope [.erase 0]] l = some (l', [boolSymbol 0]) ∧ l'.live = [] := by
  have hrun : (run .full [.insert [boolSymbol 0]] ∅).bind (fun r =>
      (run .full [.scope [.erase 0]] r.1).map fun r' => (r.1.live, r.2, r'.1.live, r'.2)) =
      some ([boolSymbol 0], [], [], [boolSymbol 0]) := by decide +kernel
  obtain ⟨⟨l, erased⟩, hins, hrun⟩ := Option.bind_eq_some_iff.mp hrun
  obtain ⟨⟨l', erased'⟩, hscope, heq⟩ := Option.map_eq_some_iff.mp hrun
  simp only [Prod.mk.injEq] at heq
  obtain ⟨hlive, rfl, hlive', rfl⟩ := heq
  exact ⟨l, l', hins, hlive, hscope, hlive'⟩

end AssertionList

end Caffeine
