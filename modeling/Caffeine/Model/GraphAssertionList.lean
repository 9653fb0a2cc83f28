import Caffeine.IR.ConstpropReads
import Mathlib.Data.Finset.Basic

/-!
# Lists of e-classes as path conditions

A `GraphAssertionList` lists ids of boolean e-classes without repetition; those before the mark have
been proven satisfiable together. Canonicalisation replaces an id by its class, a conjunction by its
operands, drops true literals and leaves a false one alone in the list. It takes a bound on the
steps of its inner loop.
-/

namespace Caffeine

open List

structure GraphAssertionList where
  list : List Nat
  lookup : Finset Nat
  mark : Nat
  mem_lookup : ∀ a, a ∈ lookup ↔ a ∈ list
  nodup : list.Nodup

namespace GraphAssertionList

instance : EmptyCollection GraphAssertionList :=
  ⟨⟨[], ∅, 0, fun a => by simp, nodup_nil⟩⟩

def size (l : GraphAssertionList) : Nat := l.list.length

def markSat (l : GraphAssertionList) : GraphAssertionList := { l with mark := l.size }

def insert (l : GraphAssertionList) (assertion : Nat) : GraphAssertionList :=
  if h : assertion ∈ l.lookup then l
  else
    { list := l.list ++ [assertion]
      lookup := Insert.insert assertion l.lookup
      mark := l.mark
      mem_lookup := fun b => by
        rw [Finset.mem_insert, l.mem_lookup, mem_append, mem_singleton, or_comm]
      nodup := by
        rw [l.mem_lookup] at h
        exact nodup_append.mpr ⟨l.nodup, nodup_singleton _, fun b hb c hc hbc =>
          h (mem_singleton.mp hc ▸ hbc ▸ hb)⟩ }

def proven (l : GraphAssertionList) : List Nat := l.list.take l.mark

def unproven (l : GraphAssertionList) : List Nat := l.list.drop l.mark

def checkpoint (l : GraphAssertionList) : Nat := l.size

def restore (l : GraphAssertionList) (checkpoint : Nat) : Option GraphAssertionList :=
  if checkpoint ≤ l.size then some
    { list := l.list.take checkpoint
      lookup := (l.list.drop checkpoint).foldl Finset.erase l.lookup
      mark := l.mark
      mem_lookup := fun a => by
        have herase : ∀ (ids : List Nat) (s : Finset Nat),
            a ∈ ids.foldl Finset.erase s ↔ a ∈ s ∧ a ∉ ids := by
          intro ids
          induction ids with
          | nil => simp
          | cons i ids ih =>
            intro s
            rw [foldl_cons, ih, Finset.mem_erase, mem_cons, not_or]
            tauto
        have hnodup := l.nodup
        rw [← take_append_drop checkpoint l.list] at hnodup
        have hdisjoint := (nodup_append.mp hnodup).2.2
        rw [herase, l.mem_lookup]
        constructor
        · rintro ⟨hmem, hnot⟩
          rw [← take_append_drop checkpoint l.list] at hmem
          exact (mem_append.mp hmem).resolve_right hnot
        · exact fun hmem => ⟨mem_of_mem_take hmem, fun hdrop => hdisjoint a hmem a hdrop rfl⟩
      nodup := l.nodup.sublist (take_sublist _ _) }
  else none

/-- The list `[assertion]`; the mark stays. -/
def collapse (l : GraphAssertionList) (assertion : Nat) : GraphAssertionList where
  list := [assertion]
  lookup := {assertion}
  mark := l.mark
  mem_lookup a := by rw [Finset.mem_singleton, mem_singleton]
  nodup := nodup_singleton _

/-- The class of a queued id starts with a literal, has a conjunction or is kept. -/
inductive Visit where
  | literal (value : Bool)
  | split (operands : List Nat)
  | keep
  deriving DecidableEq

def visit (g : EGraph) (id : Nat) : Option (Nat × Visit) := do
  let assertion ← g.find id
  let eclass ← g.get assertion
  let front ← eclass.nodes.head?
  match front.data with
  | .constantInt value => some (assertion, .literal !value.isNullValue)
  | _ =>
    match eclass.nodes.find? (fun node => node.opcode = .binary .and) with
    | some node => some (assertion, .split node.operands)
    | none => some (assertion, .keep)

/-- The loop over the queue, its head queued last. At a false literal it stops and returns its
id. -/
def drain (g : EGraph) : Nat → GraphAssertionList → List Nat →
    Option (GraphAssertionList × Option Nat)
  | 0, _, _ => none
  | _ + 1, canonical, [] => some (canonical, none)
  | fuel + 1, canonical, id :: queued => do
    let (assertion, kind) ← visit g id
    match kind with
    | .literal false => some (canonical, some assertion)
    | .literal true => drain g fuel canonical queued
    | .split operands => drain g fuel canonical (operands.reverse ++ queued)
    | .keep => drain g fuel (canonical.insert assertion) queued

/-- The loop over the ids from index `i` on, for a list with the mark `mark`. -/
def canonicalizeFrom (g : EGraph) (fuel mark : Nat) : Nat → List Nat → GraphAssertionList →
    Option GraphAssertionList
  | _, [], canonical => some canonical
  | i, id :: ids, canonical => do
    let (canonical, found) ← drain g fuel (if i = mark then canonical.markSat else canonical) [id]
    match found with
    | some assertion =>
      let collapsed := canonical.collapse assertion
      some (if i < mark then collapsed.markSat else collapsed)
    | none => canonicalizeFrom g fuel mark (i + 1) ids canonical

def canonicalize (g : EGraph) (fuel : Nat) (l : GraphAssertionList) : Option GraphAssertionList :=
  canonicalizeFrom g fuel l.mark 0 l.list ∅

/-! ### The parts of an assertion -/

def AndStep (g : EGraph) (a b : Nat) : Prop :=
  ∃ k operands, visit g a = some (k, .split operands) ∧ b ∈ operands

def Conjunct (g : EGraph) : Nat → Nat → Prop := Relation.ReflTransGen (AndStep g)

/-- One of the conjuncts of `a` is a false literal, in the class `k`. -/
def FalseIn (g : EGraph) (a k : Nat) : Prop :=
  ∃ b, Conjunct g a b ∧ visit g b = some (k, .literal false)

def KeptIn (g : EGraph) (a p : Nat) : Prop := ∃ b, Conjunct g a b ∧ visit g b = some (p, .keep)

/-- The replacement of `a` by operands of conjunctions comes to an end. -/
def Ends (g : EGraph) : Nat → Prop := Acc fun b a => AndStep g a b

/-- The search through the conjuncts of an id, last ones first, comes to a false literal in the
class `k`. -/
inductive Refuted (g : EGraph) (k : Nat) : Nat → Prop
  | literal {a : Nat} (h : visit g a = some (k, .literal false)) : Refuted g k a
  | split {a j b : Nat} {before after : List Nat}
    (h : visit g a = some (j, .split (before ++ b :: after))) (hafter : ∀ c ∈ after, Ends g c)
    (hb : Refuted g k b) : Refuted g k a

variable {g : EGraph} {a b k p : Nat} {operands : List Nat}

theorem conjunct_iff : Conjunct g a b ↔ a = b ∨ ∃ c, AndStep g a c ∧ Conjunct g c b :=
  Relation.ReflTransGen.cases_head_iff

theorem FalseIn.of_step (hab : AndStep g a b) (hb : FalseIn g b k) : FalseIn g a k := by
  obtain ⟨c, hbc, hc⟩ := hb
  exact ⟨c, Relation.ReflTransGen.head hab hbc, hc⟩

theorem Refuted.falseIn (ha : Refuted g k a) : FalseIn g a k := by
  induction ha with
  | literal h => exact ⟨_, Relation.ReflTransGen.refl, h⟩
  | split h _ _ ih => exact ih.of_step ⟨_, _, h, mem_append_cons_self⟩

theorem KeptIn.of_step (hab : AndStep g a b) (hb : KeptIn g b p) : KeptIn g a p := by
  obtain ⟨c, hbc, hc⟩ := hb
  exact ⟨c, Relation.ReflTransGen.head hab hbc, hc⟩

theorem falseIn_iff_of_split (ha : visit g a = some (k, .split operands)) {j : Nat} :
    FalseIn g a j ↔ ∃ b ∈ operands, FalseIn g b j := by
  constructor
  · rintro ⟨c, hac, hc⟩
    rcases conjunct_iff.mp hac with rfl | ⟨b, ⟨_, _, ha', hb⟩, hbc⟩
    · cases ha.symm.trans hc
    · cases ha.symm.trans ha'
      exact ⟨b, hb, c, hbc, hc⟩
  · rintro ⟨b, hb, hff⟩
    exact hff.of_step ⟨k, operands, ha, hb⟩

theorem keptIn_iff_of_split (ha : visit g a = some (k, .split operands)) :
    KeptIn g a p ↔ ∃ b ∈ operands, KeptIn g b p := by
  constructor
  · rintro ⟨c, hac, hc⟩
    rcases conjunct_iff.mp hac with rfl | ⟨b, ⟨_, _, ha', hb⟩, hbc⟩
    · cases ha.symm.trans hc
    · cases ha.symm.trans ha'
      exact ⟨b, hb, c, hbc, hc⟩
  · rintro ⟨b, hb, hkept⟩
    exact hkept.of_step ⟨k, operands, ha, hb⟩

theorem ends_of_split (ha : visit g a = some (k, .split operands))
    (hends : ∀ b ∈ operands, Ends g b) : Ends g a := by
  refine Acc.intro a fun b ⟨_, _, ha', hb⟩ => ?_
  cases ha.symm.trans ha'
  exact hends b hb

theorem conjunct_of_not_split (ha : ∀ k operands, visit g a ≠ some (k, .split operands))
    (hab : Conjunct g a b) : a = b := by
  rcases conjunct_iff.mp hab with rfl | ⟨_, ⟨k, operands, hspl, -⟩, -⟩
  · rfl
  · exact absurd hspl (ha k operands)

theorem ends_of_not_split (ha : ∀ k operands, visit g a ≠ some (k, .split operands)) : Ends g a :=
  Acc.intro a fun _ ⟨k, operands, hspl, _⟩ => absurd hspl (ha k operands)

/-! ### The inner loop -/

variable {l l' : GraphAssertionList} {fuel : Nat} {queued : List Nat}

theorem mem_insert : b ∈ (l.insert a).list ↔ b ∈ l.list ∨ b = a := by
  unfold insert
  split_ifs with h
  · rw [l.mem_lookup] at h
    exact ⟨.inl, fun hb => hb.elim id fun heq => heq ▸ h⟩
  · rw [mem_append, mem_singleton]

theorem insert_isPrefix (l : GraphAssertionList) (a : Nat) : l.list <+: (l.insert a).list := by
  unfold insert
  split_ifs
  · exact prefix_refl _
  · exact prefix_append _ _

@[simp] theorem insert_mark (l : GraphAssertionList) (a : Nat) : (l.insert a).mark = l.mark := by
  unfold insert
  split_ifs <;> rfl

structure Drained (g : EGraph) (l : GraphAssertionList) (queued : List Nat)
    (l' : GraphAssertionList) : Prop where
  list : l.list <+: l'.list
  mark : l'.mark = l.mark
  mem : ∀ p, p ∈ l'.list ↔ p ∈ l.list ∨ ∃ a ∈ queued, KeptIn g a p
  noFalse : ∀ a ∈ queued, ∀ k, ¬ FalseIn g a k
  ends : ∀ a ∈ queued, Ends g a

theorem Drained.skip (ha : visit g a = some (k, .literal true)) (h : Drained g l queued l') :
    Drained g l (a :: queued) l' := by
  have hspl : ∀ k operands, visit g a ≠ some (k, .split operands) :=
    fun _ _ hspl => by cases ha.symm.trans hspl
  have hother : ∀ b, Conjunct g a b → visit g b = some (k, .literal true) :=
    fun b hab => conjunct_of_not_split hspl hab ▸ ha
  refine ⟨h.list, h.mark, fun p => ?_, forall_mem_cons.mpr ⟨?_, h.noFalse⟩,
    forall_mem_cons.mpr ⟨ends_of_not_split hspl, h.ends⟩⟩
  · have hnot : ¬ KeptIn g a p := fun ⟨b, hab, hb⟩ => by cases (hother b hab).symm.trans hb
    rw [h.mem, exists_mem_cons_iff, or_iff_right hnot]
  · rintro j ⟨b, hab, hb⟩
    cases (hother b hab).symm.trans hb

theorem Drained.split (ha : visit g a = some (k, .split operands))
    (h : Drained g l (operands.reverse ++ queued) l') : Drained g l (a :: queued) l' where
  list := h.list
  mark := h.mark
  mem p := by
    rw [h.mem, exists_mem_cons_iff, keptIn_iff_of_split ha]
    simp only [mem_append, mem_reverse, or_and_right, exists_or]
  noFalse := by
    refine forall_mem_cons.mpr ⟨fun j hj => ?_, fun b hb =>
      h.noFalse b (mem_append_right _ hb)⟩
    obtain ⟨b, hb, hff⟩ := (falseIn_iff_of_split ha).mp hj
    exact h.noFalse b (mem_append_left _ (mem_reverse.mpr hb)) j hff
  ends := forall_mem_cons.mpr
    ⟨ends_of_split ha fun b hb => h.ends b (mem_append_left _ (mem_reverse.mpr hb)),
      fun b hb => h.ends b (mem_append_right _ hb)⟩

theorem Drained.keep (ha : visit g a = some (k, .keep)) (h : Drained g (l.insert k) queued l') :
    Drained g l (a :: queued) l' := by
  have hspl : ∀ k operands, visit g a ≠ some (k, .split operands) :=
    fun _ _ hspl => by cases ha.symm.trans hspl
  have hother : ∀ b, Conjunct g a b → visit g b = some (k, .keep) :=
    fun b hab => conjunct_of_not_split hspl hab ▸ ha
  refine ⟨(insert_isPrefix l k).trans h.list, h.mark.trans (insert_mark l k), fun p => ?_,
    forall_mem_cons.mpr ⟨?_, h.noFalse⟩,
    forall_mem_cons.mpr ⟨ends_of_not_split hspl, h.ends⟩⟩
  · have hkept : KeptIn g a p ↔ p = k := by
      constructor
      · rintro ⟨b, hab, hb⟩
        cases (hother b hab).symm.trans hb
        rfl
      · rintro rfl
        exact ⟨a, Relation.ReflTransGen.refl, ha⟩
    rw [h.mem, mem_insert, exists_mem_cons_iff, hkept, or_assoc]
  · rintro j ⟨b, hab, hb⟩
    cases (hother b hab).symm.trans hb

def RefutedIn (g : EGraph) (k : Nat) (queued : List Nat) : Prop :=
  ∃ before a after, queued = before ++ a :: after ∧ (∀ b ∈ before, Ends g b) ∧ Refuted g k a

theorem RefutedIn.cons (ha : Ends g a) (h : RefutedIn g k queued) :
    RefutedIn g k (a :: queued) := by
  obtain ⟨before, b, after, rfl, hbef, hb⟩ := h
  exact ⟨a :: before, b, after, rfl, forall_mem_cons.mpr ⟨ha, hbef⟩, hb⟩

theorem RefutedIn.split {j : Nat} (ha : visit g a = some (j, .split operands))
    (h : RefutedIn g k (operands.reverse ++ queued)) : RefutedIn g k (a :: queued) := by
  obtain ⟨before, b, after, heq, hbef, hb⟩ := h
  rcases append_eq_append_iff.mp heq with ⟨rest, rfl, hrest⟩ | ⟨rest, hops, hrest⟩
  · -- all operands come before the literal
    have hends : Ends g a := ends_of_split ha fun c hc =>
      hbef c (mem_append_left _ (mem_reverse.mpr hc))
    exact RefutedIn.cons hends
      ⟨rest, b, after, hrest, fun c hc => hbef c (mem_append_right _ hc), hb⟩
  · cases rest with
    | nil =>
      rw [append_nil] at hops
      have hends : Ends g a := ends_of_split ha fun c hc =>
        hbef c (hops ▸ mem_reverse.mpr hc)
      exact RefutedIn.cons hends ⟨[], b, after, hrest.symm, by simp, hb⟩
    | cons b' rest =>
      cases hrest
      rw [reverse_eq_iff, List.reverse_append, reverse_cons, List.append_assoc,
        singleton_append] at hops
      refine ⟨[], a, queued, rfl, by simp, .split (hops ▸ ha) (fun c hc => ?_) hb⟩
      exact hbef c (mem_reverse.mp hc)

theorem RefutedIn.refuted (h : RefutedIn g k [a]) : Refuted g k a := by
  obtain ⟨before, b, after, heq, -, hb⟩ := h
  cases before with
  | nil =>
    cases heq
    exact hb
  | cons c before => simp at heq

theorem drain_cases {found : Option Nat} (h : drain g fuel l queued = some (l', found)) :
    (found = none ∧ Drained g l queued l') ∨
      ∃ k, found = some k ∧ l'.mark = l.mark ∧ RefutedIn g k queued := by
  induction fuel generalizing l queued with
  | zero => cases h
  | succ fuel ih =>
    cases queued with
    | nil =>
      cases h
      exact .inl ⟨rfl, prefix_refl _, rfl, by simp, by simp, by simp⟩
    | cons a queued =>
      simp only [drain, bind_eq_some, Prod.exists] at h
      obtain ⟨k, kind, ha, h⟩ := h
      have hends : (∀ operands, kind ≠ .split operands) → Ends g a := fun hkind =>
        ends_of_not_split fun _ operands hspl => by
          cases ha.symm.trans hspl
          exact hkind operands rfl
      cases kind with
      | literal value =>
        cases value with
        | false =>
          cases h
          exact .inr ⟨k, rfl, rfl, [], a, queued, rfl, by simp, .literal ha⟩
        | true =>
          rcases ih h with ⟨hnone, hdrained⟩ | ⟨j, hj, hmark, hff⟩
          · exact .inl ⟨hnone, hdrained.skip ha⟩
          · exact .inr ⟨j, hj, hmark, hff.cons (hends (by simp))⟩
      | split operands =>
        rcases ih h with ⟨hnone, hdrained⟩ | ⟨j, hj, hmark, hff⟩
        · exact .inl ⟨hnone, hdrained.split ha⟩
        · exact .inr ⟨j, hj, hmark, hff.split ha⟩
      | keep =>
        rcases ih h with ⟨hnone, hdrained⟩ | ⟨j, hj, hmark, hff⟩
        · exact .inl ⟨hnone, hdrained.keep ha⟩
        · exact .inr ⟨j, hj, hmark.trans (insert_mark l k), hff.cons (hends (by simp))⟩

/-! ### The outer loop -/

structure Scanned (g : EGraph) (mark : Nat) (done : List Nat) (l : GraphAssertionList) : Prop where
  kept : ∀ p, p ∈ l.list ↔ ∃ a ∈ done, KeptIn g a p
  noFalse : ∀ a ∈ done, ∀ k, ¬ FalseIn g a k
  ends : ∀ a ∈ done, Ends g a
  before : done.length ≤ mark → l.mark = 0
  after : mark < done.length → l.mark ≤ l.size ∧
    ∀ p, p ∈ l.proven ↔ ∃ a ∈ done.take mark, KeptIn g a p

variable {mark : Nat} {done : List Nat}

theorem Scanned.markSat (hl : Scanned g mark done l) :
    let l1 := if done.length = mark then l.markSat else l
    l1.list = l.list ∧ (done.length < mark → l1.mark = 0) ∧ (mark ≤ done.length → l1.mark ≤ l.size ∧
      ∀ p, p ∈ l.list.take l1.mark ↔ ∃ a ∈ done.take mark, KeptIn g a p) := by
  by_cases hmark : done.length = mark
  · rw [if_pos hmark]
    refine ⟨rfl, fun hlt => absurd hmark hlt.ne, fun _ => ⟨le_rfl, fun p => ?_⟩⟩
    rw [← hmark, take_length]
    exact (congrArg (p ∈ ·) take_length).to_iff.trans (hl.kept p)
  · rw [if_neg hmark]
    exact ⟨rfl, fun hlt => hl.before hlt.le, fun hle => hl.after (by omega)⟩

theorem Scanned.step (hl : Scanned g mark done l)
    (hd : Drained g (if done.length = mark then l.markSat else l) [a] l') :
    Scanned g mark (done ++ [a]) l' := by
  obtain ⟨hlist, hbef, haft⟩ := hl.markSat
  have hpre := hd.list
  rw [hlist] at hpre
  refine ⟨fun p => ?_, ?_, ?_, fun hle => ?_, fun hlt => ?_⟩
  · rw [hd.mem, hlist, hl.kept]
    simp only [mem_append, or_and_right, exists_or]
  · intro b hb
    rcases mem_append.mp hb with hb | hb
    · exact hl.noFalse b hb
    · exact hd.noFalse b hb
  · intro b hb
    rcases mem_append.mp hb with hb | hb
    · exact hl.ends b hb
    · exact hd.ends b hb
  · rw [length_append, length_singleton] at hle
    rw [hd.mark]
    exact hbef hle
  · rw [length_append, length_singleton] at hlt
    have hle : mark ≤ done.length := Nat.le_of_lt_succ hlt
    obtain ⟨hsize, hproven⟩ := haft hle
    rw [← hd.mark] at hsize hproven
    obtain ⟨more, hmore⟩ := hpre
    refine ⟨?_, fun p => ?_⟩
    · rw [size, ← hmore, length_append]
      exact hsize.trans (Nat.le_add_right _ _)
    · rw [proven, ← hmore, take_append_of_le_length hsize, hproven, take_append_of_le_length hle]

/-- The kept classes, or a false literal of the id after `done`. -/
inductive Canonicalized (g : EGraph) (mark : Nat) (ids : List Nat) (l' : GraphAssertionList) : Prop
  | kept (h : Scanned g mark ids l')
  | collapsed {done rest : List Nat} {a k : Nat} {l : GraphAssertionList}
    (hids : ids = done ++ a :: rest) (hl : Scanned g mark done l) (ha : Refuted g k a)
    (hlist : l'.list = [k]) (hproven : done.length < mark → l'.mark = 1)
    (hmark : mark ≤ done.length → l'.mark ≤ l.size ∧
      ∀ p, p ∈ l.list.take l'.mark ↔ ∃ a ∈ done.take mark, KeptIn g a p)

theorem canonicalizeFrom_cases {ids : List Nat} (hl : Scanned g mark done l)
    (h : canonicalizeFrom g fuel mark done.length ids l = some l') :
    Canonicalized g mark (done ++ ids) l' := by
  induction ids generalizing done l with
  | nil =>
    cases h
    rw [append_nil]
    exact .kept hl
  | cons a ids ih =>
    simp only [canonicalizeFrom, bind_eq_some, Prod.exists] at h
    obtain ⟨l1, found, hdrain, h⟩ := h
    rcases drain_cases hdrain with ⟨rfl, hd⟩ | ⟨k, rfl, hmark, hff⟩
    · have hall := ih (hl.step hd) (by rwa [length_append])
      rwa [List.append_assoc, singleton_append] at hall
    · obtain ⟨hlist, hbef, haft⟩ := hl.markSat
      simp only [Option.some.injEq] at h
      subst h
      refine .collapsed rfl hl hff.refuted ?_ ?_ ?_
      · split_ifs <;> rfl
      · intro hlt
        rw [if_pos hlt]
        rfl
      · intro hle
        rw [if_neg (Nat.not_lt.mpr hle)]
        exact hmark ▸ haft hle

theorem canonicalize_cases (h : l.canonicalize g fuel = some l') :
    Canonicalized g l.mark l.list l' :=
  have hemp : Scanned g l.mark [] ∅ :=
    ⟨by simp [EmptyCollection.emptyCollection], by simp, by simp, fun _ => rfl, by simp⟩
  canonicalizeFrom_cases hemp h

end GraphAssertionList

end Caffeine
