import Caffeine.ADT.UnionFind
import Caffeine.Util.Runs
import Mathlib.Logic.Relation

/-!
# The partition a union-find stands for

A run makes sets, joins roots and looks roots up. Two ids have one root exactly if unions have
joined them; it is the first argument of the latest union of the set.
-/

namespace Caffeine

open List

def Joined (unions : List (Nat × Nat)) : Nat → Nat → Prop :=
  Relation.EqvGen fun a b => (a, b) ∈ unions

/-- The function picks a representative of every set the unions, the latest first, join. -/
structure Partition (f : Nat → Nat) (unions : List (Nat × Nat)) : Prop where
  joined : ∀ i j, f i = f j ↔ Joined unions i j
  latest : ∀ i p before after, unions = before ++ p :: after → (∀ q ∈ before, f q.1 ≠ f i) →
    f p.1 = f i → f i = p.1
  single : ∀ i, (∀ q ∈ unions, f q.1 ≠ f i) → f i = i

variable {f : Nat → Nat} {unions : List (Nat × Nat)}

theorem eq_of_joined {i j : Nat} (hf : ∀ p ∈ unions, f p.1 = f p.2) (h : Joined unions i j) :
    f i = f j :=
  (eq_equivalence.comap f).eqvGen_iff.mp (h.mono fun a b hab => hf (a, b) hab)

theorem Partition.union {r1 r2 : Nat} (h : Partition f unions) (h1 : f r1 = r1) (h2 : f r2 = r2) :
    Partition (fun i => if f i = r2 then r1 else f i) ((r1, r2) :: unions) := by
  have hr1 : (if f r1 = r2 then r1 else f r1) = r1 := by
    rw [h1, ite_self]
  -- an id outside of the new set has the root it had
  have hother : ∀ i, r1 ≠ (if f i = r2 then r1 else f i) → f i ≠ r2 ∧
      (if f i = r2 then r1 else f i) = f i := by
    intro i hi
    split_ifs at hi with heq
    · exact absurd rfl hi
    · exact ⟨heq, if_neg heq⟩
  refine ⟨fun i j => ⟨fun hij => ?_,
    eq_of_joined (f := fun i => if f i = r2 then r1 else f i) fun p hp => ?_⟩,
    fun i p before after hspl hb hp => ?_, fun i hi => ?_⟩
  · have hmono : ∀ {a b}, f a = f b → Joined ((r1, r2) :: unions) a b :=
      fun hab => ((h.joined _ _).mp hab).mono fun _ _ hmem => mem_cons_of_mem _ hmem
    have hnew : Joined ((r1, r2) :: unions) r1 r2 := .rel _ _ mem_cons_self
    split_ifs at hij with hi hj hj
    · exact hmono (hi.trans hj.symm)
    · exact (hmono (hi.trans h2.symm)).trans _ _ _
        ((hnew.symm _ _).trans _ _ _ (hmono (h1.trans hij)))
    · exact (hmono (hij.trans h1.symm)).trans _ _ _ (hnew.trans _ _ _ (hmono (h2.trans hj.symm)))
    · exact hmono hij
  · rcases mem_cons.mp hp with rfl | hmem
    · rw [hr1, if_pos h2]
    · rw [(h.joined p.1 p.2).mpr (.rel _ _ hmem)]
  · cases before with
    | nil =>
      obtain ⟨rfl, -⟩ := List.cons.inj hspl
      exact hp.symm.trans hr1
    | cons q before =>
      obtain ⟨rfl, rfl⟩ := List.cons.inj hspl
      obtain ⟨hfst, hrest⟩ := forall_mem_cons.mp hb
      rw [hr1] at hfst
      obtain ⟨-, hi⟩ := hother i hfst
      obtain ⟨-, hpeq⟩ := hother p.1 (hp ▸ hfst)
      rw [hi] at hp ⊢
      refine h.latest i p before after rfl (fun q hq heq => hrest q hq ?_) (hpeq ▸ hp)
      rw [heq]
  · obtain ⟨hfst, hrest⟩ := forall_mem_cons.mp hi
    rw [hr1] at hfst
    rw [(hother i hfst).2]
    exact h.single i fun q hq heq => hrest q hq (by rw [heq])

namespace UnionFind

inductive Call where
  | makeSet
  | doUnion (root1 root2 : Nat)
  | find (id : Nat)
  | findConst (id : Nat)

/-- A union-find with the log of its unions, the latest first. -/
structure Run where
  forest : UnionFind
  unions : List (Nat × Nat)

instance (u : UnionFind) (r : Nat) : Decidable (u.IsRoot r) :=
  inferInstanceAs (Decidable (_ = _))

def exec (r : Run) : Call → Option Run
  | .makeSet => some { r with forest := r.forest.makeSet.2 }
  | .doUnion root1 root2 =>
    if h : r.forest.IsRoot root1 ∧ r.forest.IsRoot root2 then
      some ⟨r.forest.doUnion root1 root2 h.1 h.2, (root1, root2) :: r.unions⟩
    else none
  | .find id =>
    if id < r.forest.size then some { r with forest := (r.forest.update id).2 } else none
  | .findConst id => if id < r.forest.size then some r else none

theorem exec_partition {r r' : Run} {call : Call} (h : exec r call = some r')
    (hr : Partition r.forest.find r.unions) : Partition r'.forest.find r'.unions := by
  cases call with
  | makeSet =>
    cases h
    exact (funext r.forest.find_makeSet : r.forest.makeSet.2.find = _) ▸ hr
  | doUnion root1 root2 =>
    simp only [exec] at h
    split_ifs at h with hroots
    cases h
    rw [(funext (r.forest.find_doUnion hroots.1 hroots.2) :
      (r.forest.doUnion root1 root2 hroots.1 hroots.2).find = _)]
    exact hr.union (r.forest.find_of_isRoot hroots.1) (r.forest.find_of_isRoot hroots.2)
  | find id =>
    simp only [exec] at h
    split_ifs at h with hid
    cases h
    exact (funext fun j => (r.forest.update_spec hid j).2 : (r.forest.update id).2.find = _) ▸ hr
  | findConst id =>
    simp only [exec] at h
    split_ifs at h
    cases h
    exact hr

theorem parent_of_cycle (u : UnionFind) {k : Nat} (i : Nat) (h : u.parent^[k + 1] i = i) :
    u.parent i = i := by
  induction i using u.parent_induction with
  | root i hi => exact hi
  | step i hi ih =>
    have hcyc : u.parent^[k + 1] (u.parent i) = u.parent i := by
      rw [← Function.iterate_succ_apply, Function.iterate_succ_apply', h]
    rw [Function.iterate_succ_apply, u.iterate_parent_of_eq (ih hcyc)] at h
    exact absurd h hi

/-- Both versions of `find` stop at the same root. Ids have one root exactly if unions have joined
them, and the root is the first argument of the latest union of its set. -/
theorem run_partition (calls : List Call) (r : Run) (h : Runs.run exec ⟨empty, []⟩ calls = some r) :
    (∀ i k, r.forest.parent^[k + 1] i = i → r.forest.parent i = i) ∧
    (∀ i < r.forest.size, ∀ fuel ≥ r.forest.size, r.forest.IsRoot (r.forest.find i) ∧
      r.forest.findFrom fuel i = r.forest.find i ∧
      (updateFrom fuel r.forest i).1 = r.forest.find i ∧
      ∀ j, (updateFrom fuel r.forest i).2.find j = r.forest.find j) ∧
    Partition r.forest.find r.unions := by
  refine ⟨fun i k => r.forest.parent_of_cycle i, fun i hi fuel hfuel => ?_, ?_⟩
  · obtain ⟨k, hk, hroot⟩ := r.forest.exists_iterate_root hi
    refine ⟨r.forest.isRoot_find hi, ?_, updateFrom_fst fuel r.forest i k (hk.trans hfuel) hroot,
      find_updateFrom fuel r.forest i⟩
    rw [findFrom_eq_iterate, ← Nat.sub_add_cancel (hk.trans hfuel), Function.iterate_add_apply,
      r.forest.iterate_parent_of_eq hroot]
    exact (r.forest.find_eq_of_iterate hroot rfl).symm
  · refine foldlM_invariant (fun r => Partition r.forest.find r.unions)
      (fun r call r' _ hstep hr => exec_partition hstep hr) h
      ⟨fun i j => ⟨?_, eq_of_joined (f := id) fun _ h => absurd h not_mem_nil⟩, ?_, fun i _ => rfl⟩
    · rintro (rfl : i = j)
      exact .refl _
    · intro i p before after hspl
      cases before <;> cases hspl

def sampleCalls : List Call :=
  [.makeSet, .makeSet, .makeSet, .doUnion 0 1, .doUnion 2 0, .find 1]

theorem run_partition_three :
    ∃ r, Runs.run exec ⟨empty, []⟩ sampleCalls = some r ∧ r.forest.find 1 = 2 ∧
      Partition r.forest.find r.unions := by
  obtain ⟨r, hr, hfind⟩ := Option.map_eq_some_iff.mp
    (show (Runs.run exec ⟨empty, []⟩ sampleCalls).map (·.forest.find 1) = some 2 by decide +kernel)
  exact ⟨r, hr, hfind, (run_partition _ r hr).2.2⟩

end UnionFind

end Caffeine
