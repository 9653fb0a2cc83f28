import Caffeine.IR.EGraphExtractor

/-!
# What no e-graph operation undoes

Ids once equal stay equal, ids are never removed, and the logs only grow: every operation satisfies
`Extends`. `SameParents` is the stronger relation of operations that leave ids, hashcons and parent
maps as they are.
-/

namespace Caffeine

open Option

variable {id fuel : Nat} {h : HashOrder}

namespace EGraph

structure Extends (g g' : EGraph) : Prop where
  size : g.size ≤ g'.size
  root : ∀ i j, g.root i = g.root j → g'.root i = g'.root j
  adds : g.trace.adds ⊆ g'.trace.adds
  events : g'.trace.events = [] → g.trace.events = []

namespace Extends

variable {g g' g'' : EGraph}

theorem refl (g : EGraph) : Extends g g := ⟨le_rfl, fun _ _ h => h, fun _ h => h, id⟩

theorem trans (h : Extends g g') (h' : Extends g' g'') : Extends g g'' where
  size := h.size.trans h'.size
  root i j hij := h'.root i j (h.root i j hij)
  adds := fun _ hr => h'.adds (h.adds hr)
  events he := h.events (h'.events he)

theorem of_eq (hu : g'.unionFind = g.unionFind) (ha : g'.trace.adds = g.trace.adds)
    (he : g'.trace.events = g.trace.events) : Extends g g' where
  size := by rw [EGraph.size, EGraph.size, hu]
  root i j hij := by
    simp only [EGraph.root, hu] at hij ⊢
    exact hij
  adds := by rw [ha]; exact fun _ h => h
  events := by rw [he]; exact id

theorem merge {i j r : Nat} (h : g.merge i j = some (r, g')) : Extends g g' := by
  obtain ⟨-, -, -, ⟨-, rfl⟩ | hm⟩ := merge_cases h
  · exact refl _
  · refine ⟨hm.size.ge, fun k l hkl => ?_, ?_, ?_⟩
    · rw [hm.root, hm.root, hkl]
    · rw [hm.trace]
      exact fun _ h => h
    · rw [hm.trace]
      exact id

theorem add {n : ENode} (h : g.add n = some (id, g')) : Extends g g' := by
  obtain ⟨-, ⟨-, rfl⟩ | ⟨-, ha⟩⟩ := add_cases h
  · exact ⟨le_rfl, fun _ _ h => h, List.subset_cons_self _ _, fun h => h⟩
  · refine ⟨by rw [ha.size]; omega, fun k l hkl => ?_, ?_, ?_⟩
    · rw [ha.root, ha.root, hkl]
    · rw [ha.adds]
      exact List.subset_cons_self _ _
    · rw [ha.events]
      exact fun h => h

theorem addOperation {o : Operation} (h : g.addOperation o = some (id, g')) : Extends g g' :=
  addOperation_stays (Extends g) (fun _ _ _ _ he h => he.trans (add h)) (refl g) h

theorem addOperands {ops : List Operation} {ids : List Nat}
    (h : g.addOperands ops = some (ids, g')) : Extends g g' :=
  (addOperands_invariant (Extends g) (fun _ _ _ _ _ he h => he.trans (addOperation h)) (refl g) h).1

theorem pruned (h : Pruned g g') : Extends g g' := by
  refine ⟨h.size.ge, fun i j hij => by rw [h.root, h.root, hij], ?_, h.events⟩
  obtain ⟨cs, ev, rfl⟩ := h.frame
  exact fun _ h => h

theorem setClass (g : EGraph) (id : Nat) (c : EClass) : Extends g (g.setClass id c) :=
  of_eq rfl rfl rfl

theorem tick (g : EGraph) : Extends g g.tick := of_eq rfl rfl rfl

theorem unparent (h : g.unparent id = some g') : Extends g g' := by
  obtain ⟨c, index, -, -, ⟨-, rfl⟩ | ⟨g1, c1, node, hp, -, -, -, rfl⟩⟩ := unparent_cases h
  · exact refl _
  · exact (pruned hp).trans (setClass _ _ _)

theorem foldlM_rehash {ps : List (ENode × Nat)} (h : ps.foldlM rehash g = some g') :
    Extends g g' := by
  refine foldlM_invariant (Extends g) ?_ h (refl g)
  intro s p s' _ hs hgs
  obtain ⟨-, -, rfl⟩ := rehash_cases hs
  exact hgs.trans (of_eq rfl rfl rfl)

theorem turn {s s' : RepairState} (hs : s.turn id = some s') : Extends s.graph s'.graph := by
  obtain ⟨p, rest, -, -, ⟨-, -, rfl⟩ | ⟨other, r, g1, -, hm, rfl, -⟩⟩ :=
    RepairState.turn_cases hs
  · exact refl _
  · exact merge hm

theorem repairParents {ps ps' : Map ENode Nat} {rest : List (ENode × Nat)}
    (hr : repairParents id fuel g ps rest = some (g', ps')) : Extends g g' :=
  repairParents_invariant (fun s => Extends g s.graph) (fun _ _ hs ht => hs.trans (turn ht)) hr
    (refl g)

theorem repair (hr : g.repair h fuel id = some g') : Extends g g' := by
  obtain ⟨c, g1, c1, g2, g3, ps, c3, -, hun, -, hrehash, hloop, -, -, rfl⟩ := repair_cases hr
  have h1 : Extends g g1 := by
    rcases hun with ⟨-, hun⟩ | ⟨-, rfl⟩
    · exact unparent hun
    · exact refl _
  exact h1.trans ((tick g1).trans ((foldlM_rehash hrehash).trans
    ((repairParents hloop).trans (setClass _ _ _))))

theorem rebuildLoop {s s' : EGraph × List Nat} (hs : rebuildLoop h fuel s = some s') :
    Extends s.1 s'.1 := by
  refine (rebuildLoop_invariant (fun t => Extends s.1 t.1) ?_ ?_ hs (refl _)).1
  · exact fun g _ hg => hg.trans (of_eq rfl rfl rfl)
  · intro fuel t e t' ht hstep
    obtain ⟨-, g, c, hg, -, rfl⟩ := rebuildStep_cases hstep
    exact ht.trans ((repair hg).trans (tick g))

theorem cleared (h : Cleared g g') : Extends g g' := by
  obtain ⟨cs, up, clock, rfl⟩ := h.frame
  exact of_eq rfl rfl rfl

theorem rebuild (hs : g.rebuild h fuel = some g') : Extends g g' := by
  simp only [EGraph.rebuild, bind_eq_some] at hs
  obtain ⟨s, hloop, hclear⟩ := hs
  exact (rebuildLoop hloop).trans (cleared (clearCaches_cases hclear))

end Extends

structure SameParents (g g' : EGraph) : Prop where
  unionFind : g'.unionFind = g.unionFind
  hashcons : g'.hashcons = g.hashcons
  worklist : g'.worklist = g.worklist
  adds : g'.trace.adds = g.trace.adds
  events : g'.trace.events = g.trace.events
  parents : ∀ k, (g'.classes.lookup k).map EClass.parents = (g.classes.lookup k).map EClass.parents

namespace SameParents

variable {g g' g'' : EGraph}

theorem refl (g : EGraph) : SameParents g g := ⟨rfl, rfl, rfl, rfl, rfl, fun _ => rfl⟩

theorem trans (h : SameParents g g') (h' : SameParents g' g'') : SameParents g g'' where
  unionFind := h'.unionFind.trans h.unionFind
  hashcons := h'.hashcons.trans h.hashcons
  worklist := h'.worklist.trans h.worklist
  adds := h'.adds.trans h.adds
  events := h'.events.trans h.events
  parents k := (h'.parents k).trans (h.parents k)

theorem toExtends (h : SameParents g g') : Extends g g' :=
  Extends.of_eq h.unionFind h.adds h.events

theorem setClass {c c' : EClass} (hc : g.classes.lookup id = some c) (hp : c'.parents = c.parents) :
    SameParents g (g.setClass id c') where
  unionFind := rfl
  hashcons := rfl
  worklist := rfl
  adds := rfl
  events := rfl
  parents k := by
    change ((g.classes.insert id c').lookup k).map EClass.parents = _
    rw [Map.lookup_insert]
    split_ifs with hk
    · rw [hk, hc, map_some, map_some, hp]
    · rfl

theorem tick (g : EGraph) : SameParents g g.tick := ⟨rfl, rfl, rfl, rfl, rfl, fun _ => rfl⟩

theorem recosted (h : Recosted g g') : SameParents g g' := by
  have hpar : ∀ k, (g'.classes.lookup k).map EClass.parents =
      (g.classes.lookup k).map EClass.parents := by
    intro k
    cases hk : g'.classes.lookup k with
    | none =>
      have hnot : k ∉ g.classes := (h.keys k).not.mp (AList.lookup_eq_none.mp hk)
      rw [AList.lookup_eq_none.mpr hnot]
    | some c' =>
      obtain ⟨c, cost, hc, rfl⟩ := h.classes k c' hk
      rw [hc]
      rfl
  obtain ⟨cs, rfl⟩ := h.frame
  exact ⟨rfl, rfl, rfl, rfl, rfl, hpar⟩

theorem pruned (h : Pruned g g') (he : g'.trace.events = []) : SameParents g g' := by
  have hpar : ∀ k, (g'.classes.lookup k).map EClass.parents =
      (g.classes.lookup k).map EClass.parents := by
    intro k
    cases hk : g'.classes.lookup k with
    | none =>
      have hnot : k ∉ g.classes := (h.keys k).not.mp (AList.lookup_eq_none.mp hk)
      rw [AList.lookup_eq_none.mpr hnot]
    | some c' =>
      obtain ⟨c, ps, hc, rfl, -, hps⟩ := h.classes k c' hk
      rw [hc, map_some, map_some, hps he]
  have hevts := h.events he
  obtain ⟨cs, ev, rfl⟩ := h.frame
  exact ⟨rfl, rfl, rfl, rfl, he.trans hevts.symm, hpar⟩

theorem unparent (h : g.unparent id = some g') (he : g'.trace.events = []) : SameParents g g' := by
  obtain ⟨c, index, -, -, ⟨-, rfl⟩ | ⟨g1, c1, node, hp, hc1, -, -, rfl⟩⟩ := unparent_cases h
  · exact refl _
  · exact (pruned hp he).trans (setClass hc1 rfl)

theorem cleared (h : Cleared g g') : SameParents g g' := by
  have hpar : ∀ k, (g'.classes.lookup k).map EClass.parents =
      (g.classes.lookup k).map EClass.parents := by
    intro k
    rcases h.classes k with heq | ⟨c, hc, heq⟩
    · rw [heq]
    · rw [heq, hc]
      rfl
  obtain ⟨cs, up, clock, rfl⟩ := h.frame
  exact ⟨rfl, rfl, rfl, rfl, rfl, hpar⟩

end SameParents

end EGraph

namespace EGraphExtractor

open EGraph

theorem extract_sameParents {createRaw : Constructor}
    {x : EGraphExtractor} {r : Operation × EGraphExtractor}
    (h : extract createRaw fuel x id = some r) : SameParents x.graph r.2.graph := by
  induction fuel generalizing x id r with
  | zero => cases h
  | succ fuel ih =>
    simp only [extract, bind_eq_bind, bind_eq_some_iff] at h
    obtain ⟨root, -, c, -, h⟩ := h
    split at h
    · cases h
      exact SameParents.refl _
    · cases h
      exact SameParents.refl _
    · simp only [bind_eq_some_iff, some.injEq] at h
      obtain ⟨cost, hcost, node, -, rs, hrs, e, -, rfl⟩ := h
      have hloop : SameParents cost.2.graph rs.2.graph := by
        refine foldlM_invariant (fun s => SameParents cost.2.graph s.2.graph) ?_ hrs
          (SameParents.refl _)
        intro s o s' _ hs hframe
        simp only [bind_eq_some_iff, some.injEq] at hs
        obtain ⟨t, ht, rfl⟩ := hs
        exact hframe.trans (ih ht)
      have hwrite : SameParents rs.2.graph (rs.2.updateCachedExpr root e).graph := by
        change SameParents rs.2.graph (rs.2.updateClass root (fun c => c.withExpr e))
        rcases rs.2.updateClass_cases root (fun c => c.withExpr e) with h | ⟨c, hc, h⟩
        · rw [h]
          exact SameParents.refl _
        · rw [h]
          exact SameParents.setClass hc rfl
      exact ((SameParents.recosted (evalCost_step hcost).1).trans hloop).trans hwrite

end EGraphExtractor

end Caffeine
