import Caffeine.IR.EGraphReachable

/-!
# The set of updated classes

Within a round of equality saturation no update is forgotten. A class that has kept its id and is
not among the updated ones at the end of the round has kept its nodes. The reason is that a class
waiting for repair has been updated.
-/

namespace Caffeine

open List Option

variable {i id : Nat}

namespace EGraph

/-- The updates since `g₀` are recorded: other classes have kept their nodes, and do not wait for
repair. -/
structure Logged (g₀ : EGraph) (todo : List Nat) (g : EGraph) : Prop where
  root : ∀ k, g.root k = k → g₀.root k = k
  nodes : ∀ k c₀, g₀.classes.lookup k = some c₀ → g.root k = k → k ∉ g.updated →
    ∃ c, g.classes.lookup k = some c ∧ c.nodes = c₀.nodes
  waiting : ∀ e ∈ todo ++ g.worklist, g.root e ∈ g.updated

namespace Logged

variable {g₀ g g' : EGraph} {todo : List Nat} {h : HashOrder} {fuel : Nat}

theorem start (hw : g₀.worklist = []) : Logged g₀ [] g₀ := by
  refine ⟨fun _ h => h, fun k c hc _ _ => ⟨c, hc, rfl⟩, fun e he => ?_⟩
  rw [hw] at he
  cases he

theorem of_nodes (hg : Logged g₀ todo g) (hu : g'.unionFind = g.unionFind)
    (hup : g.updated ⊆ g'.updated) (hw : g'.worklist = g.worklist)
    (hnodes : ∀ k c, g.classes.lookup k = some c → k ∉ g'.updated →
      ∃ c', g'.classes.lookup k = some c' ∧ c'.nodes = c.nodes) : Logged g₀ todo g' := by
  have hroot : ∀ k, g'.root k = g.root k := fun k => by rw [EGraph.root, hu, EGraph.root]
  refine ⟨fun k hk => hg.root k (hroot k ▸ hk), fun k c₀ hc₀ hk hmem => ?_, fun e he => ?_⟩
  · obtain ⟨c, hc, heq⟩ := hg.nodes k c₀ hc₀ (hroot k ▸ hk) fun h => hmem (hup h)
    obtain ⟨c', hc', heq'⟩ := hnodes k c hc hmem
    exact ⟨c', hc', heq'.trans heq⟩
  · rw [hroot]
    rw [hw] at he
    exact hup (hg.waiting e he)

theorem of_eq (hg : Logged g₀ todo g) (hu : g'.unionFind = g.unionFind)
    (hc : g'.classes = g.classes) (hup : g'.updated = g.updated) (hw : g'.worklist = g.worklist) :
    Logged g₀ todo g' :=
  hg.of_nodes hu (hup ▸ Subset.refl _) hw fun _ c hk _ => ⟨c, hc ▸ hk, rfl⟩

theorem add {n : ENode} (hg : Logged g₀ todo g) (ha : g.add n = some (i, g')) :
    Logged g₀ todo g' := by
  obtain ⟨-, ⟨-, rfl⟩ | ⟨-, hadded⟩⟩ := add_cases ha
  · exact hg.of_eq rfl rfl rfl rfl
  refine ⟨fun k hk => hg.root k (hadded.root k ▸ hk), fun k c₀ hc₀ hk hmem => ?_, fun e he => ?_⟩
  · rw [hadded.updated] at hmem
    obtain ⟨c, hc, heq⟩ := hg.nodes k c₀ hc₀ (hadded.root k ▸ hk)
      fun h => hmem (mem_insert_of_mem h)
    have hne : k ≠ g.size := by
      rintro rfl
      exact hmem mem_insert_self
    have hlook := hadded.classes k
    rw [Map.lookup_emplace, if_neg fun h => hne h.1, hc, map_some] at hlook
    refine ⟨_, hlook, ?_⟩
    split_ifs <;> exact heq
  · rw [hadded.worklist, ← List.append_assoc] at he
    rw [hadded.root, hadded.updated]
    rcases mem_append.mp he with he | he
    · exact mem_insert_of_mem (hg.waiting e he)
    · rw [mem_singleton.mp he]
      have hroot : g.root g.size = g.size := g.unionFind.find_of_size_le le_rfl
      rw [hroot]
      exact mem_insert_self

theorem addOperation {o : Operation} (hg : Logged g₀ todo g)
    (ha : g.addOperation o = some (i, g')) : Logged g₀ todo g' :=
  addOperation_stays (Logged g₀ todo) (fun _ _ _ _ hg ha => hg.add ha) hg ha

theorem merged {j : Nat} (hg : Logged g₀ todo g) (hm : Merged g i j g') : Logged g₀ todo g' := by
  obtain ⟨c1, c2, cm, -, -, -, hlook⟩ := hm.classes
  refine ⟨fun k hk => hg.root k (hm.root_self hk), fun k c₀ hc₀ hk hmem => ?_, fun e he => ?_⟩
  · rw [hm.updated] at hmem
    obtain ⟨c, hc, heq⟩ := hg.nodes k c₀ hc₀ (hm.root_self hk)
      fun h => hmem (mem_insert_of_mem h)
    have hki : k ≠ g.root i := by
      rintro rfl
      exact hmem mem_insert_self
    have hkj : k ≠ g.root j := by
      rintro rfl
      rw [hm.root, root_root, if_pos rfl] at hk
      exact hm.ne hk
    exact ⟨c, by rw [hlook, if_neg hkj, if_neg hki, hc], heq⟩
  · rw [hm.worklist, ← List.append_assoc] at he
    rw [hm.root, hm.updated]
    split_ifs with hej
    · exact mem_insert_self
    · rcases mem_append.mp he with he | he
      · exact mem_insert_of_mem (hg.waiting e he)
      · rw [mem_singleton.mp he, root_root]
        exact mem_insert_self

theorem merge {j r : Nat} (hg : Logged g₀ todo g) (hm : g.merge i j = some (r, g')) :
    Logged g₀ todo g' := by
  obtain ⟨-, -, -, ⟨-, rfl⟩ | hmgd⟩ := merge_cases hm
  · exact hg
  · exact hg.merged hmgd

theorem push {r : Nat} (hg : Logged g₀ todo g) (hr : g.root r ∈ g.updated) :
    Logged g₀ todo { g with worklist := g.worklist ++ [r] } := by
  refine ⟨hg.root, hg.nodes, fun e he => ?_⟩
  rw [← List.append_assoc] at he
  rcases mem_append.mp he with he | he
  · exact hg.waiting e he
  · rw [mem_singleton.mp he]
    exact hr

theorem setClass (hg : Logged g₀ todo g) (hid : id ∈ g.updated) (c : EClass) :
    Logged g₀ todo (g.setClass id c) := by
  refine hg.of_nodes rfl (Subset.refl _) rfl fun k d hd hk => ?_
  have hne : k ≠ id := fun h => hk (h ▸ hid)
  exact ⟨d, (Map.lookup_insert _ _ _ _).trans ((if_neg hne).trans hd), rfl⟩

theorem sameShape (hg : Logged g₀ todo g) (hs : SameShape g g') : Logged g₀ todo g' := by
  have hnodes : ∀ k c, g.classes.lookup k = some c →
      ∃ c', g'.classes.lookup k = some c' ∧ c'.nodes = c.nodes := by
    intro k c hc
    obtain ⟨cache, hc'⟩ := hs.symm_class hc
    exact ⟨_, hc', rfl⟩
  obtain ⟨cs, rfl⟩ := hs.frame
  exact hg.of_nodes rfl (Subset.refl _) rfl fun k c hc _ => hnodes k c hc

/-! ### Rebuilding -/

theorem unparent (hg : Logged g₀ todo g) (hid : id ∈ g.updated) (hu : g.unparent id = some g') :
    Logged g₀ todo g' := by
  obtain ⟨c, index, -, -, ⟨-, rfl⟩ | ⟨g1, c1, node, hp, -, -, -, rfl⟩⟩ := unparent_cases hu
  · exact hg
  have hnodes : ∀ k c, g.classes.lookup k = some c →
      ∃ c', g1.classes.lookup k = some c' ∧ c'.nodes = c.nodes := by
    intro k c hc
    have hmem := (hp.keys k).mpr (Map.mem_of_lookup hc)
    obtain ⟨c', hc'⟩ := Map.exists_lookup hmem
    obtain ⟨d, ps, hd, rfl, -, -⟩ := hp.classes k c' hc'
    cases hd.symm.trans hc
    exact ⟨_, hc', rfl⟩
  have h1 : Logged g₀ todo g1 ∧ id ∈ g1.updated := by
    obtain ⟨cs, ev, rfl⟩ := hp.frame
    exact ⟨hg.of_nodes rfl (Subset.refl _) rfl fun k c hc _ => hnodes k c hc, hid⟩
  exact h1.1.setClass h1.2 _

theorem turn {s s' : RepairState} (hg : Logged g₀ todo s.graph) (ht : s.turn id = some s') :
    Logged g₀ todo s'.graph := by
  obtain ⟨p, rest, -, -, ⟨-, -, rfl⟩ | ⟨other, r, g1, -, hm, rfl, -⟩⟩ :=
    RepairState.turn_cases ht
  · exact hg
  · exact hg.merge hm

theorem repair (hg : Logged g₀ todo g) (hid : id ∈ g.updated) (hr : g.repair h fuel id = some g') :
    Logged g₀ todo g' := by
  obtain ⟨c, g1, c1, g2, g3, ps, c3, -, hun, -, hrehash, hloop, -, -, rfl⟩ := repair_cases hr
  have h1 : Logged g₀ todo g1 ∧ id ∈ g1.updated := by
    rcases hun with ⟨-, hun⟩ | ⟨-, rfl⟩
    · exact ⟨hg.unparent hid hun, unparent_updated hun ▸ hid⟩
    · exact ⟨hg, hid⟩
  have h2 : Logged g₀ todo g2 ∧ id ∈ g2.updated := by
    refine foldlM_invariant (fun t => Logged g₀ todo t ∧ id ∈ t.updated) ?_ hrehash
      ⟨h1.1.of_eq rfl rfl rfl rfl, h1.2⟩
    rintro t p t' _ ht ⟨hlogged, hup⟩
    obtain ⟨-, -, rfl⟩ := rehash_cases ht
    exact ⟨hlogged.of_eq rfl rfl rfl rfl, hup⟩
  have h3 : Logged g₀ todo g3 ∧ id ∈ g3.updated :=
    repairParents_invariant (fun t => Logged g₀ todo t.graph ∧ id ∈ t.graph.updated)
      (fun _ _ hs ht => ⟨hs.1.turn ht, turn_updated ht hs.2⟩) hloop h2
  exact h3.1.setClass h3.2 _

theorem foldlM_rebuildStep {s s' : EGraph × List Nat} (hg : Logged g₀ todo s.1)
    (hs : todo.foldlM (rebuildStep h fuel) s = some s') : Logged g₀ [] s'.1 := by
  induction todo generalizing s with
  | nil =>
    cases hs
    exact hg
  | cons e todo ih =>
    obtain ⟨t, ht, hs⟩ := foldlM_cons_eq_some.mp hs
    obtain ⟨-, g1, c, hg1, -, rfl⟩ := rebuildStep_cases ht
    have hid : s.1.root e ∈ s.1.updated := hg.waiting e mem_cons_self
    have hrest : Logged g₀ todo s.1 :=
      ⟨hg.root, hg.nodes, fun i hi => hg.waiting i (mem_cons_of_mem e hi)⟩
    exact ih ((hrest.repair hid hg1).of_eq rfl rfl rfl rfl) hs

theorem rebuild (hg : Logged g₀ [] g) (hr : g.rebuild h fuel = some g') : Logged g₀ [] g' := by
  simp only [EGraph.rebuild, bind_eq_some] at hr
  obtain ⟨s, hloop, hclear⟩ := hr
  have hbody : ∀ t t', Logged g₀ [] t.1 → LoopStep rebuildOut (rebuildBody h) t t' →
      Logged g₀ [] t'.1 := by
    rintro t t' ht ⟨-, fuel, hbody⟩
    refine foldlM_rebuildStep (s := ({ t.1 with worklist := [] }, t.2)) ⟨ht.root, ht.nodes, ?_⟩
      hbody
    intro e he
    rw [append_nil] at he
    exact ht.waiting e he
  obtain ⟨t, ht, hout⟩ := (isLoop_rebuildLoop h).invariant _ hbody hg hloop
  obtain ⟨rfl, -⟩ := rebuildOut_eq_some hout
  have hcleared := clearCaches_cases hclear
  have hnodes : ∀ k c, s.1.classes.lookup k = some c →
      ∃ c', g'.classes.lookup k = some c' ∧ c'.nodes = c.nodes := by
    intro k c hc
    rcases hcleared.classes k with heq | ⟨d, hd, heq⟩
    · exact ⟨c, heq.trans hc, rfl⟩
    · cases hd.symm.trans hc
      exact ⟨_, heq, rfl⟩
  have hup := hcleared.updated
  obtain ⟨cs, up, clock, rfl⟩ := hcleared.frame
  exact ht.of_nodes rfl hup rfl fun k c hc _ => hnodes k c hc

end Logged

end EGraph

/-! ### Constant propagation -/

namespace EGraphConstantPropagator

open EGraph

variable {p p' : EGraphConstantPropagator} {g₀ : EGraph}

def KnowsConstants (p : EGraphConstantPropagator) : Prop :=
  ∀ k c, p.graph.classes.lookup k = some c → c.isConstant = true → k ∈ p.constants

theorem start_knowsConstants (h : HashOrder) (g : EGraph) : (start h g).KnowsConstants :=
  fun _ c hc hconst => mem_start_constants.mpr ⟨c, hc, hconst⟩

theorem Folded.logged (hw : p.graph.WellFormed) (hk : p.KnowsConstants) {m : ConstpropMerge}
    {c : EClass} (hc : p.graph.classes.lookup m.id = some c) (hid : m.id ∉ p.constants)
    (hf : Folded p m c.nodes p') (hg : Logged g₀ [] p.graph) :
    Logged g₀ [] p'.graph ∧ p'.KnowsConstants := by
  obtain ⟨k, g1, r, g2, hadd, hmrg, hconstants, hgr⟩ := hf.graph
  obtain ⟨-, hlt, rfl, hcases⟩ := merge_cases hmrg
  have hclasses : ∀ l d, g1.classes.lookup l = some d → d.isConstant = true →
      l = g1.root k ∨ l ∈ p.constants := by
    intro l d hd hconst
    obtain ⟨-, ⟨-, rfl⟩ | ⟨rfl, hadded⟩⟩ := add_cases hadd
    · exact .inr (hk l d hd hconst)
    · obtain ⟨e, ps, rfl, ⟨rfl, -⟩ | he, -⟩ := hadded.lookup_cases hd
      · rw [hadded.root]
        exact .inl (p.graph.unionFind.find_of_size_le le_rfl).symm
      · exact .inr (hk l e he hconst)
  have hne : g1.root k ≠ g1.root m.id := by
    intro heq
    obtain ⟨-, ⟨hlook, rfl⟩ | ⟨rfl, hadded⟩⟩ := add_cases hadd
    · obtain ⟨d, hd, hconst⟩ := (hw.hashcons _ _ hlook).constant rfl
      have hmem := hk _ d hd hconst
      change p.graph.root k = p.graph.root m.id at heq
      rw [heq, hw.root_eq hc] at hmem
      exact hid hmem
    · have hsize : p.graph.root p.graph.size = p.graph.size :=
        p.graph.unionFind.find_of_size_le le_rfl
      rw [hadded.root, hadded.root, hsize, hw.root_eq hc] at heq
      exact (hw.lt hc).ne' heq
  have hmgd : Merged g1 k m.id g2 := hcases.resolve_left fun h => hne h.1
  have hlogged := (hg.add hadd).merged hmgd
  have hr : g2.root (g1.root k) = g1.root k := hmgd.root_left
  rw [hgr]
  refine ⟨hlogged.push ?_, fun l d hd hconst => ?_⟩
  · rw [hr, hmgd.updated]
    exact mem_insert_self
  · rw [hgr] at hd
    rw [hconstants]
    obtain ⟨c1, c2, cm, -, -, -, hlook⟩ := hmgd.classes
    change g2.classes.lookup l = some d at hd
    rw [hlook] at hd
    split_ifs at hd with hlj hli
    · exact hli ▸ mem_insert_self
    · rcases hclasses l d hd hconst with rfl | hmem
      · exact mem_insert_self
      · exact mem_insert_of_mem hmem

theorem visit_logged (hw : p.graph.WellFormed) (hk : p.KnowsConstants) (hg : Logged g₀ [] p.graph)
    (hv : p.visit id = some p') : Logged g₀ [] p'.graph ∧ p'.KnowsConstants := by
  rcases visit_cases hv with rfl | ⟨⟨-, hid⟩, c, m, hc, rfl, hf⟩
  · exact ⟨hg, hk⟩
  · exact hf.logged hw hk hc hid hg

end EGraphConstantPropagator

namespace EGraph.Logged

open EGraphConstantPropagator

variable {g₀ g g' : EGraph} {h : HashOrder}

theorem constprop {p : EGraphConstantPropagator} (hw : g.WellFormed) (hg : Logged g₀ [] g)
    (hp : g.constprop h = some p) : Logged g₀ [] p.graph := by
  refine (foldlM_invariant (fun q : EGraphConstantPropagator => q.graph.WellFormed ∧
    Logged g₀ [] q.graph ∧ q.KnowsConstants) ?_ hp
    ⟨start_wellFormed (h := h) hw, hg.of_eq rfl rfl rfl rfl, start_knowsConstants h g⟩).2.1
  rintro q id q' _ hv ⟨hwq, hgq, hkq⟩
  exact ⟨(visit_wellFormed hwq hv).1, visit_logged hwq hkq hgq hv⟩

theorem calls {a a' : GraphAccessor} (hg : Logged g₀ [] a.graph)
    (hcalls : GraphAccessor.Calls a a') : Logged g₀ [] a'.graph := by
  induction hcalls with
  | refl => exact hg
  | tail _ hcall ih =>
    cases hcall with
    | add ha =>
      obtain ⟨r, hr, heq⟩ := map_eq_some_iff.mp ha
      cases heq
      exact ih.add hr
    | addOperation ha =>
      obtain ⟨r, hr, heq⟩ := map_eq_some_iff.mp ha
      cases heq
      exact ih.addOperation hr
    | merge i j => rwa [GraphAccessor.Ok.graph_merge]
    | updateCost hu => exact ih.sameShape (GraphAccessor.updateCost_recosted hu).sameShape
    | note e => exact ih

theorem persist {a : GraphAccessor} (hg : Logged g₀ [] a.graph) (hp : a.persist = some g) :
    Logged g₀ [] g := by
  refine foldlM_invariant (Logged g₀ []) ?_ hp hg
  intro t p t' _ ht hlogged
  obtain ⟨r, hr, rfl⟩ := map_eq_some_iff.mp ht
  exact hlogged.merge hr

end EGraph.Logged

end Caffeine
