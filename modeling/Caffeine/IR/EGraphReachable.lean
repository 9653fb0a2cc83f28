import Caffeine.IR.EGraphMatcherSound
import Caffeine.IR.EGraphWellFormed

/-!
# Reachable e-graphs

The graphs that arise from an empty one by adding, merging, rebuilding, constant propagation and
extraction, also inside of a saturation. They are well formed, and an update is recorded whenever a
repair is pending.
-/

namespace Caffeine

open List Option

theorem insert_ne_nil {α : Type*} [DecidableEq α] (a : α) (l : List α) : l.insert a ≠ [] :=
  ne_nil_of_mem mem_insert_self

variable {i : Nat}

namespace EGraph

def Tracked (g : EGraph) : Prop := g.updated = [] → g.worklist = []

variable {id : Nat}

section Updates

variable {g g' : EGraph} {h : HashOrder} {fuel : Nat}

theorem add_updated {n : ENode} (ha : g.add n = some (i, g')) :
    g.updated ⊆ g'.updated ∧ (g.Tracked → g'.Tracked) := by
  obtain ⟨-, ⟨-, rfl⟩ | ⟨-, hadded⟩⟩ := add_cases ha
  · exact ⟨Subset.refl _, fun htracked => htracked⟩
  · refine ⟨fun i hi => ?_, fun _ hnil => ?_⟩
    · rw [hadded.updated]
      exact mem_insert_of_mem hi
    · rw [hadded.updated] at hnil
      exact absurd hnil (insert_ne_nil _ _)

theorem merge_updated {j r : Nat} (hm : g.merge i j = some (r, g')) :
    g.updated ⊆ g'.updated ∧ (g.Tracked → g'.Tracked) := by
  obtain ⟨-, -, -, ⟨-, rfl⟩ | hmgd⟩ := merge_cases hm
  · exact ⟨Subset.refl _, fun htracked => htracked⟩
  · refine ⟨fun i hi => ?_, fun _ hnil => ?_⟩
    · rw [hmgd.updated]
      exact mem_insert_of_mem hi
    · rw [hmgd.updated] at hnil
      exact absurd hnil (insert_ne_nil _ _)

theorem addOperation_tracked {o : Operation} (ha : g.addOperation o = some (i, g'))
    (hg : g.Tracked) : g'.Tracked :=
  addOperation_stays Tracked (fun _ _ _ _ hg ha => (add_updated ha).2 hg) hg ha

theorem unparent_updated (hu : g.unparent id = some g') : g'.updated = g.updated := by
  obtain ⟨c, index, -, -, ⟨-, rfl⟩ | ⟨g1, c1, node, hp, -, -, -, rfl⟩⟩ := unparent_cases hu
  · rfl
  · obtain ⟨cs, ev, rfl⟩ := hp.frame
    rfl

theorem turn_updated {s s' : RepairState} (ht : s.turn id = some s') :
    s.graph.updated ⊆ s'.graph.updated := by
  obtain ⟨p, rest, -, -, ⟨-, -, rfl⟩ | ⟨other, r, g1, -, hm, rfl, -⟩⟩ :=
    RepairState.turn_cases ht
  · exact Subset.refl _
  · exact (merge_updated hm).1

theorem repair_updated (hr : g.repair h fuel id = some g') : g.updated ⊆ g'.updated := by
  obtain ⟨c, g1, c1, g2, g3, ps, c3, -, hun, -, hrehash, hloop, -, -, rfl⟩ := repair_cases hr
  have h1 : g1.updated = g.updated := by
    rcases hun with ⟨-, hun⟩ | ⟨-, rfl⟩
    · exact unparent_updated hun
    · rfl
  have h2 : g2.updated = g1.updated := by
    refine foldlM_invariant (fun s => s.updated = g1.updated) ?_ hrehash rfl
    intro s p s' _ hs hup
    obtain ⟨-, -, rfl⟩ := rehash_cases hs
    exact hup
  have h3 : g2.updated ⊆ g3.updated :=
    repairParents_invariant (fun s => g2.updated ⊆ s.graph.updated)
      (fun _ _ hs ht => Subset.trans hs (turn_updated ht)) hloop (Subset.refl _)
  rwa [h2, h1] at h3

theorem rebuild_updated (hs : g.rebuild h fuel = some g') : g.updated ⊆ g'.updated := by
  simp only [rebuild, bind_eq_some] at hs
  obtain ⟨s, hloop, hclear⟩ := hs
  have hsub : g.updated ⊆ s.1.updated := by
    refine (rebuildLoop_invariant (fun t => g.updated ⊆ t.1.updated) ?_ ?_ hloop (Subset.refl _)).1
    · exact fun _ _ hsub => hsub
    · intro fuel t e t' hsub hstep
      obtain ⟨-, g1, c, hg1, -, rfl⟩ := rebuildStep_cases hstep
      have hrepair := repair_updated hg1
      exact Subset.trans hsub hrepair
  exact Subset.trans hsub (clearCaches_cases hclear).updated

theorem rebuild_of_worklist_nil (hw : g.worklist = []) (hs : g.rebuild h fuel = some g') :
    g' = g := by
  simp only [rebuild, bind_eq_some] at hs
  obtain ⟨s, hloop, hclear⟩ := hs
  cases fuel with
  | zero => cases hloop
  | succ fuel =>
    unfold rebuildLoop at hloop
    rw [if_pos hw] at hloop
    cases hloop
    cases hclear
    rfl

end Updates

end EGraph

namespace EGraphConstantPropagator

open EGraph

variable {p p' : EGraphConstantPropagator} {id : Nat}

def start (h : HashOrder) (g : EGraph) : EGraphConstantPropagator where
  graph := g.tick
  constants := ((h.order g.trace.clock g.classes.pairs).filter (·.2.isConstant)).map Prod.fst

def queue (h : HashOrder) (g : EGraph) : List Nat :=
  ((h.order g.trace.clock g.classes.pairs).filter (!·.2.isConstant)).map Prod.fst

theorem constprop_eq (h : HashOrder) (g : EGraph) :
    g.constprop h = (queue h g).foldlM visit (start h g) := rfl

variable {h : HashOrder} {g : EGraph}

theorem mem_start_constants {k : Nat} :
    k ∈ (start h g).constants ↔ ∃ c, g.classes.lookup k = some c ∧ c.isConstant = true := by
  simp only [start, List.mem_map, mem_filter, h.mem_order, Prod.exists, Map.mem_pairs]
  constructor
  · rintro ⟨k', c, hc, rfl⟩
    exact ⟨c, hc⟩
  · rintro ⟨c, hc⟩
    exact ⟨k, c, hc, rfl⟩

theorem mem_queue {k : Nat} :
    k ∈ queue h g ↔ ∃ c, g.classes.lookup k = some c ∧ c.isConstant = false := by
  simp only [queue, List.mem_map, mem_filter, h.mem_order, Prod.exists, Map.mem_pairs,
    Bool.not_eq_true']
  constructor
  · rintro ⟨k', c, hc, rfl⟩
    exact ⟨c, hc⟩
  · rintro ⟨c, hc⟩
    exact ⟨k, c, hc, rfl⟩

theorem operandsConstant_cases {ops : List Nat} {b : Bool} (h : p.operandsConstant ops = some b) :
    b = true ↔ ∀ o ∈ ops, p.graph.root o ∈ p.constants := by
  induction ops with
  | nil =>
    cases h
    simp
  | cons o ops ih =>
    simp only [operandsConstant, bind_eq_some, find_eq_some] at h
    obtain ⟨id, ⟨-, rfl⟩, h⟩ := h
    rw [forall_mem_cons]
    split_ifs at h with hmem
    · rw [ih h, and_iff_right hmem]
    · cases h
      exact iff_of_false Bool.false_ne_true fun hall => hmem hall.1

theorem Folded.wellFormed (hp : p.graph.WellFormed) {m : ConstpropMerge} {nodes : List ENode}
    (hf : Folded p m nodes p') : p'.graph.WellFormed ∧ Grown p.graph p'.graph := by
  obtain ⟨k, g1, r, g2, hadd, hmrg, -, hg⟩ := hf.graph
  obtain ⟨hw1, hgrown1, -, -⟩ := hp.add hadd
  obtain ⟨hw2, hgrown2, hr⟩ := hw1.merge hmrg
  rw [hg]
  refine ⟨hw2.of_eq rfl rfl rfl (fun i hi => ?_) hw2.updated,
    hgrown1.trans (hgrown2.trans (Grown.of_eq rfl rfl))⟩
  rcases mem_append.mp hi with hi | hi
  · exact hw2.worklist i hi
  · exact mem_singleton.mp hi ▸ hr

theorem visit_wellFormed (hp : p.graph.WellFormed) (hv : p.visit id = some p') :
    p'.graph.WellFormed ∧ Grown p.graph p'.graph := by
  rcases visit_cases hv with rfl | ⟨-, c, m, -, -, hf⟩
  · exact ⟨hp, Grown.refl _⟩
  · exact hf.wellFormed hp

theorem visit_updated (hv : p.visit id = some p') : p.graph.updated ⊆ p'.graph.updated := by
  rcases visit_cases hv with rfl | ⟨-, c, m, -, -, hf⟩
  · exact Subset.refl _
  · obtain ⟨k, g1, r, g2, hadd, hmrg, -, hg⟩ := hf.graph
    rw [hg]
    exact Subset.trans (add_updated hadd).1 (merge_updated hmrg).1

theorem Folded.updated_ne_nil (hp : p.graph.WellFormed) {m : ConstpropMerge} {nodes : List ENode}
    (hf : Folded p m nodes p') (hid : ¬ p.graph.ConstantAt m.id) : p'.graph.updated ≠ [] := by
  obtain ⟨k, g1, r, g2, hadd, hmrg, -, hg⟩ := hf.graph
  rw [hg]
  obtain ⟨-, ⟨hlook, rfl⟩ | ⟨-, hadded⟩⟩ := add_cases hadd
  · obtain ⟨-, -, -, ⟨heq, -⟩ | hmgd⟩ := merge_cases hmrg
    · refine absurd ?_ hid
      obtain ⟨c, hc, hconst⟩ := (hp.hashcons _ _ hlook).constant rfl
      exact ⟨c, heq ▸ hc, hconst⟩
    · change g2.updated ≠ []
      rw [hmgd.updated]
      exact insert_ne_nil _ _
  · have hne : g1.updated ≠ [] := hadded.updated ▸ insert_ne_nil _ _
    exact fun hnil => hne (subset_nil.mp (hnil ▸ (merge_updated hmrg).1))

theorem start_wellFormed (hg : g.WellFormed) : (start h g).graph.WellFormed := hg.tick

theorem visit_start (hg : g.WellFormed) (hid : id ∈ queue h g)
    (hv : (start h g).visit id = some p') :
    p' = start h g ∨ p'.graph.updated ≠ [] := by
  rcases visit_cases hv with rfl | ⟨⟨hroot, -⟩, c, m, hc, rfl, hf⟩
  · exact .inl rfl
  · refine .inr (hf.updated_ne_nil (start_wellFormed hg) ?_)
    rintro ⟨c', hc', hconst⟩
    obtain ⟨d, hd, hnot⟩ := mem_queue.mp hid
    rw [hroot] at hc'
    cases Map.lookup_unique (m := g.classes) hd hc'
    rw [hconst] at hnot
    cases hnot

end EGraphConstantPropagator

namespace EGraph

open EGraphConstantPropagator

section Constprop

variable {g : EGraph} {h : HashOrder} {p : EGraphConstantPropagator}

theorem constprop_wellFormed (hg : g.WellFormed) (hrun : g.constprop h = some p) :
    p.graph.WellFormed :=
  foldlM_invariant (fun p => p.graph.WellFormed)
    (fun _ _ _ _ hv hp => (visit_wellFormed hp hv).1) hrun (start_wellFormed hg)

theorem constprop_stays (hg : g.WellFormed) (hrun : g.constprop h = some p)
    (hup : p.graph.updated = []) :
    p = start h g ∧ ∀ id ∈ queue h g, (start h g).visit id = some (start h g) := by
  rw [constprop_eq] at hrun
  refine foldlM_stays (fun p => p.graph.updated ≠ []) ?_ ?_ hrun (not_not.mpr hup)
  · exact fun id hid p' hv => visit_start hg hid hv
  · intro q id q' hv hq hnil
    exact hq (subset_nil.mp (hnil ▸ visit_updated hv))

theorem constprop_tracked (hg : g.WellFormed) (ht : g.Tracked) (hrun : g.constprop h = some p) :
    p.graph.Tracked := by
  intro hup
  obtain ⟨rfl, -⟩ := constprop_stays hg hrun hup
  exact ht hup

end Constprop

/-- The graphs that can arise. Saturation forgets the updates at the start of a round. -/
inductive Reachable : EGraph → Prop
  | empty : Reachable {}
  | add {g g' : EGraph} {n : ENode} {i : Nat} (hg : Reachable g) (h : g.add n = some (i, g')) :
    Reachable g'
  | addOperation {g g' : EGraph} {o : Operation} {i : Nat} (hg : Reachable g)
    (h : g.addOperation o = some (i, g')) : Reachable g'
  | merge {g g' : EGraph} {i j r : Nat} (hg : Reachable g) (h : g.merge i j = some (r, g')) :
    Reachable g'
  | rebuild {g g' : EGraph} {order : HashOrder} {fuel : Nat} (hg : Reachable g)
    (h : g.rebuild order fuel = some g') : Reachable g'
  | constprop {g : EGraph} {order : HashOrder} {p : EGraphConstantPropagator} (hg : Reachable g)
    (h : g.constprop order = some p) : Reachable p.graph
  | updateCost {g g' : EGraph} {fuel id : Nat} (hg : Reachable g)
    (h : EGraphExtractor.updateCost fuel g id = some g') : Reachable g'
  | extract {createRaw : Constructor} {fuel id : Nat}
    {x : EGraphExtractor} {r : Operation × EGraphExtractor} (hg : Reachable x.graph)
    (h : EGraphExtractor.extract createRaw fuel x id = some r) : Reachable r.2.graph
  | startRound {g : EGraph} (clock : Nat) (hg : Reachable g) (hw : g.worklist = []) :
    Reachable { g with updated := [], trace := { g.trace with clock := clock } }

theorem SameShape.tracked {g g' : EGraph} (h : SameShape g g') (ht : g.Tracked) : g'.Tracked := by
  obtain ⟨cs, rfl⟩ := h.frame
  exact ht

namespace Reachable

variable {g g' : EGraph}

theorem wellFormed_tracked (hg : Reachable g) : g.WellFormed ∧ g.Tracked := by
  induction hg with
  | empty => exact ⟨wellFormed_empty, fun h => h⟩
  | add _ h ih => exact ⟨(ih.1.add h).1, (add_updated h).2 ih.2⟩
  | addOperation _ h ih => exact ⟨(ih.1.addOperation h).1, addOperation_tracked h ih.2⟩
  | merge _ h ih => exact ⟨(ih.1.merge h).1, (merge_updated h).2 ih.2⟩
  | rebuild _ h ih => exact ⟨(ih.1.rebuild h).1, fun _ => (ih.1.rebuild h).2.2⟩
  | constprop _ h ih => exact ⟨constprop_wellFormed ih.1 h, constprop_tracked ih.1 ih.2 h⟩
  | updateCost _ h ih =>
    have hshape := (GraphAccessor.updateCost_recosted h).sameShape
    exact ⟨ih.1.sameShape hshape, hshape.tracked ih.2⟩
  | extract _ h ih =>
    have hshape := EGraphExtractor.extract_sameShape h
    exact ⟨ih.1.sameShape hshape, hshape.tracked ih.2⟩
  | startRound clock _ hw ih =>
    exact ⟨ih.1.of_eq rfl rfl rfl ih.1.worklist fun i hi => absurd hi not_mem_nil, fun _ => hw⟩

theorem wellFormed (hg : Reachable g) : g.WellFormed := hg.wellFormed_tracked.1

theorem tracked (hg : Reachable g) : g.Tracked := hg.wellFormed_tracked.2

theorem addOperands (hg : Reachable g) {ops : List Operation} {ids : List Nat}
    (h : g.addOperands ops = some (ids, g')) : Reachable g' :=
  (addOperands_invariant Reachable (fun _ _ _ _ _ hg h => hg.addOperation h) hg h).1

end Reachable

end EGraph

namespace EGraphSession

variable {h : HashOrder} {createRaw : Constructor}
variable {s s' : EGraphSession}

theorem exec_reachable {call : EGraphCall} (hs : s.graph.Reachable)
    (he : exec h createRaw s call = some s') : s'.graph.Reachable := by
  cases exec_cases he with
  | addNode hr => exact hs.add hr
  | add hr => exact hs.addOperation hr
  | merge hr => exact hs.merge hr
  | rebuild hr => exact hs.rebuild hr
  | extract hr => exact hs.extract hr

theorem run_reachable {calls : List EGraphCall} (hs : s.graph.Reachable)
    (hr : run h createRaw s calls = some s') : s'.graph.Reachable :=
  foldlM_invariant (fun s => s.graph.Reachable) (fun _ _ _ _ he hs => exec_reachable hs he) hr hs

end EGraphSession

namespace GraphAccessor

variable {a a' : GraphAccessor}

theorem Call.reachable (h : Call a a') (ha : a.graph.Reachable) : a'.graph.Reachable := by
  cases h with
  | add h =>
    obtain ⟨r, hr, heq⟩ := map_eq_some_iff.mp h
    cases heq
    exact ha.add hr
  | addOperation h =>
    obtain ⟨r, hr, heq⟩ := map_eq_some_iff.mp h
    cases heq
    exact ha.addOperation hr
  | merge i j => rwa [Ok.graph_merge]
  | updateCost h => exact ha.updateCost h
  | note e => exact ha

theorem Calls.reachable (h : Calls a a') (ha : a.graph.Reachable) : a'.graph.Reachable := by
  induction h with
  | refl => exact ha
  | tail _ hcall ih => exact hcall.reachable ih

theorem persist_reachable (ha : a.graph.Reachable) {g : EGraph} (h : a.persist = some g) :
    g.Reachable := by
  refine foldlM_invariant EGraph.Reachable ?_ h ha
  intro s p s' _ hs hrch
  obtain ⟨r, hr, rfl⟩ := map_eq_some_iff.mp hs
  exact hrch.merge hr

end GraphAccessor

end Caffeine
