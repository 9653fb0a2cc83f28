import Caffeine.IR.EGraphSession
import Mathlib.Order.Filter.AtTopBot.Basic
import Mathlib.Order.Filter.Finite

/-!
# Termination of extraction

`eval_cost` gives a class that is met again on the path the cost `UINT32_MAX`, and keeps the cost of
every class it leaves, also if found with a class above on the path. `extract` follows the nodes
chosen by these costs and returns only if they lead to no cycle.
-/

namespace Caffeine

open List Option

variable {id fuel k start : Nat} {c : EClass} {n : ENode} {operands : List Nat}
  {y : EGraphExtractor} {cost : EClassCost}

namespace EGraph

def EClassFresh (size : Nat) (c : EClass) : Prop :=
  c.cache = {} ∧ ∀ n ∈ c.nodes, ∀ o ∈ n.operands, o < size

structure Complete (g : EGraph) : Prop where
  classes : ∀ i < g.size, ∃ c, g.classes.lookup (g.root i) = some c
  fresh : ∀ k c, g.classes.lookup k = some c → EClassFresh g.size c

variable {h : HashOrder}

namespace Complete

variable {g g' : EGraph}

theorem empty : Complete {} where
  classes i hi := absurd hi (Nat.not_lt_zero i)
  fresh _ _ hc := nomatch hc

theorem of_eq (hg : Complete g) (hu : g'.unionFind = g.unionFind) (hc : g'.classes = g.classes) :
    Complete g' := by
  have hroot : ∀ i, g'.root i = g.root i := fun i => by rw [EGraph.root, hu]; rfl
  have hsize : g'.size = g.size := by rw [EGraph.size, hu]; rfl
  refine ⟨fun i hi => ?_, fun k c hk => ?_⟩
  · rw [hroot, hc]
    exact hg.classes i (hsize ▸ hi)
  · rw [hsize]
    exact hg.fresh k c (hc ▸ hk)

theorem setClass (hg : Complete g) (hc : EClassFresh g.size c) : Complete (g.setClass id c) where
  classes i hi := by
    rw [lookup_setClass]
    split_ifs
    · exact ⟨c, rfl⟩
    · exact hg.classes i hi
  fresh k d hd := by
    rw [lookup_setClass] at hd
    split_ifs at hd
    · cases hd
      exact hc
    · exact hg.fresh k d hd

theorem merge (hg : Complete g) {i j r : Nat} (h : g.merge i j = some (r, g')) : Complete g' := by
  obtain ⟨hi, -, -, ⟨-, rfl⟩ | hm⟩ := merge_cases h
  · exact hg
  obtain ⟨c1, c2, c, h1, h2, hc, hlook⟩ := hm.classes
  refine ⟨fun k hk => ?_, fun k d hd => ?_⟩
  · rw [hm.root, hlook]
    rw [hm.size] at hk
    by_cases hkj : g.root k = g.root j
    · rw [if_pos hkj, if_neg hm.ne, if_pos rfl]
      exact ⟨c, rfl⟩
    · rw [if_neg hkj, if_neg hkj]
      split_ifs
      · exact ⟨c, rfl⟩
      · exact hg.classes k hk
  · rw [hlook] at hd
    rw [hm.size]
    split_ifs at hd
    · cases hd
      obtain ⟨hcache1, hops1⟩ := hg.fresh _ c1 h1
      obtain ⟨hcache2, hops2⟩ := hg.fresh _ c2 h2
      unfold EClass.merge at hc
      split_ifs at hc
      cases hc
      refine ⟨?_, fun n hn => (mem_append.mp hn).elim (hops1 n) (hops2 n)⟩
      change c1.mergeCache c2 = {}
      unfold EClass.mergeCache
      split
      · exact hcache2
      · exact hcache1
      · rw [hcache1]
    · exact hg.fresh k d hd

theorem add (hg : Complete g) (h : g.add n = some (id, g')) : Complete g' := by
  obtain ⟨hlt, ⟨-, rfl⟩ | ⟨-, ha⟩⟩ := add_cases h
  · exact hg.of_eq rfl rfl
  have hcan : ∀ o ∈ (g.canon n).operands, o < g.size + 1 := by
    intro o ho
    obtain ⟨o', ho', rfl⟩ := List.mem_map.mp ho
    exact (g.root_lt (hlt o' ho')).trans (Nat.lt_succ_self _)
  refine ⟨fun k hk => ?_, fun k d hd => ?_⟩
  · have hlook : ∃ d, (g.classes.emplace g.size (EClass.ofNodes [g.canon n])).lookup (g.root k) =
        some d := by
      rw [Map.lookup_emplace]
      split_ifs with hnew
      · exact ⟨_, rfl⟩
      · by_cases hlast : k = g.size
        · have hroot : g.root k = g.size := by
            rw [hlast]
            exact g.unionFind.find_of_size_le le_rfl
          have hmem : g.size ∈ g.classes := by_contra fun hmem => hnew ⟨hroot, hmem⟩
          rw [hroot]
          exact Map.exists_lookup hmem
        · rw [ha.size] at hk
          exact hg.classes k (by omega)
    obtain ⟨d, hd⟩ := hlook
    rw [ha.root, ha.classes, hd]
    exact ⟨_, rfl⟩
  · rw [ha.classes, Map.lookup_emplace] at hd
    rw [ha.size]
    obtain ⟨d', hd', rfl⟩ := map_eq_some_iff.mp hd
    have hfr : EClassFresh (g.size + 1) d' := by
      split_ifs at hd' with hnew
      · cases hd'
        refine ⟨rfl, fun m hm => ?_⟩
        rw [mem_singleton.mp hm]
        exact hcan
      · obtain ⟨hcache, hops⟩ := hg.fresh k d' hd'
        exact ⟨hcache, fun m hm o ho => (hops m hm o ho).trans (Nat.lt_succ_self _)⟩
    split_ifs
    · exact hfr
    · exact hfr

theorem addOperation (hg : Complete g) {o : Operation} (h : g.addOperation o = some (id, g')) :
    Complete g' :=
  addOperation_stays Complete (fun _ _ _ _ hg h => hg.add h) hg h

theorem pruned (hg : Complete g) (hp : Pruned g g') : Complete g' where
  classes i hi := by
    obtain ⟨c, hc⟩ := hg.classes i (hp.size ▸ hi)
    rw [hp.root]
    exact isSome_iff_exists.mp (AList.lookup_isSome.mpr ((hp.keys _).mpr (Map.mem_of_lookup hc)))
  fresh k d hd := by
    obtain ⟨c, ps, hc, rfl, -, -⟩ := hp.classes k d hd
    rw [hp.size]
    exact hg.fresh k c hc

theorem unparent (hg : Complete g) (h : g.unparent id = some g') : Complete g' := by
  obtain ⟨c, index, hc, -, ⟨-, rfl⟩ | ⟨g1, c1, node, hp, hc1, hnodes, hnode, rfl⟩⟩ :=
    unparent_cases h
  · exact hg
  · have hg1 := hg.pruned hp
    obtain ⟨hcache, hops⟩ := hg1.fresh id c1 hc1
    refine hg1.setClass ⟨hcache, fun n hn => ?_⟩
    rw [mem_singleton.mp hn]
    exact hops node (hnodes ▸ mem_of_getElem? hnode)

theorem foldlM_rehash (hg : Complete g) {ps : List (ENode × Nat)}
    (h : ps.foldlM rehash g = some g') : Complete g' := by
  refine foldlM_invariant Complete ?_ h hg
  intro s p s' _ hs hcomplete
  obtain ⟨-, -, rfl⟩ := rehash_cases hs
  exact hcomplete.of_eq rfl rfl

theorem repairParents {ps ps' : Map ENode Nat} {l : List (ENode × Nat)} (hg : Complete g)
    (hr : g.repairParents id fuel ps l = some (g', ps')) : Complete g' := by
  refine repairParents_invariant (fun s => Complete s.graph) ?_ hr hg
  intro s s' hs ht
  obtain ⟨p, rest, -, -, ⟨-, -, rfl⟩ | ⟨other, r, g1, -, hm, rfl, -⟩⟩ :=
    RepairState.turn_cases ht
  · exact hs
  · exact hs.merge hm

theorem repair (hg : Complete g) (hr : g.repair h fuel id = some g') : Complete g' := by
  obtain ⟨c, g1, c1, g2, g3, ps, c3, -, hg1, -, hg2, hg3, hc3, hlt, rfl⟩ := repair_cases hr
  have hcomplete : Complete g1 := by
    obtain ⟨-, hu⟩ | ⟨-, rfl⟩ := hg1
    · exact hg.unparent hu
    · exact hg
  have htick : Complete g1.tick := hcomplete.of_eq rfl rfl
  have hcomplete3 : Complete g3 := (htick.foldlM_rehash hg2).repairParents hg3
  refine hcomplete3.setClass ⟨(hcomplete3.fresh id c3 hc3).1, fun n hn o ho => ?_⟩
  obtain ⟨m, hm, rfl⟩ := List.mem_map.mp hn
  obtain ⟨o', ho', rfl⟩ := List.mem_map.mp ho
  exact g3.root_lt (hlt m hm o' ho')

theorem rebuildLoop {s s' : EGraph × List Nat} (hg : Complete s.1)
    (hr : EGraph.rebuildLoop h fuel s = some s') : Complete s'.1 := by
  refine (rebuildLoop_invariant (fun t => Complete t.1) ?_ ?_ hr hg).1
  · exact fun g _ hg => hg.of_eq rfl rfl
  · intro fuel t e t' ht hstep
    obtain ⟨-, g, c, hg, -, rfl⟩ := rebuildStep_cases hstep
    exact (ht.repair hg).of_eq rfl rfl

theorem cleared (hg : Complete g) (hc : Cleared g g') : Complete g' := by
  have hroot : ∀ k, g'.root k = g.root k := by
    obtain ⟨cs, up, clock, rfl⟩ := hc.frame
    exact fun _ => rfl
  refine ⟨fun k hk => ?_, fun k d hd => ?_⟩
  · obtain ⟨c, hlook⟩ := hg.classes k (hc.size ▸ hk)
    rw [hroot]
    rcases hc.classes (g.root k) with heq | ⟨d, -, heq⟩
    · exact ⟨c, heq.trans hlook⟩
    · exact ⟨_, heq⟩
  · rw [hc.size]
    rcases hc.classes k with heq | ⟨c, hlook, heq⟩
    · exact hg.fresh k d (heq ▸ hd)
    · rw [heq] at hd
      cases hd
      exact ⟨rfl, (hg.fresh k c hlook).2⟩

theorem rebuild (hg : Complete g) (hr : g.rebuild h fuel = some g') : Complete g' := by
  simp only [EGraph.rebuild, bind_eq_some] at hr
  obtain ⟨s, hs, hr⟩ := hr
  exact (hg.rebuildLoop (s := (g, [])) hs).cleared (clearCaches_cases hr)

end Complete

structure Recached (g g' : EGraph) : Prop where
  size : g'.size = g.size
  root : ∀ k, g'.root k = g.root k
  nodes : ∀ k, (g'.classes.lookup k).map EClass.nodes = (g.classes.lookup k).map EClass.nodes

namespace Recached

variable {g g' g'' : EGraph}

theorem refl (g : EGraph) : Recached g g := ⟨rfl, fun _ => rfl, fun _ => rfl⟩

theorem trans (h : Recached g g') (h' : Recached g' g'') : Recached g g'' :=
  ⟨h'.size.trans h.size, fun k => (h'.root k).trans (h.root k),
    fun k => (h'.nodes k).trans (h.nodes k)⟩

theorem setClass {d : EClass} (hc : g.classes.lookup id = some c) (hd : d.nodes = c.nodes) :
    Recached g (g.setClass id d) where
  size := rfl
  root _ := rfl
  nodes k := by
    rw [lookup_setClass]
    split_ifs with hk
    · rw [hk, hc, map_some, map_some, hd]
    · rfl

theorem get (h : Recached g g') (hid : id < g.size) (hc : g.classes.lookup (g.root id) = some c) :
    ∃ c', g'.get id = some c' ∧ g'.classes.lookup (g.root id) = some c' ∧ c'.nodes = c.nodes := by
  have hnodes := h.nodes (g.root id)
  rw [hc, map_some] at hnodes
  obtain ⟨c', hc', hn⟩ := map_eq_some_iff.mp hnodes
  refine ⟨c', get_eq_some.mpr ⟨h.size ▸ hid, ?_⟩, hc', hn⟩
  rw [h.root]
  exact hc'

end Recached

def Child (g : EGraph) (a b : Nat) : Prop :=
  ∃ c n o, g.classes.lookup a = some c ∧ n ∈ c.nodes ∧ o ∈ n.operands ∧ b = g.root o

def Reaches (g : EGraph) : Nat → Nat → Prop := Relation.ReflTransGen g.Child

def OnCycle (g : EGraph) (k : Nat) : Prop := Relation.TransGen g.Child k k

open Classical in
noncomputable def ceiling (g : EGraph) (bound : Nat → Nat) (k : Nat) : Nat :=
  if g.OnCycle k then 2 ^ 32 - 1 else bound k

/-- `bound` limits the cost of the class `k` through a node that does not lead back to it, and is
below the cost of a cycle. -/
structure Bounded (g : EGraph) (bound : Nat → Nat) (k : Nat) : Prop where
  exit : ∀ c, g.classes.lookup k = some c → ∃ n ∈ c.nodes,
    (∀ o ∈ n.operands, ¬ g.Reaches (g.root o) k) ∧
      EGraphExtractor.opcodeCost n.opcode + (n.operands.map fun o => bound (g.root o)).sum ≤ bound k
  cheap : g.OnCycle k → bound k ≤ 2 ^ 32 - 1
  fits : ∀ c, g.classes.lookup k = some c → c.nodes.length ≤ sizeMax ∧ ∀ n ∈ c.nodes,
    EGraphExtractor.opcodeCost n.opcode +
      (n.operands.map fun o => g.ceiling bound (g.root o)).sum < sizeMax

theorem Bounded.le_ceiling {g : EGraph} {bound : Nat → Nat} (h : g.Bounded bound k) :
    bound k ≤ g.ceiling bound k := by
  unfold ceiling
  split_ifs with hk
  · exact h.cheap hk
  · exact le_rfl

def Adds (g : EGraph) (known : Nat → Option EClassCost) (start : Nat) (operands : List Nat)
    (total : Nat) : Prop :=
  ∃ costs : List EClassCost,
    Forall₂ (fun o cost => known (g.root o) = some cost) operands costs ∧
      total = start + (costs.map EClassCost.cost).sum

theorem Adds.mono {g : EGraph} {known known' : Nat → Option EClassCost} {total : Nat}
    (h : ∀ k v, known k = some v → known' k = some v) (ha : Adds g known start operands total) :
    Adds g known' start operands total := by
  obtain ⟨costs, hcosts, htot⟩ := ha
  exact ⟨costs, hcosts.imp fun o cost hcost => h _ _ hcost, htot⟩

theorem Adds.known {g : EGraph} {known : Nat → Option EClassCost} {total : Nat}
    (ha : Adds g known start operands total) :
    ∀ o ∈ operands, ∃ cost, known (g.root o) = some cost := by
  obtain ⟨costs, hcosts, -⟩ := ha
  intro o ho
  obtain ⟨cost, -, hcost⟩ := forall₂_exists_left hcosts.flip ho
  exact ⟨cost, hcost⟩

/-- The costs choose a node of the class, and so on for its operands, down to leaves. -/
inductive Settled (g : EGraph) (known : Nat → Option EClassCost) : Nat → Prop where
  | intro {k : Nat} {cost : EClassCost} {c : EClass} {n : ENode}
      (evaluated : known k = some cost) (eclass : g.classes.lookup k = some c)
      (chosen : c.nodes[cost.index]? = some n)
      (adds : Adds g known (EGraphExtractor.opcodeCost n.opcode) n.operands cost.cost)
      (operands : ∀ o ∈ n.operands, Settled g known (g.root o)) : Settled g known k

def Chosen (g : EGraph) (costs : Map Nat EClassCost) (a b : Nat) : Prop :=
  ∃ cost c n o, costs.lookup a = some cost ∧ g.classes.lookup a = some c ∧
    c.nodes[cost.index]? = some n ∧ o ∈ n.operands ∧ b = g.root o

theorem Settled.not_leads_back {g : EGraph} {known : Nat → Option EClassCost}
    {costs : Map Nat EClassCost} (hcosts : ∀ k v, costs.lookup k = some v → known k = some v)
    (h : Settled g known k) : ¬ Relation.TransGen (g.Chosen costs) k k := by
  induction h with
  | @intro k cost c n evaluated eclass chosen _ _ ih =>
    intro hback
    obtain ⟨b, hb, hpath⟩ := Relation.TransGen.head'_iff.mp hback
    obtain ⟨cost', c', n', o, hcost, hc, hn, ho, rfl⟩ := id hb
    cases some.inj (evaluated.symm.trans (hcosts _ _ hcost))
    cases Map.lookup_unique eclass hc
    cases some.inj (chosen.symm.trans hn)
    exact ih o ho (Relation.TransGen.tail' hpath hb)

theorem Settled.mono {g : EGraph} {known known' : Nat → Option EClassCost}
    (h : ∀ k v, known k = some v → known' k = some v) (hk : Settled g known k) :
    Settled g known' k := by
  induction hk with
  | intro evaluated eclass chosen adds _ ih =>
    exact .intro (h _ _ evaluated) eclass chosen (adds.mono h) ih

end EGraph

namespace EGraphExtractor

open EGraph

def known (x : EGraphExtractor) (k : Nat) : Option EClassCost :=
  ((x.graph.classes.lookup k).bind fun c => c.cache.cost).or (x.costs.lookup k)

theorem known_eq {x : EGraphExtractor} (hc : x.graph.classes.lookup k = some c) :
    x.known k = c.cache.cost.or (x.costs.lookup k) := by
  rw [known, hc]
  rfl

def Pending (x : EGraphExtractor) (k : Nat) : Prop := k ∈ x.visited ∧ x.known k = none

structure Ready (g : EGraph) (bound : Nat → Nat) (x : EGraphExtractor) : Prop where
  same : Recached g x.graph
  costs : ∀ k cost, x.costs.lookup k = some cost → x.known k = some cost
  written : x.isConst = false → ∀ k cost, x.known k = some cost →
    ∃ c, x.graph.classes.lookup k = some c ∧ c.cache.cost = some cost
  settled : ∀ k cost, x.known k = some cost → Settled g x.known k ∧ cost.cost ≤ bound k

/-- Visited classes get costs, and those visited before keep theirs. -/
structure Later (x x' : EGraphExtractor) : Prop where
  known : ∀ k v, x.known k = some v → x'.known k = some v
  visited : ∀ k ∈ x.visited, k ∈ x'.visited
  fresh : ∀ k ∈ x'.visited, k ∈ x.visited ∨ ∃ v, x'.known k = some v
  old : ∀ k ∈ x.visited, x.known k = none → x'.known k = none

namespace Later

variable {x x' x'' : EGraphExtractor}

theorem refl (x : EGraphExtractor) : Later x x :=
  ⟨fun _ _ h => h, fun _ h => h, fun _ h => .inl h, fun _ _ h => h⟩

theorem trans (h : Later x x') (h' : Later x' x'') : Later x x'' where
  known k v hk := h'.known k v (h.known k v hk)
  visited k hk := h'.visited k (h.visited k hk)
  fresh k hk := by
    obtain hk | hk := h'.fresh k hk
    · obtain hk | ⟨v, hv⟩ := h.fresh k hk
      · exact .inl hk
      · exact .inr ⟨v, h'.known k v hv⟩
    · exact .inr hk
  old k hk hnone := h'.old k (h.visited k hk) (h.old k hk hnone)

theorem pending (h : Later x x') (hk : x'.Pending k) : x.Pending k := by
  obtain ⟨hvisd, hnone⟩ := hk
  have hold : x.known k = none := by
    cases hv : x.known k with
    | none => rfl
    | some v =>
      rw [h.known k v hv] at hnone
      cases hnone
  obtain hk | ⟨v, hv⟩ := h.fresh k hvisd
  · exact ⟨hk, hold⟩
  · rw [hv] at hnone
    cases hnone

end Later

structure Evaluated (g : EGraph) (bound : Nat → Nat) (x : EGraphExtractor) (k : Nat)
    (r : EClassCost × EGraphExtractor) : Prop where
  ready : Ready g bound r.2
  later : Later x r.2
  cost : r.1.cost = 2 ^ 32 - 1 ∧ x.Pending k ∨ r.2.known k = some r.1

structure Tallied (g : EGraph) (bound : Nat → Nat) (x y : EGraphExtractor) (ops : List Nat)
    (start : Nat) (r : Nat × EGraphExtractor) : Prop where
  ready : Ready g bound r.2
  later : Later y r.2
  start_le : start ≤ r.1
  le_ceiling : r.1 ≤ start + (ops.map fun o => g.ceiling bound (g.root o)).sum
  le_bound : (∀ o ∈ ops, ¬ x.Pending (g.root o)) →
    r.1 ≤ start + (ops.map fun o => bound (g.root o)).sum
  adds : r.1 < 2 ^ 32 ∨ (∀ o ∈ ops, ¬ x.Pending (g.root o)) → Adds g r.2.known start ops r.1

section EvalCost

variable {g : EGraph} {bound : Nat → Nat}
  {evalClass : EGraphExtractor → Nat → Option (EClassCost × EGraphExtractor)}

variable {x : EGraphExtractor}

theorem evalOperands_returns {ops : List Nat}
    (heval : ∀ y, Ready g bound y → Later x y → ∀ o ∈ ops, ∃ r, evalClass y o = some r ∧
      Evaluated g bound y (g.root o) r) (hbd : ∀ o ∈ ops, g.Bounded bound (g.root o))
    (hcyc : ∀ o ∈ ops, x.Pending (g.root o) → g.OnCycle (g.root o)) (hy : Ready g bound y)
    (hxy : Later x y) (hstart : 1 ≤ start)
    (hfits : start + (ops.map fun o => g.ceiling bound (g.root o)).sum < 2 ^ 64) :
    ∃ r, ops.foldlM (fun s operand => do
        let r ← evalClass s.2 operand
        some ((s.1 + r.1.cost) % 2 ^ 64, r.2)) (start, y) = some r ∧
      Tallied g bound x y ops start r := by
  induction ops generalizing y start with
  | nil =>
    exact ⟨(start, y), rfl, hy, Later.refl y, le_rfl, by simp, by simp, fun _ => ⟨[], .nil, rfl⟩⟩
  | cons o ops ih =>
    obtain ⟨⟨cost, y1⟩, hcall, hready, hlater, hcost⟩ := heval y hy hxy o mem_cons_self
    rw [map_cons, sum_cons] at hfits
    have hceiling : cost.cost ≤ g.ceiling bound (g.root o) := by
      obtain ⟨hpenalty, hpend⟩ | hknown := hcost
      · have hon := hcyc o mem_cons_self (hxy.pending hpend)
        rw [hpenalty, ceiling, if_pos hon]
      · exact (hready.settled _ _ hknown).2.trans (hbd o mem_cons_self).le_ceiling
    have hmod : (start + cost.cost) % 2 ^ 64 = start + cost.cost := Nat.mod_eq_of_lt (by omega)
    have hfits' : start + cost.cost + (ops.map fun o =>
      g.ceiling bound (g.root o)).sum < 2 ^ 64 := by
      omega
    obtain ⟨r, hr, htally⟩ := ih (fun y hy hxy o ho => heval y hy hxy o (mem_cons_of_mem _ ho))
      (fun o ho => hbd o (mem_cons_of_mem _ ho))
      (fun o ho => hcyc o (mem_cons_of_mem _ ho)) hready (hxy.trans hlater) (by omega) hfits'
    refine ⟨r, foldlM_cons_eq_some.mpr ⟨(start + cost.cost, y1), ?_, hr⟩, htally.ready,
      hlater.trans htally.later, (Nat.le_add_right _ _).trans htally.start_le, ?_, ?_, ?_⟩
    · change (evalClass y o).bind _ = _
      rw [hcall]
      exact congrArg (fun total => some (total, y1)) hmod
    · rw [map_cons, sum_cons]
      have hrest := htally.le_ceiling
      omega
    · intro hfree
      rw [map_cons, sum_cons]
      obtain ⟨ho, hops⟩ := forall_mem_cons.mp hfree
      obtain ⟨-, hpend⟩ | hknown := hcost
      · exact absurd (hxy.pending hpend) ho
      · have hle : cost.cost ≤ bound (g.root o) := (hready.settled _ _ hknown).2
        have hrest := htally.le_bound hops
        omega
    · intro hlow
      obtain ⟨hpenalty, hpend⟩ | hknown := hcost
      · obtain hlow | hfree := hlow
        · have hle := htally.start_le
          simp only at hpenalty
          omega
        · exact absurd (hxy.pending hpend) (hfree o mem_cons_self)
      · obtain ⟨costs, hcosts, htot⟩ := htally.adds
          (hlow.imp_right fun hfree o ho => hfree o (mem_cons_of_mem _ ho))
        refine ⟨cost :: costs, .cons (htally.later.known _ _ hknown) hcosts, ?_⟩
        rw [htot, map_cons, sum_cons, Nat.add_assoc]

theorem one_le_opcodeCost (op : Opcode) : 1 ≤ opcodeCost op := by
  unfold opcodeCost
  split <;> omega

structure Choosing (g : EGraph) (bound : Nat → Nat) (x : EGraphExtractor) (k : Nat)
    (nodes : List ENode) (done : List (ENode × Nat)) (s : EClassCost × EGraphExtractor) :
    Prop where
  ready : Ready g bound s.2
  later : Later x s.2
  low : ∀ p ∈ done, (∀ o ∈ p.1.operands, ¬ g.Reaches (g.root o) k) →
    s.1.cost ≤ opcodeCost p.1.opcode + (p.1.operands.map fun o => bound (g.root o)).sum
  chosen : s.1.cost = sizeMax ∨ ∃ n, nodes[s.1.index]? = some n ∧
    (s.1.cost < 2 ^ 32 ∨ ¬ g.OnCycle k → Adds g s.2.known (opcodeCost n.opcode) n.operands s.1.cost)

theorem evalNodes_returns
    (heval : ∀ y, Ready g bound y → Later x y → ∀ o, o < g.size → g.Child k (g.root o) →
      ∃ r, evalClass y o = some r ∧ Evaluated g bound y (g.root o) r)
    (hc : g.classes.lookup k = some c) (hids : ∀ n ∈ c.nodes, ∀ o ∈ n.operands, o < g.size)
    (hk : g.Bounded bound k) (hch : ∀ b, g.Child k b → g.Bounded bound b)
    (hpath : ∀ p, x.Pending p → g.Reaches p k) (hx : Ready g bound x) :
    ∃ r, evalNodes evalClass x c.nodes = some r ∧ Ready g bound r.2 ∧ Later x r.2 ∧
      r.1.cost ≤ bound k ∧ ∃ n, c.nodes[r.1.index]? = some n ∧
        Adds g r.2.known (opcodeCost n.opcode) n.operands r.1.cost := by
  have hstep : ∀ done p rest s, c.nodes.zipIdx = done ++ p :: rest →
      Choosing g bound x k c.nodes done s → ∃ s', (do
        let r ← evalNodeCost evalClass s.2 p.1
        some (if r.1 < s.1.cost then ⟨r.1, p.2⟩ else s.1, r.2)) = some s' ∧
          Choosing g bound x k c.nodes (done ++ [p]) s' := by
    rintro done ⟨n, i⟩ rest s hspl hs
    have hi : c.nodes[i]? = some n := by
      rw [← mk_mem_zipIdx_iff_getElem?, hspl]
      exact mem_append_right _ mem_cons_self
    have hn := mem_of_getElem? hi
    have hops : ∀ o ∈ n.operands, g.Child k (g.root o) := fun o ho => ⟨c, n, o, hc, hn, ho, rfl⟩
    have hcyc : ∀ o ∈ n.operands, x.Pending (g.root o) → g.OnCycle (g.root o) :=
      fun o ho hpend => Relation.TransGen.tail' (hpath _ hpend) (hops o ho)
    obtain ⟨r, hr, htally⟩ := evalOperands_returns
      (fun y hy hxy o ho => heval y hy hxy o (hids n hn o ho) (hops o ho))
      (fun o ho => hch _ (hops o ho)) hcyc hs.ready hs.later (one_le_opcodeCost n.opcode)
      (((hk.fits c hc).2 n hn).trans (by decide))
    have hcall : evalNodeCost evalClass s.2 n = some r := hr
    refine ⟨(if r.1 < s.1.cost then ⟨r.1, i⟩ else s.1, r.2), by simp [hcall], htally.ready,
      hs.later.trans htally.later, ?_, ?_⟩
    · intro p hp hexit
      obtain hp | hp := mem_append.mp hp
      · have hle := hs.low p hp hexit
        split_ifs with hless
        · exact hless.le.trans hle
        · exact hle
      · obtain rfl := mem_singleton.mp hp
        have hle := htally.le_bound fun o ho hpend => hexit o ho (hpath _ hpend)
        split_ifs with hless
        · exact hle
        · exact (not_lt.mp hless).trans hle
    · split_ifs with hless
      · refine .inr ⟨n, hi, fun hlow => htally.adds (hlow.imp_right fun hoff o ho hpend => ?_)⟩
        exact hoff (Relation.TransGen.head' (hops o ho) (hpath _ hpend))
      · refine hs.chosen.imp_right ?_
        rintro ⟨m, hm, hknown⟩
        exact ⟨m, hm, fun hlow => (hknown hlow).mono htally.later.known⟩
  obtain ⟨r, hr, hlast⟩ := foldlM_exists_done (Choosing g bound x k c.nodes) hstep
    (s := (⟨sizeMax, sizeMax⟩, x)) ⟨hx, Later.refl x, (fun p hp => nomatch hp), .inl rfl⟩
  obtain ⟨n, hn, hexit, hle⟩ := hk.exit c hc
  obtain ⟨i, hi⟩ := List.getElem?_of_mem hn
  have hlow : r.1.cost ≤ opcodeCost n.opcode + (n.operands.map fun o => bound (g.root o)).sum :=
    hlast.low (n, i) (mk_mem_zipIdx_iff_getElem?.mpr hi) hexit
  refine ⟨r, hr, hlast.ready, hlast.later, hlow.trans hle, ?_⟩
  obtain hmax | ⟨m, hm, hknown⟩ := hlast.chosen
  · have hsum : (n.operands.map fun o => bound (g.root o)).sum ≤
        (n.operands.map fun o => g.ceiling bound (g.root o)).sum :=
      sum_le_sum fun o ho => (hch _ ⟨c, n, o, hc, hn, ho, rfl⟩).le_ceiling
    have hfits := (hk.fits c hc).2 n hn
    omega
  · refine ⟨m, hm, hknown ?_⟩
    by_cases hon : g.OnCycle k
    · have hcheap := hk.cheap hon
      exact .inl (by omega)
    · exact .inr hon

theorem known_eq_none : x.known k = none ↔
    (∀ c, x.graph.classes.lookup k = some c → c.cache.cost = none) ∧ x.costs.lookup k = none := by
  rw [known, or_eq_none_iff, bind_eq_none_iff]

theorem known_updateCachedCost (hk : x.known k = none) (hroot : x.graph.root k = k)
    (cost : EClassCost) (j : Nat) :
    (x.updateCachedCost k cost).known j = if j = k then some cost else x.known j := by
  obtain ⟨hcache, hcosts⟩ := known_eq_none.mp hk
  have hnew : k ∉ x.costs := AList.lookup_eq_none.mp hcosts
  have hlook : (x.updateCachedCost k cost).costs.lookup j =
      if j = k then some cost else x.costs.lookup j := by
    change (x.costs.emplace k cost).lookup j = _
    rw [Map.lookup_emplace]
    simp only [hnew, not_false_eq_true, and_true]
  have hgr := x.updateClass_cases k (fun c => c.withCost cost)
  rw [hroot] at hgr
  rw [known, hlook]
  change (((x.updateClass k fun c => c.withCost cost).classes.lookup j).bind _).or _ = _
  obtain h | ⟨d, hd, h⟩ := hgr
  · rw [h]
    split_ifs with hj
    · rw [hj, bind_eq_none_iff.mpr hcache, none_or]
    · rfl
  · rw [h, lookup_setClass]
    split_ifs
    · rfl
    · rfl

theorem Ready.updateCachedCost (hx : Ready g bound x) (hk : x.known k = none) (hlt : k < g.size)
    (hroot : g.root k = k) (hc : g.classes.lookup k = some c) (hn : c.nodes[cost.index]? = some n)
    (hadds : Adds g x.known (opcodeCost n.opcode) n.operands cost.cost)
    (hle : cost.cost ≤ bound k) : Ready g bound (x.updateCachedCost k cost) := by
  have hknown := known_updateCachedCost hk ((hx.same.root k).trans hroot) cost
  have hmono : ∀ j v, x.known j = some v → (x.updateCachedCost k cost).known j = some v := by
    intro j v hj
    rw [hknown, if_neg, hj]
    rintro rfl
    rw [hk] at hj
    cases hj
  have hsettled : ∀ j v, x.known j = some v →
      Settled g (x.updateCachedCost k cost).known j ∧ v.cost ≤ bound j := fun j v hj =>
    ⟨(hx.settled j v hj).1.mono hmono, (hx.settled j v hj).2⟩
  refine ⟨?_, fun j v hj => ?_, fun hconst j v hj => ?_, fun j v hj => ?_⟩
  · change Recached g (x.updateClass k (fun c => c.withCost cost))
    obtain h | ⟨d, hd, h⟩ := x.updateClass_cases k (fun c => c.withCost cost)
    · rw [h]
      exact hx.same
    · rw [h]
      exact hx.same.trans (Recached.setClass hd rfl)
  · change (x.costs.emplace k cost).lookup j = some v at hj
    rw [Map.lookup_emplace] at hj
    rw [hknown]
    split_ifs at hj with hnew
    · rw [if_pos hnew.1, hj]
    · have hjv := hx.costs j v hj
      rw [if_neg, hjv]
      rintro rfl
      rw [hk] at hjv
      cases hjv
  · obtain ⟨d, hget, -, -⟩ := hx.same.get hlt (hroot.symm ▸ hc)
    change ∃ c, (x.updateClass k fun c => c.withCost cost).classes.lookup j = some c ∧ _
    have hconst' : x.isConst = false := hconst
    rw [updateClass_eq hconst' hget, hx.same.root, hroot, lookup_setClass]
    rw [hknown] at hj
    split_ifs at hj ⊢ with hjk
    · exact ⟨_, rfl, hj⟩
    · exact hx.written hconst j v hj
  · by_cases hjk : j = k
    · rw [hknown, if_pos hjk] at hj
      cases hj
      subst hjk
      refine ⟨.intro (by rw [hknown, if_pos rfl]) hc hn (hadds.mono hmono) fun o ho => ?_, hle⟩
      obtain ⟨w, hw⟩ := hadds.known o ho
      exact (hsettled _ w hw).1
    · rw [hknown, if_neg hjk] at hj
      exact hsettled j v hj

def unvisited (g : EGraph) (x : EGraphExtractor) : Finset Nat :=
  (Finset.range g.size).filter (· ∉ x.visited)

theorem unvisited_subset {x' : EGraphExtractor} (h : ∀ k ∈ x.visited, k ∈ x'.visited) :
    unvisited g x' ⊆ unvisited g x :=
  Finset.monotone_filter_right _ fun k _ hk hmem => hk (h k hmem)

theorem evalCost_returns (hg : g.Complete) {k0 : Nat}
    (hbd : ∀ k, g.Reaches k0 k → g.Bounded bound k) (hx : Ready g bound x) (hid : id < g.size)
    (hrch : g.Reaches k0 (g.root id)) (hpath : ∀ p, x.Pending p → g.Reaches p (g.root id))
    (hfuel : (unvisited g x).card < fuel) :
    ∃ r, evalCost fuel x id = some r ∧ Evaluated g bound x (g.root id) r := by
  induction fuel generalizing x id with
  | zero => exact absurd hfuel (Nat.not_lt_zero _)
  | succ fuel ih =>
    obtain ⟨c, hc⟩ := hg.classes id hid
    obtain ⟨c', hget, hlook, hnodes⟩ := hx.same.get hid hc
    have hknown := known_eq hlook
    simp only [evalCost, hget, some_bind, hnodes]
    rw [hx.same.root]
    cases hcache : c'.cache.cost with
    | some cost =>
      rw [hcache, some_or] at hknown
      exact ⟨(cost, x), rfl, hx, Later.refl x, .inr hknown⟩
    | none =>
      rw [hcache, none_or] at hknown
      cases hcost : x.costs.lookup (g.root id) with
      | some cost => exact ⟨(cost, x), rfl, hx, Later.refl x, .inr (hknown.trans hcost)⟩
      | none =>
        have hnew : x.known (g.root id) = none := hknown.trans hcost
        by_cases hvisd : g.root id ∈ x.visited
        · exact ⟨(⟨2 ^ 32 - 1, sizeMax⟩, x), if_pos hvisd, hx, Later.refl x,
            .inl ⟨rfl, hvisd, hnew⟩⟩
        · let x' := { x with visited := g.root id :: x.visited }
          have hx' : Ready g bound x' := ⟨hx.same, hx.costs, hx.written, hx.settled⟩
          have hpend : ∀ p, x'.Pending p → g.Reaches p (g.root id) := by
            rintro p ⟨hp, hnone⟩
            obtain rfl | hp := mem_cons.mp hp
            · exact Relation.ReflTransGen.refl
            · exact hpath p ⟨hp, hnone⟩
          have hless : (unvisited g x').card < (unvisited g x).card := by
            refine Finset.card_lt_card (Finset.ssubset_iff_subset_ne.mpr
              ⟨unvisited_subset fun k hk => mem_cons_of_mem _ hk, fun heq => ?_⟩)
            have hmem : g.root id ∈ unvisited g x :=
              Finset.mem_filter.mpr ⟨Finset.mem_range.mpr (g.root_lt hid), hvisd⟩
            rw [← heq] at hmem
            exact (Finset.mem_filter.mp hmem).2 mem_cons_self
          obtain ⟨r, hr, hready, hlater, hle, n, hn, hadds⟩ := evalNodes_returns
            (fun y hy hxy o ho hch => ih hy ho (hrch.tail hch)
              (fun p hp => (hpend p (hxy.pending hp)).tail hch)
              (by have := Finset.card_le_card (unvisited_subset (g := g) hxy.visited); omega))
            hc (hg.fresh _ c hc).2 (hbd _ hrch) (fun b hb => hbd b (hrch.tail hb))
            hpend hx'
          have hidx : r.1.index ≠ sizeMax := by
            have hlt := (List.getElem?_eq_some_iff.mp hn).1
            have hlen := ((hbd _ hrch).fits c hc).1
            omega
          have hstill : r.2.known (g.root id) = none := hlater.old _ mem_cons_self hnew
          have hupd := known_updateCachedCost hstill
            ((hready.same.root _).trans (g.root_root id)) r.1
          refine ⟨(r.1, r.2.updateCachedCost (g.root id) r.1), ?_,
            hready.updateCachedCost hstill (g.root_lt hid) (g.root_root id) hc hn hadds hle,
            ⟨?_, ?_, ?_, ?_⟩, .inr (by rw [hupd, if_pos rfl])⟩
          · change (if _ then _ else _) = _
            rw [if_neg hvisd]
            change (evalNodes (evalCost fuel) x' c.nodes).bind _ = _
            rw [hr]
            exact if_neg hidx
          · intro k v hk
            rw [hupd, if_neg]
            · exact hlater.known k v hk
            · rintro rfl
              rw [hnew] at hk
              cases hk
          · exact fun k hk => hlater.visited k (mem_cons_of_mem _ hk)
          · intro k hk
            rw [hupd]
            split_ifs with hkid
            · exact .inr ⟨r.1, rfl⟩
            · refine (hlater.fresh k hk).imp_left fun hk => ?_
              exact (mem_cons.mp hk).resolve_left hkid
          · intro k hk hnone
            rw [hupd, if_neg]
            · exact hlater.old k (mem_cons_of_mem _ hk) hnone
            · rintro rfl
              exact hvisd hk

end EvalCost

theorem evalCost_mono {x : EGraphExtractor} {r : EClassCost × EGraphExtractor}
    (h : evalCost fuel x id = some r) : evalCost (fuel + 1) x id = some r := by
  induction fuel generalizing x id r with
  | zero => cases h
  | succ fuel ih =>
    rw [evalCost, bind_eq_some] at h ⊢
    obtain ⟨c, hc, h⟩ := h
    refine ⟨c, hc, ?_⟩
    split at h
    · exact h
    · exact h
    · split_ifs at h ⊢ with hvisd
      · exact h
      · obtain ⟨s, hs, h⟩ := bind_eq_some_iff.mp h
        refine bind_eq_some_iff.mpr ⟨s, foldlM_mono (fun s p s' hstep => ?_) hs, h⟩
        obtain ⟨t, ht, hstep⟩ := bind_eq_some_iff.mp hstep
        refine bind_eq_some_iff.mpr ⟨t, foldlM_mono (fun u o u' hu => ?_) ht, hstep⟩
        obtain ⟨v, hv, hu⟩ := bind_eq_some_iff.mp hu
        exact bind_eq_some_iff.mpr ⟨v, ih hv, hu⟩

theorem evalCost_add {x : EGraphExtractor} {r : EClassCost × EGraphExtractor}
    (h : evalCost fuel x id = some r) (m : Nat) : evalCost (fuel + m) x id = some r := by
  induction m with
  | zero => exact h
  | succ m ih => exact evalCost_mono ih

section Extract

variable {g : EGraph} {bound : Nat → Nat}
  (create : Constructor)

theorem known_init (hg : g.Complete) (isConst : Bool) (k : Nat) :
    known { graph := g, isConst := isConst } k = none :=
  known_eq_none.mpr ⟨fun c hc => by rw [(hg.fresh k c hc).1], rfl⟩

theorem ready_init (hg : g.Complete) (bound : Nat → Nat) (isConst : Bool) :
    Ready g bound { graph := g, isConst := isConst } where
  same := Recached.refl g
  costs k cost hk := nomatch hk
  written _ k cost hk := by
    rw [known_init hg] at hk
    cases hk
  settled k cost hk := by
    rw [known_init hg] at hk
    cases hk

variable {x : EGraphExtractor}

theorem Ready.not_leads_back (hx : Ready g bound x) (k : Nat) :
    ¬ Relation.TransGen (g.Chosen x.costs) k k := by
  intro hback
  obtain ⟨b, ⟨cost, -, -, -, hcost, -⟩, -⟩ := Relation.TransGen.head'_iff.mp hback
  exact (hx.settled k cost (hx.costs k cost hcost)).1.not_leads_back hx.costs hback

/-- For every large enough bound on its depth `eval_cost` returns the same cost and tables. -/
theorem evalCost_start (hg : g.Complete) (hx : Ready g bound x) (hvisd : x.visited = [])
    (hid : id < g.size) (hbd : ∀ k, g.Reaches (g.root id) k → g.Bounded bound k) :
    ∃ cost y, Ready g bound y ∧ y.known (g.root id) = some cost ∧
      ∀ m, evalCost (g.size + 1 + m) x id = some (cost, y) := by
  have hfuel : (unvisited g x).card < g.size + 1 := by
    refine Nat.lt_succ_of_le ((Finset.card_filter_le _ _).trans ?_)
    rw [Finset.card_range]
  have hnone : ∀ p, ¬ x.Pending p := fun p hp => by
    have hmem := hp.1
    rw [hvisd] at hmem
    exact absurd hmem not_mem_nil
  obtain ⟨⟨cost, y⟩, hr, hready, -, hcost⟩ := evalCost_returns hg hbd hx hid
    Relation.ReflTransGen.refl (fun p hp => absurd hp (hnone p)) hfuel
  obtain ⟨-, hpend⟩ | hcost := hcost
  · exact absurd hpend (hnone _)
  · exact ⟨cost, y, hready, hcost, evalCost_add hr⟩

theorem known_updateCachedExpr (x : EGraphExtractor) (id : Nat) (e : Operation) :
    (x.updateCachedExpr id e).known = x.known := by
  funext k
  change (((x.updateClass id fun c => c.withExpr e).classes.lookup k).bind _).or _ = _
  obtain h | ⟨d, hd, h⟩ := x.updateClass_cases id (fun c => c.withExpr e)
  · rw [h]
    rfl
  · rw [h, lookup_setClass]
    split_ifs with hk
    · rw [hk, known_eq hd]
      rfl
    · rfl

theorem Ready.updateCachedExpr (hx : Ready g bound x) (id : Nat) (e : Operation) :
    Ready g bound (x.updateCachedExpr id e) := by
  have hknown := known_updateCachedExpr x id e
  have hgr := x.updateClass_cases id (fun c => c.withExpr e)
  refine ⟨?_, fun k cost hk => ?_, fun hconst k cost hk => ?_, ?_⟩
  · change Recached g (x.updateClass id (fun c => c.withExpr e))
    obtain h | ⟨d, hd, h⟩ := hgr
    · rw [h]
      exact hx.same
    · rw [h]
      exact hx.same.trans (Recached.setClass hd rfl)
  · rw [hknown]
    exact hx.costs k cost hk
  · rw [hknown] at hk
    obtain ⟨c, hc, hcost⟩ := hx.written hconst k cost hk
    change ∃ c, (x.updateClass id fun c => c.withExpr e).classes.lookup k = some c ∧ _
    obtain h | ⟨d, hd, h⟩ := hgr
    · rw [h]
      exact ⟨c, hc, hcost⟩
    · rw [h, lookup_setClass]
      split_ifs with hkid
      · rw [hkid, hd] at hc
        cases hc
        exact ⟨_, rfl, hcost⟩
      · exact ⟨c, hc, hcost⟩
  · rw [hknown]
    exact hx.settled

theorem evalCost_known (hg : g.Complete) (hx : Ready g bound x) (hid : id < g.size)
    (hcost : x.known (g.root id) = some cost) (fuel : Nat) :
    evalCost (fuel + 1) x id = some (cost, x) := by
  obtain ⟨c, hc⟩ := hg.classes id hid
  obtain ⟨c', hget, hlook, -⟩ := hx.same.get hid hc
  rw [known_eq hlook] at hcost
  simp only [evalCost, hget, some_bind]
  rw [hx.same.root]
  cases hcache : c'.cache.cost with
  | none =>
    rw [hcache, none_or] at hcost
    rw [hcost]
  | some cost' =>
    rw [hcache, some_or] at hcost
    cases hcost
    rfl

structure Expressed (E : Nat → Operation → Prop) (x : EGraphExtractor) : Prop where
  cached : ∀ k c e, x.graph.classes.lookup k = some c → c.cache.expr = some e → E k e
  own : ∀ k e, x.expressions.lookup k = some e → E k e

variable {E : Nat → Operation → Prop}

theorem Expressed.costStep (hx : Expressed E x) (h : CostStep x y) : Expressed E y := by
  obtain ⟨hgr, hexprs, -⟩ := h
  refine ⟨fun k c e hc he => ?_, fun k e he => hx.own k e (hexprs ▸ he)⟩
  obtain ⟨d, cost, hd, rfl⟩ := hgr.classes k c hc
  exact hx.cached k d e hd he

theorem Expressed.updateCachedExpr (hx : Expressed E x) {e : Operation}
    (hroot : x.graph.root id = id) (he : E id e) : Expressed E (x.updateCachedExpr id e) := by
  refine ⟨fun k c e' hc he' => ?_, fun k e' he' => ?_⟩
  · change (x.updateClass id fun c => c.withExpr e).classes.lookup k = some c at hc
    have hgr := x.updateClass_cases id (fun c => c.withExpr e)
    rw [hroot] at hgr
    obtain h | ⟨d, hd, h⟩ := hgr
    · exact hx.cached k c e' (h ▸ hc) he'
    · rw [h, lookup_setClass] at hc
      split_ifs at hc with hk
      · cases hc
        cases he'
        exact hk ▸ he
      · exact hx.cached k c e' hc he'
  · change (x.expressions.emplace id e).lookup k = some e' at he'
    rw [Map.lookup_emplace] at he'
    split_ifs at he' with hk
    · cases he'
      exact hk.1 ▸ he
    · exact hx.own k e' he'

structure Extracted (g : EGraph) (bound : Nat → Nat) (E : Nat → Operation → Prop)
    (known : Nat → Option EClassCost) (k : Nat) (r : Operation × EGraphExtractor) : Prop where
  ready : Ready g bound r.2
  expressed : Expressed E r.2
  known : r.2.known = known
  value : E k r.1

theorem extract_of_cost (hx : Ready g bound x) (hxe : Expressed E x) (hy : Ready g bound y)
    (hid : id < g.size) (hcost : evalCost fuel x (g.root id) = some (cost, y))
    (hc : g.classes.lookup (g.root id) = some c) (hn : c.nodes[cost.index]? = some n)
    (hops : ∀ o ∈ n.operands, ∀ z, Ready g bound z → Expressed E z → z.known = y.known →
      ∃ r, extract create fuel z o = some r ∧
        Extracted g bound E y.known (g.root o) r)
    (hE : ∀ es, Forall₂ (fun o e => E (g.root o) e) n.operands es →
      ∃ e, create n.data es = some e ∧ E (g.root id) e) :
    ∃ r, extract create (fuel + 1) x id = some r ∧
      (Extracted g bound E x.known (g.root id) r ∨ Extracted g bound E y.known (g.root id) r) := by
  have hroot : g.classes.lookup (g.root (g.root id)) = some c := by rwa [root_root]
  obtain ⟨c', hget, hlook, hnodes⟩ := hx.same.get (g.root_lt hid) hroot
  rw [root_root] at hlook
  have hfind : x.graph.find id = some (g.root id) :=
    find_eq_some.mpr ⟨hx.same.size ▸ hid, (hx.same.root id).symm⟩
  simp only [extract, hfind, hget, bind_eq_bind, bind_some, hcost, hnodes, hn]
  cases hexpr : c'.cache.expr with
  | some e => exact ⟨(e, x), rfl, .inl ⟨hx, hxe, rfl, hxe.cached _ c' e hlook hexpr⟩⟩
  | none =>
    cases hfound : x.expressions.lookup (g.root id) with
    | some e => exact ⟨(e, x), rfl, .inl ⟨hx, hxe, rfl, hxe.own _ e hfound⟩⟩
    | none =>
      have hye : Expressed E y := hxe.costStep (evalCost_step hcost)
      obtain ⟨rs, hrs, hready, hexpressed, hknown, hvals⟩ := foldlM_exists_done
        (f := fun (s : List Operation × EGraphExtractor) o =>
          (extract create fuel s.2 o).bind fun r =>
            some (s.1 ++ [r.1], r.2))
        (fun done s => Ready g bound s.2 ∧ Expressed E s.2 ∧ s.2.known = y.known ∧
          Forall₂ (fun o e => E (g.root o) e) done s.1) (by
          rintro done o rest s hspl ⟨hs, hse, hknown, hdone⟩
          have ho : o ∈ n.operands := hspl ▸ mem_append_right _ mem_cons_self
          obtain ⟨r, hr, hext⟩ := hops o ho s.2 hs hse hknown
          exact ⟨(s.1 ++ [r.1], r.2), by rw [hr]; rfl, hext.ready, hext.expressed, hext.known,
            rel_append hdone (.cons hext.value .nil)⟩)
        (s := ([], y)) (l := n.operands) ⟨hy, hye, rfl, .nil⟩
      obtain ⟨e, he, hval⟩ := hE rs.1 hvals
      refine ⟨(e, rs.2.updateCachedExpr (g.root id) e), ?_,
        .inr ⟨hready.updateCachedExpr _ _, hexpressed.updateCachedExpr ?_ hval,
          (known_updateCachedExpr _ _ _).trans hknown, hval⟩⟩
      · change Option.bind (n.operands.foldlM _ _) _ = _
        rw [hrs, bind_some]
        exact bind_eq_some_iff.mpr ⟨e, he, rfl⟩
      · rw [hready.same.root, root_root]

theorem extract_settled (bound : Nat → Nat) (hg : g.Complete) {known : Nat → Option EClassCost}
    {start : Nat} (hE : ∀ k cost c n es, g.Reaches start k → known k = some cost →
      g.classes.lookup k = some c → c.nodes[cost.index]? = some n →
      Forall₂ (fun o e => E (g.root o) e) n.operands es → ∃ e, create n.data es = some e ∧ E k e)
    (hk : Settled g known k) (hreach : g.Reaches start k) :
    ∀ᶠ fuel in Filter.atTop, ∀ x id, Ready g bound x → Expressed E x → x.known = known →
      id < g.size → g.root id = k →
      ∃ r, extract create fuel x id = some r ∧
        Extracted g bound E known k r := by
  induction hk with
  | @intro k cost c n evaluated eclass chosen _ _ ih =>
    have hmem := mem_of_getElem? chosen
    have hall := (Filter.eventually_all_finite n.operands.finite_toSet).mpr fun o ho =>
      ih o ho (hreach.tail ⟨c, n, o, eclass, hmem, ho, rfl⟩)
    obtain ⟨N, hN⟩ := Filter.eventually_atTop.mp hall
    refine Filter.eventually_atTop.mpr ⟨N + 2, fun fuel hfuel => ?_⟩
    obtain ⟨m, rfl⟩ : ∃ m, fuel = m + 2 := ⟨fuel - 2, by omega⟩
    rintro x id hx hxe rfl hid rfl
    have hcost : evalCost (m + 1) x (g.root id) = some (cost, x) :=
      evalCost_known hg hx (g.root_lt hid) (by rwa [root_root]) m
    obtain ⟨r, hr, hextracted⟩ := extract_of_cost create hx hxe hx hid hcost eclass chosen
      (fun o ho z hz hze hknown => hN (m + 1) (by omega) o ho z o hz hze hknown
        ((hg.fresh _ c eclass).2 n hmem o ho) rfl)
      (fun es hes => hE _ cost c n es hreach evaluated eclass chosen hes)
    exact ⟨r, hr, or_self_iff.mp hextracted⟩

theorem extract_start (hg : g.Complete) (hx : Ready g bound x) (hxe : Expressed E x)
    (hvisd : x.visited = []) (hid : id < g.size)
    (hbd : ∀ k, g.Reaches (g.root id) k → g.Bounded bound k)
    (hE : ∀ y, Ready g bound y → ∀ k cost c n es, g.Reaches (g.root id) k →
      y.known k = some cost → g.classes.lookup k = some c → c.nodes[cost.index]? = some n →
      Forall₂ (fun o e => E (g.root o) e) n.operands es →
      ∃ e, create n.data es = some e ∧ E k e) :
    ∀ᶠ fuel in Filter.atTop, ∃ r,
      extract create fuel x id = some r ∧ Ready g bound r.2 ∧
        Expressed E r.2 ∧ E (g.root id) r.1 := by
  have hbd' : ∀ k, g.Reaches (g.root (g.root id)) k → g.Bounded bound k := by rwa [root_root]
  obtain ⟨cost, y, hy, hcost, heval⟩ := evalCost_start hg hx hvisd (g.root_lt hid) hbd'
  rw [root_root] at hcost
  obtain ⟨evaluated, eclass, chosen, -, operands⟩ := (hy.settled _ cost hcost).1
  cases some.inj (hcost.symm.trans evaluated)
  have hall := (Filter.eventually_all_finite (finite_toSet _)).mpr fun o ho =>
    extract_settled create bound hg (hE y hy) (operands o ho)
      (Relation.ReflTransGen.single ⟨_, _, o, eclass, mem_of_getElem? chosen, ho, rfl⟩)
  obtain ⟨N, hN⟩ := Filter.eventually_atTop.mp hall
  refine Filter.eventually_atTop.mpr ⟨N + g.size + 2, fun fuel hfuel => ?_⟩
  obtain ⟨m, rfl⟩ : ∃ m, fuel = N + (g.size + 1 + m) + 1 := ⟨fuel - (N + g.size + 2), by omega⟩
  have hcall := heval (N + m)
  rw [show g.size + 1 + (N + m) = N + (g.size + 1 + m) by omega] at hcall
  obtain ⟨r, hr, hextracted⟩ := extract_of_cost create hx hxe hy hid hcall eclass chosen
    (fun o ho z hz hze hknown => hN _ (Nat.le_add_right _ _) o ho z o hz hze hknown
      ((hg.fresh _ _ eclass).2 _ (mem_of_getElem? chosen) o ho) rfl)
    (fun es hes => hE y hy _ _ _ _ es Relation.ReflTransGen.refl evaluated eclass chosen hes)
  obtain h | h := hextracted
  · exact ⟨r, hr, h.ready, h.expressed, h.value⟩
  · exact ⟨r, hr, h.ready, h.expressed, h.value⟩

end Extract

section Fuel

variable {createRaw : Constructor}

variable {x : EGraphExtractor}

theorem extract_mono {r : Operation × EGraphExtractor} (h : extract createRaw fuel x id = some r) :
    extract createRaw (fuel + 1) x id = some r := by
  induction fuel generalizing x id r with
  | zero => cases h
  | succ fuel ih =>
    rw [extract, bind_eq_some] at h ⊢
    obtain ⟨root, hroot, h⟩ := h
    obtain ⟨c, hc, h⟩ := bind_eq_some_iff.mp h
    refine ⟨root, hroot, bind_eq_some_iff.mpr ⟨c, hc, ?_⟩⟩
    split at h
    · exact h
    · exact h
    · obtain ⟨cost, hcost, h⟩ := bind_eq_some_iff.mp h
      obtain ⟨n, hn, h⟩ := bind_eq_some_iff.mp h
      obtain ⟨rs, hrs, h⟩ := bind_eq_some_iff.mp h
      refine bind_eq_some_iff.mpr ⟨cost, evalCost_mono hcost, bind_eq_some_iff.mpr
        ⟨n, hn, bind_eq_some_iff.mpr ⟨rs, foldlM_mono (fun s o s' hs => ?_) hrs, h⟩⟩⟩
      obtain ⟨t, ht, hs⟩ := bind_eq_some_iff.mp hs
      exact bind_eq_some_iff.mpr ⟨t, ih ht, hs⟩

theorem extract_add {r : Operation × EGraphExtractor} (h : extract createRaw fuel x id = some r)
    (m : Nat) : extract createRaw (fuel + m) x id = some r := by
  induction m with
  | zero => exact h
  | succ m ih => exact extract_mono ih

theorem extract_loops {data : OperationData} (hc : x.graph.get id = some c)
    (hexpr : c.cache.expr = none) (hfound : x.expressions.lookup (x.graph.root id) = none)
    (hcost : c.cache.cost = some cost)
    (hn : c.nodes[cost.index]? = some ⟨data, x.graph.root id :: operands⟩) (fuel : Nat) :
    ∀ i, i < x.graph.size → x.graph.root i = x.graph.root id →
      extract createRaw fuel x i = none := by
  induction fuel with
  | zero => exact fun _ _ _ => rfl
  | succ fuel ih =>
    intro i hi hroot
    obtain ⟨hid, hlook⟩ := get_eq_some.mp hc
    have hfind : x.graph.find i = some (x.graph.root id) := find_eq_some.mpr ⟨hi, hroot.symm⟩
    have hget : x.graph.get (x.graph.root id) = some c :=
      get_eq_some.mpr ⟨x.graph.root_lt hid, by rwa [root_root]⟩
    have hself := ih (x.graph.root id) (x.graph.root_lt hid) (x.graph.root_root id)
    simp only [extract, hfind, hget, bind_eq_bind, bind_some, hexpr, hfound]
    cases fuel with
    | zero => rfl
    | succ fuel =>
      simp only [evalCost, hget, bind_eq_bind, bind_some, hcost, hn, foldlM_cons, hself, bind_none]

end Fuel

end EGraphExtractor

def EGraphCall.isUpdate : EGraphCall → Bool
  | .extract _ _ => false
  | _ => true

namespace EGraphSession

open EGraph EGraphExtractor

variable {h : HashOrder} {createRaw : Constructor}

theorem exec_complete {s s' : EGraphSession} {call : EGraphCall} (hcall : call.isUpdate = true)
    (he : exec h createRaw s call = some s') (hs : s.graph.Complete) : s'.graph.Complete := by
  cases exec_cases he with
  | addNode hr => exact hs.add hr
  | add hr => exact hs.addOperation hr
  | merge hr => exact hs.merge hr
  | rebuild hr => exact hs.rebuild hr
  | extract => cases hcall

theorem run_complete {calls : List EGraphCall} (hcalls : ∀ call ∈ calls, call.isUpdate = true)
    {s : EGraphSession} (hrun : run h createRaw {} calls = some s) : s.graph.Complete :=
  foldlM_invariant (fun s => s.graph.Complete)
    (fun _ call _ hmem he hs => exec_complete (hcalls call hmem) he hs) hrun Complete.empty

/-- Extraction returns and chooses no cycle if every class in reach has a node out of its cycles
that is cheaper than closing one. -/
theorem extract_returns (h : HashOrder) (create : OperationData → List Operation → Operation)
    (calls : List EGraphCall) (hcalls : ∀ call ∈ calls, call.isUpdate = true) (s : EGraphSession)
    (hrun : run h (fun d ops => some (create d ops)) {} calls = some s) (isConst : Bool) (id : Nat)
    (hid : id < s.graph.size) (bound : Nat → Nat)
    (hbound : ∀ k, s.graph.Reaches (s.graph.root id) k → s.graph.Bounded bound k) :
    ∀ᶠ fuel in Filter.atTop,
      (∃ r, EGraphExtractor.extract (fun d ops => some (create d ops)) fuel
        { graph := s.graph, isConst := isConst } id = some r) ∧
      ∃ cost x, evalCost fuel { graph := s.graph, isConst := isConst } id = some (cost, x) ∧
        ∀ k, ¬ Relation.TransGen (s.graph.Chosen x.costs) k k := by
  have hg := run_complete hcalls hrun
  have hready := ready_init hg bound isConst
  have hexpressed : Expressed (fun _ _ => True) { graph := s.graph, isConst := isConst } :=
    ⟨fun _ _ _ _ _ => trivial, fun _ _ _ => trivial⟩
  obtain ⟨cost, x, hx, -, heval⟩ := evalCost_start hg hready rfl hid hbound
  have hextract := extract_start (fun d ops => some (create d ops)) hg hready hexpressed rfl hid
    hbound fun _ _ _ _ _ _ _ _ _ _ _ _ => ⟨_, rfl, trivial⟩
  filter_upwards [hextract, Filter.eventually_ge_atTop (s.graph.size + 1)] with fuel hrets hfuel
  obtain ⟨r, hr, -⟩ := hrets
  obtain ⟨m, rfl⟩ : ∃ m, fuel = s.graph.size + 1 + m := ⟨fuel - (s.graph.size + 1), by omega⟩
  exact ⟨⟨r, hr⟩, cost, x, heval m, hx.not_leads_back⟩

/-- `x * 1` has been merged with `x`: the symbol is extracted. -/
theorem extract_returns_product :
    let create := Operation.mk
    let x := Operation.constant (.int 8) (.numbered 0)
    let calls : List EGraphCall := [.add x, .add (Operation.constantInt ⟨8, 1⟩),
      .addNode ⟨.binary .mul (.int 8), [0, 1]⟩, .merge 0 2, .rebuild 9]
    ∃ s, run .insertion (fun d ops => some (create d ops)) {} calls = some s ∧
      s.graph.OnCycle 0 ∧ ∀ᶠ fuel in Filter.atTop,
        (∃ r, EGraphExtractor.extract (fun d ops => some (create d ops)) fuel
          { graph := s.graph, isConst := true } 0 = some r) ∧
        ∃ cost x, evalCost fuel { graph := s.graph, isConst := true } 0 = some (cost, x) ∧
          ∀ k, ¬ Relation.TransGen (s.graph.Chosen x.costs) k k := by
  intro create x calls
  obtain ⟨s, hs, hdata⟩ := map_eq_some_iff.mp (show (run .insertion
    (fun d ops => some (create d ops)) {} calls).map (fun s => decide (s.graph.size = 3 ∧
      s.graph.root 0 = 0 ∧ s.graph.root 1 = 1 ∧
      s.graph.classes.pairs.map (fun p => (p.1, p.2.nodes)) = [
        (0, [⟨.constant (.int 8) (.numbered 0), []⟩, ⟨.binary .mul (.int 8), [0, 1]⟩]),
        (1, [⟨.constantInt ⟨8, 1⟩, []⟩])])) = some true by decide +kernel)
  obtain ⟨hsize, h0, h1, hclasses⟩ := of_decide_eq_true hdata
  have hlook : ∀ k c, s.graph.classes.lookup k = some c →
      k = 0 ∧ c.nodes = [⟨.constant (.int 8) (.numbered 0), []⟩,
        ⟨.binary .mul (.int 8), [0, 1]⟩] ∨ k = 1 ∧ c.nodes = [⟨.constantInt ⟨8, 1⟩, []⟩] := by
    intro k c hc
    have hmem := List.mem_map_of_mem (f := fun p : Nat × EClass => (p.1, p.2.nodes))
      (Map.mem_pairs.mpr hc)
    rw [hclasses] at hmem
    simpa using hmem
  let bound : Nat → Nat := fun k => if k = 0 then 2 ^ 16 else 1
  have hceiling : ∀ k, s.graph.ceiling bound k ≤ 2 ^ 32 - 1 := by
    intro k
    unfold ceiling
    split_ifs
    · exact le_rfl
    · simp only [bound]
      split_ifs <;> omega
  have hbd : ∀ k, s.graph.Bounded bound k := by
    intro k
    refine ⟨fun c hc => ?_, fun _ => ?_, fun c hc => ?_⟩
    · obtain ⟨rfl, hn⟩ | ⟨rfl, hn⟩ := hlook k c hc
      · exact ⟨⟨.constant (.int 8) (.numbered 0), []⟩, by simp [hn], fun o ho => (nomatch ho),
          le_rfl⟩
      · exact ⟨⟨.constantInt ⟨8, 1⟩, []⟩, by simp [hn], fun o ho => (nomatch ho), le_rfl⟩
    · simp only [bound]
      split_ifs <;> omega
    · have hc0 := hceiling 0
      have hc1 := hceiling 1
      obtain ⟨rfl, hn⟩ | ⟨rfl, hn⟩ := hlook k c hc
      · simp [hn, h0, h1, ENode.opcode, OperationData.opcode, opcodeCost, sizeMax]
        omega
      · simp [hn, ENode.opcode, OperationData.opcode, opcodeCost, sizeMax]
  obtain ⟨c, hc⟩ : ∃ c, s.graph.classes.lookup 0 = some c := by
    obtain ⟨c, hc⟩ := (run_complete (by decide) hs).classes 0 (by omega)
    exact ⟨c, h0 ▸ hc⟩
  have hnodes := (hlook 0 c hc).resolve_right (by simp)
  have hcyc : s.graph.OnCycle 0 := Relation.TransGen.single
    ⟨c, ⟨.binary .mul (.int 8), [0, 1]⟩, 0, hc, by simp [hnodes.2], by simp, h0.symm⟩
  exact ⟨s, hs, hcyc, extract_returns .insertion create calls (by decide) s hs true 0 (by omega)
    bound fun k _ => hbd k⟩

/-- With `c = t + s`, `c = c * 1` and `t = c - s`, `t ^ c` is never extracted: the cost of `c` is
found, and kept, while `t` is on the path. -/
theorem extract_never_returns :
    let createRaw := fun d ops => some (Operation.mk d ops)
    let calls : List EGraphCall := [.add (Operation.constant (.int 8) (.numbered 0)),
      .add (Operation.constant (.int 8) (.numbered 1)), .add (Operation.constantInt ⟨8, 1⟩),
      .addNode ⟨.binary .add (.int 8), [0, 1]⟩, .addNode ⟨.binary .mul (.int 8), [3, 2]⟩,
      .merge 3 4, .addNode ⟨.binary .sub (.int 8), [3, 1]⟩, .merge 0 5,
      .addNode ⟨.binary .xor (.int 8), [0, 3]⟩, .rebuild 20]
    (∀ call ∈ calls, call.isUpdate = true) ∧ ∃ s, run .insertion createRaw {} calls = some s ∧
      6 < s.graph.size ∧
      (∃ cost x, evalCost 9 { graph := s.graph } 6 = some (cost, x) ∧ s.graph.Chosen x.costs 3 3) ∧
      ∀ fuel, EGraphExtractor.extract createRaw fuel { graph := s.graph } 6 = none := by
  intro createRaw calls
  refine ⟨by decide, ?_⟩
  obtain ⟨s, hs, hrest⟩ := bind_eq_some_iff.mp (show (run .insertion createRaw {} calls).bind
    (fun s => (evalCost 9 { graph := s.graph } 6).bind (fun r =>
      (EGraphExtractor.extract createRaw 2 r.2 0).map (fun q => decide (6 < s.graph.size ∧
        s.graph.root 3 = 3 ∧ s.graph.find 6 = some 6 ∧
        (s.graph.get 6).map (fun c => (c.cache.expr.isNone, c.nodes[r.1.index]?)) =
          some (true, some ⟨.binary .xor (.int 8), [0, 3]⟩) ∧
        (r.2.costs.lookup 3).bind (fun k => (s.graph.classes.lookup 3).bind
          (fun c => c.nodes[k.index]?)) = some ⟨.binary .mul (.int 8), [3, 2]⟩ ∧
        q.2.graph.root 3 = 3 ∧ 3 < q.2.graph.size ∧ (q.2.expressions.lookup 3).isNone = true ∧
        (q.2.graph.get 3).map (fun c => (c.cache.expr.isNone,
          c.cache.cost.bind (fun k => c.nodes[k.index]?))) =
          some (true, some ⟨.binary .mul (.int 8), [3, 2]⟩))))) = some true by decide +kernel)
  obtain ⟨r, hr, hrest⟩ := bind_eq_some_iff.mp hrest
  obtain ⟨q, hq, hdata⟩ := map_eq_some_iff.mp hrest
  obtain ⟨hsize, h3, h6, htop, hchosen, hq3, hqsize, hqfound, hloop⟩ := of_decide_eq_true hdata
  obtain ⟨k, hk, hchosen⟩ := bind_eq_some_iff.mp hchosen
  obtain ⟨c, hc, hchosen⟩ := bind_eq_some_iff.mp hchosen
  obtain ⟨top, hget, htop⟩ := map_eq_some_iff.mp htop
  obtain ⟨hexpr, hnode⟩ := Prod.mk.inj htop
  obtain ⟨d, hd, hloop⟩ := map_eq_some_iff.mp hloop
  obtain ⟨hdexpr, hdnode⟩ := Prod.mk.inj hloop
  obtain ⟨cost, hdcost, hdnode⟩ := bind_eq_some_iff.mp hdnode
  refine ⟨s, hs, hsize, ⟨r.1, r.2, hr, k, c, _, 3, hk, hc, hchosen, mem_cons_self, h3.symm⟩,
    fun fuel => ?_⟩
  by_contra hsome
  obtain ⟨e, he⟩ := ne_none_iff_exists'.mp hsome
  have hbig := extract_add he 10
  have hcost : evalCost (fuel + 9) { graph := s.graph } 6 = some r := by
    rw [Nat.add_comm]
    exact evalCost_add hr fuel
  have hfst : EGraphExtractor.extract createRaw (fuel + 9) r.2 0 = some q := by
    rw [show fuel + 9 = 2 + (fuel + 7) by omega]
    exact extract_add hq (fuel + 7)
  have hsecond : EGraphExtractor.extract createRaw (fuel + 9) q.2 3 = none :=
    extract_loops hd (isNone_iff_eq_none.mp hdexpr)
      (by rw [hq3]; exact isNone_iff_eq_none.mp hqfound) hdcost (by rw [hq3]; exact hdnode)
      (fuel + 9) 3 hqsize rfl
  rw [EGraphExtractor.extract] at hbig
  simp only [h6, hget, bind_eq_bind, bind_some, hcost, hnode, isNone_iff_eq_none.mp hexpr,
    AList.lookup_empty, foldlM_cons, hfst, hsecond, bind_none, reduceCtorEq] at hbig

end EGraphSession

end Caffeine
