import Caffeine.IR.EGraphMonotone

/-!
# Soundness of the e-graph core

Fix an interpretation `sem` of operations and a value `V` for every id. `Sound` says that every
node, hashcons entry, parent entry, cached expression and logged `add` evaluates to the value of its
id. Each operation keeps it if the merges asked for join ids of equal value.
-/

namespace Caffeine

open List

variable {id i fuel : Nat} {c : EClass} {n : ENode} {h : HashOrder} {x : EGraphExtractor}

namespace EGraph

section Sound

variable {α : Type*} (sem : OperationData → List α → α) (V : Nat → α)

def nodeValue (n : ENode) : α := sem n.data (n.operands.map V)

structure ClassSound (id : Nat) (c : EClass) : Prop where
  nodes : ∀ n ∈ c.nodes, nodeValue sem V n = V id
  parents : ∀ n i, c.parents.lookup n = some i → nodeValue sem V n = V i
  expr : ∀ e, c.cache.expr = some e → e.fold sem = V id

structure Sound (g : EGraph) : Prop where
  root : ∀ i, V (g.root i) = V i
  classes : ∀ id c, g.classes.lookup id = some c → ClassSound sem V id c
  hashcons : ∀ n i, g.hashcons.lookup n = some i → nodeValue sem V n = V i
  adds : ∀ r ∈ g.trace.adds, nodeValue sem V r.node = V r.id

/-- `V` gives every id the value of the node it was created for. -/
def IsValuation (g : EGraph) : Prop :=
  ∀ r ∈ g.trace.adds, r.fresh → nodeValue sem V r.node = V r.id

end Sound

section Preservation

variable {α : Type*} {sem : OperationData → List α → α} {V : Nat → α} {g g' : EGraph}

theorem IsValuation.of_extends (hv : IsValuation sem V g') (he : Extends g g') :
    IsValuation sem V g := fun r hr hf => hv r (he.adds hr) hf

theorem sound_empty : Sound sem V {} where
  root _ := rfl
  classes id c hc := by simp at hc
  hashcons n i hn := by simp at hn
  adds r hr := by simp at hr

theorem Sound.canon (hs : Sound sem V g) (n : ENode) :
    nodeValue sem V (g.canon n) = nodeValue sem V n := by
  have hmap : (n.operands.map g.root).map V = n.operands.map V := by
    rw [List.map_map]
    exact map_congr_left (fun o _ => hs.root o)
  rw [nodeValue, canon_data, canon_operands, hmap, nodeValue]

theorem Sound.of_eq (hs : Sound sem V g) (hu : g'.unionFind = g.unionFind)
    (hc : g'.classes = g.classes) (hh : g'.hashcons = g.hashcons)
    (ha : g'.trace.adds = g.trace.adds) : Sound sem V g' where
  root i := by
    rw [EGraph.root, hu]
    exact hs.root i
  classes := hc ▸ hs.classes
  hashcons := hh ▸ hs.hashcons
  adds := ha ▸ hs.adds

theorem lookup_setClass (g : EGraph) (id : Nat) (c : EClass) (k : Nat) :
    (g.setClass id c).classes.lookup k = if k = id then some c else g.classes.lookup k :=
  Map.lookup_insert _ _ _ _

theorem Sound.setClass (hs : Sound sem V g) (hc : ClassSound sem V id c) :
    Sound sem V (g.setClass id c) where
  root := hs.root
  classes k d hd := by
    rw [lookup_setClass] at hd
    split_ifs at hd with hk
    · cases hd
      exact hk ▸ hc
    · exact hs.classes k d hd
  hashcons := hs.hashcons
  adds := hs.adds

theorem mergeCache_expr {d : EClass} {e : Operation} (h : (c.mergeCache d).expr = some e) :
    c.cache.expr = some e ∨ d.cache.expr = some e := by
  unfold EClass.mergeCache at h
  split at h
  · exact .inr h
  · exact .inl h
  · split at h
    · exact .inr h
    · cases h

theorem ClassSound.merge {j : Nat} {d m : EClass} (hc : ClassSound sem V i c)
    (hd : ClassSound sem V j d) (hij : V i = V j) (hm : c.merge d = some m) :
    ClassSound sem V i m := by
  unfold EClass.merge at hm
  split_ifs at hm
  cases hm
  refine ⟨?_, ?_, ?_⟩
  · intro n hn
    rcases mem_append.mp hn with hn | hn
    · exact hc.nodes n hn
    · exact (hd.nodes n hn).trans hij.symm
  · intro n k hk
    rcases AList.lookup_union_eq_some.mp hk with hk | ⟨-, hk⟩
    · exact hc.parents n k hk
    · exact hd.parents n k hk
  · intro e he
    rcases mergeCache_expr he with he | he
    · exact hc.expr e he
    · exact (hd.expr e he).trans hij.symm

theorem Sound.merge (hs : Sound sem V g) {j r : Nat} (hij : V i = V j)
    (h : g.merge i j = some (r, g')) : Sound sem V g' ∧ V r = V i := by
  obtain ⟨-, -, rfl, ⟨-, rfl⟩ | hm⟩ := merge_cases h
  · exact ⟨hs, hs.root i⟩
  · have hroots : V (g.root i) = V (g.root j) := by rw [hs.root, hs.root, hij]
    obtain ⟨c1, c2, c, h1, h2, hc, hlook⟩ := hm.classes
    refine ⟨⟨?_, ?_, ?_, ?_⟩, hs.root i⟩
    · intro k
      rw [hm.root]
      split_ifs with hk
      · rw [hroots, ← hk, hs.root]
      · exact hs.root k
    · intro k d hd
      rw [hlook] at hd
      split_ifs at hd with hkj hki
      · cases hd
        exact hki ▸ (hs.classes _ _ h1).merge (hs.classes _ _ h2) hroots hc
      · exact hs.classes k d hd
    · rw [hm.hashcons]
      exact hs.hashcons
    · rw [hm.trace]
      exact hs.adds

theorem ClassSound.ofNodes (hn : nodeValue sem V n = V id) :
    ClassSound sem V id (EClass.ofNodes [n]) where
  nodes m hm := by
    rw [mem_singleton.mp hm]
    exact hn
  parents m i hm := by simp [EClass.ofNodes] at hm
  expr e he := by simp [EClass.ofNodes] at he

theorem ClassSound.emplaceParent (hc : ClassSound sem V id c) (hn : nodeValue sem V n = V i) :
    ClassSound sem V id { c with parents := c.parents.emplace n i } where
  nodes := hc.nodes
  parents m k hm := by
    rw [Map.lookup_emplace] at hm
    split_ifs at hm with hcond
    · cases hm
      exact hcond.1 ▸ hn
    · exact hc.parents m k hm
  expr := hc.expr

theorem Sound.add (hs : Sound sem V g) (h : g.add n = some (id, g'))
    (hfr : g.hashcons.lookup (g.canon n) = none → nodeValue sem V n = V g.size) :
    Sound sem V g' ∧ nodeValue sem V n = V id := by
  obtain ⟨-, ⟨hlook, rfl⟩ | ⟨rfl, ha⟩⟩ := add_cases h
  · have hn : nodeValue sem V n = V id := (hs.canon n).symm.trans (hs.hashcons _ _ hlook)
    refine ⟨⟨hs.root, hs.classes, hs.hashcons, ?_⟩, hn⟩
    intro r hr
    rcases mem_cons.mp hr with rfl | hr
    · exact hn
    · exact hs.adds r hr
  · have hn := hfr ha.absent
    have hcan : nodeValue sem V (g.canon n) = V g.size := (hs.canon n).trans hn
    refine ⟨⟨?_, ?_, ?_, ?_⟩, hn⟩
    · intro i
      rw [ha.root, hs.root]
    · intro k c' hc'
      rw [ha.classes, Option.map_eq_some_iff] at hc'
      obtain ⟨c, hc, rfl⟩ := hc'
      have hsnd : ClassSound sem V k c := by
        rw [Map.lookup_emplace] at hc
        split_ifs at hc with hcond
        · cases hc
          exact hcond.1 ▸ ClassSound.ofNodes hcan
        · exact hs.classes k c hc
      split_ifs
      · exact hsnd.emplaceParent hcan
      · exact hsnd
    · intro m i hm
      rw [ha.hashcons] at hm
      split_ifs at hm with hmn
      · cases hm
        exact hmn ▸ hcan
      · exact hs.hashcons m i hm
    · intro r hr
      rw [ha.adds] at hr
      rcases mem_cons.mp hr with rfl | hr
      · exact hn
      · exact hs.adds r hr

theorem Sound.add_of_isValuation (hs : Sound sem V g) (h : g.add n = some (id, g'))
    (hv : IsValuation sem V g') : Sound sem V g' ∧ nodeValue sem V n = V id := by
  refine hs.add h (fun habs => ?_)
  obtain ⟨-, ⟨hlook, -⟩ | ⟨-, ha⟩⟩ := add_cases h
  · rw [habs] at hlook
    cases hlook
  · exact hv ⟨n, g.size, true⟩ (ha.adds ▸ mem_cons_self) rfl

section AddOperation

variable (href : ∀ t i vs, sem (.egraphNode t i) vs = V i)

theorem addOperands_sound {ops : List Operation}
    (ih : ∀ o ∈ ops, ∀ (g g' : EGraph) id, Sound sem V g → g.addOperation o = some (id, g') →
      IsValuation sem V g' → Sound sem V g' ∧ o.fold sem = V id)
    {ids : List Nat} (hs : Sound sem V g) (h : g.addOperands ops = some (ids, g'))
    (hv : IsValuation sem V g') : Sound sem V g' ∧ ops.map (Operation.fold sem) = ids.map V := by
  induction ops generalizing g ids with
  | nil =>
    cases h
    exact ⟨hs, rfl⟩
  | cons o ops ihops =>
    simp only [addOperands, bind_eq_some, Option.some.injEq, Prod.mk.injEq] at h
    obtain ⟨r, hr, rs, hrs, rfl, rfl⟩ := h
    have hext : Extends r.2 rs.2 :=
      Extends.addOperands hrs
    obtain ⟨hsr, ho⟩ := ih o mem_cons_self g r.2 r.1 hs hr (hv.of_extends hext)
    obtain ⟨hsrs, hos⟩ := ihops (fun o ho => ih o (mem_cons_of_mem _ ho)) hsr hrs
    exact ⟨hsrs, by rw [map_cons, map_cons, ho, hos]⟩

include href in
theorem Sound.addOperation {o : Operation} (hs : Sound sem V g)
    (h : g.addOperation o = some (id, g')) (hv : IsValuation sem V g') :
    Sound sem V g' ∧ o.fold sem = V id := by
  induction o using Operation.induct generalizing g g' id with
  | mk d ops ih =>
    unfold EGraph.addOperation at h
    split at h
    · rename_i heq
      cases heq
      cases h
      exact ⟨hs, by rw [Operation.fold_mk, href]⟩
    · rename_i heq
      cases heq
      simp only [bind_eq_some] at h
      obtain ⟨r, hr, h⟩ := h
      obtain ⟨hsr, hops⟩ := addOperands_sound (fun o ho g g' id hs h hv => ih o ho hs h hv) hs hr
        (hv.of_extends (Extends.add h))
      obtain ⟨hs', hn⟩ := hsr.add_of_isValuation h hv
      refine ⟨hs', ?_⟩
      rw [Operation.fold_mk, hops]
      exact hn

end AddOperation

theorem Sound.pruned (hs : Sound sem V g) (hp : Pruned g g') : Sound sem V g' where
  root i := by rw [hp.root, hs.root]
  classes k c' hc' := by
    obtain ⟨c, ps, hc, rfl, hsub, -⟩ := hp.classes k c' hc'
    have hcs := hs.classes k c hc
    exact ⟨hcs.nodes, fun n i hn => hcs.parents n i (hsub n i hn), hcs.expr⟩
  hashcons := by
    obtain ⟨cs, ev, rfl⟩ := hp.frame
    exact hs.hashcons
  adds := by
    obtain ⟨cs, ev, rfl⟩ := hp.frame
    exact hs.adds

theorem Sound.unparent (hs : Sound sem V g) (h : g.unparent id = some g') : Sound sem V g' := by
  obtain ⟨c, index, -, -, ⟨-, rfl⟩ | ⟨g1, c1, node, hp, hc1, hnodes, hnode, rfl⟩⟩ :=
    unparent_cases h
  · exact hs
  · have hs1 := hs.pruned hp
    have hcs := hs1.classes id c1 hc1
    refine hs1.setClass ⟨?_, hcs.parents, hcs.expr⟩
    intro n hn
    rw [mem_singleton.mp hn]
    exact hcs.nodes node (hnodes ▸ mem_of_getElem? hnode)

theorem Sound.foldlM_rehash (hs : Sound sem V g) {ps : List (ENode × Nat)}
    (hps : ∀ p ∈ ps, nodeValue sem V p.1 = V p.2) (h : ps.foldlM rehash g = some g') :
    Sound sem V g' := by
  refine foldlM_invariant (Sound sem V) ?_ h hs
  intro s p s' hp hstep hss
  obtain ⟨-, -, rfl⟩ := rehash_cases hstep
  refine ⟨hss.root, hss.classes, ?_, hss.adds⟩
  intro n i hn
  rw [Map.lookup_insert, Map.lookup_erase] at hn
  split_ifs at hn with hcan hne
  · cases hn
    rw [hcan, hss.canon, hss.root]
    exact hps p hp
  · exact hss.hashcons n i hn

structure RepairSound (sem : OperationData → List α → α) (V : Nat → α) (s : RepairState) :
    Prop where
  graph : Sound sem V s.graph
  newParents : ∀ n i, s.newParents.lookup n = some i → nodeValue sem V n = V i
  rest : ∀ p ∈ s.rest, nodeValue sem V p.1 = V p.2

theorem RepairSound.turn {s s' : RepairState} (hs : RepairSound sem V s)
    (ht : s.turn id = some s') : RepairSound sem V s' := by
  obtain ⟨p, rest, hrest, -, hcases⟩ := RepairState.turn_cases ht
  obtain ⟨hp, htail⟩ := forall_mem_cons.mp (hrest ▸ hs.rest)
  have hins : ∀ r, V r = V p.2 → ∀ n i,
      (s.newParents.insert (s.graph.canon p.1) r).lookup n = some i → nodeValue sem V n = V i := by
    intro r hr n i hn
    rw [Map.lookup_insert] at hn
    split_ifs at hn with hcan
    · cases hn
      rw [hcan, hs.graph.canon, hp, hr]
    · exact hs.newParents n i hn
  obtain ⟨-, -, rfl⟩ | ⟨other, r, g1, hlook, hm, rfl, -⟩ := hcases
  · exact ⟨hs.graph, hins _ (hs.graph.root _), htail⟩
  · have hother : V p.2 = V other := by rw [← hs.newParents _ _ hlook, hs.graph.canon, hp]
    obtain ⟨hs1, hvr⟩ := hs.graph.merge hother hm
    exact ⟨hs1, hins r hvr, htail⟩

theorem Sound.repair (hs : Sound sem V g) (hr : g.repair h fuel id = some g') : Sound sem V g' := by
  obtain ⟨c, g1, c1, g2, g3, ps, c3, -, hun, hc1, hrehash, hloop, hc3, -, rfl⟩ := repair_cases hr
  have hs1 : Sound sem V g1 := by
    rcases hun with ⟨-, hun⟩ | ⟨-, rfl⟩
    · exact hs.unparent hun
    · exact hs
  have hpar : ∀ p ∈ h.order g1.trace.clock c1.parents.pairs,
      nodeValue sem V p.1 = V p.2 := fun p hp =>
    (hs1.classes id c1 hc1).parents p.1 p.2 (Map.mem_pairs.mp (h.mem_order.mp hp))
  have hs2 : Sound sem V g2 :=
    (hs1.of_eq rfl rfl rfl rfl : Sound sem V g1.tick).foldlM_rehash hpar hrehash
  obtain ⟨hs3, hps, -⟩ := repairParents_invariant (RepairSound sem V)
    (fun _ _ hs ht => hs.turn ht) hloop ⟨hs2, fun n i hn => by simp at hn, hpar⟩
  have hcs := hs3.classes id c3 hc3
  refine hs3.setClass ⟨?_, hps, hcs.expr⟩
  intro n hn
  obtain ⟨m, hm, rfl⟩ := List.mem_map.mp hn
  rw [hs3.canon]
  exact hcs.nodes m hm

theorem Sound.rebuildLoop {s s' : EGraph × List Nat} (hs : Sound sem V s.1)
    (hr : rebuildLoop h fuel s = some s') : Sound sem V s'.1 := by
  refine (rebuildLoop_invariant (fun t => Sound sem V t.1) ?_ ?_ hr hs).1
  · exact fun g _ hg => hg.of_eq rfl rfl rfl rfl
  · intro fuel t e t' ht hstep
    obtain ⟨-, g, c, hg, -, rfl⟩ := rebuildStep_cases hstep
    exact (ht.repair hg).of_eq rfl rfl rfl rfl

theorem Sound.cleared (hs : Sound sem V g) (hc : Cleared g g') : Sound sem V g' := by
  have hclasses : ∀ k c, g'.classes.lookup k = some c → ClassSound sem V k c := by
    intro k c hlook
    rcases hc.classes k with heq | ⟨d, hd, heq⟩
    · exact hs.classes k c (heq ▸ hlook)
    · rw [heq] at hlook
      cases hlook
      have hok := hs.classes k d hd
      exact ⟨hok.nodes, hok.parents, fun e he => by cases he⟩
  obtain ⟨cs, up, clock, rfl⟩ := hc.frame
  exact ⟨hs.root, hclasses, hs.hashcons, hs.adds⟩

theorem Sound.rebuild (hs : Sound sem V g) (hr : g.rebuild h fuel = some g') : Sound sem V g' := by
  simp only [EGraph.rebuild, bind_eq_some] at hr
  obtain ⟨s, hloop, hclear⟩ := hr
  have hs1 : Sound sem V s.1 := hs.rebuildLoop hloop
  exact hs1.cleared (clearCaches_cases hclear)

theorem Sound.recosted (hs : Sound sem V g) (hr : Recosted g g') : Sound sem V g' where
  root i := by rw [hr.root, hs.root]
  classes k c' hc' := by
    obtain ⟨c, cost, hc, rfl⟩ := hr.classes k c' hc'
    have hcs := hs.classes k c hc
    exact ⟨hcs.nodes, hcs.parents, hcs.expr⟩
  hashcons := by
    obtain ⟨cs, rfl⟩ := hr.frame
    exact hs.hashcons
  adds := by
    obtain ⟨cs, rfl⟩ := hr.frame
    exact hs.adds

end Preservation

end EGraph

namespace EGraphExtractor

open EGraph

variable {α : Type*} {sem : OperationData → List α → α} {V : Nat → α}
  {createRaw : Constructor}

structure ExtractSound (sem : OperationData → List α → α) (V : Nat → α)
    (x : EGraphExtractor) : Prop where
  graph : Sound sem V x.graph
  expressions : ∀ id e, x.expressions.lookup id = some e → e.fold sem = V id

theorem ExtractSound.costStep {x' : EGraphExtractor} (hx : ExtractSound sem V x)
    (hstep : CostStep x x') : ExtractSound sem V x' :=
  ⟨hx.graph.recosted hstep.1, hstep.2.1 ▸ hx.expressions⟩

theorem ExtractSound.updateCachedExpr (hx : ExtractSound sem V x) {e : Operation}
    (he : e.fold sem = V id) : ExtractSound sem V (x.updateCachedExpr id e) := by
  constructor
  · change Sound sem V (x.updateClass id (fun c => c.withExpr e))
    rcases x.updateClass_cases id (fun c => c.withExpr e) with h | ⟨c, hc, h⟩
    · rw [h]
      exact hx.graph
    · rw [h]
      have hcs := hx.graph.classes _ c hc
      refine hx.graph.setClass ⟨hcs.nodes, hcs.parents, ?_⟩
      intro e' he'
      cases he'
      rw [he, hx.graph.root]
  · intro k e' he'
    change (x.expressions.emplace id e).lookup k = some e' at he'
    rw [Map.lookup_emplace] at he'
    split_ifs at he' with hcond
    · cases he'
      exact hcond.1 ▸ he
    · exact hx.expressions k e' he'

theorem extractOperands_sound {extractClass : EGraphExtractor → Nat →
      Option (Operation × EGraphExtractor)}
    (hextract : ∀ x id r, ExtractSound sem V x → extractClass x id = some r →
      ExtractSound sem V r.2 ∧ r.1.fold sem = V id)
    {ops : List Nat} {s r : List Operation × EGraphExtractor} (hs : ExtractSound sem V s.2)
    (h : ops.foldlM (fun s operand => do
      let r ← extractClass s.2 operand
      some (s.1 ++ [r.1], r.2)) s = some r) :
    ExtractSound sem V r.2 ∧
      r.1.map (Operation.fold sem) = s.1.map (Operation.fold sem) ++ ops.map V := by
  induction ops generalizing s with
  | nil =>
    cases h
    exact ⟨hs, by simp⟩
  | cons o ops ih =>
    obtain ⟨t, ht, h⟩ := foldlM_cons_eq_some.mp h
    simp only [bind_eq_some, Option.some.injEq] at ht
    obtain ⟨u, hu, rfl⟩ := ht
    obtain ⟨hsu, hval⟩ := hextract _ _ _ hs hu
    obtain ⟨hsr, hmap⟩ := ih hsu h
    refine ⟨hsr, ?_⟩
    rw [hmap]
    simp [hval]

theorem extract_sound (hcr : ∀ d ops o, createRaw d ops = some o →
      o.fold sem = sem d (ops.map (Operation.fold sem))) {r : Operation × EGraphExtractor}
    (hx : ExtractSound sem V x) (h : extract createRaw fuel x id = some r) :
    ExtractSound sem V r.2 ∧ r.1.fold sem = V id := by
  induction fuel generalizing x id r with
  | zero => cases h
  | succ fuel ih =>
    simp only [extract, Option.bind_eq_bind, Option.bind_eq_some_iff, find_eq_some,
      get_eq_some] at h
    obtain ⟨root, ⟨-, rfl⟩, c, ⟨-, hc⟩, h⟩ := h
    rw [root_root] at hc
    have hcs := hx.graph.classes _ c hc
    cases hexpr : c.cache.expr with
    | some e =>
      simp only [hexpr, Option.some.injEq] at h
      subst h
      exact ⟨hx, (hcs.expr e hexpr).trans (hx.graph.root id)⟩
    | none =>
      cases hfound : x.expressions.lookup (x.graph.root id) with
      | some e =>
        simp only [hexpr, hfound, Option.some.injEq] at h
        subst h
        exact ⟨hx, (hx.expressions _ e hfound).trans (hx.graph.root id)⟩
      | none =>
        simp only [hexpr, hfound, Option.bind_eq_some_iff, Option.some.injEq] at h
        obtain ⟨cost, hcost, node, hnode, rs, hrs, e, he, rfl⟩ := h
        have hx1 := hx.costStep (evalCost_step hcost)
        obtain ⟨hx2, hmap⟩ := extractOperands_sound (fun x id r hx hr => ih hx hr) hx1 hrs
        have hval : e.fold sem = V (x.graph.root id) := by
          rw [hcr _ _ _ he, hmap, map_nil, nil_append]
          exact hcs.nodes node (mem_of_getElem? hnode)
        exact ⟨hx2.updateCachedExpr hval, hval.trans (hx.graph.root id)⟩

end EGraphExtractor

end Caffeine
