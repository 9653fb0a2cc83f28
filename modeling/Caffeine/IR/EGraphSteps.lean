import Caffeine.IR.EGraph
import Caffeine.Util.Loops

/-!
# What each e-graph operation does

One inversion lemma per operation of the e-graph. Later modules derive their invariants from
these descriptions and never unfold an operation again.
-/

namespace Caffeine

open List Option

variable {i id fuel : Nat} {n : ENode} {h : HashOrder} {s s' : EGraph × List Nat}

namespace EGraph

def canon (g : EGraph) (n : ENode) : ENode := { n with operands := n.operands.map g.root }

@[simp] theorem canon_data (g : EGraph) (n : ENode) : (g.canon n).data = n.data := rfl

@[simp] theorem canon_operands (g : EGraph) (n : ENode) :
    (g.canon n).operands = n.operands.map g.root := rfl

@[simp] theorem root_root (g : EGraph) (i : Nat) : g.root (g.root i) = g.root i :=
  g.unionFind.find_find i

theorem root_lt (g : EGraph) (hi : i < g.size) : g.root i < g.size :=
  g.unionFind.find_lt hi

variable {g : EGraph}

theorem find_eq_some {r : Nat} : g.find i = some r ↔ i < g.size ∧ r = g.root i := by
  rw [find]
  split_ifs with hi
  · simp [hi, eq_comm]
  · simp [hi]

theorem get_eq_some {c : EClass} :
    g.get i = some c ↔ i < g.size ∧ g.classes.lookup (g.root i) = some c := by
  rw [get, bind_eq_some_iff]
  constructor
  · rintro ⟨r, hr, hc⟩
    obtain ⟨hi, rfl⟩ := find_eq_some.mp hr
    exact ⟨hi, hc⟩
  · rintro ⟨hi, hc⟩
    exact ⟨g.root i, find_eq_some.mpr ⟨hi, rfl⟩, hc⟩

theorem mapM_find_eq_some {l l' : List Nat} :
    l.mapM g.find = some l' ↔ (∀ o ∈ l, o < g.size) ∧ l' = l.map g.root := by
  induction l generalizing l' with
  | nil => simp
  | cons o l ih =>
    simp only [mapM_cons, bind_eq_some, find_eq_some,
      Option.pure_def, some.injEq, ih, mem_cons, forall_eq_or_imp, map_cons]
    constructor
    · rintro ⟨r, ⟨ho, rfl⟩, rs, ⟨hl, rfl⟩, rfl⟩
      exact ⟨⟨ho, hl⟩, rfl⟩
    · rintro ⟨⟨ho, hl⟩, rfl⟩
      exact ⟨g.root o, ⟨ho, rfl⟩, l.map g.root, ⟨hl, rfl⟩, rfl⟩

theorem canonicalize_eq_some {m : ENode} :
    g.canonicalize n = some m ↔ (∀ o ∈ n.operands, o < g.size) ∧ m = g.canon n := by
  simp only [canonicalize, bind_eq_some, mapM_find_eq_some, some.injEq]
  constructor
  · rintro ⟨ops, ⟨hlt, rfl⟩, rfl⟩
    exact ⟨hlt, rfl⟩
  · rintro ⟨hlt, rfl⟩
    exact ⟨_, ⟨hlt, rfl⟩, rfl⟩

theorem mapM_canonicalize_eq_some {l l' : List ENode} :
    l.mapM g.canonicalize = some l' ↔
      (∀ n ∈ l, ∀ o ∈ n.operands, o < g.size) ∧ l' = l.map g.canon := by
  induction l generalizing l' with
  | nil => simp
  | cons n l ih =>
    simp only [mapM_cons, bind_eq_some, canonicalize_eq_some,
      Option.pure_def, some.injEq, ih, mem_cons, forall_eq_or_imp, map_cons]
    constructor
    · rintro ⟨r, ⟨ho, rfl⟩, rs, ⟨hl, rfl⟩, rfl⟩
      exact ⟨⟨ho, hl⟩, rfl⟩
    · rintro ⟨⟨ho, hl⟩, rfl⟩
      exact ⟨g.canon n, ⟨ho, rfl⟩, l.map g.canon, ⟨hl, rfl⟩, rfl⟩

structure Merged (g : EGraph) (i j : Nat) (g' : EGraph) : Prop where
  ne : g.root i ≠ g.root j
  size : g'.size = g.size
  root : ∀ k, g'.root k = if g.root k = g.root j then g.root i else g.root k
  classes : ∃ c1 c2 c, g.classes.lookup (g.root i) = some c1 ∧
    g.classes.lookup (g.root j) = some c2 ∧ c1.merge c2 = some c ∧
    ∀ k, g'.classes.lookup k =
      if k = g.root j then none else if k = g.root i then some c else g.classes.lookup k
  hashcons : g'.hashcons = g.hashcons
  worklist : g'.worklist = g.worklist ++ [g.root i]
  updated : g'.updated = g.updated.insert (g.root i)
  trace : g'.trace = g.trace

variable {g' : EGraph}

theorem merge_cases {j r : Nat} (h : g.merge i j = some (r, g')) :
    i < g.size ∧ j < g.size ∧ r = g.root i ∧
      (g.root i = g.root j ∧ g' = g ∨ Merged g i j g') := by
  unfold merge at h
  split_ifs at h with hi hj heq
  · cases h
    exact ⟨hi, hj, rfl, .inl ⟨heq, rfl⟩⟩
  · simp only [bind_eq_some, some.injEq, Prod.mk.injEq] at h
    obtain ⟨c1, h1, c2, h2, c, hc, rfl, rfl⟩ := h
    refine ⟨hi, hj, rfl, .inr ⟨heq, ?_, ?_, ⟨c1, c2, c, h1, h2, hc, ?_⟩, rfl, rfl, rfl, rfl⟩⟩
    · exact g.unionFind.size_doUnion (g.unionFind.isRoot_find hi) (g.unionFind.isRoot_find hj)
    · exact g.unionFind.find_doUnion (g.unionFind.isRoot_find hi) (g.unionFind.isRoot_find hj)
    · intro k
      rw [Map.lookup_erase, Map.lookup_insert]

theorem foldlM_addParent {ops : List Nat} (h : ops.foldlM (addParent n id) g = some g') :
    (∀ k ∈ ops, k ∈ g.classes) ∧ (∃ cs, g' = { g with classes := cs }) ∧
      ∀ k, g'.classes.lookup k = (g.classes.lookup k).map (fun c =>
        if k ∈ ops then { c with parents := c.parents.emplace n id } else c) := by
  induction ops generalizing g with
  | nil =>
    cases h
    exact ⟨by simp, ⟨_, rfl⟩, by simp⟩
  | cons o ops ih =>
    obtain ⟨t, ht, hrest⟩ := foldlM_cons_eq_some.mp h
    simp only [addParent, bind_eq_some, some.injEq] at ht
    obtain ⟨c, hc, rfl⟩ := ht
    obtain ⟨hmem, ⟨cs, rfl⟩, hlook⟩ := ih hrest
    have hset : ∀ k, (g.setClass o { c with parents := c.parents.emplace n id }).classes.lookup k =
        if k = o then some { c with parents := c.parents.emplace n id }
        else g.classes.lookup k := fun k => Map.lookup_insert _ _ _ _
    refine ⟨?_, ⟨cs, rfl⟩, ?_⟩
    · intro k hk
      rcases mem_cons.mp hk with rfl | hk
      · exact Map.mem_of_lookup hc
      · by_cases hko : k = o
        · exact hko ▸ Map.mem_of_lookup hc
        · have := hmem k hk
          rw [← AList.lookup_isSome, hset, if_neg hko] at this
          exact AList.lookup_isSome.mp this
    · intro k
      rw [hlook, hset]
      by_cases hko : k = o
      · subst hko
        by_cases hk : k ∈ ops
        · simp [hk, hc, Map.emplace_emplace]
        · simp [hk, hc]
      · simp [hko]

structure Added (g : EGraph) (n : ENode) (g' : EGraph) : Prop where
  absent : g.hashcons.lookup (g.canon n) = none
  size : g'.size = g.size + 1
  root : ∀ k, g'.root k = g.root k
  operand : ∀ k ∈ (g.canon n).operands, k ≠ g.size → k ∈ g.classes
  classes : ∀ k, g'.classes.lookup k =
    ((g.classes.emplace g.size (EClass.ofNodes [g.canon n])).lookup k).map (fun c =>
      if k ∈ (g.canon n).operands then
        { c with parents := c.parents.emplace (g.canon n) g.size }
      else c)
  hashcons : ∀ m, g'.hashcons.lookup m =
    if m = g.canon n then some g.size else g.hashcons.lookup m
  worklist : g'.worklist = g.worklist ++ [g.size]
  updated : g'.updated = g.updated.insert g.size
  adds : g'.trace.adds = ⟨n, g.size, true⟩ :: g.trace.adds
  clock : g'.trace.clock = g.trace.clock
  events : g'.trace.events = g.trace.events

theorem add_cases (h : g.add n = some (id, g')) : (∀ o ∈ n.operands, o < g.size) ∧
      (g.hashcons.lookup (g.canon n) = some id ∧ g' = g.recordAdd ⟨n, id, false⟩ ∨
        id = g.size ∧ Added g n g') := by
  simp only [add, bind_eq_bind, bind_eq_some_iff, canonicalize_eq_some] at h
  obtain ⟨m, ⟨hlt, rfl⟩, h⟩ := h
  refine ⟨hlt, ?_⟩
  cases hlook : g.hashcons.lookup (g.canon n) with
  | some i =>
    simp only [hlook, some.injEq, Prod.mk.injEq] at h
    obtain ⟨rfl, rfl⟩ := h
    exact .inl ⟨rfl, rfl⟩
  | none =>
    simp only [hlook, bind_eq_some_iff, some.injEq, Prod.mk.injEq] at h
    obtain ⟨g1, hfold, rfl, rfl⟩ := h
    obtain ⟨hmem, ⟨cs, rfl⟩, hcs⟩ := foldlM_addParent hfold
    have habs : g.canon n ∉ g.hashcons := AList.lookup_eq_none.mp hlook
    refine .inr ⟨rfl, hlook, g.unionFind.size_makeSet, g.unionFind.find_makeSet, ?_, hcs, ?_, rfl,
      rfl, rfl, rfl, rfl⟩
    · intro k hk hne
      have hk' := hmem k hk
      rw [← AList.lookup_isSome] at hk' ⊢
      simpa [createEClass, Map.lookup_emplace, UnionFind.makeSet_fst,
        show k ≠ g.unionFind.size from hne] using hk'
    · intro m
      change ((g.hashcons.emplace (g.canon n) g.size).emplace (g.canon n) g.size).lookup m = _
      rw [Map.emplace_emplace, Map.lookup_emplace]
      simp [habs]

theorem addOperands_invariant (P : EGraph → Prop) {ops : List Operation}
    (ih : ∀ o ∈ ops, ∀ (g g' : EGraph) id, P g → g.addOperation o = some (id, g') → P g')
    {ids : List Nat} (hg : P g) (h : g.addOperands ops = some (ids, g')) :
    P g' ∧ ids.length = ops.length := by
  induction ops generalizing g ids with
  | nil =>
    cases h
    exact ⟨hg, rfl⟩
  | cons o ops ihops =>
    simp only [addOperands, bind_eq_some, some.injEq, Prod.mk.injEq] at h
    obtain ⟨r, hr, rs, hrs, rfl, rfl⟩ := h
    have hg1 : P r.2 := ih o mem_cons_self g r.2 r.1 hg hr
    obtain ⟨hg2, hlen⟩ := ihops (fun o ho => ih o (mem_cons_of_mem _ ho)) hg1 hrs
    exact ⟨hg2, congrArg (· + 1) hlen⟩

theorem addOperation_invariant (P : EGraph → Prop) (Q : Operation → Prop)
    (hQ : ∀ d ops, Q (.mk d ops) → ∀ o ∈ ops, Q o)
    (hadd : ∀ d ops ids, Q (.mk d ops) → ids.length = ops.length →
      ∀ (g g' : EGraph) id, P g → g.add ⟨d, ids⟩ = some (id, g') → P g')
    {o : Operation} (ho : Q o) (hg : P g) (h : g.addOperation o = some (id, g')) : P g' := by
  induction o using Operation.induct generalizing g g' id with
  | mk d ops ih =>
    unfold addOperation at h
    split at h
    · cases h
      exact hg
    · rename_i heq
      cases heq
      simp only [bind_eq_some] at h
      obtain ⟨r, hr, h⟩ := h
      obtain ⟨hg1, hlen⟩ := addOperands_invariant P
        (fun o hmem g g' id hg h => ih o hmem (hQ d ops ho o hmem) hg h) hg hr
      exact hadd d ops r.1 ho hlen r.2 g' id hg1 h

theorem addOperation_stays (P : EGraph → Prop)
    (hadd : ∀ (g g' : EGraph) n id, P g → g.add n = some (id, g') → P g') {o : Operation} (hg : P g)
    (h : g.addOperation o = some (id, g')) : P g' :=
  addOperation_invariant P (fun _ => True) (fun _ _ _ _ _ => trivial)
    (fun _ _ _ _ _ g g' id hg h => hadd g g' _ id hg h) trivial hg h

/-- Classes may have lost entries of their parents; without a recorded event not even that. -/
structure Pruned (g g' : EGraph) : Prop where
  frame : ∃ cs ev, g' = { g with classes := cs, trace.events := ev }
  events : g'.trace.events = [] → g.trace.events = []
  classes : ∀ k c', g'.classes.lookup k = some c' → ∃ c ps, g.classes.lookup k = some c ∧
    c' = { c with parents := ps } ∧
    (∀ n i, ps.lookup n = some i → c.parents.lookup n = some i) ∧
    (g'.trace.events = [] → ps = c.parents)
  keys : ∀ k, k ∈ g'.classes ↔ k ∈ g.classes

namespace Pruned

variable {g g' g'' : EGraph}

theorem refl (g : EGraph) : Pruned g g where
  frame := ⟨_, _, rfl⟩
  events := id
  classes _ c hc := ⟨c, c.parents, hc, rfl, fun _ _ h => h, fun _ => rfl⟩
  keys _ := Iff.rfl

theorem trans (h : Pruned g g') (h' : Pruned g' g'') : Pruned g g'' where
  frame := by
    obtain ⟨cs, ev, rfl⟩ := h.frame
    obtain ⟨cs', ev', rfl⟩ := h'.frame
    exact ⟨cs', ev', rfl⟩
  events he := h.events (h'.events he)
  classes k c'' hc'' := by
    obtain ⟨c', ps', hc', rfl, hsub', heq'⟩ := h'.classes k c'' hc''
    obtain ⟨c, ps, hc, rfl, hsub, heq⟩ := h.classes k c' hc'
    exact ⟨c, ps', hc, rfl, fun n i hn => hsub n i (hsub' n i hn),
      fun he => (heq' he).trans (heq (h'.events he))⟩
  keys k := (h'.keys k).trans (h.keys k)

theorem root (h : Pruned g g') (k : Nat) : g'.root k = g.root k := by
  obtain ⟨cs, ev, rfl⟩ := h.frame
  rfl

theorem size (h : Pruned g g') : g'.size = g.size := by
  obtain ⟨cs, ev, rfl⟩ := h.frame
  rfl

end Pruned

theorem eraseParent_pruned {o : Nat} (h : eraseParent n g o = some g') : Pruned g g' := by
  simp only [eraseParent, bind_eq_some, get_eq_some, some.injEq] at h
  obtain ⟨c, ⟨ho, hc⟩, rfl⟩ := h
  have hlook : ∀ (g1 : EGraph) k, (g1.setClass (g.root o)
      { c with parents := c.parents.erase n }).classes.lookup k =
        if k = g.root o then some { c with parents := c.parents.erase n }
        else g1.classes.lookup k := fun g1 k => Map.lookup_insert _ _ _ _
  have hsub : ∀ m i, (c.parents.erase n).lookup m = some i → c.parents.lookup m = some i := by
    intro m i hm
    rw [Map.lookup_erase] at hm
    split_ifs at hm
    exact hm
  have hkeys : ∀ (g1 : EGraph) k, g1.classes = g.classes → (k ∈ (g1.setClass (g.root o)
      { c with parents := c.parents.erase n }).classes ↔ k ∈ g.classes) := by
    intro g1 k hg
    rw [← AList.lookup_isSome, ← AList.lookup_isSome, hlook, hg]
    split_ifs with hk
    · rw [hk, hc]
      rfl
    · rfl
  have hclasses : ∀ (g1 : EGraph), g1.classes = g.classes →
      (g1.trace.events = [] → n ∉ c.parents) → ∀ k c',
      (g1.setClass (g.root o) { c with parents := c.parents.erase n }).classes.lookup k = some c' →
      ∃ d ps, g.classes.lookup k = some d ∧ c' = { d with parents := ps } ∧
        (∀ m i, ps.lookup m = some i → d.parents.lookup m = some i) ∧
        (g1.trace.events = [] → ps = d.parents) := by
    intro g1 hg hev k c' hk
    rw [hlook, hg] at hk
    split_ifs at hk with hko
    · cases hk
      exact ⟨c, c.parents.erase n, hko ▸ hc, rfl, hsub, fun he => Map.erase_of_notMem (hev he)⟩
    · exact ⟨c', c'.parents, hk, rfl, fun _ _ h => h, fun _ => rfl⟩
  split_ifs with hn
  · exact ⟨⟨_, _, rfl⟩, fun he => absurd he (cons_ne_nil _ _),
      hclasses (g.note .parentErased) rfl (fun he => absurd he (cons_ne_nil _ _)),
      fun k => hkeys (g.note .parentErased) k rfl⟩
  · exact ⟨⟨_, _, rfl⟩, id, hclasses g rfl (fun _ => hn), fun k => hkeys g k rfl⟩

theorem unparent_cases (h : g.unparent id = some g') :
    ∃ c index, g.classes.lookup id = some c ∧ c.constantIndex = some index ∧
      (c.nodes.length = 1 ∧ g' = g ∨
        ∃ g1 c1 node, Pruned g g1 ∧ g1.classes.lookup id = some c1 ∧
          c1.nodes = c.nodes ∧ c.nodes[index]? = some node ∧
          g' = g1.setClass id { c1 with nodes := [node], constantIndex := some 0 }) := by
  simp only [unparent, bind_eq_bind, bind_eq_some_iff] at h
  obtain ⟨c, hc, index, hidx, h⟩ := h
  refine ⟨c, index, hc, hidx, ?_⟩
  split_ifs at h with hlen
  · cases h
    exact .inl ⟨hlen, rfl⟩
  · simp only [bind_eq_some_iff, some.injEq] at h
    obtain ⟨g1, hfold, c1, hc1, node, hnode, rfl⟩ := h
    have hpruned : Pruned g g1 := by
      refine foldlM_invariant (Pruned g) ?_ hfold (Pruned.refl g)
      intro s n s' _ hs hps
      refine foldlM_invariant (Pruned g) ?_ hs hps
      intro t o t' _ ht hpt
      exact hpt.trans (eraseParent_pruned ht)
    obtain ⟨d, ps, hd, rfl, -, -⟩ := hpruned.classes id c1 hc1
    cases Map.lookup_unique hc hd
    exact .inr ⟨g1, _, node, hpruned, hc1, rfl, hnode, rfl⟩

theorem rehash_cases {p : ENode × Nat} (h : g.rehash p = some g') :
    (∀ o ∈ p.1.operands, o < g.size) ∧ p.2 < g.size ∧
      g' = { g with hashcons := (g.hashcons.erase p.1).insert (g.canon p.1) (g.root p.2) } := by
  simp only [rehash, bind_eq_some, canonicalize_eq_some, find_eq_some, some.injEq] at h
  obtain ⟨m, ⟨hlt, rfl⟩, r, ⟨hp, rfl⟩, rfl⟩ := h
  exact ⟨hlt, hp, rfl⟩

/-- The second loop of `repair`: the graph, the parents collected and the entries to come. -/
structure RepairState where
  graph : EGraph
  newParents : Map ENode Nat := ∅
  rest : List (ENode × Nat)

def repairStart (h : HashOrder) (g : EGraph) (id : Nat) : Option RepairState := do
  let c ← g.classes.lookup id
  let g1 ← (if c.isConstant then g.unparent id else some g)
  let c1 ← g1.classes.lookup id
  let parents := h.order g1.trace.clock c1.parents.pairs
  let g2 ← parents.foldlM rehash g1.tick
  some ⟨g2, ∅, parents⟩

def repairFinish (id : Nat) (r : EGraph × Map ENode Nat) : Option EGraph := do
  let c ← r.1.classes.lookup id
  let nodes ← c.nodes.mapM r.1.canonicalize
  some (r.1.setClass id { c with nodes := nodes, parents := r.2 })

theorem repair_eq (h : HashOrder) (fuel : Nat) (g : EGraph) (id : Nat) :
    g.repair h fuel id = (repairStart h g id).bind fun s =>
      (repairParents id fuel s.graph s.newParents s.rest).bind (repairFinish id) := by
  simp only [repair, repairStart, bind_eq_bind, bind_assoc, bind_some]
  rfl

theorem repairStart_cases {s : RepairState} (hs : repairStart h g id = some s) :
    ∃ c g1 c1 g2, g.classes.lookup id = some c ∧
      (c.isConstant ∧ g.unparent id = some g1 ∨ ¬ c.isConstant ∧ g1 = g) ∧
      g1.classes.lookup id = some c1 ∧
      (h.order g1.trace.clock c1.parents.pairs).foldlM rehash g1.tick = some g2 ∧
      s = ⟨g2, ∅, h.order g1.trace.clock c1.parents.pairs⟩ := by
  simp only [repairStart, bind_eq_some, some.injEq] at hs
  obtain ⟨c, hc, g1, hg1, c1, hc1, g2, hg2, rfl⟩ := hs
  refine ⟨c, g1, c1, g2, hc, ?_, hc1, hg2, rfl⟩
  split_ifs at hg1 with hconst
  · exact .inl ⟨hconst, hg1⟩
  · cases hg1
    exact .inr ⟨hconst, rfl⟩

theorem repairFinish_cases {ps : Map ENode Nat} (hr : repairFinish id (g, ps) = some g') :
    ∃ c, g.classes.lookup id = some c ∧ (∀ n ∈ c.nodes, ∀ o ∈ n.operands, o < g.size) ∧
      g' = g.setClass id { c with nodes := c.nodes.map g.canon, parents := ps } := by
  simp only [repairFinish, bind_eq_some, mapM_canonicalize_eq_some, some.injEq] at hr
  obtain ⟨c, hc, nodes, ⟨hlt, rfl⟩, rfl⟩ := hr
  exact ⟨c, hc, hlt, rfl⟩

/-- Pruning of a constant class, rehashing, merging of congruent parents, and the write to the
class. -/
theorem repair_cases (hr : g.repair h fuel id = some g') :
    ∃ c g1 c1 g2 g3 ps c3, g.classes.lookup id = some c ∧
      (c.isConstant ∧ g.unparent id = some g1 ∨ ¬ c.isConstant ∧ g1 = g) ∧
      g1.classes.lookup id = some c1 ∧
      (h.order g1.trace.clock c1.parents.pairs).foldlM rehash g1.tick = some g2 ∧
      repairParents id fuel g2 ∅ (h.order g1.trace.clock c1.parents.pairs) = some (g3, ps) ∧
      g3.classes.lookup id = some c3 ∧
      (∀ n ∈ c3.nodes, ∀ o ∈ n.operands, o < g3.size) ∧
      g' = g3.setClass id { c3 with nodes := c3.nodes.map g3.canon, parents := ps } := by
  rw [repair_eq] at hr
  obtain ⟨s, hs, hr⟩ := bind_eq_some_iff.mp hr
  obtain ⟨⟨g3, ps⟩, hloop, hfin⟩ := bind_eq_some_iff.mp hr
  obtain ⟨c3, hc3, hlt, rfl⟩ := repairFinish_cases hfin
  obtain ⟨c, g1, c1, g2, hc, hun, hc1, hg2, rfl⟩ := repairStart_cases hs
  exact ⟨c, g1, c1, g2, g3, ps, c3, hc, hun, hc1, hg2, hloop, hc3, hlt, rfl⟩

/-- The class `id` has all the parents of the class `k`. -/
def Covers (g : EGraph) (id k : Nat) : Prop :=
  ∃ c d, g.classes.lookup id = some c ∧ g.classes.lookup k = some d ∧
    d.parents.keys ⊆ c.parents.keys

namespace RepairState

def turn (id : Nat) (s : RepairState) : Option RepairState :=
  match s.rest with
  | [] => none
  | p :: rest => do
    let canonical ← s.graph.canonicalize p.1
    match s.newParents.lookup canonical with
    | none => do
      let parent ← s.graph.find p.2
      some ⟨s.graph, s.newParents.insert canonical parent, rest⟩
    | some other => do
      let r ← s.graph.merge p.2 other
      let newParents' := s.newParents.insert canonical r.1
      if s.graph.root p.2 = s.graph.root other then some ⟨r.2, newParents', rest⟩
      else if s.graph.root other = id then none
      else if s.graph.root p.2 = id then do
        let c ← s.graph.classes.lookup id
        let absorbed ← s.graph.classes.lookup (s.graph.root other)
        if absorbed.parents.keys ⊆ c.parents.keys then some ⟨r.2, newParents', rest⟩ else none
      else some ⟨r.2, newParents', rest⟩

def out (s : RepairState) : Option (EGraph × Map ENode Nat) :=
  match s.rest with
  | [] => some (s.graph, s.newParents)
  | _ :: _ => none

theorem isLoop (id : Nat) :
    IsLoop (fun fuel s => repairParents id fuel s.graph s.newParents s.rest) out
      (fun _ => turn id) where
  zero s b hb := by
    obtain ⟨g, ps, rest⟩ := s
    cases rest with
    | nil => exact hb
    | cons p rest => cases hb
  stop fuel s b hb := by
    obtain ⟨g, ps, rest⟩ := s
    cases rest with
    | nil => exact hb
    | cons p rest => cases hb
  next fuel s hs := by
    obtain ⟨g, ps, rest⟩ := s
    cases rest with
    | nil => cases hs
    | cons p rest =>
      simp only [repairParents, turn, bind_eq_bind, bind_assoc]
      refine Option.bind_congr fun canonical _ => ?_
      cases ps.lookup canonical with
      | none => simp only [bind_assoc, bind_some]
      | some other =>
        simp only [bind_assoc]
        refine Option.bind_congr fun r _ => ?_
        split_ifs
        · rfl
        · rfl
        · simp only [bind_assoc]
          refine Option.bind_congr fun c _ => Option.bind_congr fun d _ => ?_
          split_ifs
          · rfl
          · rfl
        · rfl
  step_mono _ _ _ _ _ ht := ht

theorem turn_cases {s s' : RepairState} (hs : s.turn id = some s') :
    ∃ p rest, s.rest = p :: rest ∧ (∀ o ∈ p.1.operands, o < s.graph.size) ∧
      ((s.newParents.lookup (s.graph.canon p.1) = none ∧ p.2 < s.graph.size ∧
          s' = ⟨s.graph, s.newParents.insert (s.graph.canon p.1) (s.graph.root p.2), rest⟩) ∨
        ∃ other r g, s.newParents.lookup (s.graph.canon p.1) = some other ∧
          s.graph.merge p.2 other = some (r, g) ∧
          s' = ⟨g, s.newParents.insert (s.graph.canon p.1) r, rest⟩ ∧
          (s.graph.root p.2 = s.graph.root other ∨ s.graph.root other ≠ id ∧
            (s.graph.root p.2 = id → s.graph.Covers id (s.graph.root other)))) := by
  obtain ⟨g, ps, rest⟩ := s
  cases rest with
  | nil => cases hs
  | cons p rest =>
    simp only [turn, bind_eq_bind, bind_eq_some_iff, canonicalize_eq_some] at hs
    obtain ⟨m, ⟨hlt, rfl⟩, hs⟩ := hs
    refine ⟨p, rest, rfl, hlt, ?_⟩
    cases hlook : ps.lookup (g.canon p.1) with
    | none =>
      simp only [hlook, bind_eq_some_iff, find_eq_some, some.injEq] at hs
      obtain ⟨r, ⟨hp, rfl⟩, rfl⟩ := hs
      exact .inl ⟨rfl, hp, rfl⟩
    | some other =>
      simp only [hlook, bind_eq_some_iff] at hs
      obtain ⟨⟨r, g1⟩, hmrg, hs⟩ := hs
      refine .inr ⟨other, r, g1, rfl, hmrg, ?_⟩
      split_ifs at hs with heq hother hown
      · cases hs
        exact ⟨rfl, .inl heq⟩
      · simp only [bind_eq_some_iff] at hs
        obtain ⟨c, hc, d, hd, hs⟩ := hs
        split_ifs at hs with hsub
        cases hs
        exact ⟨rfl, .inr ⟨hother, fun _ => ⟨c, d, hc, hd, hsub⟩⟩⟩
      · cases hs
        exact ⟨rfl, .inr ⟨hother, fun h => absurd h hown⟩⟩

end RepairState

theorem repairParents_invariant (P : RepairState → Prop)
    (hturn : ∀ s s', P s → s.turn id = some s' → P s') {ps ps' : Map ENode Nat}
    {rest : List (ENode × Nat)} (hr : repairParents id fuel g ps rest = some (g', ps'))
    (hs : P ⟨g, ps, rest⟩) : P ⟨g', ps', []⟩ := by
  obtain ⟨⟨g1, ps1, rest1⟩, hP, hout⟩ := (RepairState.isLoop id).invariant (s := ⟨g, ps, rest⟩) P
    (fun s t hs hstep => hturn s t hs hstep.2.choose_spec) hs hr
  cases rest1 with
  | nil =>
    cases hout
    exact hP
  | cons p rest1 => cases hout

theorem repair_mono {fuel' : Nat} (hle : fuel ≤ fuel') (hr : g.repair h fuel id = some g') :
    g.repair h fuel' id = some g' := by
  rw [repair_eq] at hr ⊢
  obtain ⟨s, hs, hr⟩ := bind_eq_some_iff.mp hr
  obtain ⟨r, hloop, hfin⟩ := bind_eq_some_iff.mp hr
  rw [hs, bind_some, (RepairState.isLoop id).mono hle (s := s) hloop, bind_some, hfin]

theorem rebuildStep_mono {fuel' : Nat} (hle : fuel ≤ fuel') (s : EGraph × List Nat) (e : Nat)
    (s' : EGraph × List Nat) (hs : rebuildStep h fuel s e = some s') :
    rebuildStep h fuel' s e = some s' := by
  simp only [rebuildStep, bind_eq_some] at hs ⊢
  obtain ⟨id, hid, g1, hg1, hs⟩ := hs
  exact ⟨id, hid, g1, repair_mono hle hg1, hs⟩

def rebuildOut (s : EGraph × List Nat) : Option (EGraph × List Nat) :=
  if s.1.worklist = [] then some s else none

def rebuildBody (h : HashOrder) (fuel : Nat) (s : EGraph × List Nat) : Option (EGraph × List Nat) :=
  s.1.worklist.foldlM (rebuildStep h fuel) ({ s.1 with worklist := [] }, s.2)

theorem rebuildOut_eq_some (hs : rebuildOut s = some s') : s' = s ∧ s.1.worklist = [] := by
  unfold rebuildOut at hs
  split_ifs at hs with hw
  exact ⟨(some.inj hs).symm, hw⟩

theorem rebuildOut_eq_none : rebuildOut s = none ↔ s.1.worklist ≠ [] := by
  unfold rebuildOut
  split_ifs with hw
  · exact ⟨fun h => (by cases h), fun h => absurd hw h⟩
  · exact ⟨fun _ => hw, fun _ => rfl⟩

theorem isLoop_rebuildLoop (h : HashOrder) : IsLoop (rebuildLoop h) rebuildOut (rebuildBody h) where
  zero s b hb := by cases hb
  stop fuel s b hb := by
    obtain ⟨rfl, hw⟩ := rebuildOut_eq_some hb
    rw [rebuildLoop, if_pos hw]
  next fuel s hs := by
    rw [rebuildLoop, if_neg (rebuildOut_eq_none.mp hs)]
    rfl
  step_mono fuel fuel' s t hle hs := foldlM_mono (rebuildStep_mono hle) hs

theorem rebuildLoop_invariant (P : EGraph × List Nat → Prop)
    (hstart : ∀ g stack, P (g, stack) → P ({ g with worklist := [] }, stack))
    (hstep : ∀ fuel s eclass s', P s → rebuildStep h fuel s eclass = some s' → P s')
    (hr : rebuildLoop h fuel s = some s') (hs : P s) : P s' ∧ s'.1.worklist = [] := by
  have hbody : ∀ t t', P t → LoopStep rebuildOut (rebuildBody h) t t' → P t' := by
    rintro t t' hP ⟨-, fuel, ht⟩
    exact foldlM_invariant P (fun u e u' _ hu hP => hstep fuel u e u' hP hu) ht
      (hstart t.1 t.2 hP)
  obtain ⟨t, hP, hout⟩ := (isLoop_rebuildLoop h).invariant P hbody hs hr
  obtain ⟨rfl, hw⟩ := rebuildOut_eq_some hout
  exact ⟨hP, hw⟩

theorem rebuildStep_cases {eclass : Nat} (hs : rebuildStep h fuel s eclass = some s') :
    eclass < s.1.size ∧ ∃ g c, s.1.repair h fuel (s.1.root eclass) = some g ∧
      g.classes.lookup (s.1.root eclass) = some c ∧
      s' = (g.tick, (h.order g.trace.clock (c.parents.pairs.map Prod.snd)).reverse ++ s.2) := by
  simp only [rebuildStep, bind_eq_some, find_eq_some, some.injEq] at hs
  obtain ⟨id, ⟨hlt, rfl⟩, g, hg, c, hc, rfl⟩ := hs
  exact ⟨hlt, g, c, hg, hc, rfl⟩

structure Cleared (g g' : EGraph) : Prop where
  frame : ∃ cs up clock, g' = { g with classes := cs, updated := up, trace.clock := clock }
  classes : ∀ k, g'.classes.lookup k = g.classes.lookup k ∨
    ∃ c, g.classes.lookup k = some c ∧ g'.classes.lookup k = some { c with cache := {} }
  updated : g.updated ⊆ g'.updated
  bounds : ∀ i ∈ g'.updated, i ∈ g.updated ∨ i < g.size

namespace Cleared

variable {g g' g'' : EGraph}

theorem refl (g : EGraph) : Cleared g g where
  frame := ⟨_, _, _, rfl⟩
  classes _ := .inl rfl
  updated _ h := h
  bounds _ h := .inl h

theorem size (h : Cleared g g') : g'.size = g.size := by
  obtain ⟨cs, up, clock, rfl⟩ := h.frame
  rfl

theorem trans (h : Cleared g g') (h' : Cleared g' g'') : Cleared g g'' where
  frame := by
    obtain ⟨cs, up, clock, rfl⟩ := h.frame
    obtain ⟨cs', up', clock', rfl⟩ := h'.frame
    exact ⟨cs', up', clock', rfl⟩
  classes k := by
    rcases h'.classes k with heq' | ⟨c', hc', heq'⟩
    · rw [heq']
      exact h.classes k
    · rcases h.classes k with heq | ⟨c, hc, heq⟩
      · exact .inr ⟨c', heq ▸ hc', heq'⟩
      · rw [heq] at hc'
        cases hc'
        exact .inr ⟨c, hc, heq'⟩
  updated _ hi := h'.updated (h.updated hi)
  bounds i hi := by
    rcases h'.bounds i hi with hi | hi
    · exact h.bounds i hi
    · exact .inr (h.size ▸ hi)

theorem clearCache {c : EClass} (hc : g.get i = some c) : Cleared g (g.clearCache i c).tick where
  frame := ⟨_, _, _, rfl⟩
  classes k := by
    have hlook : (g.clearCache i c).tick.classes.lookup k =
        if k = g.root i then some { c with cache := {} } else g.classes.lookup k :=
      Map.lookup_insert _ _ _ _
    rw [hlook]
    split_ifs with hk
    · exact .inr ⟨c, hk ▸ (get_eq_some.mp hc).2, rfl⟩
    · exact .inl rfl
  updated _ hi := mem_insert_of_mem hi
  bounds k hk := by
    rcases mem_insert_iff.mp hk with rfl | hk
    · exact .inr (get_eq_some.mp hc).1
    · exact .inl hk

end Cleared

structure ClearState where
  graph : EGraph
  visited : List Nat
  stack : List Nat

namespace ClearState

def turn (h : HashOrder) (s : ClearState) : Option ClearState :=
  match s.stack with
  | [] => none
  | id :: stack =>
    if id ∈ s.visited then some { s with stack := stack }
    else do
      let c ← s.graph.get id
      let parents := (h.order s.graph.trace.clock (c.parents.pairs.map Prod.snd)).filter
        (· ∉ id :: s.visited)
      some ⟨(s.graph.clearCache id c).tick, id :: s.visited, parents.reverse ++ stack⟩

def out (s : ClearState) : Option EGraph :=
  match s.stack with
  | [] => some s.graph
  | _ :: _ => none

theorem isLoop (h : HashOrder) :
    IsLoop (fun fuel s => clearCaches h fuel s.graph s.visited s.stack) out (fun _ => turn h) where
  zero s b hb := by
    obtain ⟨g, visited, stack⟩ := s
    cases stack with
    | nil => exact hb
    | cons id stack => cases hb
  stop fuel s b hb := by
    obtain ⟨g, visited, stack⟩ := s
    cases stack with
    | nil => exact hb
    | cons id stack => cases hb
  next fuel s hs := by
    obtain ⟨g, visited, stack⟩ := s
    cases stack with
    | nil => cases hs
    | cons id stack =>
      change clearCaches h (fuel + 1) g visited (id :: stack) = _
      rw [clearCaches]
      unfold turn
      dsimp only
      split_ifs with hvisd
      · rfl
      · simp only [bind_eq_bind, bind_assoc, bind_some]
  step_mono _ _ _ _ _ hs := hs

theorem turn_cases {s s' : ClearState} (hs : s.turn h = some s') :
    ∃ id stack, s.stack = id :: stack ∧
      (id ∈ s.visited ∧ s' = { s with stack := stack } ∨
        ∃ c, id ∉ s.visited ∧ s.graph.get id = some c ∧
          s' = ⟨(s.graph.clearCache id c).tick, id :: s.visited,
            ((h.order s.graph.trace.clock (c.parents.pairs.map Prod.snd)).filter
              (· ∉ id :: s.visited)).reverse ++ stack⟩) := by
  unfold turn at hs
  split at hs
  · cases hs
  · next id stack hstk =>
    split_ifs at hs with hvisd
    · cases hs
      exact ⟨id, stack, hstk, .inl ⟨hvisd, rfl⟩⟩
    · simp only [bind_eq_some, some.injEq] at hs
      obtain ⟨c, hc, rfl⟩ := hs
      exact ⟨id, stack, hstk, .inr ⟨c, hvisd, hc, rfl⟩⟩

end ClearState

theorem clearCaches_cases {visited stack : List Nat}
    (hs : clearCaches h fuel g visited stack = some g') : Cleared g g' := by
  have hturn : ∀ s t : ClearState, Cleared g s.graph →
      LoopStep ClearState.out (fun _ => ClearState.turn h) s t → Cleared g t.graph := by
    rintro s t hs ⟨-, _, ht⟩
    obtain ⟨id, stack, -, ⟨-, rfl⟩ | ⟨c, -, hc, rfl⟩⟩ := ClearState.turn_cases ht
    · exact hs
    · exact hs.trans (Cleared.clearCache hc)
  obtain ⟨⟨g1, visited1, stack1⟩, hcleared, hout⟩ :=
    (ClearState.isLoop h).invariant (s := ⟨g, visited, stack⟩) (fun t => Cleared g t.graph) hturn
      (Cleared.refl g) hs
  cases stack1 with
  | nil =>
    cases hout
    exact hcleared
  | cons id stack1 => cases hout

end EGraph

end Caffeine
