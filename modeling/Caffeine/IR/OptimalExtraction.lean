import Caffeine.IR.ConstpropReads
import Caffeine.IR.EGraphExtraction
import Caffeine.IR.FoldedCosts
import Mathlib.Order.Lattice.Nat

/-!
# The cost of what is extracted

A class represents the expressions that can be read off its nodes. `extract` returns one of least
cost if the caches were filled on the same graph, the constructor accepts what is extracted, and
every class in reach has a cheapest expression that leaves the cycles of the class at its first
node: only then are the costs that `eval_cost` keeps exact.
-/

namespace Caffeine

open Operation OperationSimplifier EGraphExtractor List Option

variable {c : EClass} {ops : List Nat} {id : Nat}

namespace EGraph

/-- What the constructor makes of the nodes of a class, below as above. -/
inductive Extracts (create : Constructor) (g : EGraph) :
    Nat → Operation → Prop where
  | node {k : Nat} {c : EClass} {n : ENode} {es : List Operation} {e : Operation}
      (eclass : g.classes.lookup k = some c) (mem : n ∈ c.nodes)
      (length : n.operands.length = es.length)
      (operands : ∀ o e, (o, e) ∈ n.operands.zip es → Extracts create g (g.root o) e)
      (created : create n.data es = some e) : Extracts create g k e

def Represents (g : EGraph) : Nat → Operation → Prop :=
  g.Extracts fun d es => some (.mk d es)

/-- The constructor accepts every node of the class, whatever is extracted for its operands. -/
def Accepts (create : Constructor) (g : EGraph) (k : Nat) :
    Prop :=
  ∀ c, g.classes.lookup k = some c → ∀ n ∈ c.nodes, ∀ es,
    Forall₂ (fun o e => g.Extracts create (g.root o) e) n.operands es →
      ∃ e, create n.data es = some e

noncomputable def least (g : EGraph) (k : Nat) : Nat :=
  sInf {cost | ∃ e, g.Represents k e ∧ e.treeCost = cost}

/-- The class has a cheapest expression whose first node does not lead back to the class. -/
structure Exits (g : EGraph) (k : Nat) : Prop where
  cheapest : ∀ c, g.classes.lookup k = some c → ∃ n ∈ c.nodes, ∃ es,
    (∀ o ∈ n.operands, ¬ g.Reaches (g.root o) k) ∧
      Forall₂ (fun o e => g.Represents (g.root o) e) n.operands es ∧
      ∀ e, g.Represents k e → (Operation.mk n.data es).treeCost ≤ e.treeCost
  cost : g.least k < 2 ^ 32
  lengths : ∀ c, g.classes.lookup k = some c → c.nodes.length ≤ sizeMax ∧
    ∀ n ∈ c.nodes, n.operands.length < 2 ^ 32

section Least

variable {g g' : EGraph} {k : Nat} {e : Operation} {es : List Operation} {n : ENode}

theorem extracts_of_created {create : Constructor} (hc : g.classes.lookup k = some c)
    (hn : n ∈ c.nodes) (hes : Forall₂ (fun o e => g.Extracts create (g.root o) e) n.operands es)
    (he : create n.data es = some e) : g.Extracts create k e :=
  .node hc hn hes.length_eq (fun _ _ h => (forall₂_iff_zip.mp hes).2 h) he

theorem represents_mk (hc : g.classes.lookup k = some c) (hn : n ∈ c.nodes)
    (hes : Forall₂ (fun o e => g.Represents (g.root o) e) n.operands es) :
    g.Represents k (.mk n.data es) :=
  extracts_of_created hc hn hes rfl

theorem least_le (h : g.Represents k e) : g.least k ≤ e.treeCost := Nat.sInf_le ⟨e, h, rfl⟩

theorem sum_least_le (hes : Forall₂ (fun o e => g.Represents (g.root o) e) ops es) :
    (ops.map fun o => g.least (g.root o)).sum ≤ (es.map treeCost).sum := by
  induction hes with
  | nil => exact le_rfl
  | cons hoe _ ih =>
    simp only [map_cons, sum_cons]
    have hle := least_le hoe
    omega

theorem opcodeCost_le (op : Opcode) : opcodeCost op ≤ 2 ^ 16 := by
  unfold opcodeCost
  split <;> omega

theorem Exits.bounded (hk : ∀ j, g.Reaches k j → g.Exits j) : g.Bounded g.least k := by
  have hself := hk k Relation.ReflTransGen.refl
  refine ⟨fun c hc => ?_, fun _ => by have := hself.cost; omega, fun c hc => ?_⟩
  · obtain ⟨n, hn, es, hexit, hes, hmin⟩ := hself.cheapest c hc
    refine ⟨n, hn, hexit, ?_⟩
    have hleast : (Operation.mk n.data es).treeCost ≤ g.least k := by
      refine le_csInf ⟨_, _, represents_mk hc hn hes, rfl⟩ ?_
      rintro _ ⟨e, he, rfl⟩
      exact hmin e he
    rw [treeCost_mk] at hleast
    have hsum := sum_least_le hes
    exact (Nat.add_le_add_left hsum _).trans hleast
  · obtain ⟨hlength, hops⟩ := hself.lengths c hc
    refine ⟨hlength, fun n hn => ?_⟩
    have hceiling : ∀ o ∈ n.operands, g.ceiling g.least (g.root o) ≤ 2 ^ 32 - 1 := by
      intro o ho
      unfold ceiling
      split_ifs
      · exact le_rfl
      · have hcost := (hk _ (Relation.ReflTransGen.single ⟨c, n, o, hc, hn, ho, rfl⟩)).cost
        omega
    have hsum := sum_le_card_nsmul (n.operands.map fun o => g.ceiling g.least (g.root o))
      (2 ^ 32 - 1) (by
        intro x hx
        obtain ⟨o, ho, rfl⟩ := List.mem_map.mp hx
        exact hceiling o ho)
    rw [length_map, nsmul_eq_mul, Nat.cast_id] at hsum
    have hop := opcodeCost_le n.opcode
    have hlen := hops n hn
    have hmul : n.operands.length * (2 ^ 32 - 1) ≤ (2 ^ 32 - 1) * (2 ^ 32 - 1) :=
      Nat.mul_le_mul_right _ (by omega)
    unfold sizeMax
    omega

theorem Adds.represents {known : Nat → Option EClassCost} {start total : Nat}
    (ha : Adds g known start ops total)
    (hops : ∀ o ∈ ops, ∃ cost e, known (g.root o) = some cost ∧ g.Represents (g.root o) e ∧
      e.treeCost = cost.cost) : ∃ es, Forall₂ (fun o e => g.Represents (g.root o) e) ops es ∧
      start + (es.map treeCost).sum = total := by
  obtain ⟨costs, hcosts, htot⟩ := ha
  induction hcosts generalizing start with
  | nil => exact ⟨[], .nil, htot.symm⟩
  | @cons o cost ops costs hknown _ ih =>
    obtain ⟨cost', e, hcost', he, htree⟩ := hops o mem_cons_self
    cases some.inj (hcost'.symm.trans hknown)
    rw [map_cons, sum_cons, ← Nat.add_assoc] at htot
    obtain ⟨es, hes, hsum⟩ := ih (fun o ho => hops o (mem_cons_of_mem _ ho)) htot
    refine ⟨e :: es, .cons he hes, ?_⟩
    rw [map_cons, sum_cons, htree, ← Nat.add_assoc]
    exact hsum

theorem Settled.represents {known : Nat → Option EClassCost} (h : Settled g known k) :
    ∃ cost e, known k = some cost ∧ g.Represents k e ∧ e.treeCost = cost.cost := by
  induction h with
  | @intro k cost c n evaluated eclass chosen adds _ ih =>
    obtain ⟨es, hes, hsum⟩ := adds.represents ih
    exact ⟨cost, .mk n.data es, evaluated,
      represents_mk eclass (mem_of_getElem? chosen) hes, (treeCost_mk _ _).trans hsum⟩

end Least

/-- Folding expands no node of the class, and literals have no operands. -/
def Plain (g : EGraph) (k : Nat) : Prop :=
  ∀ c, g.classes.lookup k = some c → ∀ n ∈ c.nodes, expands n.data = false ∧
    ∀ v, n.data = .constantInt v → n.operands = []

structure Optimal (g : EGraph) (k : Nat) (e : Operation) : Prop where
  cheapest : (∀ j, g.Reaches k j → g.Plain j) →
    AllNodes LeafLiteral e ∧ e.treeCost ≤ g.least k
  literal : ∀ v c, g.classes.lookup k = some c → c.nodes = [⟨.constantInt v, []⟩] →
    e = constantInt v

section Optimal

variable {g : EGraph} {cache : OperationCache}

theorem cost_eq_least {x : EGraphExtractor} (hx : Ready g g.least x) {k : Nat} {cost : EClassCost}
    (hk : x.known k = some cost) : cost.cost = g.least k := by
  obtain ⟨hsettled, hle⟩ := hx.settled k cost hk
  obtain ⟨cost', e, hcost', he, htree⟩ := hsettled.represents
  cases some.inj (hcost'.symm.trans hk)
  exact le_antisymm hle (htree ▸ least_le he)

theorem Adds.optimal {y : EGraphExtractor} (hy : Ready g g.least y) {start total : Nat}
    {es : List Operation} (ha : Adds g y.known start ops total)
    (hes : Forall₂ (fun o e => g.Optimal (g.root o) e) ops es)
    (hplain : ∀ o ∈ ops, ∀ j, g.Reaches (g.root o) j → g.Plain j) :
    (∀ e ∈ es, AllNodes LeafLiteral e) ∧ start + (es.map treeCost).sum ≤ total := by
  obtain ⟨costs, hcosts, htot⟩ := ha
  induction hes generalizing start costs with
  | nil =>
    cases hcosts
    exact ⟨fun _ h => absurd h not_mem_nil, htot.ge⟩
  | @cons o e ops es he _ ih =>
    obtain _ | @⟨_, cost, _, costs, hknown, hcosts⟩ := hcosts
    obtain ⟨hplain, hrest⟩ := forall_mem_cons.mp hplain
    obtain ⟨hnodes, hle⟩ := he.cheapest hplain
    rw [map_cons, sum_cons, ← Nat.add_assoc] at htot
    obtain ⟨hall, hsum⟩ := ih hrest costs hcosts htot
    refine ⟨forall_mem_cons.mpr ⟨hnodes, hall⟩, ?_⟩
    rw [← cost_eq_least hy hknown] at hle
    rw [map_cons, sum_cons]
    omega

theorem Optimal.create {y : EGraphExtractor} (hy : Ready g g.least y) {k : Nat} {cost : EClassCost}
    {n : ENode} {es : List Operation} {e : Operation} (hcost : y.known k = some cost)
    (hc : g.classes.lookup k = some c) (hn : c.nodes[cost.index]? = some n)
    (hes : Forall₂ (fun o e => g.Optimal (g.root o) e) n.operands es)
    (he : createRaw cache n.data es = some e) : g.Optimal k e := by
  have hmem := mem_of_getElem? hn
  refine ⟨fun hplain => ?_, fun v d hd hnodes => ?_⟩
  · obtain ⟨evaluated, eclass, chosen, adds, -⟩ := (hy.settled k cost hcost).1
    cases some.inj (hcost.symm.trans evaluated)
    cases Map.lookup_unique hc eclass
    cases some.inj (hn.symm.trans chosen)
    obtain ⟨hd, hleaf⟩ := hplain k Relation.ReflTransGen.refl c hc n hmem
    have hleaf' : LeafLiteral n.data es := by
      intro v hv
      rw [hleaf v hv] at hes
      cases hes
      rfl
    obtain ⟨hnodes, hsum⟩ := adds.optimal hy hes fun o ho j hj =>
      hplain j (Relation.ReflTransGen.head ⟨c, n, o, hc, hmem, ho, rfl⟩ hj)
    obtain ⟨hall, hle⟩ := createRaw_cost hd hleaf' hnodes he
    rw [← cost_eq_least hy hcost]
    exact ⟨hall, hle.trans hsum⟩
  · cases Map.lookup_unique hc hd
    rw [hnodes] at hmem
    obtain rfl := mem_singleton.mp hmem
    cases hes
    cases he
    rfl

/-- An expression that the constructor made and that is a cheapest one. -/
structure Best (cache : OperationCache) (g : EGraph) (k : Nat) (e : Operation) : Prop where
  extracts : g.Extracts (createRaw cache) k e
  optimal : g.Optimal k e

end Optimal

namespace Recached

variable {g g' : EGraph} {k : Nat} {e : Operation}

theorem symm (h : Recached g g') : Recached g' g :=
  ⟨h.size.symm, fun k => (h.root k).symm, fun k => (h.nodes k).symm⟩

theorem lookup (h : Recached g g') (hc : g.classes.lookup k = some c) :
    ∃ c', g'.classes.lookup k = some c' ∧ c'.nodes = c.nodes := by
  have hnodes := h.nodes k
  rw [hc, map_some] at hnodes
  exact map_eq_some_iff.mp hnodes

theorem extracts (h : Recached g g') {create : Constructor}
    (hr : g.Extracts create k e) : g'.Extracts create k e := by
  induction hr with
  | node eclass mem length _ created ih =>
    obtain ⟨c', hc', hnodes⟩ := h.lookup eclass
    refine .node hc' (hnodes ▸ mem) length (fun o e ho => ?_) created
    rw [h.root]
    exact ih o e ho

theorem represents (h : Recached g g') (hr : g.Represents k e) : g'.Represents k e :=
  h.extracts hr

theorem accepts (h : Recached g g') {create : Constructor}
    (hk : g'.Accepts create k) : g.Accepts create k := by
  intro c hc n hn es hes
  obtain ⟨c', hc', hnodes⟩ := h.lookup hc
  refine hk c' hc' n (hnodes ▸ hn) es (hes.imp fun o e he => ?_)
  rw [h.root]
  exact h.extracts he

theorem reaches (h : Recached g g') {i j : Nat} (hr : g.Reaches i j) : g'.Reaches i j := by
  refine Relation.ReflTransGen.mono (fun a b hab => ?_) _ _ hr
  obtain ⟨c, n, o, hc, hn, ho, rfl⟩ := hab
  obtain ⟨c', hc', hnodes⟩ := h.lookup hc
  exact ⟨c', n, o, hc', hnodes ▸ hn, ho, (h.root o).symm⟩

theorem least (h : Recached g g') (k : Nat) : g'.least k = g.least k := by
  refine congrArg sInf (Set.ext fun cost => ?_)
  constructor
  · rintro ⟨e, he, rfl⟩
    exact ⟨e, h.symm.represents he, rfl⟩
  · rintro ⟨e, he, rfl⟩
    exact ⟨e, h.represents he, rfl⟩

theorem exits (h : Recached g g') (hk : g'.Exits k) : g.Exits k := by
  refine ⟨fun c hc => ?_, h.least k ▸ hk.cost, fun c hc => ?_⟩
  · obtain ⟨c', hc', hnodes⟩ := h.lookup hc
    obtain ⟨n, hn, es, hexit, hes, hmin⟩ := hk.cheapest c' hc'
    refine ⟨n, hnodes ▸ hn, es, fun o ho hback => ?_, hes.imp fun o e he => ?_,
      fun e he => hmin e (h.represents he)⟩
    · refine hexit o ho ?_
      rw [h.root]
      exact h.reaches hback
    · rw [h.root] at he
      exact h.symm.represents he
  · obtain ⟨c', hc', hnodes⟩ := h.lookup hc
    rw [← hnodes]
    exact hk.lengths c' hc'

end Recached

end EGraph

namespace EGraphExtractor

open EGraph

theorem extract_isConst {createRaw : Constructor} {fuel : Nat}
    {x : EGraphExtractor} {r : Operation × EGraphExtractor}
    (h : extract createRaw fuel x id = some r) : r.2.isConst = x.isConst := by
  induction fuel generalizing x id r with
  | zero => cases h
  | succ fuel ih =>
    rw [extract, bind_eq_some] at h
    obtain ⟨root, -, h⟩ := h
    obtain ⟨c, -, h⟩ := bind_eq_some_iff.mp h
    split at h
    · cases h
      rfl
    · cases h
      rfl
    · obtain ⟨cost, hcost, h⟩ := bind_eq_some_iff.mp h
      obtain ⟨n, -, h⟩ := bind_eq_some_iff.mp h
      obtain ⟨rs, hrs, h⟩ := bind_eq_some_iff.mp h
      obtain ⟨e, -, h⟩ := bind_eq_some_iff.mp h
      cases h
      refine foldlM_invariant (fun s => s.2.isConst = x.isConst) ?_ hrs (evalCost_step hcost).2.2
      intro s o s' _ hs hconst
      obtain ⟨t, ht, hs⟩ := bind_eq_some_iff.mp hs
      cases hs
      exact (ih ht).trans hconst

end EGraphExtractor

namespace EGraph

/-- The caches of the graph were filled by extractions from the graph as it is now. -/
def Consistent (cache : OperationCache) (s : EGraph) : Prop :=
  ∃ g : EGraph, g.Complete ∧ Ready g g.least { graph := s } ∧
    Expressed (g.Best cache) { graph := s }

/-- What extracting from a class asks of a class in its reach. -/
structure Extractable (cache : OperationCache) (g : EGraph) (k : Nat) : Prop where
  exits : g.Exits k
  accepts : g.Accepts (createRaw cache) k

namespace Consistent

variable {s : EGraph} {cache : OperationCache}

theorem of_complete (hs : s.Complete) : s.Consistent cache := by
  refine ⟨s, hs, ready_init hs s.least false, ⟨fun k c e hc he => ?_, fun k e he => nomatch he⟩⟩
  rw [(hs.fresh k c hc).1] at he
  cases he

theorem complete (hs : s.Consistent cache)
    (hemp : ∀ k c, s.classes.lookup k = some c → c.cache = {}) : s.Complete := by
  obtain ⟨g, hg, hready, -⟩ := hs
  refine ⟨fun i hi => ?_, fun k c hc => ⟨hemp k c hc, ?_⟩⟩
  · obtain ⟨c, hc⟩ := hg.classes i (hready.same.size ▸ hi)
    obtain ⟨c', hc', -⟩ := hready.same.lookup hc
    exact ⟨c', by rwa [hready.same.root]⟩
  · obtain ⟨c', hc', hnodes⟩ := hready.same.symm.lookup hc
    rw [← hnodes, hready.same.size]
    exact (hg.fresh k c' hc').2

theorem extract (hs : s.Consistent cache) (isConst : Bool) (hid : id < s.size)
    (hreach : ∀ k, s.Reaches (s.root id) k → s.Extractable cache k) :
    ∃ g : EGraph, g.Complete ∧ Recached g s ∧ ∀ᶠ fuel in Filter.atTop, ∃ r,
      EGraphExtractor.extract (createRaw cache) fuel
        { graph := s, isConst := isConst } id = some r ∧ Ready g g.least r.2 ∧
        Expressed (g.Best cache) r.2 ∧ g.Best cache (g.root id) r.1 := by
  obtain ⟨g, hg, hready, hexpressed⟩ := hs
  have hsame : Recached g s := hready.same
  have hready' : Ready g g.least { graph := s, isConst := isConst } :=
    ⟨hready.same, hready.costs, fun _ => hready.written rfl, hready.settled⟩
  have hexpressed' : Expressed (g.Best cache) { graph := s, isConst := isConst } :=
    ⟨hexpressed.cached, hexpressed.own⟩
  have hreach' : ∀ k, g.Reaches (g.root id) k → s.Extractable cache k := by
    intro k hk
    refine hreach k ?_
    rw [hsame.root]
    exact hsame.reaches hk
  have hbd : ∀ k, g.Reaches (g.root id) k → g.Bounded g.least k := fun k hk =>
    Exits.bounded fun j hj => hsame.exits (hreach' j (hk.trans hj)).exits
  refine ⟨g, hg, hsame, extract_start (createRaw cache) hg hready' hexpressed' rfl
    (hsame.size ▸ hid) hbd fun y hy k cost c n es hk hcost hc hn hes => ?_⟩
  have hext := hes.imp fun _ _ h => h.extracts
  obtain ⟨e, he⟩ := hsame.accepts (hreach' k hk).accepts c hc n (mem_of_getElem? hn) es hext
  exact ⟨e, he, extracts_of_created hc (mem_of_getElem? hn) hext he,
    Optimal.create hy hcost hc hn (hes.imp fun _ _ h => h.optimal) he⟩

theorem extracted (hs : s.Consistent cache) {fuel : Nat} {e : Operation} {s' : EGraph}
    (hreach : ∀ k, s.Reaches (s.root id) k → s.Extractable cache k)
    (h : EGraph.extract (createRaw cache) fuel s id = some (e, s')) : s'.Consistent cache := by
  obtain ⟨r, hr, heq⟩ := map_eq_some_iff.mp h
  cases heq
  have hid : id < s.size := by
    cases fuel with
    | zero => cases hr
    | succ fuel =>
      rw [EGraphExtractor.extract, bind_eq_some] at hr
      obtain ⟨root, hroot, -⟩ := hr
      exact (find_eq_some.mp hroot).1
  obtain ⟨g, hg, -, heventually⟩ := hs.extract false hid hreach
  obtain ⟨N, hN⟩ := Filter.eventually_atTop.mp heventually
  obtain ⟨r', hr', hready, hexpressed, -⟩ := hN (fuel + N) (Nat.le_add_left _ _)
  cases some.inj ((extract_add hr N).symm.trans hr')
  have hconst : r.2.isConst = false := extract_isConst hr
  -- a mutable extractor writes every cost it finds into the caches
  have hknown : known { graph := r.2.graph } = r.2.known := by
    funext k
    cases hk : r.2.known k with
    | none => exact known_eq_none.mpr ⟨(known_eq_none.mp hk).1, rfl⟩
    | some cost =>
      obtain ⟨c, hc, hcost⟩ := hready.written hconst k cost hk
      rw [known_eq (x := { graph := r.2.graph }) hc, hcost]
      rfl
  refine ⟨g, hg, ⟨hready.same, (fun k cost hk => by cases hk), fun _ k cost hk => ?_, ?_⟩,
    ⟨hexpressed.cached, fun k e hk => by cases hk⟩⟩
  · exact hready.written hconst k cost (hknown ▸ hk)
  · rw [hknown]
    exact hready.settled

end Consistent

end EGraph

/-- Graphs are changed only while nothing is cached, and classes extracted have cheapest expressions
out of their cycles and nodes that the constructor accepts. -/
def EGraphCall.Orderly (cache : OperationCache) (g : EGraph) : EGraphCall → Prop
  | extract _ id => ∀ k, g.Reaches (g.root id) k → g.Extractable cache k
  | _ => ∀ k c, g.classes.lookup k = some c → c.cache = {}

namespace EGraphSession

open EGraph

section

variable (h : HashOrder) (cache : OperationCache)

def Orderly : EGraphSession → List EGraphCall → Prop
  | _, [] => True
  | s, call :: calls => call.Orderly cache s.graph ∧
    ∀ t ∈ exec h (createRaw cache) s call, Orderly t calls

end

variable {h : HashOrder} {cache : OperationCache} {s s' : EGraphSession}

theorem exec_consistent {call : EGraphCall} (hs : s.graph.Consistent cache)
    (hcall : call.Orderly cache s.graph) (he : exec h (createRaw cache) s call = some s') :
    s'.graph.Consistent cache := by
  cases call with
  | extract fuel id =>
    obtain ⟨r, hr, rfl⟩ := map_eq_some_iff.mp he
    exact hs.extracted hcall hr
  | _ => exact .of_complete (exec_complete rfl he (hs.complete hcall))

theorem run_consistent {calls : List EGraphCall} (hs : s.graph.Consistent cache)
    (hcalls : Orderly h cache s calls) (hr : run h (createRaw cache) s calls = some s') :
    s'.graph.Consistent cache := by
  induction calls generalizing s with
  | nil =>
    cases hr
    exact hs
  | cons call calls ih =>
    obtain ⟨t, he, hr⟩ := foldlM_cons_eq_some.mp hr
    exact ih (exec_consistent hs hcalls.1 he) (hcalls.2 t he) hr

theorem orderly_append {calls rest : List EGraphCall}
    (hcalls : ∀ call ∈ calls, call.isUpdate = true) (hs : s.graph.Complete)
    (hrest : ∀ t, run h (createRaw cache) s calls = some t → Orderly h cache t rest) :
    Orderly h cache s (calls ++ rest) := by
  induction calls generalizing s with
  | nil => exact hrest s rfl
  | cons call calls ih =>
    obtain ⟨hcall, hcalls⟩ := forall_mem_cons.mp hcalls
    refine ⟨?_, fun t ht => ih hcalls (exec_complete hcall ht hs) fun u hu =>
      hrest u (foldlM_cons_eq_some.mpr ⟨t, ht, hu⟩)⟩
    cases call with
    | extract fuel id => cases hcall
    | _ => exact fun k c hc => (hs.fresh k c hc).1

namespace Product

def calls : List EGraphCall :=
  [.add (.constant (.int 8) (.numbered 0)), .add (constantInt ⟨8, 1⟩),
    .addNode ⟨.binary .mul (.int 8), [0, 1]⟩, .merge 0 2, .rebuild 9]

def Shape (g : EGraph) : Prop :=
  g.size = 3 ∧ g.root 0 = 0 ∧ g.root 1 = 1 ∧
    g.classes.pairs.map (fun p => (p.1, p.2.nodes)) = [
      (0, [⟨.constant (.int 8) (.numbered 0), []⟩, ⟨.binary .mul (.int 8), [0, 1]⟩]),
      (1, [⟨.constantInt ⟨8, 1⟩, []⟩])]

instance (g : EGraph) : Decidable (Shape g) := inferInstanceAs (Decidable (_ ∧ _))

variable {g : EGraph} (hg : Shape g) {k : Nat}

include hg

theorem lookup_cases (hc : g.classes.lookup k = some c) :
    k = 0 ∧ c.nodes = [⟨.constant (.int 8) (.numbered 0), []⟩, ⟨.binary .mul (.int 8), [0, 1]⟩] ∨
      k = 1 ∧ c.nodes = [⟨.constantInt ⟨8, 1⟩, []⟩] := by
  have hmem := List.mem_map_of_mem (f := fun p : Nat × EClass => (p.1, p.2.nodes))
    (Map.mem_pairs.mpr hc)
  rw [hg.2.2.2] at hmem
  simpa using hmem

theorem symbol_cheapest {e : Operation} (h : g.Represents k e) (hk : k = 0) :
    2 ^ 16 ≤ e.treeCost := by
  induction h with
  | @node k c n es _ eclass mem length operands created ih =>
    cases created
    obtain ⟨-, hnodes⟩ := (lookup_cases hg eclass).resolve_right (by omega)
    rw [hnodes, mem_cons, mem_singleton] at mem
    rw [treeCost_mk]
    rcases mem with rfl | rfl
    · exact Nat.le_add_right _ _
    · cases es with
      | nil => cases length
      | cons e es =>
        have hfst := ih 0 e (by simp) hg.2.1
        rw [map_cons, sum_cons]
        omega

theorem exits (k : Nat) : g.Exits k := by
  have hsym : ∀ c, g.classes.lookup 0 = some c →
      g.Represents 0 (.mk (.constant (.int 8) (.numbered 0)) []) := by
    intro c hc
    obtain ⟨-, hnodes⟩ := (lookup_cases hg hc).resolve_right (by omega)
    exact represents_mk (n := ⟨.constant (.int 8) (.numbered 0), []⟩) hc (by simp [hnodes]) .nil
  have hlit : ∀ c, g.classes.lookup 1 = some c →
      g.Represents 1 (.mk (.constantInt ⟨8, 1⟩) []) := by
    intro c hc
    obtain ⟨-, hnodes⟩ := (lookup_cases hg hc).resolve_left (by omega)
    exact represents_mk (n := ⟨.constantInt ⟨8, 1⟩, []⟩) hc (by simp [hnodes]) .nil
  refine ⟨fun c hc => ?_, ?_, fun c hc => ?_⟩
  · obtain ⟨rfl, hnodes⟩ | ⟨rfl, hnodes⟩ := lookup_cases hg hc
    · exact ⟨⟨.constant (.int 8) (.numbered 0), []⟩, by simp [hnodes], [],
        fun o ho => (nomatch ho), .nil, fun e he => symbol_cheapest hg he rfl⟩
    · exact ⟨⟨.constantInt ⟨8, 1⟩, []⟩, by simp [hnodes], [], fun o ho => (nomatch ho), .nil,
        fun e _ => one_le_treeCost e⟩
  · cases hc : g.classes.lookup k with
    | none =>
      have hemp : g.least k = 0 := by
        refine Nat.sInf_eq_zero.mpr (.inr (Set.eq_empty_of_forall_notMem ?_))
        rintro _ ⟨e, he, -⟩
        cases he with
        | node eclass => rw [hc] at eclass; cases eclass
      omega
    | some c =>
      obtain ⟨rfl, -⟩ | ⟨rfl, -⟩ := lookup_cases hg hc
      · exact (least_le (hsym c hc)).trans_lt (by decide)
      · exact (least_le (hlit c hc)).trans_lt (by decide)
  · obtain ⟨rfl, hnodes⟩ | ⟨rfl, hnodes⟩ := lookup_cases hg hc
    · simp [hnodes, sizeMax]
    · simp [hnodes, sizeMax]

omit hg in
theorem createRaw_product {l : Operation} (hl : l.type = .int 8) :
    ∃ e, createRaw .full (.binary .mul (.int 8)) [l, constantInt ⟨8, 1⟩] = some e ∧
      e.type = .int 8 := by
  have hrun : createRaw .full (.binary .mul (.int 8)) [l, constantInt ⟨8, 1⟩] =
      visitMul (.int 8) l (constantInt ⟨8, 1⟩) := if_pos hl
  have hone : isConstantInt (constantInt ⟨8, 1⟩) 0 = false := rfl
  rw [hrun, visitMul, hone, if_neg Bool.false_ne_true]
  split_ifs with hzero
  · exact ⟨l, rfl, hl⟩
  · unfold tryConstInt
    split
    · rename_i a b ha hb
      obtain ⟨ops, rfl⟩ := constantInt?_eq_some ha
      exact ⟨_, rfl, hl⟩
    · exact ⟨_, rfl, rfl⟩

theorem type_of_extracts {e : Operation} (h : g.Extracts (createRaw .full) k e) :
    e.type = .int 8 ∧ (k = 1 → e = constantInt ⟨8, 1⟩) := by
  induction h with
  | @node k c n es e eclass mem length operands created ih =>
    obtain ⟨rfl, hnodes⟩ | ⟨rfl, hnodes⟩ := lookup_cases hg eclass
    · rw [hnodes, mem_cons, mem_singleton] at mem
      rcases mem with rfl | rfl
      · cases es with
        | nil =>
          cases created
          exact ⟨rfl, fun h => nomatch h⟩
        | cons => cases length
      · obtain ⟨l, r, rfl⟩ := length_eq_two.mp length.symm
        obtain ⟨hl, -⟩ := ih 0 l (by simp)
        obtain ⟨-, hr⟩ := ih 1 r (by simp)
        rw [hr hg.2.2.1] at created
        obtain ⟨e', he', htype⟩ := createRaw_product hl
        cases created.symm.trans he'
        exact ⟨htype, fun h => nomatch h⟩
    · rw [hnodes, mem_singleton] at mem
      subst mem
      cases es with
      | nil =>
        cases created
        exact ⟨rfl, fun _ => rfl⟩
      | cons => cases length

theorem accepts (k : Nat) : g.Accepts (createRaw .full) k := by
  intro c hc n hn es hes
  obtain ⟨rfl, hnodes⟩ | ⟨rfl, hnodes⟩ := lookup_cases hg hc
  · rw [hnodes, mem_cons, mem_singleton] at hn
    rcases hn with rfl | rfl
    · cases hes
      exact ⟨_, rfl⟩
    · obtain ⟨l, r, rfl⟩ := length_eq_two.mp hes.length_eq.symm
      obtain ⟨hl, hr⟩ := forall₂_cons.mp hes
      obtain ⟨hr, -⟩ := forall₂_cons.mp hr
      rw [(type_of_extracts hg hr).2 hg.2.2.1]
      obtain ⟨e, he, -⟩ := createRaw_product (type_of_extracts hg hl).1
      exact ⟨e, he⟩
  · rw [hnodes, mem_singleton] at hn
    subst hn
    cases hes
    exact ⟨_, rfl⟩

theorem plain (k : Nat) : g.Plain k := by
  intro c hc
  obtain ⟨rfl, hnodes⟩ | ⟨rfl, hnodes⟩ := lookup_cases hg hc
  · simp [hnodes, expands]
  · simp [hnodes, expands]

end Product

/-- Both classes have been extracted when they are merged. -/
def mergedAfterExtraction : List EGraphCall :=
  [.add (.constant (.int 8) (.numbered 0)),
    .add (.mk (.unary .not (.int 8)) [.constant (.int 8) (.numbered 1)]),
    .rebuild 9, .extract 9 0, .extract 9 2, .merge 0 2, .rebuild 9]

end EGraphSession

end Caffeine
