import Caffeine.IR.EGraphMatcher
import Caffeine.IR.EGraphTyped

/-!
# Rewriting through the accessor

During a round the graph stays sound and well typed, the merges put off join ids of equal value, and
the node vectors the round started with do not change.
-/

namespace Caffeine

open EGraph Semantics OperationData List Option

variable {id eclass : Nat} {n : ENode} {o : Operation}

namespace EGraph

def SameNodes (g g' : EGraph) : Prop :=
  ∀ id c, g.get id = some c → ∃ c', g'.get id = some c' ∧ c'.nodes = c.nodes

namespace SameNodes

variable {g g' g'' : EGraph}

theorem refl (g : EGraph) : SameNodes g g := fun _ c hc => ⟨c, hc, rfl⟩

theorem trans (h : SameNodes g g') (h' : SameNodes g' g'') : SameNodes g g'' := by
  intro id c hc
  obtain ⟨c', hc', hn⟩ := h id c hc
  obtain ⟨c'', hc'', hn'⟩ := h' id c' hc'
  exact ⟨c'', hc'', hn'.trans hn⟩

theorem nodes_eq (h : SameNodes g g') {c c' : EClass} (hc : g.get id = some c)
    (hc' : g'.get id = some c') : c'.nodes = c.nodes := by
  obtain ⟨d, hd, hnodes⟩ := h id c hc
  cases hc'.symm.trans hd
  exact hnodes

theorem of_eq (hu : g'.unionFind = g.unionFind) (hc : g'.classes = g.classes) : SameNodes g g' := by
  intro id c h
  refine ⟨c, ?_, rfl⟩
  rw [get_eq_some] at h ⊢
  rwa [EGraph.size, EGraph.root, hu, hc]

theorem add (h : g.add n = some (id, g')) : SameNodes g g' := by
  obtain ⟨-, ⟨-, rfl⟩ | ⟨-, ha⟩⟩ := add_cases h
  · exact of_eq rfl rfl
  · intro k c hc
    obtain ⟨hlt, hc⟩ := get_eq_some.mp hc
    have hlook : (g.classes.emplace g.size (EClass.ofNodes [g.canon n])).lookup (g.root k) =
        some c := by
      have hne : g.root k ≠ g.size := (g.root_lt hlt).ne
      rw [Map.lookup_emplace, if_neg (fun hand => hne hand.1), hc]
    refine ⟨if g.root k ∈ (g.canon n).operands then
        { c with parents := c.parents.emplace (g.canon n) g.size } else c, ?_, ?_⟩
    · refine get_eq_some.mpr ⟨by rw [ha.size]; omega, ?_⟩
      rw [ha.root, ha.classes, hlook, map_some]
    · split_ifs <;> rfl

theorem addOperation (h : g.addOperation o = some (id, g')) : SameNodes g g' :=
  addOperation_stays (SameNodes g) (fun _ _ _ _ hs h => hs.trans (add h)) (refl g) h

theorem recosted (h : Recosted g g') : SameNodes g g' := by
  intro id c hc
  obtain ⟨hlt, hc⟩ := get_eq_some.mp hc
  have hmem : g.root id ∈ g'.classes := (h.keys _).mpr (Map.mem_of_lookup hc)
  obtain ⟨c', hc'⟩ := Map.exists_lookup hmem
  obtain ⟨d, cost, hd, rfl⟩ := h.classes _ c' hc'
  rw [hc] at hd
  cases hd
  refine ⟨c.withCost cost, get_eq_some.mpr ⟨h.size ▸ hlt, ?_⟩, rfl⟩
  rw [h.root]
  exact hc'

end SameNodes

end EGraph

namespace GraphAccessor

structure Grows (a a' : GraphAccessor) : Prop where
  graph : Extends a.graph a'.graph
  events : a'.events = [] → a.events = []

/-- What an update function can do: add nodes and expressions, put off merges, and evaluate
costs. -/
inductive Call : GraphAccessor → GraphAccessor → Prop
  | add {a a' : GraphAccessor} {n : ENode} {id : Nat} (h : a.add n = some (id, a')) : Call a a'
  | addOperation {a a' : GraphAccessor} {o : Operation} {id : Nat}
    (h : a.addOperation o = some (id, a')) : Call a a'
  | merge (a : GraphAccessor) (i j : Nat) : Call a (a.merge i j)
  | updateCost {a : GraphAccessor} {fuel id : Nat} {g : EGraph}
    (h : EGraphExtractor.updateCost fuel a.graph id = some g) : Call a { a with graph := g }
  | note (a : GraphAccessor) (e : MatchEvent) : Call a (a.note e)

def Calls : GraphAccessor → GraphAccessor → Prop := Relation.ReflTransGen Call

theorem updateCost_recosted {fuel : Nat} {g g' : EGraph}
    (h : EGraphExtractor.updateCost fuel g id = some g') : Recosted g g' := by
  obtain ⟨r, hr, rfl⟩ := map_eq_some_iff.mp h
  exact (EGraphExtractor.evalCost_step hr).1

theorem Call.grows {a a' : GraphAccessor} (h : Call a a') : Grows a a' := by
  cases h with
  | add h =>
    obtain ⟨r, hr, heq⟩ := map_eq_some_iff.mp h
    cases heq
    exact ⟨Extends.add hr, fun h => h⟩
  | addOperation h =>
    obtain ⟨r, hr, heq⟩ := map_eq_some_iff.mp h
    cases heq
    exact ⟨Extends.addOperation hr, fun h => h⟩
  | merge i j =>
    unfold GraphAccessor.merge
    split_ifs
    · exact ⟨Extends.refl _, id⟩
    · exact ⟨Extends.refl _, fun h => h⟩
  | updateCost h =>
    exact ⟨(SameParents.recosted (updateCost_recosted h)).toExtends, fun h => h⟩
  | note e => exact ⟨Extends.refl _, fun h => absurd h (cons_ne_nil _ _)⟩

namespace Calls

variable {a a' a'' : GraphAccessor}

theorem refl (a : GraphAccessor) : Calls a a := Relation.ReflTransGen.refl

theorem trans (h : Calls a a') (h' : Calls a' a'') : Calls a a'' := Relation.ReflTransGen.trans h h'

theorem single (h : Call a a') : Calls a a' := Relation.ReflTransGen.single h

theorem grows (h : Calls a a') : Grows a a' := by
  induction h with
  | refl => exact ⟨Extends.refl _, id⟩
  | tail _ hcall ih =>
    exact ⟨ih.graph.trans hcall.grows.graph, fun he => ih.events (hcall.grows.events he)⟩

theorem sameNodes (h : Calls a a') : SameNodes a.graph a'.graph := by
  induction h with
  | refl => exact SameNodes.refl _
  | tail _ hcall ih =>
    refine ih.trans ?_
    cases hcall with
    | add ha =>
      obtain ⟨r, hr, heq⟩ := map_eq_some_iff.mp ha
      cases heq
      exact SameNodes.add hr
    | addOperation ha =>
      obtain ⟨r, hr, heq⟩ := map_eq_some_iff.mp ha
      cases heq
      exact SameNodes.addOperation hr
    | merge i j =>
      unfold GraphAccessor.merge
      split_ifs
      · exact SameNodes.refl _
      · exact SameNodes.of_eq rfl rfl
    | updateCost hu => exact SameNodes.recosted (updateCost_recosted hu)
    | note e => exact SameNodes.of_eq rfl rfl

theorem add (h : a.add n = some (id, a')) : Calls a a' := single (.add h)

theorem merge (a : GraphAccessor) (i j : Nat) : Calls a (a.merge i j) := single (.merge a i j)

theorem addMerge (h : a.addMerge eclass n = some a') : Calls a a' := by
  obtain ⟨r, hr, rfl⟩ := map_eq_some_iff.mp h
  exact (add hr).trans (merge _ _ _)

theorem addMergeOperation (h : a.addMergeOperation eclass o = some a') : Calls a a' := by
  obtain ⟨r, hr, rfl⟩ := map_eq_some_iff.mp h
  exact (single (.addOperation hr)).trans (merge _ _ _)

theorem observe (a : GraphAccessor) (opcode : Option Opcode) (n : ENode) :
    Calls a (a.observe opcode n) := by
  unfold GraphAccessor.observe
  split_ifs
  · exact refl a
  · exact single (.note a _)

theorem observeConstants (a : GraphAccessor) (i j : Nat) : Calls a (a.observeConstants i j) := by
  unfold GraphAccessor.observeConstants
  split
  · split_ifs
    · exact single (.note a _)
    · exact refl a
  · exact single (.note a _)

end Calls

structure Ok (σ : Assignment) (V : Nat → Val) (g : EGraph) (a : GraphAccessor) : Prop where
  graph : TypedSound σ V a.graph
  merges : ∀ p ∈ a.merges, V p.1 = V p.2
  nodes : SameNodes g a.graph

namespace Ok

variable {σ : Assignment} {V : Nat → Val} {g : EGraph} {a a' : GraphAccessor}

theorem add (ha : Ok σ V g a) (hn : TypedNode V n) (h : a.add n = some (id, a'))
    (hv : IsValuation (apply σ) V a'.graph) : Ok σ V g a' ∧ nodeValue (apply σ) V n = V id := by
  obtain ⟨r, hr, heq⟩ := map_eq_some_iff.mp h
  cases heq
  obtain ⟨hg, hval⟩ := ha.graph.add hn hr hv
  exact ⟨⟨hg, ha.merges, ha.nodes.trans (SameNodes.add hr)⟩, hval⟩

theorem merge (ha : Ok σ V g a) {i j : Nat} (hij : V i = V j) : Ok σ V g (a.merge i j) := by
  unfold GraphAccessor.merge
  split_ifs
  · exact ha
  · refine ⟨ha.graph, ?_, ha.nodes⟩
    intro p hp
    rcases mem_append.mp hp with hp | hp
    · exact ha.merges p hp
    · rw [mem_singleton.mp hp]
      exact hij

theorem graph_merge (a : GraphAccessor) (i j : Nat) : (a.merge i j).graph = a.graph := by
  unfold GraphAccessor.merge
  split_ifs <;> rfl

theorem addMerge (ha : Ok σ V g a) (hn : TypedNode V n) (hval : nodeValue (apply σ) V n = V eclass)
    (h : a.addMerge eclass n = some a') (hv : IsValuation (apply σ) V a'.graph) : Ok σ V g a' := by
  obtain ⟨r, hr, rfl⟩ := map_eq_some_iff.mp h
  rw [graph_merge] at hv
  obtain ⟨hr', hid⟩ := ha.add hn hr hv
  exact hr'.merge (hval.symm.trans hid)

theorem addMergeOperation (ha : Ok σ V g a) (hnode : ∀ i, σ.node i = V i)
    (ho : o.WellTyped (divisionFreeIn σ)) (hval : o.eval σ = V eclass)
    (h : a.addMergeOperation eclass o = some a') (hv : IsValuation (apply σ) V a'.graph) :
    Ok σ V g a' := by
  obtain ⟨r, hr, rfl⟩ := map_eq_some_iff.mp h
  obtain ⟨s, hs, rfl⟩ := map_eq_some_iff.mp hr
  rw [graph_merge] at hv
  obtain ⟨hg, hid⟩ := ha.graph.addOperation hnode ho hs hv
  have hok : Ok σ V g { a with graph := s.2 } :=
    ⟨hg, ha.merges, ha.nodes.trans (SameNodes.addOperation hs)⟩
  exact hok.merge (hval.symm.trans hid)

theorem observe (ha : Ok σ V g a) (opcode : Option Opcode) (n : ENode) :
    Ok σ V g (a.observe opcode n) := by
  unfold GraphAccessor.observe
  split_ifs
  · exact ha
  · exact ⟨ha.graph, ha.merges, ha.nodes⟩

theorem observeConstants (ha : Ok σ V g a) (i j : Nat) : Ok σ V g (a.observeConstants i j) := by
  unfold GraphAccessor.observeConstants
  split
  · split_ifs
    · exact ⟨ha.graph, ha.merges, ha.nodes⟩
    · exact ha
  · exact ⟨ha.graph, ha.merges, ha.nodes⟩

theorem node_eq (ha : Ok σ V g a) {index : Nat} {c : EClass} {n' : ENode}
    (hc : g.get eclass = some c) (hn : c.nodes[index]? = some n)
    (h : a.node eclass index = some n') : n' = n := by
  obtain ⟨c', hc', hn'⟩ := bind_eq_some_iff.mp h
  rw [ha.nodes.nodes_eq hc hc', hn] at hn'
  exact (some.inj hn').symm

theorem node (ha : Ok σ V g a) {index : Nat} (h : a.node eclass index = some n) :
    TypedNode V n ∧ nodeValue (apply σ) V n = V eclass ∧ n.data.type = (V eclass).ty := by
  obtain ⟨c, hc, hn⟩ := bind_eq_some_iff.mp h
  exact ha.graph.node hc (mem_of_getElem? hn)

theorem type (ha : Ok σ V g a) {t : Ty} (h : a.type eclass = some t) : (V eclass).HasType t := by
  obtain ⟨c, hc, ht⟩ := bind_eq_some_iff.mp h
  exact ha.graph.type_eq hc ht

theorem constantInt (ha : Ok σ V g a) {v : APInt} (h : a.constantInt eclass = some v) :
    V eclass = .int v := by
  simp only [GraphAccessor.constantInt, bind_eq_some] at h
  obtain ⟨c, hc, n, hn, h⟩ := h
  obtain ⟨i, -, hn⟩ := bind_eq_some_iff.mp hn
  split at h
  · rename_i hdata
    cases h
    obtain ⟨-, hval, -⟩ := ha.graph.node hc (mem_of_getElem? hn)
    rw [← hval, nodeValue, hdata]
    rfl
  · cases h

theorem ne_of_observeConstants (ha : Ok σ V g a) {i j : Nat}
    (he : (a.observeConstants i j).events = []) : V i ≠ V j := by
  unfold GraphAccessor.observeConstants at he
  split at he
  · rename_i v1 v2 h1 h2
    split_ifs at he with heq
    · cases he
    · rw [ha.constantInt h1, ha.constantInt h2]
      exact fun h => heq (Val.int.inj h)
  · cases he

theorem opcode_of_observe {opcode : Opcode} (he : (a.observe (some opcode) n).events = []) :
    n.opcode = opcode := by
  unfold GraphAccessor.observe at he
  by_cases h : some opcode = none ∨ some opcode = some n.opcode
  · rcases h with h | h
    · cases h
    · exact (some.inj h).symm
  · rw [if_neg h] at he
    cases he

end Ok

end GraphAccessor

end Caffeine
