import Caffeine.IR.EGraphSound

/-!
# Typed e-graphs

Soundness for the types of ids with a condition on nodes and the types of their operands: every node
meets it and has the type of its class.
-/

namespace Caffeine

namespace EGraph

variable {check : OperationData → List Ty → Prop} {τ : Nat → Ty} {g g' : EGraph} {n : ENode}
  {id : Nat}

def checkedTyping (check : OperationData → List Ty → Prop) (d : OperationData)
    (args : List (Ty × Prop)) : Ty × Prop :=
  (d.type, check d (args.map Prod.fst))

def Checked (check : OperationData → List Ty → Prop) (τ : Nat → Ty) (g : EGraph) : Prop :=
  Sound (checkedTyping check) (fun i => (τ i, True)) g

def IdTypes (τ : Nat → Ty) (g : EGraph) : Prop :=
  ∀ r ∈ g.trace.adds, r.fresh = true → τ r.id = r.node.data.type

theorem IdTypes.of_extends (ht : IdTypes τ g') (he : Extends g g') : IdTypes τ g :=
  fun r hr hf => ht r (he.adds hr) hf

theorem nodeValue_checkedTyping {t : Ty} :
    nodeValue (checkedTyping check) (fun i => (τ i, True)) n = (t, True) ↔
      n.data.type = t ∧ check n.data (n.operands.map τ) := by
  rw [nodeValue, checkedTyping, Prod.mk.injEq, List.map_map, eq_iff_iff, iff_true]
  rfl

namespace Checked

theorem node (hg : Checked check τ g) {c : EClass} (hc : g.classes.lookup id = some c)
    (hn : n ∈ c.nodes) : n.data.type = τ id ∧ check n.data (n.operands.map τ) :=
  nodeValue_checkedTyping.mp ((hg.classes id c hc).nodes n hn)

theorem root (hg : Checked check τ g) (i : Nat) : τ (g.root i) = τ i :=
  congrArg Prod.fst (Sound.root hg i)

theorem add (hg : Checked check τ g) (hn : check n.data (n.operands.map τ))
    (h : g.add n = some (id, g')) (ht : IdTypes τ g') :
    Checked check τ g' ∧ τ id = n.data.type := by
  have hfr : g.hashcons.lookup (g.canon n) = none →
      nodeValue (checkedTyping check) (fun i => (τ i, True)) n = (τ g.size, True) := by
    intro habs
    obtain ⟨-, ⟨hlook, -⟩ | ⟨-, ha⟩⟩ := add_cases h
    · rw [habs] at hlook
      cases hlook
    · have htype := ht ⟨n, g.size, true⟩ (ha.adds ▸ List.mem_cons_self) rfl
      exact nodeValue_checkedTyping.mpr ⟨htype.symm, hn⟩
  obtain ⟨hs, hid⟩ := Sound.add hg h hfr
  exact ⟨hs, (nodeValue_checkedTyping.mp hid).1.symm⟩

theorem merge (hg : Checked check τ g) {i j r : Nat} (hij : τ i = τ j)
    (h : g.merge i j = some (r, g')) : Checked check τ g' :=
  (Sound.merge hg (by rw [hij]) h).1

theorem extract (hg : Checked check τ g) {o : Operation} {fuel : Nat}
    (h : g.extract (fun d ops => some (.mk d ops)) fuel id = some (o, g')) :
    Checked check τ g' := by
  obtain ⟨r, hr, heq⟩ := Option.map_eq_some_iff.mp h
  cases heq
  have hinit : EGraphExtractor.ExtractSound (checkedTyping check) (fun i => (τ i, True))
      { graph := g } := ⟨hg, fun id e he => by simp at he⟩
  refine (EGraphExtractor.extract_sound ?_ hinit hr).1.graph
  intro d ops o ho
  cases ho
  exact Operation.fold_mk _ d ops

end Checked

end EGraph

end Caffeine
