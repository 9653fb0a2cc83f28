import Caffeine.IR.EGraphConstprop
import Caffeine.IR.Typing

/-!
# Sound and well-typed e-graphs

Soundness for two interpretations at once: the values of ids under an assignment, and the types of
these values over payloads without division, floats and `Undef`. So every node is well typed and has
the value of its class, and constant propagation folds it right.
-/

namespace Caffeine

open List

variable {d : OperationData} {t : Ty} {id : Nat}

namespace OperationData

/-- The integer and array payloads without division. -/
def divisionFree : OperationData → Bool
  | .constant (.int _) _ => true
  | .constant (.array _) _ => true
  | .constantInt _ => true
  | .binary op (.int _) => op ∈ [.add, .sub, .mul, .and, .or, .xor, .shl, .lshr, .ashr]
  | .icmp _ => true
  | .unary op (.int _) => op ∈ [.not, .trunc, .zext, .sext]
  | .select (.int _) => true
  | .select (.array _) => true
  | .store (.array _) => true
  | .load => true
  | _ => false

/-- The same with references to e-graph nodes whose value is of the type of the reference. -/
def divisionFreeIn (σ : Assignment) : OperationData → Bool
  | .egraphNode t id => decide ((σ.node id).HasType t)
  | d => d.divisionFree

theorem interpreted_of_divisionFree (h : d.divisionFree = true) : d.interpreted = true := by
  cases d with
  | constantFloat _ _ _ | functionObject _ | egraphNode _ _ | undef _ => cases h
  | _ => rfl

theorem interpretedIn_of_divisionFreeIn (σ : Assignment) (h : d.divisionFreeIn σ = true) :
    d.interpretedIn σ = true := by
  cases d with
  | egraphNode t id => exact h
  | _ => exact interpretedIn_of_interpreted σ (interpreted_of_divisionFree h)

theorem divisionFreeIn_of_divisionFree (σ : Assignment) (h : d.divisionFree = true) :
    d.divisionFreeIn σ = true := by
  cases d with
  | egraphNode t id => cases h
  | _ => exact h

end OperationData

namespace Val

/-- The type of a value; that of `poison` is `void`, which no operand has. -/
def ty (v : Val) : Ty := v.type?.getD .void

theorem HasType.ty_eq {v : Val} (h : v.HasType t) : v.ty = t := by
  rw [ty, h, Option.getD_some]

theorem hasType_ty {v : Val} (h : v.ty ≠ .void) : v.HasType v.ty := by
  cases v with
  | poison => exact absurd rfl h
  | _ => rfl

end Val

namespace OperationData

theorem ne_void_of_accepts {ts : List Ty} (hd : d.divisionFree = true) (ha : d.accepts ts = true) :
    ∀ t ∈ ts, t ≠ .void := by
  unfold accepts at ha
  split at ha
  case h_16 t c a b =>
    simp only [Bool.and_eq_true, decide_eq_true_eq] at ha
    obtain ⟨⟨rfl, rfl⟩, rfl⟩ := ha
    cases b <;> first | (cases hd; done) | simp [Ty.bool]
  case h_4 | h_5 | h_6 | h_7 | h_9 | h_11 | h_17 | h_18 => cases hd
  case h_21 => cases ha
  all_goals
    simp only [Bool.and_eq_true, decide_eq_true_eq] at ha
    simp [ha]

end OperationData

namespace EGraph

open Semantics OperationData

def types (V : Nat → Val) (i : Nat) : Option Ty := some (V i).ty

structure TypedNode (V : Nat → Val) (n : ENode) : Prop where
  payload : n.data.divisionFree = true
  accepts : n.data.accepts (n.operands.map (fun o => (V o).ty)) = true

variable {σ : Assignment} {V : Nat → Val} {n : ENode}

theorem TypedNode.typing_eq (hn : TypedNode V n) :
    nodeValue (typing divisionFree) (types V) n = some n.data.type := by
  refine typing_eq_some.mpr ⟨n.operands.map (fun o => (V o).ty), ?_, hn.payload, hn.accepts, rfl⟩
  rw [List.map_map]
  rfl

theorem typedNode_of_typing (h : nodeValue (typing divisionFree) (types V) n = some t) :
    TypedNode V n ∧ n.data.type = t := by
  obtain ⟨ts, hts, hd, ha, ht⟩ := typing_eq_some.mp h
  have heq : ts = n.operands.map (fun o => (V o).ty) := by
    refine map_injective_iff.mpr (Option.some_injective _) ?_
    rw [← hts, List.map_map]
    rfl
  exact ⟨⟨hd, heq ▸ ha⟩, ht⟩

theorem TypedNode.operand_hasType (hn : TypedNode V n) {o : Nat} (ho : o ∈ n.operands) :
    (V o).HasType (V o).ty :=
  Val.hasType_ty (ne_void_of_accepts hn.payload hn.accepts _ (List.mem_map_of_mem ho))

theorem TypedNode.hasType (σ : Assignment) (hn : TypedNode V n) :
    (nodeValue (apply σ) V n).HasType n.data.type := by
  refine apply_hasType σ (interpretedIn_of_interpreted σ
    (interpreted_of_divisionFree hn.payload)) hn.accepts ?_
  rw [forall₂_map_left_iff, forall₂_map_right_iff, forall₂_same]
  exact fun o ho => hn.operand_hasType ho

structure TypedSound (σ : Assignment) (V : Nat → Val) (g : EGraph) : Prop where
  values : Sound (apply σ) V g
  typed : Sound (typing divisionFree) (types V) g

namespace TypedSound

variable {g g' : EGraph}

theorem empty : TypedSound σ V {} := ⟨sound_empty, sound_empty⟩

theorem of_eq (hg : TypedSound σ V g) (hu : g'.unionFind = g.unionFind)
    (hc : g'.classes = g.classes) (hh : g'.hashcons = g.hashcons)
    (ha : g'.trace.adds = g.trace.adds) : TypedSound σ V g' :=
  ⟨hg.values.of_eq hu hc hh ha, hg.typed.of_eq hu hc hh ha⟩

theorem node (hg : TypedSound σ V g) {c : EClass} (hc : g.get id = some c) (hn : n ∈ c.nodes) :
    TypedNode V n ∧ nodeValue (apply σ) V n = V id ∧ n.data.type = (V id).ty := by
  obtain ⟨-, hc⟩ := get_eq_some.mp hc
  have hval := (hg.values.classes _ c hc).nodes n hn
  have htyp := (hg.typed.classes _ c hc).nodes n hn
  rw [hg.values.root] at hval
  rw [types, hg.values.root] at htyp
  obtain ⟨hnode, ht⟩ := typedNode_of_typing htyp
  exact ⟨hnode, hval, ht⟩

theorem type_eq (hg : TypedSound σ V g) {c : EClass} (hc : g.get id = some c)
    (ht : c.type? = some t) : (V id).HasType t := by
  obtain ⟨n, hn, rfl⟩ := Option.map_eq_some_iff.mp ht
  obtain ⟨hty, hval, -⟩ := hg.node hc (mem_of_mem_head? hn)
  rw [← hval]
  exact hty.hasType σ

theorem add (hg : TypedSound σ V g) (hn : TypedNode V n) (h : g.add n = some (id, g'))
    (hv : IsValuation (apply σ) V g') : TypedSound σ V g' ∧ nodeValue (apply σ) V n = V id := by
  obtain ⟨hval, hid⟩ := hg.values.add_of_isValuation h hv
  refine ⟨⟨hval, (hg.typed.add h (fun habs => ?_)).1⟩, hid⟩
  obtain ⟨-, ⟨hlook, -⟩ | ⟨rfl, -⟩⟩ := add_cases h
  · rw [habs] at hlook
    cases hlook
  · rw [hn.typing_eq, types, ← hid, (hn.hasType σ).ty_eq]

theorem merge (hg : TypedSound σ V g) {i j r : Nat} (hij : V i = V j)
    (h : g.merge i j = some (r, g')) : TypedSound σ V g' := by
  have hty : types V i = types V j := by rw [types, types, hij]
  exact ⟨(hg.values.merge hij h).1, (hg.typed.merge hty h).1⟩

theorem rebuild (hg : TypedSound σ V g) {h : HashOrder} {fuel : Nat}
    (hr : g.rebuild h fuel = some g') : TypedSound σ V g' :=
  ⟨hg.values.rebuild hr, hg.typed.rebuild hr⟩

theorem recosted (hg : TypedSound σ V g) (hr : Recosted g g') : TypedSound σ V g' :=
  ⟨hg.values.recosted hr, hg.typed.recosted hr⟩

section AddOperation

variable (hnode : ∀ i, σ.node i = V i)

theorem addOperands_of {ops : List Operation} {ids : List Nat}
    (ih : ∀ o ∈ ops, ∀ (g g' : EGraph) id, TypedSound σ V g → g.addOperation o = some (id, g') →
      IsValuation (apply σ) V g' → TypedSound σ V g' ∧ o.eval σ = V id)
    (hg : TypedSound σ V g) (h : g.addOperands ops = some (ids, g'))
    (hv : IsValuation (apply σ) V g') :
    TypedSound σ V g' ∧ ops.map (Operation.eval σ) = ids.map V := by
  induction ops generalizing g ids with
  | nil =>
    cases h
    exact ⟨hg, rfl⟩
  | cons o ops ihops =>
    simp only [addOperands, bind_eq_some, Option.some.injEq, Prod.mk.injEq] at h
    obtain ⟨r, hr, rs, hrs, rfl, rfl⟩ := h
    have hext : Extends r.2 rs.2 :=
      Extends.addOperands hrs
    obtain ⟨hgr, ho⟩ := ih o mem_cons_self g r.2 r.1 hg hr (hv.of_extends hext)
    obtain ⟨hgs, hos⟩ := ihops (fun o ho => ih o (mem_cons_of_mem _ ho)) hgr hrs
    exact ⟨hgs, by rw [map_cons, map_cons, ho, hos]⟩

include hnode in
theorem addOperation {o : Operation} (ho : o.WellTyped (divisionFreeIn σ)) (hg : TypedSound σ V g)
    (h : g.addOperation o = some (id, g')) (hv : IsValuation (apply σ) V g') :
    TypedSound σ V g' ∧ o.eval σ = V id := by
  induction o using Operation.induct generalizing g g' id with
  | mk d ops ih =>
    obtain ⟨hd, ha, hops⟩ := Operation.wellTyped_mk.mp ho
    unfold EGraph.addOperation at h
    split at h
    · rename_i heq
      cases heq
      cases h
      exact ⟨hg, hnode id⟩
    · rename_i hne heq
      cases heq
      simp only [bind_eq_some] at h
      obtain ⟨r, hr, h⟩ := h
      obtain ⟨hgr, hvals⟩ := addOperands_of
        (fun o hmem g g' id hg h hv => ih o hmem (hops o hmem) hg h hv) hg hr
        (hv.of_extends (Extends.add h))
      have hfree : d.divisionFree = true := by
        cases d with
        | egraphNode t i => exact (hne t i rfl).elim
        | _ => exact hd
      have htys : r.1.map (fun o => (V o).ty) = ops.map Operation.type := by
        have hmap := congrArg (List.map Val.ty) hvals
        rw [List.map_map, List.map_map] at hmap
        rw [show (fun o => (V o).ty) = Val.ty ∘ V from rfl, ← hmap]
        refine map_congr_left (fun o hmem => ?_)
        exact ((hops o hmem).mono (fun _ => interpretedIn_of_divisionFreeIn σ)).eval_hasType.ty_eq
      obtain ⟨hg', hval⟩ := hgr.add ⟨hfree, htys ▸ ha⟩ h hv
      refine ⟨hg', ?_⟩
      rw [Operation.eval_mk, hvals]
      exact hval

end AddOperation

section Constprop

open Constprop EGraphConstantPropagator

theorem wellDefined_of_typed {args : List APInt} (hn : TypedNode V n)
    (hargs : n.operands.map V = args.map .int) :
    WellDefined n.data args ∧ FoldsRight n.data args := by
  have hty : n.operands.map (fun o => (V o).ty) = args.map (fun a => .int a.width) := by
    have hmap := congrArg (List.map Val.ty) hargs
    rw [List.map_map, List.map_map] at hmap
    exact hmap
  obtain ⟨hfree, hacc⟩ := hn
  rw [hty] at hacc
  cases hd : n.data with
  | binary op t =>
    rw [hd] at hfree hacc
    cases t with
    | int w =>
      rcases args with _ | ⟨a, _ | ⟨b, _ | ⟨c, args⟩⟩⟩
      · cases hacc
      · cases hacc
      · simp only [map_cons, map_nil, accepts, Bool.and_eq_true, decide_eq_true_eq,
          Ty.int.injEq] at hacc
        have hw : a.width = b.width := hacc.1.1.trans hacc.1.2.symm
        simp only [divisionFree, decide_eq_true_eq, mem_cons, not_mem_nil, or_false] at hfree
        rcases hfree with rfl | rfl | rfl | rfl | rfl | rfl | rfl | rfl | rfl <;>
          exact ⟨hw, trivial⟩
      · cases hacc
    | _ => cases hfree
  | _ => exact ⟨trivial, trivial⟩

theorem constprop (hg : TypedSound σ V g) {h : HashOrder} {p : EGraphConstantPropagator}
    (hrun : g.constprop h = some p) (hv : IsValuation (apply σ) V p.graph) :
    TypedSound σ V p.graph := by
  refine foldlM_invariant (fun p => IsValuation (apply σ) V p.graph → TypedSound σ V p.graph)
    ?_ hrun (fun _ => hg.of_eq rfl rfl rfl rfl) hv
  intro q id q' _ hvis ih hv'
  have hq := ih (hv'.of_extends (visit_extends hvis).1)
  rcases visit_cases hvis with rfl | ⟨⟨hroot, -⟩, c, m, hc, rfl, hf⟩
  · exact hq
  · have hargs := mapM_literal_sound hq.values hf.args
    have hval := (hq.values.classes _ c hc).nodes _ hf.node
    have htyp := (hq.typed.classes _ c hc).nodes _ hf.node
    obtain ⟨hty, -⟩ := typedNode_of_typing htyp
    obtain ⟨hdef, hright⟩ := wellDefined_of_typed hty hargs
    have hlit : V m.id = .int m.value := (hf.right_iff hq.values hc hdef).mpr hright
    obtain ⟨k, g1, r, g2, hadd, hmrg, -, hgr⟩ := hf.graph
    rw [hgr] at hv' ⊢
    have hv1 : IsValuation (apply σ) V g1 :=
      IsValuation.of_extends hv' ((Extends.merge hmrg).trans (Extends.of_eq rfl rfl rfl))
    obtain ⟨hg1, hk⟩ := hq.add (n := ⟨.constantInt m.value, []⟩) ⟨rfl, rfl⟩ hadd hv1
    exact (hg1.merge (hk.symm.trans hlit.symm) hmrg).of_eq rfl rfl rfl rfl

end Constprop

end TypedSound

end EGraph

end Caffeine
