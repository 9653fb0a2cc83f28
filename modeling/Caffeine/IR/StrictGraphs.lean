import Caffeine.IR.CheckedGraphs
import Caffeine.IR.EGraphConstprop
import Caffeine.IR.StrictCasts

/-!
# E-graphs with strict casts

An e-graph built from constructed expressions has strict nodes only, if merged ids have one type.
Soundness for types carries this over the operations, so constant propagation casts literals as the
integer library asks.
-/

namespace Caffeine

open OperationData List

namespace EGraph

variable {τ : Nat → Ty} {g g' : EGraph} {n : ENode} {id : Nat}

abbrev StrictGraph (τ : Nat → Ty) (g : EGraph) : Prop := Checked (StrictNode τ) τ g

namespace StrictGraph

theorem addOperands {ops : List Operation} {ids : List Nat}
    (ih : ∀ o ∈ ops, ∀ (g g' : EGraph) id, StrictGraph τ g → g.addOperation o = some (id, g') →
      IdTypes τ g' → StrictGraph τ g' ∧ τ id = o.type)
    (hg : StrictGraph τ g) (h : g.addOperands ops = some (ids, g')) (ht : IdTypes τ g') :
    StrictGraph τ g' ∧ ids.map τ = ops.map Operation.type := by
  induction ops generalizing g ids with
  | nil =>
    cases h
    exact ⟨hg, rfl⟩
  | cons o ops ihops =>
    simp only [EGraph.addOperands, bind_eq_some, Option.some.injEq, Prod.mk.injEq] at h
    obtain ⟨r, hr, rs, hrs, rfl, rfl⟩ := h
    have hext : Extends r.2 rs.2 := Extends.addOperands hrs
    obtain ⟨hgr, ho⟩ := ih o mem_cons_self g r.2 r.1 hg hr (ht.of_extends hext)
    obtain ⟨hgs, hos⟩ := ihops (fun o ho => ih o (mem_cons_of_mem _ ho)) hgr hrs
    exact ⟨hgs, by rw [map_cons, map_cons, ho, hos]⟩

theorem addOperation {o : Operation} (ho : o.Strict τ) (hg : StrictGraph τ g)
    (h : g.addOperation o = some (id, g')) (ht : IdTypes τ g') :
    StrictGraph τ g' ∧ τ id = o.type := by
  induction o using Operation.induct generalizing g g' id with
  | mk d ops ih =>
    obtain ⟨hnode, hops⟩ := Operation.strict_mk.mp ho
    unfold EGraph.addOperation at h
    split at h
    · rename_i heq
      cases heq
      cases h
      exact ⟨hg, hnode.reference _ _ rfl⟩
    · rename_i heq
      cases heq
      simp only [bind_eq_some] at h
      obtain ⟨r, hr, h⟩ := h
      obtain ⟨hgr, htys⟩ := addOperands
        (fun o hmem g g' id hg h ht => ih o hmem (hops o hmem) hg h ht) hg hr
        (ht.of_extends (Extends.add h))
      exact hgr.add (htys ▸ hnode) h ht

theorem literal (hg : StrictGraph τ g) {o : Nat} {v : APInt}
    (h : EGraphConstantPropagator.literal g o = some v) : τ o = .int v.width := by
  simp only [EGraphConstantPropagator.literal, bind_eq_some, get_eq_some] at h
  obtain ⟨c, ⟨-, hc⟩, node, hnode, h⟩ := h
  split at h
  · rename_i hdata
    cases h
    obtain ⟨htype, -⟩ := hg.node hc (mem_of_getElem? hnode)
    rw [← hg.root o, ← htype, hdata]
    rfl
  · cases h

theorem literals (hg : StrictGraph τ g) {ops : List Nat} {args : List APInt}
    (h : ops.mapM (EGraphConstantPropagator.literal g) = some args) :
    ops.map τ = args.map fun a => .int a.width := by
  induction ops generalizing args with
  | nil =>
    cases h
    rfl
  | cons o ops ih =>
    simp only [mapM_cons, bind_eq_some, Option.pure_def, Option.some.injEq] at h
    obtain ⟨v, hv, vs, hvs, rfl⟩ := h
    rw [map_cons, map_cons, hg.literal hv, ih hvs]

end StrictGraph

end EGraph

namespace Constprop

theorem foldBinary_width {op : BinaryOpcode} {a b v : APInt} (hw : a.width = b.width)
    (h : foldBinary op a b = some v) : v.width = a.width := by
  have hgd : ∀ f : APInt → APInt → APInt,
      (if b.eqNat 0 then APInt.checked f a b else some b) = some v → v.width = a.width :=
    fun f hf => (guarded_fold hf).1 ▸ hw.symm
  cases op <;> first | exact hgd _ h | (cases h; rfl) | cases h

theorem foldArgs_type {τ : Nat → Ty} {d : OperationData} {args : List APInt} {v : APInt}
    (hd : StrictNode τ d (args.map fun a => .int a.width)) (h : foldArgs d args = some v) :
    d.type = .int v.width := by
  unfold foldArgs at h
  split at h
  · have hacc := hd.accepts.resolve_left (by simp [isFloatOp])
    cases OperationData.shape_of_accepts hacc with
    | binary hl hr hop =>
      rw [foldBinary_width ((Ty.int.inj hl).trans (Ty.int.inj hr).symm) h]
      exact hl.symm
    | floatBinary hl => cases hl
  · cases h
    rfl
  · rename_i op t a
    rcases hd.accepts with hfloat | hacc
    · cases op <;> first | simp [isFloatOp] at hfloat; done | cases h
    · cases OperationData.shape_of_accepts hacc with
      | not ho =>
        cases h
        exact ho.symm
      | trunc ho hle | zext ho hle | sext ho hle =>
        cases h
        rfl
  · cases h

end Constprop

namespace EGraph

open EGraphConstantPropagator Constprop

variable {τ : Nat → Ty} {g g' : EGraph}

theorem StrictGraph.visit {p p' : EGraphConstantPropagator} {id : Nat} (hg : StrictGraph τ p.graph)
    (h : p.visit id = some p') (ht : IdTypes τ p'.graph) : StrictGraph τ p'.graph := by
  rcases visit_cases h with rfl | ⟨-, c, m, hc, rfl, hf⟩
  · exact hg
  · obtain ⟨htype, hnode⟩ := hg.node hc hf.node
    rw [hg.literals hf.args] at hnode
    have hval := foldArgs_type hnode hf.value
    obtain ⟨k, g1, r, g2, hadd, hmrg, -, hgr⟩ := hf.graph
    rw [hgr] at ht ⊢
    have ht1 : IdTypes τ g1 :=
      IdTypes.of_extends ht ((Extends.merge hmrg).trans (Extends.of_eq rfl rfl rfl))
    have hlit : StrictNode τ (.constantInt m.value) ([].map τ) :=
      ⟨.inr rfl, rfl, fun _ _ h => nomatch h⟩
    obtain ⟨hg1, hk⟩ := hg.add hlit hadd ht1
    exact (hg1.merge (hk.trans (hval.symm.trans htype)) hmrg).of_eq rfl rfl rfl rfl

/-- The e-graphs made from constructed expressions, with merges of one type and single steps of
constant propagation. -/
inductive Assembled (cache : OperationCache) (τ : Nat → Ty) : EGraph → Prop
  | empty : Assembled cache τ {}
  | add {g g' : EGraph} {o : Operation} {id : Nat} (graph : Assembled cache τ g)
    (expression : o.Constructed cache τ) (step : g.addOperation o = some (id, g'))
    (types : IdTypes τ g') : Assembled cache τ g'
  | merge {g g' : EGraph} {i j r : Nat} (graph : Assembled cache τ g) (types : τ i = τ j)
    (step : g.merge i j = some (r, g')) : Assembled cache τ g'
  | rebuild {g g' : EGraph} {h : HashOrder} {fuel : Nat} (graph : Assembled cache τ g)
    (step : g.rebuild h fuel = some g') : Assembled cache τ g'
  | extract {g g' : EGraph} {o : Operation} {fuel id : Nat} (graph : Assembled cache τ g)
    (step : g.extract (fun d ops => some (.mk d ops)) fuel id = some (o, g')) :
    Assembled cache τ g'
  | propagate {p p' : EGraphConstantPropagator} {id : Nat} (graph : Assembled cache τ p.graph)
    (step : p.visit id = some p') (types : IdTypes τ p'.graph) : Assembled cache τ p'.graph

theorem Assembled.strict {cache : OperationCache} (h : Assembled cache τ g) : StrictGraph τ g := by
  induction h with
  | empty => exact sound_empty
  | add _ hexpr hstep ht ih => exact (ih.addOperation hexpr.strict hstep ht).1
  | merge _ hij hstep ih => exact ih.merge hij hstep
  | rebuild _ hstep ih => exact Sound.rebuild ih hstep
  | extract _ hstep ih => exact ih.extract hstep
  | propagate _ hstep ht ih => exact ih.visit hstep ht

def PropagationCall (g : EGraph) (c : CastCall) : Prop :=
  ∃ id cls n args, g.classes.lookup id = some cls ∧ n ∈ cls.nodes ∧
    n.operands.mapM (literal g) = some args ∧ c ∈ n.data.castCalls args

theorem StrictGraph.allowed (hg : StrictGraph τ g) {c : CastCall} (hc : PropagationCall g c) :
    c.Allowed := by
  obtain ⟨id, cls, n, args, hcls, hn, hargs, hc⟩ := hc
  obtain ⟨-, hnode⟩ := hg.node hcls hn
  exact StrictNode.allowed (hg.literals hargs ▸ hnode) c hc

end EGraph

end Caffeine
