import Caffeine.IR.EGraphReachable

/-!
# The literals read by constant propagation

`tryFoldConstIntOperands` takes the first node of an operand's class for its literal. A merge
records where the literal is; only `repair` moves it to the front. The reads are right if every
literal is at the front, as after a rebuild.
-/

namespace Caffeine

open List Option

def EClass.LiteralFirst (c : EClass) : Prop := c.isConstant = true → c.constantIndex = some 0

def EClass.LiteralAlone (c : EClass) : Prop :=
  c.isConstant = true → c.constantIndex = some 0 ∧ c.nodes.length = 1

def EClass.SamePlace (c c' : EClass) : Prop :=
  c'.constantIndex = c.constantIndex ∧ c'.nodes.length = c.nodes.length

variable {c : EClass} {n : ENode} {i : Nat}

theorem EClass.LiteralAlone.of_samePlace {c' : EClass} (h : c.LiteralAlone) (heq : c.SamePlace c') :
    c'.LiteralAlone := by
  intro hconst
  rw [isConstant, heq.1] at hconst
  exact ⟨heq.1.trans (h hconst).1, heq.2.trans (h hconst).2⟩

namespace EGraph

open Constprop

def LiteralsFirst (g : EGraph) : Prop := ∀ k c, g.classes.lookup k = some c → c.LiteralFirst

/-- The operands of nodes that can be folded are integers, as the factories assert. -/
def IntegerOperands (g : EGraph) : Prop :=
  ∀ k c, g.classes.lookup k = some c → ∀ n ∈ c.nodes, handled n.data = true →
    ∀ o ∈ n.operands, ∀ d, g.classes.lookup (g.root o) = some d → ∃ w, d.type? = some (.int w)

instance (g : EGraph) : Decidable g.IntegerOperands :=
  decidable_of_iff (∀ p ∈ g.classes.pairs, ∀ n ∈ p.2.nodes, handled n.data = true →
    ∀ o ∈ n.operands, ∀ d ∈ g.classes.lookup (g.root o), d.type?.any Ty.isInt = true) <| by
    have hint : ∀ t : Option Ty, t.any Ty.isInt = true ↔ ∃ w, t = some (.int w) := by
      rintro (_ | _ | _) <;> simp [Ty.isInt]
    simp only [IntegerOperands, Prod.forall, Map.mem_pairs, mem_def, hint]

/-! ### After a rebuild -/

/-- Classes with a literal among other nodes wait for repair, on the worklist or in `todo`. -/
def LiteralsAloneBut (todo : List Nat) (g : EGraph) : Prop :=
  ∀ k c, g.classes.lookup k = some c →
    c.LiteralAlone ∨ ∃ i ∈ todo ++ g.worklist, g.root i = k

variable {id : Nat}

namespace LiteralsAloneBut

variable {g g' : EGraph} {todo : List Nat} {h : HashOrder} {fuel : Nat}

theorem of_classes (hg : LiteralsAloneBut todo g) (hroot : ∀ i, g'.root i = g.root i)
    (hw : g.worklist ⊆ g'.worklist) (hcs : ∀ k c', g'.classes.lookup k = some c' → c'.LiteralAlone ∨
      ∃ c, g.classes.lookup k = some c ∧ c.SamePlace c') :
    LiteralsAloneBut todo g' := by
  intro k c' hc'
  rcases hcs k c' hc' with hfst | ⟨c, hc, heq⟩
  · exact .inl hfst
  · rcases hg k c hc with hfst | ⟨i, hi, hik⟩
    · exact .inl (hfst.of_samePlace heq)
    · refine .inr ⟨i, ?_, (hroot i).trans hik⟩
      rcases mem_append.mp hi with hi | hi
      · exact mem_append_left _ hi
      · exact mem_append_right _ (hw hi)

theorem of_eq (hg : LiteralsAloneBut todo g) (hu : g'.unionFind = g.unionFind)
    (hcs : g'.classes = g.classes) (hw : g.worklist ⊆ g'.worklist) : LiteralsAloneBut todo g' := by
  refine hg.of_classes (fun i => ?_) hw fun k c' hc' => .inr ⟨c', hcs ▸ hc', rfl, rfl⟩
  rw [root, root, hu]

theorem setClass (hg : LiteralsAloneBut todo g) {c' : EClass} (hc : g.classes.lookup id = some c)
    (hc' : c'.LiteralAlone ∨ c.SamePlace c') : LiteralsAloneBut todo (g.setClass id c') := by
  refine hg.of_classes (fun _ => rfl) (fun _ hi => hi) fun k d hd => ?_
  rw [lookup_setClass] at hd
  split_ifs at hd with hk
  · cases hd
    exact hc'.imp_right fun heq => ⟨c, hk ▸ hc, heq⟩
  · exact .inr ⟨d, hd, rfl, rfl⟩

theorem sameShape (hg : LiteralsAloneBut todo g) (hs : SameShape g g') :
    LiteralsAloneBut todo g' := by
  have hcs : ∀ k c', g'.classes.lookup k = some c' → c'.LiteralAlone ∨
      ∃ c, g.classes.lookup k = some c ∧ c.SamePlace c' := by
    intro k c' hc'
    obtain ⟨c, cache, hc, rfl⟩ := hs.exists_class hc'
    exact .inr ⟨c, hc, rfl, rfl⟩
  obtain ⟨cs, rfl⟩ := hs.frame
  exact hg.of_classes (fun _ => rfl) (fun _ hi => hi) hcs

theorem add (hg : LiteralsAloneBut todo g) (ha : g.add n = some (i, g')) :
    LiteralsAloneBut todo g' := by
  obtain ⟨-, ⟨-, rfl⟩ | ⟨-, hadded⟩⟩ := add_cases ha
  · exact hg.of_eq rfl rfl fun _ hi => hi
  · refine hg.of_classes hadded.root (fun i hi => ?_) fun k c' hc' => ?_
    · rw [hadded.worklist]
      exact mem_append_left _ hi
    · obtain ⟨c, ps, rfl, ⟨-, rfl⟩ | hc, -⟩ := hadded.lookup_cases hc'
      · refine .inl fun hconst => ?_
        simp only [EClass.isConstant, EClass.ofNodes, List.findIdx?_singleton] at hconst ⊢
        split_ifs at hconst ⊢ with hn
        · exact ⟨rfl, rfl⟩
        · cases hconst
      · exact .inr ⟨c, hc, rfl, rfl⟩

theorem addOperation {o : Operation} (hg : LiteralsAloneBut todo g)
    (ha : g.addOperation o = some (i, g')) : LiteralsAloneBut todo g' :=
  addOperation_stays (LiteralsAloneBut todo) (fun _ _ _ _ hg ha => hg.add ha) hg ha

theorem merge {j r : Nat} (hg : LiteralsAloneBut todo g) (hm : g.merge i j = some (r, g')) :
    LiteralsAloneBut todo g' := by
  obtain ⟨-, -, -, ⟨-, rfl⟩ | hmgd⟩ := merge_cases hm
  · exact hg
  · obtain ⟨c1, c2, c, -, -, -, hlook⟩ := hmgd.classes
    intro k d hd
    rw [hlook] at hd
    split_ifs at hd with hkj hki
    · refine .inr ⟨g.root i, ?_, hki ▸ hmgd.root_left⟩
      rw [hmgd.worklist]
      simp
    · refine (hg k d hd).imp_right fun ⟨l, hl, hlk⟩ => ⟨l, ?_, ?_⟩
      · rw [hmgd.worklist, ← List.append_assoc]
        exact mem_append_left _ hl
      · rw [hmgd.root, hlk, if_neg hkj]

theorem pruned (hg : LiteralsAloneBut todo g) (hp : Pruned g g') : LiteralsAloneBut todo g' := by
  refine hg.of_classes hp.root (fun i hi => ?_) fun k c' hc' => ?_
  · obtain ⟨cs, ev, rfl⟩ := hp.frame
    exact hi
  · obtain ⟨c, ps, hc, rfl, -, -⟩ := hp.classes k c' hc'
    exact .inr ⟨c, hc, rfl, rfl⟩

theorem unparent (hwf : g.WellFormed) (hg : LiteralsAloneBut todo g)
    (hu : g.unparent id = some g') : LiteralsAloneBut todo g' ∧
      ∀ c, g'.classes.lookup id = some c → c.LiteralAlone := by
  obtain ⟨c, index, hc, hidx, ⟨hlen, rfl⟩ | ⟨g1, c1, node, hp, hc1, -, -, rfl⟩⟩ :=
    unparent_cases hu
  · refine ⟨hg, fun d hd _ => ?_⟩
    cases Map.lookup_unique hc hd
    obtain ⟨n, hn, -⟩ := (hwf.classes id c hc).constantIndex index hidx
    have hlt := (List.getElem?_eq_some_iff.mp hn).1
    exact ⟨by rw [hidx, show index = 0 by omega], hlen⟩
  · refine ⟨(hg.pruned hp).setClass hc1 (.inl fun _ => ⟨rfl, rfl⟩), fun d hd _ => ?_⟩
    rw [lookup_setClass, if_pos rfl] at hd
    cases hd
    exact ⟨rfl, rfl⟩

theorem turn {s s' : RepairState} (hs : LiteralsAloneBut todo s.graph)
    (ht : s.turn id = some s') : LiteralsAloneBut todo s'.graph := by
  obtain ⟨p, rest, -, -, ⟨-, -, rfl⟩ | ⟨other, r, g1, -, hm, rfl, -⟩⟩ :=
    RepairState.turn_cases ht
  · exact hs
  · exact hs.merge hm

theorem repair {eclass : Nat} (hwf : g.WellFormed) (hg : LiteralsAloneBut (eclass :: todo) g)
    (hr : g.repair h fuel (g.root eclass) = some g') : LiteralsAloneBut todo g' := by
  obtain ⟨c, g1, c1, g2, g3, ps, c3, hc, hun, hc1, hrehash, hloop, hc3, -, rfl⟩ := repair_cases hr
  have hg1 : LiteralsAloneBut (eclass :: todo) g1 ∧ c1.LiteralAlone := by
    rcases hun with ⟨-, hun⟩ | ⟨hconst, rfl⟩
    · obtain ⟨hbut, hfst⟩ := hg.unparent hwf hun
      exact ⟨hbut, hfst c1 hc1⟩
    · cases Map.lookup_unique hc hc1
      exact ⟨hg, fun h => absurd h hconst⟩
  have hroot1 : ∀ i, g1.root i = g.root i := by
    rcases hun with ⟨-, hun⟩ | ⟨-, rfl⟩
    · obtain ⟨_, _, -, -, ⟨-, rfl⟩ | ⟨_, _, _, hp, -, -, -, rfl⟩⟩ := unparent_cases hun
      · exact fun _ => rfl
      · exact hp.root
    · exact fun _ => rfl
  have hg1' : LiteralsAloneBut todo g1 := by
    intro k d hd
    rcases hg1.1 k d hd with hfst | ⟨i, hi, hik⟩
    · exact .inl hfst
    · rw [List.cons_append] at hi
      rcases mem_cons.mp hi with rfl | hi
      · rw [hroot1] at hik
        cases Map.lookup_unique hc1 (hik ▸ hd)
        exact .inl hg1.2
      · exact .inr ⟨i, hi, hik⟩
  have hg2 : LiteralsAloneBut todo g2 := by
    refine foldlM_invariant (LiteralsAloneBut todo) ?_ hrehash (hg1'.of_eq rfl rfl fun _ hi => hi)
    intro s p s' _ hs hbut
    obtain ⟨-, -, rfl⟩ := rehash_cases hs
    exact hbut.of_eq rfl rfl fun _ hi => hi
  have hg3 := repairParents_invariant (fun s => LiteralsAloneBut todo s.graph)
    (fun _ _ hs ht => hs.turn ht) hloop hg2
  exact hg3.setClass hc3 (.inr ⟨rfl, length_map _⟩)

theorem foldlM_rebuildStep {s s' : EGraph × List Nat} (hok : Rebuilding s)
    (hg : LiteralsAloneBut todo s.1) (hs : todo.foldlM (rebuildStep h fuel) s = some s') :
    LiteralsAloneBut [] s'.1 := by
  induction todo generalizing s with
  | nil =>
    cases hs
    exact hg
  | cons eclass todo ih =>
    obtain ⟨t, ht, hs⟩ := foldlM_cons_eq_some.mp hs
    obtain ⟨hokt, -⟩ := hok.rebuildStep ht
    obtain ⟨-, g1, c, hg1, -, rfl⟩ := rebuildStep_cases ht
    exact ih hokt ((hg.repair hok.graph hg1).of_eq rfl rfl fun _ hi => hi) hs

theorem rebuildLoop {s s' : EGraph × List Nat} (hok : Rebuilding s) (hg : LiteralsAloneBut [] s.1)
    (hs : EGraph.rebuildLoop h fuel s = some s') : LiteralsAloneBut [] s'.1 := by
  have hbody : ∀ t t', Rebuilding t ∧ LiteralsAloneBut [] t.1 →
      LoopStep rebuildOut (rebuildBody h) t t' → Rebuilding t' ∧ LiteralsAloneBut [] t'.1 := by
    rintro t t' ⟨hok, hg⟩ ⟨-, fuel, ht⟩
    -- the ids that waited are repaired in this round
    have hg' : LiteralsAloneBut t.1.worklist { t.1 with worklist := [] } := by
      intro k c hc
      refine (hg k c hc).imp_right fun ⟨i, hi, hik⟩ => ⟨i, ?_, hik⟩
      rw [append_nil]
      exact hi
    exact ⟨(hok.clearWorklist.foldlM ht).1, foldlM_rebuildStep hok.clearWorklist hg' ht⟩
  obtain ⟨t, ⟨-, hgt⟩, hout⟩ := (isLoop_rebuildLoop h).invariant _ hbody ⟨hok, hg⟩ hs
  obtain ⟨rfl, -⟩ := rebuildOut_eq_some hout
  exact hgt

theorem rebuild (hwf : g.WellFormed) (hg : LiteralsAloneBut [] g)
    (hs : g.rebuild h fuel = some g') : LiteralsAloneBut [] g' := by
  simp only [EGraph.rebuild, bind_eq_some] at hs
  obtain ⟨s, hloop, hclear⟩ := hs
  have hloop' := rebuildLoop hwf.rebuilding hg hloop
  obtain ⟨g1, hshape, hu, hcs, -, hw⟩ := (clearCaches_cases hclear).sameShape
  exact (hloop'.sameShape hshape).of_eq hu hcs (hw ▸ Subset.refl _)

end LiteralsAloneBut

end EGraph

namespace EGraphConstantPropagator

open EGraph Constprop

variable {p p' : EGraphConstantPropagator}

theorem visit_literalsAloneBut {id : Nat} (hg : LiteralsAloneBut [] p.graph)
    (hv : p.visit id = some p') : LiteralsAloneBut [] p'.graph := by
  rcases visit_cases hv with rfl | ⟨-, c, m, -, -, hf⟩
  · exact hg
  · obtain ⟨k, g1, r, g2, hadd, hmrg, -, hgr⟩ := hf.graph
    rw [hgr]
    exact ((hg.add hadd).merge hmrg).of_eq rfl rfl fun _ hi => mem_append_left _ hi

end EGraphConstantPropagator

namespace EGraph

open EGraphConstantPropagator

variable {g : EGraph}

theorem Reachable.literalsAloneBut (hg : g.Reachable) : LiteralsAloneBut [] g := by
  induction hg with
  | empty =>
    intro k c hc
    cases hc
  | add _ h ih => exact ih.add h
  | addOperation _ h ih => exact ih.addOperation h
  | merge _ h ih => exact ih.merge h
  | rebuild hg h ih => exact ih.rebuild hg.wellFormed h
  | constprop _ h ih =>
    exact foldlM_invariant (fun p => LiteralsAloneBut [] p.graph)
      (fun _ _ _ _ hv hp => visit_literalsAloneBut hp hv) h (ih.of_eq rfl rfl fun _ hi => hi)
  | updateCost _ h ih => exact ih.sameShape (GraphAccessor.updateCost_recosted h).sameShape
  | extract _ h ih => exact ih.sameShape (EGraphExtractor.extract_sameShape h)
  | startRound clock _ hw ih => exact ih.of_eq rfl rfl fun _ hi => hi

theorem Reachable.literalAlone (hg : g.Reachable) (hw : g.worklist = []) {k : Nat}
    (hc : g.classes.lookup k = some c) : c.LiteralAlone := by
  refine (hg.literalsAloneBut k c hc).resolve_right ?_
  rintro ⟨i, hi, -⟩
  rw [hw] at hi
  cases hi

theorem Reachable.literalsFirst (hg : g.Reachable) (hw : g.worklist = []) :
    g.LiteralsFirst := fun _ _ hc hconst => (hg.literalAlone hw hc hconst).1

end EGraph

/-! ### The reads of a pass -/

namespace EGraphConstantPropagator

open EGraph Constprop

def ReadsConstant (g : EGraph) (o : Nat) : Prop :=
  ∃ c n v, g.get o = some c ∧ c.constant? = some n ∧ n.data = .constantInt v ∧
    literal g o = some v

/-- A pass over `g` reads the operand `o` in the state `p`, at a node with literal operands only. -/
structure Read (h : HashOrder) (g : EGraph) (p : EGraphConstantPropagator) (o : Nat) : Prop where
  visited : ∃ done id rest, queue h g = done ++ id :: rest ∧
    done.foldlM visit (start h g) = some p ∧ p.graph.root id = id ∧ id ∉ p.constants ∧
    ∃ c before n after, p.graph.get id = some c ∧ c.nodes = before ++ n :: after ∧
      p.visitNodes id before = some p ∧ handled n.data = true ∧
      p.operandsConstant n.operands = some true ∧ o ∈ n.operands

structure Reading (p : EGraphConstantPropagator) : Prop where
  wellFormed : p.graph.WellFormed
  literals : p.graph.LiteralsFirst
  operands : p.graph.IntegerOperands
  constants : ∀ k ∈ p.constants, k < p.graph.size ∧ p.graph.ConstantAt k

variable {p p' : EGraphConstantPropagator}

variable {g : EGraph}

theorem Reading.start {h : HashOrder} (hg : g.WellFormed) (hl : g.LiteralsFirst)
    (ho : g.IntegerOperands) : (start h g).Reading := by
  refine ⟨start_wellFormed hg, hl, ho, fun k hk => ?_⟩
  obtain ⟨c, hc, hconst⟩ := mem_start_constants.mp hk
  exact ⟨hg.lt hc, c, (hg.root_eq hc).symm ▸ hc, hconst⟩

theorem add_literal_lookup {g1 : EGraph} {v : APInt} {k : Nat}
    (hadd : g.add ⟨.constantInt v, []⟩ = some (k, g1)) {l : Nat}
    (hc : g1.classes.lookup l = some c) :
    g.classes.lookup l = some c ∨ c = EClass.ofNodes [⟨.constantInt v, []⟩] := by
  obtain ⟨-, ⟨-, rfl⟩ | ⟨-, hadded⟩⟩ := add_cases hadd
  · exact .inl hc
  · obtain ⟨d, ps, rfl, hold, rfl⟩ := hadded.lookup_cases hc
    rw [if_neg (show l ∉ (g.canon ⟨.constantInt v, []⟩).operands from not_mem_nil)]
    exact hold.elim (fun hnew => .inr hnew.2) .inl

theorem root_add {g1 : EGraph} {k : Nat} (hadd : g.add n = some (k, g1)) (i : Nat) :
    g1.root i = g.root i := by
  obtain ⟨-, ⟨-, rfl⟩ | ⟨-, hadded⟩⟩ := add_cases hadd
  · rfl
  · exact hadded.root i

section Literal

variable {g g1 g2 : EGraph} {v : APInt} {k id r : Nat}

theorem literalsFirst_add (hg : g.LiteralsFirst)
    (hadd : g.add ⟨.constantInt v, []⟩ = some (k, g1)) : g1.LiteralsFirst := by
  intro l c hc
  rcases add_literal_lookup hadd hc with hold | rfl
  · exact hg l c hold
  · exact fun _ => rfl

theorem integerOperands_add (hg : g.IntegerOperands)
    (hadd : g.add ⟨.constantInt v, []⟩ = some (k, g1)) : g1.IntegerOperands := by
  intro l c hc n hn hhandled o ho d hd
  rw [root_add hadd] at hd
  rcases add_literal_lookup hadd hc with hold | rfl
  · rcases add_literal_lookup hadd hd with hold' | rfl
    · exact hg l c hold n hn hhandled o ho d hold'
    · exact ⟨v.width, rfl⟩
  · cases mem_singleton.mp hn
    cases hhandled

theorem literalsFirst_merge (hg : g.LiteralsFirst) (hk : g.ConstantAt k)
    (hm : g.merge k id = some (r, g1)) : g1.LiteralsFirst := by
  obtain ⟨-, -, -, ⟨-, rfl⟩ | hmgd⟩ := merge_cases hm
  · exact hg
  · obtain ⟨c1, c2, c, h1, -, hc, hlook⟩ := hmgd.classes
    intro l d hd
    rw [hlook] at hd
    split_ifs at hd with hlid hlk
    · cases hd
      obtain ⟨c', hc', hconst⟩ := hk
      cases Map.lookup_unique h1 hc'
      intro _
      rw [(merge_nodes hc).2, hg _ c1 h1 hconst]
      rfl
    · exact hg l d hd

theorem integerOperands_merge (hg : g.IntegerOperands) (hm : g.merge k id = some (r, g1)) :
    g1.IntegerOperands := by
  obtain ⟨-, -, -, ⟨-, rfl⟩ | hmgd⟩ := merge_cases hm
  · exact hg
  · obtain ⟨c1, c2, c, h1, h2, hc, hlook⟩ := hmgd.classes
    obtain ⟨hty1, hty2⟩ := merge_type hc
    have hnodes := (merge_nodes hc).1
    -- the operands of a node of the graph before the merge
    have hold : ∀ l e, g.classes.lookup l = some e → ∀ n ∈ e.nodes, handled n.data = true →
        ∀ o ∈ n.operands, ∀ d, g1.classes.lookup (g1.root o) = some d →
          ∃ w, d.type? = some (.int w) := by
      intro l e he n hn hhandled o ho d hd
      have hints := hg l e he n hn hhandled o ho
      rw [hmgd.root, hlook] at hd
      by_cases hid : g.root o = g.root id
      · rw [if_pos hid, if_neg hmgd.ne, if_pos rfl] at hd
        cases hd
        rw [hty2]
        exact hints c2 (hid ▸ h2)
      · rw [if_neg hid, if_neg hid] at hd
        split_ifs at hd with hk
        · cases hd
          rw [hty1]
          exact hints c1 (hk ▸ h1)
        · exact hints d hd
    intro l e he n hn
    rw [hlook] at he
    split_ifs at he
    · cases he
      rw [hnodes] at hn
      rcases mem_append.mp hn with hn | hn
      · exact hold _ c1 h1 n hn
      · exact hold _ c2 h2 n hn
    · exact hold l e he n hn

end Literal

theorem Reading.visit {id : Nat} (hp : p.Reading) (hv : p.visit id = some p') : p'.Reading := by
  rcases visit_cases hv with rfl | ⟨-, c, m, -, -, hf⟩
  · exact hp
  · obtain ⟨hwf, hgrown⟩ := hf.wellFormed hp.wellFormed
    obtain ⟨k, g1, r, g2, hadd, hmrg, hconstants, hgr⟩ := hf.graph
    obtain ⟨hw1, -, hk, hconst⟩ := hp.wellFormed.add hadd
    have hk1 : g1.ConstantAt k := hconst rfl
    have hl := literalsFirst_merge (literalsFirst_add hp.literals hadd) hk1 hmrg
    have ho := integerOperands_merge (integerOperands_add hp.operands hadd) hmrg
    obtain ⟨-, hgrown2, hr⟩ := hw1.merge hmrg
    refine ⟨hwf, hgr ▸ hl, hgr ▸ ho, fun l hmem => ?_⟩
    rw [hconstants, mem_insert_iff] at hmem
    rcases hmem with rfl | hmem
    · obtain ⟨d, hd, hdconst⟩ := hgrown2.constant k hk hk1
      rw [hgr]
      exact ⟨hr, d, (root_merge hmrg).symm ▸ hd, hdconst⟩
    · obtain ⟨hlt, hat⟩ := hp.constants l hmem
      exact ⟨lt_of_lt_of_le hlt hgrown.size, hgrown.constant l hlt hat⟩

theorem Reading.readsConstant (hp : p.Reading) {id o : Nat} (hc : p.graph.get id = some c)
    (hn : n ∈ c.nodes) (hhandled : handled n.data = true)
    (hops : p.operandsConstant n.operands = some true) (ho : o ∈ n.operands) :
    ReadsConstant p.graph o := by
  obtain ⟨-, hc⟩ := get_eq_some.mp hc
  have hlt := (hp.wellFormed.classes _ c hc).operands n hn o ho
  have hroot := (operandsConstant_cases hops).mp rfl o ho
  obtain ⟨-, d, hd, hconst⟩ := hp.constants _ hroot
  rw [root_root] at hd
  have hfst := hp.literals _ d hd hconst
  obtain ⟨l, hl, hlconst⟩ := (hp.wellFormed.classes _ d hd).constantIndex 0 hfst
  obtain ⟨w, hw⟩ := hp.operands _ c hc n hn hhandled o ho d hd
  have htype : d.type? = some l.type := by
    rw [EClass.type?, List.head?_eq_getElem?, hl]
    rfl
  have hdata : ∃ v, l.data = .constantInt v := by
    have hty : l.data.type = .int w := some.inj (htype.symm.trans hw)
    have hlc : l.data.isConstant = true := hlconst
    cases hld : l.data with
    | constantInt v => exact ⟨v, rfl⟩
    | constantFloat => rw [hld] at hty; cases hty
    | _ => rw [hld] at hlc; cases hlc
  obtain ⟨v, hv⟩ := hdata
  have hget : p.graph.get o = some d := get_eq_some.mpr ⟨hlt, hd⟩
  refine ⟨d, l, v, hget, ?_, hv, ?_⟩
  · rw [EClass.constant?, hfst]
    exact hl
  · simp only [literal, hget, hl, some_bind, hconst, hv]

/-- Constant propagation reads the literals of its operands if each is at the front of its class. -/
theorem read_readsConstant (g : EGraph) (hg : g.Reachable) (hint : g.IntegerOperands) :
    (g.LiteralsFirst → ∀ h p o, Read h g p o → ReadsConstant p.graph o) ∧
      (g.worklist = [] → g.LiteralsFirst) := by
  refine ⟨fun hl h p o hread => ?_, hg.literalsFirst⟩
  obtain ⟨done, id, rest, hqueue, hdone, -, -, c, before, n, after, hc, hnodes, -, hhandled, hops,
    ho⟩ := hread.visited
  have hp : p.Reading := foldlM_invariant Reading (fun _ _ _ _ hv hq => hq.visit hv) hdone
    (Reading.start hg.wellFormed hl hint)
  exact hp.readsConstant hc (hnodes ▸ mem_append_right _ mem_cons_self) hhandled hops ho

/-- `~(x ^ x)`, with `x ^ x` merged with zero, and calls after that. -/
def negatedXor (calls : List EGraphCall) : Option EGraphSession :=
  let x := Operation.constant (.int 8) (.numbered 0)
  EGraphSession.run .insertion (fun d ops => some (.mk d ops)) {} ([.add
    (.mk (.unary .not (.int 8)) [.mk (.binary .xor (.int 8)) [x, x]]),
    .addNode ⟨.constantInt ⟨8, 0⟩, []⟩, .merge 1 3] ++ calls)

theorem read_of_first {h : HashOrder} {id o : Nat} {rest : List Nat} {nodes : List ENode}
    (hqueue : queue h g = id :: rest) (hroot : g.root id = id) (hid : id ∉ (start h g).constants)
    (hc : g.get id = some c) (hnodes : c.nodes = n :: nodes) (hn : handled n.data = true)
    (hops : (start h g).operandsConstant n.operands = some true) (ho : o ∈ n.operands) :
    Read h g (start h g) o :=
  ⟨[], id, rest, hqueue, rfl, hroot, hid, c, [], n, nodes, hc, hnodes, rfl, hn, hops, ho⟩

/-- After a rebuild the zero is read. -/
theorem read_readsConstant_rebuilt :
    ∃ s, negatedXor [.rebuild 9] = some s ∧
      Read .insertion s.graph (start .insertion s.graph) 1 ∧
      ReadsConstant (start .insertion s.graph).graph 1 ∧
      literal s.graph 1 = some ⟨8, 0⟩ := by
  obtain ⟨s, hs, hdata⟩ := map_eq_some_iff.mp
    (show (negatedXor [.rebuild 9]).map (fun s => decide (
      queue .insertion s.graph = [2, 0] ∧ s.graph.root 2 = 2 ∧
      2 ∉ (start .insertion s.graph).constants ∧
      (s.graph.get 2).map EClass.nodes = some [⟨.unary .not (.int 8), [1]⟩] ∧
      (start .insertion s.graph).operandsConstant [1] = some true ∧
      s.graph.worklist = [] ∧ s.graph.IntegerOperands ∧
      literal s.graph 1 = some ⟨8, 0⟩)) = some true by decide +kernel)
  obtain ⟨hqueue, hroot, hconst, hget, hops, hw, hint, hlit⟩ := of_decide_eq_true hdata
  obtain ⟨c, hc, hnodes⟩ := map_eq_some_iff.mp hget
  have hread := read_of_first hqueue hroot hconst hc hnodes rfl hops mem_cons_self
  have hrch := EGraphSession.run_reachable Reachable.empty hs
  obtain ⟨hright, hfst⟩ := read_readsConstant s.graph hrch hint
  exact ⟨s, hs, hread, hright (hfst hw) .insertion _ 1 hread, hlit⟩

/-- Before the rebuild the literal is not at the front of the class of `x ^ x`: saturation fails. -/
theorem read_pending_literal_fails :
    (∃ s, negatedXor [] = some s ∧ s.graph.Reachable ∧ s.graph.IntegerOperands ∧
      (s.graph.get 1).bind EClass.constant? = some ⟨.constantInt ⟨8, 0⟩, []⟩ ∧
      Read .insertion s.graph (start .insertion s.graph) 1 ∧
      ¬ ReadsConstant (start .insertion s.graph).graph 1 ∧
      (s.graph.constprop .insertion).isNone) ∧
    (simplifyExpression (.mk (.unary .not (.int 8)) [.mk (.binary .xor (.int 8))
      [.constant (.int 8) (.numbered 0), .constant (.int 8) (.numbered 0)]])).isNone := by
  refine ⟨?_, by decide +kernel⟩
  obtain ⟨s, hs, hdata⟩ := map_eq_some_iff.mp
    (show (negatedXor []).map (fun s => decide (
      queue .insertion s.graph = [2, 0] ∧ s.graph.root 2 = 2 ∧
      2 ∉ (start .insertion s.graph).constants ∧
      (s.graph.get 2).map EClass.nodes = some [⟨.unary .not (.int 8), [1]⟩] ∧
      (start .insertion s.graph).operandsConstant [1] = some true ∧ s.graph.IntegerOperands ∧
      (s.graph.get 1).bind EClass.constant? = some ⟨.constantInt ⟨8, 0⟩, []⟩ ∧
      literal (start .insertion s.graph).graph 1 = none ∧
      (s.graph.constprop .insertion).isNone)) = some true by decide +kernel)
  obtain ⟨hqueue, hroot, hconst, hget, hops, hint, hzero, hlit, hnone⟩ := of_decide_eq_true hdata
  obtain ⟨c, hc, hnodes⟩ := map_eq_some_iff.mp hget
  refine ⟨s, hs, EGraphSession.run_reachable Reachable.empty hs, hint, hzero,
    read_of_first hqueue hroot hconst hc hnodes rfl hops mem_cons_self, ?_, hnone⟩
  rintro ⟨d, n, v, -, -, -, hv⟩
  rw [hlit] at hv
  cases hv

end EGraphConstantPropagator

end Caffeine
