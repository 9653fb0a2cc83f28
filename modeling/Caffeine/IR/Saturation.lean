import Caffeine.IR.EGraphReachable

/-!
# Saturation with any matcher

A round of `equality_saturation` depends on the matcher only in what its update functions do
through the accessor. The loop ends when a round has recorded no update. The last pass of constant
propagation has then folded nothing, and the rebuild after it had nothing to repair.
-/

namespace Caffeine

open Option

namespace EGraphConstantPropagator

open EGraph Constprop

variable {p : EGraphConstantPropagator}

theorem tryFold_none {n : ENode} (h : p.tryFold n = some none) (hn : handled n.data = true) :
    ∃ o ∈ n.operands, p.graph.root o ∉ p.constants := by
  unfold tryFold at h
  rw [if_pos hn] at h
  simp only [bind_eq_bind, bind_eq_some_iff] at h
  obtain ⟨b, hb, h⟩ := h
  have hcases := operandsConstant_cases hb
  split_ifs at h with hconst
  · simp only [bind_eq_some_iff, reduceCtorEq, and_false, exists_false, some.injEq] at h
  · by_contra hall
    push Not at hall
    exact hconst (hcases.mpr hall)

theorem visitNodes_stays {id : Nat} {nodes : List ENode} (h : p.visitNodes id nodes = some p) :
    ∀ n ∈ nodes, p.tryFold n = some none := by
  induction nodes with
  | nil => exact fun n hn => absurd hn List.not_mem_nil
  | cons node nodes ih =>
    simp only [visitNodes, bind_eq_bind, bind_eq_some_iff] at h
    obtain ⟨fold, hfold, h⟩ := h
    cases fold with
    | none => exact List.forall_mem_cons.mpr ⟨hfold, ih h⟩
    | some r =>
      -- a fold would have been logged
      simp only [bind_eq_some_iff, some.injEq] at h
      obtain ⟨added, -, merged, -, heq⟩ := h
      have hlen := congrArg (fun q => q.merges.length) heq
      simp at hlen

theorem exists_operandsConstant {ops : List Nat} (h : ∀ o ∈ ops, o < p.graph.size) :
    ∃ b, p.operandsConstant ops = some b := by
  induction ops with
  | nil => exact ⟨true, rfl⟩
  | cons o ops ih =>
    obtain ⟨ho, hops⟩ := List.forall_mem_cons.mp h
    rw [operandsConstant, EGraph.find, if_pos ho, bind_eq_bind, bind_some]
    split_ifs
    · exact ih hops
    · exact ⟨false, rfl⟩

theorem visitNodes_of_tryFold {id : Nat} {nodes : List ENode}
    (h : ∀ n ∈ nodes, p.tryFold n = some none) : p.visitNodes id nodes = some p := by
  induction nodes with
  | nil => rfl
  | cons n nodes ih =>
    obtain ⟨hn, hnodes⟩ := List.forall_mem_cons.mp h
    rw [visitNodes, hn, bind_eq_bind, bind_some]
    exact ih hnodes

end EGraphConstantPropagator

namespace EGraph

open EGraphConstantPropagator Constprop

/-- Every class with a handled node whose operands all have a literal has a literal. -/
def NoFoldable (g : EGraph) : Prop :=
  ∀ k c, g.classes.lookup k = some c → ∀ n ∈ c.nodes, handled n.data = true →
    (∀ o ∈ n.operands, g.ConstantAt o) → c.isConstant = true

variable {g g' : EGraph} {h : HashOrder} {p : EGraphConstantPropagator}

theorem noFoldable_of_stays (hg : g.WellFormed)
    (hstays : ∀ id ∈ queue h g, (start h g).visit id = some (start h g)) : g.NoFoldable := by
  intro k c hc n hn hhandled hops
  by_contra hconst
  have hqueue : k ∈ queue h g := mem_queue.mpr ⟨c, hc, Bool.not_eq_true _ ▸ hconst⟩
  have hvis := hstays k hqueue
  have hroot : (start h g).graph.root k = k := hg.root_eq hc
  have hnot : k ∉ (start h g).constants := by
    intro hmem
    obtain ⟨d, hd, hdc⟩ := mem_start_constants.mp hmem
    cases Map.lookup_unique hc hd
    exact hconst hdc
  simp only [visit, bind_eq_some, find_eq_some] at hvis
  obtain ⟨r, ⟨-, rfl⟩, hvis⟩ := hvis
  rw [hroot, if_neg (not_not.mpr rfl), if_neg hnot] at hvis
  obtain ⟨d, hd, hnodes⟩ := bind_eq_some_iff.mp hvis
  obtain ⟨-, hd⟩ := get_eq_some.mp hd
  rw [hroot] at hd
  cases Map.lookup_unique (m := g.classes) hc hd
  obtain ⟨o, ho, hout⟩ := tryFold_none (visitNodes_stays hnodes n hn) hhandled
  obtain ⟨e, he, hec⟩ := hops o ho
  exact hout (mem_start_constants.mpr ⟨e, he, hec⟩)

theorem noFoldable_of_updated_nil (hg : g.WellFormed) (ht : g.Tracked) (hp : g.constprop h = some p)
    {fuel : Nat} (hr : p.graph.rebuild h fuel = some g') (hup : g'.updated = []) :
    g'.NoFoldable := by
  have hpup : p.graph.updated = [] := List.subset_nil.mp (hup ▸ rebuild_updated hr)
  obtain ⟨rfl, hstays⟩ := constprop_stays hg hp hpup
  have hw : (start h g).graph.worklist = [] := ht hpup
  have hno : g.NoFoldable := noFoldable_of_stays hg hstays
  rw [rebuild_of_worklist_nil hw hr]
  exact hno

theorem NoFoldable.visit (hno : g.NoFoldable) (hg : g.WellFormed) {k : Nat} (hk : k ∈ queue h g) :
    (start h g).visit k = some (start h g) := by
  obtain ⟨c, hc, hnot⟩ := mem_queue.mp hk
  obtain ⟨hlt, hroot⟩ := (hg.live k).mp (Map.mem_of_lookup hc)
  have hfind : (start h g).graph.find k = some k := find_eq_some.mpr ⟨hlt, hroot.symm⟩
  have hget : (start h g).graph.get k = some c := get_eq_some.mpr ⟨hlt, hroot.symm ▸ hc⟩
  have hmem : k ∉ (start h g).constants := fun hmem => by
    obtain ⟨d, hd, hconst⟩ := mem_start_constants.mp hmem
    cases Map.lookup_unique hc hd
    cases hconst.symm.trans hnot
  simp only [EGraphConstantPropagator.visit, hfind, hget, bind_some, bind_eq_bind, ne_eq,
    not_true, if_false, if_neg hmem]
  refine visitNodes_of_tryFold fun n hn => ?_
  unfold tryFold
  split_ifs with hhandled
  · have hops := (hg.classes k c hc).operands n hn
    obtain ⟨b, hb⟩ : ∃ b, (start h g).operandsConstant n.operands = some b :=
      exists_operandsConstant hops
    cases b with
    | false => rw [hb]; rfl
    | true =>
      -- all operands have literals, so the class would have one
      have hconst := hno k c hc n hn hhandled fun o ho =>
        mem_start_constants.mp ((operandsConstant_cases hb).mp rfl o ho)
      cases hconst.symm.trans hnot
  · rfl

theorem NoFoldable.constprop (hno : g.NoFoldable) (hg : g.WellFormed) :
    g.constprop h = some (start h g) := by
  obtain ⟨p, hp, rfl⟩ := foldlM_exists (f := EGraphConstantPropagator.visit) (· = start h g)
    (fun p k hk hp => ⟨start h g, hp ▸ hno.visit hg hk, rfl⟩) rfl
  exact hp

end EGraph

namespace EGraphMatcher

/-- The part of a round before `persist`: matching, and the calls of the update functions. -/
abbrev MatchPhase := EGraphMatcher → Option (EGraphMatcher × GraphAccessor)

/-- The updates are forgotten and the graph is changed through the accessor only. -/
def MatchPhase.AccessorOnly (phase : MatchPhase) : Prop :=
  ∀ s r, phase s = some r → ∃ clock events, GraphAccessor.Calls
    { graph := { s.graph with updated := [], trace := { s.graph.trace with clock := clock } },
      events := events } r.2

section With

variable (h : HashOrder) (phase : MatchPhase)

def roundWith (fuel : Nat) (s : EGraphMatcher) : Option EGraphMatcher := do
  let r ← phase s
  let g ← r.2.persist
  let p ← g.constprop h
  let g ← p.graph.rebuild h fuel
  some { r.1 with graph := g, events := r.2.events }

def saturateWith (roundFuel : Nat) : Nat → EGraphMatcher → Option EGraphMatcher
  | 0, _ => none
  | fuel + 1, s =>
    if s.graph.updated = [] then some s
    else do
      let s' ← s.roundWith h phase roundFuel
      saturateWith roundFuel fuel s'

end With

def matchPhase (h : HashOrder) (m : EMatcher) (cache : OperationCache) (fuel : Nat) : MatchPhase :=
  fun s => do
    let s ← s.updatePotentialMatches h m
    let (data, s) ← s.findMatches h m
    let (work, s) ← matchingWorkItems h m data s
    let a ← work.foldlM (workOn m cache fuel data)
      { graph := { s.graph with updated := [] }, events := s.events }
    some (s, a)

end EGraphMatcher

open EGraphMatcher

def EGraph.simplifyWith (h : HashOrder) (phase : MatchPhase) (fuel : Nat) (g : EGraph) :
    Option EGraphMatcher := do
  let p ← g.constprop h
  let g ← p.graph.rebuild h fuel
  saturateWith h phase fuel fuel { graph := g }

namespace EGraphMatcher

variable {h : HashOrder} {phase : MatchPhase} {fuel : Nat} {s s' : EGraphMatcher}

theorem matchPhase_accessorOnly (h : HashOrder) (m : EMatcher) (cache : OperationCache)
    (fuel : Nat) : (matchPhase h m cache fuel).AccessorOnly := by
  intro s r hr
  simp only [matchPhase, bind_eq_some, some.injEq] at hr
  obtain ⟨s1, h1, ⟨data, s2⟩, h2, ⟨work, s3⟩, h3, a, ha, rfl⟩ := hr
  obtain ⟨hg1, -⟩ := updatePotentialMatches_frame h1
  obtain ⟨t2, rfl⟩ := (findMatches_ok h2).2
  obtain ⟨t3, rfl⟩ := (matchingWorkItems_ok h3).2
  have hcalls := foldlM_invariant (GraphAccessor.Calls _)
    (fun _ _ _ _ hb ih => ih.trans (workOn_calls hb)) ha (GraphAccessor.Calls.refl _)
  rw [hg1] at hcalls
  exact ⟨t3, s1.events, hcalls⟩

theorem round_eq_roundWith (h : HashOrder) (m : EMatcher) (cache : OperationCache) (fuel : Nat)
    (s : EGraphMatcher) :
    s.round h m cache fuel = s.roundWith h (matchPhase h m cache fuel) fuel := by
  simp only [round, roundWith, matchPhase, bind_eq_bind, bind_assoc, bind_some]

theorem saturate_eq_saturateWith (h : HashOrder) (m : EMatcher) (cache : OperationCache)
    (roundFuel fuel : Nat) (s : EGraphMatcher) : s.saturate h m cache roundFuel fuel =
      s.saturateWith h (matchPhase h m cache roundFuel) roundFuel fuel := by
  induction fuel generalizing s with
  | zero => rfl
  | succ fuel ih =>
    unfold saturate saturateWith
    simp only [round_eq_roundWith, ih]

structure Between (s : EGraphMatcher) : Prop where
  reachable : s.graph.Reachable
  worklist : s.graph.worklist = []
  settled : s.graph.updated = [] → s.graph.NoFoldable

theorem between_of_rebuild {g g' : EGraph} {p : EGraphConstantPropagator} (hg : g.Reachable)
    (hp : g.constprop h = some p) (hr : p.graph.rebuild h fuel = some g') (hs : s.graph = g') :
    s.Between := by
  subst hs
  have hrch := hg.constprop hp
  exact ⟨hrch.rebuild hr, (hrch.wellFormed.rebuild hr).2.2,
    EGraph.noFoldable_of_updated_nil hg.wellFormed hg.tracked hp hr⟩

theorem roundWith_between (hphase : phase.AccessorOnly) (hs : s.Between)
    (hr : s.roundWith h phase fuel = some s') : s'.Between := by
  simp only [roundWith, bind_eq_some, some.injEq] at hr
  obtain ⟨r, hr, g, hg, p, hp, g', hg', rfl⟩ := hr
  obtain ⟨clock, events, hcalls⟩ := hphase s r hr
  have hstart := hs.reachable.startRound clock hs.worklist
  have hrch := GraphAccessor.persist_reachable (hcalls.reachable hstart) hg
  exact between_of_rebuild hrch hp hg' rfl

theorem saturateWith_between (hphase : phase.AccessorOnly) {roundFuel : Nat} (hs : s.Between)
    (hr : s.saturateWith h phase roundFuel fuel = some s') :
    s'.Between ∧ s'.graph.updated = [] := by
  induction fuel generalizing s with
  | zero => cases hr
  | succ fuel ih =>
    unfold saturateWith at hr
    split_ifs at hr with hup
    · cases hr
      exact ⟨hs, hup⟩
    · obtain ⟨t, ht, hr⟩ := bind_eq_some_iff.mp hr
      exact ih (roundWith_between hphase hs ht) hr

end EGraphMatcher

namespace EGraph

theorem simplify_eq_simplifyWith (h : HashOrder) (m : EMatcher) (cache : OperationCache)
    (fuel : Nat) (g : EGraph) :
    g.simplify h m cache fuel = g.simplifyWith h (matchPhase h m cache fuel) fuel := by
  simp only [simplify, simplifyWith, saturate_eq_saturateWith]

theorem simplifyWith_between {h : HashOrder} {phase : MatchPhase} (hphase : phase.AccessorOnly)
    {g : EGraph} (hg : g.Reachable) {fuel : Nat} {s : EGraphMatcher}
    (hs : g.simplifyWith h phase fuel = some s) : s.Between ∧ s.graph.updated = [] := by
  simp only [simplifyWith, bind_eq_some] at hs
  obtain ⟨p, hp, g', hg', hs⟩ := hs
  exact saturateWith_between hphase (between_of_rebuild hg hp hg' rfl) hs

/-- When saturation returns, for every matcher and every hash order, no class without a literal has
a node that could be folded. -/
theorem simplifyWith_noFoldable (h : HashOrder) (phase : MatchPhase) (hphase : phase.AccessorOnly)
    (g : EGraph) (hg : g.Reachable) (fuel : Nat) (s : EGraphMatcher)
    (hs : g.simplifyWith h phase fuel = some s) : s.graph.NoFoldable := by
  obtain ⟨hbetween, hup⟩ := simplifyWith_between hphase hg hs
  exact hbetween.settled hup

/-- `~(~1 + 2)`, where the hash map meets the sum and the outer negation first: one pass folds the
inner negation only. -/
theorem simplifyWith_noFoldable_not_add :
    let byte := fun n : BitVec 8 => Operation.constantInt ⟨8, n⟩
    let not := fun o : Operation => Operation.mk (.unary .not (.int 8)) [o]
    let e := not (.mk (.binary .add (.int 8)) [not (byte 1), byte 2])
    ∃ r, simplifyExpression e = some r ∧ r.1 = [4] ∧
      (r.2.1.constprop .insertion).map (fun p => p.merges.map ConstpropMerge.id) = some [1] ∧
      r.2.2.graph.NoFoldable ∧
      [1, 3, 4].map (fun i => (r.2.2.graph.get i).map EClass.isConstant) =
        [some true, some true, some true] := by
  intro byte not e
  obtain ⟨r, hr, hdata⟩ := map_eq_some_iff.mp (show (simplifyExpression e).map (fun r =>
    decide (r.1 = [4] ∧
      (r.2.1.constprop .insertion).map (fun p => p.merges.map ConstpropMerge.id) = some [1] ∧
      [1, 3, 4].map (fun i => (r.2.2.graph.get i).map EClass.isConstant) =
        [some true, some true, some true])) = some true by decide +kernel)
  obtain ⟨hids, hfst, hall⟩ := of_decide_eq_true hdata
  obtain ⟨hadd, hrun⟩ := simplifyExpression_cases hr
  rw [simplify_eq_simplifyWith] at hrun
  exact ⟨r, hr, hids, hfst, simplifyWith_noFoldable _ _ (matchPhase_accessorOnly _ _ _ _) r.2.1
    (Reachable.empty.addOperands hadd) 10 r.2.2 hrun, hall⟩

/-- A graph that saturation has returned is saturated for every matcher and every hash order:
simplifying it again changes nothing. -/
theorem simplify_again (h h' : HashOrder) (m m' : EMatcher) (cache cache' : OperationCache)
    (g : EGraph) (hg : g.Reachable) (fuel : Nat) (s : EGraphMatcher)
    (hs : g.simplify h m cache fuel = some s) (fuel' : Nat) :
    s.graph.simplify h' m' cache' (fuel' + 1) = some { graph := s.graph.tick } := by
  rw [simplify_eq_simplifyWith] at hs
  obtain ⟨hbetween, hup⟩ := simplifyWith_between (matchPhase_accessorOnly h m cache fuel) hg hs
  have hprop := (hbetween.settled hup).constprop (h := h') hbetween.reachable.wellFormed
  have hrebuild : s.graph.tick.rebuild h' (fuel' + 1) = some s.graph.tick := by
    have hw : s.graph.tick.worklist = [] := hbetween.worklist
    simp [rebuild, rebuildLoop, hw, clearCaches]
  have hdone : s.graph.tick.updated = [] := hup
  simp [simplify, hprop, EGraphConstantPropagator.start, hrebuild, saturate, hdone]

theorem simplify_again_not : ∃ r, simplifyExpression
      (.mk (.unary .not (.int 8)) [.constantInt ⟨8, 1⟩]) = some r ∧
    r.2.2.graph.simplify .insertion .integerDefaults .full 1 =
      some { graph := r.2.2.graph.tick } := by
  obtain ⟨r, hr⟩ := isSome_iff_exists.mp (show (simplifyExpression
    (.mk (.unary .not (.int 8)) [.constantInt ⟨8, 1⟩])).isSome = true by decide +kernel)
  obtain ⟨hadd, hrun⟩ := simplifyExpression_cases hr
  exact ⟨r, hr, simplify_again _ _ _ _ _ _ _ (Reachable.empty.addOperands hadd) _ _ hrun 0⟩

end EGraph

end Caffeine
