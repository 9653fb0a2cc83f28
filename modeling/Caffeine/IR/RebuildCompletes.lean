import Caffeine.IR.EGraphReachable
import Mathlib.Data.Finset.Card
import Mathlib.Data.Prod.Lex

/-!
# Completion of `rebuild`

`repair` holds a reference to the class under repair and an iterator over its parents while it
merges the classes of congruent parents; they are lost when this class is absorbed or gets a new
parent. Nothing else can go wrong: all other lookups succeed, and every merge takes away a class.
-/

namespace Caffeine

open List Option

variable {s t : RepairState}

namespace EGraph

/-! ### Steps that always succeed -/

section Succeeds

variable {g : EGraph} {h : HashOrder} {id : Nat} {c : EClass}

theorem ClassOk.type_isSome (hc : g.ClassOk id c) : c.type?.isSome = true := by
  obtain ⟨n, hn⟩ := exists_mem_of_ne_nil _ hc.nonempty
  rw [hc.types n hn]
  rfl

theorem WellFormed.merge_exists (hg : g.WellFormed) {i j : Nat} (hi : i < g.size) (hj : j < g.size)
    (htype : g.typeAt i = g.typeAt j) : ∃ r g', g.merge i j = some (r, g') := by
  unfold EGraph.merge
  rw [dif_pos hi, dif_pos hj]
  split_ifs with hroot
  · exact ⟨_, _, rfl⟩
  · obtain ⟨c1, h1⟩ := hg.exists_class hi
    obtain ⟨c2, h2⟩ := hg.exists_class hj
    rw [typeAt, typeAt, h1, h2, bind_some, bind_some] at htype
    obtain ⟨c, hc⟩ : ∃ c, c1.merge c2 = some c :=
      ⟨_, if_pos ⟨(hg.classes _ c1 h1).type_isSome, htype⟩⟩
    simp only [h1, h2, hc, some_bind]
    exact ⟨_, _, rfl⟩

theorem WellFormed.unparent_exists (hg : g.WellFormed) (hc : g.classes.lookup id = some c)
    (hconst : c.isConstant = true) : ∃ g', g.unparent id = some g' := by
  obtain ⟨index, hidx⟩ := isSome_iff_exists.mp hconst
  obtain ⟨node, hnode, -⟩ := (hg.classes id c hc).constantIndex index hidx
  have hops := (hg.classes id c hc).operands
  obtain ⟨g1, hg1, hp⟩ : ∃ g1, c.nodes.foldlM (fun g node =>
      node.operands.foldlM (eraseParent node) g) g = some g1 ∧ Pruned g g1 := by
    refine foldlM_exists (Pruned g) (fun s n hn hs => ?_) (Pruned.refl g)
    refine foldlM_exists (Pruned g) (fun t o ho ht => ?_) hs
    obtain ⟨d, hd⟩ := (hg.pruned ht).exists_get (ht.size.symm ▸ hops n hn o ho)
    have hex : ∃ t', eraseParent n t o = some t' := by
      simp only [eraseParent, hd, bind_eq_bind, bind_some]
      exact ⟨_, rfl⟩
    obtain ⟨t', ht'⟩ := hex
    exact ⟨t', ht', ht.trans (eraseParent_pruned ht')⟩
  obtain ⟨c1, hc1⟩ := Map.exists_lookup ((hp.keys id).mpr (Map.mem_of_lookup hc))
  have hnodes : c1.nodes = c.nodes := by
    obtain ⟨d, ps, hd, rfl, -, -⟩ := hp.classes id c1 hc1
    cases Map.lookup_unique hc hd
    rfl
  unfold EGraph.unparent
  simp only [hc, hidx, bind_eq_bind, bind_some]
  split_ifs
  · exact ⟨_, rfl⟩
  · simp only [hg1, hc1, hnodes, hnode, bind_some]
    exact ⟨_, rfl⟩

theorem foldlM_rehash_exists {ps : List (ENode × Nat)} (hps : ∀ p ∈ ps, g.EntryOk p.1 p.2) :
    ∃ g', ps.foldlM rehash g = some g' := by
  have hstep : ∀ s p, p ∈ ps → s.unionFind = g.unionFind →
      ∃ s', rehash s p = some s' ∧ s'.unionFind = g.unionFind := by
    intro s p hp hs
    have hsize : s.size = g.size := by rw [size, size, hs]
    have hcan : s.canonicalize p.1 = some (s.canon p.1) :=
      canonicalize_eq_some.mpr ⟨fun o ho => hsize ▸ (hps p hp).operands o ho, rfl⟩
    have hfind : s.find p.2 = some (s.root p.2) :=
      find_eq_some.mpr ⟨hsize ▸ (hps p hp).lt, rfl⟩
    refine ⟨{ s with hashcons := (s.hashcons.erase p.1).insert (s.canon p.1) (s.root p.2) }, ?_, hs⟩
    simp only [rehash, hcan, hfind, some_bind]
  obtain ⟨g', hg', -⟩ := foldlM_exists (fun s : EGraph => s.unionFind = g.unionFind) hstep rfl
  exact ⟨g', hg'⟩

theorem WellFormed.repairStart_exists (hg : g.WellFormed) (hc : g.classes.lookup id = some c) :
    ∃ s, repairStart h g id = some s := by
  obtain ⟨g1, hg1, hw, c1, hc1⟩ : ∃ g1,
      (if c.isConstant then g.unparent id else some g) = some g1 ∧ g1.WellFormed ∧
        ∃ c1, g1.classes.lookup id = some c1 := by
    split_ifs with hconst
    · obtain ⟨g1, hg1⟩ := hg.unparent_exists hc hconst
      refine ⟨g1, hg1, (hg.unparent hg1).1, ?_⟩
      obtain ⟨_, _, -, -, ⟨-, rfl⟩ | ⟨g2, c2, _, -, -, -, -, rfl⟩⟩ := unparent_cases hg1
      · exact ⟨c, hc⟩
      · exact ⟨_, (lookup_setClass _ _ _ _).trans (if_pos rfl)⟩
    · exact ⟨g, rfl, hg, c, hc⟩
  have htick : Grown g1 g1.tick := Grown.of_eq rfl rfl
  have hents : ∀ p ∈ h.order g1.trace.clock c1.parents.pairs, g1.tick.EntryOk p.1 p.2 :=
    fun p hp =>
      ((hw.classes id c1 hc1).parents p.1 p.2 (Map.mem_pairs.mp (h.mem_order.mp hp))).1.grown htick
  obtain ⟨g2, hg2⟩ := foldlM_rehash_exists hents
  refine ⟨⟨g2, ∅, h.order g1.trace.clock c1.parents.pairs⟩, ?_⟩
  simp only [repairStart, hc, hg1, hc1, hg2, some_bind]

theorem RepairOk.finish_exists {ps : Map ENode Nat} {rest : List (ENode × Nat)}
    (hs : RepairOk id ⟨g, ps, rest⟩) (hlt : id < g.size) :
    ∃ g', repairFinish id (g, ps) = some g' := by
  obtain ⟨hg, hid, -, -⟩ := hs
  obtain ⟨c, hc⟩ : ∃ c, g.classes.lookup id = some c := by
    obtain ⟨c, hc⟩ := hg.exists_class hlt
    exact ⟨c, hid ▸ hc⟩
  have hnodes : c.nodes.mapM g.canonicalize = some (c.nodes.map g.canon) :=
    mapM_canonicalize_eq_some.mpr ⟨(hg.classes id c hc).operands, rfl⟩
  simp only [repairFinish, hc, hnodes, some_bind]
  exact ⟨_, rfl⟩

end Succeeds

/-! ### The second loop of `repair` -/

/-- The next entry asks for a merge in which the class `id` is absorbed or gets a new parent. -/
def RepairState.Invalidates (id : Nat) (s : RepairState) : Prop :=
  ∃ p rest other, s.rest = p :: rest ∧ s.newParents.lookup (s.graph.canon p.1) = some other ∧
    s.graph.root p.2 ≠ s.graph.root other ∧
    (s.graph.root other = id ∨ s.graph.root p.2 = id ∧ ¬ s.graph.Covers id (s.graph.root other))

theorem RepairOk.turn_exists_iff {id : Nat} (hs : RepairOk id s)
    (hrest : s.out = none) : (∃ s', s.turn id = some s') ↔ ¬ s.Invalidates id := by
  obtain ⟨g, ps, rest⟩ := s
  constructor
  · rintro ⟨s', ht⟩ ⟨p, rest', other, hrest, hlook, hne, hbad⟩
    obtain ⟨q, rest'', hrest', -, hcases⟩ := RepairState.turn_cases ht
    cases hrest.symm.trans hrest'
    rcases hcases with ⟨hnone, -, -⟩ | ⟨other', r, g1, hlook', -, -, hside⟩
    · rw [hlook] at hnone
      cases hnone
    · cases hlook.symm.trans hlook'
      obtain ⟨hother, hcov⟩ := hside.resolve_left hne
      rcases hbad with heq | ⟨hown, hnot⟩
      · exact hother heq
      · exact hnot (hcov hown)
  · intro hno
    cases rest with
    | nil => cases hrest
    | cons p rest =>
      obtain ⟨⟨hops, hlt, -, htype⟩, -⟩ := hs.rest p mem_cons_self
      have hcan : g.canonicalize p.1 = some (g.canon p.1) :=
        canonicalize_eq_some.mpr ⟨hops, rfl⟩
      have hfind : g.find p.2 = some (g.root p.2) := find_eq_some.mpr ⟨hlt, rfl⟩
      simp only [RepairState.turn, hcan, bind_eq_bind, bind_some]
      cases hlook : ps.lookup (g.canon p.1) with
      | none =>
        simp only [hfind, bind_some]
        exact ⟨_, rfl⟩
      | some other =>
        obtain ⟨⟨-, hlt', -, htype'⟩, -⟩ := hs.newParents _ _ hlook
        have heq : g.typeAt p.2 = g.typeAt other := htype.trans htype'.symm
        obtain ⟨r, g1, hm⟩ := hs.graph.merge_exists hlt hlt' heq
        simp only [hm, bind_some]
        split_ifs with hroot hother hown
        · exact ⟨_, rfl⟩
        · exact absurd ⟨p, rest, other, rfl, hlook, hroot, .inl hother⟩ hno
        · obtain ⟨c, d, hc, hd, hsub⟩ : g.Covers id (g.root other) := by
            by_contra hnot
            exact hno ⟨p, rest, other, rfl, hlook, hroot, .inr ⟨hown, hnot⟩⟩
          simp only [hc, hd, bind_some, if_pos hsub]
          exact ⟨_, rfl⟩
        · exact ⟨_, rfl⟩

/-! ### Merges take away classes -/

def representatives (g : EGraph) : Finset Nat := (Finset.range g.size).filter fun k => g.root k = k

def Progress (g g' : EGraph) : Prop :=
  g'.representatives.card < g.representatives.card ∨
    g'.representatives.card = g.representatives.card ∧ g'.worklist = g.worklist

section Progress

variable {g g' g'' : EGraph} {h : HashOrder} {id : Nat}

theorem Progress.refl (g : EGraph) : Progress g g := .inr ⟨rfl, rfl⟩

theorem Progress.of_eq (hu : g'.unionFind = g.unionFind) (hw : g'.worklist = g.worklist) :
    Progress g g' := by
  refine .inr ⟨congrArg Finset.card (Finset.ext fun k => ?_), hw⟩
  rw [representatives, Finset.mem_filter, representatives, Finset.mem_filter]
  simp only [size, root, hu]

theorem Progress.trans (h : Progress g g') (h' : Progress g' g'') : Progress g g'' := by
  rcases h with hlt | ⟨heq, hw⟩
  · rcases h' with hlt' | ⟨heq', -⟩
    · exact .inl (hlt'.trans hlt)
    · exact .inl (heq' ▸ hlt)
  · rcases h' with hlt' | ⟨heq', hw'⟩
    · exact .inl (heq ▸ hlt')
    · exact .inr ⟨heq'.trans heq, hw'.trans hw⟩

theorem Merged.card_lt {i j : Nat} (hm : Merged g i j g') (hj : j < g.size) :
    g'.representatives.card < g.representatives.card := by
  refine Finset.card_lt_card (Finset.ssubset_iff_subset_ne.mpr ⟨fun k hk => ?_, fun heq => ?_⟩)
  · simp only [representatives, Finset.mem_filter, Finset.mem_range, hm.size, hm.root] at hk ⊢
    refine ⟨hk.1, ?_⟩
    have hroot := hk.2
    split_ifs at hroot with hkj
    · rw [← hroot, root_root]
    · exact hroot
  · have hmem : g.root j ∈ g.representatives :=
      Finset.mem_filter.mpr ⟨Finset.mem_range.mpr (g.root_lt hj), g.root_root j⟩
    rw [← heq, representatives, Finset.mem_filter, hm.root, root_root, if_pos rfl] at hmem
    exact hm.ne hmem.2

theorem turn_progress {s' : RepairState} (ht : s.turn id = some s') : Progress s.graph s'.graph ∧
      (s'.graph.representatives.card < s.graph.representatives.card ∨
        s'.graph.representatives.card = s.graph.representatives.card ∧
          s'.rest.length < s.rest.length) := by
  obtain ⟨p, rest, hrest, -, hcases⟩ := RepairState.turn_cases ht
  have hlen : rest.length < s.rest.length := by
    rw [hrest]
    exact Nat.lt_succ_self _
  rcases hcases with ⟨-, -, rfl⟩ | ⟨other, r, g1, -, hm, rfl, -⟩
  · exact ⟨Progress.refl _, .inr ⟨rfl, hlen⟩⟩
  · obtain ⟨-, hlt, -, ⟨-, rfl⟩ | hmgd⟩ := merge_cases hm
    · exact ⟨Progress.refl _, .inr ⟨rfl, hlen⟩⟩
    · exact ⟨.inl (hmgd.card_lt hlt), .inl (hmgd.card_lt hlt)⟩

theorem repairStart_progress (hs : repairStart h g id = some s) : Progress g s.graph := by
  obtain ⟨c, g1, c1, g2, -, hun, -, hrehash, rfl⟩ := repairStart_cases hs
  have h1 : g1.unionFind = g.unionFind ∧ g1.worklist = g.worklist := by
    rcases hun with ⟨-, hun⟩ | ⟨-, rfl⟩
    · obtain ⟨_, _, -, -, ⟨-, rfl⟩ | ⟨_, _, _, hp, -, -, -, rfl⟩⟩ := unparent_cases hun
      · exact ⟨rfl, rfl⟩
      · obtain ⟨cs, ev, rfl⟩ := hp.frame
        exact ⟨rfl, rfl⟩
    · exact ⟨rfl, rfl⟩
  have h2 : g2.unionFind = g1.unionFind ∧ g2.worklist = g1.worklist := by
    refine foldlM_invariant (fun s => s.unionFind = g1.unionFind ∧ s.worklist = g1.worklist) ?_
      hrehash ⟨rfl, rfl⟩
    intro s p s' _ hs heq
    obtain ⟨-, -, rfl⟩ := rehash_cases hs
    exact heq
  exact Progress.of_eq (h2.1.trans h1.1) (h2.2.trans h1.2)

theorem repair_progress {fuel : Nat} (hr : g.repair h fuel id = some g') : Progress g g' := by
  rw [repair_eq] at hr
  obtain ⟨s, hs, hr⟩ := bind_eq_some_iff.mp hr
  obtain ⟨⟨g1, ps⟩, hloop, hfin⟩ := bind_eq_some_iff.mp hr
  have hprogress := repairParents_invariant (fun t => Progress s.graph t.graph)
    (fun _ _ hp ht => hp.trans (turn_progress ht).1) hloop (Progress.refl _)
  obtain ⟨c, -, -, rfl⟩ := repairFinish_cases hfin
  exact (repairStart_progress hs).trans (hprogress.trans (Progress.of_eq rfl rfl))

end Progress

/-! ### One repair -/

def RepairState.Turns (id : Nat) : RepairState → RepairState → Prop :=
  Relation.ReflTransGen fun s t => s.turn id = some t

/-- Within the repair of the class `id` this class is never absorbed and gets no new parent. -/
def RepairSafe (h : HashOrder) (g : EGraph) (id : Nat) : Prop :=
  ∀ s t, repairStart h g id = some s → s.Turns id t → ¬ t.Invalidates id

section Repair

variable {g g' : EGraph} {h : HashOrder} {id : Nat}

theorem RepairState.Turns.refl (s : RepairState) : s.Turns id s := Relation.ReflTransGen.refl

theorem RepairState.Turns.tail {u : RepairState} (hst : s.Turns id t)
    (hu : t.turn id = some u) : s.Turns id u :=
  Relation.ReflTransGen.tail hst hu

theorem RepairState.loopStep_iff :
    LoopStep RepairState.out (fun _ => RepairState.turn id) s t ↔ s.turn id = some t := by
  constructor
  · rintro ⟨-, _, ht⟩
    exact ht
  · intro ht
    obtain ⟨p, rest, hrest, -⟩ := RepairState.turn_cases ht
    refine ⟨?_, 0, ht⟩
    rw [RepairState.out, hrest]

theorem RepairOk.turns (hs : RepairOk id s) (hst : s.Turns id t) : RepairOk id t := by
  induction hst with
  | refl => exact hs
  | tail _ ht ih => exact (ih.turn ht).1

def repairMeasure (s : RepairState) : ℕ ×ₗ ℕ :=
  toLex (s.graph.representatives.card, s.rest.length)

theorem RepairOk.repairParents_exists_iff (hs : RepairOk id s) :
    (∃ fuel r, EGraph.repairParents id fuel s.graph s.newParents s.rest = some r) ↔
      ∀ t, s.Turns id t → ¬ t.Invalidates id := by
  have hrel : LoopStep RepairState.out (fun _ => RepairState.turn id) =
      fun s t : RepairState => s.turn id = some t :=
    funext fun s => funext fun t => propext RepairState.loopStep_iff
  have hinv : ∀ s t : RepairState, RepairOk id s →
      LoopStep RepairState.out (fun _ => RepairState.turn id) s t →
      RepairOk id t ∧ repairMeasure t < repairMeasure s := by
    intro s t hs hstep
    have ht := RepairState.loopStep_iff.mp hstep
    exact ⟨(hs.turn ht).1, Prod.Lex.toLex_lt_toLex.mpr (turn_progress ht).2⟩
  refine ((RepairState.isLoop id).exists_iff repairMeasure (RepairOk id) hinv hs).trans ?_
  rw [hrel]
  constructor
  · intro hall t hst hbad
    have hout : t.out = none := by
      obtain ⟨p, rest, other, hrest, -⟩ := hbad
      rw [RepairState.out, hrest]
    obtain ⟨-, u, hu⟩ := hall t hst hout
    exact ((hs.turns hst).turn_exists_iff hout).mp ⟨u, hu⟩ hbad
  · intro hall t hst hout
    obtain ⟨u, hu⟩ := ((hs.turns hst).turn_exists_iff hout).mpr (hall t hst)
    exact ⟨0, u, hu⟩

theorem WellFormed.repair_exists_iff {c : EClass} (hg : g.WellFormed)
    (hc : g.classes.lookup id = some c) :
    (∃ fuel g', g.repair h fuel id = some g') ↔ RepairSafe h g id := by
  obtain ⟨s, hs⟩ := hg.repairStart_exists (h := h) hc
  obtain ⟨hok, hgrown⟩ := RepairOk.start hg hs
  have hlt : id < s.graph.size := lt_of_lt_of_le (hg.lt hc) hgrown.size
  have hsafe : RepairSafe h g id ↔ ∀ t, s.Turns id t → ¬ t.Invalidates id := by
    constructor
    · exact fun hsafe t => hsafe s t hs
    · intro hall s' t hs' hst
      cases hs.symm.trans hs'
      exact hall t hst
  rw [hsafe, ← hok.repairParents_exists_iff]
  constructor
  · rintro ⟨fuel, g', hr⟩
    rw [repair_eq, hs, bind_some] at hr
    obtain ⟨r, hr, -⟩ := bind_eq_some_iff.mp hr
    exact ⟨fuel, r, hr⟩
  · rintro ⟨fuel, ⟨g1, ps⟩, hr⟩
    obtain ⟨hok1, hgrown1⟩ := hok.repairParents hr
    obtain ⟨g', hg'⟩ := hok1.finish_exists (lt_of_lt_of_le hlt hgrown1.size)
    refine ⟨fuel, g', ?_⟩
    rw [repair_eq, hs, bind_some, hr, bind_some, hg']

end Repair

/-! ### The whole rebuild -/

def Repairs (h : HashOrder) (g g' : EGraph) (e : Nat) : Prop :=
  ∃ s done rest fuel stack,
    Relation.ReflTransGen (LoopStep rebuildOut (rebuildBody h)) (g, []) s ∧
    s.1.worklist = done ++ e :: rest ∧
    done.foldlM (rebuildStep h fuel) ({ s.1 with worklist := [] }, s.2) = some (g', stack)

section Rebuild

variable {g g' : EGraph} {h : HashOrder}

theorem foldlM_progress {done : List Nat} {fuel : Nat} {s s' : EGraph × List Nat}
    (hr : done.foldlM (rebuildStep h fuel) s = some s') : Progress s.1 s'.1 := by
  refine foldlM_invariant (fun t => Progress s.1 t.1) ?_ hr (Progress.refl _)
  rintro t e t' - ht hprogress
  obtain ⟨-, g1, c, hg1, -, rfl⟩ := rebuildStep_cases ht
  exact hprogress.trans ((repair_progress hg1).trans (Progress.of_eq rfl rfl))

def rebuildMeasure (s : EGraph × List Nat) : ℕ ×ₗ ℕ :=
  toLex (s.1.representatives.card, s.1.worklist.length)

theorem Rebuilding.step {s t : EGraph × List Nat} (hs : Rebuilding s)
    (hstep : LoopStep rebuildOut (rebuildBody h) s t) :
    Rebuilding t ∧ rebuildMeasure t < rebuildMeasure s := by
  obtain ⟨hout, fuel, ht⟩ := hstep
  refine ⟨(hs.clearWorklist.foldlM ht).1, Prod.Lex.toLex_lt_toLex.mpr ?_⟩
  rcases foldlM_progress ht with hlt | ⟨heq, hw⟩
  · exact .inl hlt
  · rw [hw]
    exact .inr ⟨heq, length_pos_of_ne_nil (rebuildOut_eq_none.mp hout)⟩

theorem Rebuilding.rebuildStep_exists_iff {s : EGraph × List Nat} (hs : Rebuilding s) {e : Nat}
    (he : e < s.1.size) :
    (∃ fuel s', EGraph.rebuildStep h fuel s e = some s') ↔ RepairSafe h s.1 (s.1.root e) := by
  obtain ⟨c, hc⟩ := hs.graph.exists_class he
  rw [← hs.graph.repair_exists_iff hc]
  constructor
  · rintro ⟨fuel, s', ht⟩
    obtain ⟨-, g1, -, hg1, -, -⟩ := rebuildStep_cases ht
    exact ⟨fuel, g1, hg1⟩
  · rintro ⟨fuel, g1, hg1⟩
    obtain ⟨hw, hgrown, hroot⟩ := hs.graph.repair hg1
    have hlt : s.1.root e < g1.size := lt_of_lt_of_le (s.1.root_lt he) hgrown.size
    obtain ⟨c1, hc1⟩ := hw.exists_class hlt
    rw [hroot] at hc1
    have hfind : s.1.find e = some (s.1.root e) := find_eq_some.mpr ⟨he, rfl⟩
    refine ⟨fuel, (g1.tick,
      (h.order g1.trace.clock (c1.parents.pairs.map Prod.snd)).reverse ++ s.2), ?_⟩
    simp only [EGraph.rebuildStep, hfind, hg1, hc1, some_bind]

theorem WellFormed.rebuildLoop_exists_iff (hg : g.WellFormed) :
    (∃ fuel s, EGraph.rebuildLoop h fuel (g, []) = some s) ↔
      ∀ g' e, Repairs h g g' e → RepairSafe h g' (g'.root e) := by
  have hreached : ∀ s, Relation.ReflTransGen (LoopStep rebuildOut (rebuildBody h)) (g, []) s →
      Rebuilding s := by
    intro s hs
    induction hs with
    | refl => exact hg.rebuilding
    | tail _ hstep ih => exact (ih.step hstep).1
  -- the repair of an id in the work list, after the repairs of those before it
  have hcall : ∀ s done e rest fuel g' stack,
      Relation.ReflTransGen (LoopStep rebuildOut (rebuildBody h)) (g, []) s →
      s.1.worklist = done ++ e :: rest →
      done.foldlM (EGraph.rebuildStep h fuel) ({ s.1 with worklist := [] }, s.2) =
        some (g', stack) →
      ((∃ fuel' s', EGraph.rebuildStep h fuel' (g', stack) e = some s') ↔
        RepairSafe h g' (g'.root e)) := by
    intro s done e rest fuel g' stack hs hw hdone
    obtain ⟨hok, hgrown⟩ := (hreached s hs).clearWorklist.foldlM hdone
    refine hok.rebuildStep_exists_iff (lt_of_lt_of_le ?_ hgrown.size)
    refine (hreached s hs).graph.worklist e ?_
    rw [hw]
    exact mem_append_right done mem_cons_self
  refine ((isLoop_rebuildLoop h).exists_iff rebuildMeasure Rebuilding
    (fun _ _ hs hstep => hs.step hstep) hg.rebuilding).trans ?_
  constructor
  · rintro hall g' e ⟨s, done, rest, fuel, stack, hs, hw, hdone⟩
    have hout : rebuildOut s = none := by
      rw [rebuildOut_eq_none, hw]
      exact append_ne_nil_of_right_ne_nil done (cons_ne_nil e rest)
    rw [← hcall s done e rest fuel g' stack hs hw hdone]
    exact (foldlM_fuel_exists_iff fun _ _ => rebuildStep_mono).mp (hall s hs hout) done e rest
      fuel (g', stack) hw hdone
  · intro hall s hs hout
    refine (foldlM_fuel_exists_iff fun _ _ => rebuildStep_mono).mpr ?_
    rintro done e rest fuel ⟨g', stack⟩ hw hdone
    exact (hcall s done e rest fuel g' stack hs hw hdone).mpr
      (hall g' e ⟨s, done, rest, fuel, stack, hs, hw, hdone⟩)

def ClearState.unvisited (s : ClearState) : Finset Nat :=
  (Finset.range s.graph.size).filter fun i => i ∉ s.visited

def clearMeasure (s : ClearState) : ℕ ×ₗ ℕ := toLex (s.unvisited.card, s.stack.length)

theorem Rebuilding.clearStep {s t : ClearState} (hs : Rebuilding (s.graph, s.stack))
    (ht : s.turn h = some t) : Rebuilding (t.graph, t.stack) ∧ clearMeasure t < clearMeasure s := by
  obtain ⟨id, stack, hstk, ⟨-, rfl⟩ | ⟨c, hid, hc, rfl⟩⟩ := ClearState.turn_cases ht
  · refine ⟨⟨hs.graph, fun i hi => hs.stack i ?_⟩, Prod.Lex.toLex_lt_toLex.mpr (.inr ⟨rfl, ?_⟩)⟩
    · change i ∈ s.stack
      rw [hstk]
      exact mem_cons_of_mem id hi
    · rw [hstk]
      exact Nat.lt_succ_self _
  · obtain ⟨hlt, hclass⟩ := get_eq_some.mp hc
    have hcleared := Cleared.clearCache hc
    refine ⟨⟨(hs.graph.cleared hcleared).1, fun i hi => ?_⟩,
      Prod.Lex.toLex_lt_toLex.mpr (.inl ?_)⟩
    · change i < (s.graph.clearCache id c).tick.size
      rw [hcleared.size]
      rcases mem_append.mp hi with hi | hi
      · rw [mem_reverse, mem_filter, h.mem_order] at hi
        obtain ⟨p, hp, rfl⟩ := List.mem_map.mp hi.1
        exact ((hs.graph.classes _ c hclass).parents p.1 p.2 (Map.mem_pairs.mp hp)).1.lt
      · refine hs.stack i ?_
        change i ∈ s.stack
        rw [hstk]
        exact mem_cons_of_mem id hi
    · change Finset.card (ClearState.unvisited _) < s.unvisited.card
      refine Finset.card_lt_card (Finset.ssubset_iff_subset_ne.mpr ⟨fun k hk => ?_, fun heq => ?_⟩)
      · rw [ClearState.unvisited, Finset.mem_filter, mem_cons, not_or] at hk
        rw [ClearState.unvisited, Finset.mem_filter]
        exact ⟨hk.1, hk.2.2⟩
      · have hmem : id ∈ s.unvisited :=
          Finset.mem_filter.mpr ⟨Finset.mem_range.mpr hlt, hid⟩
        rw [← heq, ClearState.unvisited, Finset.mem_filter] at hmem
        exact hmem.2 mem_cons_self

theorem Rebuilding.clearCaches_exists {s : EGraph × List Nat} (hs : Rebuilding s) :
    ∃ fuel g', clearCaches h fuel s.1 [] s.2 = some g' := by
  refine ((ClearState.isLoop h).exists_iff (s := ⟨s.1, [], s.2⟩) clearMeasure
    (fun t => Rebuilding (t.graph, t.stack)) (fun _ _ ht hstep => ht.clearStep hstep.2.choose_spec)
    hs).mpr fun t hst hout => ?_
  have hok : Rebuilding (t.graph, t.stack) := by
    clear hout
    induction hst with
    | refl => exact hs
    | tail _ hstep ih => exact (ih.clearStep hstep.2.choose_spec).1
  obtain ⟨g1, visited, stack⟩ := t
  cases stack with
  | nil => cases hout
  | cons id stack =>
    obtain ⟨c, hc⟩ := hok.graph.exists_get (hok.stack id mem_cons_self)
    refine ⟨0, ?_⟩
    unfold ClearState.turn
    dsimp only
    split_ifs
    · exact ⟨_, rfl⟩
    · rw [hc]
      exact ⟨_, rfl⟩

theorem WellFormed.rebuild_exists_iff (hg : g.WellFormed) :
    (∃ fuel g', g.rebuild h fuel = some g') ↔
      ∀ g' e, Repairs h g g' e → RepairSafe h g' (g'.root e) := by
  rw [← hg.rebuildLoop_exists_iff]
  constructor
  · rintro ⟨fuel, g', hr⟩
    obtain ⟨s, hs, -⟩ := bind_eq_some_iff.mp hr
    exact ⟨fuel, s, hs⟩
  · rintro ⟨fuel, s, hs⟩
    obtain ⟨fuel', g', hclear⟩ :=
      (hg.rebuilding.rebuildLoop hs).1.1.clearCaches_exists (h := h)
    refine ⟨max fuel fuel', g', ?_⟩
    rw [EGraph.rebuild, (isLoop_rebuildLoop h).mono (Nat.le_max_left fuel fuel') hs, some_bind]
    exact (ClearState.isLoop h).mono (Nat.le_max_right fuel fuel') (s := ⟨s.1, [], s.2⟩)
      hclear

end Rebuild

/-- `x & x` and then `x | x` are merged with `x`, in the presence of `(x | x) & (x | x)`. -/
def idempotentNodes (h : HashOrder) : Option EGraphSession :=
  let x := Operation.constant (.int 8) (.numbered 0)
  let or := Operation.mk (.binary .or (.int 8)) [x, x]
  EGraphSession.run h (fun d ops => some (.mk d ops)) {}
    [.add (.mk (.binary .and (.int 8)) [x, x]), .merge 0 1, .add or,
      .add (.mk (.binary .and (.int 8)) [or, or]), .merge 0 2]

def reversedOrder : HashOrder where
  order _ l := l.reverse
  order_perm _ l := reverse_perm l

end EGraph

end Caffeine
