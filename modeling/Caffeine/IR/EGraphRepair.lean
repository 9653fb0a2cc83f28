import Caffeine.IR.EGraphCongruence

/-!
# Repair restores congruence

`repair` rehashes the parents of a class, merges those that have become congruent and stores the
result. This takes the class off the lists of `Congruent`, so that after `rebuild` congruent nodes
are in one class.
-/

namespace Caffeine

open List Option

variable {ps entries : Map ENode Nat} {e i j id fuel : Nat} {done : List (ENode × Nat)}

namespace EGraph

variable {h : HashOrder}

section Repair

variable {g g' : EGraph} {n m : ENode} {wc wh wp w : List Nat}

theorem Congruent.rehash (hg : Congruent g wc wh wp) {p : ENode × Nat} (hp : Stands g p.1 p.2)
    (h : g.rehash p = some g') :
    Congruent g' wc wh wp ∧ (∃ hc, g' = { g with hashcons := hc }) ∧
      (∀ m, g.canon m = m → m ∈ g.hashcons → m ∈ g'.hashcons) ∧ g.canon p.1 ∈ g'.hashcons := by
  obtain ⟨-, -, rfl⟩ := rehash_cases h
  have hmem : ∀ m, g.canon m = m → m ∈ g.hashcons →
      m ∈ (g.hashcons.erase p.1).insert (g.canon p.1) (g.root p.2) := by
    intro m hm hin
    rw [AList.mem_insert, AList.mem_erase]
    by_cases hmp : m = p.1
    · exact .inl (by rw [← hmp, hm])
    · exact .inr ⟨hmp, hin⟩
  refine ⟨⟨hg.ids, hg.keys, ?_, hg.covered, hg.congr, ?_, ?_⟩, ⟨_, rfl⟩, hmem,
    AList.mem_insert _ |>.mpr (.inl rfl)⟩
  · intro k c m j hk hm
    obtain ⟨hop, hst, hcan⟩ := hg.parents k c m j hk hm
    exact ⟨hop, hst, fun hself => (hcan hself).imp_left (hmem m hself)⟩
  · intro m j hm
    rw [Map.lookup_insert, Map.lookup_erase] at hm
    split_ifs at hm with hmp hmq
    · cases hm
      subst hmp
      exact hp.of_eq (g.canon_canon p.1).symm (g.root_root p.2).symm
    · exact hg.hashcons m j hm
  · intro r hr
    exact (hg.found r hr).imp_left (hmem _ (g.canon_canon r.node))

theorem Congruent.foldlM_rehash (hg : Congruent g wc wh wp) {ps : List (ENode × Nat)}
    (hps : ∀ p ∈ ps, Stands g p.1 p.2) (h : ps.foldlM EGraph.rehash g = some g') :
    Congruent g' wc wh wp ∧ (∃ hc, g' = { g with hashcons := hc }) ∧
      (∀ m, g.canon m = m → m ∈ g.hashcons → m ∈ g'.hashcons) ∧
      ∀ p ∈ ps, g.canon p.1 ∈ g'.hashcons := by
  induction ps generalizing g with
  | nil =>
    cases h
    exact ⟨hg, ⟨_, rfl⟩, fun _ _ h => h, fun p hp => nomatch hp⟩
  | cons p ps ih =>
    obtain ⟨g1, h1, hrest⟩ := foldlM_cons_eq_some.mp h
    obtain ⟨hg1, ⟨hc1, rfl⟩, hkeep1, hp1⟩ := hg.rehash (hps p mem_cons_self) h1
    obtain ⟨hg', ⟨hc', rfl⟩, hkeep', hps'⟩ :=
      ih hg1 (fun q hq => hps q (mem_cons_of_mem _ hq)) hrest
    refine ⟨hg', ⟨hc', rfl⟩, fun m hm hin => hkeep' m hm (hkeep1 m hm hin), ?_⟩
    intro q hq
    rcases mem_cons.mp hq with rfl | hq
    · exact hkeep' _ (g.canon_canon q.1) hp1
    · exact hps' q hq

theorem Congruent.rehashed {c : EClass} (hg : Congruent g wc (e :: w) (e :: w))
    (hc : g.classes.lookup (g.root e) = some c)
    (hps : ∀ p ∈ c.parents.pairs, g.canon p.1 ∈ g.hashcons) : Congruent g wc w w := by
  have hspl : ∀ n, Waiting g (e :: w) n →
      Waiting g w n ∨ ∃ o ∈ n.operands, g.root o = g.root e := by
    rintro n ⟨o, ho, i, hi, hroot⟩
    rcases mem_cons.mp hi with rfl | hi
    · exact .inr ⟨o, ho, hroot.symm⟩
    · exact .inl ⟨o, ho, i, hi, hroot⟩
  have hfound : ∀ r ∈ g.trace.adds, (∃ o ∈ r.node.operands, g.root o = g.root e) →
      g.canon r.node ∈ g.hashcons := by
    rintro r hr ⟨o, ho, hroot⟩
    obtain ⟨d, n, j, hd, hn, hcan, -⟩ := hg.covered r hr o ho
    have hd' : d = c := Map.lookup_unique hd (hroot ▸ hc)
    exact hcan ▸ hps (n, j) (Map.mem_pairs.mpr (hd' ▸ hn))
  refine ⟨hg.ids, hg.keys, ?_, hg.covered, hg.congr, hg.hashcons, ?_⟩
  · intro k d n j hk hn
    obtain ⟨hop, hst, hcan⟩ := hg.parents k d n j hk hn
    refine ⟨hop, hst, fun hself => ?_⟩
    rcases hcan hself with hin | hw
    · exact .inl hin
    · rcases hspl n hw with hw | ⟨o, ho, hroot⟩
      · exact .inr hw
      · obtain ⟨r, hr, hrn, -⟩ := hst
        obtain ⟨o', ho', heq⟩ := exists_operand_of_canon_eq hrn.symm ho
        have hin := hfound r hr ⟨o', ho', heq.trans hroot⟩
        rw [hrn, hself] at hin
        exact .inl hin
  · intro r hr
    rcases hg.found r hr with hin | hw
    · exact .inl hin
    · exact (hspl _ hw).symm.imp_left (hfound r hr)

/-- The second loop of `repair` on the class of `e`: its parents before the loop, those processed,
the new parents and the classes that wait. -/
structure RepairLoop (g : EGraph) (e : Nat) (w : List Nat) (entries : Map ENode Nat)
    (done : List (ENode × Nat)) (ps : Map ENode Nat) : Prop where
  congruent : Congruent g (e :: (w ++ g.worklist)) (w ++ g.worklist) (w ++ g.worklist)
  own : ∃ c, g.classes.lookup (g.root e) = some c ∧ c.parents = entries
  queued : ∀ p ∈ entries.pairs, g.canon p.1 ∈ g.hashcons ∨ Waiting g g.worklist p.1
  collected : ∀ p ∈ done, ∃ n j, ps.lookup n = some j ∧ g.canon n = g.canon p.1 ∧
    g.root j = g.root p.2
  origin : ∀ n j, ps.lookup n = some j → ∃ p ∈ entries.pairs, g.canon p.1 = g.canon n ∧
    g.root p.2 = g.root j
  canonical : ∀ n j, ps.lookup n = some j → ∀ o ∈ n.operands,
    g.root o = o ∨ Pending g g.worklist (g.root o)
  hashed : ∀ n j, ps.lookup n = some j → n ∈ g.hashcons ∨ Waiting g g.worklist n

theorem RepairLoop.insert {r : Nat} {p : ENode × Nat} (hl : RepairLoop g e w entries done ps)
    (hp : p ∈ entries.pairs) {key : ENode} (hkey : g.canon key = g.canon p.1)
    (hkeyop : ∀ o ∈ key.operands, g.root o = o ∨ Pending g g.worklist (g.root o))
    (hkeyhash : key ∈ g.hashcons ∨ Waiting g g.worklist key) (hr : g.root r = g.root p.2)
    (hother : ∀ x, ps.lookup key = some x → g.root x = g.root r) :
    RepairLoop g e w entries (p :: done) (ps.insert key r) where
  congruent := hl.congruent
  own := hl.own
  queued := hl.queued
  collected q hq := by
    rcases mem_cons.mp hq with rfl | hq
    · exact ⟨key, r, by rw [Map.lookup_insert, if_pos rfl], hkey, hr⟩
    · obtain ⟨n, j, hn, hcan, hj⟩ := hl.collected q hq
      by_cases hnk : n = key
      · subst hnk
        exact ⟨n, r, by rw [Map.lookup_insert, if_pos rfl], hcan, (hother j hn).symm.trans hj⟩
      · exact ⟨n, j, by rw [Map.lookup_insert, if_neg hnk, hn], hcan, hj⟩
  origin n j hn := by
    rw [Map.lookup_insert] at hn
    split_ifs at hn with hnk
    · cases hn
      exact ⟨p, hp, hnk ▸ hkey.symm, hr.symm⟩
    · exact hl.origin n j hn
  canonical n j hn := by
    rw [Map.lookup_insert] at hn
    split_ifs at hn with hnk
    · exact hnk ▸ hkeyop
    · exact hl.canonical n j hn
  hashed n j hn := by
    rw [Map.lookup_insert] at hn
    split_ifs at hn with hnk
    · exact hnk ▸ hkeyhash
    · exact hl.hashed n j hn

theorem Merged.root_or_pending (hm : Merged g i j g') {o : Nat} (ho : g.root o = o) :
    g'.root o = o ∨ Pending g' g'.worklist (g'.root o) := by
  rw [hm.root, hm.worklist]
  split_ifs with hoj
  · refine .inr ⟨g.root i, by simp, ?_⟩
    exact (hm.root_eq_iff _).mpr (.inl (g.root_root i))
  · exact .inl ho

theorem RepairLoop.merged (hl : RepairLoop g e w entries done ps) (hm : Merged g i j g')
    (he : Extends g g') (hi : g.root i = g.root e → g.Covers (g.root e) (g.root j))
    (hj : g.root j ≠ g.root e) : RepairLoop g' e w entries done ps := by
  have hsub : g.worklist ⊆ g'.worklist := by
    rw [hm.worklist]
    exact subset_append_left _ _
  have hmem : g.root i ∈ g'.worklist := by
    rw [hm.worklist]
    simp
  have hsub' : w ++ g.worklist ⊆ w ++ g'.worklist :=
    append_subset.mpr ⟨subset_append_left _ _, fun x hx => mem_append_right _ (hsub hx)⟩
  have hmem' : g.root i ∈ w ++ g'.worklist := mem_append_right _ hmem
  have hroot : g'.root e = g.root e := by rw [hm.root, if_neg (Ne.symm hj)]
  refine ⟨?_, ?_, ?_, ?_, ?_, ?_, ?_⟩
  · exact hl.congruent.merged hm he (cons_subset_cons _ hsub')
      (mem_cons_of_mem _ hmem') hsub' hmem' hsub'
  · obtain ⟨c, hc, hpar⟩ := hl.own
    obtain ⟨c1, c2, cm, hc1, hc2, hcm, hlook⟩ := hm.classes
    rw [hroot, hlook, if_neg (Ne.symm hj)]
    split_ifs with hie
    · obtain ⟨d1, d2, hd1, hd2, hsub⟩ := hi hie.symm
      cases hd1.symm.trans (hie ▸ hc1)
      cases hc2.symm.trans hd2
      cases hd1.symm.trans hc
      exact ⟨cm, rfl, (merge_parents hcm).trans ((Map.union_eq_left hsub).trans hpar)⟩
    · exact ⟨c, hc, hpar⟩
  · intro p hp
    by_cases ht : Touched g i j p.1
    · exact .inr (hm.waiting hmem ht)
    · rw [hm.canon_of_not_touched ht, hm.hashcons]
      exact (hl.queued p hp).imp_right (fun hw => (hw.of_extends he).mono hsub)
  · intro p hp
    obtain ⟨n, x, hn, hcan, hx⟩ := hl.collected p hp
    exact ⟨n, x, hn, canon_eq_of_extends he hcan, he.root _ _ hx⟩
  · intro n x hn
    obtain ⟨p, hp, hcan, hx⟩ := hl.origin n x hn
    exact ⟨p, hp, canon_eq_of_extends he hcan, he.root _ _ hx⟩
  · intro n x hn o ho
    rcases hl.canonical n x hn o ho with hroot | ⟨k, hk, hkroot⟩
    · exact hm.root_or_pending hroot
    · exact .inr ⟨k, hsub hk, he.root _ _ (by rw [hkroot, root_root]) |>.trans
        (he.root _ _ (g.root_root o))⟩
  · intro n x hn
    rw [hm.hashcons]
    exact (hl.hashed n x hn).imp_right (fun hw => (hw.of_extends he).mono hsub)

structure RepairLoop.Splits (s : RepairState) (e id : Nat) (w : List Nat)
    (entries : Map ENode Nat) (done : List (ENode × Nat)) : Prop where
  root : s.graph.root e = id
  loop : RepairLoop s.graph e w entries done s.newParents
  subset : s.rest ⊆ entries.pairs
  all : ∀ p ∈ entries.pairs, p ∈ done ∨ p ∈ s.rest

theorem RepairLoop.Splits.turn {s s' : RepairState} (hs : RepairLoop.Splits s e id w entries done)
    (ht : s.turn id = some s') : ∃ done', RepairLoop.Splits s' e id w entries done' := by
  obtain ⟨g, ps, rest⟩ := s
  obtain ⟨hid, hl, hrest, hall⟩ := hs
  obtain ⟨p, rest, rfl, -, hcases⟩ := RepairState.turn_cases ht
  have hp : p ∈ entries.pairs := hrest mem_cons_self
  have hrest' : rest ⊆ entries.pairs := fun q hq => hrest (mem_cons_of_mem _ hq)
  have hall' : ∀ q ∈ entries.pairs, q ∈ p :: done ∨ q ∈ rest := by
    intro q hq
    rcases hall q hq with hq | hq
    · exact .inl (mem_cons_of_mem _ hq)
    · rcases mem_cons.mp hq with rfl | hq
      · exact .inl mem_cons_self
      · exact .inr hq
  have hself : ∀ o ∈ (g.canon p.1).operands, g.root o = o :=
    canon_eq_self_iff.mp (g.canon_canon p.1)
  have hhash : g.canon p.1 ∈ g.hashcons ∨ Waiting g g.worklist (g.canon p.1) :=
    (hl.queued p hp).imp_right (Waiting.of_canon_eq (g.canon_canon p.1).symm)
  refine ⟨p :: done, ?_⟩
  obtain ⟨hnone, -, rfl⟩ | ⟨other, r, g1, hlook, hm, rfl, hside⟩ := hcases
  · refine ⟨hid, hl.insert hp (g.canon_canon p.1) (fun o ho => .inl (hself o ho)) hhash
      (g.root_root p.2) ?_, hrest', hall'⟩
    intro x hx
    rw [hnone] at hx
    cases hx
  · have hext : Extends g g1 := Extends.merge hm
    obtain ⟨-, -, rfl, ⟨heq, rfl⟩ | hmd⟩ := merge_cases hm
    · refine ⟨hid, hl.insert hp (canon_canon _ p.1) (fun o ho => .inl (hself o ho)) hhash
        (root_root _ p.2) ?_, hrest', hall'⟩
      intro x hx
      rw [Map.lookup_unique hx hlook, root_root, heq]
    · obtain ⟨hother, hown⟩ : g.root other ≠ g.root e ∧
          (g.root p.2 = g.root e → g.Covers (g.root e) (g.root other)) :=
        hid ▸ hside.resolve_left hmd.ne
      have hl1 := hl.merged hmd hext hown hother
      have hroot : g1.root e = g.root e := by rw [hmd.root, if_neg (Ne.symm hother)]
      have hsub : g.worklist ⊆ g1.worklist := by
        rw [hmd.worklist]
        exact subset_append_left _ _
      refine ⟨hroot.trans hid, hl1.insert hp (canon_eq_of_extends hext (g.canon_canon p.1))
        (fun o ho => hmd.root_or_pending (hself o ho))
        (hhash.imp (fun h => by rwa [hmd.hashcons]) (fun hw => (hw.of_extends hext).mono hsub))
        (hext.root _ _ (g.root_root p.2)) (r := g.root p.2) ?_, hrest', hall'⟩
      intro x hx
      rw [Map.lookup_unique hx hlook, hext.root _ _ (g.root_root p.2),
        (hmd.root_eq_iff other).mpr (.inr rfl), (hmd.root_eq_iff p.2).mpr (.inl rfl)]

theorem RepairLoop.repairParents {ps' : Map ENode Nat} {rest : List (ENode × Nat)}
    (hl : RepairLoop g e w entries [] ps) (hrest : rest ⊆ entries.pairs)
    (hall : ∀ p ∈ entries.pairs, p ∈ rest)
    (hr : repairParents (g.root e) fuel g ps rest = some (g', ps')) :
    g'.root e = g.root e ∧ RepairLoop g' e w entries entries.pairs ps' := by
  have hstart : RepairLoop.Splits ⟨g, ps, rest⟩ e (g.root e) w entries [] :=
    ⟨rfl, hl, hrest, fun p hp => .inr (hall p hp)⟩
  obtain ⟨done, hend⟩ := repairParents_invariant
    (fun s => ∃ done, RepairLoop.Splits s e (g.root e) w entries done)
    (fun _ _ ⟨_, hs⟩ ht => hs.turn ht) hr ⟨[], hstart⟩
  refine ⟨hend.root, { hend.loop with collected := fun p hp => hend.loop.collected p ?_ }⟩
  exact (hend.all p hp).resolve_right not_mem_nil

theorem RepairLoop.waiting_of_ne {x y : Nat} (hl : RepairLoop g e w entries done ps)
    (hn : ps.lookup n = some x) (hm : ps.lookup m = some y) (hcan : g.canon n = g.canon m)
    (hne : n ≠ m) : Waiting g g.worklist n := by
  by_contra hw
  have hn' : g.canon n = n := canon_eq_self_iff.mpr (fun o ho =>
    (hl.canonical n x hn o ho).resolve_right (fun hp => hw ⟨o, ho, hp⟩))
  have hm' : g.canon m = m := canon_eq_self_iff.mpr (fun o ho =>
    (hl.canonical m y hm o ho).resolve_right
      (fun hp => hw (Waiting.of_canon_eq hcan.symm ⟨o, ho, hp⟩)))
  exact hne (hn'.symm.trans (hcan.trans hm'))

theorem RepairLoop.finish (hl : RepairLoop g e w entries entries.pairs ps) {c : EClass}
    (hps : c.parents = ps) : Congruent (g.setClass (g.root e) c) (w ++ g.worklist) (w ++ g.worklist)
      (w ++ g.worklist) := by
  have hg := hl.congruent
  obtain ⟨c0, hc0, hents⟩ := hl.own
  have hlook := lookup_setClass g (g.root e) c
  have hwork : g.worklist ⊆ w ++ g.worklist := subset_append_right _ _
  have hent : ∀ r ∈ g.trace.adds, ∀ o ∈ r.node.operands, g.root o = g.root e →
      ∃ n j, ps.lookup n = some j ∧ g.canon n = g.canon r.node ∧ g.root j = g.root r.id := by
    intro r hr o ho hoe
    obtain ⟨d, n, j, hd, hn, hcan, hj⟩ := hg.covered r hr o ho
    have hd' : d = c0 := Map.lookup_unique hd (hoe ▸ hc0)
    rw [hd', hents] at hn
    obtain ⟨m, x, hm, hcan', hx⟩ := hl.collected (n, j) (Map.mem_pairs.mpr hn)
    exact ⟨m, x, hm, hcan'.trans hcan, hx.trans hj⟩
  refine ⟨hg.ids, ?_, ?_, ?_, ?_, hg.hashcons, hg.found⟩
  · intro k hk
    rcases (AList.mem_insert _).mp hk with rfl | hk
    · exact hg.keys _ (Map.mem_of_lookup hc0)
    · exact hg.keys k hk
  · intro k d n j hk hn
    rw [hlook] at hk
    split_ifs at hk with hke
    · cases hk
      rw [hps] at hn
      obtain ⟨p, hp, hcan, hj⟩ := hl.origin n j hn
      have hp' : c0.parents.lookup p.1 = some p.2 := hents ▸ Map.mem_pairs.mp hp
      obtain ⟨⟨o, ho, hoe⟩, hst, -⟩ := hg.parents _ c0 p.1 p.2 hc0 hp'
      obtain ⟨o', ho', heq⟩ := exists_operand_of_canon_eq hcan ho
      refine ⟨⟨o', ho', ?_⟩, hst.of_eq hcan hj, fun _ => ?_⟩
      · rw [hke]
        exact heq.trans hoe
      · exact (hl.hashed n j hn).imp_right (Waiting.mono hwork)
    · exact hg.parents k d n j hk hn
  · intro r hr o ho
    by_cases hoe : g.root o = g.root e
    · obtain ⟨n, j, hn, hcan, hj⟩ := hent r hr o ho hoe
      refine ⟨c, n, j, ?_, hps ▸ hn, hcan, hj⟩
      change (g.setClass (g.root e) c).classes.lookup (g.root o) = _
      rw [hlook, if_pos hoe]
    · obtain ⟨d, n, j, hd, hn, hcan, hj⟩ := hg.covered r hr o ho
      refine ⟨d, n, j, ?_, hn, hcan, hj⟩
      change (g.setClass (g.root e) c).classes.lookup (g.root o) = _
      rw [hlook, if_neg hoe, hd]
  · intro r hr s hs hcan
    rcases hg.congr r hr s hs hcan with heq | ⟨o, ho, i, hi, hroot⟩
    · exact .inl heq
    · rcases mem_cons.mp hi with rfl | hi
      · obtain ⟨o', ho', heq⟩ := exists_operand_of_canon_eq hcan ho
        obtain ⟨n, x, hn, hn', hx⟩ := hent r hr o ho hroot.symm
        obtain ⟨m, y, hm, hm', hy⟩ := hent s hs o' ho' (heq.trans hroot.symm)
        by_cases hnm : n = m
        · subst hnm
          cases Map.lookup_unique hn hm
          exact .inl (hx.symm.trans hy)
        · have hw := hl.waiting_of_ne hn hm (hn'.trans (hcan.trans hm'.symm)) hnm
          exact .inr ((hw.of_canon_eq hn').mono hwork)
      · exact .inr ⟨o, ho, i, hi, hroot⟩

end Repair

section Rebuild

variable {g g' : EGraph} {w : List Nat}

/-- Repairing the class of `e` without an event takes `e` off the lists; merged classes are on the
worklist. -/
theorem Congruent.repair
    (hg : Congruent g (e :: (w ++ g.worklist)) (e :: (w ++ g.worklist)) (e :: (w ++ g.worklist)))
    (hr : g.repair h fuel (g.root e) = some g') (hev : g'.trace.events = []) :
    Congruent g' (w ++ g'.worklist) (w ++ g'.worklist) (w ++ g'.worklist) := by
  obtain ⟨c, g1, c1, g2, g3, ps, c3, hc, hun, hc1, hrehash, hloop, hc3, -, rfl⟩ := repair_cases hr
  have hev3 : g3.trace.events = [] := hev
  have hev2 : g2.trace.events = [] := (Extends.repairParents hloop).events hev3
  have hev1 : g1.trace.events = [] := (Extends.foldlM_rehash hrehash).events hev2
  have hsame : SameParents g g1.tick := by
    rcases hun with ⟨-, hun⟩ | ⟨-, rfl⟩
    · exact (SameParents.unparent hun hev1).trans (SameParents.tick g1)
    · exact SameParents.tick _
  have hroot : g1.tick.root e = g.root e := by rw [EGraph.root, hsame.unionFind, EGraph.root]
  have hg1 := hg.sameParents hsame
  have hc1' : g1.tick.classes.lookup (g1.tick.root e) = some c1 := hroot.symm ▸ hc1
  have hstands : ∀ p ∈ h.order g1.trace.clock c1.parents.pairs, Stands g1.tick p.1 p.2 := by
    intro p hp
    exact (hg1.parents _ c1 p.1 p.2 hc1' (Map.mem_pairs.mp (h.mem_order.mp hp))).2.1
  obtain ⟨hg2, ⟨hc2, rfl⟩, -, hin⟩ := hg1.foldlM_rehash hstands hrehash
  have hin' : ∀ p ∈ c1.parents.pairs, g1.tick.canon p.1 ∈ hc2 :=
    fun p hp => hin p (h.mem_order.mpr hp)
  have hstart : RepairLoop { g1.tick with hashcons := hc2 } e w c1.parents [] ∅ := by
    refine ⟨?_, ⟨c1, hc1', rfl⟩, fun p hp => .inl (hin' p hp),
      (fun p hp => absurd hp not_mem_nil), (fun n j hn => by simp at hn),
      (fun n j hn => by simp at hn), fun n j hn => by simp at hn⟩
    have hw : g1.tick.worklist = g.worklist := hsame.worklist
    change Congruent _ (e :: (w ++ g1.tick.worklist)) (w ++ g1.tick.worklist)
      (w ++ g1.tick.worklist)
    rw [hw]
    exact hg2.rehashed hc1' hin'
  obtain ⟨hroot', hl⟩ := hstart.repairParents (fun p hp => h.mem_order.mp hp)
    (fun p hp => h.mem_order.mpr hp) (hroot.symm ▸ hloop)
  have hid : g3.root e = g.root e := hroot'.trans hroot
  have hfin := hl.finish (c := { c3 with nodes := c3.nodes.map g3.canon, parents := ps }) rfl
  rw [hid] at hfin
  exact hfin

theorem Congruent.foldlM_rebuildStep {todo : List Nat} {s s' : EGraph × List Nat}
    (hg : Congruent s.1 (todo ++ s.1.worklist) (todo ++ s.1.worklist) (todo ++ s.1.worklist))
    (hr : todo.foldlM (rebuildStep h fuel) s = some s') (hev : s'.1.trace.events = []) :
    Congruent s'.1 s'.1.worklist s'.1.worklist s'.1.worklist := by
  induction todo generalizing s with
  | nil =>
    cases hr
    exact hg
  | cons e todo ih =>
    obtain ⟨t, ht, hrest⟩ := foldlM_cons_eq_some.mp hr
    have hevt : t.1.trace.events = [] := by
      have hext : Extends t.1 s'.1 := by
        refine foldlM_invariant (fun u => Extends t.1 u.1) ?_ hrest (Extends.refl _)
        intro a x a' _ ha hta
        obtain ⟨-, g1, c, hg1, -, rfl⟩ := rebuildStep_cases ha
        exact hta.trans ((Extends.repair hg1).trans (Extends.tick g1))
      exact hext.events hev
    obtain ⟨-, g1, c, hg1, -, rfl⟩ := rebuildStep_cases ht
    have hstep := hg.repair hg1 hevt
    exact ih (hstep.sameParents (SameParents.tick g1)) hrest

theorem Congruent.rebuildLoop {s s' : EGraph × List Nat}
    (hg : Congruent s.1 s.1.worklist s.1.worklist s.1.worklist)
    (hr : rebuildLoop h fuel s = some s') (hev : s'.1.trace.events = []) :
    Congruent s'.1 [] [] [] ∧ s'.1.worklist = [] := by
  induction fuel generalizing s with
  | zero => cases hr
  | succ fuel ih =>
    unfold EGraph.rebuildLoop at hr
    split_ifs at hr with hw
    · cases hr
      rw [hw] at hg
      exact ⟨hg, hw⟩
    · simp only [bind_eq_some] at hr
      obtain ⟨t, ht, hr⟩ := hr
      have hevt : t.1.trace.events = [] := (Extends.rebuildLoop hr).events hev
      refine ih (Congruent.foldlM_rebuildStep ?_ ht hevt) hr
      change Congruent _ (s.1.worklist ++ []) (s.1.worklist ++ []) (s.1.worklist ++ [])
      rw [append_nil]
      exact ⟨hg.ids, hg.keys, hg.parents, hg.covered, hg.congr, hg.hashcons, hg.found⟩

theorem Congruent.rebuild (hg : Congruent g g.worklist g.worklist [])
    (hr : g.rebuild h fuel = some g') (hev : g'.trace.events = []) :
    Congruent g' [] [] [] ∧ g'.worklist = [] := by
  simp only [EGraph.rebuild, bind_eq_some] at hr
  obtain ⟨s, hloop, hclear⟩ := hr
  have hsame := SameParents.cleared (clearCaches_cases hclear)
  have hevs : s.1.trace.events = [] := hsame.toExtends.events hev
  have hstart : Congruent g g.worklist g.worklist g.worklist :=
    hg.mono (fun _ h => h) (fun _ h => h) fun _ h => absurd h not_mem_nil
  obtain ⟨hs, hw⟩ := Congruent.rebuildLoop (s := (g, [])) hstart hloop hevs
  exact ⟨hs.sameParents hsame, hsame.worklist.trans hw⟩

theorem Congruent.add {n : ENode} (hg : Congruent g g.worklist g.worklist [])
    (h : g.add n = some (id, g')) : Congruent g' g'.worklist g'.worklist [] := by
  obtain ⟨hlt, ⟨hlook, rfl⟩ | ⟨-, ha⟩⟩ := add_cases h
  · exact hg.addFound hlt hlook
  · have hsub : g.worklist ⊆ g'.worklist := by
      rw [ha.worklist]
      exact subset_append_left _ _
    exact (hg.addFresh ha (Extends.add h) hlt).mono hsub hsub (fun _ h => h)

theorem Congruent.addOperation {o : Operation} (hg : Congruent g g.worklist g.worklist [])
    (h : g.addOperation o = some (id, g')) : Congruent g' g'.worklist g'.worklist [] :=
  addOperation_stays (fun g => Congruent g g.worklist g.worklist []) (fun _ _ _ _ hg h => hg.add h)
    hg h

theorem Congruent.merge {r : Nat} (hg : Congruent g g.worklist g.worklist [])
    (h : g.merge i j = some (r, g')) : Congruent g' g'.worklist g'.worklist [] := by
  obtain ⟨-, -, -, ⟨-, rfl⟩ | hm⟩ := merge_cases h
  · exact hg
  · have hsub : g.worklist ⊆ g'.worklist := by
      rw [hm.worklist]
      exact subset_append_left _ _
    have hmem : g.root i ∈ g'.worklist := by
      rw [hm.worklist]
      simp
    exact hg.merged hm (Extends.merge h) hsub hmem hsub hmem (fun _ h => h)

end Rebuild

end EGraph

namespace EGraphSession

open EGraph

variable {h : HashOrder} {createRaw : Constructor}

theorem exec_congruent {s s' : EGraphSession} {call : EGraphCall}
    (hg : Congruent s.graph s.graph.worklist s.graph.worklist [])
    (he : exec h createRaw s call = some s') (hev : s'.graph.trace.events = []) :
    Congruent s'.graph s'.graph.worklist s'.graph.worklist [] := by
  cases exec_cases he with
  | addNode hr => exact hg.add hr
  | add hr => exact hg.addOperation hr
  | merge hr => exact hg.merge hr
  | @rebuild _ g hr =>
    obtain ⟨hg', hw⟩ := hg.rebuild hr hev
    change Congruent g g.worklist g.worklist []
    rw [hw]
    exact hg'
  | @extract _ _ t hr =>
    have hsame := EGraphExtractor.extract_sameParents hr
    change Congruent t.2.graph t.2.graph.worklist t.2.graph.worklist []
    rw [hsame.worklist]
    exact hg.sameParents hsame

theorem run_congruent {calls : List EGraphCall} {s : EGraphSession}
    (hrun : run h createRaw {} calls = some s) (hev : s.graph.trace.events = []) :
    Congruent s.graph s.graph.worklist s.graph.worklist [] := by
  refine foldlM_invariant (fun s => s.graph.trace.events = [] →
    Congruent s.graph s.graph.worklist s.graph.worklist []) ?_ hrun
    (fun _ => congruent_empty) hev
  intro t call t' _ ht ih hev'
  exact exec_congruent (ih ((exec_extends ht).1.events hev')) ht hev'

/-- If no `repair` of a session that ends in `rebuild` erases a parent entry, congruent nodes have
one class, also when they are added again. -/
theorem rebuild_congruent (h : HashOrder) (createRaw : Constructor) (calls : List EGraphCall)
    (fuel : Nat) (s : EGraphSession) (hrun : run h createRaw {} (calls ++ [.rebuild fuel]) = some s)
    (hev : s.graph.trace.events = []) :
    (∀ r1 ∈ s.graph.trace.adds, ∀ r2 ∈ s.graph.trace.adds, r1.node.data = r2.node.data →
      r1.node.operands.map s.graph.find = r2.node.operands.map s.graph.find →
      s.graph.find r1.id = s.graph.find r2.id) ∧
    ∀ r ∈ s.graph.trace.adds, ∃ id g', s.graph.add r.node = some (id, g') ∧
      g'.find id = s.graph.find r.id := by
  have hw : s.graph.worklist = [] := by
    rw [run, foldlM_append, bind_eq_some] at hrun
    obtain ⟨t, ht, hlast⟩ := hrun
    obtain ⟨t', ht', hnil⟩ := foldlM_cons_eq_some.mp hlast
    cases hnil
    obtain ⟨g, hg, rfl⟩ := map_eq_some_iff.mp ht'
    have hevt : t.graph.trace.events = [] := (Extends.rebuild hg).events hev
    exact ((run_congruent ht hevt).rebuild hg hev).2
  have hg := run_congruent hrun hev
  rw [hw] at hg
  have hnowait : ∀ n, ¬ Waiting s.graph [] n := by
    rintro n ⟨_, _, _, hi, _⟩
    cases hi
  have hclosed : ∀ r1 ∈ s.graph.trace.adds, ∀ r2 ∈ s.graph.trace.adds,
      s.graph.canon r1.node = s.graph.canon r2.node →
      s.graph.root r1.id = s.graph.root r2.id :=
    fun r1 hr1 r2 hr2 hcan => (hg.congr r1 hr1 r2 hr2 hcan).resolve_right (hnowait _)
  have hfind : ∀ {i : Nat}, i < s.graph.size → s.graph.find i = some (s.graph.root i) :=
    fun hi => find_eq_some.mpr ⟨hi, rfl⟩
  constructor
  · intro r1 hr1 r2 hr2 hdata hops
    obtain ⟨hid1, hops1⟩ := hg.ids r1 hr1
    obtain ⟨hid2, hops2⟩ := hg.ids r2 hr2
    have hmap : ∀ l : List Nat, (∀ o ∈ l, o < s.graph.size) →
        l.map s.graph.find = (l.map s.graph.root).map some := by
      intro l hl
      rw [List.map_map]
      exact map_congr_left (fun o ho => hfind (hl o ho))
    rw [hmap _ hops1, hmap _ hops2] at hops
    have hroots : r1.node.operands.map s.graph.root = r2.node.operands.map s.graph.root :=
      map_injective_iff.mpr (some_injective _) hops
    rw [hfind hid1, hfind hid2, hclosed r1 hr1 r2 hr2]
    simp only [canon, ENode.mk.injEq]
    exact ⟨hdata, hroots⟩
  · intro r hr
    have hin := (hg.found r hr).resolve_right (hnowait _)
    obtain ⟨id, hid⟩ := Map.exists_lookup hin
    obtain ⟨t, ht, hcan, hroot⟩ := hg.hashcons _ _ hid
    rw [canon_canon] at hcan
    refine ⟨id, s.graph.recordAdd ⟨r.node, id, false⟩, ?_, ?_⟩
    · rw [EGraph.add, bind_eq_bind, canonicalize_eq_some.mpr ⟨(hg.ids r hr).2, rfl⟩, bind_some]
      simp only [hid]
    · change s.graph.find id = s.graph.find r.id
      rw [hfind (hg.ids r hr).1, hfind (hg.root_lt_size hid), ← hroot, hclosed t ht r hr hcan]

/-- Complements of two symbols that are merged with each other and with a constant. -/
theorem rebuild_congruent_symbols :
    let x := Operation.constant (.int 8) (.numbered 0)
    let y := Operation.constant (.int 8) (.numbered 1)
    ∃ s, run .insertion (fun d ops => some (.mk d ops)) {}
        ([.add (.mk (.unary .not (.int 8)) [x]), .add (.mk (.unary .not (.int 8)) [y]),
          .add (.constantInt ⟨8, 7⟩), .merge 4 0, .merge 0 2] ++ [.rebuild 9]) = some s ∧
      s.graph.trace.events = [] ∧
      ∀ r1 ∈ s.graph.trace.adds, ∀ r2 ∈ s.graph.trace.adds, r1.node.data = r2.node.data →
        r1.node.operands.map s.graph.find = r2.node.operands.map s.graph.find →
        s.graph.find r1.id = s.graph.find r2.id := by
  intro x y
  obtain ⟨s, hs⟩ := isSome_iff_exists.mp (show (run .insertion
    (fun d ops => some (.mk d ops)) {} ([.add (.mk (.unary .not (.int 8)) [x]),
      .add (.mk (.unary .not (.int 8)) [y]), .add (.constantInt ⟨8, 7⟩), .merge 4 0,
      .merge 0 2] ++ [.rebuild 9])).isSome = true by decide +kernel)
  have hev : s.graph.trace.events = [] := by
    refine some.inj ((congrArg (Option.map fun t : EGraphSession => t.graph.trace.events)
      hs).symm.trans ?_)
    decide +kernel
  exact ⟨s, hs, hev, (rebuild_congruent _ _ _ _ s hs hev).1⟩

/-- A class that became constant has lost its other forms: a merge of `x` and `y` misses the
complement of `x`. -/
theorem rebuild_not_congruent_constant :
    let x := Operation.constant (.int 8) (.numbered 0)
    let y := Operation.constant (.int 8) (.numbered 1)
    ∃ s, run .insertion (fun d ops => some (.mk d ops)) {}
        [.add (.mk (.unary .not (.int 8)) [x]), .add (.mk (.unary .not (.int 8)) [y]),
          .add (.constantInt ⟨8, 7⟩), .merge 4 1, .rebuild 9, .merge 0 2, .rebuild 9] = some s ∧
      ∃ r1 ∈ s.graph.trace.adds, ∃ r2 ∈ s.graph.trace.adds, r1.node.data = r2.node.data ∧
        r1.node.operands.map s.graph.find = r2.node.operands.map s.graph.find ∧
        s.graph.find r1.id ≠ s.graph.find r2.id := by
  intro x y
  obtain ⟨s, hs⟩ := isSome_iff_exists.mp (show (run .insertion
    (fun d ops => some (.mk d ops)) {} [.add (.mk (.unary .not (.int 8)) [x]),
      .add (.mk (.unary .not (.int 8)) [y]), .add (.constantInt ⟨8, 7⟩), .merge 4 1,
      .rebuild 9, .merge 0 2, .rebuild 9]).isSome = true by decide +kernel)
  have hfind : s.graph.find 0 = s.graph.find 2 ∧ s.graph.find 1 ≠ s.graph.find 3 := by
    have hmap := congrArg (Option.map fun t : EGraphSession =>
      decide (t.graph.find 0 = t.graph.find 2 ∧ t.graph.find 1 ≠ t.graph.find 3)) hs
    refine of_decide_eq_true (some.inj (hmap.symm.trans ?_))
    decide +kernel
  have hadds : s.graph.trace.adds = [⟨⟨.constantInt ⟨8, 7⟩, []⟩, 4, true⟩,
      ⟨⟨.unary .not (.int 8), [2]⟩, 3, true⟩, ⟨⟨.constant (.int 8) (.numbered 1), []⟩, 2, true⟩,
      ⟨⟨.unary .not (.int 8), [0]⟩, 1, true⟩,
      ⟨⟨.constant (.int 8) (.numbered 0), []⟩, 0, true⟩] := by
    refine some.inj ((congrArg (Option.map fun t : EGraphSession => t.graph.trace.adds)
      hs).symm.trans ?_)
    decide +kernel
  refine ⟨s, hs, ⟨⟨.unary .not (.int 8), [0]⟩, 1, true⟩, by simp [hadds],
    ⟨⟨.unary .not (.int 8), [2]⟩, 3, true⟩, by simp [hadds], rfl, ?_, hfind.2⟩
  simp [hfind.1]

end EGraphSession

end Caffeine
