import Caffeine.IR.EGraphSession

/-!
# Congruence closure

The parent maps and the hashcons hold every node that was ever added, up to the equalities found,
and congruent nodes are in one class, except where a class on the worklist waits for `repair`.
`Congruent` is kept as long as `repair` records no event: `unparent` erases no parent entry, and the
class under repair absorbs no other.
-/

namespace Caffeine

open List Option

namespace EGraph

def Pending (g : EGraph) (w : List Nat) (p : Nat) : Prop := ∃ i ∈ w, g.root i = p

def Waiting (g : EGraph) (w : List Nat) (n : ENode) : Prop :=
  ∃ o ∈ n.operands, Pending g w (g.root o)

/-- An entry `(n, j)` of a map of nodes stands for a node that was added. -/
def Stands (g : EGraph) (n : ENode) (j : Nat) : Prop :=
  ∃ r ∈ g.trace.adds, g.canon r.node = g.canon n ∧ g.root r.id = g.root j

/-- The classes in `wc`, `wh` and `wp` wait for `repair`: for merges of congruent nodes, the
hashcons and parent entries. -/
structure Congruent (g : EGraph) (wc wh wp : List Nat) : Prop where
  ids : ∀ r ∈ g.trace.adds, r.id < g.size ∧ ∀ o ∈ r.node.operands, o < g.size
  keys : ∀ k ∈ g.classes, k < g.size
  parents : ∀ k c n j, g.classes.lookup k = some c → c.parents.lookup n = some j →
    (∃ o ∈ n.operands, g.root o = k) ∧ Stands g n j ∧
      (g.canon n = n → n ∈ g.hashcons ∨ Waiting g wp n)
  covered : ∀ r ∈ g.trace.adds, ∀ o ∈ r.node.operands, ∃ c n j,
    g.classes.lookup (g.root o) = some c ∧ c.parents.lookup n = some j ∧
      g.canon n = g.canon r.node ∧ g.root j = g.root r.id
  congr : ∀ r ∈ g.trace.adds, ∀ s ∈ g.trace.adds, g.canon r.node = g.canon s.node →
    g.root r.id = g.root s.id ∨ Waiting g wc r.node
  hashcons : ∀ n j, g.hashcons.lookup n = some j → Stands g n j
  found : ∀ r ∈ g.trace.adds, g.canon r.node ∈ g.hashcons ∨ Waiting g wh r.node

section Basic

variable {g g' : EGraph} {n m : ENode} {w w' : List Nat}

theorem canon_canon (g : EGraph) (n : ENode) : g.canon (g.canon n) = g.canon n := by
  simp only [canon, List.map_map, ENode.mk.injEq, true_and]
  exact map_congr_left (fun o _ => g.root_root o)

theorem exists_operand_of_canon_eq (h : g.canon n = g.canon m) {o : Nat} (ho : o ∈ n.operands) :
    ∃ o' ∈ m.operands, g.root o' = g.root o := by
  have hmap : n.operands.map g.root = m.operands.map g.root := congrArg ENode.operands h
  have hmem : g.root o ∈ m.operands.map g.root := hmap ▸ List.mem_map_of_mem ho
  exact List.mem_map.mp hmem

theorem Waiting.of_canon_eq (h : g.canon n = g.canon m) (hw : Waiting g w n) : Waiting g w m := by
  obtain ⟨o, ho, hp⟩ := hw
  obtain ⟨o', ho', heq⟩ := exists_operand_of_canon_eq h ho
  exact ⟨o', ho', heq ▸ hp⟩

theorem Waiting.mono (hsub : w ⊆ w') (hw : Waiting g w n) : Waiting g w' n := by
  obtain ⟨o, ho, i, hi, heq⟩ := hw
  exact ⟨o, ho, i, hsub hi, heq⟩

theorem Waiting.of_extends (he : Extends g g') (hw : Waiting g w n) : Waiting g' w n := by
  obtain ⟨o, ho, i, hi, heq⟩ := hw
  refine ⟨o, ho, i, hi, he.root _ _ ?_⟩
  rw [heq]

theorem canon_eq_of_extends (he : Extends g g') (h : g.canon n = g.canon m) :
    g'.canon n = g'.canon m := by
  have hdata : n.data = m.data := by simpa using congrArg ENode.data h
  have hmap : n.operands.map g.root = m.operands.map g.root := congrArg ENode.operands h
  have hfactor : ∀ l : List Nat, l.map g'.root = (l.map g.root).map g'.root := by
    intro l
    rw [List.map_map]
    refine map_congr_left (fun o _ => ?_)
    exact he.root _ _ (g.root_root o).symm
  simp only [canon, ENode.mk.injEq]
  exact ⟨hdata, by rw [hfactor, hmap, ← hfactor]⟩

theorem Stands.of_extends (he : Extends g g') {j : Nat} (h : Stands g n j) : Stands g' n j := by
  obtain ⟨r, hr, hcan, hroot⟩ := h
  exact ⟨r, he.adds hr, canon_eq_of_extends he hcan, he.root _ _ hroot⟩

theorem Stands.of_eq {i j : Nat} (h : Stands g n j) (hcan : g.canon n = g.canon m)
    (hroot : g.root j = g.root i) : Stands g m i := by
  obtain ⟨r, hr, hc, hj⟩ := h
  exact ⟨r, hr, hc.trans hcan, hj.trans hroot⟩

end Basic

section Preservation

variable {g g' : EGraph} {wc wh wp wc' wh' wp' : List Nat}

theorem congruent_empty : Congruent {} [] [] [] where
  ids r hr := nomatch hr
  keys k hk := by simp at hk
  parents k c n j hc := by simp at hc
  covered r hr := nomatch hr
  congr r hr := nomatch hr
  hashcons n j hn := by simp at hn
  found r hr := nomatch hr

theorem Congruent.mono (hg : Congruent g wc wh wp) (hc : wc ⊆ wc') (hh : wh ⊆ wh') (hp : wp ⊆ wp') :
    Congruent g wc' wh' wp' where
  ids := hg.ids
  keys := hg.keys
  parents k c n j hk hn := by
    obtain ⟨hop, hst, hcan⟩ := hg.parents k c n j hk hn
    exact ⟨hop, hst, fun h => (hcan h).imp_right (Waiting.mono hp)⟩
  covered := hg.covered
  congr r hr s hs h := (hg.congr r hr s hs h).imp_right (Waiting.mono hc)
  hashcons := hg.hashcons
  found r hr := (hg.found r hr).imp_right (Waiting.mono hh)

theorem Congruent.sameParents (hg : Congruent g wc wh wp) (h : SameParents g g') :
    Congruent g' wc wh wp := by
  obtain ⟨u, hc, cs, up, w, t⟩ := g
  obtain ⟨u', hc', cs', up', w', t'⟩ := g'
  obtain ⟨rfl, rfl, rfl, hadds, -, hpar⟩ := h
  simp only at hadds hpar
  have hlook : ∀ k c', cs'.lookup k = some c' →
      ∃ c, cs.lookup k = some c ∧ c.parents = c'.parents := by
    intro k c' hc'
    have := hpar k
    rw [hc', map_some, eq_comm, map_eq_some_iff] at this
    exact this
  have hlook' : ∀ k c, cs.lookup k = some c →
      ∃ c', cs'.lookup k = some c' ∧ c'.parents = c.parents := by
    intro k c hc
    have := hpar k
    rw [hc, map_some, map_eq_some_iff] at this
    exact this
  refine ⟨?_, ?_, ?_, ?_, ?_, ?_, ?_⟩
  · intro r hr
    exact hg.ids r (hadds ▸ hr)
  · intro k hk
    obtain ⟨c', hc'⟩ := Map.exists_lookup hk
    obtain ⟨c, hc, -⟩ := hlook k c' hc'
    exact hg.keys k (Map.mem_of_lookup hc)
  · intro k c' n j hk hn
    obtain ⟨c, hc, heq⟩ := hlook k c' hk
    obtain ⟨hop, ⟨r, hr, hst⟩, hcan⟩ := hg.parents k c n j hc (heq ▸ hn)
    exact ⟨hop, ⟨r, hadds.symm ▸ hr, hst⟩, hcan⟩
  · intro r hr o ho
    obtain ⟨c, n, j, hc, hn, h⟩ := hg.covered r (hadds ▸ hr) o ho
    obtain ⟨c', hc', heq⟩ := hlook' _ c hc
    exact ⟨c', n, j, hc', heq ▸ hn, h⟩
  · intro r hr s hs h
    exact hg.congr r (hadds ▸ hr) s (hadds ▸ hs) h
  · intro n j hn
    obtain ⟨r, hr, hst⟩ := hg.hashcons n j hn
    exact ⟨r, hadds.symm ▸ hr, hst⟩
  · intro r hr
    exact hg.found r (hadds ▸ hr)

end Preservation

section Merge

variable {g g' : EGraph} {i j : Nat} {n m : ENode}

theorem canon_eq_self_iff : g.canon n = n ↔ ∀ o ∈ n.operands, g.root o = o := by
  obtain ⟨d, ops⟩ := n
  simp only [canon, ENode.mk.injEq, true_and]
  rw [show (ops.map g.root = ops) = (ops.map g.root = ops.map id) by rw [List.map_id], map_inj_left]
  rfl

def Touched (g : EGraph) (i j : Nat) (n : ENode) : Prop :=
  ∃ o ∈ n.operands, g.root o = g.root i ∨ g.root o = g.root j

theorem Merged.root_eq_iff (hm : Merged g i j g') (o : Nat) :
    g'.root o = g.root i ↔ g.root o = g.root i ∨ g.root o = g.root j := by
  rw [hm.root]
  split_ifs with h
  · simp [h]
  · simp [h]

theorem Merged.waiting (hm : Merged g i j g') {w : List Nat} (hw : g.root i ∈ w)
    (ht : Touched g i j n) : Waiting g' w n := by
  obtain ⟨o, ho, hr⟩ := ht
  refine ⟨o, ho, g.root i, hw, ?_⟩
  rw [(hm.root_eq_iff o).mpr hr]
  exact (hm.root_eq_iff _).mpr (.inl (g.root_root i))

theorem Merged.canon_of_not_touched (hm : Merged g i j g') (ht : ¬ Touched g i j n) :
    g'.canon n = g.canon n := by
  simp only [canon, ENode.mk.injEq, true_and]
  refine map_congr_left (fun o ho => ?_)
  rw [hm.root, if_neg]
  exact fun h => ht ⟨o, ho, .inr h⟩

theorem Merged.canon_eq_or_touched (hm : Merged g i j g') (h : g'.canon n = g'.canon m) :
    g.canon n = g.canon m ∨ Touched g i j n := by
  by_cases hn : Touched g i j n
  · exact .inr hn
  · have hmt : ¬ Touched g i j m := by
      rintro ⟨o, ho, hr⟩
      obtain ⟨o', ho', heq⟩ := exists_operand_of_canon_eq h.symm ho
      rw [(hm.root_eq_iff o).mpr hr] at heq
      exact hn ⟨o', ho', (hm.root_eq_iff o').mp heq⟩
    rw [hm.canon_of_not_touched hn, hm.canon_of_not_touched hmt] at h
    exact .inl h

theorem Merged.root_self (hm : Merged g i j g') {o : Nat} (h : g'.root o = o) : g.root o = o := by
  rw [hm.root] at h
  split_ifs at h with ho
  · rw [← h, root_root] at ho
    exact absurd ho hm.ne
  · exact h

theorem merge_parents {c d e : EClass} (h : c.merge d = some e) :
    e.parents = c.parents ∪ d.parents := by
  unfold EClass.merge at h
  split_ifs at h
  cases h
  rfl

variable {wc wh wp wc' wh' wp' : List Nat}

theorem Congruent.merged (hg : Congruent g wc wh wp) (hm : Merged g i j g') (he : Extends g g')
    (hc : wc ⊆ wc') (hci : g.root i ∈ wc') (hh : wh ⊆ wh') (hhi : g.root i ∈ wh') (hp : wp ⊆ wp') :
    Congruent g' wc' wh' wp' := by
  obtain ⟨c1, c2, cm, hc1, hc2, hcm, hlook⟩ := hm.classes
  have hunion := merge_parents hcm
  have hadds : g'.trace.adds = g.trace.adds := by rw [hm.trace]
  have hent : ∀ k c n x, g'.classes.lookup k = some c → c.parents.lookup n = some x →
      ∃ k0 c0, g.classes.lookup k0 = some c0 ∧ c0.parents.lookup n = some x ∧
        ∀ o, g.root o = k0 → g'.root o = k := by
    intro k c n x hk hn
    rw [hlook] at hk
    split_ifs at hk with hkj hki
    · cases hk
      rw [hunion] at hn
      rcases AList.lookup_union_eq_some.mp hn with hn | ⟨-, hn⟩
      · exact ⟨_, c1, hc1, hn, fun o ho => hki ▸ (hm.root_eq_iff o).mpr (.inl ho)⟩
      · exact ⟨_, c2, hc2, hn, fun o ho => hki ▸ (hm.root_eq_iff o).mpr (.inr ho)⟩
    · refine ⟨k, c, hk, hn, fun o ho => ?_⟩
      rw [hm.root, if_neg (by rw [ho]; exact hkj), ho]
  refine ⟨?_, ?_, ?_, ?_, ?_, ?_, ?_⟩
  · rw [hadds, hm.size]
    exact hg.ids
  · intro k hk
    rw [hm.size]
    obtain ⟨c, hc⟩ := Map.exists_lookup hk
    rw [hlook] at hc
    split_ifs at hc with hkj hki
    · exact hki ▸ hg.keys _ (Map.mem_of_lookup hc1)
    · exact hg.keys k (Map.mem_of_lookup hc)
  · intro k c n x hk hn
    obtain ⟨k0, c0, hk0, hn0, hroots⟩ := hent k c n x hk hn
    obtain ⟨⟨o, ho, hok⟩, hst, hcan⟩ := hg.parents k0 c0 n x hk0 hn0
    refine ⟨⟨o, ho, hroots o hok⟩, hst.of_extends he, fun hself => ?_⟩
    have hself0 : g.canon n = n := canon_eq_self_iff.mpr
      (fun o ho => hm.root_self (canon_eq_self_iff.mp hself o ho))
    rcases hcan hself0 with hmem | hw
    · exact .inl (hm.hashcons ▸ hmem)
    · exact .inr ((hw.of_extends he).mono hp)
  · intro r hr o ho
    rw [hadds] at hr
    obtain ⟨c, n, x, hc, hn, hcan, hx⟩ := hg.covered r hr o ho
    have hcan' := canon_eq_of_extends he hcan
    have hx' := he.root _ _ hx
    by_cases hoi : g.root o = g.root i
    · have hc' : c = c1 := Map.lookup_unique hc (hoi ▸ hc1)
      refine ⟨cm, n, x, ?_, ?_, hcan', hx'⟩
      · rw [(hm.root_eq_iff o).mpr (.inl hoi), hlook, if_neg hm.ne, if_pos rfl]
      · rw [hunion]
        exact AList.lookup_union_eq_some.mpr (.inl (hc' ▸ hn))
    · by_cases hoj : g.root o = g.root j
      · have hc' : c = c2 := Map.lookup_unique hc (hoj ▸ hc2)
        have hlook' : g'.classes.lookup (g'.root o) = some cm := by
          rw [(hm.root_eq_iff o).mpr (.inr hoj), hlook, if_neg hm.ne, if_pos rfl]
        by_cases hn1 : n ∈ c1.parents
        · obtain ⟨y, hy⟩ := Map.exists_lookup hn1
          obtain ⟨⟨p, hp, hpi⟩, -, -⟩ := hg.parents _ c1 n y hc1 hy
          obtain ⟨q, hq, hqp⟩ := exists_operand_of_canon_eq hcan hp
          obtain ⟨d, n', x', hd, hn', hcan1, hx1⟩ := hg.covered r hr q hq
          have hd' : d = c1 := Map.lookup_unique hd ((hqp.trans hpi) ▸ hc1)
          refine ⟨cm, n', x', hlook', ?_, canon_eq_of_extends he hcan1, he.root _ _ hx1⟩
          rw [hunion]
          exact AList.lookup_union_eq_some.mpr (.inl (hd' ▸ hn'))
        · refine ⟨cm, n, x, hlook', ?_, hcan', hx'⟩
          rw [hunion]
          exact AList.lookup_union_eq_some.mpr (.inr ⟨hn1, hc' ▸ hn⟩)
      · refine ⟨c, n, x, ?_, hn, hcan', hx'⟩
        rw [hm.root, if_neg hoj, hlook, if_neg hoj, if_neg hoi]
        exact hc
  · intro r hr s hs h
    rw [hadds] at hr hs
    rcases hm.canon_eq_or_touched h with h | ht
    · rcases hg.congr r hr s hs h with heq | hw
      · exact .inl (he.root _ _ heq)
      · exact .inr ((hw.of_extends he).mono hc)
    · exact .inr (hm.waiting hci ht)
  · intro n x hn
    rw [hm.hashcons] at hn
    exact (hg.hashcons n x hn).of_extends he
  · intro r hr
    rw [hadds] at hr
    by_cases ht : Touched g i j r.node
    · exact .inr (hm.waiting hhi ht)
    · rw [hm.canon_of_not_touched ht, hm.hashcons]
      exact (hg.found r hr).imp_right (fun hw => (hw.of_extends he).mono hh)

end Merge

section Add

variable {g g' : EGraph} {n : ENode} {id : Nat} {w : List Nat}

theorem Congruent.root_lt_size (hg : Congruent g w w []) {m : ENode} {j : Nat}
    (h : g.hashcons.lookup m = some j) : j < g.size := by
  obtain ⟨r, hr, -, hroot⟩ := hg.hashcons m j h
  by_contra hj
  have hself : g.root j = j := g.unionFind.find_of_size_le (Nat.le_of_not_lt hj)
  have hlt := g.root_lt (hg.ids r hr).1
  omega

theorem Congruent.addFound (hg : Congruent g w w []) (hlt : ∀ o ∈ n.operands, o < g.size)
    (hid : g.hashcons.lookup (g.canon n) = some id) :
    Congruent (g.recordAdd ⟨n, id, false⟩) w w [] := by
  obtain ⟨s, hs, hcanon, hroot⟩ := hg.hashcons _ _ hid
  rw [canon_canon] at hcanon
  have hsub : ∀ r ∈ g.trace.adds, r ∈ (g.recordAdd ⟨n, id, false⟩).trace.adds :=
    fun r hr => mem_cons_of_mem _ hr
  refine ⟨?_, hg.keys, ?_, ?_, ?_, ?_, ?_⟩
  · intro r hr
    rcases mem_cons.mp hr with rfl | hr
    · exact ⟨hg.root_lt_size hid, hlt⟩
    · exact hg.ids r hr
  · intro k c m j hk hm
    obtain ⟨hop, ⟨r, hr, hst⟩, hcan⟩ := hg.parents k c m j hk hm
    exact ⟨hop, ⟨r, hsub r hr, hst⟩, hcan⟩
  · intro r hr o ho
    rcases mem_cons.mp hr with rfl | hr
    · obtain ⟨o', ho', heq⟩ := exists_operand_of_canon_eq hcanon.symm ho
      obtain ⟨c, m, j, hc, hm, hcm, hj⟩ := hg.covered s hs o' ho'
      exact ⟨c, m, j, heq ▸ hc, hm, hcm.trans hcanon, hj.trans hroot⟩
    · exact hg.covered r hr o ho
  · intro r hr t ht h
    rcases mem_cons.mp hr with rfl | hr
    · rcases mem_cons.mp ht with rfl | ht
      · exact .inl rfl
      · rcases hg.congr s hs t ht (hcanon.trans h) with heq | hw
        · exact .inl (hroot.symm.trans heq)
        · exact .inr (hw.of_canon_eq hcanon)
    · rcases mem_cons.mp ht with rfl | ht
      · rcases hg.congr r hr s hs (h.trans hcanon.symm) with heq | hw
        · exact .inl (heq.trans hroot)
        · exact .inr hw
      · exact hg.congr r hr t ht h
  · intro m j hm
    obtain ⟨r, hr, hst⟩ := hg.hashcons m j hm
    exact ⟨r, hsub r hr, hst⟩
  · intro r hr
    rcases mem_cons.mp hr with rfl | hr
    · exact .inl (Map.mem_of_lookup hid)
    · exact hg.found r hr

theorem Added.canon_eq (ha : Added g n g') (m : ENode) : g'.canon m = g.canon m := by
  simp only [canon, ENode.mk.injEq, true_and]
  exact map_congr_left (fun o _ => ha.root o)

theorem Added.lookup_parents (ha : Added g n g') (hnew : ∀ o ∈ (g.canon n).operands, o < g.size)
    {k : Nat} {c' : EClass} (hc' : g'.classes.lookup k = some c') :
    k = g.size ∧ c'.parents = ∅ ∨ ∃ c, g.classes.lookup k = some c ∧
      c'.parents = if k ∈ (g.canon n).operands then c.parents.emplace (g.canon n) g.size
        else c.parents := by
  rw [ha.classes, map_eq_some_iff] at hc'
  obtain ⟨c, hc, rfl⟩ := hc'
  rw [Map.lookup_emplace] at hc
  split_ifs at hc with hcond
  · cases hc
    have hk : k ∉ (g.canon n).operands := fun hk => by
      have := hnew k hk
      omega
    exact .inl ⟨hcond.1, by rw [if_neg hk]; rfl⟩
  · refine .inr ⟨c, hc, ?_⟩
    split_ifs <;> rfl

theorem Added.lookup_class (ha : Added g n g') {k : Nat} {c : EClass} (hk : k ≠ g.size)
    (hc : g.classes.lookup k = some c) :
    ∃ c', g'.classes.lookup k = some c' ∧
      c'.parents = if k ∈ (g.canon n).operands then c.parents.emplace (g.canon n) g.size
        else c.parents := by
  have hlook := ha.classes k
  rw [Map.lookup_emplace, if_neg (fun h => hk h.1), hc, map_some] at hlook
  exact ⟨_, hlook, by split_ifs <;> rfl⟩

theorem Congruent.addFresh (hg : Congruent g w w []) (ha : Added g n g') (he : Extends g g')
    (hlt : ∀ o ∈ n.operands, o < g.size) : Congruent g' w w [] := by
  have hfr : g.size ∉ g.classes := fun h => absurd (hg.keys _ h) (lt_irrefl _)
  have hnew : ∀ o ∈ (g.canon n).operands, o < g.size := by
    intro o ho
    obtain ⟨p, hp, rfl⟩ := List.mem_map.mp ho
    exact g.root_lt (hlt p hp)
  have habs : g.canon n ∉ g.hashcons := AList.lookup_eq_none.mp ha.absent
  have hmem : ∀ r, r ∈ g'.trace.adds ↔ r = ⟨n, g.size, true⟩ ∨ r ∈ g.trace.adds := by
    intro r
    rw [ha.adds, mem_cons]
  have hself : g.canon (g.canon n) = g.canon n := g.canon_canon n
  have hhash : ∀ m ∈ g.hashcons, m ∈ g'.hashcons := by
    intro m hm
    rw [← AList.lookup_isSome, ha.hashcons]
    split_ifs
    · rfl
    · exact AList.lookup_isSome.mpr hm
  have hnew_hash : g.canon n ∈ g'.hashcons := by
    rw [← AList.lookup_isSome, ha.hashcons, if_pos rfl]
    rfl
  have hstands : Stands g' (g.canon n) g.size :=
    ⟨⟨n, g.size, true⟩, (hmem _).mpr (.inl rfl), by rw [ha.canon_eq, ha.canon_eq, hself], rfl⟩
  refine ⟨?_, ?_, ?_, ?_, ?_, ?_, ?_⟩
  · intro r hr
    rw [ha.size]
    rcases (hmem r).mp hr with rfl | hr
    · exact ⟨Nat.lt_succ_self _, fun o ho => Nat.lt_succ_of_lt (hlt o ho)⟩
    · obtain ⟨hid, hops⟩ := hg.ids r hr
      exact ⟨Nat.lt_succ_of_lt hid, fun o ho => Nat.lt_succ_of_lt (hops o ho)⟩
  · intro k hk
    rw [ha.size]
    obtain ⟨c', hc'⟩ := Map.exists_lookup hk
    rcases ha.lookup_parents hnew hc' with ⟨rfl, -⟩ | ⟨c, hc, -⟩
    · exact Nat.lt_succ_self _
    · exact Nat.lt_succ_of_lt (hg.keys k (Map.mem_of_lookup hc))
  · intro k c' m j hk hm
    rcases ha.lookup_parents hnew hk with ⟨-, hemp⟩ | ⟨c, hc, hpar⟩
    · rw [hemp] at hm
      simp at hm
    · have hold : c.parents.lookup m = some j → (∃ o ∈ m.operands, g'.root o = k) ∧
          Stands g' m j ∧ (g'.canon m = m → m ∈ g'.hashcons ∨ Waiting g' [] m) := by
        intro hm
        obtain ⟨⟨o, ho, hok⟩, hst, hcan⟩ := hg.parents k c m j hc hm
        refine ⟨⟨o, ho, by rw [ha.root, hok]⟩, hst.of_extends he, fun hself => ?_⟩
        rw [ha.canon_eq] at hself
        exact (hcan hself).imp (hhash m) (Waiting.of_extends he)
      rw [hpar] at hm
      split_ifs at hm with hkop
      · rw [Map.lookup_emplace] at hm
        split_ifs at hm with hcond
        · cases hm
          obtain ⟨rfl, -⟩ := hcond
          refine ⟨⟨k, hkop, ?_⟩, hstands, fun _ => .inl hnew_hash⟩
          rw [ha.root]
          exact canon_eq_self_iff.mp hself k hkop
        · exact hold hm
      · exact hold hm
  · intro r hr o ho
    rcases (hmem r).mp hr with rfl | hr
    · have hop : g.root o ∈ (g.canon n).operands := List.mem_map_of_mem ho
      have hne : g.root o ≠ g.size := (hnew _ hop).ne
      obtain ⟨c, hc⟩ := Map.exists_lookup (ha.operand _ hop hne)
      obtain ⟨c', hc', hpar⟩ := ha.lookup_class hne hc
      have hnot : g.canon n ∉ c.parents := by
        intro hin
        obtain ⟨x, hx⟩ := Map.exists_lookup hin
        rcases (hg.parents _ c _ x hc hx).2.2 hself with h | ⟨_, _, _, h, _⟩
        · exact habs h
        · cases h
      refine ⟨c', g.canon n, g.size, by rw [ha.root, hc'], ?_, by rw [ha.canon_eq, ha.canon_eq,
        hself], rfl⟩
      rw [hpar, if_pos hop, Map.lookup_emplace, if_pos ⟨rfl, hnot⟩]
    · obtain ⟨c, m, j, hc, hm, hcm, hj⟩ := hg.covered r hr o ho
      have hne : g.root o ≠ g.size := fun h => hfr (h ▸ Map.mem_of_lookup hc)
      obtain ⟨c', hc', hpar⟩ := ha.lookup_class hne hc
      refine ⟨c', m, j, by rw [ha.root, hc'], ?_, by rw [ha.canon_eq, ha.canon_eq, hcm], ?_⟩
      · rw [hpar]
        split_ifs
        · rw [Map.lookup_emplace, if_neg, hm]
          rintro ⟨rfl, hnot⟩
          exact hnot (Map.mem_of_lookup hm)
        · exact hm
      · rw [ha.root, ha.root, hj]
  · intro r hr t ht h
    rw [ha.canon_eq, ha.canon_eq] at h
    rcases (hmem r).mp hr with rfl | hr
    · rcases (hmem t).mp ht with rfl | ht
      · exact .inl rfl
      · rcases hg.found t ht with hin | hw
        · exact absurd (h ▸ hin) habs
        · exact .inr ((hw.of_canon_eq h.symm).of_extends he)
    · rcases (hmem t).mp ht with rfl | ht
      · rcases hg.found r hr with hin | hw
        · exact absurd (h ▸ hin) habs
        · exact .inr (hw.of_extends he)
      · exact (hg.congr r hr t ht h).imp (he.root _ _) (Waiting.of_extends he)
  · intro m j hm
    rw [ha.hashcons] at hm
    split_ifs at hm with hmn
    · cases hm
      exact hmn ▸ hstands
    · exact (hg.hashcons m j hm).of_extends he
  · intro r hr
    rw [ha.canon_eq]
    rcases (hmem r).mp hr with rfl | hr
    · exact .inl hnew_hash
    · exact (hg.found r hr).imp (hhash _) (Waiting.of_extends he)

end Add

end EGraph

end Caffeine
