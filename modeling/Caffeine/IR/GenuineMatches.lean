import Caffeine.IR.UpdatedClasses

/-!
# Genuine matches

Potential matches are looked at again only for updated classes. A merge records the class that
survives as updated, so that the entries of the absorbed one stay. As long as no such entry is left
at the head of a round, the matches found are matches in the graph as it is, and no lookup of the
matcher fails.
-/

namespace Caffeine

open EGraph GraphAccessor List Option

structure EMatcher.Valid (m : EMatcher) : Prop where
  captures : m.captures.length = m.subclauses.length
  matchers : ∀ c ∈ m.clauses, c.matcher < m.subclauses.length

theorem EMatcherBuilder.build_valid {b : EMatcherBuilder}
    (hb : ∀ c ∈ b.clauses, c.matcher < b.subclauses.length) : b.build.Valid := by
  have hlen : ∀ (cs : List SubClause) (marks : List Bool), (cs.foldl (fun captures c =>
      captures ++ [c.isCapture || c.submatchers.any (fun s => captures.getD s false)])
      marks).length = marks.length + cs.length := by
    intro cs
    induction cs with
    | nil => exact fun marks => rfl
    | cons c cs ih =>
      intro marks
      rw [foldl_cons, ih, length_append, length_singleton, length_cons]
      omega
  exact ⟨(hlen b.subclauses []).trans (Nat.zero_add _), hb⟩

namespace MatchData

variable {data : MatchData} {k id i : Nat} {matched : Map Nat (List Nat)}

theorem mem_nodes : i ∈ data.nodes k id ↔
    ∃ matched indices, data[k]? = some matched ∧ matched.lookup id = some indices ∧
      i ∈ indices := by
  unfold nodes
  cases data[k]? with
  | none => simp
  | some matched => cases hl : matched.lookup id <;> simp [hl]

theorem nodes_append_left (hk : k < data.length) :
    MatchData.nodes (data ++ [matched]) k id = data.nodes k id := by
  unfold nodes
  rw [List.getElem?_append_left hk]

theorem nodes_append_last :
    MatchData.nodes (data ++ [matched]) data.length id = (matched.lookup id).getD [] := by
  unfold nodes
  rw [List.getElem?_concat_length, bind_some]

theorem lt_of_mem_nodes (hi : i ∈ data.nodes k id) : k < data.length := by
  obtain ⟨matched, -, hk, -⟩ := mem_nodes.mp hi
  exact (List.getElem?_eq_some_iff.mp hk).1

end MatchData

variable {c : SubClause} {n : ENode}

namespace EGraphMatcher

variable {h : HashOrder} {m : EMatcher} {g g' : EGraph} {s s' : EGraphMatcher} {data : MatchData}

/-- A node of a live class has the opcode, filter and number of operands of a sub-clause. -/
structure NodeMatch (m : EMatcher) (g : EGraph) (k id i : Nat) (c : SubClause) (n : ENode) :
    Prop where
  clause : m.subclauses[k]? = some c
  root : g.root id = id
  node : ∃ cls, g.classes.lookup id = some cls ∧ cls.nodes[i]? = some n
  accepts : c.isPotentialMatch n = true
  arity : c.submatchers = [] ∨ c.submatchers.length = n.operands.length

/-- Sub-clause, class and node index of a match: the node matches, and so do its operands. -/
inductive Genuine (m : EMatcher) (g : EGraph) : Nat → Nat → Nat → Prop
  | intro {k id i : Nat} {c : SubClause} {n : ENode} (hn : NodeMatch m g k id i c n)
    (index : Nat → Nat) (hsubs : ∀ (j sub operand : Nat), c.submatchers[j]? = some sub →
      n.operands[j]? = some operand → Genuine m g sub operand (index j)) : Genuine m g k id i

variable {k id i : Nat}

theorem NodeMatch.of_eq (hn : NodeMatch m g k id i c n) (hu : g'.unionFind = g.unionFind)
    (hc : g'.classes = g.classes) : NodeMatch m g' k id i c n := by
  refine ⟨hn.clause, ?_, hc ▸ hn.node, hn.accepts, hn.arity⟩
  rw [EGraph.root, hu]
  exact hn.root

/-! ### Up to date entries -/

/-- Every class id with potential matches is a fixed point of `find` or updated. -/
def Current (s : EGraphMatcher) : Prop :=
  ∀ k p, p ∈ s.entries k → s.graph.root p.1 = p.1 ∨ p.1 ∈ s.graph.updated

theorem mem_entries {p : Nat × Nat} :
    p ∈ s.entries k ↔ ∃ ps, (k, ps) ∈ s.potentials.pairs ∧ p ∈ ps := by
  simp only [Map.mem_pairs, entries]
  cases s.potentials.lookup k <;> simp

instance : Decidable s.Current :=
  decidable_of_iff (∀ q ∈ s.potentials.pairs, ∀ p ∈ q.2,
    s.graph.root p.1 = p.1 ∨ p.1 ∈ s.graph.updated) <| by
    refine ⟨fun hall k p hp => ?_, fun hcur q hq p hp => hcur q.1 p (mem_entries.mpr ⟨q.2, hq, hp⟩)⟩
    obtain ⟨ps, hps, hp⟩ := mem_entries.mp hp
    exact hall (k, ps) hps p hp

/-- A recorded match is a node of a live class that its sub-clause takes. -/
def UpToDate (m : EMatcher) (g : EGraph) (k : Nat) (p : Nat × Nat) : Prop :=
  g.root p.1 = p.1 ∧
    ∃ cls n, g.classes.lookup p.1 = some cls ∧ cls.nodes[p.2]? = some n ∧ Matches m k n

/-- At the head of a round the matches of live classes that are not updated are up to date. -/
structure HeadOk (m : EMatcher) (s : EGraphMatcher) : Prop where
  reachable : s.graph.Reachable
  worklist : s.graph.worklist = []
  listed : ∀ k p, p ∈ s.entries k → k ∈ s.recorded p.1
  upToDate : ∀ k p, p ∈ s.entries k → s.graph.root p.1 = p.1 → p.1 ∉ s.graph.updated →
    UpToDate m s.graph k p

theorem updateEClass_exists (hg : s.graph.WellFormed) (hid : id < s.graph.size) :
    ∃ s', updateEClassPotentialMatches m s id = some s' := by
  obtain ⟨c, hc⟩ := hg.exists_get hid
  simp only [updateEClassPotentialMatches, hc, some_bind]
  split_ifs
  · exact ⟨_, rfl⟩
  · exact ⟨_, rfl⟩

theorem updateEClasses_entries {ids : List Nat}
    (hlisted : ∀ k p, p ∈ s.entries k → k ∈ s.recorded p.1)
    (hrun : ids.foldlM (updateEClassPotentialMatches m) s = some s') :
    (∀ k p, p ∈ s'.entries k → k ∈ s'.recorded p.1) ∧ ∀ k p, p ∈ s'.entries k →
      (p ∈ s.entries k ∧ p.1 ∉ ids) ∨ UpToDate m s.graph k p := by
  induction ids generalizing s with
  | nil =>
    cases hrun
    exact ⟨hlisted, fun k p hp => .inl ⟨hp, not_mem_nil⟩⟩
  | cons id ids ih =>
    obtain ⟨t, ht, hrun⟩ := foldlM_cons_eq_some.mp hrun
    obtain ⟨hgr, -⟩ := updateEClass_frame ht
    obtain ⟨hlisted', c, hc, hent⟩ := updateEClass_cases hlisted ht
    obtain ⟨hlast, hrest⟩ := ih hlisted' hrun
    refine ⟨hlast, fun k p hp => ?_⟩
    rw [hgr] at hrest
    rcases hrest k p hp with ⟨hp, hids⟩ | hup
    · rcases hent k p hp with ⟨hp, hne⟩ | ⟨rfl, hroot, n, hn, hmatch⟩
      · exact .inl ⟨hp, not_mem_cons_of_ne_of_not_mem hne hids⟩
      · have hlook := (get_eq_some.mp hc).2
        rw [hroot] at hlook
        exact .inr ⟨hroot, c, n, hlook, hn, hmatch⟩
    · exact .inr hup

theorem updatePotentialMatches_upToDate (h : HashOrder) (hs : HeadOk m s) (hcur : s.Current) :
    ∃ s1, s.updatePotentialMatches h m = some s1 ∧ s1.graph = s.graph.tick ∧
      (∀ k p, p ∈ s1.entries k → k ∈ s1.recorded p.1) ∧
      ∀ k p, p ∈ s1.entries k → UpToDate m s.graph k p := by
  have hwell := hs.reachable.wellFormed
  let ids := if s.potentials.keys = [] then s.graph.classes.keys else s.graph.updated
  have hids : ∀ id ∈ h.order s.graph.trace.clock ids, id < s.graph.size := by
    intro id hid
    rw [HashOrder.mem_order] at hid
    by_cases hkeys : s.potentials.keys = []
    · rw [show ids = _ from if_pos hkeys] at hid
      exact ((hwell.live id).mp (AList.mem_keys.mpr hid)).1
    · rw [show ids = _ from if_neg hkeys] at hid
      exact hwell.updated id hid
  have hstep : ∀ t id, id ∈ h.order s.graph.trace.clock ids → t.graph = s.graph.tick →
      ∃ t', updateEClassPotentialMatches m t id = some t' ∧ t'.graph = s.graph.tick := by
    intro t id hid ht
    obtain ⟨t', ht'⟩ := updateEClass_exists (m := m) (s := t) (ht ▸ hwell.tick)
      (ht ▸ hids id hid : id < t.graph.size)
    exact ⟨t', ht', (updateEClass_frame ht').1.trans ht⟩
  obtain ⟨s1, hrun, -⟩ := foldlM_exists (s := { s with graph := s.graph.tick })
    (fun t : EGraphMatcher => t.graph = s.graph.tick) hstep rfl
  obtain ⟨hgr, -⟩ := updatePotentialMatches_frame (h := h) (m := m) (s := s) hrun
  obtain ⟨hlisted, hent⟩ :=
    updateEClasses_entries (s := { s with graph := s.graph.tick }) hs.listed hrun
  refine ⟨s1, hrun, hgr, hlisted, fun k p hp => ?_⟩
  rcases hent k p hp with ⟨hold, hnot⟩ | hup
  · -- an entry that was not looked at
    rw [HashOrder.mem_order] at hnot
    by_cases hkeys : s.potentials.keys = []
    · obtain ⟨ps, hps, -⟩ := mem_entries.mp hold
      have hmem : k ∈ s.potentials.keys :=
        AList.mem_keys.mp (Map.mem_of_lookup (Map.mem_pairs.mp hps))
      rw [hkeys] at hmem
      cases hmem
    · rw [show ids = _ from if_neg hkeys] at hnot
      exact hs.upToDate k p hold ((hcur k p hold).resolve_right hnot) hnot
  · exact hup

/-! ### Finding matches -/

def Tested (m : EMatcher) (g : EGraph) (data : MatchData) (k id i : Nat) : Prop :=
  ∃ c n, NodeMatch m g k id i c n ∧ ∀ (j sub operand : Nat), c.submatchers[j]? = some sub →
    n.operands[j]? = some operand → sub < k ∧ ∃ i', i' ∈ data.nodes sub operand

structure Matched (m : EMatcher) (g : EGraph) (data : MatchData) : Prop where
  keys : ∀ (k : Nat) matched, data[k]? = some matched → ∀ id indices,
    matched.lookup id = some indices →
    indices ≠ []
  tested : ∀ k id i, i ∈ data.nodes k id → Tested m g data k id i

theorem Matched.of_eq (hdata : Matched m g data) (hu : g'.unionFind = g.unionFind)
    (hc : g'.classes = g.classes) : Matched m g' data := by
  refine ⟨hdata.keys, fun k id i hi => ?_⟩
  obtain ⟨c, n, hn, hsubs⟩ := hdata.tested k id i hi
  exact ⟨c, n, hn.of_eq hu hc, hsubs⟩

theorem Matched.genuine (hdata : Matched m g data) (hi : i ∈ data.nodes k id) :
    Genuine m g k id i := by
  induction k using Nat.strong_induction_on generalizing id i with
  | _ k ih =>
    obtain ⟨c, n, hn, hsubs⟩ := hdata.tested k id i hi
    have hidx : ∀ j : Nat, ∃ i', ∀ sub operand, c.submatchers[j]? = some sub →
        n.operands[j]? = some operand → Genuine m g sub operand i' := by
      intro j
      cases hsub : c.submatchers[j]? with
      | none => exact ⟨0, fun _ _ hsub' => by cases hsub'⟩
      | some sub =>
        cases hopd : n.operands[j]? with
        | none => exact ⟨0, fun _ _ _ hopd' => by cases hopd'⟩
        | some operand =>
          obtain ⟨hlt, i', hi'⟩ := hsubs j sub operand hsub hopd
          refine ⟨i', ?_⟩
          rintro _ _ ⟨⟩ ⟨⟩
          exact ih sub hlt hi'
    choose index hidx using hidx
    exact .intro hn index hidx

theorem Matched.exists_mem (hdata : Matched m g data)
    (hkey : (data[k]?).any (fun matched => (matched.lookup id).isSome) = true) :
    ∃ i, i ∈ data.nodes k id := by
  obtain ⟨matched, hk, hsome⟩ := (Option.any_eq_true _ _).mp hkey
  obtain ⟨indices, hl⟩ := isSome_iff_exists.mp hsome
  obtain ⟨i, hi⟩ := exists_mem_of_ne_nil indices (hdata.keys k matched hk id indices hl)
  exact ⟨i, MatchData.mem_nodes.mpr ⟨matched, indices, hk, hl, hi⟩⟩

theorem Matched.submatch_cases (hdata : Matched m g data) (hsub : submatch data c n = true) :
    (c.submatchers = [] ∨ c.submatchers.length = n.operands.length) ∧
      ∀ (j sub operand : Nat), c.submatchers[j]? = some sub → n.operands[j]? = some operand →
        sub < data.length ∧ ∃ i, i ∈ data.nodes sub operand := by
  simp only [submatch, Bool.or_eq_true, Bool.and_eq_true, decide_eq_true_eq,
    List.all_eq_true] at hsub
  refine ⟨hsub.imp_right And.left, fun j sub operand hj hopd => ?_⟩
  rcases hsub with hnil | ⟨-, hzip⟩
  · rw [hnil] at hj
    cases hj
  · have hkey := hzip (sub, operand) (mem_of_getElem? (i := j)
      (List.getElem?_zip_eq_some.mpr ⟨hj, hopd⟩))
    obtain ⟨i, hi⟩ := hdata.exists_mem hkey
    exact ⟨MatchData.lt_of_mem_nodes hi, i, hi⟩

theorem Tested.append (ht : Tested m g data k id i) (matched : Map Nat (List Nat)) :
    Tested m g (data ++ [matched]) k id i := by
  obtain ⟨c, n, hn, hsubs⟩ := ht
  refine ⟨c, n, hn, fun j sub operand hsub hopd => ?_⟩
  obtain ⟨hlt, i', hi'⟩ := hsubs j sub operand hsub hopd
  exact ⟨hlt, i', by rwa [MatchData.nodes_append_left (MatchData.lt_of_mem_nodes hi')]⟩

theorem matchClause_exists {r : MatchData × EGraphMatcher} (hc : m.subclauses[r.1.length]? = some c)
    (hdata : Matched m r.2.graph r.1) (hwell : r.2.graph.WellFormed)
    (hup : ∀ k p, p ∈ r.2.entries k → UpToDate m r.2.graph k p) : ∃ matched, matchClause h r c =
        some (r.1 ++ [matched], { r.2 with graph := r.2.graph.tick }) ∧
      Matched m r.2.graph (r.1 ++ [matched]) := by
  have hget : ∀ k p, p ∈ r.2.entries k → ∃ cls n, r.2.graph.get p.1 = some cls ∧
      cls.nodes[p.2]? = some n ∧ Matches m k n := by
    intro k p hp
    obtain ⟨hroot, cls, n, hcls, hn, hmatch⟩ := hup k p hp
    exact ⟨cls, n, get_eq_some.mpr ⟨hwell.lt hcls, by rwa [hroot]⟩, hn, hmatch⟩
  obtain ⟨matched, hrun, -⟩ := foldlM_exists (fun _ : Map Nat (List Nat) => True)
    (f := matchPotential r.2.graph r.1 c) (s := ∅)
    (l := h.order r.2.graph.trace.clock (r.2.entries r.1.length)) (fun t p hp _ => by
      obtain ⟨cls, n, hcls, hn, -⟩ := hget _ p ((HashOrder.mem_order h).mp hp)
      simp only [matchPotential, hcls, hn, some_bind]
      split_ifs
      · exact ⟨_, rfl, trivial⟩
      · exact ⟨_, rfl, trivial⟩) trivial
  have hcases := matchPotentials_cases hrun
  have hlast : ∀ id i, i ∈ (matched.lookup id).getD [] →
      Tested m r.2.graph r.1 r.1.length id i := by
    intro id i hi
    obtain ⟨indices, hl⟩ : ∃ indices, matched.lookup id = some indices := by
      cases hl : matched.lookup id with
      | none =>
        rw [hl] at hi
        cases hi
      | some indices => exact ⟨indices, rfl⟩
    rw [hl] at hi
    obtain ⟨hent, cls, n, hcls, hn, hsub⟩ := (hcases id indices hl).2 i hi
    obtain ⟨hroot, cls', n', hcls', hn', c', hc', haccs⟩ :=
      hup _ _ ((HashOrder.mem_order h).mp hent)
    have hlook := (get_eq_some.mp hcls).2
    rw [hroot] at hlook
    cases Map.lookup_unique hlook hcls'
    cases hn.symm.trans hn'
    cases hc.symm.trans hc'
    obtain ⟨harity, hsubs⟩ := hdata.submatch_cases hsub
    exact ⟨c, n, ⟨hc, hroot, ⟨cls, hlook, hn⟩, haccs, harity⟩, hsubs⟩
  refine ⟨matched, ?_, ?_, ?_⟩
  · simp only [matchClause, bind_eq_bind]
    exact bind_eq_some_iff.mpr ⟨matched, hrun, rfl⟩
  · intro k matched' hk id indices hl
    rcases Nat.lt_or_ge k r.1.length with hlt | hge
    · rw [List.getElem?_append_left hlt] at hk
      exact hdata.keys k matched' hk id indices hl
    · rw [List.getElem?_append_right hge] at hk
      have hzero : k - r.1.length = 0 := by
        have hlt := (List.getElem?_eq_some_iff.mp hk).1
        rw [length_singleton] at hlt
        omega
      rw [hzero] at hk
      cases hk
      exact (hcases id indices hl).1
  · intro k id i hi
    have hlt := MatchData.lt_of_mem_nodes hi
    rw [length_append, length_singleton] at hlt
    rcases Nat.lt_or_ge k r.1.length with hk | hk
    · rw [MatchData.nodes_append_left hk] at hi
      exact (hdata.tested k id i hi).append matched
    · obtain rfl : k = r.1.length := by omega
      rw [MatchData.nodes_append_last] at hi
      exact (hlast id i hi).append matched

theorem findMatches_exists (h : HashOrder) (hwell : s.graph.WellFormed)
    (hup : ∀ k p, p ∈ s.entries k → UpToDate m s.graph k p) :
    ∃ data s', s.findMatches h m = some (data, s') ∧ data.length = m.subclauses.length ∧
      Matched m s'.graph data := by
  have hstart : Matched m s.graph [] := by
    refine ⟨fun k matched hk => ?_, fun k id i hi => ?_⟩
    · rw [List.getElem?_nil] at hk
      cases hk
    · cases MatchData.lt_of_mem_nodes hi
  have hstep : ∀ done c rest (r : MatchData × EGraphMatcher), m.subclauses = done ++ c :: rest →
      r.1.length = done.length ∧ Matched m r.2.graph r.1 ∧ Ticked s r.2 →
      ∃ r', matchClause h r c = some r' ∧ r'.1.length = (done ++ [c]).length ∧
        Matched m r'.2.graph r'.1 ∧ Ticked s r'.2 := by
    rintro done c rest ⟨data, t⟩ hm ⟨hlen, hdata, ht⟩
    have hc : m.subclauses[data.length]? = some c := by
      rw [hm, show data.length = done.length from hlen]
      simp
    have hwell' : t.graph.WellFormed := by
      obtain ⟨clock, rfl⟩ := ht
      exact hwell.of_eq rfl rfl rfl hwell.worklist hwell.updated
    have hup' : ∀ k p, p ∈ t.entries k → UpToDate m t.graph k p := by
      obtain ⟨clock, rfl⟩ := ht
      exact hup
    obtain ⟨matched, hrun, hmatched⟩ := matchClause_exists (h := h) hc hdata hwell' hup'
    refine ⟨_, hrun, ?_, hmatched.of_eq rfl rfl, ht.tick⟩
    rw [length_append, length_append, hlen]
    rfl
  obtain ⟨⟨data, t⟩, hrun, hlen, hdata, -⟩ := foldlM_exists_done
    (fun done (r : MatchData × EGraphMatcher) => r.1.length = done.length ∧
      Matched m r.2.graph r.1 ∧ Ticked s r.2) hstep (s := ([], s)) ⟨rfl, hstart, Ticked.refl s⟩
  exact ⟨data, t, hrun, hlen, hdata⟩

/-! ### Work items -/

theorem NodeMatch.get (hwell : g.WellFormed) (hn : NodeMatch m g k id i c n) :
    id < g.size ∧ ∃ cls, g.get id = some cls ∧ cls.nodes[i]? = some n := by
  obtain ⟨cls, hcls, hnode⟩ := hn.node
  exact ⟨hwell.lt hcls, cls, get_eq_some.mpr ⟨hwell.lt hcls, by rwa [hn.root]⟩, hnode⟩

theorem NodeMatch.opcode (hn : NodeMatch m g k id i c n) :
    c.opcode = none ∨ c.opcode = some n.opcode := by
  have haccs := hn.accepts
  simp only [SubClause.isPotentialMatch, Bool.and_eq_true, Bool.or_eq_true,
    decide_eq_true_eq] at haccs
  exact haccs.1

theorem classItems_exists (hwell : g.WellFormed) (hdata : Matched m g data)
    (hc : m.subclauses[k]? = some c) {matched : Map Nat (List Nat)}
    (hmatched : data[k]? = some matched) {p : Nat × List Nat} (hp : matched.lookup p.1 = some p.2)
    (clause : Nat) : ∃ items, classItems g c clause p = some items := by
  have hnode : ∀ i ∈ p.2, ∃ n, NodeMatch m g k p.1 i c n := by
    intro i hi
    obtain ⟨c', n, hn, -⟩ :=
      hdata.tested k p.1 i (MatchData.mem_nodes.mpr ⟨matched, p.2, hmatched, hp, hi⟩)
    cases hc.symm.trans hn.clause
    exact ⟨n, hn⟩
  obtain ⟨i, hi⟩ := exists_mem_of_ne_nil p.2 (hdata.keys k matched hmatched p.1 p.2 hp)
  obtain ⟨n, hn⟩ := hnode i hi
  have hfind : g.find p.1 = some (g.root p.1) := find_eq_some.mpr ⟨(hn.get hwell).1, rfl⟩
  simp only [classItems, hfind, bind_eq_bind, bind_some]
  split_ifs
  · exact ⟨_, rfl⟩
  · refine (mapM_exists (R := fun _ _ => True) fun i hi => ?_).imp fun _ => And.left
    obtain ⟨n, hn⟩ := hnode i hi
    obtain ⟨-, cls, hcls, hnode⟩ := hn.get hwell
    rw [hcls, bind_some, hnode, bind_some, if_pos hn.opcode]
    exact ⟨_, rfl, trivial⟩

theorem matchingWorkItems_exists (h : HashOrder) (hm : m.Valid) (hwell : s.graph.WellFormed)
    (hlen : data.length = m.subclauses.length) (hdata : Matched m s.graph data) :
    ∃ work s', matchingWorkItems h m data s = some (work, s') := by
  have hstep : ∀ (r : List WorkItem × EGraphMatcher) p, p ∈ m.clauses.zipIdx → Ticked s r.2 →
      ∃ r', clauseItems h m data r p = some r' ∧ Ticked s r'.2 := by
    rintro ⟨work, t⟩ ⟨clause, index⟩ hp ht
    have hlt := hm.matchers clause (mem_of_getElem? (mem_zipIdx_iff_getElem?.mp hp))
    have hc := List.getElem?_eq_getElem hlt
    have hmatched := List.getElem?_eq_getElem (hlen.symm ▸ hlt : clause.matcher < data.length)
    have hwell' : t.graph.WellFormed := by
      obtain ⟨clock, rfl⟩ := ht
      exact hwell.of_eq rfl rfl rfl hwell.worklist hwell.updated
    have hdata' : Matched m t.graph data := by
      obtain ⟨clock, rfl⟩ := ht
      exact hdata.of_eq rfl rfl
    obtain ⟨items, hitems, -⟩ := mapM_exists (R := fun _ _ => True)
      (l := h.order t.graph.trace.clock (data[clause.matcher]).pairs)
      fun p hp => (classItems_exists hwell' hdata' hc hmatched
        (Map.mem_pairs.mp ((HashOrder.mem_order h).mp hp)) index).imp fun _ hi => ⟨hi, trivial⟩
    refine ⟨(work ++ items.flatten, { t with graph := t.graph.tick }), ?_, ht.tick⟩
    simp only [clauseItems, hc, hmatched, hitems, some_bind]
  obtain ⟨⟨work, s'⟩, hrun, -⟩ := foldlM_exists (fun r : List WorkItem × EGraphMatcher =>
    Ticked s r.2) hstep (s := ([], s)) (Ticked.refl s)
  exact ⟨work, s', hrun⟩

/-! ### Captures -/

def Total (a₀ : GraphAccessor) (func : Callback) : Prop :=
  ∀ captures a, Calls a₀ a → ∃ a', func captures a = some a' ∧ Calls a a'

variable {a₀ : GraphAccessor} {func : Callback}

theorem iterate_total (impl : Nat → Nat → Callback → Callback) (hfunc : Total a₀ func)
    {subs ops : List Nat} (hlen : subs = [] ∨ subs.length = ops.length)
    (himpl : ∀ (j sub operand : Nat), subs[j]? = some sub → ops[j]? = some operand →
      ∀ func, Total a₀ func → Total a₀ (impl sub operand func)) :
    Total a₀ (iterate impl subs ops func) := by
  induction subs generalizing ops with
  | nil => exact hfunc
  | cons sub subs ih =>
    cases ops with
    | nil => rcases hlen with hlen | hlen <;> cases hlen
    | cons operand ops =>
      have hlen' : subs.length = ops.length := by
        rcases hlen with hlen | hlen
        · cases hlen
        · exact Nat.succ.inj hlen
      exact himpl 0 sub operand rfl rfl _ (ih (.inr hlen') fun j => himpl (j + 1))

theorem allCapturesImpl_total (hm : m.captures.length = m.subclauses.length) (hwell : g.WellFormed)
    (hdata : Matched m g data) (hsame : SameNodes g a₀.graph) {fuel sub : Nat} (hfuel : sub < fuel)
    {eclass : Nat} (hi : i ∈ data.nodes sub eclass) (hfunc : Total a₀ func) :
    Total a₀ (allCapturesImpl m data fuel sub eclass func) := by
  induction fuel generalizing sub eclass i func with
  | zero => cases hfuel
  | succ fuel ih =>
    intro captures a ha
    obtain ⟨c, n, hn, -⟩ := hdata.tested sub eclass i hi
    obtain ⟨-, cls, hcls, -⟩ := hn.get hwell
    obtain ⟨cls', hcls', hnodes⟩ := (hsame.trans ha.sameNodes) eclass cls hcls
    have hlt : sub < m.captures.length := hm ▸ (List.getElem?_eq_some_iff.mp hn.clause).1
    simp only [allCapturesImpl, List.getElem?_eq_getElem hlt, hn.clause, hcls',
      bind_eq_bind, bind_some]
    by_cases hcapd : m.captures[sub] = true
    · rw [if_pos hcapd]
      refine foldlM_exists (Calls a) (fun b index hidx hb => ?_) (Calls.refl a)
      obtain ⟨c', node, hnode, hsubs⟩ := hdata.tested sub eclass index hidx
      cases hn.clause.symm.trans hnode.clause
      obtain ⟨-, cls'', hcls'', hat⟩ := hnode.get hwell
      cases hcls.symm.trans hcls''
      rw [hnodes, hat, bind_some]
      have hiter := iterate_total (allCapturesImpl m data fuel) hfunc hnode.arity
        fun j s o hs ho func hfunc => ih ((hsubs j s o hs ho).1.trans_le (Nat.le_of_lt_succ hfuel))
          (hsubs j s o hs ho).2.choose_spec hfunc
      obtain ⟨b', hb', hcalls⟩ := hiter (if c.isCapture then captures.push sub node else captures)
        (b.observe c.opcode node) (ha.trans (hb.trans (Calls.observe _ _ _)))
      exact ⟨b', hb', hb.trans ((Calls.observe _ _ _).trans hcalls)⟩
    · rw [if_neg hcapd]
      exact hfunc captures a ha

theorem allCaptures_total (hm : m.captures.length = m.subclauses.length) (hwell : g.WellFormed)
    (hdata : Matched m g data) (hsame : SameNodes g a₀.graph) (hi : i ∈ data.nodes k id)
    (hfunc : Total a₀ func) : ∃ a', allCaptures m data k id i func a₀ = some a' := by
  obtain ⟨c, n, hn, hsubs⟩ := hdata.tested k id i hi
  obtain ⟨-, cls, hcls, hat⟩ := hn.get hwell
  obtain ⟨cls', hcls', hnodes⟩ := hsame id cls hcls
  have hnode : a₀.node id i = some n := by
    simp only [GraphAccessor.node, hcls', some_bind, hnodes, hat]
  have hk : k < m.subclauses.length := (List.getElem?_eq_some_iff.mp hn.clause).1
  have hlt : k < m.captures.length := hm ▸ hk
  simp only [allCaptures, hnode, hn.clause, List.getElem?_eq_getElem hlt, some_bind]
  split_ifs
  · have hiter := iterate_total (allCapturesImpl m data m.subclauses.length) hfunc hn.arity
      fun j s o hs ho func hfunc => allCapturesImpl_total hm hwell hdata hsame
        ((hsubs j s o hs ho).1.trans hk) (hsubs j s o hs ho).2.choose_spec hfunc
    exact (hiter _ a₀ (Calls.refl a₀)).imp fun _ => And.left
  · exact (hfunc _ a₀ (Calls.refl a₀)).imp fun _ => And.left

/-! ### Runs -/

def RoundStep (h : HashOrder) (m : EMatcher) (s s' : EGraphMatcher) : Prop :=
  ∃ s1 data s2 work s3 a g p fuel g', s.updatePotentialMatches h m = some s1 ∧
    s1.findMatches h m = some (data, s2) ∧ matchingWorkItems h m data s2 = some (work, s3) ∧
    Calls { graph := { s3.graph with updated := [] }, events := s3.events } a ∧
    a.persist = some g ∧ g.constprop h = some p ∧ p.graph.rebuild h fuel = some g' ∧
    s' = { s3 with graph := g', events := a.events }

theorem round_roundStep {cache : OperationCache} {fuel : Nat}
    (hrun : s.round h m cache fuel = some s') : RoundStep h m s s' := by
  obtain ⟨s1, data, s2, work, s3, a, g, p, g', h1, h2, h3, ha, hg, hp, hg', rfl⟩ :=
    round_cases hrun
  have hcalls := foldlM_invariant (Calls _)
    (fun _ _ _ _ hb ih => ih.trans (workOn_calls hb)) ha (Calls.refl _)
  exact ⟨s1, data, s2, work, s3, a, g, p, fuel, g', h1, h2, h3, hcalls, hg, hp, hg', rfl⟩

/-- The states of `simplify` at the head of the loop, in runs whose earlier rounds start in states
with `C`. -/
inductive LoopHead (h : HashOrder) (m : EMatcher) (C : EGraphMatcher → Prop) (g : EGraph) :
    EGraphMatcher → Prop
  | start {p : EGraphConstantPropagator} {fuel : Nat} {g' : EGraph} (hp : g.constprop h = some p)
    (hg : p.graph.rebuild h fuel = some g') : LoopHead h m C g { graph := g' }
  | round {s s' : EGraphMatcher} (hs : LoopHead h m C g s) (hc : C s)
    (hup : s.graph.updated ≠ []) (hr : RoundStep h m s s') : LoopHead h m C g s'

theorem RoundStep.headOk (hs : HeadOk m s) (hcur : s.Current) (hr : RoundStep h m s s') :
    HeadOk m s' := by
  obtain ⟨s1, data, s2, work, s3, a, g, p, fuel, g', h1, h2, h3, hcalls, hg, hp, hg', rfl⟩ := hr
  obtain ⟨s1', h1', hgr, hlisted, hup⟩ := updatePotentialMatches_upToDate h hs hcur
  cases h1.symm.trans h1'
  obtain ⟨clock2, rfl⟩ := (findMatches_ok h2).2
  obtain ⟨clock3, rfl⟩ := (matchingWorkItems_ok h3).2
  obtain ⟨graph, potentials, reversed, events⟩ := s1
  obtain rfl : graph = s.graph.tick := hgr
  have hstart := hs.reachable.startRound clock3 hs.worklist
  have hrch := GraphAccessor.persist_reachable (hcalls.reachable hstart) hg
  have hbegin : Logged { s.graph with updated := [], trace.clock := clock3 } _ _ :=
    .start hs.worklist
  have hlogged := ((hbegin.calls hcalls).persist hg).constprop hrch.wellFormed hp |>.rebuild hg'
  refine ⟨(hrch.constprop hp).rebuild hg', ((hrch.constprop hp).wellFormed.rebuild hg').2.2,
    hlisted, fun k q hq hroot hnot => ?_⟩
  obtain ⟨-, cls, n, hcls, hn, hmatch⟩ := hup k q hq
  obtain ⟨c, hc, heq⟩ := hlogged.nodes q.1 cls hcls hroot hnot
  exact ⟨hroot, c, n, hc, heq.symm ▸ hn, hmatch⟩

theorem LoopHead.headOk (hg : g.Reachable) (hs : LoopHead h m Current g s) : HeadOk m s := by
  induction hs with
  | start hp hg' =>
    have hrch := hg.constprop hp
    refine ⟨hrch.rebuild hg', (hrch.wellFormed.rebuild hg').2.2, ?_, ?_⟩
    · intro k p hp
      simp [entries] at hp
    · intro k p hp
      simp [entries] at hp
  | round _ hcur _ hr ih => exact hr.headOk ih hcur

/-- If at the head of every round the classes with potential matches are live or updated, all
matches are genuine and no lookup fails. -/
theorem loopHead_genuine (h : HashOrder) (m : EMatcher) (hm : m.Valid) (g : EGraph)
    (hg : g.Reachable) (s : EGraphMatcher) (hs : LoopHead h m Current g s) (hcur : s.Current) :
    ∃ s1 data s2 work s3, s.updatePotentialMatches h m = some s1 ∧
      s1.findMatches h m = some (data, s2) ∧ matchingWorkItems h m data s2 = some (work, s3) ∧
      (∀ k id i, i ∈ data.nodes k id → Genuine m s2.graph k id i) ∧
      ∀ w ∈ work, ∀ clause, m.clauses[w.clause]? = some clause → ∀ a,
        Calls { graph := { s3.graph with updated := [] }, events := s3.events } a →
        ∀ func, Total a func →
          ∃ a', allCaptures m data clause.matcher w.eclass w.enode func a = some a' := by
  have hhead := hs.headOk hg
  obtain ⟨s1, h1, hgr, -, hup⟩ := updatePotentialMatches_upToDate h hhead hcur
  have hwell := hhead.reachable.wellFormed.tick
  rw [← hgr] at hwell
  have hup' : ∀ k p, p ∈ s1.entries k → UpToDate m s1.graph k p := by
    rw [hgr]
    exact hup
  obtain ⟨data, s2, h2, hlen, hdata⟩ := findMatches_exists h hwell hup'
  obtain ⟨clock2, rfl⟩ := (findMatches_ok h2).2
  have hwell2 : EGraph.WellFormed { s1.graph with trace.clock := clock2 } :=
    hwell.of_eq rfl rfl rfl hwell.worklist hwell.updated
  obtain ⟨work, s3, h3⟩ := matchingWorkItems_exists h hm hwell2 hlen hdata
  obtain ⟨hitems, clock3, rfl⟩ := matchingWorkItems_ok h3
  refine ⟨s1, data, _, work, _, h1, h2, h3, fun k id i hi => hdata.genuine hi, ?_⟩
  intro w hw clause hclause a ha func hfunc
  obtain ⟨clause', matched, indices, hclause', hmatched, hl, henode, -⟩ := hitems w hw
  cases hclause.symm.trans hclause'
  have hsame := (SameNodes.of_eq rfl rfl).trans ha.sameNodes
  exact allCaptures_total hm.captures hwell2 hdata hsame
    (MatchData.mem_nodes.mpr ⟨matched, indices, hmatched, hl, henode⟩) hfunc

section Samples

variable (C : EGraphMatcher → Prop) [DecidablePred C]

def guardedRound (s : EGraphMatcher) (_ : Nat) : Option EGraphMatcher :=
  if C s ∧ s.graph.updated ≠ [] then s.round .insertion .integerDefaults .full 20 else none

def headAfter (rounds : Nat) (e : Operation) : Option (EGraph × EGraphMatcher) := do
  let r ← addOperands {} [e]
  let p ← r.2.constprop .insertion
  let g ← p.graph.rebuild .insertion 20
  let s ← (List.range rounds).foldlM (guardedRound C) { graph := g }
  some (r.2, s)

variable {C}

theorem headAfter_loopHead {rounds : Nat} {e : Operation} {r : EGraph × EGraphMatcher}
    (hr : headAfter C rounds e = some r) :
    r.1.Reachable ∧ LoopHead .insertion .integerDefaults C r.1 r.2 := by
  simp only [headAfter, bind_eq_some, some.injEq] at hr
  obtain ⟨q, hadd, p, hp, g, hg, s, hs, rfl⟩ := hr
  refine ⟨Reachable.empty.addOperands hadd, ?_⟩
  refine foldlM_invariant (LoopHead .insertion .integerDefaults C q.2) ?_ hs (.start hp hg)
  intro t _ t' _ ht hhead
  unfold guardedRound at ht
  split_ifs at ht with hc
  exact .round hhead hc.1 hc.2 (round_roundStep ht)

end Samples

theorem integerDefaults_valid : EMatcher.integerDefaults.Valid :=
  EMatcherBuilder.build_valid (by decide +kernel)

/-- `x + y` after one round: the class of `y + x` has been absorbed, and both nodes match in the
other one. -/
theorem loopHead_genuine_add :
    let x := fun i : Nat => Operation.constant (.int 8) (.numbered i)
    ∃ r, headAfter Current 1 (.mk (.binary .add (.int 8)) [x 0, x 1]) = some r ∧
      ∃ s1 data s2, r.2.updatePotentialMatches .insertion .integerDefaults = some s1 ∧
        s1.findMatches .insertion .integerDefaults = some (data, s2) ∧ data.nodes 0 2 = [0, 1] ∧
        ∀ k id i, i ∈ data.nodes k id → Genuine .integerDefaults s2.graph k id i := by
  intro x
  obtain ⟨r, hr, hdata⟩ := map_eq_some_iff.mp (show (headAfter Current 1
    (.mk (.binary .add (.int 8)) [x 0, x 1])).map (fun r => decide (r.2.Current ∧
      ((r.2.updatePotentialMatches .insertion .integerDefaults).bind (fun s =>
        s.findMatches .insertion .integerDefaults)).map (fun q => q.1.nodes 0 2) =
        some [0, 1])) = some true by decide +kernel)
  obtain ⟨hcur, hnodes⟩ := of_decide_eq_true hdata
  obtain ⟨hrch, hhead⟩ := headAfter_loopHead hr
  obtain ⟨s1, data, s2, -, -, h1, h2, -, hgenuine, -⟩ :=
    loopHead_genuine _ _ integerDefaults_valid r.1 hrch r.2 hhead hcur
  rw [h1, bind_some, h2] at hnodes
  exact ⟨r, hr, s1, data, s2, h1, h2, some.inj hnodes, hgenuine⟩

/-- `select(z ^ z, b, x == select(z ^ z, w, x))`: the comparison is absorbed, matched under its
old id, and then its second node is looked for. -/
theorem loopHead_stale_entries :
    let sym := fun w i : Nat => Operation.constant (.int w) (.numbered i)
    let zero := Operation.mk (.binary .xor (.int 1)) [sym 1 0, sym 1 0]
    let inner := Operation.mk (.select (.int 8)) [zero, sym 8 2, sym 8 1]
    let e := Operation.mk (.select (.int 1))
      [zero, sym 1 3, .mk (.icmp .eq) [sym 8 1, inner]]
    (∃ r s1 data s2, headAfter (fun _ => True) 2 e = some r ∧ r.2.graph.updated ≠ [] ∧
      r.2.updatePotentialMatches .insertion .integerDefaults = some s1 ∧
      s1.findMatches .insertion .integerDefaults = some (data, s2) ∧
      0 ∈ data.nodes 5 6 ∧ s2.graph.root 6 = 7) ∧
    ∃ r s1, headAfter (fun _ => True) 3 e = some r ∧
      LoopHead .insertion .integerDefaults (fun _ => True) r.1 r.2 ∧ r.1.Reachable ∧
      r.2.graph.updated ≠ [] ∧
      r.2.updatePotentialMatches .insertion .integerDefaults = some s1 ∧
      s1.findMatches .insertion .integerDefaults = none := by
  intro sym zero inner e
  constructor
  · obtain ⟨r, hr, hdata⟩ := map_eq_some_iff.mp (show (headAfter (fun _ => True) 2 e).map
      (fun r => decide (r.2.graph.updated ≠ [] ∧
        ((r.2.updatePotentialMatches .insertion .integerDefaults).bind (fun s =>
          s.findMatches .insertion .integerDefaults)).map (fun q =>
            decide (0 ∈ q.1.nodes 5 6 ∧ q.2.graph.root 6 = 7)) = some true)) = some true by
      decide +kernel)
    obtain ⟨hup, hmatch⟩ := of_decide_eq_true hdata
    obtain ⟨⟨data, s2⟩, hfind, hmem⟩ := map_eq_some_iff.mp hmatch
    obtain ⟨s1, h1, h2⟩ := bind_eq_some_iff.mp hfind
    exact ⟨r, s1, data, s2, hr, hup, h1, h2, of_decide_eq_true hmem⟩
  · obtain ⟨r, hr, hdata⟩ := map_eq_some_iff.mp (show (headAfter (fun _ => True) 3 e).map
      (fun r => decide (r.2.graph.updated ≠ [] ∧
        (r.2.updatePotentialMatches .insertion .integerDefaults).map (fun s =>
          (s.findMatches .insertion .integerDefaults).isNone) = some true)) = some true by
      decide +kernel)
    obtain ⟨hup, hfails⟩ := of_decide_eq_true hdata
    obtain ⟨s1, h1, h2⟩ := map_eq_some_iff.mp hfails
    obtain ⟨hrch, hhead⟩ := headAfter_loopHead hr
    exact ⟨r, s1, hr, hhead, hrch, hup, h1, isNone_iff_eq_none.mp h2⟩

end EGraphMatcher

end Caffeine
