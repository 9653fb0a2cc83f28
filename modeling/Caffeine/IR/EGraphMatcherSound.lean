import Caffeine.IR.EMatchingSound

/-!
# Soundness of equality saturation

The potential matches of a class say what values it has had, and those of an updated class are up to
date. So a round of equality saturation, and a whole run, keeps the graph sound as long as no event
is logged.
-/

namespace Caffeine

open EGraph Semantics GraphAccessor List Option

variable {w : WorkItem}

namespace EGraphMatcher

variable {σ : Assignment} {V : Nat → Val} {m : EMatcher}

section Captures

variable {data : MatchData} {func : Callback} {captures : CapturesMap} {a a' : GraphAccessor}

theorem iterate_uncaptured {fuel : Nat} {subs ops : List Nat}
    (hsubs : ∀ s ∈ subs, m.captures[s]? = some false)
    (h : iterate (allCapturesImpl m data fuel) subs ops func captures a = some a') :
    func captures a = some a' := by
  induction subs generalizing ops with
  | nil => exact h
  | cons s subs ih =>
    cases ops with
    | nil => cases h
    | cons o ops =>
      cases fuel with
      | zero => cases h
      | succ fuel =>
        simp only [iterate, allCapturesImpl, hsubs s mem_cons_self, some_bind, Bool.false_eq_true,
          if_false] at h
        exact ih (fun s hs => hsubs s (mem_cons_of_mem _ hs)) h

def CallbackCalls (func : Callback) : Prop :=
  ∀ captures a a', func captures a = some a' → Calls a a'

theorem iterate_calls {impl : Nat → Nat → Callback → Callback}
    (himpl : ∀ s o func, CallbackCalls func → CallbackCalls (impl s o func))
    (hfunc : CallbackCalls func) (subs ops : List Nat) :
    CallbackCalls (iterate impl subs ops func) := by
  induction subs generalizing ops with
  | nil => exact hfunc
  | cons s subs ih =>
    cases ops with
    | nil => exact fun captures a a' h => by cases h
    | cons o ops => exact himpl s o _ (ih ops)

theorem allCapturesImpl_calls (fuel sub eclass : Nat) (hfunc : CallbackCalls func) :
    CallbackCalls (allCapturesImpl m data fuel sub eclass func) := by
  induction fuel generalizing sub eclass func with
  | zero => exact fun captures a a' h => by cases h
  | succ fuel ih =>
    intro captures a a' h
    simp only [allCapturesImpl, bind_eq_bind, bind_eq_some_iff] at h
    obtain ⟨captured, -, h⟩ := h
    split_ifs at h
    · simp only [bind_eq_some_iff] at h
      obtain ⟨c, -, cls, -, h⟩ := h
      refine foldlM_invariant (Calls a) (fun b index b' _ hb hcalls => ?_) h (Calls.refl a)
      obtain ⟨node, -, hb⟩ := bind_eq_some_iff.mp hb
      exact hcalls.trans ((Calls.observe _ _ _).trans (iterate_calls
        (fun s o func hfunc => ih s o hfunc) hfunc _ _ _ _ _ hb))
    · exact hfunc captures a a' h

theorem allCaptures_calls (hfunc : CallbackCalls func) {sub eclass enode : Nat}
    (h : allCaptures m data sub eclass enode func a = some a') : Calls a a' := by
  simp only [allCaptures, bind_eq_some] at h
  obtain ⟨n, -, c, -, captured, -, h⟩ := h
  split_ifs at h
  · exact iterate_calls (fun s o func hfunc => allCapturesImpl_calls _ s o hfunc) hfunc _ _ _ _ _ h
  · exact hfunc _ _ _ h

theorem allCapturesImpl_cases {fuel sub eclass : Nat} {d : SubClause}
    (hcap : m.captures[sub]? = some true) (hd : m.subclauses[sub]? = some d)
    (hcapture : d.isCapture = true) (hsubs : ∀ s ∈ d.submatchers, m.captures[s]? = some false)
    (h : allCapturesImpl m data fuel sub eclass func captures a = some a') :
    ∃ cls, a.graph.get eclass = some cls ∧
      ∃ f : GraphAccessor → Nat → Option GraphAccessor,
        (data.nodes sub eclass).foldlM f a = some a' ∧
        ∀ b index b', f b index = some b' → ∃ node, cls.nodes[index]? = some node ∧
          func (captures.push sub node) (b.observe d.opcode node) = some b' := by
  cases fuel with
  | zero => cases h
  | succ fuel =>
    simp only [allCapturesImpl, hcap, hd, hcapture, bind_eq_bind, bind_some,
      if_true, bind_eq_some_iff] at h
    obtain ⟨cls, hcls, h⟩ := h
    refine ⟨cls, hcls, _, h, ?_⟩
    intro b index b' hb
    obtain ⟨node, hnode, hb⟩ := bind_eq_some_iff.mp hb
    exact ⟨node, hnode, iterate_uncaptured hsubs hb⟩

end Captures

section Work

variable {g : EGraph} {cache : OperationCache} {fuel : Nat} {data : MatchData} {clause : Clause}
  {eclass enode : Nat} {c : SubClause} {cls : EClass} {n : ENode} {a a' : GraphAccessor}

theorem capturesFirst_of_fits {top : Nat} {rewrite : Rewrite} (hcap : rewrite.isCapturing = true)
    (hfits : m.fitsClause top c rewrite = true) :
    ∃ sub opcode, m.capturesFirst top c sub opcode = true := by
  cases rewrite <;> first | (cases hcap; done) | skip
  all_goals
    simp only [EMatcher.fitsClause, Bool.and_eq_true] at hfits
    exact ⟨_, _, hfits.2⟩

theorem workOn_calls (h : workOn m cache fuel data a w = some a') : Calls a a' := by
  simp only [workOn, bind_eq_some] at h
  obtain ⟨clause, -, h⟩ := h
  exact allCaptures_calls (fun _ _ _ happly => Rewrite.apply_calls happly) h

theorem allCaptures_step (hnode : ∀ i, σ.node i = V i) (hfits : m.fits clause = true)
    (hc : m.subclauses[clause.matcher]? = some c) (hcls : g.get eclass = some cls)
    (hn : cls.nodes[enode]? = some n) (hmatch : c.isPotentialMatch n = true)
    (hzero : ∀ sub operand, c.submatchers[1]? = some sub → n.operands[1]? = some operand →
      m.isZero sub = true → ∃ w, V operand = .int ⟨w, 0#w⟩)
    (hholds : Holds σ V eclass n)
    (h : allCaptures m data clause.matcher eclass enode (fun captures a =>
      clause.update.apply cache fuel data captures eclass enode a) a = some a') :
    Step σ V g a a' := by
  refine ⟨allCaptures_calls (fun _ _ _ happly => Rewrite.apply_calls happly) h, fun ha hv he => ?_⟩
  simp only [EMatcher.fits, hc, any_some, Bool.and_eq_true, decide_eq_true_eq] at hfits
  obtain ⟨hcap, hfits⟩ := hfits
  simp only [allCaptures, bind_eq_some] at h
  obtain ⟨n', hn', c', hc', captured, hcapd, h⟩ := h
  obtain rfl := ha.node_eq hcls hn hn'
  cases hc.symm.trans hc'
  cases hcap.symm.trans hcapd
  cases hcapturing : clause.update.isCapturing with
  | false =>
    rw [hcapturing] at h
    exact Rewrite.apply_sound hcapturing hfits hcls hn hmatch hzero ha hholds h hv he
  | true =>
    rw [hcapturing] at h
    obtain ⟨sub, opcode, hfst⟩ := capturesFirst_of_fits hcapturing hfits
    obtain ⟨rest, d, hsubs, -, htrue, hrest, hd, hcapture, hopcode, hinner⟩ :=
      EMatcher.capturesFirst_cases hfst
    rw [if_pos rfl, hsubs] at h
    cases hops : n'.operands with
    | nil =>
      rw [hops] at h
      cases h
    | cons operand operands =>
      rw [hops] at h
      obtain ⟨cls', hcls', f, hfold, hf⟩ :=
        allCapturesImpl_cases htrue hd hcapture hinner h
      refine (Step.foldlM (fun b index b' _ hb => ?_) hfold).ok ha hv he
      obtain ⟨node, hnode', hb⟩ := hf b index b' hb
      have happly := iterate_uncaptured hrest hb
      refine (Step.observe d.opcode node).trans ⟨Rewrite.apply_calls happly, ?_⟩
      intro hb' hv' he'
      have hheld := ha.graph.node hcls' (mem_of_getElem? hnode')
      refine Rewrite.apply_captured_sound hnode hcapturing hfits hmatch
        (by rw [hops]; rfl) (by rw [hsubs]; rfl) hd ⟨hheld.1, hheld.2.1⟩ ?_ hb' hholds happly
        hv' he'
      intro code hcode
      have hev := (Rewrite.apply_calls happly).grows.events he'
      rw [hcode] at hev
      exact Ok.opcode_of_observe hev

end Work

section Potentials

def entries (s : EGraphMatcher) (clause : Nat) : List (Nat × Nat) :=
  (s.potentials.lookup clause).getD []

def recorded (s : EGraphMatcher) (eclass : Nat) : List Nat := (s.reversed.lookup eclass).getD []

def Matches (m : EMatcher) (clause : Nat) (n : ENode) : Prop :=
  ∃ c, m.subclauses[clause]? = some c ∧ c.isPotentialMatch n = true

structure PotentialsOk (σ : Assignment) (V : Nat → Val) (m : EMatcher) (s : EGraphMatcher) :
    Prop where
  holds : ∀ clause p, p ∈ s.entries clause → ∃ n, Matches m clause n ∧ Holds σ V p.1 n
  listed : ∀ clause p, p ∈ s.entries clause → clause ∈ s.recorded p.1

def Fresh (m : EMatcher) (s : EGraphMatcher) (id : Nat) : Prop :=
  ∀ clause index, (id, index) ∈ s.entries clause →
    ∃ c n, s.graph.get id = some c ∧ c.nodes[index]? = some n ∧ Matches m clause n

structure Refreshed (m : EMatcher) (id : Nat) (nodes : List ENode) (s s' : EGraphMatcher) :
    Prop where
  graph : s'.graph = s.graph
  events : s'.events = s.events
  entries : ∀ clause p, p ∈ s'.entries clause → p ∈ s.entries clause ∨
    p.1 = id ∧ clause ∈ s'.recorded id ∧ ∃ n, nodes[p.2]? = some n ∧ Matches m clause n
  recorded : ∀ i clause, clause ∈ s.recorded i → clause ∈ s'.recorded i

namespace Refreshed

variable {id : Nat} {nodes : List ENode} {s s' s'' : EGraphMatcher}

theorem refl (s : EGraphMatcher) : Refreshed m id nodes s s :=
  ⟨rfl, rfl, fun _ _ => .inl, fun _ _ h => h⟩

theorem trans (h : Refreshed m id nodes s s') (h' : Refreshed m id nodes s' s'') :
    Refreshed m id nodes s s'' where
  graph := h'.graph.trans h.graph
  events := h'.events.trans h.events
  entries clause p hp := by
    rcases h'.entries clause p hp with hp | hp
    · rcases h.entries clause p hp with hp | ⟨hid, hrec, hn⟩
      · exact .inl hp
      · exact .inr ⟨hid, h'.recorded id clause hrec, hn⟩
    · exact .inr hp
  recorded i clause hc := h'.recorded i clause (h.recorded i clause hc)

theorem foldl {α : Type} {f : EGraphMatcher → α → EGraphMatcher} {l : List α}
    (hstep : ∀ s x, x ∈ l → Refreshed m id nodes s (f s x)) (s : EGraphMatcher) :
    Refreshed m id nodes s (l.foldl f s) := by
  induction l generalizing s with
  | nil => exact refl s
  | cons x l ih =>
    exact (hstep s x mem_cons_self).trans
      (ih (fun s y hy => hstep s y (mem_cons_of_mem _ hy)) (f s x))

theorem addPotential {index : Nat} {n : ENode} (hn : nodes[index]? = some n) (s : EGraphMatcher)
    (clause : Nat) : Refreshed m id nodes s (addPotential m id index n s clause) := by
  unfold EGraphMatcher.addPotential
  split
  · exact refl s
  · rename_i c hc
    split_ifs with hmatch
    · refine ⟨rfl, rfl, ?_, ?_⟩
      · intro k p hp
        simp only [EGraphMatcher.entries, Map.lookup_insert] at hp
        by_cases hk : k = clause
        · subst hk
          rw [if_pos rfl, getD_some, mem_append, mem_singleton] at hp
          rcases hp with hp | rfl
          · exact .inl hp
          · refine .inr ⟨rfl, ?_, n, hn, c, hc, hmatch⟩
            simp [EGraphMatcher.recorded]
        · rw [if_neg hk] at hp
          exact .inl hp
      · intro i k hk
        simp only [EGraphMatcher.recorded, Map.lookup_insert] at hk ⊢
        by_cases hi : i = id
        · subst hi
          rw [if_pos rfl, getD_some]
          exact mem_append_left _ hk
        · rwa [if_neg hi]
    · exact refl s

theorem addPotentials (s : EGraphMatcher) (p : ENode × Nat) (hp : nodes[p.2]? = some p.1) :
    Refreshed m id nodes s (addPotentials m id s p) :=
  foldl (fun s k _ => addPotential hp s k) s

end Refreshed

theorem erasePotentials_cases (id : Nat) (clauses : List Nat) (s : EGraphMatcher) :
    let s' := clauses.foldl (erasePotential id) s
    s'.graph = s.graph ∧ s'.events = s.events ∧ s'.reversed = s.reversed ∧
      ∀ clause p, p ∈ s'.entries clause →
        p ∈ s.entries clause ∧ (clause ∈ clauses → p.1 ≠ id) := by
  induction clauses generalizing s with
  | nil => exact ⟨rfl, rfl, rfl, fun clause p hp => ⟨hp, fun h => absurd h not_mem_nil⟩⟩
  | cons k clauses ih =>
    obtain ⟨hg, he, hr, hent⟩ := ih (erasePotential id s k)
    refine ⟨hg, he, hr, ?_⟩
    intro clause p hp
    obtain ⟨hp, hne⟩ := hent clause p hp
    simp only [entries, erasePotential, Map.lookup_insert] at hp
    by_cases hk : clause = k
    · subst hk
      rw [if_pos rfl, getD_some, mem_filter] at hp
      exact ⟨hp.1, fun _ => of_decide_eq_true hp.2⟩
    · rw [if_neg hk] at hp
      refine ⟨hp, fun hmem => ?_⟩
      exact hne ((mem_cons.mp hmem).resolve_left hk)

theorem refreshed_nodes (id : Nat) (c : EClass) (s : EGraphMatcher) :
    Refreshed m id c.nodes s (c.nodes.zipIdx.foldl (addPotentials m id) s) :=
  Refreshed.foldl (fun t p hp =>
    Refreshed.addPotentials t p (mem_zipIdx_iff_getElem?.mp hp)) s

variable {id : Nat}

theorem updateEClass_frame {s s' : EGraphMatcher}
    (h : updateEClassPotentialMatches m s id = some s') :
    s'.graph = s.graph ∧ s'.events = s.events := by
  simp only [updateEClassPotentialMatches, bind_eq_some] at h
  obtain ⟨c, hc, h⟩ := h
  obtain ⟨hg, he, -, -⟩ := erasePotentials_cases id (s.recorded id) s
  split_ifs at h
  · cases h
    exact ⟨hg, he⟩
  · cases h
    have href := refreshed_nodes (m := m) id c ((s.recorded id).foldl (erasePotential id) s)
    exact ⟨href.graph.trans hg, href.events.trans he⟩

theorem updateEClass_cases {s s' : EGraphMatcher}
    (hlisted : ∀ clause p, p ∈ s.entries clause → clause ∈ s.recorded p.1)
    (h : updateEClassPotentialMatches m s id = some s') :
    (∀ clause p, p ∈ s'.entries clause → clause ∈ s'.recorded p.1) ∧
      ∃ c, s.graph.get id = some c ∧ ∀ clause p, p ∈ s'.entries clause →
        (p ∈ s.entries clause ∧ p.1 ≠ id) ∨
          (p.1 = id ∧ s.graph.root id = id ∧ ∃ n, c.nodes[p.2]? = some n ∧ Matches m clause n) := by
  simp only [updateEClassPotentialMatches, bind_eq_some] at h
  obtain ⟨c, hc, h⟩ := h
  obtain ⟨-, -, hr, hent⟩ := erasePotentials_cases id (s.recorded id) s
  have hne : ∀ clause p, p ∈ ((s.recorded id).foldl (erasePotential id) s).entries clause →
      p ∈ s.entries clause ∧ p.1 ≠ id := by
    intro clause p hp
    obtain ⟨hp, hcl⟩ := hent clause p hp
    exact ⟨hp, fun hid => hcl (hid ▸ hlisted clause p hp) hid⟩
  have hrec : ∀ clause p, p ∈ ((s.recorded id).foldl (erasePotential id) s).entries clause →
      clause ∈ ((s.recorded id).foldl (erasePotential id) s).recorded p.1 := by
    intro clause p hp
    rw [recorded, hr]
    exact hlisted clause p (hne clause p hp).1
  split_ifs at h with hroot
  · cases h
    exact ⟨hrec, c, hc, fun clause p hp => .inl (hne clause p hp)⟩
  · cases h
    have href := refreshed_nodes (m := m) id c ((s.recorded id).foldl (erasePotential id) s)
    refine ⟨?_, c, hc, ?_⟩
    · intro clause p hp
      rcases href.entries clause p hp with hp | ⟨hid, hmem, -⟩
      · exact href.recorded p.1 clause (hrec clause p hp)
      · exact hid ▸ hmem
    · intro clause p hp
      rcases href.entries clause p hp with hp | ⟨hid, -, hn⟩
      · exact .inl (hne clause p hp)
      · exact .inr ⟨hid, not_not.mp hroot, hn⟩

variable {s s' : EGraphMatcher}

theorem updateEClass_ok (hg : TypedSound σ V s.graph) (hs : PotentialsOk σ V m s)
    (h : updateEClassPotentialMatches m s id = some s') : PotentialsOk σ V m s' := by
  obtain ⟨hlisted, c, hc, hent⟩ := updateEClass_cases hs.listed h
  refine ⟨?_, hlisted⟩
  intro clause p hp
  rcases hent clause p hp with ⟨hp, -⟩ | ⟨hid, -, n, hn, hmatch⟩
  · exact hs.holds clause p hp
  · have hnode := hg.node hc (mem_of_getElem? hn)
    exact ⟨n, hmatch, hid ▸ ⟨hnode.1, hnode.2.1⟩⟩

theorem updateEClass_fresh {i : Nat}
    (hlisted : ∀ clause p, p ∈ s.entries clause → clause ∈ s.recorded p.1)
    (h : updateEClassPotentialMatches m s id = some s') (hi : Fresh m s i ∨ i = id) :
    Fresh m s' i := by
  obtain ⟨hg, -⟩ := updateEClass_frame h
  obtain ⟨-, c, hc, hent⟩ := updateEClass_cases hlisted h
  intro clause index hp
  rcases hent clause _ hp with ⟨hp, hne⟩ | ⟨hid, -, n, hn, hmatch⟩
  · rw [hg]
    exact (hi.resolve_right hne) clause index hp
  · cases hid
    rw [hg]
    exact ⟨c, n, hc, hn, hmatch⟩

theorem updateEClasses_cases {ids : List Nat} (hg : TypedSound σ V s.graph)
    (hs : PotentialsOk σ V m s) (h : ids.foldlM (updateEClassPotentialMatches m) s = some s') :
    PotentialsOk σ V m s' ∧ ∀ i, Fresh m s i ∨ i ∈ ids → Fresh m s' i := by
  induction ids generalizing s with
  | nil =>
    cases h
    exact ⟨hs, fun i hi => hi.resolve_right not_mem_nil⟩
  | cons id ids ih =>
    obtain ⟨t, ht, h⟩ := foldlM_cons_eq_some.mp h
    obtain ⟨htg, -⟩ := updateEClass_frame ht
    obtain ⟨hok, hfr⟩ := ih (htg ▸ hg) (updateEClass_ok hg hs ht) h
    refine ⟨hok, ?_⟩
    intro i hi
    rcases hi with hi | hi
    · exact hfr i (.inl (updateEClass_fresh hs.listed ht (.inl hi)))
    · rcases mem_cons.mp hi with rfl | hi
      · exact hfr i (.inl (updateEClass_fresh hs.listed ht (.inr rfl)))
      · exact hfr i (.inr hi)

theorem updatePotentialMatches_frame {h : HashOrder}
    (hrun : s.updatePotentialMatches h m = some s') :
    s'.graph = s.graph.tick ∧ s'.events = s.events := by
  refine foldlM_invariant (fun t : EGraphMatcher => t.graph = s.graph.tick ∧ t.events = s.events)
    ?_ hrun ⟨rfl, rfl⟩
  rintro t id t' - hstep ⟨hg, he⟩
  obtain ⟨hg', he'⟩ := updateEClass_frame hstep
  exact ⟨hg'.trans hg, he'.trans he⟩

theorem updatePotentialMatches_cases {h : HashOrder} (hg : TypedSound σ V s.graph)
    (hs : PotentialsOk σ V m s) (hrun : s.updatePotentialMatches h m = some s') :
    PotentialsOk σ V m s' ∧ ∀ i ∈ s.graph.updated, Fresh m s' i := by
  have hstart : PotentialsOk σ V m { s with graph := s.graph.tick } := ⟨hs.holds, hs.listed⟩
  have htick : TypedSound σ V s.graph.tick := hg.of_eq rfl rfl rfl rfl
  obtain ⟨hok, hfr⟩ :=
    updateEClasses_cases (s := { s with graph := s.graph.tick }) htick hstart hrun
  refine ⟨hok, fun i hi => hfr i ?_⟩
  by_cases hkeys : s.potentials.keys = []
  · refine .inl (fun clause index hp => ?_)
    have hnone : s.potentials.lookup clause = none := by
      rw [AList.lookup_eq_none, AList.mem_keys, hkeys]
      exact not_mem_nil
    simp [entries, hnone] at hp
  · rw [if_neg hkeys, HashOrder.mem_order]
    exact .inr hi

end Potentials

section Matching

variable {h : HashOrder} {data : MatchData} {s s' : EGraphMatcher}

def Ticked (s s' : EGraphMatcher) : Prop :=
  ∃ clock, s' = { s with graph := { s.graph with trace := { s.graph.trace with clock := clock } } }

theorem Ticked.refl (s : EGraphMatcher) : Ticked s s := ⟨s.graph.trace.clock, rfl⟩

theorem Ticked.tick (h : Ticked s s') : Ticked s { s' with graph := s'.graph.tick } := by
  obtain ⟨clock, rfl⟩ := h
  exact ⟨clock + 1, rfl⟩

theorem Ticked.grows (h : Ticked s s') : Extends s.graph s'.graph ∧ s'.events = s.events := by
  obtain ⟨clock, rfl⟩ := h
  exact ⟨Extends.of_eq rfl rfl rfl, rfl⟩

def MatchOk (m : EMatcher) (s : EGraphMatcher) (data : MatchData) : Prop :=
  ∀ k matched, data[k]? = some matched → ∀ id indices, matched.lookup id = some indices →
    indices ≠ [] ∧ ∀ i ∈ indices, (id, i) ∈ s.entries k ∧
      ∃ cls n c, s.graph.get id = some cls ∧ cls.nodes[i]? = some n ∧
        m.subclauses[k]? = some c ∧ submatch data c n = true

variable {c : SubClause}

theorem submatch_append {n : ENode} (matched : Map Nat (List Nat)) (hs : submatch data c n = true) :
    submatch (data ++ [matched]) c n = true := by
  simp only [submatch, Bool.or_eq_true, Bool.and_eq_true, decide_eq_true_eq, List.all_eq_true,
    Option.any_eq_true] at hs ⊢
  refine hs.imp_right (fun ⟨hlen, hall⟩ => ⟨hlen, fun p hp => ?_⟩)
  obtain ⟨d, hd, hsome⟩ := hall p hp
  have hlt : p.1 < data.length := (List.getElem?_eq_some_iff.mp hd).1
  exact ⟨d, by rw [List.getElem?_append_left hlt, hd], hsome⟩

theorem matchPotentials_cases {g : EGraph} {ps : List (Nat × Nat)} {matched : Map Nat (List Nat)}
    (hrun : ps.foldlM (matchPotential g data c) ∅ = some matched) :
    ∀ id indices, matched.lookup id = some indices → indices ≠ [] ∧ ∀ i ∈ indices, (id, i) ∈ ps ∧
      ∃ cls n, g.get id = some cls ∧ cls.nodes[i]? = some n ∧ submatch data c n = true := by
  refine foldlM_invariant (fun matched : Map Nat (List Nat) => ∀ id indices,
    matched.lookup id = some indices → indices ≠ [] ∧ ∀ i ∈ indices, (id, i) ∈ ps ∧
      ∃ cls n, g.get id = some cls ∧ cls.nodes[i]? = some n ∧ submatch data c n = true)
    ?_ hrun (fun id indices hl => by simp at hl)
  intro matched p matched' hp hstep ih id indices hl
  simp only [matchPotential, bind_eq_some] at hstep
  obtain ⟨cls, hcls, n, hn, hstep⟩ := hstep
  split_ifs at hstep with hsub
  · cases hstep
    rw [Map.lookup_insert] at hl
    by_cases hid : id = p.1
    · subst hid
      rw [if_pos rfl] at hl
      cases hl
      refine ⟨by simp, fun i hi => ?_⟩
      rcases mem_append.mp hi with hi | hi
      · cases hlook : matched.lookup p.1 with
        | none =>
          rw [hlook] at hi
          cases hi
        | some old =>
          rw [hlook] at hi
          exact (ih p.1 old hlook).2 i hi
      · cases mem_singleton.mp hi
        exact ⟨hp, cls, n, hcls, hn, hsub⟩
    · rw [if_neg hid] at hl
      exact ih id indices hl
  · cases hstep
    exact ih id indices hl

theorem matchClause_ok {r r' : MatchData × EGraphMatcher} (hc : m.subclauses[r.1.length]? = some c)
    (hr : MatchOk m r.2 r.1) (hrun : matchClause h r c = some r') :
    MatchOk m r'.2 r'.1 ∧ r'.1.length = r.1.length + 1 ∧
      r'.2 = { r.2 with graph := r.2.graph.tick } := by
  simp only [matchClause, bind_eq_some, some.injEq] at hrun
  obtain ⟨matched, hmatched, rfl⟩ := hrun
  refine ⟨?_, length_append, rfl⟩
  intro k matched' hk id indices hl
  by_cases hlt : k < r.1.length
  · rw [List.getElem?_append_left hlt] at hk
    obtain ⟨hne, hall⟩ := hr k matched' hk id indices hl
    refine ⟨hne, fun i hi => ?_⟩
    obtain ⟨hent, cls, n, c', hcls, hn, hc', hsub⟩ := hall i hi
    exact ⟨hent, cls, n, c', hcls, hn, hc', submatch_append matched hsub⟩
  · have hkeq : k = r.1.length := by
      have hklt := (List.getElem?_eq_some_iff.mp hk).1
      rw [length_append, length_singleton] at hklt
      omega
    subst hkeq
    rw [List.getElem?_concat_length] at hk
    cases hk
    obtain ⟨hne, hall⟩ := matchPotentials_cases hmatched id indices hl
    refine ⟨hne, fun i hi => ?_⟩
    obtain ⟨hent, cls, n, hcls, hn, hsub⟩ := hall i hi
    exact ⟨HashOrder.mem_order h |>.mp hent, cls, n, c, hcls, hn, hc, submatch_append matched hsub⟩

theorem findMatches_ok (hrun : s.findMatches h m = some (data, s')) :
    MatchOk m s' data ∧ Ticked s s' := by
  have hgen : ∀ (todo : List SubClause) (r r' : MatchData × EGraphMatcher),
      m.subclauses.drop r.1.length = todo → MatchOk m r.2 r.1 → Ticked s r.2 →
      todo.foldlM (matchClause h) r = some r' → MatchOk m r'.2 r'.1 ∧ Ticked s r'.2 := by
    intro todo
    induction todo with
    | nil =>
      intro r r' _ hr ht hfold
      cases hfold
      exact ⟨hr, ht⟩
    | cons c todo ih =>
      intro r r' hdrop hr ht hfold
      obtain ⟨t, hstep, hfold⟩ := foldlM_cons_eq_some.mp hfold
      have hc : m.subclauses[r.1.length]? = some c := by
        rw [← List.head?_drop, hdrop]
        rfl
      obtain ⟨hok, hlen, heq⟩ := matchClause_ok hc hr hstep
      refine ih t r' ?_ hok (heq ▸ ht.tick) hfold
      rw [hlen, ← drop_drop, hdrop]
      rfl
  exact hgen m.subclauses ([], s) (data, s') rfl (fun k matched hk => by simp at hk)
    (Ticked.refl s) hrun

def ItemOk (m : EMatcher) (updated : List Nat) (data : MatchData) (w : WorkItem) : Prop :=
  ∃ clause matched indices, m.clauses[w.clause]? = some clause ∧
    data[clause.matcher]? = some matched ∧ matched.lookup w.eclass = some indices ∧
    w.enode ∈ indices ∧ w.eclass ∈ updated

theorem classItems_cases {g : EGraph} {clause : Nat} {p : Nat × List Nat} {items : List WorkItem}
    (hrun : classItems g c clause p = some items) (hw : w ∈ items) :
    w.clause = clause ∧ w.eclass = p.1 ∧ w.enode ∈ p.2 ∧ p.1 ∈ g.updated := by
  simp only [classItems, bind_eq_bind, bind_eq_some_iff] at hrun
  obtain ⟨root, -, hrun⟩ := hrun
  split_ifs at hrun with hskip
  · cases hrun
    cases hw
  · obtain ⟨enode, henode, hitem⟩ := exists_of_mem_mapM hrun hw
    simp only [bind_eq_some_iff, ite_none_right_eq_some, some.injEq] at hitem
    obtain ⟨cls, -, node, -, -, rfl⟩ := hitem
    exact ⟨rfl, rfl, henode, by_contra (fun hmem => hskip (.inr hmem))⟩

theorem matchingWorkItems_ok {work : List WorkItem}
    (hrun : matchingWorkItems h m data s = some (work, s')) :
    (∀ w ∈ work, ItemOk m s.graph.updated data w) ∧ Ticked s s' := by
  refine foldlM_invariant (fun r : List WorkItem × EGraphMatcher =>
    (∀ w ∈ r.1, ItemOk m s.graph.updated data w) ∧ Ticked s r.2) ?_ hrun
    ⟨fun w hw => absurd hw not_mem_nil, Ticked.refl s⟩
  rintro r ⟨clause, index⟩ r' hmem hstep ⟨hitems, hticked⟩
  simp only [clauseItems, bind_eq_some, some.injEq] at hstep
  obtain ⟨c, -, matched, hmatched, items, hmap, rfl⟩ := hstep
  refine ⟨?_, hticked.tick⟩
  intro w hw
  rcases mem_append.mp hw with hw | hw
  · exact hitems w hw
  · obtain ⟨l, hl, hw⟩ := mem_flatten.mp hw
    obtain ⟨p, hp, hclass⟩ := exists_of_mem_mapM hmap hl
    obtain ⟨hclause, heclass, henode, hupdd⟩ := classItems_cases hclass hw
    have hlook := Map.mem_pairs.mp ((HashOrder.mem_order h).mp hp)
    refine ⟨clause, matched, p.2, ?_, hmatched, heclass ▸ hlook, henode, ?_⟩
    · rw [hclause]
      exact mem_zipIdx_iff_getElem?.mp hmem
    · obtain ⟨clock, heq⟩ := hticked
      rw [heq] at hupdd
      exact heclass ▸ hupdd

end Matching

section Round

variable {h : HashOrder} {data : MatchData} {s s' : EGraphMatcher} {cache : OperationCache}
  {fuel : Nat} {a a' : GraphAccessor}

theorem MatchOk.holds (hs : PotentialsOk σ V m s) (hdata : MatchOk m s data) {k id : Nat}
    (hkey : (data[k]?).any (fun matched => (matched.lookup id).isSome) = true) :
    ∃ n, Matches m k n ∧ Holds σ V id n := by
  obtain ⟨matched, hk, hsome⟩ := (Option.any_eq_true _ _).mp hkey
  obtain ⟨indices, hl⟩ := isSome_iff_exists.mp hsome
  obtain ⟨hne, hall⟩ := hdata k matched hk id indices hl
  obtain ⟨i, hi⟩ := exists_mem_of_ne_nil indices hne
  exact hs.holds k (id, i) (hall i hi).1

variable {g : EGraph}

theorem workOn_step (hnode : ∀ i, σ.node i = V i)
    (hfits : ∀ clause ∈ m.clauses, m.fits clause = true) (hg : TypedSound σ V s.graph)
    (hs : PotentialsOk σ V m s) (hdata : MatchOk m s data)
    (hfr : ∀ i ∈ s.graph.updated, Fresh m s i) (hget : ∀ id, g.get id = s.graph.get id)
    (hw : ItemOk m s.graph.updated data w) (hrun : workOn m cache fuel data a w = some a') :
    Step σ V g a a' := by
  obtain ⟨clause, matched, indices, hclause, hmatched, hl, henode, hupdd⟩ := hw
  obtain ⟨-, hall⟩ := hdata clause.matcher matched hmatched w.eclass indices hl
  obtain ⟨hent, cls, n, c, hcls, hn, hc, hsub⟩ := hall w.enode henode
  obtain ⟨cls', n', hcls', hn', c', hc', hmatch⟩ := hfr w.eclass hupdd _ _ hent
  cases hcls.symm.trans hcls'
  cases hn.symm.trans hn'
  cases hc.symm.trans hc'
  simp only [workOn, hclause, some_bind] at hrun
  have hheld := hg.node hcls (mem_of_getElem? hn)
  refine allCaptures_step hnode (hfits clause (mem_of_getElem? hclause)) hc
    ((hget _).trans hcls) hn hmatch ?_ ⟨hheld.1, hheld.2.1⟩ hrun
  intro sub operand hsubm hopd hzero
  have hkey : (data[sub]?).any (fun matched => (matched.lookup operand).isSome) = true := by
    simp only [submatch, Bool.or_eq_true, Bool.and_eq_true, decide_eq_true_eq,
      List.all_eq_true] at hsub
    rcases hsub with hnil | ⟨-, hzip⟩
    · rw [hnil] at hsubm
      cases hsubm
    · refine hzip (sub, operand) (mem_of_getElem? (i := 1) ?_)
      rw [List.getElem?_zip_eq_some]
      exact ⟨hsubm, hopd⟩
  obtain ⟨z, ⟨d, hd, hmatchz⟩, hz⟩ := MatchOk.holds hs hdata hkey
  simp only [EMatcher.isZero, hd, any_some, decide_eq_true_eq] at hzero
  exact Rewrite.eq_zero_of_constantOperand hz (SubClause.filter_of_match hmatchz hzero)

theorem persist_extends (hrun : a.persist = some g) : Extends a.graph g := by
  refine foldlM_invariant (Extends a.graph) ?_ hrun (Extends.refl _)
  intro g p g' _ hstep ih
  obtain ⟨r, hr, rfl⟩ := map_eq_some_iff.mp hstep
  exact ih.trans (Extends.merge hr)

theorem persist_sound (hg : TypedSound σ V a.graph) (hmerges : ∀ p ∈ a.merges, V p.1 = V p.2)
    (hrun : a.persist = some g) : TypedSound σ V g := by
  refine foldlM_invariant (TypedSound σ V) ?_ hrun hg
  intro g p g' hp hstep ih
  obtain ⟨r, hr, rfl⟩ := map_eq_some_iff.mp hstep
  exact ih.merge (hmerges p hp) hr

structure MatcherOk (σ : Assignment) (V : Nat → Val) (m : EMatcher) (s : EGraphMatcher) :
    Prop where
  graph : TypedSound σ V s.graph
  potentials : PotentialsOk σ V m s

theorem round_cases (hrun : s.round h m cache fuel = some s') :
    ∃ s1 data s2 work s3 a g p g', s.updatePotentialMatches h m = some s1 ∧
      s1.findMatches h m = some (data, s2) ∧
      matchingWorkItems h m data s2 = some (work, s3) ∧
      work.foldlM (workOn m cache fuel data)
        { graph := { s3.graph with updated := [] }, events := s3.events } = some a ∧
      a.persist = some g ∧ g.constprop h = some p ∧ p.graph.rebuild h fuel = some g' ∧
      s' = { s3 with graph := g', events := a.events } := by
  simp only [round, bind_eq_some, some.injEq] at hrun
  obtain ⟨s1, h1, ⟨data, s2⟩, h2, ⟨work, s3⟩, h3, a, ha, g, hg, p, hp, g', hg', rfl⟩ := hrun
  exact ⟨s1, data, s2, work, s3, a, g, p, g', h1, h2, h3, ha, hg, hp, hg', rfl⟩

theorem round_ok (hnode : ∀ i, σ.node i = V i) (hfits : ∀ clause ∈ m.clauses, m.fits clause = true)
    (hs : MatcherOk σ V m s) (hrun : s.round h m cache fuel = some s')
    (hv : IsValuation (apply σ) V s'.graph) (he : s'.events = []) : MatcherOk σ V m s' := by
  obtain ⟨s1, data, s2, work, s3, a, g, p, g', h1, h2, h3, ha, hg, hp, hg', rfl⟩ :=
    round_cases hrun
  obtain ⟨hgr1, -⟩ := updatePotentialMatches_frame h1
  obtain ⟨hpot1, hfr1⟩ := updatePotentialMatches_cases hs.graph hs.potentials h1
  obtain ⟨hdata, clock2, hticked2⟩ := findMatches_ok h2
  obtain ⟨hwork, clock3, hticked3⟩ := matchingWorkItems_ok h3
  have hty1 : TypedSound σ V s1.graph := hgr1 ▸ hs.graph.of_eq rfl rfl rfl rfl
  have hupd1 : s1.graph.updated = s.graph.updated := by
    rw [hgr1]
    rfl
  have hty2 : TypedSound σ V s2.graph := hticked2 ▸ hty1.of_eq rfl rfl rfl rfl
  have hpot2 : PotentialsOk σ V m s2 := hticked2 ▸ ⟨hpot1.holds, hpot1.listed⟩
  have hfr2 : ∀ i ∈ s2.graph.updated, Fresh m s2 i := by
    subst hticked2
    exact fun i hi => hfr1 i (hupd1 ▸ hi)
  subst hticked3
  have hsteps : Step σ V { s2.graph with updated := [] }
      { graph := { s2.graph with updated := [], trace.clock := clock3 }, events := s2.events } a :=
    Step.foldlM (fun b w b' hw hb =>
      workOn_step hnode hfits hty2 hpot2 hdata hfr2 (fun _ => rfl) (hwork w hw) hb) ha
  have hextg : Extends g g' := (constprop_extends hp).trans (Extends.rebuild hg')
  have hva := IsValuation.of_extends hv ((persist_extends hg).trans hextg)
  have hok := hsteps.ok ⟨hty2.of_eq rfl rfl rfl rfl, fun p hp => absurd hp not_mem_nil,
    SameNodes.of_eq rfl rfl⟩ hva he
  have hgok := persist_sound hok.graph hok.merges hg
  have hpok := hgok.constprop hp (IsValuation.of_extends hv (Extends.rebuild hg'))
  exact ⟨hpok.rebuild hg', hpot2.holds, hpot2.listed⟩

theorem round_grows (hrun : s.round h m cache fuel = some s') :
    Extends s.graph s'.graph ∧ (s'.events = [] → s.events = []) := by
  obtain ⟨s1, data, s2, work, s3, a, g, p, g', h1, h2, h3, ha, hg, hp, hg', rfl⟩ :=
    round_cases hrun
  obtain ⟨hgr1, hevts1⟩ := updatePotentialMatches_frame h1
  obtain ⟨hext2, hevts2⟩ := (findMatches_ok h2).2.grows
  obtain ⟨hext3, hevts3⟩ := (matchingWorkItems_ok h3).2.grows
  have hgrows := (foldlM_invariant (Calls _)
    (fun _ _ _ _ hb ih => ih.trans (workOn_calls hb)) ha (Calls.refl _)).grows
  have hext1 : Extends s.graph s1.graph := hgr1 ▸ Extends.tick _
  have hcleared : Extends s3.graph { s3.graph with updated := [] } := Extends.of_eq rfl rfl rfl
  have hend : Extends a.graph g' :=
    (persist_extends hg).trans ((constprop_extends hp).trans (Extends.rebuild hg'))
  refine ⟨hext1.trans (hext2.trans (hext3.trans (hcleared.trans (hgrows.graph.trans hend)))), ?_⟩
  intro he
  rw [← hevts1, ← hevts2, ← hevts3]
  exact hgrows.events he

variable {rounds : Nat}

theorem saturate_grows (hrun : saturate h m cache fuel rounds s = some s') :
    Extends s.graph s'.graph ∧ (s'.events = [] → s.events = []) := by
  induction rounds generalizing s with
  | zero => cases hrun
  | succ rounds ih =>
    unfold saturate at hrun
    split_ifs at hrun
    · cases hrun
      exact ⟨Extends.refl _, fun h => h⟩
    · obtain ⟨t, ht, hrun⟩ := bind_eq_some_iff.mp hrun
      obtain ⟨hext, hev⟩ := round_grows ht
      obtain ⟨hext', hev'⟩ := ih hrun
      exact ⟨hext.trans hext', fun he => hev (hev' he)⟩

theorem saturate_ok (hnode : ∀ i, σ.node i = V i)
    (hfits : ∀ clause ∈ m.clauses, m.fits clause = true) (hs : MatcherOk σ V m s)
    (hrun : saturate h m cache fuel rounds s = some s') (hv : IsValuation (apply σ) V s'.graph)
    (he : s'.events = []) : MatcherOk σ V m s' := by
  induction rounds generalizing s with
  | zero => cases hrun
  | succ rounds ih =>
    unfold saturate at hrun
    split_ifs at hrun
    · cases hrun
      exact hs
    · obtain ⟨t, ht, hrun⟩ := bind_eq_some_iff.mp hrun
      obtain ⟨hext, hev⟩ := saturate_grows hrun
      exact ih (round_ok hnode hfits hs ht (hv.of_extends hext) (hev he)) hrun

end Round

end EGraphMatcher

namespace EGraph

open OperationData

variable {h : HashOrder} {cache : OperationCache} {fuel : Nat}

theorem simplify_extends {m : EMatcher} {g : EGraph} {s : EGraphMatcher}
    (hrun : g.simplify h m cache fuel = some s) : Extends g s.graph := by
  simp only [simplify, bind_eq_some] at hrun
  obtain ⟨p, hp, g', hg', hrun⟩ := hrun
  exact (constprop_extends hp).trans
    ((Extends.rebuild hg').trans (EGraphMatcher.saturate_grows hrun).1)

/-- Equality saturation without division is sound if no update function works on data other than its
pattern asks for. -/
theorem simplify_sound (h : HashOrder) (cache : OperationCache) (fuel : Nat) (ops : List Operation)
    (hops : ∀ o ∈ ops, o.WellTyped divisionFree) (ids : List Nat) (g : EGraph)
    (hadd : addOperands {} ops = some (ids, g)) (s : EGraphMatcher)
    (hrun : g.simplify h .integerDefaults cache fuel = some s) (σ : Assignment) (V : Nat → Val)
    (hnode : ∀ i, σ.node i = V i) (hv : IsValuation (apply σ) V s.graph) (he : s.events = []) :
    ops.map (Operation.eval σ) = ids.map V ∧
      ∀ i j r, s.graph.find i = some r → s.graph.find j = some r → V i = V j := by
  obtain ⟨hg, hvals⟩ := TypedSound.addOperands_of
    (fun o ho g g' id hg hid hv' => TypedSound.addOperation hnode
      ((hops o ho).mono (fun _ => divisionFreeIn_of_divisionFree σ)) hg hid hv')
    TypedSound.empty hadd (hv.of_extends (simplify_extends hrun))
  refine ⟨hvals, ?_⟩
  simp only [simplify, bind_eq_some] at hrun
  obtain ⟨p, hp, g', hg', hrun⟩ := hrun
  have hext := (EGraphMatcher.saturate_grows hrun).1
  have hpok := hg.constprop hp (hv.of_extends ((Extends.rebuild hg').trans hext))
  have hstart : EGraphMatcher.MatcherOk σ V .integerDefaults { graph := g' } := by
    refine ⟨hpok.rebuild hg', ?_, ?_⟩
    · intro clause q hq
      simp [EGraphMatcher.entries] at hq
    · intro clause q hq
      simp [EGraphMatcher.entries] at hq
  have hend := EGraphMatcher.saturate_ok hnode EMatcher.integerDefaults_fits hstart hrun hv he
  intro i j r hi hj
  have hroot : ∀ k, s.graph.find k = some r → V k = V r := by
    intro k hk
    obtain ⟨-, rfl⟩ := find_eq_some.mp hk
    exact (hend.graph.values.root k).symm
  rw [hroot i hi, hroot j hj]

def simplifyExpression (e : Operation) : Option (List Nat × EGraph × EGraphMatcher) := do
  let r ← addOperands {} [e]
  let s ← r.2.simplify .insertion .integerDefaults .full 10
  some (r.1, r.2, s)

theorem simplifyExpression_cases {e : Operation} {r : List Nat × EGraph × EGraphMatcher}
    (h : simplifyExpression e = some r) :
    addOperands {} [e] = some (r.1, r.2.1) ∧
      r.2.1.simplify .insertion .integerDefaults .full 10 = some r.2.2 := by
  simp only [simplifyExpression, bind_eq_some, some.injEq] at h
  obtain ⟨p, hp, s, hs, rfl⟩ := h
  exact ⟨hp, hs⟩

/-- `select(c, 1, 2) == 1` is found to be `c`. -/
theorem simplify_sound_select :
    let byte := fun n : BitVec 8 => Operation.constantInt ⟨8, n⟩
    let e := Operation.mk (.icmp .eq) [.mk (.select (.int 8))
      [Operation.constant (.int 1) (.numbered 0), byte 1, byte 2], byte 1]
    let V : Nat → Val := fun i => [.int ⟨1, 1⟩, .int ⟨8, 1⟩, .int ⟨8, 2⟩, .int ⟨8, 1⟩, .int ⟨1, 1⟩,
      .int ⟨1, 1⟩].getD i .poison
    let σ : Assignment := { int := fun _ w => BitVec.ofNat w 1, array := fun _ _ _ => 0, node := V }
    ∃ r, simplifyExpression e = some r ∧ r.1 = [4] ∧
      r.2.2.graph.find 4 = some 4 ∧ r.2.2.graph.find 0 = some 4 ∧
      [e.eval σ] = [V 4] ∧ V 4 = V 0 := by
  intro byte e V σ
  obtain ⟨r, hr, hdata⟩ := map_eq_some_iff.mp (show (simplifyExpression e).map (fun r =>
    decide (r.1 = [4] ∧ r.2.2.graph.find 4 = some 4 ∧ r.2.2.graph.find 0 = some 4 ∧
      r.2.2.events = [] ∧ r.2.2.graph.trace.adds.filter AddRecord.fresh = [
        ⟨⟨.icmp .eq, [1, 3]⟩, 5, true⟩, ⟨⟨.icmp .eq, [3, 1]⟩, 4, true⟩,
        ⟨⟨.select (.int 8), [0, 1, 2]⟩, 3, true⟩, ⟨⟨.constantInt ⟨8, 2⟩, []⟩, 2, true⟩,
        ⟨⟨.constantInt ⟨8, 1⟩, []⟩, 1, true⟩,
        ⟨⟨.constant (.int 1) (.numbered 0), []⟩, 0, true⟩])) = some true by decide +kernel)
  obtain ⟨hids, h4, h0, hevts, hadds⟩ := of_decide_eq_true hdata
  obtain ⟨hadd, hrun⟩ := simplifyExpression_cases hr
  have hv : IsValuation (apply σ) V r.2.2.graph := by
    intro a ha hfr
    have hmem := mem_filter.mpr ⟨ha, hfr⟩
    rw [hadds] at hmem
    simp only [mem_cons, not_mem_nil, or_false] at hmem
    rcases hmem with rfl | rfl | rfl | rfl | rfl | rfl <;> rfl
  obtain ⟨hvals, hfind⟩ := simplify_sound .insertion .full 10 [e] (by decide +kernel) r.1 r.2.1
    hadd r.2.2 hrun σ V (fun _ => rfl) hv hevts
  rw [hids] at hvals
  exact ⟨r, hr, hids, h4, h0, hvals, hfind 4 0 4 h4 h0⟩

/-- `select(c, 0, z ^ z) == 0` is always true but is found to be the negation of `c`: after the
merge of `z ^ z` the `Select` keeps the old id of the literal. -/
theorem simplify_select_wrong :
    let zero := Operation.constantInt ⟨8, 0⟩
    let z := Operation.constant (.int 8) (.numbered 1)
    let e := Operation.mk (.icmp .eq) [.mk (.select (.int 8))
      [Operation.constant (.int 1) (.numbered 0), zero, .mk (.binary .xor (.int 8)) [z, z]], zero]
    let V : Nat → Val := fun i => [.int ⟨1, 1⟩, .int ⟨8, 0⟩, .int ⟨8, 1⟩, .int ⟨8, 0⟩, .int ⟨8, 0⟩,
      .int ⟨1, 1⟩, .int ⟨1, 1⟩, .int ⟨1, 0⟩].getD i .poison
    let σ : Assignment := { int := fun _ w => BitVec.ofNat w 1, array := fun _ _ _ => 0, node := V }
    e.WellTyped divisionFree ∧ ∃ r, simplifyExpression e = some r ∧
      IsValuation (apply σ) V r.2.2.graph ∧ [e.eval σ] = r.1.map V ∧
      r.2.2.graph.find 5 = some 5 ∧ r.2.2.graph.find 7 = some 5 ∧ V 5 ≠ V 7 := by
  intro zero z e V σ
  refine ⟨by decide +kernel, ?_⟩
  obtain ⟨r, hr, hdata⟩ := map_eq_some_iff.mp (show (simplifyExpression e).map (fun r =>
    decide (r.1 = [5] ∧ r.2.2.graph.find 5 = some 5 ∧ r.2.2.graph.find 7 = some 5 ∧
      r.2.2.graph.trace.adds.filter AddRecord.fresh = [
        ⟨⟨.unary .not (.int 1), [0]⟩, 7, true⟩, ⟨⟨.icmp .eq, [1, 4]⟩, 6, true⟩,
        ⟨⟨.icmp .eq, [4, 1]⟩, 5, true⟩, ⟨⟨.select (.int 8), [0, 1, 3]⟩, 4, true⟩,
        ⟨⟨.binary .xor (.int 8), [2, 2]⟩, 3, true⟩,
        ⟨⟨.constant (.int 8) (.numbered 1), []⟩, 2, true⟩, ⟨⟨.constantInt ⟨8, 0⟩, []⟩, 1, true⟩,
        ⟨⟨.constant (.int 1) (.numbered 0), []⟩, 0, true⟩])) = some true by decide +kernel)
  obtain ⟨hids, h5, h7, hadds⟩ := of_decide_eq_true hdata
  refine ⟨r, hr, ?_, by rw [hids]; rfl, h5, h7, ?_⟩
  · intro a ha hfr
    have hmem := mem_filter.mpr ⟨ha, hfr⟩
    rw [hadds] at hmem
    simp only [mem_cons, not_mem_nil, or_false] at hmem
    rcases hmem with rfl | rfl | rfl | rfl | rfl | rfl | rfl | rfl <;> rfl
  · intro h
    simp [V] at h

end EGraph

end Caffeine
