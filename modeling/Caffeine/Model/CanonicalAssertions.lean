import Caffeine.Model.GraphAssertionList

/-!
# Canonicalisation of path conditions

When `GraphAssertionList.canonicalize` returns, what it keeps of the meaning of the list and of the
mark, and where the mark is over whole runs.
-/

namespace Caffeine

open List
open Option hiding le_min
open Relation (ReflTransGen TransGen)

variable {bound : Nat} {ids : List Nat} {c : EClass} {n : ENode} {h : History}

namespace GraphAssertionList

variable {g : EGraph} {a b k p : Nat} {operands queued : List Nat} {l l' : GraphAssertionList}
variable {fuel : Nat}

inductive VisitOf (c : EClass) : Visit → Prop
  | literal {n : ENode} {v : APInt} (hn : n ∈ c.nodes) (hdata : n.data = .constantInt v) :
    VisitOf c (.literal !v.isNullValue)
  | split {n : ENode} (hn : n ∈ c.nodes) (hop : n.opcode = .binary .and) :
    VisitOf c (.split n.operands)
  | keep {n : ENode} (hn : c.nodes.head? = some n) (hdata : ∀ v, n.data ≠ .constantInt v)
    (hop : ∀ n ∈ c.nodes, n.opcode ≠ .binary .and) : VisitOf c .keep

theorem visit_cases {kind : Visit} (h : visit g a = some (k, kind)) :
    a < g.size ∧ k = g.root a ∧ ∃ c, g.classes.lookup k = some c ∧ VisitOf c kind := by
  simp only [visit, bind_eq_some] at h
  obtain ⟨r, hfind, c, hget, front, hfront, h⟩ := h
  obtain ⟨ha, rfl⟩ := EGraph.find_eq_some.mp hfind
  have hc := (EGraph.get_eq_some.mp hget).2
  rw [EGraph.root_root] at hc
  have hmem : front ∈ c.nodes := mem_of_head? hfront
  split at h
  · cases h
    exact ⟨ha, rfl, c, hc, .literal hmem ‹_›⟩
  · rename_i hdata
    split at h
    · rename_i n hn
      cases h
      have hop := List.find?_some hn
      exact ⟨ha, rfl, c, hc, .split (mem_of_find?_eq_some hn) (of_decide_eq_true hop)⟩
    · rename_i hn
      cases h
      refine ⟨ha, rfl, c, hc, .keep hfront (fun v hv => hdata v hv) fun n hmem hop => ?_⟩
      exact List.find?_eq_none.mp hn n hmem (decide_eq_true hop)

theorem exists_visit (hg : g.WellFormed) (ha : a < g.size) :
    ∃ k kind, visit g a = some (k, kind) := by
  obtain ⟨c, hc⟩ := hg.exists_class ha
  obtain ⟨front, hfront⟩ := isSome_iff_exists.mp
    (isSome_head?.mpr (hg.classes _ c hc).nonempty)
  have hget : g.get (g.root a) = some c :=
    EGraph.get_eq_some.mpr ⟨g.root_lt ha, by rw [EGraph.root_root, hc]⟩
  simp only [visit, EGraph.find_eq_some.mpr ⟨ha, rfl⟩, hget, hfront, some_bind]
  split
  · exact ⟨_, _, rfl⟩
  · split
    · exact ⟨_, _, rfl⟩
    · exact ⟨_, _, rfl⟩

theorem AndStep.lt (hg : g.WellFormed) (h : AndStep g a b) : b < g.size := by
  obtain ⟨k, operands, hvis, hb⟩ := h
  obtain ⟨-, -, c, hc, hkind⟩ := visit_cases hvis
  cases hkind with
  | split hn _ => exact (hg.classes k c hc).operands _ hn b hb

/-! ### Termination -/

/-- From `a` no conjunction is reached that is among its own conjuncts. -/
def Acyclic (g : EGraph) (a : Nat) : Prop :=
  ∀ b, Conjunct g a b → ¬ TransGen (AndStep g) b b

theorem Ends.acyclic (ha : Ends g a) : Acyclic g a := by
  induction ha with
  | intro a _ ih =>
    intro b hab hcyc
    rcases conjunct_iff.mp hab with rfl | ⟨c, hac, hcb⟩
    · -- the cycle through `a` also goes through the next id on it
      obtain ⟨c, hac, hca⟩ := TransGen.head'_iff.mp hcyc
      exact ih c hac c ReflTransGen.refl (TransGen.tail' hca hac)
    · exact ih c hac b hcb hcyc

theorem ends_iff_acyclic (hg : g.WellFormed) (ha : a < g.size) : Ends g a ↔ Acyclic g a := by
  classical
  refine ⟨Ends.acyclic, fun hacyclic => ?_⟩
  generalize hn : ((Finset.range g.size).filter (Conjunct g a)).card = n
  induction n using Nat.strong_induction_on generalizing a with
  | _ n ih =>
    refine Acc.intro a fun b hab => ?_
    have hb : b < g.size := hab.lt hg
    refine ih _ ?_ hb (fun c hbc => hacyclic c (ReflTransGen.head hab hbc)) rfl
    rw [← hn]
    refine Finset.card_lt_card (Finset.ssubset_iff_of_subset ?_ |>.mpr ⟨a, ?_, ?_⟩)
    · exact Finset.monotone_filter_right _ fun c _ hbc => ReflTransGen.head hab hbc
    · exact Finset.mem_filter.mpr ⟨Finset.mem_range.mpr ha, ReflTransGen.refl⟩
    · intro hmem
      have hba : Conjunct g b a := (Finset.mem_filter.mp hmem).2
      exact hacyclic a ReflTransGen.refl (TransGen.head' hab hba)

/-- The inner loop ends within `bound` steps, whatever is kept so far. -/
def ReturnsBy (g : EGraph) (bound : Nat) (queued : List Nat) : Prop :=
  ∀ l fuel, bound ≤ fuel → ∃ r, drain g fuel l queued = some r

theorem returnsBy_nil : ReturnsBy g 1 [] := by
  intro l fuel hfuel
  obtain ⟨fuel, rfl⟩ := Nat.exists_eq_add_of_le' hfuel
  exact ⟨_, rfl⟩

theorem returnsBy_cons {kind : Visit} (ha : visit g a = some (k, kind))
    (hskip : kind = .literal true ∨ kind = .keep → ReturnsBy g bound queued)
    (hspl : ∀ operands, kind = .split operands → ReturnsBy g bound (operands.reverse ++ queued)) :
    ReturnsBy g (bound + 1) (a :: queued) := by
  intro l fuel hfuel
  obtain ⟨fuel, rfl⟩ := Nat.exists_eq_add_of_le' ((Nat.le_add_left 1 bound).trans hfuel)
  have hle : bound ≤ fuel := Nat.le_of_succ_le_succ hfuel
  simp only [drain, ha, some_bind]
  cases kind with
  | literal value =>
    cases value with
    | false => exact ⟨_, rfl⟩
    | true => exact hskip (.inl rfl) l fuel hle
  | split operands => exact hspl operands rfl l fuel hle
  | keep => exact hskip (.inr rfl) (l.insert k) fuel hle

theorem returnsBy_append (hids : ∀ a ∈ ids, ∀ queued bound, ReturnsBy g bound queued →
      ∃ bound', ReturnsBy g bound' (a :: queued)) (h : ReturnsBy g bound queued) :
    ∃ bound', ReturnsBy g bound' (ids ++ queued) := by
  induction ids with
  | nil => exact ⟨bound, h⟩
  | cons a ids ih =>
    obtain ⟨ha, hids⟩ := forall_mem_cons.mp hids
    obtain ⟨bound', h'⟩ := ih hids
    exact ha _ bound' h'

theorem Ends.returnsBy (hg : g.WellFormed) (hends : Ends g a) (ha : a < g.size)
    (h : ReturnsBy g bound queued) : ∃ bound', ReturnsBy g bound' (a :: queued) := by
  induction hends generalizing queued bound with
  | intro a _ ih =>
    obtain ⟨k, kind, hvis⟩ := exists_visit hg ha
    cases kind with
    | literal value => exact ⟨_, returnsBy_cons hvis (fun _ => h) fun _ hkind => by cases hkind⟩
    | keep => exact ⟨_, returnsBy_cons hvis (fun _ => h) fun _ hkind => by cases hkind⟩
    | split operands =>
      have hall : ∀ b ∈ operands.reverse, ∀ queued bound, ReturnsBy g bound queued →
          ∃ bound', ReturnsBy g bound' (b :: queued) := by
        intro b hb queued bound h
        have hab : AndStep g a b := ⟨k, operands, hvis, mem_reverse.mp hb⟩
        exact ih b hab (hab.lt hg) h
      obtain ⟨bound', h'⟩ := returnsBy_append hall h
      refine ⟨bound' + 1, returnsBy_cons hvis (fun hkind =>
        by rcases hkind with h | h <;> cases h) ?_⟩
      rintro _ ⟨⟩
      exact h'

theorem Refuted.returnsBy (hg : g.WellFormed) (ha : Refuted g k a) :
    ∃ bound, ReturnsBy g bound (a :: queued) := by
  induction ha generalizing queued with
  | literal hvis =>
    refine ⟨0 + 1, returnsBy_cons hvis (fun hkind => ?_) fun _ hkind => by cases hkind⟩
    rcases hkind with hkind | hkind <;> cases hkind
  | @split a j b before after hvis haft _ ih =>
    have hall : ∀ c ∈ after.reverse, ∀ queued bound, ReturnsBy g bound queued →
        ∃ bound', ReturnsBy g bound' (c :: queued) := by
      intro c hc queued bound hq
      rw [mem_reverse] at hc
      exact (haft c hc).returnsBy hg (AndStep.lt hg ⟨j, _, hvis, by simp [hc]⟩) hq
    obtain ⟨bound, h⟩ : ∃ bound, ReturnsBy g bound (b :: (before.reverse ++ queued)) := ih
    obtain ⟨bound', h'⟩ := returnsBy_append hall h
    refine ⟨bound' + 1, returnsBy_cons hvis (fun hkind =>
      by rcases hkind with h | h <;> cases h) ?_⟩
    rintro _ ⟨⟩
    simpa [List.append_assoc] using h'

def Stops (g : EGraph) (ids : List Nat) : Prop :=
  (∀ a ∈ ids, Ends g a) ∨ ∃ k, RefutedIn g k ids

theorem Stops.head (hg : g.WellFormed) (ha : a < g.size) (h : Stops g (a :: ids)) :
    ∃ bound, ReturnsBy g bound [a] := by
  rcases h with h | ⟨k, before, b, after, heq, hbef, hb⟩
  · exact (h a mem_cons_self).returnsBy hg ha returnsBy_nil
  · cases before with
    | nil =>
      cases heq
      exact hb.returnsBy hg
    | cons c before =>
      cases heq
      exact (hbef a mem_cons_self).returnsBy hg ha returnsBy_nil

theorem Stops.tail (ha : ∀ k, ¬ FalseIn g a k) (h : Stops g (a :: ids)) : Stops g ids := by
  rcases h with h | ⟨k, before, b, after, heq, hbef, hb⟩
  · exact .inl fun b hb => h b (mem_cons_of_mem a hb)
  · cases before with
    | nil =>
      cases heq
      exact absurd hb.falseIn (ha k)
    | cons c before =>
      cases heq
      exact .inr ⟨k, before, b, after, rfl, fun c hc => hbef c (mem_cons_of_mem a hc), hb⟩

theorem canonicalizeFrom_returns (hg : g.WellFormed) (hids : ∀ a ∈ ids, a < g.size)
    (h : Stops g ids) (mark : Nat) : ∃ bound, ∀ fuel, bound ≤ fuel → ∀ i l,
      ∃ l', canonicalizeFrom g fuel mark i ids l = some l' := by
  induction ids with
  | nil => exact ⟨0, fun fuel _ i l => ⟨l, rfl⟩⟩
  | cons a ids ih =>
    obtain ⟨ha, hids⟩ := forall_mem_cons.mp hids
    obtain ⟨bound, hbd⟩ := h.head hg ha
    by_cases hff : ∃ k, FalseIn g a k
    · refine ⟨bound, fun fuel hfuel i l => ?_⟩
      obtain ⟨⟨l1, found⟩, hdrain⟩ := hbd (if i = mark then l.markSat else l) fuel hfuel
      rcases drain_cases hdrain with ⟨rfl, hd⟩ | ⟨k, rfl, -, -⟩
      · obtain ⟨k, hk⟩ := hff
        exact absurd hk (hd.noFalse a mem_cons_self k)
      · rw [canonicalizeFrom, hdrain]
        exact ⟨_, rfl⟩
    · obtain ⟨bound', hrest⟩ := ih hids (h.tail (not_exists.mp hff))
      refine ⟨max bound bound', fun fuel hfuel i l => ?_⟩
      obtain ⟨⟨l1, found⟩, hdrain⟩ := hbd (if i = mark then l.markSat else l) fuel
        (le_of_max_le_left hfuel)
      rw [canonicalizeFrom, hdrain]
      cases found with
      | none => exact hrest fuel (le_of_max_le_right hfuel) (i + 1) l1
      | some k => exact ⟨_, rfl⟩

/-- Canonicalisation returns exactly if no cycle of conjunctions comes before a false literal. -/
theorem canonicalize_returns_iff (g : EGraph) (hg : g.Reachable) (l : GraphAssertionList)
    (hl : ∀ a ∈ l.list, a < g.size) : (∃ fuel l', l.canonicalize g fuel = some l') ↔
      (∀ a ∈ l.list, Acyclic g a) ∨
        ∃ before a after, l.list = before ++ a :: after ∧ (∀ b ∈ before, Acyclic g b) ∧
          ∃ k, Refuted g k a := by
  have hw := hg.wellFormed
  have hiff : ∀ a ∈ l.list, Ends g a ↔ Acyclic g a := fun a ha => ends_iff_acyclic hw (hl a ha)
  constructor
  · rintro ⟨fuel, l', h⟩
    cases canonicalize_cases h with
    | kept hkept => exact .inl fun a ha => (hkept.ends a ha).acyclic
    | collapsed hids hscan ha =>
      exact .inr ⟨_, _, _, hids, fun b hb => (hscan.ends b hb).acyclic, _, ha⟩
  · intro hcond
    have hstops : Stops g l.list := by
      rcases hcond with hall | ⟨before, a, after, hlist, hbef, k, ha⟩
      · exact .inl fun a ha => (hiff a ha).mpr (hall a ha)
      · refine .inr ⟨k, before, a, after, hlist, fun b hb => ?_, ha⟩
        exact (hiff b (hlist ▸ mem_append_left _ hb)).mpr (hbef b hb)
    obtain ⟨bound, hbd⟩ := canonicalizeFrom_returns hw hl hstops l.mark
    obtain ⟨l', hl'⟩ := hbd bound le_rfl 0 ∅
    exact ⟨bound, l', hl'⟩

/-- The graph of `x & y` and the list of its class. -/
theorem canonicalize_returns_and :
    let x := fun i : Nat => Operation.constant (.int 1) (.numbered i)
    ∃ g : EGraph, EGraph.addOperation {} (.mk (.binary .and (.int 1)) [x 0, x 1]) = some (2, g) ∧
      ((insert ∅ 2).canonicalize g 4).map GraphAssertionList.list = some [1, 0] ∧
      ((∀ a ∈ (insert ∅ 2).list, Acyclic g a) ∨
        ∃ before a after, (insert ∅ 2).list = before ++ a :: after ∧
          (∀ b ∈ before, Acyclic g b) ∧ ∃ k, Refuted g k a) := by
  intro x
  obtain ⟨r, hr, hdata⟩ := map_eq_some_iff.mp (show (EGraph.addOperation {}
    (.mk (.binary .and (.int 1)) [x 0, x 1])).map (fun r => decide (r.1 = 2 ∧ r.2.size = 3 ∧
      ((insert ∅ 2).canonicalize r.2 4).map GraphAssertionList.list = some [1, 0])) = some true by
        decide +kernel)
  obtain ⟨hid, hsize, hlist⟩ := of_decide_eq_true hdata
  obtain ⟨l', hl', -⟩ := map_eq_some_iff.mp hlist
  refine ⟨r.2, by rw [← hid, hr], hlist, ?_⟩
  have hrch : r.2.Reachable := EGraph.Reachable.empty.addOperation hr
  refine (canonicalize_returns_iff r.2 hrch (insert ∅ 2) ?_).mp ⟨4, l', hl'⟩
  intro a ha
  cases mem_singleton.mp (show a ∈ [2] from ha)
  omega

theorem drain_of_own_conjunct (ha : visit g a = some (k, .split (operands ++ [a]))) :
    drain g fuel l (a :: queued) = none := by
  induction fuel generalizing queued with
  | zero => rfl
  | succ fuel ih =>
    simp only [drain, ha, some_bind, List.reverse_append, reverse_singleton, List.cons_append]
    exact ih

/-- The class of `x & x` is merged with that of `x` and is then a conjunction of itself. -/
theorem canonicalize_never_returns :
    ∃ r, EGraph.simplifyExpression (.mk (.binary .and (.int 1))
        [.constant (.int 1) (.numbered 0), .constant (.int 1) (.numbered 0)]) = some r ∧
      r.1 = [1] ∧ ∀ fuel, (insert ∅ 1).canonicalize r.2.2.graph fuel = none := by
  obtain ⟨r, hr, hdata⟩ := map_eq_some_iff.mp (show (EGraph.simplifyExpression
    (.mk (.binary .and (.int 1)) [.constant (.int 1) (.numbered 0),
      .constant (.int 1) (.numbered 0)])).map (fun r => decide (r.1 = [1] ∧
      visit r.2.2.graph 1 = some (1, .split [1, 1]))) = some true by decide +kernel)
  obtain ⟨hid, hvis⟩ := of_decide_eq_true hdata
  refine ⟨r, hr, hid, fun fuel => ?_⟩
  have hnone : drain r.2.2.graph fuel (markSat ∅) [1] = none := by
    rw [show [1, 1] = [1] ++ [1] from rfl] at hvis
    exact drain_of_own_conjunct hvis
  change canonicalizeFrom r.2.2.graph fuel 0 0 [1] ∅ = none
  rw [canonicalizeFrom, if_pos rfl, hnone]
  rfl

/-! ### Meaning -/

section Meaning

variable {α : Type*} {sem : OperationData → List α → α} {V : Nat → α} {bool : α → Option Bool}

/-- The semantics reads truth values: boolean literals and conjunctions mean what they should. -/
structure ReadsBooleans (sem : OperationData → List α → α) (bool : α → Option Bool) : Prop where
  literal : ∀ v : APInt, v.width = 1 → bool (sem (.constantInt v) []) = some (!v.isNullValue)
  conjunction : ∀ x y p q, bool x = some p → bool y = some q →
    bool (sem (.binary .and (.int 1)) [x, y]) = some (p && q)

/-- The nodes of a class have its value, a truth value if boolean; literals have no operands,
conjunctions two. -/
structure Consistent (sem : OperationData → List α → α) (bool : α → Option Bool) (V : Nat → α)
    (g : EGraph) : Prop where
  root : ∀ i, V (g.root i) = V i
  nodes : ∀ k c, g.classes.lookup k = some c → ∀ n ∈ c.nodes, EGraph.nodeValue sem V n = V k
  boolean : ∀ i, g.typeAt i = some (.int 1) → ∃ p, bool (V i) = some p
  literals : ∀ k c, g.classes.lookup k = some c → ∀ n ∈ c.nodes, n.opcode = .constantInt →
    n.operands = []
  conjunctions : ∀ k c, g.classes.lookup k = some c → ∀ n ∈ c.nodes, n.opcode = .binary .and →
    ∃ lhs rhs, n.operands = [lhs, rhs] ∧ g.typeAt lhs = some n.type ∧ g.typeAt rhs = some n.type

def Conjunction (bool : α → Option Bool) (V : Nat → α) (ids : List Nat) : Prop :=
  ∀ a ∈ ids, bool (V a) = some true

def Collapsed (g : EGraph) (l : GraphAssertionList) : Prop :=
  ∃ k c n v, l.list = [k] ∧ g.classes.lookup k = some c ∧ n ∈ c.nodes ∧
    n.data = .constantInt v ∧ v.isNullValue = true

def Plain (g : EGraph) (k : Nat) : Prop :=
  ∃ c, g.classes.lookup k = some c ∧ ∀ n ∈ c.nodes, n.opcode ≠ .binary .and ∧
    ∀ v, n.data = .constantInt v → v.isNullValue = true

theorem nodes_of_constant (hg : g.Reachable) (hw : g.worklist = [])
    (hc : g.classes.lookup k = some c) (hn : n ∈ c.nodes) (hconst : n.isConstant = true) :
    c.nodes = [n] := by
  have hclass : c.isConstant = true := by
    by_contra hnone
    have hidx : c.constantIndex = none := not_isSome_iff_eq_none.mp hnone
    rw [(hg.wellFormed.classes k c hc).constant hidx n hn] at hconst
    cases hconst
  obtain ⟨m, hm⟩ := length_eq_one_iff.mp (hg.literalAlone hw hc hclass).2
  rw [hm, mem_singleton] at hn
  rw [hm, hn]

theorem typeAt_eq (hg : g.WellFormed) (hc : g.classes.lookup (g.root a) = some c)
    (hn : n ∈ c.nodes) :
    g.typeAt a = some n.type := by
  rw [EGraph.typeAt, hc]
  exact (hg.classes _ c hc).types n hn

variable (hsem : ReadsBooleans sem bool) (hg : g.WellFormed) (hV : Consistent sem bool V g)

include hsem hg hV

theorem literal_value (ha : g.typeAt a = some (.int 1)) {value : Bool}
    (h : visit g a = some (k, .literal value)) : bool (V k) = some value := by
  obtain ⟨-, rfl, c, hc, hkind⟩ := visit_cases h
  cases hkind with
  | @literal n v hn hdata =>
    have hop : n.opcode = .constantInt := by rw [ENode.opcode, hdata]; rfl
    have hwid : v.width = 1 := by
      have htype := (typeAt_eq hg hc hn).symm.trans ha
      rw [ENode.type, hdata] at htype
      exact Ty.int.inj (some.inj htype)
    rw [← hV.nodes _ c hc n hn, EGraph.nodeValue, hdata, hV.literals _ c hc n hn hop]
    exact hsem.literal v hwid

theorem split_value (ha : g.typeAt a = some (.int 1)) (h : visit g a = some (k, .split operands)) :
    (∀ b ∈ operands, g.typeAt b = some (.int 1)) ∧
      (bool (V a) = some true ↔ ∀ b ∈ operands, bool (V b) = some true) := by
  obtain ⟨-, rfl, c, hc, hkind⟩ := visit_cases h
  cases hkind with
  | @split n hn hop =>
    obtain ⟨lhs, rhs, hops, hlhs, hrhs⟩ := hV.conjunctions _ c hc n hn hop
    rw [← typeAt_eq hg hc hn, ha] at hlhs hrhs
    obtain ⟨p, hp⟩ := hV.boolean lhs hlhs
    obtain ⟨q, hq⟩ := hV.boolean rhs hrhs
    have hdata : n.data = .binary .and (.int 1) := by
      have htype := (typeAt_eq hg hc hn).symm.trans ha
      have hshape := n.data.shape_of_opcode
      rw [show n.data.opcode = .binary .and from hop] at hshape
      obtain ⟨t, ht⟩ := hshape
      rw [ENode.type, ht] at htype
      rw [ht, show t = .int 1 from some.inj htype]
    have hval : bool (V a) = some (p && q) := by
      rw [← hV.root a, ← hV.nodes _ c hc n hn, EGraph.nodeValue, hdata, hops]
      exact hsem.conjunction _ _ p q hp hq
    rw [hval, hops]
    simp [hlhs, hrhs, hp, hq]

theorem conjunct_type (ha : g.typeAt a = some (.int 1)) (hab : Conjunct g a b) :
    g.typeAt b = some (.int 1) := by
  induction hab with
  | refl => exact ha
  | tail _ hstep ih =>
    obtain ⟨k, operands, hvis, hb⟩ := hstep
    exact (split_value hsem hg hV ih hvis).1 _ hb

theorem conjunct_value (ha : g.typeAt a = some (.int 1)) (hab : Conjunct g a b)
    (htrue : bool (V a) = some true) : bool (V b) = some true := by
  induction hab with
  | refl => exact htrue
  | tail hac hstep ih =>
    obtain ⟨k, operands, hvis, hb⟩ := hstep
    exact (split_value hsem hg hV (conjunct_type hsem hg hV ha hac) hvis).2.mp ih _ hb

theorem FalseIn.value (ha : g.typeAt a = some (.int 1)) (h : FalseIn g a k) :
    bool (V k) = some false ∧ bool (V a) ≠ some true := by
  obtain ⟨b, hab, hb⟩ := h
  have hff := literal_value hsem hg hV (conjunct_type hsem hg hV ha hab) hb
  refine ⟨hff, fun htrue => ?_⟩
  have htrue := conjunct_value hsem hg hV ha hab htrue
  rw [← hV.root b, ← (visit_cases hb).2.1, hff] at htrue
  cases htrue

theorem Ends.value (hends : Ends g a) (ha : g.typeAt a = some (.int 1)) (hlt : a < g.size)
    (hno : ∀ k, ¬ FalseIn g a k) :
    bool (V a) = some true ↔ ∀ p, KeptIn g a p → bool (V p) = some true := by
  constructor
  · rintro htrue p ⟨b, hab, hb⟩
    rw [(visit_cases hb).2.1, hV.root b]
    exact conjunct_value hsem hg hV ha hab htrue
  · induction hends with
    | intro a _ ih =>
      intro hkept
      obtain ⟨k, kind, hvis⟩ := exists_visit hg hlt
      have hroot : V k = V a := by rw [(visit_cases hvis).2.1, hV.root a]
      cases kind with
      | literal value =>
        cases value with
        | true => exact hroot ▸ literal_value hsem hg hV ha hvis
        | false => exact absurd ⟨a, ReflTransGen.refl, hvis⟩ (hno k)
      | keep => exact hroot ▸ hkept k ⟨a, ReflTransGen.refl, hvis⟩
      | split operands =>
        obtain ⟨htys, hiff⟩ := split_value hsem hg hV ha hvis
        refine hiff.mpr fun b hb => ?_
        have hab : AndStep g a b := ⟨k, operands, hvis, hb⟩
        exact ih b hab (htys b hb) (hab.lt hg) (fun j hj => hno j (hj.of_step hab))
          fun p hp => hkept p (hp.of_step hab)

theorem conjunction_kept {ps : List Nat} (hids : ∀ a ∈ ids, g.typeAt a = some (.int 1))
    (hlt : ∀ a ∈ ids, a < g.size) (hno : ∀ a ∈ ids, ∀ k, ¬ FalseIn g a k)
    (hends : ∀ a ∈ ids, Ends g a) (hps : ∀ p, p ∈ ps ↔ ∃ a ∈ ids, KeptIn g a p) :
    Conjunction bool V ps ↔ Conjunction bool V ids := by
  have hval : ∀ a ∈ ids, bool (V a) = some true ↔ ∀ p, KeptIn g a p → bool (V p) = some true :=
    fun a ha => (hends a ha).value hsem hg hV (hids a ha) (hlt a ha) (hno a ha)
  constructor
  · exact fun h a ha => (hval a ha).mpr fun p hp => h p ((hps p).mpr ⟨a, ha, hp⟩)
  · intro h p hp
    obtain ⟨a, ha, hkept⟩ := (hps p).mp hp
    exact (hval a ha).mp (h a ha) p hkept

omit hsem hg hV

theorem KeptIn.not_literal (hg : g.Reachable) (hw : g.worklist = []) (h : KeptIn g a p)
    (hc : g.classes.lookup p = some c) (hn : n ∈ c.nodes) (v : APInt) :
    n.data ≠ .constantInt v := by
  obtain ⟨b, -, hb⟩ := h
  obtain ⟨-, -, c', hc', hkind⟩ := visit_cases hb
  cases hc.symm.trans hc'
  cases hkind with
  | keep hfront hdata _ =>
    intro hv
    have halone := nodes_of_constant hg hw hc hn (by rw [ENode.isConstant, hv]; rfl)
    rw [halone, List.head?_cons] at hfront
    exact hdata v (some.inj hfront ▸ hv)

theorem KeptIn.plain (hg : g.Reachable) (hw : g.worklist = []) (h : KeptIn g a p) : Plain g p := by
  obtain ⟨b, -, hb⟩ := id h
  obtain ⟨-, -, c, hc, hkind⟩ := visit_cases hb
  cases hkind with
  | keep _ _ hop =>
    exact ⟨c, hc, fun n hn => ⟨hop n hn, fun v hv => absurd hv (h.not_literal hg hw hc hn v)⟩⟩

theorem FalseIn.plain (hg : g.Reachable) (hw : g.worklist = []) (h : FalseIn g a k) :
    Plain g k := by
  obtain ⟨b, -, hb⟩ := h
  obtain ⟨-, -, c, hc, hkind⟩ := visit_cases hb
  generalize hff : Visit.literal false = kind at hkind
  cases hkind with
  | @literal n v hn hdata =>
    have halone := nodes_of_constant hg hw hc hn (by rw [ENode.isConstant, hdata]; rfl)
    refine ⟨c, hc, fun m hm => ?_⟩
    rw [halone, mem_singleton] at hm
    subst hm
    refine ⟨fun hop => ?_, fun v' hv' => ?_⟩
    · rw [ENode.opcode, hdata] at hop
      cases hop
    · cases hdata.symm.trans hv'
      simpa using hff
  | split => cases hff
  | keep => cases hff

theorem FalseIn.collapsed (h : FalseIn g a k) (hlist : l.list = [k]) : Collapsed g l := by
  obtain ⟨b, -, hb⟩ := h
  obtain ⟨-, -, c, hc, hkind⟩ := visit_cases hb
  generalize hff : Visit.literal false = kind at hkind
  cases hkind with
  | @literal n v hn hdata => exact ⟨k, c, n, v, hlist, hc, hn, hdata, by simpa using hff⟩
  | split => cases hff
  | keep => cases hff

/-- The mark is carried over exactly if it is inside the list; else it is lost, unless the list
collapses. -/
theorem canonicalize_keeps_iff {α : Type*} (sem : OperationData → List α → α)
    (bool : α → Option Bool) (hsem : ReadsBooleans sem bool) (g : EGraph) (hg : g.Reachable)
    (hw : g.worklist = []) (V : Nat → α) (hV : Consistent sem bool V g) (l : GraphAssertionList)
    (hl : ∀ a ∈ l.list, a < g.size ∧ g.typeAt a = some (.int 1)) (fuel : Nat)
    (l' : GraphAssertionList) (h : l.canonicalize g fuel = some l') :
    ((Conjunction bool V l'.list ↔ Conjunction bool V l.list) ∧
      (Collapsed g l' ∨ (Conjunction bool V l'.proven ↔ Conjunction bool V l.proven)) ∧
      l'.list.Nodup ∧ ∀ k ∈ l'.list, Plain g k) ↔
      (l.mark < l.size ∨ (∃ a ∈ l.list, ∃ k, FalseIn g a k) ∨ Conjunction bool V l.list) := by
  have hwell := hg.wellFormed
  have htys := fun a ha => (hl a ha).2
  have hlt := fun a ha => (hl a ha).1
  cases canonicalize_cases h with
  | collapsed hids hscan ha hlist hproven hmark =>
    rename_i done rest a k l1
    have hmem : a ∈ l.list := by rw [hids]; exact mem_append_cons_self
    have hff := ha.falseIn.value hsem hwell hV (htys a hmem)
    refine iff_of_true ⟨?_, .inl (ha.falseIn.collapsed hlist), l'.nodup, ?_⟩
      (.inr (.inl ⟨a, hmem, k, ha.falseIn⟩))
    · refine iff_of_false (fun hall => ?_) (fun hall => hff.2 (hall a hmem))
      have htrue := hall k (by rw [hlist]; exact mem_singleton_self k)
      rw [hff.1] at htrue
      cases htrue
    · rw [hlist]
      intro j hj
      rw [mem_singleton.mp hj]
      exact ha.falseIn.plain hg hw
  | kept hscan =>
    have hwhole := conjunction_kept hsem hwell hV htys hlt hscan.noFalse hscan.ends hscan.kept
    have hplain : ∀ k ∈ l'.list, Plain g k := by
      intro k hk
      obtain ⟨a, -, hkept⟩ := (hscan.kept k).mp hk
      exact hkept.plain hg hw
    have hnot : ¬ Collapsed g l' := by
      rintro ⟨k, c, n, v, hlist, hc, hn, hdata, -⟩
      obtain ⟨a, -, hkept⟩ := (hscan.kept k).mp (by rw [hlist]; exact mem_singleton_self k)
      exact hkept.not_literal hg hw hc hn v hdata
    have hnofalse : ¬ ∃ a ∈ l.list, ∃ k, FalseIn g a k := fun ⟨a, ha, k, hk⟩ =>
      hscan.noFalse a ha k hk
    rw [or_iff_right hnot, or_iff_right hnofalse]
    by_cases hmark : l.mark < l.size
    · have hsub : ∀ a ∈ l.list.take l.mark, a ∈ l.list := fun a => mem_of_mem_take
      have hpart := conjunction_kept hsem hwell hV (fun a ha => htys a (hsub a ha))
        (fun a ha => hlt a (hsub a ha)) (fun a ha => hscan.noFalse a (hsub a ha))
        (fun a ha => hscan.ends a (hsub a ha)) (hscan.after hmark).2
      exact iff_of_true ⟨hwhole, hpart, l'.nodup, hplain⟩ (.inl hmark)
    · -- the loop ends before it comes to the mark
      have hzero : l'.mark = 0 := hscan.before (Nat.not_lt.mp hmark)
      have hproven' : Conjunction bool V l'.proven := by
        rw [proven, hzero, take_zero]
        exact fun a ha => absurd ha not_mem_nil
      have hproven : l.proven = l.list := take_of_length_le (Nat.not_lt.mp hmark)
      rw [or_iff_right hmark, hproven, iff_true_left hproven']
      exact ⟨fun hall => hall.2.1, fun hall => ⟨hwhole, hall, l'.nodup, hplain⟩⟩

section Samples

def truth : Val → Option Bool
  | .int v => if v.width = 1 then some (!v.isNullValue) else none
  | _ => none

theorem truth_eq_some {x : Val} {p : Bool} (h : truth x = some p) :
    ∃ b : BitVec 1, x = .int ⟨1, b⟩ ∧ p = !(APInt.mk 1 b).isNullValue := by
  cases x with
  | int v =>
    obtain ⟨w, b⟩ := v
    rw [truth] at h
    split_ifs at h with hw
    cases (show w = 1 from hw)
    exact ⟨b, rfl, (some.inj h).symm⟩
  | array => cases h
  | poison => cases h

theorem readsBooleans_truth (σ : Assignment) : ReadsBooleans (Semantics.apply σ) truth where
  literal v hv := by rw [Semantics.apply, truth, if_pos hv]
  conjunction x y p q hx hy := by
    obtain ⟨x, rfl, rfl⟩ := truth_eq_some hx
    obtain ⟨y, rfl, rfl⟩ := truth_eq_some hy
    change truth (Semantics.binary .and ⟨1, x⟩ ⟨1, y⟩) = _
    clear hx hy
    revert x y
    decide

def graphOf (o : Operation) : Option (Nat × EGraph) := do
  let (id, g) ← EGraph.addOperation {} o
  let g ← g.rebuild .insertion 10
  some (id, g)

theorem graphOf_reachable {o : Operation} {r : Nat × EGraph} (h : graphOf o = some r) :
    r.2.Reachable := by
  simp only [graphOf, bind_eq_some, Prod.exists, some.injEq] at h
  obtain ⟨id, g, hadd, g', hrebuild, rfl⟩ := h
  exact (EGraph.Reachable.empty.addOperation hadd).rebuild hrebuild

def isSampleNode (g : EGraph) (n : ENode) : Bool :=
  match n.data, n.operands with
  | .constant (.int 1) _, [] => true
  | .binary .and (.int 1), [lhs, rhs] =>
    g.typeAt lhs = some (.int 1) && g.typeAt rhs = some (.int 1)
  | _, _ => false

theorem isSampleNode_cases (h : isSampleNode g n = true) :
    (∃ s, n = ⟨.constant (.int 1) s, []⟩) ∨ ∃ lhs rhs, n = ⟨.binary .and (.int 1), [lhs, rhs]⟩ ∧
      g.typeAt lhs = some (.int 1) ∧ g.typeAt rhs = some (.int 1) := by
  obtain ⟨d, os⟩ := n
  unfold isSampleNode at h
  split at h
  · rename_i s hd hos
    cases hd
    cases hos
    exact .inl ⟨s, rfl⟩
  · rename_i lhs rhs hd hos
    cases hd
    cases hos
    exact .inr ⟨lhs, rhs, rfl, by simpa using h⟩
  · cases h

theorem consistent_false (h : ∀ p ∈ g.classes.pairs, ∀ n ∈ p.2.nodes, isSampleNode g n = true) :
    Consistent (Semantics.apply default) truth (fun _ => .int ⟨1, 0⟩) g := by
  have hnode := fun k c hc n hn => isSampleNode_cases (h (k, c) (Map.mem_pairs.mpr hc) n hn)
  refine ⟨fun _ => rfl, fun k c hc n hn => ?_, fun _ _ => ⟨false, rfl⟩, fun k c hc n hn hop => ?_,
    fun k c hc n hn hop => ?_⟩
  · obtain ⟨s, rfl⟩ | ⟨lhs, rhs, rfl, -, -⟩ := hnode k c hc n hn
    · rfl
    · rfl
  · obtain ⟨s, rfl⟩ | ⟨lhs, rhs, rfl, -, -⟩ := hnode k c hc n hn
    · rfl
    · cases hop
  · obtain ⟨s, rfl⟩ | ⟨lhs, rhs, rfl, hlhs, hrhs⟩ := hnode k c hc n hn
    · cases s <;> cases hop
    · exact ⟨lhs, rhs, rfl, hlhs, hrhs⟩

/-- `x & y` and then `x`, with the mark between them, in a graph of `x & y`. -/
theorem canonicalize_keeps_and :
    let x := fun i : Nat => Operation.constant (.int 1) (.numbered i)
    let l := (insert ∅ 2).markSat.insert 0
    let bits : Nat → Val := fun _ => .int ⟨1, 0⟩
    ∃ g l', graphOf (.mk (.binary .and (.int 1)) [x 0, x 1]) = some (2, g) ∧
      l.canonicalize g 4 = some l' ∧ l'.list = [1, 0] ∧ l'.proven = [1, 0] ∧
      (Conjunction truth bits l'.list ↔ Conjunction truth bits l.list) ∧
      (Collapsed g l' ∨ (Conjunction truth bits l'.proven ↔ Conjunction truth bits l.proven)) ∧
      l'.list.Nodup ∧ ∀ k ∈ l'.list, Plain g k := by
  intro x l bits
  obtain ⟨r, hr, hdata⟩ := map_eq_some_iff.mp (show (graphOf
    (.mk (.binary .and (.int 1)) [x 0, x 1])).map (fun r => decide (r.1 = 2 ∧
      r.2.worklist = [] ∧ (∀ p ∈ r.2.classes.pairs, ∀ n ∈ p.2.nodes, isSampleNode r.2 n = true) ∧
      (∀ a ∈ l.list, a < r.2.size ∧ r.2.typeAt a = some (.int 1)) ∧
      (l.canonicalize r.2 4).map (fun l' => (l'.list, l'.proven)) = some ([1, 0], [1, 0]))) =
        some true by decide +kernel)
  obtain ⟨hid, hw, hnodes, hl, hrun⟩ := of_decide_eq_true hdata
  obtain ⟨l', hl', heq⟩ := map_eq_some_iff.mp hrun
  obtain ⟨hlist, hproven⟩ := Prod.mk.inj heq
  refine ⟨r.2, l', hr.trans (congrArg some (Prod.ext hid rfl)), hl', hlist, hproven, ?_⟩
  exact (canonicalize_keeps_iff _ truth (readsBooleans_truth default) r.2 (graphOf_reachable hr) hw
    bits (consistent_false hnodes) l hl 4 l' hl').mpr (.inl (by decide))

/-- A list of one symbol that is proven is not proven after canonicalisation. -/
theorem canonicalize_loses_mark :
    let l := (insert ∅ 0).markSat
    let bits : Nat → Val := fun _ => .int ⟨1, 0⟩
    ∃ g l', graphOf (.constant (.int 1) (.numbered 0)) = some (0, g) ∧
      g.Reachable ∧ g.worklist = [] ∧ Consistent (Semantics.apply default) truth bits g ∧
      l.proven = [0] ∧ g.typeAt 0 = some (.int 1) ∧ l.canonicalize g 3 = some l' ∧
      l'.list = [0] ∧ l'.proven = [] ∧ ¬ Collapsed g l' ∧
      Conjunction truth bits l'.proven ∧ ¬ Conjunction truth bits l.proven := by
  intro l bits
  obtain ⟨r, hr, hdata⟩ := map_eq_some_iff.mp (show (graphOf
    (.constant (.int 1) (.numbered 0))).map (fun r => decide (r.1 = 0 ∧ r.2.worklist = [] ∧
      (∀ p ∈ r.2.classes.pairs, ∀ n ∈ p.2.nodes, isSampleNode r.2 n = true) ∧
      r.2.typeAt 0 = some (.int 1) ∧
      (l.canonicalize r.2 3).map (fun l' => (l'.list, l'.proven)) = some ([0], []))) = some true by
        decide +kernel)
  obtain ⟨hid, hw, hnodes, htype, hrun⟩ := of_decide_eq_true hdata
  obtain ⟨l', hl', heq⟩ := map_eq_some_iff.mp hrun
  obtain ⟨hlist, hproven⟩ := Prod.mk.inj heq
  refine ⟨r.2, l', hr.trans (congrArg some (Prod.ext hid rfl)), graphOf_reachable hr, hw,
    consistent_false hnodes, rfl, htype, hl', hlist, hproven, ?_, ?_, ?_⟩
  · rintro ⟨k, c, n, v, -, hc, hn, hdata, -⟩
    obtain ⟨s, rfl⟩ | ⟨lhs, rhs, rfl, -, -⟩ :=
      isSampleNode_cases (hnodes (k, c) (Map.mem_pairs.mpr hc) n hn)
    · cases hdata
    · cases hdata
  · rw [hproven]
    exact fun a ha => absurd ha not_mem_nil
  · exact fun hall => absurd (hall 0 mem_cons_self) (by decide)

end Samples

end Meaning

/-! ### Runs -/

inductive Call where
  | insert (assertion : Nat)
  | markSat
  | checkpoint
  | restore (checkpoint : Nat)
  | canonicalize (g : EGraph)

/-- A list with its checkpoints, and the assertions that come from the last `markSat`. -/
structure History where
  list : GraphAssertionList
  checkpoints : List Nat
  sat : Set Nat

/-- Canonicalisation replaces assertions by their conjuncts and makes checkpoints useless. -/
inductive Step (h : History) : Call → History → Prop
  | insert (a : Nat) : Step h (.insert a) { h with list := h.list.insert a }
  | markSat : Step h .markSat { h with list := h.list.markSat, sat := {a | a ∈ h.list.list} }
  | checkpoint : Step h .checkpoint { h with checkpoints := h.list.checkpoint :: h.checkpoints }
  | restore {c : Nat} {l : GraphAssertionList} (hc : c ∈ h.checkpoints)
    (hl : h.list.restore c = some l) :
    Step h (.restore c) { h with list := l, sat := {a | a ∈ l.list ∧ a ∈ h.sat} }
  | canonicalize {g : EGraph} {fuel : Nat} {l : GraphAssertionList}
    (hl : h.list.canonicalize g fuel = some l) :
    Step h (.canonicalize g) ⟨l, [], {p | p ∈ l.list ∧ ∃ a ∈ h.sat, KeptIn g a p ∨ FalseIn g a p}⟩

/-- The runs whose calls all meet the condition `C` on the state they are made in. -/
inductive Run (C : History → Call → Prop) : History → Prop
  | start : Run C ⟨∅, [], ∅⟩
  | step {h h' : History} {call : Call} (hrun : Run C h) (hcall : C h call)
    (hstep : Step h call h') : Run C h'

/-- Only unproven assertions are removed, and no list with proven ones collapses to a false conjunct
of an unproven one. -/
def Keeps (h : History) : Call → Prop
  | .restore c => h.list.mark ≤ c
  | .canonicalize g => (∃ a ∈ h.list.proven, ∃ k, FalseIn g a k) ∨
    (∀ a ∈ h.list.list, ∀ k, ¬ FalseIn g a k) ∨ ∀ a ∈ h.list.proven, ∀ p, ¬ KeptIn g a p
  | _ => True

/-- The mark is inside the list, and only assertions listed at the last `markSat` are proven. -/
structure Marked (h : History) : Prop where
  mark : h.list.mark ≤ h.list.size
  sat : ∀ a ∈ h.list.proven, a ∈ h.sat

theorem Marked.canonicalize (hm : Marked h) (hkeeps : Keeps h (.canonicalize g))
    (hl : h.list.canonicalize g fuel = some l) :
    Marked ⟨l, [], {p | p ∈ l.list ∧ ∃ a ∈ h.sat, KeptIn g a p ∨ FalseIn g a p}⟩ := by
  cases canonicalize_cases hl with
  | kept hscan =>
    by_cases hlt : h.list.mark < h.list.size
    · obtain ⟨hsize, hproven⟩ := hscan.after hlt
      refine ⟨hsize, fun p hp => ⟨mem_of_mem_take hp, ?_⟩⟩
      obtain ⟨a, ha, hkept⟩ := (hproven p).mp hp
      exact ⟨a, hm.sat a ha, .inl hkept⟩
    · have hzero : l.mark = 0 := hscan.before (Nat.not_lt.mp hlt)
      refine ⟨hzero ▸ Nat.zero_le _, fun p hp => ?_⟩
      rw [proven, hzero] at hp
      cases hp
  | collapsed hids hscan ha hlist hproven hmark =>
    rename_i done rest a k l1
    by_cases hlt : done.length < h.list.mark
    · -- the literal is a conjunct of a proven assertion
      have hone := hproven hlt
      have hmem : a ∈ h.list.proven := by
        obtain ⟨m, hm⟩ := Nat.exists_eq_succ_of_ne_zero (Nat.sub_ne_zero_of_lt hlt)
        rw [proven, hids, take_append, hm, take_succ_cons]
        exact mem_append_cons_self
      have hsize : l.mark ≤ l.size := by rw [hone, size, hlist, length_singleton]
      refine ⟨hsize, fun p hp => ⟨mem_of_mem_take hp, a, hm.sat a hmem, ?_⟩⟩
      rw [proven, hlist] at hp
      rw [mem_singleton.mp (mem_of_mem_take hp)]
      exact .inr ha.falseIn
    · have hle := Nat.not_lt.mp hlt
      obtain ⟨hsize, hkept⟩ := hmark hle
      have htake : h.list.proven = done.take h.list.mark := by
        rw [proven, hids, take_append_of_le_length hle]
      have hzero : l.mark = 0 := by
        rcases hkeeps with ⟨b, hb, j, hj⟩ | hno | hnone
        · rw [htake] at hb
          exact absurd hj (hscan.noFalse b (mem_of_mem_take hb) j)
        · exact absurd ha.falseIn (hno a (hids ▸ mem_append_cons_self) k)
        · have hemp : l1.list.take l.mark = [] := by
            refine eq_nil_iff_forall_not_mem.mpr fun p hp => ?_
            obtain ⟨b, hb, hbp⟩ := (hkept p).mp hp
            exact hnone b (htake ▸ hb) p hbp
          have hlen := congrArg List.length hemp
          rw [length_take, length_nil] at hlen
          exact (Nat.min_eq_left hsize).symm.trans hlen
      refine ⟨hzero ▸ Nat.zero_le _, fun p hp => ?_⟩
      rw [proven, hzero] at hp
      cases hp

theorem Marked.step {h' : History} {call : Call} (hm : Marked h) (hkeeps : Keeps h call)
    (hstep : Step h call h') : Marked h' := by
  cases hstep with
  | insert a =>
    obtain ⟨more, hmore⟩ := insert_isPrefix h.list a
    refine ⟨?_, fun b hb => hm.sat b ?_⟩
    · rw [insert_mark, size, ← hmore, length_append]
      exact hm.mark.trans (Nat.le_add_right _ _)
    · rw [proven, insert_mark, ← hmore, take_append_of_le_length hm.mark] at hb
      exact hb
  | markSat => exact ⟨le_rfl, fun b hb => mem_of_mem_take hb⟩
  | checkpoint => exact ⟨hm.mark, hm.sat⟩
  | @restore c l _ hl =>
    unfold restore at hl
    split_ifs at hl with hc
    cases hl
    have hle : h.list.mark ≤ c := hkeeps
    refine ⟨?_, fun b hb => ⟨mem_of_mem_take hb, hm.sat b ?_⟩⟩
    · rw [size, length_take]
      exact le_min hle hm.mark
    · rwa [proven, take_take, Nat.min_eq_left hle] at hb
  | canonicalize hl => exact hm.canonicalize hkeeps hl

theorem run_marked (hrun : Run Keeps h) : Marked h := by
  induction hrun with
  | start => exact ⟨le_rfl, fun a ha => by cases ha⟩
  | step _ hkeeps hstep ih => exact ih.step hkeeps hstep

/-- The two views are the list, and none but assertions of the last `markSat` is proven. -/
theorem run_proven (h : History) (hrun : Run Keeps h) :
    h.list.mark ≤ h.list.size ∧ h.list.proven ++ h.list.unproven = h.list.list ∧
      ∀ a ∈ h.list.proven, a ∈ h.sat :=
  have hm := run_marked hrun
  ⟨hm.mark, take_append_drop _ _, hm.sat⟩

/-- An assertion is inserted and removed again after the other one has been marked. -/
theorem run_proven_restored :
    ∃ h : History, Run Keeps h ∧ h.list.list = [1] ∧ h.checkpoints = [1] ∧
      h.list.mark ≤ h.list.size ∧ h.list.proven ++ h.list.unproven = h.list.list ∧
      ∀ a ∈ h.list.proven, a ∈ h.sat := by
  have h1 : Run Keeps _ := .step .start (by trivial) (.insert 1)
  have h2 := h1.step (by trivial) .markSat
  have h3 := h2.step (by trivial) .checkpoint
  have h4 := h3.step (by trivial) (.insert 2)
  have h5 := h4.step (show Keeps _ (.restore 1) from le_rfl) (.restore mem_cons_self rfl)
  exact ⟨_, h5, rfl, rfl, run_proven _ h5⟩

/-- The mark is set past the checkpoint. When the list is restored it is outside, and the next
assertion is proven. -/
theorem run_mark_outside :
    ∃ h h' : History, Run (fun _ _ => True) h ∧ h.list.list = [1] ∧ h.list.mark = 2 ∧
      Step h (.insert 3) h' ∧ h'.list.proven = [1, 3] ∧ 3 ∉ h'.sat := by
  have h1 : Run (fun _ _ => True) _ := .step .start (by trivial) (.insert 1)
  have h2 := h1.step (by trivial) .checkpoint
  have h3 := h2.step (by trivial) (.insert 2)
  have h4 := h3.step (by trivial) .markSat
  have h5 := h4.step (by trivial) (.restore mem_cons_self rfl)
  refine ⟨_, _, h5, rfl, rfl, .insert 3, rfl, ?_⟩
  rintro ⟨hmem, -⟩
  revert hmem
  decide

end GraphAssertionList

end Caffeine
