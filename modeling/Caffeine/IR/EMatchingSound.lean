import Caffeine.IR.RewriteSound

/-!
# Soundness of the clauses of a matcher

`fits` is what the update function of a clause relies on in its sub-clauses. The integer clauses of
the default matcher fit. A clause that fits, applied to a node that matches, keeps the invariant of
a round unless an event is logged.
-/

namespace Caffeine

open EGraph Semantics GraphAccessor SubClause

namespace GraphAccessor

structure Step (σ : Assignment) (V : Nat → Val) (g : EGraph) (a a' : GraphAccessor) : Prop where
  calls : Calls a a'
  ok : Ok σ V g a → IsValuation (apply σ) V a'.graph → a'.events = [] → Ok σ V g a'

namespace Step

variable {σ : Assignment} {V : Nat → Val} {g : EGraph} {a a' a'' : GraphAccessor}

theorem refl (a : GraphAccessor) : Step σ V g a a := ⟨Calls.refl a, fun ha _ _ => ha⟩

theorem trans (h : Step σ V g a a') (h' : Step σ V g a' a'') : Step σ V g a a'' where
  calls := h.calls.trans h'.calls
  ok ha hv he := h'.ok (h.ok ha (hv.of_extends h'.calls.grows.graph)
    (h'.calls.grows.events he)) hv he

theorem foldlM {α : Type} {f : GraphAccessor → α → Option GraphAccessor} {l : List α}
    (hstep : ∀ a x a', x ∈ l → f a x = some a' → Step σ V g a a') (h : l.foldlM f a = some a') :
    Step σ V g a a' :=
  foldlM_invariant (fun a' => Step σ V g a a')
    (fun _ _ _ hx hf ih => ih.trans (hstep _ _ _ hx hf)) h (refl a)

theorem observe (opcode : Option Opcode) (n : ENode) : Step σ V g a (a.observe opcode n) :=
  ⟨Calls.observe a opcode n, fun ha _ _ => ha.observe opcode n⟩

end Step

end GraphAccessor

namespace CapturesMap

theorem lookup_push (captures : CapturesMap) (s : Nat) (n : ENode) (k : Nat) :
    (captures.push s n).lookup k =
      if k = s then some ((captures.lookup s).getD [] ++ [n]) else captures.lookup k :=
  Map.lookup_insert _ _ _ _

variable {top sub : Nat} {n captured : ENode}

theorem capture_top (h : sub ≠ top) : ((push ∅ top n).push sub captured).capture top = some n := by
  rw [capture, lookup_push, if_neg h.symm, lookup_push, if_pos rfl]
  rfl

theorem capture_sub (h : sub ≠ top) :
    ((push ∅ top n).push sub captured).capture sub = some captured := by
  rw [capture, lookup_push, if_pos rfl, lookup_push, if_neg h]
  rfl

end CapturesMap

namespace SubClause

variable {c : SubClause} {n : ENode}

theorem opcode_of_match (h : c.isPotentialMatch n = true) {opcode : Opcode}
    (hc : c.opcode = some opcode) : n.opcode = opcode := by
  simp only [isPotentialMatch, hc, Bool.and_eq_true, Bool.or_eq_true, decide_eq_true_eq,
    Option.some.injEq, reduceCtorEq, false_or] at h
  exact h.1.symm

theorem filter_of_match (h : c.isPotentialMatch n = true) {filter : SubClauseFilter}
    (hc : c.filter = some filter) : filter.accepts n = true := by
  simp only [isPotentialMatch, hc, Bool.and_eq_true, Option.all_some] at h
  exact h.2

end SubClause

namespace Rewrite

def isCapturing : Rewrite → Bool
  | .icmpeqSelect _ _ | .zextTrunc _ _ | .truncZext _ _ => true
  | _ => false

end Rewrite

namespace EMatcher

/-- The sub-clause `sub` is the pattern of the first operand, the only one with captures. -/
def capturesFirst (m : EMatcher) (top : Nat) (c : SubClause) (sub : Nat) (opcode : Opcode) : Bool :=
  match c.submatchers with
  | [] => false
  | s :: rest =>
    s = sub && sub ≠ top && m.captures[sub]? = some true &&
      rest.all (m.captures[·]? = some false) &&
      (m.subclauses[sub]?).any (fun d => d.isCapture && d.opcode = some opcode &&
        d.submatchers.all (m.captures[·]? = some false))

theorem capturesFirst_cases {m : EMatcher} {top : Nat} {c : SubClause} {sub : Nat} {opcode : Opcode}
    (h : m.capturesFirst top c sub opcode = true) :
    ∃ rest d, c.submatchers = sub :: rest ∧ sub ≠ top ∧ m.captures[sub]? = some true ∧
      (∀ s ∈ rest, m.captures[s]? = some false) ∧ m.subclauses[sub]? = some d ∧
      d.isCapture = true ∧ d.opcode = some opcode ∧
      ∀ s ∈ d.submatchers, m.captures[s]? = some false := by
  unfold capturesFirst at h
  split at h
  · cases h
  · rename_i s rest hc
    simp only [Bool.and_eq_true, decide_eq_true_eq, List.all_eq_true, Option.any_eq_true] at h
    obtain ⟨⟨⟨⟨rfl, hne⟩, htrue⟩, hrest⟩, d, hd, ⟨hcap, hop⟩, hsub⟩ := h
    exact ⟨rest, d, hc, hne, htrue, hrest, hd, hcap, hop, hsub⟩

def isZero (m : EMatcher) (sub : Nat) : Bool :=
  (m.subclauses[sub]?).any (·.filter = some (.constantOperand (APInt.ofBool false)))

def fitsClause (m : EMatcher) (top : Nat) (c : SubClause) : Rewrite → Bool
  | .commutativity => c.opcode.any Rewrite.isCommutative
  | .associativity op => c.opcode = some (.binary op) && op ∈ Rewrite.associative
  | .eliminateToZero => c.opcode ∈ [some (.binary .sub), some (.binary .xor)] &&
    c.filter = some .identicalOperands
  | .eliminateToOperand => c.opcode ∈ [some (.binary .and), some (.binary .or)] &&
    c.filter = some .identicalOperands
  | .eliminateToBool value => c.filter = some .identicalOperands &&
    match c.opcode with
    | some (.icmp cmp) => value = decide (cmp ∈ [.eq, .ule, .sle, .uge, .sge])
    | _ => false
  | .icmpeqSelect icmpeq select => icmpeq = top && c.opcode = some (.icmp .eq) &&
    m.capturesFirst top c select .select
  | .andZero => c.opcode = some (.binary .and) && (c.submatchers[1]?).any m.isZero
  | .zextTrunc trunc zext => zext = top && c.opcode = some (.unary .zext) &&
    m.capturesFirst top c trunc (.unary .trunc)
  | .truncZext zext trunc => trunc = top && c.opcode = some (.unary .trunc) &&
    m.capturesFirst top c zext (.unary .zext)
  | .selectConstprop => c.opcode = some .select
  | .loadStore _ => c.opcode = some .load

def fits (m : EMatcher) (clause : Clause) : Bool :=
  m.captures[clause.matcher]? = some clause.update.isCapturing &&
    (m.subclauses[clause.matcher]?).any (m.fitsClause clause.matcher · clause.update)

theorem integerDefaults_fits :
    ∀ clause ∈ integerDefaults.clauses, integerDefaults.fits clause = true := by
  decide +kernel

end EMatcher

namespace Rewrite

variable {σ : Assignment} {V : Nat → Val} {g : EGraph} {cache : OperationCache} {fuel : Nat}
  {data : MatchData} {captures : CapturesMap} {eclass enode : Nat} {a a' : GraphAccessor}
  {rewrite : Rewrite}

theorem apply_calls (h : rewrite.apply cache fuel data captures eclass enode a = some a') :
    Calls a a' := by
  cases rewrite <;> simp only [apply, bind_eq_some] at h
  case commutativity =>
    obtain ⟨n, -, lhs, -, rhs, -, h⟩ := h
    exact Calls.addMerge h
  case associativity => exact AssociativityRewriter.rewrite_calls h
  case eliminateToZero =>
    obtain ⟨t, -, h⟩ := h
    exact Calls.addMerge h
  case eliminateToBool => exact Calls.addMerge h
  case eliminateToOperand | andZero =>
    obtain ⟨n, -, operand, -, h⟩ := h
    cases h
    exact Calls.merge _ _ _
  case icmpeqSelect =>
    obtain ⟨inode, -, snode, -, h⟩ := h
    exact icmpeqSelectUpdate_calls h
  case zextTrunc =>
    obtain ⟨tnode, -, znode, -, inner, -, operand, -, resized, -, op, -, h⟩ := h
    exact Calls.addMergeOperation h
  case truncZext =>
    obtain ⟨znode, -, tnode, -, inner, -, operand, -, op, -, h⟩ := h
    exact Calls.addMergeOperation h
  case selectConstprop =>
    obtain ⟨n, -, condition, -, trueValue, -, falseValue, -, v, -, h⟩ := h
    cases h
    exact Calls.merge _ _ _
  case loadStore =>
    obtain ⟨n, -, array, -, c, -, h⟩ := h
    exact foldlM_invariant (Calls a) (fun _ _ _ _ hstep ih =>
      ih.trans (loadStoreUpdate_calls hstep))
      h (Calls.refl a)

variable {m : EMatcher} {top : Nat} {c : SubClause} {cls : EClass} {n : ENode}

theorem apply_sound (hcap : rewrite.isCapturing = false)
    (hfits : m.fitsClause top c rewrite = true) (hcls : g.get eclass = some cls)
    (hn : cls.nodes[enode]? = some n) (hmatch : c.isPotentialMatch n = true)
    (hzero : ∀ sub operand, (c.submatchers[1]?) = some sub → n.operands[1]? = some operand →
      m.isZero sub = true → ∃ w, V operand = .int ⟨w, 0#w⟩)
    (ha : Ok σ V g a) (hholds : Holds σ V eclass n)
    (h : rewrite.apply cache fuel data captures eclass enode a = some a')
    (hv : IsValuation (Semantics.apply σ) V a'.graph) (he : a'.events = []) : Ok σ V g a' := by
  cases rewrite <;> simp only [apply, bind_eq_some] at h <;>
    simp only [EMatcher.fitsClause, Bool.and_eq_true, decide_eq_true_eq] at hfits
  case commutativity =>
    obtain ⟨n', hn', lhs, hl, rhs, hr, h⟩ := h
    obtain rfl := ha.node_eq hcls hn hn'
    obtain ⟨opcode, hop, hcomm⟩ := (Option.any_eq_true _ _).mp hfits
    rw [← opcode_of_match hmatch hop] at hcomm
    exact ha.addMerge_holds (holds_swap hholds hcomm hl hr) h hv
  case associativity op =>
    obtain ⟨c', hc', hnodes⟩ := ha.nodes eclass cls hcls
    have hnode : a.node eclass enode = some n := by
      rw [GraphAccessor.node, hc', some_bind, hnodes, hn]
    exact AssociativityRewriter.rewrite_sound hfits.2 ha hnode
      (opcode_of_match hmatch hfits.1) h hv
  case eliminateToZero =>
    obtain ⟨t, ht, h⟩ := h
    have hid := filter_of_match hmatch hfits.2
    simp only [List.mem_cons, List.not_mem_nil, or_false] at hfits
    rcases hfits.1 with hop | hop
    · exact ha.addMerge_holds (holds_zero hholds (opcode_of_match hmatch hop) (by decide)
        hid (ha.type ht)) h hv
    · exact ha.addMerge_holds (holds_zero hholds (opcode_of_match hmatch hop) (by decide)
        hid (ha.type ht)) h hv
  case eliminateToOperand =>
    obtain ⟨n', hn', operand, ho, h⟩ := h
    obtain rfl := ha.node_eq hcls hn hn'
    cases h
    have hid := filter_of_match hmatch hfits.2
    simp only [List.mem_cons, List.not_mem_nil, or_false] at hfits
    rcases hfits.1 with hop | hop
    · exact ha.merge (eq_operand hholds (opcode_of_match hmatch hop) (by decide) hid ho)
    · exact ha.merge (eq_operand hholds (opcode_of_match hmatch hop) (by decide) hid ho)
  case eliminateToBool value =>
    have hid := filter_of_match hmatch hfits.1
    split at hfits
    · rename_i cmp hop
      refine ha.addMerge_holds (holds_constantInt ?_) h hv
      rw [holds_identical_icmp hholds (opcode_of_match hmatch hop) hid,
        of_decide_eq_true hfits.2]
    · cases hfits.2
  case andZero =>
    obtain ⟨n', hn', operand, ho, h⟩ := h
    obtain rfl := ha.node_eq hcls hn hn'
    cases h
    obtain ⟨sub, hsub, hz⟩ := (Option.any_eq_true _ _).mp hfits.2
    obtain ⟨w, hw⟩ := hzero sub operand hsub ho hz
    exact ha.merge (eq_operand_of_zero hholds (opcode_of_match hmatch hfits.1) ho hw)
  case selectConstprop =>
    obtain ⟨n', hn', condition, hc, trueValue, ht, falseValue, hf, v, hlit, h⟩ := h
    obtain rfl := ha.node_eq hcls hn hn'
    cases h
    exact ha.merge (eq_selected hholds (opcode_of_match hmatch hfits) hc ht hf
      (ha.constantInt hlit))
  case loadStore =>
    obtain ⟨n', hn', array, harr, d, hd, h⟩ := h
    obtain rfl := ha.node_eq hcls hn hn'
    have hstores : ∀ s ∈ d.nodes, Holds σ V array s := fun s hs =>
      ⟨(ha.graph.node hd hs).1, (ha.graph.node hd hs).2.1⟩
    have hload := opcode_of_match hmatch hfits
    refine (Step.foldlM (fun b index b' _ hstep => ?_) h).ok ha hv he
    exact ⟨loadStoreUpdate_calls hstep, fun hb hv' he' =>
      loadStoreUpdate_sound hb hholds hload harr hstores hstep hv' he'⟩
  all_goals cases hcap

theorem apply_captured_sound (hnode : ∀ i, σ.node i = V i) (hcap : rewrite.isCapturing = true)
    (hfits : m.fitsClause top c rewrite = true) (hmatch : c.isPotentialMatch n = true)
    {operand : Nat} (hopd : n.operands[0]? = some operand) {sub : Nat} {d : SubClause}
    {captured : ENode} (hsub : c.submatchers[0]? = some sub) (hd : m.subclauses[sub]? = some d)
    (hcapd : Holds σ V operand captured)
    (hopcode : ∀ opcode, d.opcode = some opcode → captured.opcode = opcode) (ha : Ok σ V g a)
    (hholds : Holds σ V eclass n)
    (h : rewrite.apply cache fuel data ((CapturesMap.push ∅ top n).push sub captured) eclass enode
      a = some a')
    (hv : IsValuation (Semantics.apply σ) V a'.graph) (he : a'.events = []) : Ok σ V g a' := by
  have hfst : ∀ {s opcode}, m.capturesFirst top c s opcode = true →
      s = sub ∧ s ≠ top ∧ captured.opcode = opcode := by
    intro s opcode hs
    obtain ⟨rest, d', hc, hne, -, -, hd', -, hop, -⟩ := EMatcher.capturesFirst_cases hs
    rw [hc] at hsub
    cases hsub
    cases hd.symm.trans hd'
    exact ⟨rfl, hne, hopcode opcode hop⟩
  cases rewrite <;> simp only [apply, bind_eq_some] at h <;>
    simp only [EMatcher.fitsClause, Bool.and_eq_true, decide_eq_true_eq] at hfits
  case icmpeqSelect icmpeq select =>
    obtain ⟨⟨rfl, hop⟩, hs⟩ := hfits
    obtain ⟨rfl, hne, hsel⟩ := hfst hs
    rw [CapturesMap.capture_top hne, CapturesMap.capture_sub hne] at h
    obtain ⟨n', hn', s', hs', h⟩ := h
    cases hn'
    cases hs'
    exact icmpeqSelectUpdate_sound ha hnode hholds (opcode_of_match hmatch hop) hopd
      hcapd hsel h hv he
  case zextTrunc trunc zext =>
    obtain ⟨⟨rfl, hop⟩, hs⟩ := hfits
    obtain ⟨rfl, hne, htrunc⟩ := hfst hs
    rw [CapturesMap.capture_top hne, CapturesMap.capture_sub hne] at h
    obtain ⟨t', ht', n', hn', inner, hinner, o, hget, resized, hres, r, hcr, h⟩ := h
    cases hn'
    cases ht'
    exact zextTrunc_sound ha hnode hholds (opcode_of_match hmatch hop) hopd
      hcapd htrunc hinner hget hres hcr h hv
  case truncZext zext trunc =>
    obtain ⟨⟨rfl, hop⟩, hs⟩ := hfits
    obtain ⟨rfl, hne, hzext⟩ := hfst hs
    rw [CapturesMap.capture_top hne, CapturesMap.capture_sub hne] at h
    obtain ⟨z', hz', n', hn', inner, hinner, o, hget, r, hcr, h⟩ := h
    cases hn'
    cases hz'
    exact truncZext_sound ha hnode hholds (opcode_of_match hmatch hop) hopd
      hcapd hzext hinner hget hcr h hv
  all_goals cases hcap

end Rewrite

end Caffeine
