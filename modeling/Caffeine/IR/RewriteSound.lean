import Caffeine.IR.GraphAccessor
import Caffeine.IR.OperationSimplifierSound
import Caffeine.IR.TypedNodes
import Mathlib.Data.Multiset.Fold

/-!
# Soundness of the update functions

Each update function keeps the invariant of a round when its nodes are what its pattern asks for:
they have the value of their class and the opcode of their sub-clause, and the values of a matched
`Select` are different literals.
-/

namespace Caffeine

open EGraph Semantics OperationData List Option

namespace GraphAccessor

variable {σ : Assignment} {V : Nat → Val} {g : EGraph} {a a' : GraphAccessor}

theorem Ok.holds (ha : Ok σ V g a) {eclass index : Nat} {n : ENode}
    (h : a.node eclass index = some n) : Holds σ V eclass n :=
  ⟨(ha.node h).1, (ha.node h).2.1⟩

theorem Ok.addMerge_holds (ha : Ok σ V g a) {n : ENode} {eclass : Nat} (hn : Holds σ V eclass n)
    (h : a.addMerge eclass n = some a') (hv : IsValuation (apply σ) V a'.graph) :
    Ok σ V g a' := ha.addMerge hn.typed hn.value h hv

end GraphAccessor

variable {t : Ty} {i fuel w' : Nat} {items : List Nat} {o : Operation}

namespace Rewrite

open GraphAccessor

variable {σ : Assignment} {V : Nat → Val} {g : EGraph} {a a' : GraphAccessor} {eclass : Nat}
  {n : ENode}

variable {op : BinaryOpcode}

section Commutativity

def associative : List BinaryOpcode := [.add, .mul, .and, .or, .xor]

theorem divisionFree_of_associative (hop : op ∈ associative) :
    op ∈ [.add, .sub, .mul, .and, .or, .xor, .shl, .lshr, .ashr] := by
  have hsub : associative ⊆ [.add, .sub, .mul, .and, .or, .xor, .shl, .lshr, .ashr] := by decide
  exact hsub hop

theorem bitvec_of_associative (hop : op ∈ associative) (w : Nat) :
    ∃ (f : BitVec w → BitVec w → BitVec w) (e : BitVec w), Std.Commutative f ∧
      Std.Associative f ∧ (∀ x, f e x = x) ∧ ∀ x y, bitvec op x y = some (f x y) := by
  simp only [associative, mem_cons, not_mem_nil, or_false] at hop
  rcases hop with rfl | rfl | rfl | rfl | rfl
  · exact ⟨_, 0#w, ⟨BitVec.add_comm⟩, ⟨BitVec.add_assoc⟩, BitVec.zero_add, fun _ _ => rfl⟩
  · exact ⟨_, 1#w, ⟨BitVec.mul_comm⟩, ⟨BitVec.mul_assoc⟩, BitVec.one_mul, fun _ _ => rfl⟩
  · exact ⟨_, BitVec.allOnes w, ⟨BitVec.and_comm⟩, ⟨BitVec.and_assoc⟩, fun _ =>
      BitVec.allOnes_and, fun _ _ => rfl⟩
  · exact ⟨_, 0#w, ⟨BitVec.or_comm⟩, ⟨BitVec.or_assoc⟩, fun _ => BitVec.zero_or, fun _ _ => rfl⟩
  · exact ⟨_, 0#w, ⟨BitVec.xor_comm⟩, ⟨BitVec.xor_assoc⟩, fun _ => BitVec.zero_xor, fun _ _ => rfl⟩

theorem binary_comm (hop : op ∈ associative) {w : Nat} (x y : BitVec w) :
    Semantics.binary op ⟨w, x⟩ ⟨w, y⟩ = Semantics.binary op ⟨w, y⟩ ⟨w, x⟩ := by
  obtain ⟨f, -, hcomm, -, -, hf⟩ := bitvec_of_associative hop w
  simp only [Semantics.binary, APInt.resize_width, hf, hcomm.comm x y]

theorem compare_comm {cmp : ICmpOpcode} (hcmp : cmp ∈ [.eq, .ne]) {w : Nat} (x y : BitVec w) :
    compare cmp x y = compare cmp y x := by
  simp only [mem_cons, not_mem_nil, or_false] at hcmp
  rcases hcmp with rfl | rfl
  · exact BEq.comm
  · exact bne_comm

def isCommutative : Opcode → Bool
  | .binary op => op ∈ associative
  | .icmp cmp => cmp ∈ [.eq, .ne]
  | _ => false

theorem holds_swap (hn : Holds σ V eclass n) (hop : isCommutative n.opcode = true) {lhs rhs : Nat}
    (hl : n.operands[0]? = some lhs) (hr : n.operands[1]? = some rhs) :
    Holds σ V eclass ⟨n.data, [rhs, lhs]⟩ := by
  cases hcode : n.opcode with
  | binary op =>
    rw [hcode] at hop
    replace hop : op ∈ associative := of_decide_eq_true hop
    obtain ⟨w, i, j, x, y, rfl, hi, hj, hid⟩ := hn.binary hcode
    cases hl
    cases hr
    exact holds_binary (divisionFree_of_associative hop) hj hi (hid.trans (binary_comm hop x y))
  | icmp cmp =>
    rw [hcode] at hop
    obtain ⟨w, i, j, x, y, rfl, hi, hj, hid⟩ := hn.icmp hcode
    cases hl
    cases hr
    rw [compare_comm (of_decide_eq_true hop) x y] at hid
    exact holds_icmp hj hi hid
  | _ =>
    rw [hcode] at hop
    cases hop

end Commutativity

section Identical

theorem holds_identical_binary (hn : Holds σ V eclass n) (hop : n.opcode = .binary op)
    (hid : SubClauseFilter.identicalOperands.accepts n = true) :
    ∃ (w i : Nat) (x : BitVec w), n = ⟨.binary op (.int w), [i, i]⟩ ∧ V i = .int ⟨w, x⟩ ∧
      V eclass = Semantics.binary op ⟨w, x⟩ ⟨w, x⟩ := by
  obtain ⟨w, i, j, x, y, rfl, hi, hj, hval⟩ := hn.binary hop
  obtain rfl : j = i := by simpa [SubClauseFilter.accepts] using hid
  rw [hi] at hj
  cases hj
  exact ⟨w, j, x, rfl, hi, hval⟩

theorem holds_identical_icmp {cmp : ICmpOpcode} (hn : Holds σ V eclass n)
    (hop : n.opcode = .icmp cmp) (hid : SubClauseFilter.identicalOperands.accepts n = true) :
    V eclass = .int (APInt.ofBool (cmp ∈ [.eq, .ule, .sle, .uge, .sge] : Bool)) := by
  obtain ⟨w, i, j, x, y, rfl, hi, hj, hval⟩ := hn.icmp hop
  obtain rfl : j = i := by simpa [SubClauseFilter.accepts] using hid
  rw [hi] at hj
  cases hj
  rw [hval, OperationSimplifier.compare_self]

theorem holds_zero (hn : Holds σ V eclass n) (hop : n.opcode = .binary op)
    (hzero : op ∈ [.sub, .xor]) (hid : SubClauseFilter.identicalOperands.accepts n = true)
    (ht : (V eclass).HasType t) :
    Holds σ V eclass ⟨.constantInt (APInt.ofNat t.bitwidth 0), []⟩ := by
  obtain ⟨w, i, x, rfl, hi, hval⟩ := holds_identical_binary hn hop hid
  have hw : V eclass = .int ⟨w, 0#w⟩ := by
    simp only [mem_cons, not_mem_nil, or_false] at hzero
    rcases hzero with rfl | rfl <;> rw [hval] <;>
      simp [Semantics.binary, bitvec]
  rw [hw] at ht
  cases ht
  exact holds_constantInt hw

theorem eq_operand (hn : Holds σ V eclass n) (hop : n.opcode = .binary op)
    (hsame : op ∈ [.and, .or]) (hid : SubClauseFilter.identicalOperands.accepts n = true)
    {operand : Nat} (ho : n.operands[0]? = some operand) : V eclass = V operand := by
  obtain ⟨w, i, x, rfl, hi, hval⟩ := holds_identical_binary hn hop hid
  cases ho
  rw [hval, hi]
  simp only [mem_cons, not_mem_nil, or_false] at hsame
  rcases hsame with rfl | rfl <;> simp [Semantics.binary, bitvec]

end Identical

end Rewrite

namespace AssociativityRewriter

open GraphAccessor Rewrite

variable {σ : Assignment} {V : Nat → Val} {g : EGraph} {a a' : GraphAccessor}

def bits (w : Nat) : Val → BitVec w
  | .int v => v.resize w
  | _ => 0#w

structure Combines (V : Nat → Val) {w : Nat} (f : BitVec w → BitVec w → BitVec w) (e : BitVec w)
    [Std.Commutative f] [Std.Associative f] (ids : List Nat) (x : BitVec w) : Prop where
  widths : ∀ i ∈ ids, V i = .int ⟨w, bits w (V i)⟩
  result : ((ids.map (fun i => bits w (V i)) : List (BitVec w)) : Multiset (BitVec w)).fold f e = x

section Combines

variable {w : Nat} {f : BitVec w → BitVec w → BitVec w} {e : BitVec w} [Std.Commutative f]
  [Std.Associative f] {ids ids' : List Nat} {x y : BitVec w}

theorem Combines.perm (h : Combines V f e ids x) (hp : ids'.Perm ids) : Combines V f e ids' x where
  widths i hi := h.widths i (hp.mem_iff.mp hi)
  result := by
    rw [← h.result, Multiset.coe_eq_coe.mpr (hp.map _)]

theorem Combines.append (he : ∀ x, f e x = x) (h : Combines V f e ids x)
    (h' : Combines V f e ids' y) : Combines V f e (ids ++ ids') (f x y) where
  widths i hi := (mem_append.mp hi).elim (h.widths i) (h'.widths i)
  result := by
    rw [map_append, ← Multiset.coe_add, ← h.result, ← h'.result, ← Multiset.fold_add f, he]

theorem Combines.singleton (he : ∀ x, f e x = x) (hi : V i = .int ⟨w, x⟩) :
    Combines V f e [i] x := by
  have hbits : bits w (V i) = x := by
    rw [hi]
    exact APInt.resize_width x
  refine ⟨?_, ?_⟩
  · intro j hj
    rw [mem_singleton.mp hj, hbits, hi]
  · rw [map_singleton, Multiset.coe_singleton, Multiset.fold_singleton, hbits,
      (inferInstance : Std.Commutative f).comm, he]

theorem Combines.foldl (he : ∀ x, f e x = x) (h : Combines V f e (i :: ids) x) :
    (ids.map (fun i => bits w (V i))).foldl f (bits w (V i)) = x := by
  rw [← h.result, Multiset.coe_fold_l, map_cons, foldl_cons, he]

end Combines

variable {eclass : Nat}

section Rewrite

variable {op : BinaryOpcode} {w : Nat} {f : BitVec w → BitVec w → BitVec w} {e : BitVec w}
  [Std.Commutative f] [Std.Associative f]

variable {x : BitVec w}

theorem leaves_sound (hg : TypedSound σ V g) (he : ∀ x, f e x = x)
    (hf : ∀ x y, bitvec op x y = some (f x y)) {id : Nat} {ids : List Nat}
    (h : leaves g op fuel id = some ids) (hx : V id = .int ⟨w, x⟩) : Combines V f e ids x := by
  induction fuel generalizing id ids x with
  | zero => cases h
  | succ fuel ih =>
    simp only [leaves, bind_eq_bind, bind_eq_some_iff] at h
    obtain ⟨c, hc, cost, -, n, hn, h⟩ := h
    split_ifs at h with hop
    · simp only [bind_eq_some_iff] at h
      obtain ⟨lhs, hl, rhs, hr, left, hleft, right, hright, heq⟩ := h
      cases heq
      obtain ⟨htyped, hval, -⟩ := hg.node hc (mem_of_getElem? hn)
      obtain ⟨w', i, j, y, z, rfl, hi, hj, hid⟩ := (Holds.mk htyped hval).binary hop
      cases hl
      cases hr
      have hw : w' = w := by
        have hty := ((Holds.mk htyped hval).typed.hasType σ).ty_eq
        rw [hval, hx] at hty
        exact (Ty.int.inj hty).symm
      subst hw
      rw [hx] at hid
      simp only [Semantics.binary, APInt.resize_width, hf, Val.int.injEq, APInt.mk.injEq,
        heq_eq_eq, true_and] at hid
      rw [hid]
      exact Combines.append he (ih hleft hi) (ih hright hj)
    · cases h
      exact Combines.singleton he hx

theorem sort_perm {sorted : List Nat} (h : sort g items = some sorted) : sorted.Perm items := by
  simp only [sort, bind_eq_some, some.injEq] at h
  obtain ⟨keyed, hkeyed, rfl⟩ := h
  have hsnd : keyed.map Prod.snd = items := by
    induction items generalizing keyed with
    | nil =>
      cases hkeyed
      rfl
    | cons id items ih =>
      simp only [mapM_cons, bind_eq_some, Option.pure_def, some.injEq, map_eq_some_iff] at hkeyed
      obtain ⟨p, ⟨c, -, rfl⟩, ps, hps, rfl⟩ := hkeyed
      rw [map_cons, ih ps hps]
  rw [← hsnd]
  exact (perm_insertionSort _ _).map _

theorem chain_calls {rest : List Nat} {s s' : Nat × GraphAccessor}
    (h : rest.foldlM (fun (s : Nat × GraphAccessor) item =>
      s.2.add ⟨.binary op t, [s.1, item]⟩) s = some s') : Calls s.2 s'.2 :=
  foldlM_invariant (fun s' => Calls s.2 s'.2)
    (fun _ _ _ _ hstep ih => ih.trans (Calls.add hstep)) h (Calls.refl _)

omit [Std.Commutative f] [Std.Associative f] in
theorem chain_sound (hop : op ∈ associative) (hf : ∀ x y, bitvec op x y = some (f x y))
    {rest : List Nat} (hrest : ∀ i ∈ rest, V i = .int ⟨w, bits w (V i)⟩)
    {s s' : Nat × GraphAccessor} (ha : Ok σ V g s.2) (hx : V s.1 = .int ⟨w, x⟩)
    (h : rest.foldlM (fun (s : Nat × GraphAccessor) item =>
      s.2.add ⟨.binary op (.int w), [s.1, item]⟩) s = some s')
    (hv : IsValuation (apply σ) V s'.2.graph) :
    Ok σ V g s'.2 ∧ V s'.1 = .int ⟨w, (rest.map (fun i => bits w (V i))).foldl f x⟩ := by
  induction rest generalizing s x with
  | nil =>
    cases h
    exact ⟨ha, hx⟩
  | cons i rest ih =>
    obtain ⟨r, hr, h⟩ := foldlM_cons_eq_some.mp h
    have hi := hrest i mem_cons_self
    obtain ⟨har, hval⟩ := ha.add (typedNode_binary (divisionFree_of_associative hop) hx hi) hr
      (hv.of_extends (chain_calls h).grows.graph)
    have hr1 : V r.1 = .int ⟨w, f x (bits w (V i))⟩ := by
      rw [← hval, nodeValue_binary hx hi]
      simp only [Semantics.binary, APInt.resize_width, hf]
    exact ih (fun j hj => hrest j (mem_cons_of_mem _ hj)) har hr1 h

theorem emit_sound (hop : op ∈ associative) (he : ∀ x, f e x = x)
    (hf : ∀ x y, bitvec op x y = some (f x y)) (ha : Ok σ V g a) (hitems : Combines V f e items x)
    (hx : V eclass = .int ⟨w, x⟩) (h : emit a op eclass items = some a')
    (hv : IsValuation (apply σ) V a'.graph) : Ok σ V g a' := by
  simp only [emit, bind_eq_bind, bind_eq_some_iff] at h
  obtain ⟨sorted, hsort, h⟩ := h
  have hsorted := hitems.perm (sort_perm hsort)
  cases sorted with
  | nil => cases h
  | cons first rest =>
    simp only [bind_eq_some_iff, some.injEq] at h
    obtain ⟨t, ht, r, hr, rfl⟩ := h
    have hfst := hsorted.widths first mem_cons_self
    have htype := ha.type ht
    rw [hfst] at htype
    cases htype
    rw [Ok.graph_merge] at hv
    obtain ⟨har, hval⟩ := chain_sound hop hf
      (fun i hi => hsorted.widths i (mem_cons_of_mem _ hi)) (s := (first, a)) ha hfst hr hv
    refine har.merge ?_
    rw [hx, hval, hsorted.foldl he]

end Rewrite

variable {op : BinaryOpcode}

theorem emit_calls (h : emit a op eclass items = some a') : Calls a a' := by
  simp only [emit, bind_eq_bind, bind_eq_some_iff] at h
  obtain ⟨sorted, -, h⟩ := h
  cases sorted with
  | nil => cases h
  | cons first rest =>
    simp only [bind_eq_some_iff, some.injEq] at h
    obtain ⟨t, -, r, hr, rfl⟩ := h
    exact (chain_calls hr).trans (Calls.merge _ _ _)

theorem rewrite_calls {enode : Nat} (h : rewrite fuel a op eclass enode = some a') :
    Calls a a' := by
  simp only [rewrite, bind_eq_some] at h
  obtain ⟨g', hg', n, -, lhs, -, rhs, -, left, -, right, -, h⟩ := h
  exact (Calls.single (.updateCost hg')).trans (emit_calls h)

theorem rewrite_sound (hop : op ∈ associative) (ha : Ok σ V g a) {enode : Nat} {n : ENode}
    (hn : a.node eclass enode = some n) (hcode : n.opcode = .binary op)
    (h : rewrite fuel a op eclass enode = some a') (hv : IsValuation (apply σ) V a'.graph) :
    Ok σ V g a' := by
  simp only [rewrite, bind_eq_some] at h
  obtain ⟨g', hg', n', hn', lhs, hl, rhs, hr, left, hleft, right, hright, h⟩ := h
  have hrec := updateCost_recosted hg'
  have ha' : Ok σ V g { a with graph := g' } :=
    ⟨ha.graph.recosted hrec, ha.merges, ha.nodes.trans (SameNodes.recosted hrec)⟩
  have heq : n' = n := by
    obtain ⟨c, hc, hcn⟩ := bind_eq_some_iff.mp hn
    obtain ⟨c', hc', hcn'⟩ := bind_eq_some_iff.mp hn'
    rw [(SameNodes.recosted hrec).nodes_eq hc hc', hcn] at hcn'
    exact (some.inj hcn').symm
  subst heq
  obtain ⟨w, i, j, x, y, rfl, hi, hj, hid⟩ := (ha'.holds hn').binary hcode
  cases hl
  cases hr
  obtain ⟨f, e, hcomm, hassoc, he, hf⟩ := bitvec_of_associative hop w
  have hid' : V eclass = .int ⟨w, f x y⟩ := by
    rw [hid]
    simp only [Semantics.binary, APInt.resize_width, hf]
  exact emit_sound hop he hf ha' ((leaves_sound ha'.graph he hf hleft hi).append he
    (leaves_sound ha'.graph he hf hright hj)) hid' h hv

end AssociativityRewriter

namespace Rewrite

open GraphAccessor

variable {σ : Assignment} {V : Nat → Val} {g : EGraph} {a a' : GraphAccessor} {eclass : Nat}
  {n : ENode}

theorem eq_zero_of_constantOperand {id : Nat} (hn : Holds σ V id n)
    (hacc : (SubClauseFilter.constantOperand (APInt.ofBool false)).accepts n = true) :
    ∃ w, V id = .int ⟨w, 0#w⟩ := by
  simp only [SubClauseFilter.accepts] at hacc
  split at hacc
  · rename_i v hdata
    refine ⟨v.width, ?_⟩
    have hzero : v.val = 0#v.width := by
      have hext : (BitVec.ofBool false).signExtend v.width = 0#v.width := by
        ext i hi
        simp [BitVec.getElem_signExtend]
      exact (beq_iff_eq.mp hacc).trans hext
    rw [← hn.value, nodeValue, hdata, ← hzero]
    rfl
  · cases hacc

variable {w : Nat} {x : BitVec w}

theorem eq_operand_of_zero (hn : Holds σ V eclass n) (hop : n.opcode = .binary .and) {operand : Nat}
    (ho : n.operands[1]? = some operand) (hz : V operand = .int ⟨w, 0#w⟩) :
    V eclass = V operand := by
  obtain ⟨w', i, j, x, y, rfl, hi, hj, hval⟩ := hn.binary hop
  cases ho
  rw [hj] at hz
  cases hz
  rw [hval, hj]
  simp [Semantics.binary, bitvec]

theorem isNullValue_bool (b : BitVec 1) : (APInt.mk 1 b).isNullValue = !(APInt.mk 1 b).eqNat 1 := by
  revert b
  decide

theorem eq_selected (hn : Holds σ V eclass n) (hop : n.opcode = .select)
    {condition trueValue falseValue : Nat} (hc : n.operands[0]? = some condition)
    (ht : n.operands[1]? = some trueValue) (hf : n.operands[2]? = some falseValue) {v : APInt}
    (hv : V condition = .int v) :
    V eclass = V (if v.isNullValue then falseValue else trueValue) := by
  obtain ⟨t, c, i, j, b, rfl, hb, hval⟩ := hn.select hop
  cases hc
  cases ht
  cases hf
  rw [hb] at hv
  cases hv
  rw [hval, isNullValue_bool]
  cases (APInt.mk 1 b).eqNat 1 <;> rfl

section LoadStore

variable {array : Nat} {c : EClass} {index : Nat}

theorem loadStoreUpdate_calls (h : loadStoreUpdate n eclass c a index = some a') : Calls a a' := by
  simp only [loadStoreUpdate, bind_eq_some] at h
  obtain ⟨store, -, base, -, offset, -, value, -, loaded, -, cond, hcond, rest, hrest, h⟩ := h
  exact (Calls.observe a _ _).trans ((Calls.add hcond).trans
    ((Calls.add hrest).trans (Calls.addMerge h)))

theorem loadStoreUpdate_sound (ha : Ok σ V g a) (hn : Holds σ V eclass n) (hop : n.opcode = .load)
    (harr : n.operands[0]? = some array) (hc : ∀ s ∈ c.nodes, Holds σ V array s)
    (h : loadStoreUpdate n eclass c a index = some a')
    (hv : IsValuation (Semantics.apply σ) V a'.graph) (he : a'.events = []) : Ok σ V g a' := by
  simp only [loadStoreUpdate, bind_eq_some] at h
  obtain ⟨store, hsto, base, hbase, offset, hoff, value, hval, loaded, hloaded, cond, hcond,
    rest, hrest, h⟩ := h
  have hgr := Calls.addMerge h
  have hgc := (Calls.add hrest).trans hgr
  have hcode := Ok.opcode_of_observe (((Calls.add hcond).trans hgc).grows.events he)
  obtain ⟨w, i, j, f, x, rfl, hi, hj, hload⟩ := hn.load hop
  obtain ⟨w', i', j', k', f', x', v', rfl, hi', hj', hk', hst⟩ :=
    (hc store (mem_of_getElem? hsto)).store hcode
  cases harr
  cases hloaded
  cases hbase
  cases hoff
  cases hval
  rw [hi] at hst
  cases hst
  obtain ⟨hac, hvc⟩ := (ha.observe _ _).add (typedNode_icmp hj' hj) hcond
    (hv.of_extends hgc.grows.graph)
  have hty : TypedNode V ⟨.load, [base, loaded]⟩ :=
    ⟨rfl, by simp [hi', hj, accepts, Val.ty, Val.type?]⟩
  obtain ⟨har, hvr⟩ := hac.add hty hrest (hv.of_extends hgr.grows.graph)
  have hrestv : V rest.1 = .int ⟨8, f' x⟩ := by
    rw [← hvr, nodeValue, map_cons, map_cons, map_nil, hi', hj]
    simp only [Semantics.apply, APInt.resize_width]
  have hcondv : V cond.1 = .int (APInt.ofBool (compare .eq x' x)) :=
    hvc.symm.trans (nodeValue_icmp hj' hj)
  refine har.addMerge_holds ⟨⟨rfl, ?_⟩, ?_⟩ h hv
  · simp [hcondv, hk', hrestv, accepts, Val.ty, Val.type?, ENode.type, OperationData.type, Ty.bool,
      APInt.ofBool]
  · rw [nodeValue, map_cons, map_cons, map_cons, map_nil, hcondv, hk', hrestv, hload]
    by_cases hx : x' = x
    · subst hx
      simp [Semantics.apply, Semantics.compare, APInt.ofBool, APInt.eqNat]
    · have hne : x ≠ x' := fun h => hx h.symm
      simp [Semantics.apply, Semantics.compare, APInt.ofBool, APInt.eqNat, hx,
        Function.update_of_ne hne]

end LoadStore

section Reference

open OperationSimplifier

variable {cache : OperationCache} {id : Nat}

def reference (w id : Nat) : Operation := .mk (.egraphNode (.int w) id) []

structure Addable (σ : Assignment) (o : Operation) {w : Nat} (x : BitVec w) : Prop where
  typed : o.WellTyped (divisionFreeIn σ)
  type : o.type = .int w
  value : o.eval σ = .int ⟨w, x⟩

theorem Addable.denotes (h : Addable σ o x) : Denotes σ o x :=
  ⟨h.typed.mono (fun _ => interpretedIn_of_divisionFreeIn σ), h.type, h.value⟩

theorem addable_reference (h : σ.node id = .int ⟨w, x⟩) : Addable σ (reference w id) x where
  typed := by
    refine Operation.wellTyped_mk.mpr ⟨?_, rfl, fun o ho => absurd ho not_mem_nil⟩
    rw [divisionFreeIn, h]
    exact decide_eq_true rfl
  type := rfl
  value := (Operation.eval_mk σ _ _).trans h

theorem getOp_eq (ha : Ok σ V g a) (hx : V eclass = .int ⟨w, x⟩) (h : a.getOp eclass = some o) :
    o = reference w eclass := by
  obtain ⟨t, ht, rfl⟩ := map_eq_some_iff.mp h
  have htype := ha.type ht
  rw [hx] at htype
  cases htype
  rfl

theorem addable_unary {op : UnaryOpcode} {z : BitVec w'} (hop : op ∈ [.not, .trunc, .zext, .sext])
    (ho : Addable σ o x) (hacc : (OperationData.unary op (.int w')).accepts [.int w] = true)
    (hz : unary op (.int w') ⟨w, x⟩ = .int ⟨w', z⟩) :
    Addable σ (.mk (.unary op (.int w')) [o]) z where
  typed := by
    refine Operation.wellTyped_mk.mpr ⟨decide_eq_true hop, ?_, ?_⟩
    · rw [map_singleton, ho.type, hacc]
    · intro o' ho'
      rw [mem_singleton.mp ho']
      exact ho.typed
  type := rfl
  value := by
    rw [Operation.eval_mk, map_singleton, ho.value]
    exact hz

theorem create_resize {op : UnaryOpcode} (hop : op = .trunc ∨ op = .zext)
    (hacc : (OperationData.unary op (.int w')).accepts [.int w] = true) (hne : w' ≠ w) :
    Operation.create cache (.unary op (.int w')) [reference w id] =
      some (.mk (.unary op (.int w')) [reference w id]) := by
  have hty : Ty.int w' ≠ .int w := fun h => hne (Ty.int.inj h)
  refine (if_pos hacc).trans ?_
  rcases hop with rfl | rfl <;> exact if_neg hty

theorem createTruncOrZExt_reference (hx : σ.node id = .int ⟨w, x⟩)
    (h : Operation.createTruncOrZExt cache (.int w') (reference w id) = some o) :
    Addable σ o (x.setWidth w') ∧ constantInt? o = none ∧ ∀ op, matchBinary op o = none := by
  have href := addable_reference hx
  simp only [Operation.createTruncOrZExt, href.type, Ty.isInt, Bool.and_self, if_true,
    Ty.bitwidth] at h
  split_ifs at h with hlt hgt
  · have hacc : (OperationData.unary .trunc (.int w')).accepts [.int w] = true :=
      decide_eq_true hlt.le
    rw [create_resize (.inl rfl) hacc hlt.ne] at h
    cases h
    exact ⟨addable_unary (by decide) href hacc rfl, rfl, fun _ => rfl⟩
  · have hacc : (OperationData.unary .zext (.int w')).accepts [.int w] = true :=
      decide_eq_true hgt.le
    rw [create_resize (.inr rfl) hacc hgt.ne'] at h
    cases h
    exact ⟨addable_unary (by decide) href hacc rfl, rfl, fun _ => rfl⟩
  · cases h
    obtain rfl : w' = w := by omega
    rw [BitVec.setWidth_eq]
    exact ⟨href, rfl, fun _ => rfl⟩

theorem visitAnd_cases {create : BinaryConstructor} {l : Operation} {v : APInt}
    (hlit : constantInt? l = none) (hbin : ∀ op, matchBinary op l = none)
    (h : visitAnd create t l (Operation.constantInt v) = some o) :
    o = l ∨ o = Operation.constantInt v ∨
      o = .mk (.binary .and t) [l, Operation.constantInt v] := by
  have hmask : matchShiftedMask l (Operation.constantInt v) = none := by
    simp [matchShiftedMask, matchByConst, hlit, hbin]
  have htwo : matchTwoMasks l (Operation.constantInt v) = none := by
    simp [matchTwoMasks, matchMask, matchByConst, hlit, hbin]
  have hzero : ∀ n, isConstantInt l n = false := fun n => by simp [isConstantInt, hlit]
  have hones : isConstantOnes l = false := by simp [isConstantOnes, hlit]
  simp only [visitAnd, hzero, hones, Bool.false_eq_true, if_false, tryConstInt, hlit, hmask, htwo,
    visitBinaryOp] at h
  split_ifs at h <;> cases h
  · exact .inr (.inl rfl)
  · exact .inl rfl
  · exact .inr (.inr rfl)

theorem create_and_addable {l : Operation} {m : BitVec w} (hl : Addable σ l x)
    (hlit : constantInt? l = none) (hbin : ∀ op, matchBinary op l = none)
    (h : Operation.create cache (.binary .and (.int w)) [l, Operation.constantInt ⟨w, m⟩] =
      some o) : Addable σ o (x &&& m) := by
  have hm : Addable σ (Operation.constantInt ⟨w, m⟩) m := ⟨rfl, rfl, rfl⟩
  have hacc : (OperationData.binary .and (.int w)).accepts
      ([l, Operation.constantInt ⟨w, m⟩].map Operation.type) = true := by
    rw [map_cons, map_cons, map_nil, hl.type, hm.type]
    simp [accepts]
  rw [Operation.create, if_pos hacc] at h
  have hand : Denotes σ (.mk (.binary .and (.int w)) [l, Operation.constantInt ⟨w, m⟩])
      (x &&& m) := hl.denotes.binary hm.denotes rfl
  obtain ⟨o', ho'⟩ : ∃ o', Preserves cache σ _ o' := visit_binary_preserves hand trivial
  cases ho'.visit.symm.trans h
  refine ⟨?_, ho'.type, ho'.value.trans hand.value⟩
  rcases visitAnd_cases hlit hbin h with rfl | rfl | rfl
  · exact hl.typed
  · exact hm.typed
  · refine Operation.wellTyped_mk.mpr ⟨rfl, hacc, ?_⟩
    simp only [mem_cons, not_mem_nil, or_false]
    rintro o (rfl | rfl)
    · exact hl.typed
    · exact hm.typed

end Reference

section Captured

open OperationSimplifier

variable {cache : OperationCache} {m : ENode}

theorem addMergeOperation_addable (ha : Ok σ V g a) (hnode : ∀ i, σ.node i = V i)
    (ho : Addable σ o x) (hid : V eclass = .int ⟨w, x⟩) (h : a.addMergeOperation eclass o = some a')
    (hv : IsValuation (Semantics.apply σ) V a'.graph) : Ok σ V g a' :=
  ha.addMergeOperation hnode ho.typed (ho.value.trans hid.symm) h hv

theorem zextTrunc_sound (ha : Ok σ V g a) (hnode : ∀ i, σ.node i = V i) (hn : Holds σ V eclass n)
    (hop : n.opcode = .unary .zext) (hi : n.operands[0]? = some i) (hm : Holds σ V i m)
    (hmop : m.opcode = .unary .trunc) {inner : Nat} (hinner : m.operands[0]? = some inner)
    {operand resized : Operation} (hget : a.getOp inner = some operand)
    (hres : Operation.createTruncOrZExt cache n.type operand = some resized)
    (hcr : Operation.create cache (.binary .and resized.type) [resized,
      .constantInt (APInt.getLowBitsSet n.type.bitwidth m.type.bitwidth)] = some o)
    (h : a.addMergeOperation eclass o = some a') (hv : IsValuation (Semantics.apply σ) V a'.graph) :
    Ok σ V g a' := by
  obtain ⟨wi, wz, i', y, rfl, hy, -, -, hid⟩ := hn.resize hop (.inr rfl)
  obtain ⟨w, wt, inner', x, rfl, hx, -, -, hval⟩ := hm.resize hmop (.inl rfl)
  cases hi
  cases hinner
  rw [hy] at hval
  cases hval
  obtain rfl := getOp_eq ha hx hget
  obtain ⟨haddable, hlit, hbin⟩ := createTruncOrZExt_reference ((hnode _).trans hx) hres
  rw [haddable.type] at hcr
  refine addMergeOperation_addable ha hnode
    (create_and_addable haddable hlit hbin hcr) ?_ h hv
  rw [hid, BitVecFacts.setWidth_setWidth_eq_and]
  rfl

theorem truncZext_sound (ha : Ok σ V g a) (hnode : ∀ i, σ.node i = V i) (hn : Holds σ V eclass n)
    (hop : n.opcode = .unary .trunc) (hi : n.operands[0]? = some i) (hm : Holds σ V i m)
    (hmop : m.opcode = .unary .zext) {inner : Nat} (hinner : m.operands[0]? = some inner)
    {operand : Operation} (hget : a.getOp inner = some operand)
    (hcr : Operation.createTruncOrZExt cache n.type operand = some o)
    (h : a.addMergeOperation eclass o = some a') (hv : IsValuation (Semantics.apply σ) V a'.graph) :
    Ok σ V g a' := by
  obtain ⟨wi, wt, i', y, rfl, hy, hle, -, hid⟩ := hn.resize hop (.inl rfl)
  obtain ⟨w, wz, inner', x, rfl, hx, -, hle', hval⟩ := hm.resize hmop (.inr rfl)
  cases hi
  cases hinner
  rw [hy] at hval
  cases hval
  obtain rfl := getOp_eq ha hx hget
  obtain ⟨haddable, -, -⟩ := createTruncOrZExt_reference ((hnode _).trans hx) hcr
  refine addMergeOperation_addable ha hnode haddable ?_ h hv
  rw [hid, BitVec.setWidth_setWidth_of_le _ (hle rfl)]

theorem ofBool_eqNat (b : BitVec 1) : APInt.ofBool ((APInt.mk 1 b).eqNat 1) = ⟨1, b⟩ := by
  revert b
  decide

theorem ofBool_not_eqNat (b : BitVec 1) : APInt.ofBool (!(APInt.mk 1 b).eqNat 1) = ⟨1, ~~~b⟩ := by
  revert b
  decide

theorem compare_chosen {y : BitVec w} {u v : Val} {cond : Bool} (hne : u ≠ v)
    (hx : (if cond then u else v) = .int ⟨w, x⟩) : (u = .int ⟨w, y⟩ → compare .eq x y = cond) ∧
      (v = .int ⟨w, y⟩ → compare .eq x y = !cond) := by
  have hiff : compare .eq x y = true ↔ Val.int ⟨w, x⟩ = .int ⟨w, y⟩ := by
    simp [Semantics.compare]
  rw [← hx] at hiff
  constructor
  · rintro rfl
    rw [Bool.eq_iff_iff, hiff]
    cases cond <;> simp [hne.symm]
  · rintro rfl
    rw [Bool.eq_iff_iff, hiff]
    cases cond <;> simp [hne]

theorem icmpeqSelectUpdate_calls {inode snode : ENode}
    (h : icmpeqSelectUpdate cache inode snode eclass a = some a') : Calls a a' := by
  simp only [icmpeqSelectUpdate, bind_eq_bind, bind_eq_some_iff] at h
  obtain ⟨condition, -, trueValue, -, falseValue, -, compared, -, h⟩ := h
  split_ifs at h
  · cases h
    exact Calls.refl _
  · cases h
    exact (Calls.observeConstants _ _ _).trans (Calls.merge _ _ _)
  · simp only [bind_eq_some_iff] at h
    obtain ⟨operand, -, op, -, h⟩ := h
    exact (Calls.observeConstants _ _ _).trans (Calls.addMergeOperation h)
  · cases h
    exact Calls.refl _

/-- A comparison of a `Select` with one of its two literals is the condition or its negation. -/
theorem icmpeqSelectUpdate_sound (ha : Ok σ V g a) (hnode : ∀ i, σ.node i = V i)
    (hn : Holds σ V eclass n) (hop : n.opcode = .icmp .eq) (hi : n.operands[0]? = some i)
    (hm : Holds σ V i m) (hmop : m.opcode = .select)
    (h : icmpeqSelectUpdate cache n m eclass a = some a')
    (hv : IsValuation (Semantics.apply σ) V a'.graph) (he : a'.events = []) : Ok σ V g a' := by
  simp only [icmpeqSelectUpdate, bind_eq_bind, bind_eq_some_iff] at h
  obtain ⟨condition, hc, trueValue, ht, falseValue, hf, compared, hk, h⟩ := h
  obtain ⟨w, s, k, x, y, rfl, hx, hy, hid⟩ := hn.icmp hop
  obtain ⟨t, c, p, q, b, rfl, hb, hval⟩ := hm.select hmop
  cases hi
  cases hc
  cases ht
  cases hf
  cases hk
  have hite : (if (APInt.mk 1 b).eqNat 1 then V trueValue else V falseValue) = .int ⟨w, x⟩ :=
    hval.symm.trans hx
  split_ifs at h with heq htrue hff
  · cases h
    exact ha
  · cases h
    have hne := ha.ne_of_observeConstants ((Calls.merge _ _ _).grows.events he)
    have hcond := (compare_chosen hne hite).1 (htrue ▸ hy)
    refine (ha.observeConstants _ _).merge ?_
    rw [hid, hcond, ofBool_eqNat, hb]
  · simp only [bind_eq_some_iff] at h
    obtain ⟨operand, hget, o, hcr, h⟩ := h
    have hne := ha.ne_of_observeConstants ((Calls.addMergeOperation h).grows.events he)
    have hcond := (compare_chosen hne hite).2 (hff ▸ hy)
    obtain rfl := getOp_eq ha hb hget
    cases hcr
    have haddable : Addable σ (.mk (.unary .not (.int 1)) [reference 1 condition]) (~~~b) :=
      addable_unary (by decide) (addable_reference ((hnode _).trans hb)) rfl rfl
    refine addMergeOperation_addable (ha.observeConstants _ _) hnode haddable ?_ h hv
    rw [hid, hcond, ofBool_not_eqNat]
  · cases h
    exact ha

end Captured

end Rewrite

end Caffeine
