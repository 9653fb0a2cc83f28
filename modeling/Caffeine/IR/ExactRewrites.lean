import Caffeine.IR.CheckedGraphs
import Caffeine.IR.RewriteSound
import Caffeine.Util.CommutativeFolds
import Mathlib.Algebra.Order.Ring.Rat
import Mathlib.Tactic.NormNum

/-!
# Commutativity and associativity over exact arithmetic

The tables of the two rules hold float opcodes besides the integer ones. With floats read as
rationals and exact operations, all opcodes of the tables are associative and commutative but
`FSub`, which both tables list.
-/

namespace Caffeine

open EGraph Semantics OperationData List Option
open EMatcherBuilder (commutativeOpcodes associativeOpcodes)

inductive Exact where
  | val (v : Val)
  | rational (q : ℚ)

namespace Exact

def toRat : Exact → ℚ
  | .val _ => 0
  | .rational q => q

def toVal : Exact → Val
  | .val v => v
  | .rational _ => .poison

def HasType (v : Exact) : Ty → Prop
  | .int w => ∃ x : BitVec w, v = .val (.int ⟨w, x⟩)
  | .float _ _ => ∃ q, v = .rational q
  | _ => True

/-- Exact arithmetic on floats, and the operations on integers; `base` gives the others. -/
def read (σ : Assignment) (base : OperationData → List Exact → Exact) :
    OperationData → List Exact → Exact
  | .binary .fadd (.float _ _), [x, y] => .rational (x.toRat + y.toRat)
  | .binary .fsub (.float _ _), [x, y] => .rational (x.toRat - y.toRat)
  | .binary .fmul (.float _ _), [x, y] => .rational (x.toRat * y.toRat)
  | .fcmp .eq, [x, y] => .val (.int (APInt.ofBool (decide (x.toRat = y.toRat))))
  | .fcmp .ne, [x, y] => .val (.int (APInt.ofBool (decide (x.toRat ≠ y.toRat))))
  | .binary op (.int w), args => .val (apply σ (.binary op (.int w)) (args.map toVal))
  | .icmp cmp, args => .val (apply σ (.icmp cmp) (args.map toVal))
  | d, args => base d args

variable {σ : Assignment} {base : OperationData → List Exact → Exact} {τ : Nat → Ty}
  {V : Nat → Exact}

def RulesAccept (d : OperationData) (types : List Ty) : Prop :=
  d.opcode ∈ commutativeOpcodes → d.accepts types = true

structure ExactSound (σ : Assignment) (base : OperationData → List Exact → Exact) (τ : Nat → Ty)
    (V : Nat → Exact) (g : EGraph) : Prop where
  values : Sound (read σ base) V g
  types : Checked RulesAccept τ g
  hasType : ∀ i, (V i).HasType (τ i)

structure Agrees (σ : Assignment) (base : OperationData → List Exact → Exact) (τ : Nat → Ty)
    (V : Nat → Exact) (g : EGraph) : Prop where
  values : IsValuation (read σ base) V g
  types : IdTypes τ g

theorem Agrees.of_extends {g g' : EGraph} (h : Agrees σ base τ V g') (he : Extends g g') :
    Agrees σ base τ V g :=
  ⟨h.values.of_extends he, h.types.of_extends he⟩

def lift {w : Nat} (f : BitVec w → BitVec w → BitVec w) (x y : Exact) : Exact :=
  .val (.int ⟨w, f (AssociativityRewriter.bits w x.toVal) (AssociativityRewriter.bits w y.toVal)⟩)

theorem bits_val {w : Nat} (x : BitVec w) :
    AssociativityRewriter.bits w (Exact.val (.int ⟨w, x⟩)).toVal = x := APInt.resize_width x

theorem exists_binary_of_opcode {d : OperationData} {op : BinaryOpcode}
    (h : d.opcode = .binary op) : ∃ t, d = .binary op t := by
  unfold opcode at h
  split at h
  case h_9 t =>
    cases h
    exact ⟨t, rfl⟩
  all_goals cases h

theorem operands_of_accepts {op : BinaryOpcode} {t : Ty} {operands : List Nat}
    (h : accepts (.binary op t) (operands.map τ) = true) :
    ∃ lhs rhs, operands = [lhs, rhs] ∧ τ lhs = t ∧ τ rhs = t ∧
      accepts (.binary op t) [t, t] = true := by
  have hshape : (OperationData.binary op t).Shape τ operands := shape_of_accepts h
  cases hshape with
  | @binary _ w l r hl hr _ =>
    refine ⟨l, r, rfl, hl, hr, ?_⟩
    rwa [map_cons, map_singleton, hl, hr] at h
  | @floatBinary _ e m l r hl =>
    have hr : τ r = .float e m := by
      simp only [map_cons, map_nil, accepts, Bool.and_eq_true, decide_eq_true_eq] at h
      exact h.1.2
    refine ⟨l, r, rfl, hl, hr, ?_⟩
    rwa [map_cons, map_singleton, hl, hr] at h

theorem pair_of_accepts {d : OperationData} {operands : List Nat}
    (hop : d.opcode ∈ commutativeOpcodes) (h : d.accepts (operands.map τ) = true) :
    ∃ i j, operands = [i, j] ∧ τ i = τ j := by
  have hshape : d.Shape τ operands := shape_of_accepts h
  cases hshape with
  | binary hl hr _ => exact ⟨_, _, rfl, hl.trans hr.symm⟩
  | floatBinary hl =>
    obtain ⟨i, j, heq, hi, hj, -⟩ := operands_of_accepts h
    exact ⟨i, j, heq, hi.trans hj.symm⟩
  | icmp cmp hl hr => exact ⟨_, _, rfl, hl.trans hr.symm⟩
  | @fcmp cmp e m l r hl =>
    rw [map_cons, map_singleton, hl] at h
    exact ⟨l, r, rfl, hl.trans (of_decide_eq_true h).symm⟩
  | symbol w s => cases s <;> simp [commutativeOpcodes, opcode] at hop
  | _ => simp [commutativeOpcodes, opcode] at hop

section Operations

variable (hV : ∀ i, (V i).HasType (τ i))

include hV

theorem exists_operation {op : BinaryOpcode} {t : Ty} (hop : op ∈ associativeOpcodes)
    (hne : op ≠ .fsub) (ha : accepts (.binary op t) [t, t] = true) :
    ∃ f : Exact → Exact → Exact, Std.Commutative f ∧ Std.Associative f ∧
      ∀ i j, τ i = t → τ j = t → read σ base (.binary op t) [V i, V j] = f (V i) (V j) := by
  have hshape : (OperationData.binary op t).Shape id [t, t] := shape_of_accepts ha
  cases hshape with
  | @binary _ w _ _ _ _ hint =>
    have hassoc : op ∈ Rewrite.associative := by
      cases op <;> simp_all [associativeOpcodes, Rewrite.associative]
    obtain ⟨f, -, hcomm, hassociative, -, hf⟩ := Rewrite.bitvec_of_associative hassoc w
    refine ⟨lift f, ⟨fun x y => ?_⟩, ⟨fun x y z => ?_⟩, fun i j hi hj => ?_⟩
    · rw [lift, hcomm.comm, lift]
    · simp only [lift, bits_val, hassociative.assoc]
    · obtain ⟨x, hx⟩ : (V i).HasType (.int w) := hi ▸ hV i
      obtain ⟨y, hy⟩ : (V j).HasType (.int w) := hj ▸ hV j
      rw [hx, hy, lift, bits_val, bits_val]
      have hread : read σ base (.binary op (.int w)) [.val (.int ⟨w, x⟩), .val (.int ⟨w, y⟩)] =
          .val (Semantics.binary op ⟨w, x⟩ ⟨w, y⟩) := by
        cases op <;> rfl
      rw [hread, Semantics.binary]
      simp only [APInt.resize_width, hf]
  | @floatBinary _ e m _ _ _ =>
    have hfloat : op = .fadd ∨ op = .fmul := by
      cases op <;> simp_all [associativeOpcodes, accepts]
    rcases hfloat with rfl | rfl
    · refine ⟨fun x y => .rational (x.toRat + y.toRat), ⟨fun x y => ?_⟩, ⟨fun x y z => ?_⟩,
        fun i j _ _ => rfl⟩
      · rw [add_comm]
      · exact congrArg rational (add_assoc _ _ _)
    · refine ⟨fun x y => .rational (x.toRat * y.toRat), ⟨fun x y => ?_⟩, ⟨fun x y z => ?_⟩,
        fun i j _ _ => rfl⟩
      · rw [mul_comm]
      · exact congrArg rational (mul_assoc _ _ _)

theorem read_swap {d : OperationData} {i j : Nat} (ha : d.accepts [τ i, τ j] = true)
    (hop : d.opcode ∈ commutativeOpcodes) (hne : d.opcode ≠ .binary .fsub) :
    read σ base d [V j, V i] = read σ base d [V i, V j] := by
  have hbinary : ∀ op t, d = .binary op t → τ i = t → τ j = t →
      read σ base d [V j, V i] = read σ base d [V i, V j] := by
    rintro op t rfl rfl hj
    rw [hj] at ha
    obtain ⟨f, hcomm, -, hf⟩ := exists_operation hV (σ := σ)
      (by cases op <;> simp_all [associativeOpcodes,
        commutativeOpcodes, opcode])
      (fun h => hne (congrArg Opcode.binary h)) ha
    rw [hf i j rfl hj, hf j i hj rfl, hcomm.comm]
  have hshape : d.Shape τ [i, j] := shape_of_accepts ha
  cases hshape with
  | binary hi hj hint => exact hbinary _ _ rfl hi hj
  | floatBinary hi =>
    simp only [accepts, Bool.and_eq_true, decide_eq_true_eq] at ha
    exact hbinary _ _ rfl hi ha.1.2
  | @icmp cmp w _ _ hi hj =>
    obtain ⟨x, hx⟩ : (V i).HasType (.int w) := hi ▸ hV i
    obtain ⟨y, hy⟩ : (V j).HasType (.int w) := hj ▸ hV j
    have hcmp : cmp ∈ [.eq, .ne] := by
      cases cmp <;> simp_all [commutativeOpcodes, opcode]
    have hread : ∀ u v : BitVec w,
        read σ base (.icmp cmp) [.val (.int ⟨w, u⟩), .val (.int ⟨w, v⟩)] =
          .val (.int (APInt.ofBool (compare cmp u v))) := by
      intro u v
      have hicmp : Semantics.icmp cmp ⟨w, u⟩ ⟨w, v⟩ = .int (APInt.ofBool (compare cmp u v)) := by
        rw [Semantics.icmp, APInt.resize_width]
      exact congrArg val hicmp
    rw [hx, hy, hread, hread, Rewrite.compare_comm hcmp]
  | @fcmp cmp e m _ _ hi =>
    have hcmp : cmp = .eq ∨ cmp = .ne := by
      cases cmp <;> simp_all [commutativeOpcodes, opcode]
    rcases hcmp with rfl | rfl
    · simp only [read, eq_comm]
    · simp only [read, ne_comm]
  | _ => simp [commutativeOpcodes, opcode] at hop

end Operations

namespace ExactSound

variable {g g' : EGraph} {id : Nat} {n : ENode}

theorem node (h : ExactSound σ base τ V g) {c : EClass} (hc : g.get id = some c)
    (hn : n ∈ c.nodes) :
    nodeValue (read σ base) V n = V id ∧ n.data.type = τ id ∧
      RulesAccept n.data (n.operands.map τ) := by
  obtain ⟨-, hc⟩ := get_eq_some.mp hc
  obtain ⟨htype, hacc⟩ := h.types.node hc hn
  refine ⟨?_, htype.trans (h.types.root id), hacc⟩
  rw [(h.values.classes _ c hc).nodes n hn, h.values.root]

theorem add (h : ExactSound σ base τ V g) (hn : RulesAccept n.data (n.operands.map τ))
    (hadd : g.add n = some (id, g')) (hv : Agrees σ base τ V g') :
    ExactSound σ base τ V g' ∧ nodeValue (read σ base) V n = V id ∧ τ id = n.data.type := by
  obtain ⟨hvals, hval⟩ := h.values.add_of_isValuation hadd hv.values
  obtain ⟨htys, htype⟩ := h.types.add hn hadd hv.types
  exact ⟨⟨hvals, htys, h.hasType⟩, hval, htype⟩

theorem recosted (h : ExactSound σ base τ V g) (hr : Recosted g g') : ExactSound σ base τ V g' :=
  ⟨h.values.recosted hr, Sound.recosted h.types hr, h.hasType⟩

theorem binary (h : ExactSound σ base τ V g) {op : BinaryOpcode} (hop : op ∈ associativeOpcodes)
    {c : EClass} (hc : g.get id = some c) (hn : n ∈ c.nodes) (hcode : n.opcode = .binary op) :
    ∃ lhs rhs, n = ⟨.binary op (τ id), [lhs, rhs]⟩ ∧ τ lhs = τ id ∧ τ rhs = τ id ∧
      accepts (.binary op (τ id)) [τ id, τ id] = true ∧
      V id = read σ base (.binary op (τ id)) [V lhs, V rhs] := by
  obtain ⟨hval, htype, hacc⟩ := h.node hc hn
  obtain ⟨t, hdata⟩ := exists_binary_of_opcode hcode
  obtain ⟨d, operands⟩ := n
  cases hdata
  cases htype
  have hcomm : ∀ op ∈ associativeOpcodes,
      Opcode.binary op ∈ commutativeOpcodes := by decide
  obtain ⟨lhs, rhs, rfl, hl, hr, ha⟩ := operands_of_accepts (hacc (hcomm op hop))
  exact ⟨lhs, rhs, rfl, hl, hr, ha, hval.symm⟩

end ExactSound

section Associativity

open AssociativityRewriter GraphAccessor

variable {g : EGraph} {a a' : GraphAccessor} {op : BinaryOpcode} {t : Ty}
  {f : Exact → Exact → Exact} [Std.Commutative f] [Std.Associative f]

def IsOperation (σ : Assignment) (base : OperationData → List Exact → Exact) (τ : Nat → Ty)
    (V : Nat → Exact) (op : BinaryOpcode) (t : Ty) (f : Exact → Exact → Exact) : Prop :=
  ∀ i j, τ i = t → τ j = t → read σ base (.binary op t) [V i, V j] = f (V i) (V j)

theorem leaves_combined (hg : ExactSound σ base τ V g)
    (hop : op ∈ associativeOpcodes) (hf : IsOperation σ base τ V op t f)
    {fuel id : Nat} {ids : List Nat} (h : leaves g op fuel id = some ids) (ht : τ id = t) :
    combined f (ids.map V) = some (V id) ∧ ∀ i ∈ ids, τ i = t := by
  induction fuel generalizing id ids with
  | zero => cases h
  | succ fuel ih =>
    simp only [leaves, bind_eq_bind, bind_eq_some_iff] at h
    obtain ⟨c, hc, cost, -, n, hn, h⟩ := h
    by_cases hcode : n.opcode = .binary op
    · rw [if_pos hcode] at h
      simp only [bind_eq_some_iff] at h
      obtain ⟨lhs, hl, rhs, hr, left, hleft, right, hright, heq⟩ := h
      cases heq
      obtain ⟨i, j, rfl, hi, hj, -, hval⟩ := hg.binary hop hc (mem_of_getElem? hn) hcode
      cases hl
      cases hr
      obtain ⟨hvl, htl⟩ := ih hleft (hi.trans ht)
      obtain ⟨hvr, htr⟩ := ih hright (hj.trans ht)
      rw [ht, hf _ _ (hi.trans ht) (hj.trans ht)] at hval
      refine ⟨?_, fun k hk => (mem_append.mp hk).elim (htl k) (htr k)⟩
      rw [map_append, combined_append hvl hvr, hval]
    · rw [if_neg hcode] at h
      cases h
      refine ⟨combined_singleton, fun i hi => ?_⟩
      rw [mem_singleton.mp hi, ht]

omit [Std.Commutative f] [Std.Associative f] in
theorem chain_foldl (hf : IsOperation σ base τ V op t f)
    (hty : accepts (.binary op t) [t, t] = true) {rest : List Nat} (hrest : ∀ i ∈ rest, τ i = t)
    {s s' : Nat × GraphAccessor} (hg : ExactSound σ base τ V s.2.graph) (hs : τ s.1 = t)
    (h : rest.foldlM (fun (s : Nat × GraphAccessor) item =>
      s.2.add ⟨.binary op t, [s.1, item]⟩) s = some s')
    (hv : Agrees σ base τ V s'.2.graph) :
    V s'.1 = (rest.map V).foldl f (V s.1) ∧ s'.2.merges = s.2.merges := by
  induction rest generalizing s with
  | nil =>
    cases h
    exact ⟨rfl, rfl⟩
  | cons i rest ih =>
    obtain ⟨r, hr, h⟩ := foldlM_cons_eq_some.mp h
    obtain ⟨q, hq, rfl⟩ := map_eq_some_iff.mp hr
    have hi := hrest i mem_cons_self
    have hacc : RulesAccept (.binary op t) ([s.1, i].map τ) := by
      intro _
      rw [map_cons, map_singleton, hs, hi]
      exact hty
    obtain ⟨hgr, hvalue, htype⟩ := hg.add hacc hq
      (hv.of_extends (chain_calls h).grows.graph)
    obtain ⟨hval, hmerges⟩ := ih (fun j hj => hrest j (mem_cons_of_mem _ hj)) hgr htype h
    refine ⟨?_, hmerges⟩
    rw [hval, ← hvalue, map_cons, foldl_cons, ← hf s.1 i hs hi]
    rfl

theorem mem_merges_merge {i j : Nat} {p : Nat × Nat} (h : p ∈ (a.merge i j).merges) :
    p ∈ a.merges ∨ p = (i, j) := by
  unfold GraphAccessor.merge at h
  split_ifs at h
  · exact .inl h
  · rcases mem_append.mp h with h | h
    · exact .inl h
    · exact .inr (mem_singleton.mp h)

theorem type_eq (hg : ExactSound σ base τ V a.graph) {id : Nat} (h : a.type id = some t) :
    t = τ id := by
  obtain ⟨c, hc, ht⟩ := bind_eq_some_iff.mp h
  obtain ⟨n, hn, rfl⟩ := map_eq_some_iff.mp ht
  obtain ⟨-, htype, -⟩ := hg.node hc (mem_of_mem_head? hn)
  exact htype

theorem emit_equal (hf : IsOperation σ base τ V op t f)
    (hty : accepts (.binary op t) [t, t] = true) (hg : ExactSound σ base τ V a.graph)
    {items : List Nat} {eclass : Nat} (hitems : combined f (items.map V) = some (V eclass))
    (htys : ∀ i ∈ items, τ i = t) (h : emit a op eclass items = some a')
    (hv : Agrees σ base τ V a'.graph) : ∀ p ∈ a'.merges, p ∈ a.merges ∨ V p.1 = V p.2 := by
  simp only [emit, bind_eq_bind, bind_eq_some_iff] at h
  obtain ⟨sorted, hsort, h⟩ := h
  have hperm := sort_perm hsort
  cases sorted with
  | nil => cases h
  | cons first rest =>
    simp only [bind_eq_some_iff, some.injEq] at h
    obtain ⟨t', ht', r, hr, rfl⟩ := h
    have hsorted : ∀ i ∈ first :: rest, τ i = t := fun i hi => htys i (hperm.mem_iff.mp hi)
    have hfst := hsorted first mem_cons_self
    obtain rfl : t' = t := (type_eq hg ht').trans hfst
    rw [Ok.graph_merge] at hv
    obtain ⟨hval, hmerges⟩ := chain_foldl hf hty
      (fun i hi => hsorted i (mem_cons_of_mem _ hi)) (s := (first, a)) hg hfst hr hv
    rw [← combined_perm (hperm.map V), map_cons, combined_cons] at hitems
    intro p hp
    rcases mem_merges_merge hp with hp | rfl
    · exact .inl (hmerges ▸ hp)
    · exact .inr ((hval.trans (some.inj hitems)).symm)

theorem rewrite_equal (hop : op ∈ associativeOpcodes) (hne : op ≠ .fsub)
    (hg : ExactSound σ base τ V a.graph) {fuel eclass enode : Nat} {n : ENode}
    (hn : a.node eclass enode = some n) (hcode : n.opcode = .binary op)
    (h : rewrite fuel a op eclass enode = some a') (hv : Agrees σ base τ V a'.graph) :
    ∀ p ∈ a'.merges, p ∈ a.merges ∨ V p.1 = V p.2 := by
  simp only [rewrite, bind_eq_some] at h
  obtain ⟨g', hg', n', hn', lhs, hl, rhs, hr, left, hleft, right, hright, h⟩ := h
  have hrec := updateCost_recosted hg'
  obtain ⟨c, hc, hcn⟩ := bind_eq_some_iff.mp hn
  obtain ⟨c', hc', hcn'⟩ := bind_eq_some_iff.mp hn'
  rw [(SameNodes.recosted hrec).nodes_eq hc hc', hcn] at hcn'
  cases hcn'
  obtain ⟨i, j, rfl, hi, hj, hty, hval⟩ := hg.binary hop hc (mem_of_getElem? hcn) hcode
  cases hl
  cases hr
  obtain ⟨f, hcomm, hassoc, hf⟩ := exists_operation hg.hasType (σ := σ) hop hne hty
  have hg1 := hg.recosted hrec
  obtain ⟨hvl, htl⟩ := leaves_combined hg1 hop hf hleft hi
  obtain ⟨hvr, htr⟩ := leaves_combined hg1 hop hf hright hj
  refine emit_equal (a := { a with graph := g' }) hf hty hg1 ?_
    (fun k hk => (mem_append.mp hk).elim (htl k) (htr k)) h hv
  rw [map_append, combined_append hvl hvr, hval, hf _ _ hi hj]

end Associativity

section Rules

open GraphAccessor

/-- The merges the rule requests for a match of the opcode join classes of equal value. -/
def MergesEqual (rule : Rewrite) (opcode : Opcode) : Prop :=
  ∀ (σ : Assignment) (base : OperationData → List Exact → Exact) (τ : Nat → Ty) (V : Nat → Exact)
    (cache : OperationCache) (fuel : Nat) (data : MatchData) (captures : CapturesMap)
    (eclass enode : Nat) (n : ENode) (a a' : GraphAccessor),
    ExactSound σ base τ V a.graph → a.node eclass enode = some n → n.opcode = opcode →
    rule.apply cache fuel data captures eclass enode a = some a' → Agrees σ base τ V a'.graph →
    ∀ p ∈ a'.merges, p ∈ a.merges ∨ V p.1 = V p.2

theorem mergesEqual_commutativity {opcode : Opcode}
    (hop : opcode ∈ commutativeOpcodes) (hne : opcode ≠ .binary .fsub) :
    MergesEqual .commutativity opcode := by
  rintro σ base τ V cache fuel data captures eclass enode n a a' hg hn rfl h hv p hp
  simp only [Rewrite.apply, hn, bind_eq_bind, bind_some, bind_eq_some_iff] at h
  obtain ⟨lhs, hl, rhs, hr, h⟩ := h
  obtain ⟨c, hc, hcn⟩ := bind_eq_some_iff.mp hn
  obtain ⟨hval, htype, hacc⟩ := hg.node hc (mem_of_getElem? hcn)
  obtain ⟨d, operands⟩ := n
  obtain ⟨i, j, rfl, hij⟩ := pair_of_accepts hop (hacc hop)
  cases hl
  cases hr
  obtain ⟨r, hr, rfl⟩ := map_eq_some_iff.mp h
  obtain ⟨q, hq, rfl⟩ := map_eq_some_iff.mp hr
  rw [Ok.graph_merge] at hv
  have hswap : RulesAccept d ([rhs, lhs].map τ) := by
    rw [map_cons, map_singleton, ← hij]
    rw [map_cons, map_singleton, ← hij] at hacc
    exact hacc
  obtain ⟨-, hval', -⟩ := hg.add hswap hq hv
  rcases mem_merges_merge hp with hp | rfl
  · exact .inl hp
  · right
    rw [← hval, ← hval']
    exact (read_swap hg.hasType (hacc hop) hop hne).symm

theorem ExactSound.adds {nodes : List ENode} {g g' : EGraph} (hg : ExactSound σ base τ V g)
    (hn : ∀ n ∈ nodes, RulesAccept n.data (n.operands.map τ))
    (h : nodes.foldlM (fun g n => (g.add n).map Prod.snd) g = some g') (hv : Agrees σ base τ V g') :
    ExactSound σ base τ V g' := by
  induction nodes generalizing g with
  | nil =>
    cases h
    exact hg
  | cons n nodes ih =>
    obtain ⟨t, ht, h⟩ := foldlM_cons_eq_some.mp h
    obtain ⟨r, hr, rfl⟩ := map_eq_some_iff.mp ht
    have hext : Extends r.2 g' := by
      refine foldlM_invariant (Extends r.2) ?_ h (Extends.refl _)
      intro s n s' _ hs hr
      obtain ⟨q, hq, rfl⟩ := map_eq_some_iff.mp hs
      exact hr.trans (Extends.add hq)
    obtain ⟨hnode, hnodes⟩ := forall_mem_cons.mp hn
    obtain ⟨hadd, -⟩ := hg.add hnode hr (hv.of_extends hext)
    exact ih hadd hnodes h

namespace Difference

def nodes : List ENode :=
  [⟨.constant (.float 8 24) (.named "a"), []⟩, ⟨.constant (.float 8 24) (.named "b"), []⟩,
    ⟨.binary .fsub (.float 8 24), [1, 0]⟩]

def swapped : ENode := ⟨.binary .fsub (.float 8 24), [0, 1]⟩

def symbols (d : OperationData) (_ : List Exact) : Exact :=
  .rational (if d = .constant (.float 8 24) (.named "a") then 1 else 2)

def values (i : Nat) : Exact := .rational (if i = 1 then 2 else if i = 3 then -1 else 1)

def types (_ : Nat) : Ty := .float 8 24

theorem values_ne : values 2 ≠ values 3 := by
  intro h
  exact absurd (rational.inj h) (by decide)

def request (rule : Rewrite) : Option (EGraph × GraphAccessor) := do
  let g ← nodes.foldlM (fun g n => (g.add n).map Prod.snd) {}
  let a ← rule.apply .full 4 [] ∅ 2 0 { graph := g }
  some (g, a)

def added (g : EGraph) : List (ENode × Nat) := g.trace.adds.map (fun r => (r.node, r.id))

/-- The rule adds `a - b` and asks to merge its class with the class of `b - a`. -/
def Exchanged (r : EGraph × GraphAccessor) : Prop :=
  GraphAccessor.node { graph := r.1 } 2 0 = some ⟨.binary .fsub (.float 8 24), [1, 0]⟩ ∧
  added r.1 = nodes.zipIdx.reverse ∧ r.2.merges = [(2, 3)] ∧
  added r.2.graph = (swapped, 3) :: nodes.zipIdx.reverse

instance (r : EGraph × GraphAccessor) : Decidable (Exchanged r) := by
  unfold Exchanged
  infer_instance

theorem request_exchanged : ∀ rule ∈ [Rewrite.commutativity, .associativity .fsub],
    (request rule).map (fun r => decide (Exchanged r)) = some true := by
  decide +kernel

theorem agrees {g : EGraph} (h : added g ⊆ (swapped, 3) :: nodes.zipIdx.reverse) :
    Agrees σ symbols types values g := by
  have hall : ∀ p ∈ (swapped, 3) :: nodes.zipIdx.reverse,
      nodeValue (read σ symbols) values p.1 = values p.2 ∧ types p.2 = p.1.data.type := by
    rintro p hp
    simp only [nodes, zipIdx_cons, zipIdx_nil, reverse_cons, reverse_nil,
      nil_append, List.cons_append, mem_cons, not_mem_nil, or_false] at hp
    rcases hp with rfl | rfl | rfl | rfl
    · exact ⟨congrArg rational (show (1 - 2 : ℚ) = -1 by norm_num), rfl⟩
    · exact ⟨congrArg rational (show (2 - 1 : ℚ) = 1 by norm_num), rfl⟩
    · exact ⟨rfl, rfl⟩
    · exact ⟨rfl, rfl⟩
  exact ⟨fun r hr _ => (hall _ (h (List.mem_map_of_mem hr))).1,
    fun r hr _ => (hall _ (h (List.mem_map_of_mem hr))).2⟩

theorem nodes_accepted : ∀ n ∈ nodes, RulesAccept n.data (n.operands.map types) := by
  simp only [nodes, forall_mem_cons, not_mem_nil, false_implies, implies_true, and_true]
  exact ⟨fun h => absurd h (by decide), fun h => absurd h (by decide), fun _ => rfl⟩

theorem unequal_request {rule : Rewrite}
    (hrule : rule ∈ [Rewrite.commutativity, .associativity .fsub]) (σ : Assignment) :
    ∃ (g : EGraph) (a : GraphAccessor), ExactSound σ symbols types values g ∧
      GraphAccessor.node { graph := g } 2 0 = some ⟨.binary .fsub (.float 8 24), [1, 0]⟩ ∧
      rule.apply .full 4 [] ∅ 2 0 { graph := g } = some a ∧ Agrees σ symbols types values a.graph ∧
      (2, 3) ∈ a.merges := by
  obtain ⟨⟨g, a⟩, hr, hdec⟩ := map_eq_some_iff.mp (request_exchanged rule hrule)
  obtain ⟨hnode, hadded, hmerges, hadded'⟩ := of_decide_eq_true hdec
  simp only [request, bind_eq_some, some.injEq, Prod.mk.injEq] at hr
  obtain ⟨g', hg, a', ha, rfl, rfl⟩ := hr
  refine ⟨g', a', ?_, hnode, ha, agrees (hadded' ▸ Subset.refl _), ?_⟩
  · have hemp : ExactSound σ symbols types values {} :=
      ⟨sound_empty, sound_empty, fun _ => ⟨_, rfl⟩⟩
    exact hemp.adds nodes_accepted hg (agrees (hadded ▸ subset_cons_self _ _))
  · rw [hmerges]
    exact mem_singleton_self _

theorem not_mergesEqual {rule : Rewrite}
    (hrule : rule ∈ [Rewrite.commutativity, .associativity .fsub]) :
    ¬ MergesEqual rule (.binary .fsub) := by
  intro h
  obtain ⟨g, a, hg, hnode, happly, ha, hmem⟩ := unequal_request hrule default
  rcases h _ _ _ _ _ _ _ _ _ _ _ _ _ hg hnode rfl happly ha (2, 3) hmem with hp | hp
  · cases hp
  · exact values_ne hp

/-- `b - a` is merged with `a - b`, which has the other sign. -/
theorem fsub_exchanged :
    (∃ (g : EGraph) (a : GraphAccessor), ExactSound default symbols types values g ∧
      GraphAccessor.node { graph := g } 2 0 = some ⟨.binary .fsub (.float 8 24), [1, 0]⟩ ∧
      Rewrite.commutativity.apply .full 4 [] ∅ 2 0 { graph := g } = some a ∧
      Agrees default symbols types values a.graph ∧ (2, 3) ∈ a.merges ∧ values 2 ≠ values 3) ∧
    ¬ MergesEqual (.associativity .fsub) (.binary .fsub) := by
  constructor
  · obtain ⟨g, a, hg, hnode, happly, ha, hmem⟩ :=
      unequal_request mem_cons_self default
    exact ⟨g, a, hg, hnode, happly, ha, hmem, values_ne⟩
  · exact not_mergesEqual (mem_cons_of_mem _ mem_cons_self)

end Difference

/-- Over exact arithmetic the rules are sound for every opcode of their tables but `FSub`. -/
theorem mergesEqual_iff (opcode : Opcode) (op : BinaryOpcode) : (opcode ∈ commutativeOpcodes →
      (MergesEqual .commutativity opcode ↔ opcode ≠ .binary .fsub)) ∧
    (op ∈ associativeOpcodes →
      (MergesEqual (.associativity op) (.binary op) ↔ op ≠ .fsub)) := by
  refine ⟨fun hop => ⟨?_, mergesEqual_commutativity hop⟩, fun hop => ⟨?_, ?_⟩⟩
  · rintro h rfl
    exact Difference.not_mergesEqual (by simp) h
  · rintro h rfl
    exact Difference.not_mergesEqual (by simp) h
  · intro hne σ base τ V cache fuel data captures eclass enode n a a' hg hn hcode h hv
    exact rewrite_equal hop hne hg hn hcode h hv

end Rules

end Exact

end Caffeine
