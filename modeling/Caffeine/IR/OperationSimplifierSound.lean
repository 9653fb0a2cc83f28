import Caffeine.IR.OperationSimplifier
import Mathlib.Data.Option.Basic

/-!
# The folding constructors preserve meaning

Each visitor of an integer opcode returns an expression of the type and the SMT-LIB value of the
operation, at every width and for every assignment.
-/

namespace Caffeine

open List Option
open Semantics (bitvec)
open OperationData (accepts)

variable {op : BinaryOpcode} {t : Ty} {v : APInt} {w' : Nat} {p : Operation × Operation}
  {a : Operation}

namespace OperationSimplifier

open Operation BitVecFacts

variable {σ : Assignment} {w : Nat}

/-- A well-typed integer expression and its value. -/
structure Denotes (σ : Assignment) (o : Operation) {w : Nat} (x : BitVec w) : Prop where
  typed : o.InterpretedIn σ
  type : o.type = .int w
  value : o.eval σ = .int ⟨w, x⟩

def Returns (σ : Assignment) (result : Option Operation) {w : Nat} (x : BitVec w) : Prop :=
  ∃ o, result = some o ∧ Denotes σ o x

variable {o : Operation}

theorem Denotes.returns {x : BitVec w} (h : Denotes σ o x) :
    Returns σ (some o) x := ⟨o, rfl, h⟩

theorem exists_denotes (ho : o.InterpretedIn σ) (ht : o.type = .int w) :
    ∃ x : BitVec w, Denotes σ o x := by
  have hv := ho.eval_hasType
  rw [ht, Val.hasType_int] at hv
  obtain ⟨x, hx⟩ := hv
  exact ⟨x, ho, ht, hx⟩

theorem denotes_constantInt (x : BitVec w) : Denotes σ (constantInt ⟨w, x⟩) x where
  typed := rfl
  type := rfl
  value := rfl

variable {z : BitVec w} {cache : OperationCache}

variable {l r : Operation}

theorem Denotes.binary {x y : BitVec w} (hl : Denotes σ l x) (hr : Denotes σ r y)
    (hz : bitvec op x y = some z) : Denotes σ (.mk (.binary op (.int w)) [l, r]) z where
  typed := by
    refine wellTyped_mk.mpr ⟨rfl, ?_, ?_⟩
    · simp only [map_cons, map_nil, hl.type, hr.type]
      cases op <;> first | (cases hz; done) | simp [accepts]
    · simp only [mem_cons, not_mem_nil, or_false]
      rintro o (rfl | rfl)
      · exact hl.typed
      · exact hr.typed
  type := rfl
  value := by
    rw [eval_mk, map_cons, map_cons, map_nil, hl.value, hr.value]
    simp only [Semantics.apply, Semantics.binary, APInt.resize_width, hz]

theorem Denotes.binary_inv (h : Denotes σ (.mk (.binary op t) [l, r]) z) :
    ∃ x y : BitVec w, Denotes σ l x ∧ Denotes σ r y ∧ bitvec op x y = some z := by
  obtain ⟨-, ha, hops⟩ := wellTyped_mk.mp h.typed
  obtain rfl : t = .int w := h.type
  simp only [map_cons, map_nil, accepts, Bool.and_eq_true, decide_eq_true_eq] at ha
  obtain ⟨x, hl⟩ := exists_denotes (σ := σ) (hops l (by simp)) ha.1.1
  obtain ⟨y, hr⟩ := exists_denotes (σ := σ) (hops r (by simp)) ha.1.2
  refine ⟨x, y, hl, hr, ?_⟩
  have hv := h.value
  rw [eval_mk, map_cons, map_cons, map_nil, hl.value, hr.value] at hv
  simp only [Semantics.apply, Semantics.binary, APInt.resize_width] at hv
  cases hb : bitvec op x y with
  | none => simp [hb] at hv
  | some z' =>
    rw [hb] at hv
    simp only [Val.int.injEq, APInt.mk.injEq, heq_eq_eq, true_and] at hv
    rw [hv]

theorem Denotes.eq_constantInt {x : BitVec w} (h : Denotes σ o x) (hv : constantInt? o = some v) :
    o = constantInt ⟨w, x⟩ ∧ v = ⟨w, x⟩ := by
  obtain ⟨d, ops⟩ := o
  simp only [constantInt?, data_mk] at hv
  split at hv
  · cases hv
    obtain ⟨-, ha, -⟩ := wellTyped_mk.mp h.typed
    have hval := h.value
    rw [eval_mk] at hval
    cases ops with
    | nil =>
      cases hval
      exact ⟨rfl, rfl⟩
    | cons o ops => cases ha
  · cases hv

theorem Denotes.toNat_eq {x : BitVec w} {n : Nat} (h : Denotes σ o x)
    (hn : isConstantInt o n = true) : x.toNat = n := by
  obtain ⟨v, hv, heq⟩ := (Option.any_eq_true _ _).mp hn
  obtain ⟨-, rfl⟩ := h.eq_constantInt hv
  exact beq_iff_eq.mp heq

theorem Denotes.eq_zero {x : BitVec w} (h : Denotes σ o x) (hn : isConstantInt o 0 = true) :
    x = 0#w :=
  BitVec.eq_of_toNat_eq (by simpa using h.toNat_eq hn)

theorem Denotes.eq_allOnes {x : BitVec w} (h : Denotes σ o x) (hn : isConstantOnes o = true) :
    x = BitVec.allOnes w := by
  obtain ⟨v, hv, heq⟩ := (Option.any_eq_true _ _).mp hn
  obtain ⟨-, rfl⟩ := h.eq_constantInt hv
  exact beq_iff_eq.mp heq

theorem Denotes.not_isUndef {x : BitVec w} (h : Denotes σ o x) : isUndef o = false := by
  obtain ⟨d, ops⟩ := o
  obtain ⟨hi, -, -⟩ := wellTyped_mk.mp h.typed
  cases d with
  | undef t => cases hi
  | _ => rfl

theorem Denotes.size_constantInt {x : BitVec w} (h : Denotes σ o x)
    (hc : (constantInt? o).isSome = true) : o.size = 1 := by
  obtain ⟨v, hv⟩ := isSome_iff_exists.mp hc
  rw [(h.eq_constantInt hv).1]
  rfl

theorem Denotes.unique {x y : BitVec w} (hx : Denotes σ o x) (hy : Denotes σ o y) : x = y := by
  have h := hx.value.symm.trans hy.value
  simpa using h

theorem tryConstInt_returns {x y : BitVec w} {z : BitVec w'} {f : APInt → APInt → APInt}
    {otherwise : Option Operation} (hl : Denotes σ l x) (hr : Denotes σ r y)
    (hf : f ⟨w, x⟩ ⟨w, y⟩ = ⟨w', z⟩) (ho : Returns σ otherwise z) :
    Returns σ (tryConstInt l r f otherwise) z := by
  unfold tryConstInt
  split
  · rename_i a b ha hb
    rw [(hl.eq_constantInt ha).2, (hr.eq_constantInt hb).2, hf]
    exact (denotes_constantInt z).returns
  · exact ho

theorem matchBinary_denotes (hm : matchBinary op o = some p) (ho : Denotes σ o z) :
    ∃ x y : BitVec w, Denotes σ p.1 x ∧ Denotes σ p.2 y ∧ bitvec op x y = some z ∧
      p.1.size + p.2.size < o.size := by
  unfold matchBinary at hm
  split at hm
  · rename_i op' t l r
    split_ifs at hm with hop
    cases hm
    subst hop
    obtain ⟨x, y, hl, hr, hz⟩ := ho.binary_inv
    refine ⟨x, y, hl, hr, hz, ?_⟩
    simp [size_mk]
  · cases hm

theorem matchByConst_denotes (hm : matchByConst op o = some p) (ho : Denotes σ o z) :
    ∃ x y : BitVec w, Denotes σ p.1 x ∧ p.2 = constantInt ⟨w, y⟩ ∧
      bitvec op x y = some z ∧ p.1.size + 1 < o.size := by
  obtain ⟨hm, hc⟩ := filter_eq_some_iff.mp hm
  obtain ⟨x, y, hl, hr, hz, hsize⟩ := matchBinary_denotes hm ho
  obtain ⟨v, hv⟩ := isSome_iff_exists.mp hc
  rw [hr.size_constantInt hc] at hsize
  exact ⟨x, y, hl, (hr.eq_constantInt hv).1, hz, hsize⟩

theorem matchMask_denotes (hm : matchMask o = some p) (ho : Denotes σ o z) :
    ∃ m x : BitVec w, p.1 = constantInt ⟨w, m⟩ ∧ Denotes σ p.2 x ∧ z = x &&& m ∧
      p.2.size + 1 < o.size := by
  rcases (orElse_eq_some _ _ _).mp hm with hm | ⟨-, hm⟩
  · obtain ⟨hm, hc⟩ := filter_eq_some_iff.mp hm
    obtain ⟨m, x, hl, hr, hz, hsize⟩ := matchBinary_denotes hm ho
    obtain ⟨v, hv⟩ := isSome_iff_exists.mp hc
    rw [hl.size_constantInt hc] at hsize
    cases hz
    exact ⟨m, x, (hl.eq_constantInt hv).1, hr, BitVec.and_comm m x, by omega⟩
  · obtain ⟨q, hq, rfl⟩ := map_eq_some_iff.mp hm
    obtain ⟨x, m, hl, hr, hz, hsize⟩ := matchByConst_denotes hq ho
    cases hz
    exact ⟨m, x, hr, hl, rfl, hsize⟩

section Visitors

variable {l r : Operation} {x y : BitVec w}

theorem visitAdd_returns (hl : Denotes σ l x) (hr : Denotes σ r y) :
    Returns σ (visitAdd (.int w) l r) (x + y) := by
  unfold visitAdd
  split_ifs with hu h1 h2
  · simp [hl.not_isUndef, hr.not_isUndef] at hu
  · rw [hl.eq_zero h1, BitVec.zero_add]
    exact hr.returns
  · rw [hr.eq_zero h2, BitVec.add_zero]
    exact hl.returns
  · exact tryConstInt_returns hl hr (by simp [APInt.add, APInt.zipWith]) (hl.binary hr rfl).returns

theorem visitSub_returns (hl : Denotes σ l x) (hr : Denotes σ r y) :
    Returns σ (visitSub cache (.int w) l r) (x - y) := by
  unfold visitSub
  split_ifs with hu h1 h2
  · simp [hl.not_isUndef, hr.not_isUndef] at hu
  · rw [hr.eq_zero h1, BitVec.sub_zero]
    exact hl.returns
  · obtain rfl := cache.eq_of_same _ _ h2
    rw [hl.unique hr, BitVec.sub_self]
    exact (denotes_constantInt 0).returns
  · exact tryConstInt_returns hl hr (by simp [APInt.sub, APInt.zipWith]) (hl.binary hr rfl).returns

theorem visitMul_returns (hl : Denotes σ l x) (hr : Denotes σ r y) :
    Returns σ (visitMul (.int w) l r) (x * y) := by
  unfold visitMul
  split_ifs with h1 h2
  · obtain rfl := hl.eq_zero h1
    rw [BitVec.zero_mul]
    exact hl.returns
  · obtain rfl := hr.eq_zero h2
    rw [BitVec.mul_zero]
    exact hr.returns
  · exact tryConstInt_returns hl hr (by simp [APInt.mul, APInt.zipWith]) (hl.binary hr rfl).returns

theorem visitXor_returns (hl : Denotes σ l x) (hr : Denotes σ r y) :
    Returns σ (visitXor (.int w) l r) (x ^^^ y) := by
  unfold visitXor
  split_ifs with hu h1 h2
  · simp [hl.not_isUndef, hr.not_isUndef] at hu
  · rw [hl.eq_zero h1, BitVec.zero_xor]
    exact hr.returns
  · rw [hr.eq_zero h2, BitVec.xor_zero]
    exact hl.returns
  · exact tryConstInt_returns hl hr (by simp [APInt.xor, APInt.zipWith]) (hl.binary hr rfl).returns

theorem isNullValue_eq_false {y : BitVec w} (hy : y ≠ 0) :
    (APInt.mk w y).isNullValue = false := beq_eq_false_iff_ne.mpr hy

theorem visitUDiv_returns (hl : Denotes σ l x) (hr : Denotes σ r y) (hy : y ≠ 0) :
    Returns σ (visitUDiv (.int w) l r) (x.smtUDiv y) := by
  unfold visitUDiv
  split_ifs with h
  · rcases (Bool.or_eq_true _ _).mp h with h | h
    · obtain rfl := hl.eq_zero h
      rw [zero_smtUDiv hy]
      exact hl.returns
    · rw [smtUDiv_one (hr.toNat_eq h)]
      exact hl.returns
  · refine tryConstInt_returns hl hr ?_ (hl.binary hr rfl).returns
    simp [Value.bvudiv, isNullValue_eq_false hy, APInt.udiv, APInt.zipWith, smtUDiv_of_ne_zero hy]

theorem visitSDiv_returns (hl : Denotes σ l x) (hr : Denotes σ r y) (hy : y ≠ 0)
    (hover : ¬ (x = BitVec.intMin w ∧ y = BitVec.allOnes w)) :
    Returns σ (visitSDiv (.int w) l r) (x.smtSDiv y) := by
  unfold visitSDiv
  split_ifs with h1 h2
  · obtain rfl := hl.eq_zero h1
    rw [zero_smtSDiv hy]
    exact hl.returns
  · obtain ⟨h, hw⟩ := (Bool.and_eq_true _ _).mp h2
    have hw : 1 < w := of_decide_eq_true hw
    rw [smtSDiv_one hw (hr.toNat_eq h)]
    exact hl.returns
  · refine tryConstInt_returns hl hr ?_ (hl.binary hr rfl).returns
    have hmin : ((APInt.mk w x).isMinSignedValue && (APInt.mk w y).isAllOnesValue) = false := by
      rw [Bool.and_eq_false_iff]
      by_contra hcon
      rw [not_or, Bool.not_eq_false, Bool.not_eq_false] at hcon
      exact hover ⟨beq_iff_eq.mp hcon.1, beq_iff_eq.mp hcon.2⟩
    simp [Value.bvsdiv, isNullValue_eq_false hy, hmin, APInt.sdiv, APInt.zipWith,
      smtSDiv_of_ne_zero hy]

theorem visitURem_returns (hl : Denotes σ l x) (hr : Denotes σ r y) (hy : y ≠ 0) :
    Returns σ (visitURem (.int w) l r) (x % y) := by
  unfold visitURem
  split_ifs with h1 h2
  · obtain rfl := hl.eq_zero h1
    rw [BitVec.zero_umod]
    exact hl.returns
  · rw [umod_one (hr.toNat_eq h2)]
    exact (denotes_constantInt 0).returns
  · refine tryConstInt_returns hl hr ?_ (hl.binary hr rfl).returns
    simp [Value.bvurem, isNullValue_eq_false hy, APInt.urem, APInt.zipWith]

theorem visitSRem_returns (hl : Denotes σ l x) (hr : Denotes σ r y) (hy : y ≠ 0) :
    Returns σ (visitSRem (.int w) l r) (x.srem y) := by
  unfold visitSRem
  split_ifs with h1 h2
  · obtain rfl := hl.eq_zero h1
    rw [BitVec.zero_srem]
    exact hl.returns
  · obtain ⟨h, hw⟩ := (Bool.and_eq_true _ _).mp h2
    have hw : 1 < w := of_decide_eq_true hw
    rw [srem_one hw (hr.toNat_eq h)]
    exact (denotes_constantInt 0).returns
  · refine tryConstInt_returns hl hr ?_ (hl.binary hr rfl).returns
    simp [Value.bvsrem, isNullValue_eq_false hy, APInt.srem, APInt.zipWith]

theorem visitLShr_returns (hl : Denotes σ l x) (hr : Denotes σ r y) :
    Returns σ (visitLShr (.int w) l r) (x >>> y) := by
  unfold visitLShr
  split_ifs with h
  · rcases (Bool.or_eq_true _ _).mp h with h | h
    · obtain rfl := hl.eq_zero h
      rw [BitVec.ushiftRight_eq', BitVec.zero_ushiftRight]
      exact hl.returns
    · rw [hr.eq_zero h]
      simpa using hl.returns
  · exact tryConstInt_returns hl hr (by simp [APInt.lshr, APInt.zipWith])
      (hl.binary hr rfl).returns

theorem visitAShr_returns (hl : Denotes σ l x) (hr : Denotes σ r y) :
    Returns σ (visitAShr (.int w) l r) (x.sshiftRight' y) := by
  unfold visitAShr
  split_ifs with h
  · rcases (Bool.or_eq_true _ _).mp h with h | h
    · obtain rfl := hl.eq_zero h
      simpa using hl.returns
    · rw [hr.eq_zero h]
      simpa using hl.returns
  · exact tryConstInt_returns hl hr (by simp [APInt.ashr, APInt.zipWith])
      (hl.binary hr rfl).returns

end Visitors

section Nested

/-- What the visitors need of the constructors they call, which nest at most `n` deep. -/
structure Creates (σ : Assignment)
    (create : BinaryConstructor) (n : Nat) : Prop where
  literals : ∀ {op a b}, op ∈ [.and, .or, .shl] → a.width = b.width →
    ∃ v, create op (constantInt a) (constantInt b) = some (constantInt v)
  returns : ∀ {op l r w} {x y z : BitVec w}, op ∈ [.and, .or, .shl, .lshr] →
    op = .lshr ∨ l.size + r.size ≤ n → Denotes σ l x → Denotes σ r y →
    bitvec op x y = some z → Returns σ (create op l r) z

variable {create : BinaryConstructor} {n : Nat}
  {l r : Operation} {x y : BitVec w}

theorem size_pos (o : Operation) : 0 < o.size := by
  obtain ⟨d, ops⟩ := o
  rw [size_mk]
  exact Nat.succ_pos _

theorem Creates.fold (hc : Creates σ create n) (hn : 2 ≤ n) (hop : op ∈ [.and, .or, .shl])
    (hz : bitvec op x y = some z) :
    create op (constantInt ⟨w, x⟩) (constantInt ⟨w, y⟩) = some (constantInt ⟨w, z⟩) := by
  obtain ⟨v, hv⟩ := hc.literals (a := ⟨w, x⟩) (b := ⟨w, y⟩) hop rfl
  have hop' : op ∈ [.and, .or, .shl, .lshr] := by
    simp only [mem_cons, not_mem_nil, or_false] at hop ⊢
    tauto
  have hsize : (constantInt ⟨w, x⟩).size + (constantInt ⟨w, y⟩).size ≤ n := hn
  obtain ⟨o, ho, hd⟩ :=
    hc.returns hop' (.inr hsize) (denotes_constantInt x) (denotes_constantInt y) hz
  rw [hv] at ho
  cases ho
  rw [hv, (hd.eq_constantInt rfl).1]

theorem matchShiftedMask_denotes {mask value shift : Operation}
    (hm : matchShiftedMask l r = some (mask, value, shift)) (hl : Denotes σ l x)
    (hr : Denotes σ r y) :
    ∃ m v s : BitVec w, mask = constantInt ⟨w, m⟩ ∧ Denotes σ value v ∧
      shift = constantInt ⟨w, s⟩ ∧ x &&& y = v >>> s &&& m ∧ value.size + 1 < l.size + r.size := by
  rcases (orElse_eq_some _ _ _).mp hm with hm | ⟨-, hm⟩
  · split_ifs at hm with hc
    obtain ⟨q, hq, heq⟩ := map_eq_some_iff.mp hm
    cases heq
    obtain ⟨v, s, hv, hs, hz, hsize⟩ := matchByConst_denotes hq hr
    obtain ⟨a, ha⟩ := isSome_iff_exists.mp hc
    cases hz
    exact ⟨x, v, s, (hl.eq_constantInt ha).1, hv, hs, BitVec.and_comm _ _,
      hsize.trans_le (Nat.le_add_left _ _)⟩
  · split_ifs at hm with hc
    obtain ⟨q, hq, heq⟩ := map_eq_some_iff.mp hm
    cases heq
    obtain ⟨v, s, hv, hs, hz, hsize⟩ := matchByConst_denotes hq hl
    obtain ⟨a, ha⟩ := isSome_iff_exists.mp hc
    cases hz
    exact ⟨y, v, s, (hr.eq_constantInt ha).1, hv, hs, rfl, hsize.trans_le (Nat.le_add_right _ _)⟩

theorem matchTwoMasks_denotes {mask1 mask2 value : Operation}
    (hm : matchTwoMasks l r = some (mask1, mask2, value)) (hl : Denotes σ l x)
    (hr : Denotes σ r y) :
    ∃ m1 m2 v : BitVec w, mask1 = constantInt ⟨w, m1⟩ ∧ mask2 = constantInt ⟨w, m2⟩ ∧
      Denotes σ value v ∧ x &&& y = v &&& (m1 &&& m2) ∧ value.size + 1 < l.size + r.size := by
  unfold matchTwoMasks at hm
  split_ifs at hm with hc hc
  · obtain ⟨q, hq, heq⟩ := map_eq_some_iff.mp hm
    cases heq
    obtain ⟨m, v, hm, hv, rfl, hsize⟩ := matchMask_denotes hq hr
    obtain ⟨a, ha⟩ := isSome_iff_exists.mp hc
    refine ⟨x, m, v, (hl.eq_constantInt ha).1, hm, hv, ?_, hsize.trans_le (Nat.le_add_left _ _)⟩
    rw [← BitVec.and_assoc, BitVec.and_comm x v, BitVec.and_assoc]
  · obtain ⟨q, hq, heq⟩ := map_eq_some_iff.mp hm
    cases heq
    obtain ⟨m, v, hm, hv, rfl, hsize⟩ := matchMask_denotes hq hl
    obtain ⟨a, ha⟩ := isSome_iff_exists.mp hc
    refine ⟨y, m, v, (hr.eq_constantInt ha).1, hm, hv, ?_, hsize.trans_le (Nat.le_add_right _ _)⟩
    rw [BitVec.and_assoc, BitVec.and_comm m y]

theorem visitAnd_returns (hc : Creates σ create n) (hn : l.size + r.size ≤ n + 1)
    (hl : Denotes σ l x) (hr : Denotes σ r y) :
    Returns σ (visitAnd create (.int w) l r) (x &&& y) := by
  unfold visitAnd
  split_ifs with h1 h2 h3 h4
  · obtain rfl := hl.eq_zero h1
    rw [BitVec.zero_and]
    exact hl.returns
  · obtain rfl := hr.eq_zero h2
    rw [BitVec.and_zero]
    exact hr.returns
  · rw [hl.eq_allOnes h3, BitVec.allOnes_and]
    exact hr.returns
  · rw [hr.eq_allOnes h4, BitVec.and_allOnes]
    exact hl.returns
  · refine tryConstInt_returns hl hr (by simp [APInt.and, APInt.zipWith]) ?_
    split
    · rename_i mask value shift hm
      obtain ⟨m, v, s, hmask, hv, hsh, hxy, hsize⟩ := matchShiftedMask_denotes hm hl hr
      have hpos := size_pos value
      rw [hmask, hsh, hc.fold (by omega) (by simp) (rfl : bitvec .shl m s = _)]
      obtain ⟨o, ho, hd⟩ := hc.returns (by simp)
        (.inr (show value.size + 1 ≤ n by omega)) hv (denotes_constantInt (m <<< s))
        (rfl : bitvec .and v (m <<< s) = _)
      simp only [some_bind, ho]
      rw [hxy, ← and_shiftLeft_ushiftRight]
      exact hc.returns (by simp) (.inl rfl) hd (denotes_constantInt s) rfl
    · split
      · rename_i mask1 mask2 value hm
        obtain ⟨m1, m2, v, hm1, hm2, hv, hxy, hsize⟩ := matchTwoMasks_denotes hm hl hr
        have hpos := size_pos value
        rw [hm1, hm2, hc.fold (by omega) (by simp) (rfl : bitvec .and m1 m2 = _), hxy]
        exact hc.returns (by simp) (.inr (show value.size + 1 ≤ n by omega)) hv
          (denotes_constantInt (m1 &&& m2)) rfl
      · exact (hl.binary hr rfl).returns

theorem visitOr_returns (hc : Creates σ create n) (hn : l.size + r.size ≤ n + 1)
    (hl : Denotes σ l x) (hr : Denotes σ r y) :
    Returns σ (visitOr cache create (.int w) l r) (x ||| y) := by
  unfold visitOr
  split_ifs with h1 h2 h3 h4
  · rw [hl.eq_zero h1, BitVec.zero_or]
    exact hr.returns
  · rw [hr.eq_zero h2, BitVec.or_zero]
    exact hl.returns
  · obtain rfl := hl.eq_allOnes h3
    rw [BitVec.allOnes_or]
    exact hl.returns
  · obtain rfl := hr.eq_allOnes h4
    rw [BitVec.or_allOnes]
    exact hr.returns
  · refine tryConstInt_returns hl hr (by simp [APInt.or, APInt.zipWith]) ?_
    split
    · rename_i value1 mask1 value2 mask2 hm1 hm2
      split_ifs with hsame
      · obtain ⟨v, m1, hv, rfl, hz1, hsize⟩ := matchByConst_denotes hm1 hl
        obtain ⟨v', m2, hv', rfl, hz2, -⟩ := matchByConst_denotes hm2 hr
        simp only at hv hv' hsize
        obtain rfl := cache.eq_of_same _ _ hsame
        obtain rfl := hv.unique hv'
        cases hz1
        cases hz2
        have hpos := size_pos value1
        have hpos' := size_pos r
        rw [hc.fold (by omega) (by simp) (rfl : bitvec .or m1 m2 = _),
          ← BitVec.and_or_distrib_left]
        exact hc.returns (by simp) (.inr (show value1.size + 1 ≤ n by omega)) hv
          (denotes_constantInt (m1 ||| m2)) rfl
      · exact (hl.binary hr rfl).returns
    · exact (hl.binary hr rfl).returns

theorem visitShl_returns (hc : Creates σ create n) (hn : l.size + r.size ≤ n + 1)
    (hl : Denotes σ l x) (hr : Denotes σ r y) :
    Returns σ (visitShl create (.int w) l r) (x <<< y) := by
  unfold visitShl
  split_ifs with h
  · rcases (Bool.or_eq_true _ _).mp h with h | h
    · obtain rfl := hl.eq_zero h
      simpa using hl.returns
    · rw [hr.eq_zero h]
      simpa using hl.returns
  · refine tryConstInt_returns hl hr (by simp [APInt.shl, APInt.zipWith]) ?_
    split
    · rename_i value rshift lv hm hlv
      obtain ⟨v, s, hv, rfl, hz, hsize⟩ := matchByConst_denotes hm hl
      obtain ⟨-, rfl⟩ := hr.eq_constantInt hlv
      simp only at hv hsize ⊢
      split_ifs with hsh
      · obtain ⟨heq, hlt⟩ := (Bool.and_eq_true _ _).mp hsh
        have hys : y = s := by simpa [APInt.eq, constantInt?, constantInt] using heq
        have hlim : (APInt.mk w y).getLimitedValue (Ty.int w).bitwidth = y.toNat := by
          have hne : min y.toNat w ≠ w := of_decide_eq_true hlt
          change min y.toNat w = y.toNat
          omega
        have hpos := size_pos r
        subst hys
        cases hz
        rw [hlim, BitVec.shiftLeft_eq', BitVec.ushiftRight_eq', ushiftRight_shiftLeft]
        exact hc.returns (by simp) (.inr (show value.size + 1 ≤ n by omega)) hv
          (denotes_constantInt _) rfl
      · exact (hl.binary hr rfl).returns
    · exact (hl.binary hr rfl).returns

theorem create_literals (cache : OperationCache) (n : Nat) {a b : APInt}
    (hop : op ∈ [.and, .or, .shl]) (hw : a.width = b.width) :
    ∃ v, OperationSimplifier.create cache (n + 1) op (constantInt a) (constantInt b) =
      some (constantInt v) := by
  have hacc : (OperationData.binary op (constantInt a).type).accepts
      [(constantInt a).type, (constantInt b).type] = true := by
    simp only [mem_cons, not_mem_nil, or_false] at hop
    rcases hop with rfl | rfl | rfl <;>
      simp [constantInt, OperationData.type, accepts, hw]
  rw [OperationSimplifier.create, if_pos hacc]
  simp only [mem_cons, not_mem_nil, or_false] at hop
  rcases hop with rfl | rfl | rfl
  · simp only [visitBinary, visitAnd]
    split_ifs <;> exact ⟨_, rfl⟩
  · simp only [visitBinary, visitOr]
    split_ifs <;> exact ⟨_, rfl⟩
  · simp only [visitBinary, visitShl]
    split_ifs <;> exact ⟨_, rfl⟩

theorem create_eq_visit (hl : Denotes σ l x) (hr : Denotes σ r y)
    (hz : bitvec op x y = some z) (n : Nat) :
    OperationSimplifier.create cache (n + 1) op l r =
      visitBinary cache (OperationSimplifier.create cache n) op (.int w) l r := by
  obtain ⟨-, ha, -⟩ := wellTyped_mk.mp (hl.binary hr hz).typed
  rw [map_cons, map_cons, map_nil, ← hl.type] at ha
  rw [OperationSimplifier.create, if_pos ha, hl.type]

theorem create_creates (σ : Assignment) (cache : OperationCache) (n : Nat) :
    Creates σ (OperationSimplifier.create cache (n + 1)) (n + 1) := by
  induction n with
  | zero =>
    refine ⟨create_literals cache 0, ?_⟩
    intro op l r w x y z hop hsize hl hr hz
    rw [create_eq_visit hl hr hz]
    rcases hsize with rfl | hsize
    · cases hz
      exact visitLShr_returns hl hr
    · have hpos := size_pos l
      have hpos' := size_pos r
      omega
  | succ n ih =>
    refine ⟨create_literals cache (n + 1), ?_⟩
    intro op l r w x y z hop hsize hl hr hz
    rw [create_eq_visit hl hr hz]
    simp only [mem_cons, not_mem_nil, or_false] at hop
    rcases hop with rfl | rfl | rfl | rfl
    · cases hz
      exact visitAnd_returns ih (hsize.resolve_left (by simp)) hl hr
    · cases hz
      exact visitOr_returns ih (hsize.resolve_left (by simp)) hl hr
    · cases hz
      exact visitShl_returns ih (hsize.resolve_left (by simp)) hl hr
    · cases hz
      exact visitLShr_returns hl hr

end Nested

section Unary

variable {o : Operation} {x : BitVec w}

theorem denotes_unary {op : UnaryOpcode} {z : BitVec w'} (ho : Denotes σ o x)
    (ha : (OperationData.unary op (.int w')).accepts [.int w] = true)
    (hz : Semantics.unary op (.int w') ⟨w, x⟩ = .int ⟨w', z⟩) :
    Denotes σ (.mk (.unary op (.int w')) [o]) z where
  typed := by
    refine wellTyped_mk.mpr ⟨rfl, ?_, ?_⟩
    · rwa [map_singleton, ho.type]
    · simp only [mem_singleton]
      rintro _ rfl
      exact ho.typed
  type := rfl
  value := by
    rw [eval_mk, map_singleton, ho.value]
    exact hz

theorem Denotes.unary_inv {op : UnaryOpcode} {z : BitVec w'}
    (h : Denotes σ (.mk (.unary op t) [o]) z) (ho : o.type = .int w) :
    ∃ x : BitVec w, Denotes σ o x ∧ Semantics.unary op (.int w') ⟨w, x⟩ = .int ⟨w', z⟩ := by
  obtain ⟨-, -, hops⟩ := wellTyped_mk.mp h.typed
  obtain rfl : t = .int w' := h.type
  obtain ⟨x, hx⟩ := exists_denotes (σ := σ) (hops o (by simp)) ho
  refine ⟨x, hx, ?_⟩
  have hv := h.value
  rw [eval_mk, map_singleton, hx.value] at hv
  exact hv

theorem visitNot_returns (ho : Denotes σ o x) : Returns σ (visitNot (.int w) o) (~~~x) := by
  unfold visitNot
  split
  · rename_i v ops
    obtain ⟨-, rfl⟩ := ho.eq_constantInt rfl
    exact (denotes_constantInt (~~~x)).returns
  · rename_i t value
    obtain ⟨-, ha, -⟩ := wellTyped_mk.mp ho.typed
    obtain rfl : t = .int w := ho.type
    obtain ⟨v, hv, hx⟩ := ho.unary_inv (of_decide_eq_true ha)
    simp only [Semantics.unary, APInt.not, APInt.map, Val.int.injEq, APInt.mk.injEq, heq_eq_eq,
      true_and] at hx
    rw [← hx, BitVec.not_not]
    exact hv.returns
  · exact (denotes_unary ho (by simp [accepts]) rfl).returns

theorem Denotes.width_ne {v : APInt} (ho : Denotes σ o x) (hv : constantInt? o = some v)
    (hlit : ∀ v ∈ constantInt? o, v.width ≠ w') : v = ⟨w, x⟩ ∧ w ≠ w' := by
  obtain ⟨-, rfl⟩ := ho.eq_constantInt hv
  exact ⟨rfl, hlit _ hv⟩

theorem visitTrunc_returns (ho : Denotes σ o x) (hw : w' ≤ w)
    (hlit : ∀ v ∈ constantInt? o, v.width ≠ w') :
    Returns σ (visitTrunc (.int w') o) (x.setWidth w') := by
  unfold visitTrunc
  split
  · rename_i v hv
    obtain ⟨rfl, hne⟩ := ho.width_ne hv hlit
    rw [if_pos (show (Ty.int w').bitwidth < w from lt_of_le_of_ne hw hne.symm)]
    exact (denotes_constantInt (x.setWidth w')).returns
  · split_ifs with ht
    · obtain rfl : w' = w := by simpa [ho.type] using ht
      rw [BitVec.setWidth_eq]
      exact ho.returns
    · exact (denotes_unary ho (by simp [accepts, hw]) rfl).returns

theorem visitSExt_returns (ho : Denotes σ o x) (hw : w ≤ w')
    (hlit : ∀ v ∈ constantInt? o, v.width ≠ w') :
    Returns σ (visitSExt (.int w') o) (x.signExtend w') := by
  unfold visitSExt
  split
  · rename_i v hv
    obtain ⟨rfl, hne⟩ := ho.width_ne hv hlit
    rw [if_pos (show w < (Ty.int w').bitwidth from lt_of_le_of_ne hw hne)]
    exact (denotes_constantInt (x.signExtend w')).returns
  · split_ifs with ht
    · obtain rfl : w' = w := by simpa [ho.type] using ht
      rw [BitVec.signExtend_eq]
      exact ho.returns
    · exact (denotes_unary ho (by simp [accepts, hw]) rfl).returns

theorem visitZExt_returns {create : BinaryConstructor}
    {n : Nat} (hc : Creates σ create n) (hn : o.size ≤ n) (ho : Denotes σ o x) (hw : w ≤ w')
    (hlit : ∀ v ∈ constantInt? o, v.width ≠ w') :
    Returns σ (visitZExt create (.int w') o) (x.setWidth w') := by
  unfold visitZExt
  split
  · rename_i v hv
    obtain ⟨rfl, hne⟩ := ho.width_ne hv hlit
    rw [if_pos (show w < (Ty.int w').bitwidth from lt_of_le_of_ne hw hne)]
    exact (denotes_constantInt (x.setWidth w')).returns
  · split_ifs with ht
    · obtain rfl : w' = w := by simpa [ho.type] using ht
      rw [BitVec.setWidth_eq]
      exact ho.returns
    · split
      · rename_i t inner hcon
        split_ifs with hbw
        · obtain ⟨-, ha, hops⟩ := wellTyped_mk.mp ho.typed
          obtain rfl : t = .int w := ho.type
          have hinner : inner.type = .int w' := by
            cases hi : inner.type with
            | int k =>
              rw [hi] at hbw
              exact congrArg Ty.int hbw.symm
            | _ => simp [accepts, hi] at ha
          obtain ⟨v, hv, hx⟩ := ho.unary_inv hinner
          simp only [Semantics.unary, APInt.trunc, Ty.bitwidth, Val.int.injEq, APInt.mk.injEq,
            heq_eq_eq, true_and] at hx
          rw [← hx, setWidth_setWidth_eq_and, BitVec.setWidth_eq]
          have hsize : inner.size + 1 ≤ n := by simpa [size_mk] using hn
          exact hc.returns (by simp) (.inr hsize) hv (denotes_constantInt _) rfl
        · exact (denotes_unary ho (by simp [accepts, hw]) rfl).returns
      · exact (denotes_unary ho (by simp [accepts, hw]) rfl).returns

end Unary

section Compare

variable {l r : Operation} {x y : BitVec w}

theorem compare_self (cmp : ICmpOpcode) (x : BitVec w) :
    Semantics.compare cmp x x = decide (cmp ∈ [.eq, .ule, .sle, .uge, .sge]) := by
  cases cmp <;> simp [Semantics.compare, BitVec.ule, BitVec.ult, BitVec.sle, BitVec.slt]

theorem visitICmp_returns {cmp : ICmpOpcode} (hl : Denotes σ l x) (hr : Denotes σ r y) :
    Returns σ (visitICmp cache cmp l r) (BitVec.ofBool (Semantics.compare cmp x y)) := by
  unfold visitICmp
  refine tryConstInt_returns hl hr ?_ ?_
  · rw [Semantics.constantIntCompare_eq, APInt.resize_width]
    rfl
  · split_ifs with hsame hu
    · simp [hl.not_isUndef] at hu
    · obtain rfl := cache.eq_of_same _ _ hsame
      obtain rfl := hl.unique hr
      rw [compare_self]
      exact (denotes_constantInt _).returns
    · refine Denotes.returns ⟨?_, rfl, ?_⟩
      · refine wellTyped_mk.mpr ⟨rfl, ?_, ?_⟩
        · simp [hl.type, hr.type, accepts]
        · simp only [mem_cons, not_mem_nil, or_false]
          rintro o (rfl | rfl)
          · exact hl.typed
          · exact hr.typed
      · rw [eval_mk, map_cons, map_cons, map_nil, hl.value, hr.value]
        simp only [Semantics.apply, Semantics.icmp, APInt.resize_width]
        rfl

end Compare

end OperationSimplifier

namespace OperationData

def isIntegerOp : OperationData → Bool
  | .binary op _ => op ∉ [.fadd, .fsub, .fmul, .fdiv, .frem]
  | .icmp _ => true
  | .unary op _ => op ∈ [.not, .trunc, .zext, .sext]
  | .select _ => true
  | _ => false

end OperationData

namespace OperationSimplifier

open Operation

variable {w : Nat}

/-- A literal is cast to its own width. -/
def CastsLiteral : OperationData → List Operation → Prop
  | .unary op t, [operand] =>
    op ∈ [.trunc, .zext, .sext] ∧ ∃ v ∈ constantInt? operand, v.width = t.bitwidth
  | _, _ => False

/-- The visitor of a well-typed operation and the meaning of its result. -/
structure Preserves (cache : OperationCache) (σ : Assignment) (op o : Operation) : Prop where
  visit : visit cache op = some o
  typed : o.InterpretedIn σ
  type : o.type = op.type
  value : o.eval σ = op.eval σ

variable {z : BitVec w} {l r : Operation}

theorem preserves_of_returns {cache : OperationCache} {σ : Assignment} {op : Operation}
    (hop : Denotes σ op z) (h : Returns σ (visit cache op) z) : ∃ o, Preserves cache σ op o := by
  obtain ⟨o, ho, hd⟩ := h
  exact ⟨o, ho, hd.typed, hd.type.trans hop.type.symm, hd.value.trans hop.value.symm⟩

theorem visitBinary_returns {cache : OperationCache} {σ : Assignment} {create : BinaryConstructor}
    {n : Nat} {x y : BitVec w} (hc : Creates σ create n) (hn : l.size + r.size ≤ n + 1)
    (hl : Denotes σ l x) (hr : Denotes σ r y)
    (hdef : Semantics.DivisionDefined (.binary op (.int w)) [.int ⟨w, x⟩, .int ⟨w, y⟩])
    (hz : bitvec op x y = some z) :
    Returns σ (visitBinary cache create op (.int w) l r) z := by
  have hne : (APInt.mk w y).isNullValue = false → y ≠ 0 := fun h => beq_eq_false_iff_ne.mp h
  cases op <;> cases hz
  case add => exact visitAdd_returns hl hr
  case sub => exact visitSub_returns hl hr
  case mul => exact visitMul_returns hl hr
  case udiv => exact visitUDiv_returns hl hr (hne hdef)
  case sdiv =>
    refine visitSDiv_returns hl hr (hne hdef.1) ?_
    rintro ⟨hx, hy⟩
    exact hdef.2 ⟨beq_iff_eq.mpr hx, beq_iff_eq.mpr hy⟩
  case urem => exact visitURem_returns hl hr (hne hdef)
  case srem => exact visitSRem_returns hl hr (hne hdef.1)
  case and => exact visitAnd_returns hc hn hl hr
  case or => exact visitOr_returns hc hn hl hr
  case xor => exact visitXor_returns hl hr
  case shl => exact visitShl_returns hc hn hl hr
  case lshr => exact visitLShr_returns hl hr
  case ashr => exact visitAShr_returns hl hr

section Preserve

variable {cache : OperationCache} {σ : Assignment}

theorem visit_binary_preserves (hop : Denotes σ (.mk (.binary op (.int w)) [l, r]) z)
    (hdef : Semantics.DivisionDefined (.binary op (.int w)) [l.eval σ, r.eval σ]) :
    ∃ o, Preserves cache σ (.mk (.binary op (.int w)) [l, r]) o := by
  obtain ⟨x, y, hl, hr, hz⟩ := hop.binary_inv
  rw [hl.value, hr.value] at hdef
  have hsize : (mk (.binary op (.int w)) [l, r]).size = l.size + r.size + 1 := by simp [size_mk]
  refine preserves_of_returns hop ?_
  simp only [visit, hsize]
  exact visitBinary_returns (create_creates σ cache _) (by omega) hl hr hdef hz

theorem visit_unary_preserves {op : UnaryOpcode} {z : BitVec w'}
    (hop : Denotes σ (.mk (.unary op (.int w')) [a]) z) (ha : a.type = .int w)
    (hint : op ∈ [.not, .trunc, .zext, .sext]) (hcast : ¬ CastsLiteral (.unary op (.int w')) [a]) :
    ∃ o, Preserves cache σ (.mk (.unary op (.int w')) [a]) o := by
  obtain ⟨x, hx, hz⟩ := hop.unary_inv ha
  have hlit : op ∈ [.trunc, .zext, .sext] → ∀ v ∈ constantInt? a, v.width ≠ w' :=
    fun hmem v hv hw => hcast ⟨hmem, v, hv, hw⟩
  obtain ⟨-, hacc, -⟩ := wellTyped_mk.mp hop.typed
  rw [map_singleton, ha] at hacc
  have hsize : (mk (.unary op (.int w')) [a]).size = a.size + 1 := by simp [size_mk]
  refine preserves_of_returns hop ?_
  simp only [visit, hsize]
  simp only [mem_cons, not_mem_nil, or_false] at hint
  rcases hint with rfl | rfl | rfl | rfl
  · obtain rfl : w = w' := by simpa [accepts] using hacc
    cases hz
    exact visitNot_returns hx
  · cases hz
    exact visitTrunc_returns hx (by simpa [accepts] using hacc) (hlit (by simp))
  · cases hz
    exact visitZExt_returns (create_creates σ cache _) (Nat.le_succ _) hx
      (by simpa [accepts] using hacc) (hlit (by simp))
  · cases hz
    exact visitSExt_returns hx (by simpa [accepts] using hacc) (hlit (by simp))

theorem visit_icmp_preserves {cmp : ICmpOpcode} (hop : (mk (.icmp cmp) [l, r]).InterpretedIn σ)
    (hlt : l.type = .int w) (hrt : r.type = .int w) :
    ∃ o, Preserves cache σ (.mk (.icmp cmp) [l, r]) o := by
  obtain ⟨-, -, hops⟩ := wellTyped_mk.mp hop
  obtain ⟨x, hl⟩ := exists_denotes (σ := σ) (hops l (by simp)) hlt
  obtain ⟨y, hr⟩ := exists_denotes (σ := σ) (hops r (by simp)) hrt
  have hval : (mk (.icmp cmp) [l, r]).eval σ =
      .int ⟨1, BitVec.ofBool (Semantics.compare cmp x y)⟩ := by
    rw [eval_mk, map_cons, map_cons, map_nil, hl.value, hr.value]
    simp only [Semantics.apply, Semantics.icmp, APInt.resize_width]
    rfl
  exact preserves_of_returns ⟨hop, rfl, hval⟩ (visitICmp_returns hl hr)

theorem constantInt?_eq_some {o : Operation} (h : constantInt? o = some v) :
    ∃ ops, o = .mk (.constantInt v) ops := by
  obtain ⟨d, ops⟩ := o
  unfold constantInt? at h
  split at h
  · cases h
    rename_i hd
    exact ⟨ops, congrArg (mk · ops) hd⟩
  · cases h

theorem eval_constantInt {o : Operation} (h : constantInt? o = some v) : o.eval σ = .int v := by
  obtain ⟨ops, rfl⟩ := constantInt?_eq_some h
  exact eval_mk σ _ ops

theorem visitSelectOp_returns {c b : Operation} {x : BitVec 1} (hc : c.eval σ = .int ⟨1, x⟩) :
    ∃ o, visitSelectOp cache t c a b = some o ∧
      (o = a ∨ o = b ∨ o = .mk (.select t) [c, a, b]) ∧
      o.eval σ = (mk (.select t) [c, a, b]).eval σ := by
  have hval : (mk (.select t) [c, a, b]).eval σ =
      if (APInt.mk 1 x).eqNat 1 then a.eval σ else b.eval σ := by
    rw [eval_mk, map_cons, hc]
    rfl
  rw [hval]
  cases hcon : constantInt? c with
  | some k =>
    rw [eval_constantInt hcon] at hc
    cases hc
    by_cases hk : (APInt.mk 1 x).eqNat 1 = true
    · exact ⟨a, by simp only [visitSelectOp, hcon, if_pos hk], .inl rfl, (if_pos hk).symm⟩
    · exact ⟨b, by simp only [visitSelectOp, hcon, if_neg hk], .inr (.inl rfl), (if_neg hk).symm⟩
  | none =>
    by_cases hsame : cache.same a b = true
    · refine ⟨a, by simp only [visitSelectOp, hcon, if_pos hsame], .inl rfl, ?_⟩
      rw [cache.eq_of_same _ _ hsame, ite_self]
    · exact ⟨_, by simp only [visitSelectOp, hcon, if_neg hsame], .inr (.inr rfl), hval⟩

theorem visit_select_preserves {c b : Operation}
    (hop : (mk (.select t) [c, a, b]).InterpretedIn σ) :
    ∃ o, Preserves cache σ (.mk (.select t) [c, a, b]) o := by
  obtain ⟨-, hacc, hops⟩ := wellTyped_mk.mp hop
  simp only [map_cons, map_nil, accepts, Bool.and_eq_true, decide_eq_true_eq] at hacc
  obtain ⟨⟨hct, hat⟩, hbt⟩ := hacc
  obtain ⟨v, hc⟩ := exists_denotes (σ := σ) (hops c (by simp)) hct
  obtain ⟨o, ho, hcases, hval⟩ : ∃ o, visitSelectOp cache t c a b = some o ∧ _ :=
    visitSelectOp_returns hc.value
  refine ⟨o, ho, ?_, ?_, hval⟩
  · obtain rfl | rfl | rfl := hcases
    · exact hops o (by simp)
    · exact hops o (by simp)
    · exact hop
  · obtain rfl | rfl | rfl := hcases
    · exact hat
    · exact hbt
    · rfl

end Preserve

theorem exists_preserves {d : OperationData} {ops : List Operation} (hd : d.isIntegerOp = true)
    (hop : (Operation.mk d ops).InterpretedIn σ)
    (hdef : Semantics.DivisionDefined d (ops.map (Operation.eval σ)))
    (hcast : ¬ CastsLiteral d ops) : ∃ o, Preserves cache σ (.mk d ops) o := by
  obtain ⟨hi, hacc, hops⟩ := wellTyped_mk.mp hop
  unfold accepts at hacc
  split at hacc
  case h_8 op w t1 t2 hts =>
    obtain ⟨l, r, rfl⟩ := length_eq_two.mp (by simpa using congrArg List.length hts)
    obtain ⟨z, hz⟩ := exists_denotes (σ := σ) hop rfl
    exact visit_binary_preserves hz hdef
  case h_9 op e m t1 t2 hts =>
    simp only [OperationData.isIntegerOp, decide_eq_true_eq] at hd
    simp [hd] at hacc
  case h_10 cmp w t2 hts =>
    obtain ⟨l, r, rfl⟩ := length_eq_two.mp (by simpa using congrArg List.length hts)
    obtain rfl := of_decide_eq_true hacc
    simp only [map_cons, map_nil, List.cons.injEq, and_true] at hts
    exact visit_icmp_preserves hop hts.1 hts.2
  case h_12 w t1 hts | h_13 w w' hts | h_14 w w' hts | h_15 w w' hts =>
    obtain ⟨a, rfl⟩ := length_eq_one_iff.mp (by simpa using congrArg List.length hts)
    simp only [decide_eq_true_eq] at hacc
    simp only [map_cons, map_nil, List.cons.injEq, and_true, hacc] at hts
    obtain ⟨z, hz⟩ := exists_denotes (σ := σ) hop rfl
    exact visit_unary_preserves hz hts (by simp) hcast
  case h_16 t tc ta tb hts =>
    obtain ⟨c, a, b, rfl⟩ := length_eq_three.mp (by simpa using congrArg List.length hts)
    exact visit_select_preserves hop
  case h_21 => cases hacc
  all_goals cases hd

theorem visit_castsLiteral {d : OperationData} {ops : List Operation} (h : CastsLiteral d ops) :
    visit cache (.mk d ops) = none := by
  unfold CastsLiteral at h
  split at h
  · rename_i op t a
    obtain ⟨hop, v, hv, hw⟩ := h
    simp only [mem_cons, not_mem_nil, or_false] at hop
    have hlit : constantInt? a = some v := hv
    rcases hop with rfl | rfl | rfl <;>
      simp [visit, visitUnary, visitTrunc, visitZExt, visitSExt, hlit, hw]
  · exact h.elim

/-- The folding constructors return a well-typed expression with the SMT-LIB value of the operation,
wherever a division is defined, unless a literal is cast to its own width. -/
theorem visit_preserves_iff (cache : OperationCache) (σ : Assignment) (d : OperationData)
    (ops : List Operation) (hd : d.isIntegerOp = true) (hop : (Operation.mk d ops).InterpretedIn σ)
    (hdef : Semantics.DivisionDefined d (ops.map (Operation.eval σ))) :
    (∃ o, visit cache (.mk d ops) = some o ∧ Operation.create cache d ops = some o ∧
      o.InterpretedIn σ ∧ o.type = d.type ∧
      o.eval σ = Semantics.apply σ d (ops.map (Operation.eval σ))) ↔ ¬ CastsLiteral d ops := by
  constructor
  · rintro ⟨o, ho, -⟩ hcast
    rw [visit_castsLiteral hcast] at ho
    cases ho
  · intro hcast
    obtain ⟨o, ho⟩ := exists_preserves hd hop hdef hcast
    obtain ⟨-, hacc, -⟩ := wellTyped_mk.mp hop
    refine ⟨o, ho.visit, ?_, ho.typed, ho.type, ho.value.trans (eval_mk σ d ops)⟩
    rw [Operation.create, if_pos hacc, ho.visit]

/-- A mask moves through a logical shift: `(and (lshr x 4) 15)` becomes
`(lshr (and x 240) 4)`. -/
theorem visit_preserves_shifted_mask :
    let x := Operation.constant (.int 8) (.numbered 0)
    let byte := fun n : BitVec 8 => Operation.constantInt ⟨8, n⟩
    let shifted := Operation.mk (.binary .lshr (.int 8)) [x, byte 4]
    let masked := Operation.mk (.binary .lshr (.int 8))
      [.mk (.binary .and (.int 8)) [x, byte 240], byte 4]
    visit .full (.mk (.binary .and (.int 8)) [shifted, byte 15]) = some masked ∧
      ∀ σ, masked.eval σ =
        Semantics.apply σ (.binary .and (.int 8)) [shifted.eval σ, (byte 15).eval σ] := by
  intro x byte shifted masked
  have hvis : visit .full (.mk (.binary .and (.int 8)) [shifted, byte 15]) = some masked := by
    decide +kernel
  have hty : (Operation.mk (.binary .and (.int 8)) [shifted, byte 15]).WellTyped
      OperationData.interpreted := by
    decide +kernel
  refine ⟨hvis, fun σ => ?_⟩
  obtain ⟨o, ho, -, -, -, heval⟩ := (visit_preserves_iff .full σ (.binary .and (.int 8))
    [shifted, byte 15] rfl
    (hty.mono (fun _ => OperationData.interpretedIn_of_interpreted σ)) trivial).mpr id
  rw [hvis] at ho
  cases ho
  exact heval

/-- A literal byte that is extended to a byte fails, while a symbol is returned as it is. -/
theorem visit_zext_literal_byte :
    let byte := Operation.constantInt ⟨8, 5⟩
    let x := Operation.constant (.int 8) (.numbered 0)
    (Operation.mk (.unary .zext (.int 8)) [byte]).Interpreted ∧
      visit .full (.mk (.unary .zext (.int 8)) [byte]) = none ∧
      visit .full (.mk (.unary .zext (.int 8)) [x]) = some x ∧
      ∀ σ, (Operation.mk (.unary .zext (.int 8)) [byte]).eval σ = byte.eval σ := by
  refine ⟨by decide, by decide, by decide, fun σ => rfl⟩

end OperationSimplifier

end Caffeine
