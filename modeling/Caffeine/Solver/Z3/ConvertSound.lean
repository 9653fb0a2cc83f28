import Caffeine.Solver.Z3.Convert

/-!
# The meaning of translated expressions

The translation of an expression is a term of a sort its payload determines. In every model of the
constraints added on the way it has the value of the expression, and an assignment of the symbols
extends to such a model.
-/

namespace Caffeine

open List BitVec
open Semantics (apply)

namespace Z3

open SMT Operation Visitor

abbrev Temps := Nat → (w : Nat) → BitVec w → BitVec 8

/-- The model that an assignment of the symbols and values for the temporary constants make. -/
def model (σ : Assignment) (τ : Temps) : Model where
  const name s :=
    match name, s with
    | .str text, .bv w => σ.int (.named text) w
    | .str text, .array w 8 => σ.array (.named text) w
    | .int k, .bv w => σ.int (.numbered k) w
    | .int k, .array w 8 => if k < tmpConstMin then σ.array (.numbered k) w else τ k w
    | _, .bool => false
    | _, .array _ _ => fun _ => 0

def bits (M : Model) (w : Nat) : Expr → BitVec w
  | ⟨.bool, t⟩ => (BitVec.ofBool (t.eval M)).setWidth w
  | ⟨.bv _, t⟩ => (t.eval M).setWidth w
  | _ => 0

def bytes (M : Model) (w : Nat) : Expr → BitVec w → BitVec 8
  | ⟨.array i _, t⟩, j => (t.eval M (j.setWidth i)).setWidth 8
  | _, _ => 0

@[simp] theorem bits_bv (M : Model) {w : Nat} (t : Term (.bv w)) : bits M w ⟨.bv w, t⟩ = t.eval M :=
  setWidth_eq _

@[simp] theorem bits_bool (M : Model) (t : Term .bool) :
    bits M 1 ⟨.bool, t⟩ = BitVec.ofBool (t.eval M) := setWidth_eq _

@[simp] theorem bytes_array (M : Model) {w : Nat} (t : Term (.array w 8)) :
    bytes M w ⟨.array w 8, t⟩ = t.eval M := by
  funext j
  simp only [bytes, setWidth_eq]

def Scalar (w : Nat) (e : Expr) : Prop := e.1 = .bv w ∨ e.1 = .bool ∧ w = 1

section Normalize

variable {w : Nat} {e : Expr}

theorem normalizeToBv_scalar (h : Scalar w e) :
    ∃ t : Term (.bv w), normalizeToBv e = ⟨.bv w, t⟩ ∧ ∀ M, t.eval M = bits M w e := by
  obtain ⟨s, t⟩ := e
  obtain rfl | ⟨rfl, rfl⟩ := h
  · exact ⟨t, rfl, fun M => (bits_bv M t).symm⟩
  · refine ⟨.ite t (.bvVal 1) (.bvVal 0), rfl, fun M => ?_⟩
    rw [bits_bool]
    rw [Term.eval_ite]
    cases t.eval M <;> rfl

theorem normalizeToBool_one (h : Scalar 1 e) :
    ∃ t : Term .bool, normalizeToBool e = ⟨.bool, t⟩ ∧
      ∀ M, BitVec.ofBool (t.eval M) = bits M 1 e := by
  obtain ⟨s, t⟩ := e
  obtain rfl | ⟨rfl, -⟩ := h
  · refine ⟨.pred .eq t (.bvVal 1), rfl, fun M => ?_⟩
    rw [bits_bv]
    obtain h | h := eq_zero_or_eq_one (t.eval M) <;> simp [Term.eval, Pred.eval, h]
  · exact ⟨t, rfl, fun M => (bits_bool M t).symm⟩

theorem normalizeToBool_wide (h : Scalar w e) (hw : w ≠ 1) :
    ∃ t : Term (.bv w), normalizeToBool e = ⟨.bv w, t⟩ ∧ ∀ M, t.eval M = bits M w e := by
  obtain ⟨s, t⟩ := e
  obtain rfl | ⟨-, rfl⟩ := h
  · refine ⟨t, ?_, fun M => (bits_bv M t).symm⟩
    unfold normalizeToBool
    split
    · rename_i heq
      cases heq
      exact absurd rfl hw
    · rfl
  · exact absurd rfl hw

theorem exists_array (h : e.1 = .array w 8) :
    ∃ t : Term (.array w 8), e = ⟨.array w 8, t⟩ ∧ normalizeToBv e = e ∧
      ∀ M, bytes M w e = t.eval M := by
  obtain ⟨s, t⟩ := e
  obtain rfl := h
  exact ⟨t, rfl, rfl, fun M => bytes_array M t⟩

theorem bv_of_scalar (h : Scalar w e) (hbool : e.1 ≠ .bool) :
    ∃ t : Term (.bv w), e = ⟨.bv w, t⟩ ∧ ∀ M, t.eval M = bits M w e := by
  obtain ⟨s, t⟩ := e
  obtain rfl | ⟨hs, -⟩ := h
  · exact ⟨t, rfl, fun M => (bits_bv M t).symm⟩
  · exact absurd hs hbool

end Normalize

def isBoolTerm : OperationData → Bool
  | .icmp _ => true
  | .binary .and (.int 1) => true
  | .binary .or (.int 1) => true
  | .unary .not (.int 1) => true
  | _ => false

def sortOf (d : OperationData) : Srt :=
  if isBoolTerm d then .bool
  else
    match d.type with
    | .array w => .array w 8
    | t => .bv t.bitwidth

variable {d : OperationData} {w : Nat}

theorem sortOf_of_array (h : d.type = .array w) : sortOf d = .array w 8 := by
  have hbool : isBoolTerm d = false := by
    unfold isBoolTerm
    split <;> first | rfl | cases h
  simp [sortOf, hbool, h]

variable {e : Expr}

theorem scalar_of_sortOf (h : d.type = .int w) (he : e.1 = sortOf d) : Scalar w e := by
  rw [sortOf] at he
  split_ifs at he with hbool
  · refine .inr ⟨he, ?_⟩
    unfold isBoolTerm at hbool
    split at hbool <;> first | (cases hbool; done) | (cases h; rfl)
  · rw [h] at he
    exact .inl he

/-- The term has the value of the operation; arrays agree within their size. -/
def Faithful (σ : Assignment) (M : Model) (o : Operation) (e : Expr) : Prop :=
  match o.type with
  | .int w => o.eval σ = .int ⟨w, bits M w e⟩
  | .array w => ∃ f, o.eval σ = .array w f ∧
    ∀ i : BitVec w, i.toNat < o.arraySize σ → bytes M w e i = f i
  | _ => False

variable {o : Operation}

theorem faithful_int {σ : Assignment} {M : Model} (h : o.type = .int w) :
    Faithful σ M o e ↔ o.eval σ = .int ⟨w, bits M w e⟩ := by
  simp only [Faithful, h]

theorem faithful_array {σ : Assignment} {M : Model} (h : o.type = .array w) :
    Faithful σ M o e ↔ ∃ f, o.eval σ = .array w f ∧
      ∀ i : BitVec w, i.toNat < o.arraySize σ → bytes M w e i = f i := by
  simp only [Faithful, h]

def visitedFrom (d : OperationData) : Nat → List Operation → List Operation
  | _, [] => []
  | i, o :: ops => if skips d i then visitedFrom d (i + 1) ops else o :: visitedFrom d (i + 1) ops

/-- The index of an access is a bitvector: `visitLoad` and `visitStore` do not convert it. -/
def indexed : OperationData → List Operation → Bool
  | .load, [_, index] => !isBoolTerm index.data
  | .store _, [_, index, _] => !isBoolTerm index.data
  | _, _ => true

def InBounds (σ : Assignment) : OperationData → List Operation → Prop
  | .load, [array, index] => ∀ w, ∀ x : BitVec w, index.eval σ = .int ⟨w, x⟩ →
    x.toNat < array.arraySize σ
  | _, _ => True

def SRemAgrees (σ : Assignment) : OperationData → List Operation → Prop
  | .binary .srem _, [lhs, rhs] => ∀ w, ∀ x y : BitVec w, lhs.eval σ = .int ⟨w, x⟩ →
    rhs.eval σ = .int ⟨w, y⟩ → x.smod y = x.srem y
  | _, _ => True

def Combines (d : OperationData) (ops visited : List Operation) (es : List Expr) : Prop :=
  ∃ e, combine d es = some e ∧ e.1 = sortOf d ∧
    ∀ σ M, InBounds σ d ops → SRemAgrees σ d ops → Forall₂ (Faithful σ M) visited es →
      Faithful σ M (.mk d ops) e

section Combine

variable {w : Nat} {l r : Operation} {el er : Expr}

variable {op : BinaryOpcode}

theorem bitvec_eq_eval {b : BinOp} {x y : BitVec w} (h : binOp op = some b)
    (hs : op = .srem → x.smod y = x.srem y) : Semantics.bitvec op x y = some (b.eval x y) := by
  cases op <;> cases h <;> first | rfl | exact congrArg some (hs rfl).symm

theorem eval_binary {σ : Assignment} {x y z : BitVec w} (hl : l.eval σ = .int ⟨w, x⟩)
    (hr : r.eval σ = .int ⟨w, y⟩) (hz : Semantics.bitvec op x y = some z) :
    (Operation.mk (.binary op (.int w)) [l, r]).eval σ = .int ⟨w, z⟩ := by
  simp [eval_mk, apply, Semantics.binary, hl, hr, hz]

theorem sortOf_binary {b : BinOp} (h : binOp op = some b) (w : Nat) :
    sortOf (.binary op (.int w)) = .bv w := by
  cases op <;> cases h <;> rfl

theorem combine_binary {b : BinOp} (hb : binOp op = some b) (hl : l.type = .int w)
    (hr : r.type = .int w) (hel : el.1 = sortOf l.data) (her : er.1 = sortOf r.data) :
    Combines (.binary op (.int w)) [l, r] [l, r] [el, er] := by
  obtain ⟨tl, htl, hvl⟩ := normalizeToBv_scalar (scalar_of_sortOf hl hel)
  obtain ⟨tr, htr, hvr⟩ := normalizeToBv_scalar (scalar_of_sortOf hr her)
  refine ⟨⟨.bv w, .binary b tl tr⟩, ?_, (sortOf_binary hb w).symm, fun σ M _ hs hf => ?_⟩
  · have hop : visitBinary op el er = (normalizeToBv el).binary b (normalizeToBv er) := by
      cases op <;> cases hb <;> rfl
    simp [hop, htl, htr, Expr.binary]
  · obtain ⟨hfl, hfr⟩ : Faithful σ M l el ∧ Faithful σ M r er := by simpa using hf
    rw [faithful_int hl] at hfl
    rw [faithful_int hr] at hfr
    rw [faithful_int (w := w) rfl, bits_bv]
    refine eval_binary hfl hfr ?_
    simp only [Term.eval_binary, hvl, hvr]
    refine bitvec_eq_eval hb ?_
    rintro rfl
    exact hs w _ _ hfl hfr

theorem combine_logical {join : Expr → Expr → Option Expr} {b : BinOp}
    {term : Term .bool → Term .bool → Term .bool} (hvis : ∀ lhs rhs, visitBinary op lhs rhs =
      if (normalizeToBool lhs).isBool then join (normalizeToBool lhs) (normalizeToBool rhs)
      else (normalizeToBool lhs).binary b (normalizeToBool rhs))
    (hjoin : ∀ s t, join ⟨.bool, s⟩ ⟨.bool, t⟩ = some ⟨.bool, term s t⟩)
    (hterm : ∀ M s t, BitVec.ofBool ((term s t).eval M) =
      b.eval (BitVec.ofBool (s.eval M)) (BitVec.ofBool (t.eval M)))
    (hb : ∀ {w} (x y : BitVec w), Semantics.bitvec op x y = some (b.eval x y))
    (hone : isBoolTerm (.binary op (.int 1)) = true)
    (hwide : ∀ w, w ≠ 1 → isBoolTerm (.binary op (.int w)) = false)
    (hl : l.type = .int w) (hr : r.type = .int w) (hel : el.1 = sortOf l.data)
    (her : er.1 = sortOf r.data) :
    Combines (.binary op (.int w)) [l, r] [l, r] [el, er] := by
  have hval : ∀ {σ M} {e : Expr}, bits M w e = b.eval (bits M w el) (bits M w er) →
      Forall₂ (Faithful σ M) [l, r] [el, er] →
      Faithful σ M (.mk (.binary op (.int w)) [l, r]) e := by
    intro σ M e he hf
    obtain ⟨hfl, hfr⟩ : Faithful σ M l el ∧ Faithful σ M r er := by simpa using hf
    rw [faithful_int hl] at hfl
    rw [faithful_int hr] at hfr
    rw [faithful_int (w := w) rfl, he]
    exact eval_binary hfl hfr (hb _ _)
  by_cases hw : w = 1
  · subst hw
    obtain ⟨tl, htl, hvl⟩ := normalizeToBool_one (scalar_of_sortOf hl hel)
    obtain ⟨tr, htr, hvr⟩ := normalizeToBool_one (scalar_of_sortOf hr her)
    refine ⟨⟨.bool, term tl tr⟩, ?_, by simp [sortOf, hone], fun σ M _ _ hf => hval ?_ hf⟩
    · simp [hvis, htl, htr, Expr.isBool, hjoin]
    · rw [bits_bool, hterm, hvl, hvr]
  · obtain ⟨tl, htl, hvl⟩ := normalizeToBool_wide (scalar_of_sortOf hl hel) hw
    obtain ⟨tr, htr, hvr⟩ := normalizeToBool_wide (scalar_of_sortOf hr her) hw
    refine ⟨⟨.bv w, .binary b tl tr⟩, ?_, by simp [sortOf, hwide w hw, OperationData.type,
      Ty.bitwidth],
      fun σ M _ _ hf => hval ?_ hf⟩
    · simp [hvis, htl, htr, Expr.isBool, Expr.binary]
    · simp only [bits_bv, Term.eval_binary, hvl, hvr]

theorem isBoolTerm_wide (hw : w ≠ 1) : isBoolTerm (.binary op (.int w)) = false := by
  unfold isBoolTerm
  split <;> simp_all

theorem combine_and (hl : l.type = .int w) (hr : r.type = .int w) (hel : el.1 = sortOf l.data)
    (her : er.1 = sortOf r.data) : Combines (.binary .and (.int w)) [l, r] [l, r] [el, er] :=
  combine_logical (fun _ _ => rfl) (fun _ _ => rfl)
    (fun _ _ _ => ofBool_and_ofBool.symm) (fun _ _ => rfl) rfl (fun _ => isBoolTerm_wide)
    hl hr hel her

theorem combine_or (hl : l.type = .int w) (hr : r.type = .int w) (hel : el.1 = sortOf l.data)
    (her : er.1 = sortOf r.data) : Combines (.binary .or (.int w)) [l, r] [l, r] [el, er] :=
  combine_logical (fun _ _ => rfl) (fun _ _ => rfl)
    (fun _ _ _ => ofBool_or_ofBool.symm) (fun _ _ => rfl) rfl (fun _ => isBoolTerm_wide)
    hl hr hel her

theorem comparison_eval (cmp : ICmpOpcode) (x y : BitVec w) :
    (comparison cmp).eval x y = Semantics.compare cmp x y := by
  cases cmp <;> rfl

theorem combine_icmp (cmp : ICmpOpcode) (hl : l.type = .int w) (hr : r.type = .int w)
    (hel : el.1 = sortOf l.data) (her : er.1 = sortOf r.data) :
    Combines (.icmp cmp) [l, r] [l, r] [el, er] := by
  obtain ⟨tl, htl, hvl⟩ := normalizeToBv_scalar (scalar_of_sortOf hl hel)
  obtain ⟨tr, htr, hvr⟩ := normalizeToBv_scalar (scalar_of_sortOf hr her)
  refine ⟨⟨.bool, .pred (comparison cmp) tl tr⟩, ?_, rfl, fun σ M _ _ hf => ?_⟩
  · simp [visitICmp, htl, htr, Expr.pred]
  · obtain ⟨hfl, hfr⟩ : Faithful σ M l el ∧ Faithful σ M r er := by simpa using hf
    rw [faithful_int hl] at hfl
    rw [faithful_int hr] at hfr
    rw [faithful_int (w := 1) rfl, bits_bool, eval_mk]
    simp [apply, Semantics.icmp, hfl, hfr, comparison_eval, hvl, hvr, APInt.ofBool]

variable {o : Operation} {e : Expr}

theorem combine_not (ho : o.type = .int w) (he : e.1 = sortOf o.data) :
    Combines (.unary .not (.int w)) [o] [o] [e] := by
  have hval : ∀ {σ M} {e' : Expr}, bits M w e' = ~~~bits M w e →
      Forall₂ (Faithful σ M) [o] [e] → Faithful σ M (.mk (.unary .not (.int w)) [o]) e' := by
    intro σ M e' he' hf
    have hfo : Faithful σ M o e := by simpa using hf
    rw [faithful_int ho] at hfo
    rw [faithful_int (w := w) rfl, he', eval_mk]
    simp [apply, Semantics.unary, hfo, APInt.not, APInt.map]
  by_cases hw : w = 1
  · subst hw
    obtain ⟨t, ht, hv⟩ := normalizeToBool_one (scalar_of_sortOf ho he)
    refine ⟨⟨.bool, .not t⟩, ?_, rfl, fun σ M _ _ hf => hval ?_ hf⟩
    · simp [visitUnary, visitNot, ht, Expr.isBool, Expr.not]
    · rw [bits_bool, ← hv]
      rw [Term.eval_not]
      cases t.eval M <;> rfl
  · obtain ⟨t, ht, hv⟩ := normalizeToBool_wide (scalar_of_sortOf ho he) hw
    refine ⟨⟨.bv w, .bvnot t⟩, ?_, ?_, fun σ M _ _ hf => hval ?_ hf⟩
    · simp [visitUnary, visitNot, ht, Expr.isBool, Expr.bvnot]
    · have hbool : isBoolTerm (.unary .not (.int w)) = false := by
        unfold isBoolTerm
        split <;> simp_all
      simp [sortOf, hbool, OperationData.type, Ty.bitwidth]
    · simp only [bits_bv, Term.eval_bvnot, hv]

variable {w' : Nat}

theorem combine_resize {op : UnaryOpcode} {n : Nat} (ho : o.type = .int w')
    (he : e.1 = sortOf o.data) (hn : n = w) (term : Term (.bv w') → Term (.bv n))
    (hvis : ∀ t : Term (.bv w'), normalizeToBv e = ⟨.bv w', t⟩ →
      visitUnary op (.int w) e = some ⟨.bv n, term t⟩)
    (hsort : isBoolTerm (.unary op (.int w)) = false)
    (hval : ∀ M t, Semantics.unary op (.int w) ⟨w', t.eval M⟩ = .int ⟨n, (term t).eval M⟩) :
    Combines (.unary op (.int w)) [o] [o] [e] := by
  subst hn
  obtain ⟨t, ht, hv⟩ := normalizeToBv_scalar (scalar_of_sortOf ho he)
  refine ⟨⟨.bv n, term t⟩, hvis t ht, ?_, fun σ M _ _ hf => ?_⟩
  · simp [sortOf, hsort, OperationData.type, Ty.bitwidth]
  · have hfo : Faithful σ M o e := by simpa using hf
    rw [faithful_int ho, ← hv] at hfo
    rw [faithful_int (w := n) rfl, bits_bv, eval_mk]
    simp [apply, hfo, hval]

theorem combine_trunc (ho : o.type = .int w') (hle : w ≤ w') (hpos : 0 < w)
    (he : e.1 = sortOf o.data) : Combines (.unary .trunc (.int w)) [o] [o] [e] := by
  have hw : w - 1 - 0 + 1 = w := by omega
  refine combine_resize ho he hw (.extract (w - 1) 0) (fun t ht => ?_) rfl fun M t => ?_
  · have hlt : w - 1 < w' := by omega
    simp [visitUnary, visitTrunc, ht, Expr.extract, Ty.bitwidth, hlt]
  · have hextract : (t.eval M).extractLsb (w - 1) 0 = (t.eval M).setWidth (w - 1 - 0 + 1) :=
      eq_of_toNat_eq (by simp)
    simp only [Semantics.unary, APInt.trunc, Ty.bitwidth, Term.eval_extract, hextract]
    exact congrArg (fun n => Val.int ⟨n, (t.eval M).setWidth n⟩) hw.symm

theorem combine_zext (ho : o.type = .int w') (hle : w' ≤ w) (he : e.1 = sortOf o.data) :
    Combines (.unary .zext (.int w)) [o] [o] [e] := by
  have hw : w' + (w - w') = w := by omega
  refine combine_resize ho he hw (.zeroExtend (w - w')) (fun t ht => ?_) rfl fun M t => ?_
  · simp [visitUnary, visitZExt, ht, Expr.zeroExtend, Expr.bvSize?, Ty.bitwidth]
  · exact congrArg (fun n => Val.int ⟨n, (t.eval M).setWidth n⟩) hw.symm

theorem combine_sext (ho : o.type = .int w') (hle : w' ≤ w) (he : e.1 = sortOf o.data) :
    Combines (.unary .sext (.int w)) [o] [o] [e] := by
  have hw : w' + (w - w') = w := by omega
  refine combine_resize ho he hw (.signExtend (w - w')) (fun t ht => ?_) rfl fun M t => ?_
  · simp [visitUnary, visitSExt, ht, Expr.signExtend, Expr.bvSize?, Ty.bitwidth]
  · exact congrArg (fun n => Val.int ⟨n, (t.eval M).signExtend n⟩) hw.symm

theorem combine_literal (v : APInt) : Combines (.constantInt v) [] [] [] := by
  refine ⟨.bvVal v.val, rfl, rfl, fun σ M _ _ _ => ?_⟩
  rw [faithful_int (w := v.width) rfl]
  simp [eval_mk, apply, Expr.bvVal]

variable {c a b i v : Operation} {ec ea eb ei ev : Expr}

theorem exists_bv (ho : o.type = .int w) (he : e.1 = sortOf o.data)
    (hbool : isBoolTerm o.data = false) :
    ∃ t : Term (.bv w), e = ⟨.bv w, t⟩ ∧ ∀ M, t.eval M = bits M w e := by
  refine bv_of_scalar (scalar_of_sortOf ho he) ?_
  rw [he, sortOf, hbool]
  simp only [Bool.false_eq_true, if_false, ne_eq]
  split <;> exact fun h => nomatch h

theorem isBoolTerm_byte (ho : o.type = .int 8) : isBoolTerm o.data = false := by
  rw [Operation.type] at ho
  unfold isBoolTerm
  split <;> first | rfl | simp_all [OperationData.type, Ty.bool]

theorem combine_alloc {s : Operation} (hs : ∀ σ, ∃ n, s.eval σ = .int n) (hv : v.type = .int 8)
    (hev : ev.1 = sortOf v.data) : Combines (.alloc w) [s, v] [v] [ev] := by
  obtain ⟨t, rfl, ht⟩ := exists_bv hv hev (isBoolTerm_byte hv)
  refine ⟨⟨.array w 8, .constArray w t⟩, rfl, rfl, fun σ M _ _ hf => ?_⟩
  have hfv : Faithful σ M v ⟨.bv 8, t⟩ := by simpa using hf
  rw [faithful_int hv, bits_bv] at hfv
  obtain ⟨n, hn⟩ := hs σ
  rw [faithful_array (w := w) rfl, eval_mk]
  refine ⟨fun _ => t.eval M, ?_, fun j _ => by simp [Term.eval]⟩
  simp [apply, hn, hfv, Semantics.byte]

theorem combine_load (ha : a.type = .array w) (hi : i.type = .int w) (hea : ea.1 = sortOf a.data)
    (hei : ei.1 = sortOf i.data) (hbool : isBoolTerm i.data = false) :
    Combines .load [a, i] [a, i] [ea, ei] := by
  obtain ⟨ti, rfl, hti⟩ := exists_bv hi hei hbool
  obtain ⟨ta, rfl, -, hta⟩ := exists_array (hea.trans (sortOf_of_array ha))
  refine ⟨⟨.bv 8, .select ta ti⟩, by simp [Expr.select], rfl, fun σ M hb _ hf => ?_⟩
  obtain ⟨hfa, hfi⟩ : Faithful σ M a ⟨.array w 8, ta⟩ ∧ Faithful σ M i ⟨.bv w, ti⟩ := by
    simpa using hf
  rw [faithful_int hi, bits_bv] at hfi
  rw [faithful_array ha, bytes_array] at hfa
  obtain ⟨f, hf, hagr⟩ := hfa
  rw [faithful_int (w := 8) rfl, bits_bv, eval_mk]
  simp [apply, hf, hfi, hagr _ (hb w _ hfi)]

theorem combine_store (ha : a.type = .array w) (hi : i.type = .int w) (hv : v.type = .int 8)
    (hea : ea.1 = sortOf a.data) (hei : ei.1 = sortOf i.data) (hev : ev.1 = sortOf v.data)
    (hbool : isBoolTerm i.data = false) :
    Combines (.store (.array w)) [a, i, v] [a, i, v] [ea, ei, ev] := by
  obtain ⟨ti, rfl, hti⟩ := exists_bv hi hei hbool
  obtain ⟨tv, rfl, htv⟩ := exists_bv hv hev (isBoolTerm_byte hv)
  obtain ⟨ta, rfl, -, hta⟩ := exists_array (hea.trans (sortOf_of_array ha))
  refine ⟨⟨.array w 8, .store ta ti tv⟩, by simp [Expr.store], rfl, fun σ M _ _ hf => ?_⟩
  obtain ⟨hfa, hfi, hfv⟩ : Faithful σ M a ⟨.array w 8, ta⟩ ∧ Faithful σ M i ⟨.bv w, ti⟩ ∧
      Faithful σ M v ⟨.bv 8, tv⟩ := by simpa using hf
  rw [faithful_int hi, bits_bv] at hfi
  rw [faithful_int hv, bits_bv] at hfv
  rw [faithful_array ha, bytes_array] at hfa
  obtain ⟨f, hf, hagr⟩ := hfa
  rw [faithful_array (w := w) rfl, eval_mk]
  refine ⟨Function.update f (ti.eval M) (tv.eval M), ?_, fun j hj => ?_⟩
  · simp [apply, hf, hfi, hfv, Semantics.byte]
  · rw [Operation.arraySize] at hj
    rw [bytes_array]
    simp only [Term.eval_store, Function.update_apply]
    split
    · rfl
    · exact hagr j hj

theorem select_bool (hei : ei.1 = sortOf i.data) (hbool : isBoolTerm i.data = true) :
    (∀ array : Expr, array.select ei = none) ∧ ∀ array value : Expr, array.store ei value =
      none := by
  obtain ⟨s, t⟩ := ei
  obtain rfl : s = .bool := by simpa [sortOf, hbool] using hei
  refine ⟨?_, ?_⟩ <;> rintro ⟨_ | _ | _, _⟩ <;> intros <;> rfl

theorem eval_select {σ : Assignment} {t : Ty} {cond : Bool}
    (hc : c.eval σ = .int ⟨1, BitVec.ofBool cond⟩) :
    (Operation.mk (.select t) [c, a, b]).eval σ = (bif cond then a else b).eval σ ∧
      (Operation.mk (.select t) [c, a, b]).arraySize σ = (bif cond then a else b).arraySize σ := by
  rw [eval_mk]
  cases cond <;>
    simp [Operation.arraySize, apply, hc, Val.toInt?, APInt.eqNat]

theorem combine_select {t : Ty} (hc : c.type = .bool) (ha : a.type = t) (hb : b.type = t)
    (hec : ec.1 = sortOf c.data) (hea : ea.1 = sortOf a.data) (heb : eb.1 = sortOf b.data)
    (ht : (∃ w, t = .int w) ∨ ∃ w, t = .array w) :
    Combines (.select t) [c, a, b] [c, a, b] [ec, ea, eb] := by
  obtain ⟨tc, htc, hvc⟩ := normalizeToBool_one (scalar_of_sortOf hc hec)
  obtain ⟨w, rfl⟩ | ⟨w, rfl⟩ := ht
  · obtain ⟨ta, hta, hva⟩ := normalizeToBv_scalar (scalar_of_sortOf ha hea)
    obtain ⟨tb, htb, hvb⟩ := normalizeToBv_scalar (scalar_of_sortOf hb heb)
    refine ⟨⟨.bv w, .ite tc ta tb⟩, ?_, rfl, fun σ M _ _ hf => ?_⟩
    · simp [visitSelect, htc, hta, htb, Expr.ite]
    obtain ⟨hfc, hfa, hfb⟩ : Faithful σ M c ec ∧ Faithful σ M a ea ∧ Faithful σ M b eb := by
      simpa using hf
    rw [faithful_int hc, ← hvc] at hfc
    rw [faithful_int ha, ← hva] at hfa
    rw [faithful_int hb, ← hvb] at hfb
    rw [faithful_int (w := w) rfl, bits_bv, (eval_select hfc).1]
    rw [Term.eval_ite]
    cases tc.eval M
    · exact hfb
    · exact hfa
  · obtain ⟨ta, rfl, -, hva⟩ := exists_array (hea.trans (sortOf_of_array ha))
    obtain ⟨tb, rfl, -, hvb⟩ := exists_array (heb.trans (sortOf_of_array hb))
    refine ⟨⟨.array w 8, .ite tc ta tb⟩, ?_, rfl, fun σ M _ _ hf => ?_⟩
    · simp [visitSelect, htc, normalizeToBv, Expr.ite]
    obtain ⟨hfc, hfa, hfb⟩ : Faithful σ M c ec ∧ Faithful σ M a ⟨.array w 8, ta⟩ ∧
        Faithful σ M b ⟨.array w 8, tb⟩ := by simpa using hf
    rw [faithful_int hc, ← hvc] at hfc
    rw [faithful_array ha, bytes_array] at hfa
    rw [faithful_array hb, bytes_array] at hfb
    rw [faithful_array (w := w) rfl, bytes_array, (eval_select hfc).1, (eval_select hfc).2]
    rw [Term.eval_ite]
    cases tc.eval M
    · exact hfb
    · exact hfa

end Combine

theorem combine_spec {ops : List Operation} {es : List Expr}
    (hty : (Operation.mk d ops).Interpreted) (hpos : 0 < d.type.bitwidth)
    (hconst : ∀ t s, d ≠ .constant t s) (hfix : ∀ w, d ≠ .fixedArray w)
    (hsorts : Forall₂ (fun o e => e.1 = sortOf o.data) (visitedFrom d 0 ops) es) :
    if indexed d ops then Combines d ops (visitedFrom d 0 ops) es else combine d es = none := by
  obtain ⟨hshape, hbv⟩ := hty.shape
  obtain ⟨-, -, hops⟩ := wellTyped_mk.mp hty
  cases hshape with
  | symbol w s => exact absurd rfl (hconst _ _)
  | arraySymbol s h => exact absurd rfl (hconst _ _)
  | fixedArray w h => exact absurd rfl (hfix _)
  | floatLiteral | functionObject | node | undef | floatBinary | fcmp => exact hbv.elim
  | literal v =>
    cases hsorts
    exact combine_literal v
  | @binary op w l r hl hr hop =>
    rcases hsorts with _ | ⟨hel, _ | ⟨her, _ | _⟩⟩
    cases op with
    | and => exact combine_and hl hr hel her
    | or => exact combine_or hl hr hel her
    | fadd | fsub | fmul | fdiv | frem => simp at hop
    | _ => exact combine_binary rfl hl hr hel her
  | icmp cmp hl hr =>
    rcases hsorts with _ | ⟨hel, _ | ⟨her, _ | _⟩⟩
    exact combine_icmp cmp hl hr hel her
  | not h =>
    rcases hsorts with _ | ⟨he, _ | _⟩
    exact combine_not h he
  | trunc h hle =>
    rcases hsorts with _ | ⟨he, _ | _⟩
    exact combine_trunc h hle hpos he
  | zext h hle =>
    rcases hsorts with _ | ⟨he, _ | _⟩
    exact combine_zext h hle he
  | sext h hle =>
    rcases hsorts with _ | ⟨he, _ | _⟩
    exact combine_sext h hle he
  | @select t c a b hc ha hb =>
    rcases hsorts with _ | ⟨hec, _ | ⟨hea, _ | ⟨heb, _ | _⟩⟩⟩
    refine combine_select hc ha hb hec hea heb ?_
    exact ha ▸ (hops a (by simp)).type_int_or_array
  | @alloc w size value hs hv =>
    rcases hsorts with _ | ⟨hev, _ | _⟩
    refine combine_alloc (fun σ => ?_) hv hev
    obtain ⟨n, hn⟩ := (hops size (by simp)).eval_int hs σ
    exact ⟨_, hn⟩
  | @store w a i v ha hi hv =>
    rcases hsorts with _ | ⟨hea, _ | ⟨hei, _ | ⟨hev, _ | _⟩⟩⟩
    cases hbool : isBoolTerm i.data with
    | false =>
      rw [if_pos (by simp [indexed, hbool])]
      exact combine_store ha hi hv hea hei hev hbool
    | true =>
      rw [if_neg (by simp [indexed, hbool])]
      exact (select_bool hei hbool).2 _ _
  | @load w a i ha hi =>
    rcases hsorts with _ | ⟨hea, _ | ⟨hei, _ | _⟩⟩
    cases hbool : isBoolTerm i.data with
    | false =>
      rw [if_pos (by simp [indexed, hbool])]
      exact combine_load ha hi hea hei hbool
    | true =>
      rw [if_neg (by simp [indexed, hbool])]
      exact (select_bool hei hbool).1 _

/-! ### Runs of the visitor -/

abbrev AllVisited (P : NodeCondition) : Operation → Prop :=
  Operation.AllReached (fun d ops => visitedFrom d 0 ops) P

/-- What the constructors assert besides: positive widths, arrays no longer than their indices, one
type for a symbol, and no numbers of temporary constants. -/
structure Admissible (Γ : Symbol → Ty) (d : OperationData) (ops : List Operation) : Prop where
  positive : 0 < d.type.bitwidth
  fits : ∀ w, d = .fixedArray w → ops.length ≤ 2 ^ w
  type : ∀ t s, d = .constant t s → Γ s = t
  number : ∀ t k, d = .constant t (.numbered k) → k < tmpConstMin

def Satisfies (M : Model) (constraints : List (Term .bool)) : Prop :=
  ∀ c ∈ constraints, c.eval M = true

/-- The sort of a translated operation, its array accesses, and its value under the constraints. -/
structure Known (constraints : List (Term .bool)) (o : Operation) (e : Expr) : Prop where
  sort : e.1 = sortOf o.data
  indexed : AllVisited (fun d ops => indexed d ops = true) o
  faithful : ∀ σ τ, AllVisited (InBounds σ) o → AllVisited (SRemAgrees σ) o →
    Satisfies (model σ τ) constraints → Faithful σ (model σ τ) o e

theorem Known.mono {constraints constraints' : List (Term .bool)} (h : Known constraints o e)
    (hsub : constraints ⊆ constraints') : Known constraints' o e :=
  ⟨h.sort, h.indexed, fun σ τ hin hrem hsat => h.faithful σ τ hin hrem fun c hc => hsat c (hsub hc)⟩

def symbolTerm (Γ : Symbol → Ty) (s : Symbol) (e : Expr) : Prop :=
  ∃ name sort, symbolName s = some name ∧ typeToSort (Γ s) = some sort ∧ e = .constant name sort

namespace Visitor

structure Inv (Γ : Symbol → Ty) (v : Visitor) : Prop where
  reserved : tmpConstMin ≤ v.tmpConstNum
  constMap : ∀ s e, v.constMap.lookup s = some e → symbolTerm Γ s e
  cache : ∀ entry ∈ v.cache, Known v.constraints entry.1 entry.2

def Satisfied (σ : Assignment) (τ : Temps) (v : Visitor) : Prop :=
  ∀ τ', (∀ k < v.tmpConstNum, τ' k = τ k) → Satisfies (model σ τ') v.constraints

/-- A visit only adds constraints and temporary constants with values. -/
structure Extends (P : Assignment → Temps → Prop) (v v' : Visitor) : Prop where
  constraints : v.constraints ⊆ v'.constraints
  tmpConstNum : v.tmpConstNum ≤ v'.tmpConstNum
  satisfied : ∀ σ τ, P σ τ → Satisfied σ τ v →
    ∃ τ', (∀ k < v.tmpConstNum, τ' k = τ k) ∧ Satisfied σ τ' v'

variable {v v' : Visitor} {constraints : List (Term .bool)}

theorem satisfied_congr {σ : Assignment} {τ : Temps}
    (hconstraints : v'.constraints = v.constraints) (htmp : v'.tmpConstNum = v.tmpConstNum) :
    Satisfied σ τ v' ↔ Satisfied σ τ v := by
  simp only [Satisfied, hconstraints, htmp]

theorem Extends.refl (P : Assignment → Temps → Prop) (v : Visitor) : Extends P v v :=
  ⟨fun _ h => h, Nat.le_refl _, fun _ τ _ h => ⟨τ, fun _ _ => rfl, h⟩⟩

theorem Extends.congr {P Q : Assignment → Temps → Prop} {u u' v : Visitor} (h : Extends P u v)
    (hu : u'.constraints = u.constraints) (hu' : u'.tmpConstNum = u.tmpConstNum)
    (hv : v'.constraints = v.constraints) (hv' : v'.tmpConstNum = v.tmpConstNum)
    (hQ : ∀ σ τ, Q σ τ → P σ τ) : Extends Q u' v' := by
  refine ⟨?_, ?_, fun σ τ hq hsat => ?_⟩
  · rw [hu, hv]
    exact h.constraints
  · rw [hu', hv']
    exact h.tmpConstNum
  · obtain ⟨τ', hagr, hsat'⟩ :=
      h.satisfied σ τ (hQ σ τ hq) ((satisfied_congr hu hu').mp hsat)
    exact ⟨τ', hu' ▸ hagr, (satisfied_congr hv hv').mpr hsat'⟩

theorem Extends.trans {P Q : Assignment → Temps → Prop} {v v'' : Visitor} (h : Extends P v v')
    (h' : Extends Q v' v'') (hQ : ∀ σ τ τ', (∀ k < v.tmpConstNum, τ' k = τ k) → Q σ τ → Q σ τ') :
    Extends (fun σ τ => P σ τ ∧ Q σ τ) v v'' := by
  refine ⟨fun _ hc => h'.constraints (h.constraints hc), h.tmpConstNum.trans h'.tmpConstNum, ?_⟩
  rintro σ τ ⟨hP, hq⟩ hsat
  obtain ⟨τ₁, hagr, hsat₁⟩ := h.satisfied σ τ hP hsat
  obtain ⟨τ₂, hagr₂, hsat₂⟩ := h'.satisfied σ τ₁ (hQ σ τ τ₁ hagr hq) hsat₁
  exact ⟨τ₂, fun k hk => (hagr₂ k (hk.trans_le h.tmpConstNum)).trans (hagr k hk), hsat₂⟩

def Meaningful (o : Operation) (σ : Assignment) : Prop :=
  AllVisited (InBounds σ) o ∧ AllVisited (SRemAgrees σ) o

def Indexed : Operation → Prop := AllVisited fun d ops => indexed d ops = true

def Outcome (Γ : Symbol → Ty) (v : Visitor) (o : Operation) :
    Except Abort (Expr × Visitor) → Prop
  | .error .constants => True
  | .error .invalid => ¬ Indexed o
  | .ok (e, v') => Inv Γ v' ∧ Known v'.constraints o e ∧ Extends (fun σ _ => Meaningful o σ) v v'

/-- The visits of operands add the constraints for each of them. `T` is what they need of the
temporary constants. -/
def Outcomes (Γ : Symbol → Ty) (T : Assignment → Temps → Prop) (d : OperationData)
    (array : Option Expr) (i : Nat) (ops : List Operation) (v : Visitor) :
    Except Abort (List Expr × Visitor) → Prop
  | .error .constants => True
  | .error .invalid => ∃ o ∈ visitedFrom d i ops, ¬ Indexed o
  | .ok (es, v') => Inv Γ v' ∧ Forall₂ (Known v'.constraints) (visitedFrom d i ops) es ∧
    (∀ k o, ops[k]? = some o → skips d (i + k) = false → ∃ e constraints,
      Known v'.constraints o e ∧ emitted d array (i + k) e = some constraints ∧
        constraints ⊆ v'.constraints) ∧
    Extends (fun σ τ => (∀ o ∈ visitedFrom d i ops, Meaningful o σ) ∧ T σ τ) v v'

variable {Γ : Symbol → Ty} {sharing : Sharing}

theorem Inv.add (h : Inv Γ v) (constraints : List (Term .bool)) :
    Inv Γ (v.add constraints) :=
  ⟨h.reserved, h.constMap, fun entry hent =>
    (h.cache entry hent).mono (subset_append_left _ _)⟩

variable {o : Operation} {e : Expr}

theorem extends_add {T : Assignment → Temps → Prop} (hknown : Known v.constraints o e)
    (hT : ∀ σ τ τ', (∀ k < v.tmpConstNum, τ' k = τ k) → T σ τ → T σ τ')
    (hholds : ∀ σ τ, T σ τ → Faithful σ (model σ τ) o e → Satisfies (model σ τ) constraints) :
    Extends (fun σ τ => Meaningful o σ ∧ T σ τ) v (v.add constraints) := by
  refine ⟨subset_append_left _ _, Nat.le_refl _, ?_⟩
  rintro σ τ ⟨hmean, htgt⟩ hsat
  refine ⟨τ, fun _ _ => rfl, fun τ' hτ' => ?_⟩
  have hold := hsat τ' hτ'
  refine forall_mem_append.mpr ⟨hold, ?_⟩
  exact hholds σ τ' (hT σ τ τ' hτ' htgt) (hknown.faithful σ τ' hmean.1 hmean.2 hold)

section Operands

variable {T : Assignment → Temps → Prop} {d : OperationData} {array : Option Expr} {i m : Nat}
  {o : Operation} {ops : List Operation}

theorem visitedFrom_skip (o : Operation) (ops : List Operation) (hskip : skips d i = true) :
    visitedFrom d i (o :: ops) = visitedFrom d (i + 1) ops := by
  rw [visitedFrom, if_pos hskip]

theorem visitedFrom_cons (o : Operation) (ops : List Operation) (hskip : skips d i = false) :
    visitedFrom d i (o :: ops) = o :: visitedFrom d (i + 1) ops := by
  rw [visitedFrom, if_neg (by simp [hskip])]

theorem Outcomes.skip {result : Except Abort (List Expr × Visitor)} (hskip : skips d i = true)
    (h : Outcomes Γ T d array (i + 1) ops v result) :
    Outcomes Γ T d array i (o :: ops) v result := by
  have hvis := visitedFrom_skip o ops hskip
  cases result with
  | error abort =>
    cases abort with
    | constants => trivial
    | invalid =>
      obtain ⟨o', ho', hnot⟩ := h
      exact ⟨o', hvis ▸ ho', hnot⟩
  | ok result =>
    obtain ⟨hinv, hknown, hadded, hext⟩ := h
    refine ⟨hinv, hvis ▸ hknown, fun k o' ho' hk => ?_, hvis ▸ hext⟩
    cases k with
    | zero => exact absurd (hskip.symm.trans hk) (by simp)
    | succ k =>
      rw [Nat.add_comm k 1, ← Nat.add_assoc] at hk ⊢
      exact hadded k o' (by simpa using ho') hk

theorem Outcomes.cons {e : Expr} {es : List Expr} {v₁ v₂ : Visitor} (hskip : skips d i = false)
    (hm : m ≤ v.tmpConstNum) (hT : ∀ σ τ τ', (∀ k < m, τ' k = τ k) → T σ τ → T σ τ')
    (hknown : Known v₁.constraints o e) (hext : Extends (fun σ _ => Meaningful o σ) v v₁)
    (hemitted : emitted d array i e = some constraints)
    (hholds : ∀ σ τ, T σ τ → Faithful σ (model σ τ) o e → Satisfies (model σ τ) constraints)
    (hrest : Outcomes Γ T d array (i + 1) ops (v₁.add constraints) (.ok (es, v₂))) :
    Outcomes Γ T d array i (o :: ops) v (.ok (e :: es, v₂)) := by
  obtain ⟨hinv₂, hknown₂, hadded, hext₂⟩ := hrest
  have hvis := visitedFrom_cons o ops hskip
  have hstable : ∀ {u : Visitor}, m ≤ u.tmpConstNum → ∀ σ τ τ',
      (∀ k < u.tmpConstNum, τ' k = τ k) → T σ τ → T σ τ' :=
    fun hu σ τ τ' h => hT σ τ τ' fun k hk => h k (hk.trans_le hu)
  have hadd : Extends (fun σ τ => Meaningful o σ ∧ T σ τ) v₁ (v₁.add constraints) :=
    extends_add hknown (hstable (hm.trans hext.tmpConstNum)) hholds
  have hsub : v₁.constraints ⊆ v₂.constraints :=
    fun _ hc => hext₂.constraints (hadd.constraints hc)
  refine ⟨hinv₂, hvis ▸ .cons (hknown.mono hsub) hknown₂, fun k o' ho' hk => ?_, ?_⟩
  · cases k with
    | zero =>
      obtain rfl : o = o' := by simpa using ho'
      exact ⟨e, constraints, hknown.mono hsub, hemitted,
        fun _ hc => hext₂.constraints (mem_append_right _ hc)⟩
    | succ k =>
      rw [Nat.add_comm k 1, ← Nat.add_assoc] at hk ⊢
      exact hadded k o' (by simpa using ho') hk
  · refine (hext.trans (hadd.trans hext₂ ?_) ?_).congr rfl rfl rfl rfl ?_
    · exact fun σ τ τ' h hq => ⟨hq.1, hstable (hm.trans hext.tmpConstNum) σ τ τ' h hq.2⟩
    · exact fun σ τ τ' h hq => ⟨⟨hq.1.1, hstable hm σ τ τ' h hq.1.2⟩, hq.2.1,
        hstable hm σ τ τ' h hq.2.2⟩
    · rintro σ τ ⟨hmean, ht⟩
      obtain ⟨ho, hrest⟩ := forall_mem_cons.mp (hvis ▸ hmean)
      exact ⟨ho, ⟨ho, ht⟩, hrest, ht⟩

theorem visitOperands_spec (ih : ∀ o ∈ ops, ∀ v, Inv Γ v →
      o.Interpreted → AllVisited (Admissible Γ) o →
      Outcome Γ v o (visit sharing o v))
    (hty : ∀ o ∈ ops, o.Interpreted) (i : Nat)
    (hadm : ∀ o ∈ visitedFrom d i ops, AllVisited (Admissible Γ) o) (hv : Inv Γ v)
    (hm : m ≤ v.tmpConstNum) (hT : ∀ σ τ τ', (∀ k < m, τ' k = τ k) → T σ τ → T σ τ')
    (hemit : ∀ k o e, ops[k]? = some o → e.1 = sortOf o.data → ∃ constraints,
      emitted d array (i + k) e = some constraints ∧ ∀ σ τ, T σ τ →
        Faithful σ (model σ τ) o e → Satisfies (model σ τ) constraints) :
    Outcomes Γ T d array i ops v (visitOperands sharing d array i ops v) := by
  induction ops generalizing i v with
  | nil => exact ⟨hv, .nil, by simp, .refl _ _⟩
  | cons o ops ihops =>
    obtain ⟨iho, ihrest⟩ := forall_mem_cons.mp ih
    obtain ⟨hto, htrest⟩ := forall_mem_cons.mp hty
    have hsh : ∀ k o e, ops[k]? = some o → e.1 = sortOf o.data → ∃ constraints,
        emitted d array (i + 1 + k) e = some constraints ∧ ∀ σ τ, T σ τ →
          Faithful σ (model σ τ) o e → Satisfies (model σ τ) constraints := by
      intro k o e ho he
      have := hemit (k + 1) o e (by simpa using ho) he
      rwa [Nat.add_assoc, Nat.add_comm 1 k]
    rw [visitOperands]
    cases hskip : skips d i with
    | true =>
      rw [if_pos rfl]
      exact (ihops ihrest htrest (i + 1) (visitedFrom_skip o ops hskip ▸ hadm) hv hm hsh).skip hskip
    | false =>
      have hvis := visitedFrom_cons o ops hskip
      obtain ⟨hadmo, hadmrest⟩ := forall_mem_cons.mp (hvis ▸ hadm)
      have hout := iho v hv hto hadmo
      rw [if_neg (by simp)]
      cases hrun : visit sharing o v with
      | error abort =>
        rw [hrun] at hout
        cases abort with
        | constants => trivial
        | invalid => exact ⟨o, hvis ▸ mem_cons_self, hout⟩
      | ok result =>
        obtain ⟨e, v₁⟩ := result
        rw [hrun] at hout
        obtain ⟨hinv, hknown, hext⟩ := hout
        obtain ⟨constraints, hemitted, hholds⟩ := hemit 0 o e rfl hknown.sort
        have hrest := ihops ihrest htrest (i + 1) hadmrest (hinv.add constraints)
          (hm.trans hext.tmpConstNum) hsh
        rw [Nat.add_zero] at hemitted
        simp only [bind, Except.bind, hemitted]
        cases hrun' : visitOperands sharing d array (i + 1) ops (v₁.add constraints) with
        | error abort =>
          rw [hrun'] at hrest
          cases abort with
          | constants => trivial
          | invalid =>
            obtain ⟨o', ho', hnot⟩ := hrest
            exact ⟨o', hvis ▸ mem_cons_of_mem o ho', hnot⟩
        | ok result =>
          rw [hrun'] at hrest
          exact .cons hskip hm hT hknown hext hemitted hholds hrest

end Operands

variable {s : Symbol}

theorem model_symbol (σ : Assignment) (τ : Temps) {name : Name} (hname : symbolName s = some name)
    (hnum : ∀ k, s = .numbered k → k < tmpConstMin) (w : Nat) :
    (model σ τ).const name (.bv w) = σ.int s w ∧
      (model σ τ).const name (.array w 8) = σ.array s w := by
  cases s with
  | named text =>
    cases hname
    exact ⟨rfl, rfl⟩
  | numbered k =>
    simp only [symbolName, Option.ite_none_right_eq_some, Option.some.injEq] at hname
    obtain ⟨-, rfl⟩ := hname
    exact ⟨rfl, if_pos (hnum k rfl)⟩

variable {ops : List Operation}

theorem symbolTerm_known {t : Ty} (hty : (Operation.mk (.constant t s) ops).Interpreted)
    (hadm : Admissible Γ (.constant t s) ops) (h : symbolTerm Γ s e)
    (constraints : List (Term .bool)) : Known constraints (.mk (.constant t s) ops) e := by
  obtain ⟨name, sort, hname, hsort, rfl⟩ := h
  have hnum : ∀ k, s = .numbered k → k < tmpConstMin :=
    fun k hk => hadm.number t k (hk ▸ rfl)
  rw [hadm.type t s rfl] at hsort
  have hindexed : AllVisited (fun d ops => indexed d ops = true) (.mk (.constant t s) ops) := by
    refine .mk rfl fun o ho => ?_
    have hnil : ∀ i ops, visitedFrom (.constant t s) i ops = [] := by
      intro i ops
      induction ops generalizing i with
      | nil => rfl
      | cons o ops ih => exact ih (i + 1)
    simp [hnil] at ho
  obtain ⟨hshape, -⟩ := hty.shape
  cases hshape with
  | symbol w s =>
    cases hsort
    refine ⟨rfl, hindexed, fun σ τ _ _ _ => ?_⟩
    rw [faithful_int (w := w) rfl]
    simp [eval_mk, apply, Expr.constant, (model_symbol σ τ hname hnum w).1]
  | @arraySymbol w s size hsize =>
    cases hsort
    refine ⟨rfl, hindexed, fun σ τ _ _ _ => ?_⟩
    rw [faithful_array (w := w) rfl]
    refine ⟨σ.array s w, by simp [eval_mk, apply], fun j _ => ?_⟩
    simp [Expr.constant, (model_symbol σ τ hname hnum w).2]

theorem visitConstant_spec {t : Ty} (hty : (Operation.mk (.constant t s) ops).Interpreted)
    (hadm : Admissible Γ (.constant t s) ops) (hv : Inv Γ v) :
    ∃ e constMap, v.visitConstant t s = .ok (e, { v with constMap := constMap }) ∧
      symbolTerm Γ s e ∧ ∀ s e, constMap.lookup s = some e → symbolTerm Γ s e := by
  rw [visitConstant]
  cases hlook : v.constMap.lookup s with
  | some e => exact ⟨e, v.constMap, rfl, hv.constMap s e hlook, hv.constMap⟩
  | none =>
    obtain ⟨name, hname⟩ : ∃ name, symbolName s = some name := by
      cases s with
      | named text => exact ⟨_, rfl⟩
      | numbered k =>
        have hk := hadm.number t k rfl
        exact ⟨.int k, if_pos (hk.trans (by decide))⟩
    obtain ⟨sort, hsort⟩ : ∃ sort, typeToSort t = some sort := by
      obtain ⟨hshape, -⟩ := hty.shape
      cases hshape <;> exact ⟨_, rfl⟩
    have hterm : symbolTerm Γ s (.constant name sort) :=
      ⟨name, sort, hname, hadm.type t s rfl ▸ hsort, rfl⟩
    refine ⟨_, v.constMap.insert s (.constant name sort), by simp only [hname, hsort], hterm, ?_⟩
    intro s' e he
    rw [Map.lookup_insert] at he
    split_ifs at he with hs
    · cases he
      exact hs ▸ hterm
    · exact hv.constMap s' e he

def fixedBytes (σ : Assignment) (ops : List Operation) {w : Nat} (i : BitVec w) : BitVec 8 :=
  Semantics.byte ((ops.map (Operation.eval σ)).getD i.toNat .poison)

theorem fixedBytes_ofNat (σ : Assignment) {w j : Nat} (ho : ops[j]? = some o)
    (hfits : ops.length ≤ 2 ^ w) :
    fixedBytes σ ops (BitVec.ofNat w j) = Semantics.byte (o.eval σ) := by
  have hj : j < 2 ^ w := ((List.getElem?_eq_some_iff.mp ho).1).trans_le hfits
  rw [fixedBytes, toNat_ofNat, Nat.mod_eq_of_lt hj, getD_eq_getElem?_getD, List.getElem?_map, ho]
  rfl

section FixedArray

variable {w k : Nat} {ops : List Operation} {o : Operation} {e : Expr}

theorem emitted_element (ho : o.type = .int 8) (he : e.1 = sortOf o.data) (j : Nat) :
    ∃ c, emitted (.fixedArray w) (some (.constant (.int k) (.array w 8))) j e = some [c] ∧
      ∀ M, c.eval M = true ↔ M.const (.int k) (.array w 8) (BitVec.ofNat w j) = bits M 8 e := by
  obtain ⟨t, rfl, ht⟩ := exists_bv ho he (isBoolTerm_byte ho)
  refine ⟨.pred .eq (.select (.const (.int k) (.array w 8)) (.bvVal (BitVec.ofNat w j))) t, ?_,
    fun M => ?_⟩
  · simp [emitted, elementConstraint, Expr.constant, Expr.select, Expr.bvVal, Expr.pred]
  · simp [Pred.eval]

theorem model_temp (σ : Assignment) (τ : Temps) (hk : tmpConstMin ≤ k) :
    (model σ τ).const (.int k) (.array w 8) = τ k w := if_neg (by omega)

theorem emitted_holds (hk : tmpConstMin ≤ k) (hfits : ops.length ≤ 2 ^ w)
    (htype : ∀ o ∈ ops, o.type = .int 8) (j : Nat) (ho : ops[j]? = some o)
    (he : e.1 = sortOf o.data) :
    ∃ constraints,
      emitted (.fixedArray w) (some (.constant (.int k) (.array w 8))) (0 + j) e =
        some constraints ∧
      ∀ σ τ, τ k = (fun _ => fixedBytes σ ops) → Faithful σ (model σ τ) o e →
        Satisfies (model σ τ) constraints := by
  have hbyte := htype o (mem_of_getElem? ho)
  obtain ⟨c, hc, hiff⟩ := emitted_element (w := w) (k := k) hbyte he j
  refine ⟨[c], by rwa [Nat.zero_add], fun σ τ hτ hf => ?_⟩
  rw [faithful_int hbyte] at hf
  refine forall_mem_singleton.mpr ((hiff _).mpr ?_)
  rw [model_temp σ τ hk, hτ]
  exact (fixedBytes_ofNat σ ho hfits).trans (by simp [hf, Semantics.byte])

theorem fixedArray_known (hfits : ops.length ≤ 2 ^ w) (htype : ∀ o ∈ ops, o.type = .int 8)
    (hindexed : ∀ o ∈ visitedFrom (.fixedArray w) 0 ops, Indexed o)
    (hadded : ∀ j o, ops[j]? = some o → skips (.fixedArray w) (0 + j) = false →
      ∃ e constraints', Known constraints o e ∧
        emitted (.fixedArray w) (some (.constant (.int k) (.array w 8))) (0 + j) e =
          some constraints' ∧ constraints' ⊆ constraints)
    (hvis : visitedFrom (.fixedArray w) 0 ops = ops) :
    Known constraints (.mk (.fixedArray w) ops) (.constant (.int k) (.array w 8)) := by
  refine ⟨rfl, .mk rfl hindexed, fun σ τ hin hrem hsat => ?_⟩
  obtain ⟨-, hin⟩ := hin
  obtain ⟨-, hrem⟩ := hrem
  rw [faithful_array (w := w) rfl]
  refine ⟨fixedBytes σ ops, by simp only [eval_mk, apply]; rfl, fun i hi => ?_⟩
  rw [Operation.arraySize] at hi
  obtain ⟨e, constraints', hknown, hemitted, hsub⟩ := hadded i.toNat _
    (List.getElem?_eq_getElem hi) rfl
  have hmem : ops[i.toNat] ∈ ops := getElem_mem hi
  obtain ⟨c, hc, hiff⟩ := emitted_element (w := w) (k := k) (htype _ hmem) hknown.sort i.toNat
  have hf := hknown.faithful σ τ (hin _ (hvis.symm ▸ hmem)) (hrem _ (hvis.symm ▸ hmem)) hsat
  rw [faithful_int (htype _ hmem)] at hf
  rw [Nat.zero_add] at hemitted
  obtain rfl := Option.some.inj (hc.symm.trans hemitted)
  have hval := (hiff (model σ τ)).mp (hsat c (hsub mem_cons_self))
  rw [ofNat_toNat, setWidth_eq] at hval
  have hbyte := fixedBytes_ofNat σ (List.getElem?_eq_getElem hi) hfits
  rw [ofNat_toNat, setWidth_eq, hf] at hbyte
  rw [hbyte]
  simpa [Expr.constant, Semantics.byte] using hval

end FixedArray

theorem visitedFrom_fixedArray (w i : Nat) (ops : List Operation) :
    visitedFrom (.fixedArray w) i ops = ops := by
  induction ops generalizing i with
  | nil => rfl
  | cons o ops ih => exact congrArg (o :: ·) (ih (i + 1))

theorem outcome_cached (hv : Inv Γ v) (he : e ∈ v.cached o) :
    Outcome Γ v o (.ok (e, { v with visits := v.visits + 1 })) := by
  obtain ⟨⟨o', e'⟩, hfound, rfl⟩ := List.mem_map.mp he
  obtain ⟨hmem, ho⟩ := mem_filter.mp hfound
  obtain rfl : o' = o := of_decide_eq_true ho
  exact ⟨⟨hv.reserved, hv.constMap, hv.cache⟩, hv.cache _ hmem,
    (Extends.refl (fun _ _ => True) v).congr rfl rfl rfl rfl fun _ _ _ => trivial⟩

theorem Inv.record (hv : Inv Γ v) (hknown : Known v.constraints o e) :
    Inv Γ { v with cache := (o, e) :: v.cache } :=
  ⟨hv.reserved, hv.constMap, forall_mem_cons.mpr ⟨hknown, hv.cache⟩⟩

variable {d : OperationData}

theorem Meaningful.below {σ : Assignment} (h : Meaningful (.mk d ops) σ) :
    ∀ o ∈ visitedFrom d 0 ops, Meaningful o σ := by
  obtain ⟨⟨-, hin⟩, ⟨-, hrem⟩⟩ := h
  exact fun o ho => ⟨hin o ho, hrem o ho⟩

variable {es : List Expr}

theorem known_of_combines (hidx : indexed d ops = true)
    (hknown : Forall₂ (Known constraints) (visitedFrom d 0 ops) es)
    (h : Combines d ops (visitedFrom d 0 ops) es) :
    ∃ e, combine d es = some e ∧ Known constraints (.mk d ops) e := by
  obtain ⟨e, he, hsort, hval⟩ := h
  refine ⟨e, he, hsort, .mk hidx fun o ho => ?_, fun σ τ hin hrem hsat => ?_⟩
  · obtain ⟨e, -, hknown⟩ := forall₂_exists_left hknown.flip ho
    exact hknown.indexed
  · obtain ⟨hin, hinbelow⟩ := hin
    obtain ⟨hrem, hrembelow⟩ := hrem
    refine hval σ _ hin hrem (((forall₂_and_left _ _).mpr
      ⟨fun o ho => And.intro (hinbelow o ho) (hrembelow o ho), hknown⟩).imp ?_)
    rintro o e ⟨⟨hin, hrem⟩, hknown⟩
    exact hknown.faithful σ τ hin hrem hsat

theorem finish_spec (hty : (Operation.mk d ops).Interpreted)
    (hadm : Admissible Γ d ops) (hfix : ¬ ∃ w, d = .fixedArray w) (hv : Inv Γ v)
    (hknown : Forall₂ (Known v.constraints) (visitedFrom d 0 ops) es) :
    (∃ e constMap, v.finish d none es = .ok (e, { v with constMap := constMap }) ∧
      (∀ s e, constMap.lookup s = some e → symbolTerm Γ s e) ∧
      Known v.constraints (.mk d ops) e) ∨
    (v.finish d none es = .error .invalid ∧ indexed d ops = false) := by
  by_cases hconst : ∃ t s, d = .constant t s
  · obtain ⟨t, s, rfl⟩ := hconst
    obtain ⟨e, constMap, hvis, hterm, hmap⟩ := visitConstant_spec hty hadm hv
    exact .inl ⟨e, constMap, hvis, hmap, symbolTerm_known hty hadm hterm _⟩
  · have hfin : v.finish d none es =
        (combine d es).elim (.error .invalid) fun e => .ok (e, v) := by
      cases hcombine : combine d es <;> cases d <;>
        first
        | exact absurd ⟨_, _, rfl⟩ hconst
        | exact absurd ⟨_, rfl⟩ hfix
        | simp only [finish, hcombine, Option.elim]
    have hspec := combine_spec hty hadm.positive (fun t s h => hconst ⟨t, s, h⟩)
      (fun w h => hfix ⟨w, h⟩) (hknown.imp fun _ _ h => h.sort)
    split_ifs at hspec with hidx
    · obtain ⟨e, he, hknown⟩ := known_of_combines hidx hknown hspec
      exact .inl ⟨e, v.constMap, by rw [hfin, he, Option.elim_some], hv.constMap, hknown⟩
    · exact .inr ⟨by rw [hfin, hspec, Option.elim_none], by simpa using hidx⟩

theorem elements_spec {w : Nat} (htype : ∀ o ∈ ops, o.type = .int 8) (hfits : ops.length ≤ 2 ^ w)
    (h : Outcomes Γ (fun σ τ => τ v.tmpConstNum = fun _ => fixedBytes σ ops) (.fixedArray w)
      (some (.constant (.int v.tmpConstNum) (.array w 8))) 0 ops
      { v with tmpConstNum := v.tmpConstNum + 1 } (.ok (es, v'))) :
    Known v'.constraints (.mk (.fixedArray w) ops)
        (.constant (.int v.tmpConstNum) (.array w 8)) ∧
      Extends (fun σ _ => Meaningful (.mk (.fixedArray w) ops) σ) v v' := by
  obtain ⟨hinv, hknown, hadded, hext⟩ := h
  constructor
  · refine fixedArray_known hfits htype (fun o ho => ?_) hadded (visitedFrom_fixedArray w 0 ops)
    obtain ⟨e, -, hknown⟩ := forall₂_exists_left hknown.flip ho
    exact hknown.indexed
  · refine ⟨hext.constraints, (Nat.le_succ _).trans hext.tmpConstNum, fun σ τ hmean hsat => ?_⟩
    have hupd : ∀ k < v.tmpConstNum,
        Function.update τ v.tmpConstNum (fun _ => fixedBytes σ ops) k = τ k :=
      fun k hk => Function.update_of_ne (Nat.ne_of_lt hk) _ _
    obtain ⟨τ', hagr, hsat'⟩ := hext.satisfied σ _ ⟨hmean.below, Function.update_self _ _ _⟩
      fun τ'' hτ'' => hsat τ'' fun k hk => (hτ'' k (Nat.lt_succ_of_lt hk)).trans (hupd k hk)
    exact ⟨τ', fun k hk => (hagr k (Nat.lt_succ_of_lt hk)).trans (hupd k hk), hsat'⟩

theorem Outcomes.bind {T : Assignment → Temps → Prop} {array : Option Expr} {v v₀ : Visitor}
    {result : Except Abort (List Expr × Visitor)}
    {k : List Expr × Visitor → Except Abort (Expr × Visitor)}
    (h : Outcomes Γ T d array 0 ops v₀ result)
    (hk : ∀ es v', Outcomes Γ T d array 0 ops v₀ (.ok (es, v')) →
      Outcome Γ v (.mk d ops) (k (es, v'))) :
    Outcome Γ v (.mk d ops) (result.bind k) := by
  cases result with
  | ok result => exact hk result.1 result.2 h
  | error abort =>
    cases abort with
    | constants => trivial
    | invalid =>
      obtain ⟨o, ho, hnot⟩ := h
      rintro ⟨-, hindexed⟩
      exact hnot (hindexed o ho)

section Visit

variable {d : OperationData} {ops : List Operation}

theorem visit_fixedArray {w : Nat} (ih : ∀ o ∈ ops, ∀ v, Inv Γ v →
      o.Interpreted → AllVisited (Admissible Γ) o →
      Outcome Γ v o (visit sharing o v))
    (hty : (Operation.mk (.fixedArray w) ops).Interpreted)
    (hadm : AllVisited (Admissible Γ) (.mk (.fixedArray w) ops)) (hv : Inv Γ v)
    (hpick : sharing.pick v.visits (v.cached (.mk (.fixedArray w) ops)) = none) :
    Outcome Γ v (.mk (.fixedArray w) ops) (visit sharing (.mk (.fixedArray w) ops) v) := by
  obtain ⟨hhere, hbelow⟩ := hadm
  obtain ⟨-, -, hops⟩ := wellTyped_mk.mp hty
  have htype : ∀ o ∈ ops, o.type = .int 8 := by
    obtain ⟨hshape, -⟩ := hty.shape
    cases hshape with
    | fixedArray w h => exact h
  have hfits := hhere.fits w rfl
  rw [visit, hpick]
  simp only [prepare, nextConst]
  split_ifs with hmax
  · trivial
  have hinv : Inv Γ { v with visits := v.visits + 1, tmpConstNum := v.tmpConstNum + 1 } :=
    ⟨hv.reserved.trans (Nat.le_succ _), hv.constMap, hv.cache⟩
  refine Outcomes.bind (T := fun σ τ => τ v.tmpConstNum = fun _ => fixedBytes σ ops)
    (visitOperands_spec (m := v.tmpConstNum + 1) ih hops 0 hbelow hinv (Nat.le_refl _)
      (fun σ τ τ' h hτ => (h _ (Nat.lt_succ_self _)).trans hτ)
      (fun j o e ho he => emitted_holds hv.reserved hfits htype j ho he)) fun es v' h => ?_
  obtain ⟨hknown, hext⟩ := elements_spec (v := { v with visits := v.visits + 1 }) htype hfits h
  exact ⟨h.1.record hknown, hknown, hext.congr rfl rfl rfl rfl fun _ _ h => h⟩

theorem visit_other (hfix : ¬ ∃ w, d = .fixedArray w) (ih : ∀ o ∈ ops, ∀ v, Inv Γ v →
      o.Interpreted → AllVisited (Admissible Γ) o →
      Outcome Γ v o (visit sharing o v))
    (hty : (Operation.mk d ops).Interpreted)
    (hadm : AllVisited (Admissible Γ) (.mk d ops)) (hv : Inv Γ v)
    (hpick : sharing.pick v.visits (v.cached (.mk d ops)) = none) :
    Outcome Γ v (.mk d ops) (visit sharing (.mk d ops) v) := by
  obtain ⟨hhere, hbelow⟩ := hadm
  obtain ⟨-, -, hops⟩ := wellTyped_mk.mp hty
  have hprepare : prepare { v with visits := v.visits + 1 } d =
      .ok (none, { v with visits := v.visits + 1 }) := by
    cases d <;> first | rfl | exact absurd ⟨_, rfl⟩ hfix
  have hv₀ : Inv Γ { v with visits := v.visits + 1 } := ⟨hv.reserved, hv.constMap, hv.cache⟩
  rw [visit, hpick]
  simp only [hprepare]
  refine Outcomes.bind (T := fun _ _ => True)
    (visitOperands_spec (m := 0) ih hops 0 hbelow hv₀ (Nat.zero_le _) (fun _ _ _ _ h => h)
      (fun k o e _ _ => ⟨[], by cases d <;> rfl, fun _ _ _ _ => by simp [Satisfies]⟩))
    fun es v' h => ?_
  obtain ⟨hinv, hknown, -, hext⟩ := h
  simp only [bind, Except.bind]
  obtain ⟨e, constMap, hfin, hmap, hknown⟩ | ⟨hfin, hidx⟩ :=
    finish_spec hty hhere hfix hinv hknown
  · have hinv' : Inv Γ { v' with constMap := constMap } := ⟨hinv.reserved, hmap, hinv.cache⟩
    simp only [hfin]
    exact ⟨hinv'.record hknown, hknown, hext.congr rfl rfl rfl rfl fun σ τ h => ⟨h.below, trivial⟩⟩
  · simp only [hfin]
    rintro ⟨hindexed, -⟩
    rw [hidx] at hindexed
    cases hindexed

end Visit

theorem visit_spec (sharing : Sharing) (o : Operation) (v : Visitor) (hv : Inv Γ v)
    (hty : o.Interpreted) (hadm : AllVisited (Admissible Γ) o) :
    Outcome Γ v o (visit sharing o v) := by
  induction o using Operation.induct generalizing v with
  | mk d ops ih =>
    have ih' : ∀ o ∈ ops, ∀ v, Inv Γ v → o.Interpreted →
        AllVisited (Admissible Γ) o → Outcome Γ v o (visit sharing o v) :=
      fun o ho v hv ht ha => ih o ho v hv ht ha
    cases hpick : sharing.pick v.visits (v.cached (.mk d ops)) with
    | some e =>
      rw [visit, hpick]
      exact outcome_cached hv (sharing.mem_of_pick hpick)
    | none =>
      by_cases hfix : ∃ w, d = .fixedArray w
      · obtain ⟨w, rfl⟩ := hfix
        exact visit_fixedArray ih' hty hadm hv hpick
      · exact visit_other hfix ih' hty hadm hv hpick

end Visitor

end Z3

end Caffeine
