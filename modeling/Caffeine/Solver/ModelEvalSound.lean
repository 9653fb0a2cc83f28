import Caffeine.IR.OperationSimplifierSound
import Caffeine.Solver.ModelEval

/-!
# Evaluation in a model and the meaning of expressions

An integer expression is evaluated to its SMT-LIB value exactly if every comparison that is
evaluated holds and every extension and truncation changes the width; otherwise an assertion fails.
-/

namespace Caffeine

open List

namespace ModelEvaluator

open Operation

def arithmetic : OperationData → Bool
  | .constant (.int _) _ => true
  | .constantInt _ => true
  | .binary _ _ => true
  | .unary _ _ => true
  | .select (.int _) => true
  | .icmp .eq => true
  | .icmp .ne => true
  | _ => false

theorem interpreted_of_arithmetic {d : OperationData} (h : arithmetic d = true) :
    d.interpreted = true := by
  cases d <;> first | rfl | cases h

/-- A comparison holds, since `Value(bool)` makes false an integer without bits, and a change of the
width changes it. -/
def Asserts (σ : Assignment) : OperationData → List Operation → Prop
  | .icmp cmp, ops => (Operation.mk (.icmp cmp) ops).eval σ = .int ⟨1, 1⟩
  | .unary .not _, _ => True
  | .unary _ t, [operand] => t ≠ operand.type
  | _, _ => True

def Computes (m : Model) (σ : Assignment) (o : Operation) : Prop :=
  ∃ v, visit m o = some (.int v) ∧ o.eval σ = .int v

/-- The model gives the symbols of the operations evaluated their values, and divisions are
defined. -/
def Evaluable (m : Model) (σ : Assignment) (d : OperationData) (ops : List Operation) : Prop :=
  m.Gives σ d ∧ Semantics.DivisionDefined d (ops.map (eval σ))

section Steps

variable {m : Model} {σ : Assignment} {d : OperationData} {ops : List Operation}

/-- An evaluation that returns the value where the assertions hold, and otherwise fails. -/
def Outcome (m : Model) (σ : Assignment) (o : Operation) : Prop :=
  AllEvaluated σ (Asserts σ) o ∧ Computes m σ o ∨
    ¬ AllEvaluated σ (Asserts σ) o ∧ visit m o = none

theorem Outcome.mk (hops : ∀ o ∈ evaluated σ d ops, Outcome m σ o)
    (hnone : ∀ o ∈ evaluated σ d ops, visit m o = none → visit m (.mk d ops) = none)
    (hstep : (∀ o ∈ evaluated σ d ops, Computes m σ o) →
      Asserts σ d ops ∧ Computes m σ (.mk d ops) ∨
        ¬ Asserts σ d ops ∧ visit m (.mk d ops) = none) :
    Outcome m σ (.mk d ops) := by
  by_cases hall : ∀ o ∈ evaluated σ d ops, AllEvaluated σ (Asserts σ) o
  · have hcomputes : ∀ o ∈ evaluated σ d ops, Computes m σ o := by
      intro o ho
      obtain ⟨-, hval⟩ | ⟨hnot, -⟩ := hops o ho
      · exact hval
      · exact absurd (hall o ho) hnot
    obtain ⟨hhere, hval⟩ | ⟨hnot, hfails⟩ := hstep hcomputes
    · exact .inl ⟨.mk hhere hall, hval⟩
    · exact .inr ⟨fun ⟨hhere, _⟩ => hnot hhere, hfails⟩
  · push Not at hall
    obtain ⟨o, ho, hnot⟩ := hall
    obtain ⟨hasrt, -⟩ | ⟨-, hfails⟩ := hops o ho
    · exact absurd hasrt hnot
    · exact .inr ⟨fun ⟨_, hbelow⟩ => hnot (hbelow o ho), hnone o ho hfails⟩

theorem Computes.int {o : Operation} {w : Nat} (h : Computes m σ o)
    (hty : o.Interpreted) (htype : o.type = .int w) :
    ∃ x : BitVec w, visit m o = some (.int ⟨w, x⟩) ∧ o.eval σ = .int ⟨w, x⟩ := by
  obtain ⟨v, hvis, heval⟩ := h
  obtain ⟨x, hx⟩ := hty.eval_int htype σ
  rw [hx] at heval
  cases heval
  exact ⟨x, hvis, hx⟩

theorem Outcome.pair {l r : Operation} {w : Nat} (hl : Outcome m σ l) (hr : Outcome m σ r)
    (hl' : l.Interpreted ∧ l.type = .int w) (hr' : r.Interpreted ∧ r.type = .int w)
    (hevd : evaluated σ d [l, r] = [l, r]) (hleft : ∀ b, visitOperation m d [none, b] = none)
    (hright : ∀ a, visitOperation m d [a, none] = none)
    (hstep : ∀ x y : BitVec w, visit m l = some (.int ⟨w, x⟩) → l.eval σ = .int ⟨w, x⟩ →
      visit m r = some (.int ⟨w, y⟩) → r.eval σ = .int ⟨w, y⟩ →
      Asserts σ d [l, r] ∧ Computes m σ (.mk d [l, r]) ∨
        ¬ Asserts σ d [l, r] ∧ visit m (.mk d [l, r]) = none) :
    Outcome m σ (.mk d [l, r]) := by
  refine .mk ?_ ?_ ?_ <;> rw [hevd]
  · simp only [mem_cons, not_mem_nil, or_false, forall_eq_or_imp, forall_eq]
    exact ⟨hl, hr⟩
  · simp only [mem_cons, not_mem_nil, or_false, forall_eq_or_imp, forall_eq, visit_mk,
      map_cons, map_nil]
    refine ⟨fun h => ?_, fun h => ?_⟩
    · rw [h, hleft]
    · rw [h, hright]
  · intro hcomputes
    obtain ⟨x, hx, hx'⟩ := (hcomputes l mem_cons_self).int hl'.1 hl'.2
    obtain ⟨y, hy, hy'⟩ :=
      (hcomputes r (mem_cons_of_mem l mem_cons_self)).int hr'.1 hr'.2
    exact hstep x y hx hx' hy hy'

theorem Outcome.single {o : Operation} {w : Nat} {op : UnaryOpcode} {t : Ty} (ho : Outcome m σ o)
    (ho' : o.Interpreted ∧ o.type = .int w)
    (hstep : ∀ x : BitVec w, visit m o = some (.int ⟨w, x⟩) → o.eval σ = .int ⟨w, x⟩ →
      Asserts σ (.unary op t) [o] ∧ Computes m σ (.mk (.unary op t) [o]) ∨
        ¬ Asserts σ (.unary op t) [o] ∧ visit m (.mk (.unary op t) [o]) = none) :
    Outcome m σ (.mk (.unary op t) [o]) := by
  refine .mk (forall_mem_singleton.mpr ho) (forall_mem_singleton.mpr fun h => ?_)
    fun hcomputes => ?_
  · simp [visit_mk, visitOperation, h]
  · obtain ⟨x, hx, hx'⟩ := (hcomputes o mem_cons_self).int ho'.1 ho'.2
    exact hstep x hx hx'

theorem exists_binary {op : BinaryOpcode} (hop : op ∉ [.fadd, .fsub, .fmul, .fdiv, .frem]) :
    ∃ f, Value.binary op = some f := by
  cases op <;> first | exact ⟨_, rfl⟩ | simp at hop

variable {w : Nat} {l r o : Operation} {x y : BitVec w}

theorem computes_symbol (w : Nat) (s : Symbol) (h : m.Gives σ (.constant (.int w) s)) :
    Computes m σ (.mk (.constant (.int w) s) []) := by
  refine ⟨⟨w, σ.int s w⟩, ?_, eval_mk σ _ _⟩
  rw [visit_mk]
  simp only [visitOperation, visitConstant]
  obtain h | ⟨h, hzero⟩ := h
  · rw [h]
  · rw [h, hzero]

theorem computes_binary {op : BinaryOpcode} (hop : op ∉ [.fadd, .fsub, .fmul, .fdiv, .frem])
    (hl : visit m l = some (.int ⟨w, x⟩)) (hl' : l.eval σ = .int ⟨w, x⟩)
    (hr : visit m r = some (.int ⟨w, y⟩)) (hr' : r.eval σ = .int ⟨w, y⟩)
    (hdef : Semantics.DivisionDefined (.binary op (.int w)) [.int ⟨w, x⟩, .int ⟨w, y⟩]) :
    Computes m σ (.mk (.binary op (.int w)) [l, r]) := by
  obtain ⟨f, hf⟩ := exists_binary hop
  refine ⟨f ⟨w, x⟩ ⟨w, y⟩, ?_, ?_⟩
  · simp [visit_mk, visitOperation, hl, hr, Value.binop, Value.apint, hf]
  · rw [eval_mk, map_cons, map_cons, map_nil, hl', hr']
    refine Semantics.binary_eq_value hf ?_
    rintro rfl
    obtain ⟨hnull, hover⟩ := hdef
    exact ⟨beq_eq_false_iff_ne.mp hnull,
      fun ⟨hx, hy⟩ => hover ⟨beq_iff_eq.mpr hx, beq_iff_eq.mpr hy⟩⟩

theorem icmp_outcome {cmp : ICmpOpcode} (hcmp : cmp = .eq ∨ cmp = .ne)
    (hl : visit m l = some (.int ⟨w, x⟩)) (hl' : l.eval σ = .int ⟨w, x⟩)
    (hr : visit m r = some (.int ⟨w, y⟩)) (hr' : r.eval σ = .int ⟨w, y⟩) :
    Asserts σ (.icmp cmp) [l, r] ∧ Computes m σ (.mk (.icmp cmp) [l, r]) ∨
      ¬ Asserts σ (.icmp cmp) [l, r] ∧ visit m (.mk (.icmp cmp) [l, r]) = none := by
  have heval : (Operation.mk (.icmp cmp) [l, r]).eval σ =
      .int (APInt.ofBool (Semantics.compare cmp x y)) := by
    rw [eval_mk, map_cons, map_cons, map_nil, hl', hr']
    simp [Semantics.apply, Semantics.icmp]
  have hvis : visit m (.mk (.icmp cmp) [l, r]) = Value.ofBool (Semantics.compare cmp x y) := by
    simp only [visit_mk, visitOperation, map_cons, map_nil, hl, hr, some_bind]
    obtain rfl | rfl := hcmp
    · simp [visitICmp, Value.equals, APInt.eq, Semantics.compare]
    · simp [visitICmp, Value.equals, APInt.eq, Semantics.compare, bne]
  rw [Asserts, Computes, heval, hvis]
  cases Semantics.compare cmp x y with
  | true => exact .inl ⟨rfl, ⟨1, 1⟩, rfl, rfl⟩
  | false => exact .inr ⟨by simp [APInt.ofBool], rfl⟩

theorem computes_not (ho : visit m o = some (.int ⟨w, x⟩)) (ho' : o.eval σ = .int ⟨w, x⟩) :
    Computes m σ (.mk (.unary .not (.int w)) [o]) := by
  refine ⟨APInt.not ⟨w, x⟩, ?_, ?_⟩
  · simp [visit_mk, visitOperation, ho, Value.unary, Value.apint, Value.bvnot]
  · rw [eval_mk, map_cons, map_nil, ho']
    rfl

theorem resize_outcome {op : UnaryOpcode} {w' : Nat} (htype : o.type = .int w')
    (hop : op = .trunc ∧ w ≤ w' ∨ (op = .zext ∨ op = .sext) ∧ w' ≤ w) {x : BitVec w'}
    (ho : visit m o = some (.int ⟨w', x⟩)) (ho' : o.eval σ = .int ⟨w', x⟩) :
    Asserts σ (.unary op (.int w)) [o] ∧ Computes m σ (.mk (.unary op (.int w)) [o]) ∨
      ¬ Asserts σ (.unary op (.int w)) [o] ∧ visit m (.mk (.unary op (.int w)) [o]) = none := by
  have hvis : visit m (.mk (.unary op (.int w)) [o]) =
      Value.unary op (.int w) (.int ⟨w', x⟩) := by
    simp [visit_mk, visitOperation, ho]
  have heval : (Operation.mk (.unary op (.int w)) [o]).eval σ =
      Semantics.unary op (.int w) ⟨w', x⟩ := by
    rw [eval_mk, map_cons, map_nil, ho']
    rfl
  have hasrt : Asserts σ (.unary op (.int w)) [o] ↔ w ≠ w' := by
    obtain ⟨rfl, -⟩ | ⟨rfl | rfl, -⟩ := hop <;> simp [Asserts, htype]
  rw [hasrt, Computes, hvis, heval]
  by_cases hw : w = w'
  · refine .inr ⟨not_not_intro hw, ?_⟩
    obtain ⟨rfl, -⟩ | ⟨rfl | rfl, -⟩ := hop <;>
      simp [Value.unary, Value.trunc, Value.zext, Value.sext, Value.apint, Ty.bitwidth, hw]
  · refine .inl ⟨hw, ?_⟩
    obtain ⟨rfl, hle⟩ | ⟨rfl | rfl, hle⟩ := hop
    · exact ⟨_, if_pos (Nat.lt_of_le_of_ne hle hw), rfl⟩
    · exact ⟨_, if_pos (Nat.lt_of_le_of_ne hle (Ne.symm hw)), rfl⟩
    · exact ⟨_, if_pos (Nat.lt_of_le_of_ne hle (Ne.symm hw)), rfl⟩

theorem visit_select {t : Ty} {c a b : Operation} {x : BitVec 1}
    (hc : visit m c = some (.int ⟨1, x⟩)) (hc' : c.eval σ = .int ⟨1, x⟩) :
    visit m (.mk (.select t) [c, a, b]) =
        visit m (if (c.eval σ).toInt?.any (·.eqNat 1) then a else b) ∧
      (Operation.mk (.select t) [c, a, b]).eval σ =
        (if (c.eval σ).toInt?.any (·.eqNat 1) then a else b).eval σ := by
  have hany : (c.eval σ).toInt?.any (·.eqNat 1) = (APInt.mk 1 x).eqNat 1 := by
    rw [hc']
    rfl
  rw [hany, apply_ite (visit m), apply_ite (eval σ)]
  constructor
  · rw [visit_mk, map_cons, hc]
    rfl
  · rw [eval_mk, map_cons, hc']
    rfl

theorem select_outcome {t : Ty} {c a b : Operation} (hc : Outcome m σ c)
    (hty : c.Interpreted) (htype : c.type = .int 1)
    (hchosen : Outcome m σ (if (c.eval σ).toInt?.any (·.eqNat 1) then a else b)) :
    Outcome m σ (.mk (.select t) [c, a, b]) := by
  have hcond : visit m c = none → visit m (.mk (.select t) [c, a, b]) = none := by
    intro hnone
    rw [visit_mk, map_cons, hnone]
    rfl
  refine .mk ?_ ?_ fun hcomputes => .inl ⟨trivial, ?_⟩
  · simp only [evaluated, mem_cons, not_mem_nil, or_false, forall_eq_or_imp, forall_eq]
    exact ⟨hc, hchosen⟩
  · simp only [evaluated, mem_cons, not_mem_nil, or_false, forall_eq_or_imp, forall_eq]
    refine ⟨hcond, fun hnone => ?_⟩
    obtain ⟨-, hval⟩ | ⟨-, hfails⟩ := hc
    · obtain ⟨x, hx, hx'⟩ := hval.int hty htype
      rw [(visit_select hx hx').1, hnone]
    · exact hcond hfails
  · obtain ⟨x, hx, hx'⟩ := (hcomputes c mem_cons_self).int hty htype
    obtain ⟨v, hv, hv'⟩ := hcomputes _ (mem_cons_of_mem c mem_cons_self)
    obtain ⟨hvis, heval⟩ := visit_select (t := t) (a := a) (b := b) hx hx'
    exact ⟨v, hvis.trans hv, heval.trans hv'⟩

end Steps

theorem visit_outcome {m : Model} {σ : Assignment} {o : Operation} (hty : o.WellTyped arithmetic)
    (hevaluable : AllEvaluated σ (Evaluable m σ) o) : Outcome m σ o := by
  induction o using Operation.induct with
  | mk d ops ih =>
    obtain ⟨⟨hgives, hdef⟩, hbelow⟩ := hevaluable
    obtain ⟨hd, -, hops⟩ := wellTyped_mk.mp hty
    have hty' : ∀ o ∈ ops, o.Interpreted :=
      fun o ho => (hops o ho).mono fun _ => interpreted_of_arithmetic
    have hout : ∀ o ∈ ops, o ∈ evaluated σ d ops → Outcome m σ o :=
      fun o ho hmem => ih o ho (hops o ho) (hbelow o hmem)
    obtain ⟨hshape, hbitvector⟩ := (hty.mono fun _ => interpreted_of_arithmetic).shape
    cases hshape with
    | symbol w s =>
      exact .mk (fun o ho => nomatch ho) (fun o ho => nomatch ho)
        fun _ => .inl ⟨trivial, computes_symbol w s hgives⟩
    | literal v =>
      exact .mk (fun o ho => nomatch ho) (fun o ho => nomatch ho)
        fun _ => .inl ⟨trivial, v, visit_mk _ _ _, eval_mk _ _ _⟩
    | @binary op w l r hl hr hop =>
      refine .pair (hout l (by simp) (by simp [evaluated])) (hout r (by simp) (by simp [evaluated]))
        ⟨hty' l (by simp), hl⟩ ⟨hty' r (by simp), hr⟩ rfl (fun b => rfl)
        (fun a => by cases a <;> rfl) fun x y hx hx' hy hy' => ?_
      refine .inl ⟨trivial, computes_binary hop hx hx' hy hy' ?_⟩
      simpa [hx', hy'] using hdef
    | @icmp cmp w l r hl hr =>
      refine .pair (hout l (by simp) (by simp [evaluated])) (hout r (by simp) (by simp [evaluated]))
        ⟨hty' l (by simp), hl⟩ ⟨hty' r (by simp), hr⟩ rfl (fun b => rfl)
        (fun a => by cases a <;> rfl) fun x y hx hx' hy hy' => ?_
      refine icmp_outcome ?_ hx hx' hy hy'
      cases cmp <;> first | exact .inl rfl | exact .inr rfl | cases hd
    | @not w o h =>
      refine .single (hout o (by simp) (by simp [evaluated])) ⟨hty' o (by simp), h⟩ ?_
      exact fun x hx hx' => .inl ⟨trivial, computes_not hx hx'⟩
    | @trunc w w' o h hle =>
      refine .single (hout o (by simp) (by simp [evaluated])) ⟨hty' o (by simp), h⟩ ?_
      exact fun x => resize_outcome h (.inl ⟨rfl, hle⟩)
    | @zext w w' o h hle =>
      refine .single (hout o (by simp) (by simp [evaluated])) ⟨hty' o (by simp), h⟩ ?_
      exact fun x => resize_outcome h (.inr ⟨.inl rfl, hle⟩)
    | @sext w w' o h hle =>
      refine .single (hout o (by simp) (by simp [evaluated])) ⟨hty' o (by simp), h⟩ ?_
      exact fun x => resize_outcome h (.inr ⟨.inr rfl, hle⟩)
    | @select t c a b hc ha hb =>
      have hchosen : (if (c.eval σ).toInt?.any (·.eqNat 1) then a else b) ∈ [c, a, b] := by
        split_ifs <;> simp
      exact select_outcome (hout c (by simp) (by simp [evaluated])) (hty' c (by simp)) hc
        (hout _ hchosen (by simp [evaluated]))
    | arraySymbol | fixedArray | alloc | store | load => cases hd
    | floatLiteral | functionObject | node | undef | floatBinary | fcmp => exact hbitvector.elim

theorem Asserts.not_castsLiteral {d : OperationData} {ops : List Operation} {σ : Assignment}
    (h : Asserts σ d ops) (hacc : d.accepts (ops.map Operation.type) = true) :
    ¬ OperationSimplifier.CastsLiteral d ops := by
  unfold OperationSimplifier.CastsLiteral
  split
  · rename_i op t a
    rintro ⟨hop, v, hv, hw⟩
    obtain ⟨os, rfl⟩ := OperationSimplifier.constantInt?_eq_some hv
    simp only [mem_cons, not_mem_nil, or_false] at hop
    cases OperationData.shape_of_accepts hacc with
    | trunc | zext | sext => exact h (congrArg Ty.int hw.symm)
    | _ => simp at hop
  · exact id

/-- The evaluation of an integer expression returns its value exactly if the comparisons evaluated
hold and the changes of width are proper. -/
theorem visit_computes_iff (m : Model) (σ : Assignment) (o : Operation)
    (htyped : o.WellTyped arithmetic) (hevaluable : AllEvaluated σ (Evaluable m σ) o) :
    (∃ v, visit m o = some (.int v) ∧ o.eval σ = .int v ∧ o.type = .int v.width ∧
      (o.data.isIntegerOp = true → ∀ cache, ∃ folded,
        Operation.create cache o.data o.operands = some folded ∧ folded.eval σ = .int v)) ↔
      AllEvaluated σ (Asserts σ) o := by
  have hty' : o.Interpreted :=
    htyped.mono fun _ => interpreted_of_arithmetic
  constructor
  · rintro ⟨v, hvis, -⟩
    obtain ⟨hasrt, -⟩ | ⟨-, hnone⟩ := visit_outcome htyped hevaluable
    · exact hasrt
    · rw [hnone] at hvis
      cases hvis
  · intro hasrt
    obtain ⟨-, v, hvis, heval⟩ | ⟨hnot, -⟩ := visit_outcome htyped hevaluable
    · refine ⟨v, hvis, heval, ?_, fun hop cache => ?_⟩
      · have hval := hty'.hasType σ
        rw [heval] at hval
        exact (Option.some.inj hval).symm
      · obtain ⟨d, ops⟩ := o
        obtain ⟨⟨-, hdef⟩, -⟩ := hevaluable
        obtain ⟨hhere, -⟩ := hasrt
        have hin := hty'.mono fun _ => OperationData.interpretedIn_of_interpreted σ
        obtain ⟨-, hacc, -⟩ := wellTyped_mk.mp hin
        obtain ⟨folded, hfolded⟩ : ∃ folded,
            OperationSimplifier.Preserves cache σ (.mk d ops) folded :=
          OperationSimplifier.exists_preserves hop hin hdef (hhere.not_castsLiteral hacc)
        refine ⟨folded, ?_, hfolded.value.trans heval⟩
        rw [Operation.create, data_mk, operands_mk, if_pos hacc, hfolded.visit]
    · exact absurd hasrt hnot

namespace Sample

def x : Operation := .mk (.constant (.int 8) (.named "x")) []

def byte (n : Nat) : Operation := .constantInt (APInt.ofNat 8 n)

def sum : Operation := .mk (.binary .add (.int 8)) [x, byte 1]

def sumIs (n : Nat) : Operation := .mk (.icmp .eq) [sum, byte n]

def three : Model := ⟨fun _ _ => .int ⟨8, 3⟩⟩

def σ : Assignment := ⟨fun _ w => BitVec.ofNat w 3, fun _ _ _ => 0, fun _ => .poison⟩

theorem allEvaluated_sumIs {P : NodeCondition} {n : Nat}
    (hsym : P (.constant (.int 8) (.named "x")) [])
    (hbyte : ∀ k, P (.constantInt (APInt.ofNat 8 k)) [])
    (hadd : P (.binary .add (.int 8)) [x, byte 1]) (hcmp : P (.icmp .eq) [sum, byte n]) :
    AllEvaluated σ P (sumIs n) := by
  have hb : ∀ k, AllEvaluated σ P (byte k) := fun k => .mk (hbyte k) fun o ho => nomatch ho
  have hx : AllEvaluated σ P x := .mk hsym fun o ho => nomatch ho
  have hsum : AllEvaluated σ P sum := by
    refine .mk hadd ?_
    simp only [evaluated, mem_cons, not_mem_nil, or_false, forall_eq_or_imp, forall_eq]
    exact ⟨hx, hb 1⟩
  refine .mk hcmp ?_
  simp only [evaluated, mem_cons, not_mem_nil, or_false, forall_eq_or_imp, forall_eq]
  exact ⟨hsum, hb n⟩

theorem sumIs_evaluable (n : Nat) : AllEvaluated σ (Evaluable three σ) (sumIs n) :=
  allEvaluated_sumIs ⟨.inl rfl, trivial⟩ (fun _ => ⟨trivial, trivial⟩) ⟨trivial, trivial⟩
    ⟨trivial, trivial⟩

end Sample

open ModelEvaluator.Sample in
theorem visit_computes_sum : ∃ v, visit three (sumIs 4) = some (.int v) ∧
    (sumIs 4).eval σ = .int v ∧ (sumIs 4).type = .int v.width := by
  obtain ⟨v, hvis, heval, htype, -⟩ :=
    (visit_computes_iff three σ (sumIs 4) (by decide) (sumIs_evaluable 4)).mpr
      (allEvaluated_sumIs trivial (fun _ => trivial) trivial rfl)
  exact ⟨v, hvis, heval, htype⟩

open ModelEvaluator.Sample in
/-- A comparison that does not hold is zero of width one, but no value is returned. -/
theorem visit_false_comparison : (sumIs 5).WellTyped arithmetic ∧
    AllEvaluated σ (Evaluable three σ) (sumIs 5) ∧ (sumIs 5).eval σ = .int ⟨1, 0⟩ ∧
    visit three (sumIs 5) = none :=
  ⟨by decide, sumIs_evaluable 5, rfl, by decide⟩

end ModelEvaluator

end Caffeine
