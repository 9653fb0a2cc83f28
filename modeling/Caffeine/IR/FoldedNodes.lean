import Caffeine.IR.OperationSimplifier

/-!
# The nodes that folding builds

Whatever a visitor returns consists of nodes of the operands, of the operation itself, of literals
and of bitwise operations.
-/

namespace Caffeine

open Option

def Operation.AllNodes (Q : NodeCondition) : Operation → Prop :=
  AllReached (fun _ ops => ops) Q

variable {op : BinaryOpcode} {cache : OperationCache}

namespace OperationSimplifier

open Operation

def bitwise : List BinaryOpcode := [.and, .or, .shl, .lshr]

structure FoldClosed (Q : NodeCondition) : Prop where
  literal : ∀ v, Q (.constantInt v) []
  undef : ∀ t ops t', Q (.undef t) ops → Q (.undef t') []
  bitwise : ∀ op ∈ bitwise, ∀ t l r, Q (.binary op t) [l, r]

variable {Q : NodeCondition} {d : OperationData} {ops : List Operation}
  {l r o : Operation}

theorem allNodes_mk : AllNodes Q (.mk d ops) ↔ Q d ops ∧ ∀ o ∈ ops, AllNodes Q o :=
  ⟨fun ⟨here, below⟩ => ⟨here, below⟩, fun ⟨here, below⟩ => ⟨here, below⟩⟩

variable (hQ : FoldClosed Q)

include hQ

theorem allNodes_literal (v : APInt) : AllNodes Q (constantInt v) :=
  allNodes_mk.mpr ⟨hQ.literal v, fun _ h => absurd h List.not_mem_nil⟩

theorem allNodes_undef (ho : AllNodes Q o) (hu : isUndef o = true) (t : Ty) :
    AllNodes Q (.mk (.undef t) []) := by
  obtain ⟨d, ops⟩ := o
  obtain ⟨here, -⟩ := allNodes_mk.mp ho
  cases d with
  | undef t' => exact allNodes_mk.mpr ⟨hQ.undef t' ops t here, fun _ h => absurd h List.not_mem_nil⟩
  | _ => cases hu

theorem tryConstInt_nodes {fold : APInt → APInt → APInt} {otherwise : Option Operation}
    (h : tryConstInt l r fold otherwise = some o)
    (hother : ∀ o, otherwise = some o → AllNodes Q o) : AllNodes Q o := by
  unfold tryConstInt at h
  split at h
  · cases h
    exact allNodes_literal hQ _
  · exact hother o h

omit hQ

/-! ### What the visitors return -/

structure Split (l r value c₁ c₂ : Operation) : Prop where
  parts : ∀ P : Operation → Prop, (∀ op t a b, P (.mk (.binary op t) [a, b]) → P a ∧ P b) →
    P l → P r → P value ∧ P c₁ ∧ P c₂
  literals : (constantInt? c₁).isSome ∧ (constantInt? c₂).isSome
  cost : ∀ f : Operation → Nat, (∀ op t a b, f (.mk (.binary op t) [a, b]) = 1 + f a + f b) →
    1 + f value + f c₁ + f c₂ ≤ f l + f r

theorem matchBinary_eq_some {p : Operation × Operation} (h : matchBinary op o = some p) :
    ∃ t, o = .mk (.binary op t) [p.1, p.2] := by
  unfold matchBinary at h
  split at h
  · rename_i t l r
    split_ifs at h with hop
    cases h
    exact ⟨t, by rw [hop]⟩
  · cases h

theorem matchMask_eq_some {p : Operation × Operation} (h : matchMask o = some p) :
    (∃ t, o = .mk (.binary .and t) [p.1, p.2] ∨ o = .mk (.binary .and t) [p.2, p.1]) ∧
      (constantInt? p.1).isSome := by
  rcases (orElse_eq_some _ _ _).mp h with h | ⟨-, h⟩
  · obtain ⟨h, hlit⟩ := filter_eq_some_iff.mp h
    obtain ⟨t, ho⟩ := matchBinary_eq_some h
    exact ⟨⟨t, .inl ho⟩, hlit⟩
  · obtain ⟨q, hq, rfl⟩ := map_eq_some_iff.mp h
    obtain ⟨hq, hlit⟩ := filter_eq_some_iff.mp hq
    obtain ⟨t, ho⟩ := matchBinary_eq_some hq
    exact ⟨⟨t, .inr ho⟩, hlit⟩

theorem Split.symm {value c₁ c₂ : Operation} (h : Split l r value c₁ c₂) :
    Split r l value c₁ c₂ where
  parts P hP hl hr := h.parts P hP hr hl
  literals := h.literals
  cost f hf := (h.cost f hf).trans_eq (Nat.add_comm _ _)

theorem split_of_operand {value c : Operation} {t : Ty} (hl : (constantInt? l).isSome)
    (hc : (constantInt? c).isSome)
    (hr : r = .mk (.binary op t) [value, c] ∨ r = .mk (.binary op t) [c, value]) :
    Split l r value l c where
  parts P hP hl hr' := by
    rcases hr with rfl | rfl
    · obtain ⟨hv, hc⟩ := hP _ _ _ _ hr'
      exact ⟨hv, hl, hc⟩
    · obtain ⟨hc, hv⟩ := hP _ _ _ _ hr'
      exact ⟨hv, hl, hc⟩
  literals := ⟨hl, hc⟩
  cost f hf := by
    rcases hr with rfl | rfl <;> rw [hf] <;> omega

theorem split_of_matchShiftedMask {mask value shift : Operation}
    (h : matchShiftedMask l r = some (mask, value, shift)) : Split l r value mask shift := by
  rcases (orElse_eq_some _ _ _).mp h with h | ⟨-, h⟩
  all_goals
    split_ifs at h with hmask
    obtain ⟨q, hq, heq⟩ := map_eq_some_iff.mp h
    cases heq
    obtain ⟨hq, hsh⟩ := filter_eq_some_iff.mp hq
    obtain ⟨t, ho⟩ := matchBinary_eq_some hq
  · exact split_of_operand hmask hsh (.inl ho)
  · exact (split_of_operand hmask hsh (.inl ho)).symm

theorem split_of_matchTwoMasks {mask1 mask2 value : Operation}
    (h : matchTwoMasks l r = some (mask1, mask2, value)) : Split l r value mask1 mask2 := by
  unfold matchTwoMasks at h
  split_ifs at h with hmask hmask
  all_goals
    obtain ⟨q, hq, heq⟩ := map_eq_some_iff.mp h
    cases heq
    obtain ⟨⟨t, ho⟩, hlit⟩ := matchMask_eq_some hq
  · exact split_of_operand hmask hlit ho.symm
  · exact (split_of_operand hmask hlit ho.symm).symm

theorem split_of_commonValue {value1 mask1 value2 mask2 : Operation}
    (h1 : matchByConst .and l = some (value1, mask1))
    (h2 : matchByConst .and r = some (value2, mask2)) : Split l r value1 mask1 mask2 := by
  obtain ⟨h1, hlit1⟩ := filter_eq_some_iff.mp h1
  obtain ⟨h2, hlit2⟩ := filter_eq_some_iff.mp h2
  obtain ⟨t1, rfl⟩ := matchBinary_eq_some h1
  obtain ⟨t2, rfl⟩ := matchBinary_eq_some h2
  refine ⟨fun P hP hl hr => ?_, ⟨hlit1, hlit2⟩, fun f hf => ?_⟩
  · obtain ⟨hv, hm1⟩ := hP _ _ _ _ hl
    exact ⟨hv, hm1, (hP _ _ _ _ hr).2⟩
  · simp only [hf]
    omega

inductive BinaryFold (create : BinaryConstructor)
    (op : BinaryOpcode) (t : Ty) (l r : Operation) : Operation → Prop
  | left : BinaryFold create op t l r l
  | right : BinaryFold create op t l r r
  | undef (h : isUndef l = true ∨ isUndef r = true) :
    BinaryFold create op t l r (.mk (.undef t) [])
  | literal {v : APInt} (h : v.width = t.bitwidth ∨ ∃ a, constantInt? l = some a ∧
      v.width = a.width) :
    BinaryFold create op t l r (constantInt v)
  | keep (h : ¬ ((constantInt? l).isSome ∧ (constantInt? r).isSome)) :
    BinaryFold create op t l r (.mk (.binary op t) [l, r])
  | shifted {value mask shift m v o : Operation} (split : Split l r value mask shift)
    (mask : create .shl mask shift = some m) (value : create .and value m = some v)
    (result : create .lshr v shift = some o) : BinaryFold create op t l r o
  | masked {value c₁ c₂ m o : Operation} {join : BinaryOpcode} (split : Split l r value c₁ c₂)
    (hjoin : join ∈ bitwise) (mask : create join c₁ c₂ = some m)
    (result : create .and value m = some o) : BinaryFold create op t l r o
  | cleared {value c₁ c₂ o : Operation} {v : APInt} (split : Split l r value c₁ c₂)
    (width : v.width = t.bitwidth) (result : create .and value (constantInt v) = some o) :
    BinaryFold create op t l r o

section Binary

variable {create : BinaryConstructor} {t : Ty}
  {fold : APInt → APInt → APInt}

theorem binary_width (h : Value.binary op = some fold) (a b : APInt) :
    (fold a b).width = a.width := by
  cases op <;> cases h
  case udiv =>
    unfold Value.bvudiv
    split_ifs <;> rfl
  case sdiv =>
    unfold Value.bvsdiv
    split_ifs <;> rfl
  case urem =>
    unfold Value.bvurem
    split_ifs <;> rfl
  case srem =>
    unfold Value.bvsrem
    split_ifs <;> rfl
  all_goals rfl

theorem tryConstInt_folds (op' : BinaryOpcode) (hfold : Value.binary op' = some fold)
    {otherwise : Option Operation} (h : tryConstInt l r fold otherwise = some o)
    (hother : ¬ ((constantInt? l).isSome ∧ (constantInt? r).isSome) → otherwise = some o →
      BinaryFold create op t l r o) : BinaryFold create op t l r o := by
  unfold tryConstInt at h
  split at h
  · rename_i a b ha hb
    cases h
    exact .literal (.inr ⟨a, ha, binary_width hfold a b⟩)
  · rename_i hnot
    refine hother (fun ⟨hl, hr⟩ => ?_) h
    obtain ⟨a, ha⟩ := isSome_iff_exists.mp hl
    obtain ⟨b, hb⟩ := isSome_iff_exists.mp hr
    exact hnot a b ha hb

theorem visitAnd_folds (h : visitAnd create t l r = some o) : BinaryFold create .and t l r o := by
  unfold visitAnd at h
  split_ifs at h
  · exact some.inj h ▸ .left
  · exact some.inj h ▸ .right
  · exact some.inj h ▸ .right
  · exact some.inj h ▸ .left
  · refine tryConstInt_folds .and rfl h fun hnot h => ?_
    split at h
    · rename_i hmatch
      simp only [bind_eq_some] at h
      obtain ⟨m, hm, v, hv, h⟩ := h
      exact .shifted (split_of_matchShiftedMask hmatch) hm hv h
    · split at h
      · rename_i hmatch
        simp only [bind_eq_some] at h
        obtain ⟨m, hm, h⟩ := h
        exact .masked (split_of_matchTwoMasks hmatch) (by decide) hm h
      · exact some.inj h ▸ .keep hnot

theorem visitOr_folds (h : visitOr cache create t l r = some o) :
    BinaryFold create .or t l r o := by
  unfold visitOr at h
  split_ifs at h
  · exact some.inj h ▸ .right
  · exact some.inj h ▸ .left
  · exact some.inj h ▸ .left
  · exact some.inj h ▸ .right
  · refine tryConstInt_folds .or rfl h fun hnot h => ?_
    split at h
    · rename_i hm1 hm2
      split_ifs at h
      · simp only [bind_eq_some] at h
        obtain ⟨m, hm, h⟩ := h
        exact .masked (split_of_commonValue hm1 hm2) (by decide) hm h
      · exact some.inj h ▸ .keep hnot
    · exact some.inj h ▸ .keep hnot

theorem visitShl_folds (h : visitShl create t l r = some o) : BinaryFold create .shl t l r o := by
  unfold visitShl at h
  split_ifs at h
  · exact some.inj h ▸ .left
  · refine tryConstInt_folds .shl rfl h fun hnot h => ?_
    split at h
    · rename_i value rshift lv hm hlv
      simp only at h
      split_ifs at h
      · obtain ⟨hm, hlit⟩ := filter_eq_some_iff.mp hm
        obtain ⟨t', ho⟩ := matchBinary_eq_some hm
        exact .cleared (split_of_operand (by rw [hlv]; rfl) hlit (.inl ho)).symm rfl h
      · exact some.inj h ▸ .keep hnot
    · exact some.inj h ▸ .keep hnot

theorem visitBinary_folds (h : visitBinary cache create op t l r = some o) :
    BinaryFold create op t l r o := by
  have hfold : ∀ fold, Value.binary op = some fold →
      tryConstInt l r fold (visitBinaryOp op t l r) = some o → BinaryFold create op t l r o :=
    fun fold hfold h => tryConstInt_folds op hfold h fun hnot h => some.inj h ▸ .keep hnot
  cases op
  case and => exact visitAnd_folds h
  case or => exact visitOr_folds h
  case shl => exact visitShl_folds h
  -- the others return an operand, `Undef`, a literal or what `tryConstInt` leaves
  all_goals
    simp only [visitBinary, visitAdd, visitSub, visitMul, visitUDiv, visitSDiv, visitURem,
      visitSRem, visitXor, visitLShr, visitAShr, reduceCtorEq] at h
    repeat' split at h
  all_goals
    first
    | exact some.inj h ▸ .left
    | exact some.inj h ▸ .right
    | exact some.inj h ▸ .undef ((Bool.or_eq_true _ _).mp (by assumption))
    | cases h; done
    | exact some.inj h ▸ .literal (.inl rfl)
    | exact hfold _ rfl h

end Binary

inductive UnaryFold (create : BinaryConstructor)
    (op : UnaryOpcode) (t : Ty) (o : Operation) : Operation → Prop
  | literal {v : APInt} (h : v.width = t.bitwidth ∨
      op = .not ∧ ∃ a, constantInt? o = some a ∧ v.width = a.width) :
    UnaryFold create op t o (constantInt v)
  | operand (h : t = o.type) : UnaryFold create op t o o
  | inner {t' : Ty} {x : Operation} (hop : op = .not) (ho : o = .mk (.unary .not t') [x]) :
    UnaryFold create op t o x
  | keep (h : op = .not ∨ t ≠ o.type) : UnaryFold create op t o (.mk (.unary op t) [o])
  | mask {t' : Ty} {x n : Operation} {v : APInt} (hop : op = .zext)
    (ho : o = .mk (.unary .trunc t') [x]) (hx : t.bitwidth = x.type.bitwidth)
    (width : v.width = t.bitwidth) (result : create .and x (constantInt v) = some n) :
    UnaryFold create op t o n

theorem visitUnary_folds {create : BinaryConstructor} {op : UnaryOpcode} {t : Ty}
    {operand : Operation} (h : visitUnary create op t operand = some o) :
    UnaryFold create op t operand o := by
  cases op
  case not =>
    simp only [visitUnary, visitNot] at h
    split at h
    · exact some.inj h ▸ .literal (.inr ⟨rfl, _, rfl, rfl⟩)
    · exact some.inj h ▸ .inner rfl rfl
    · exact some.inj h ▸ .keep (.inl rfl)
  all_goals
    simp only [visitUnary, visitTrunc, visitZExt, visitSExt, reduceCtorEq] at h
    repeat' split at h
  all_goals
    first
    | exact .mask rfl rfl (by assumption) rfl h
    | cases h; done
    | exact some.inj h ▸ .literal (.inl rfl)
    | exact some.inj h ▸ .operand (by assumption)
    | exact some.inj h ▸ .keep (.inr (by assumption))

/-! ### Their nodes -/

include hQ

theorem BinaryFold.nodes {create : BinaryConstructor}
    (hc : ∀ op ∈ bitwise, ∀ l r o, AllNodes Q l → AllNodes Q r → create op l r = some o →
      AllNodes Q o) {t : Ty} (hl : AllNodes Q l) (hr : AllNodes Q r) (hd : Q (.binary op t) [l, r])
    (h : BinaryFold create op t l r o) : AllNodes Q o := by
  have hspl : ∀ {value c₁ c₂}, Split l r value c₁ c₂ →
      AllNodes Q value ∧ AllNodes Q c₁ ∧ AllNodes Q c₂ := by
    refine fun split => split.parts (AllNodes Q) (fun op t a b h => ?_) hl hr
    obtain ⟨-, hops⟩ := allNodes_mk.mp h
    exact ⟨hops a (by simp), hops b (by simp)⟩
  cases h with
  | left => exact hl
  | right => exact hr
  | undef hu => exact hu.elim (allNodes_undef hQ hl · t) (allNodes_undef hQ hr · t)
  | literal => exact allNodes_literal hQ _
  | keep => exact allNodes_mk.mpr ⟨hd, by simpa using ⟨hl, hr⟩⟩
  | shifted split hm hv h =>
    obtain ⟨hval, hmask, hsh⟩ := hspl split
    have hm := hc _ (by decide) _ _ _ hmask hsh hm
    exact hc _ (by decide) _ _ _ (hc _ (by decide) _ _ _ hval hm hv) hsh h
  | masked split hjoin hm h =>
    obtain ⟨hval, h1, h2⟩ := hspl split
    exact hc _ (by decide) _ _ _ hval (hc _ hjoin _ _ _ h1 h2 hm) h
  | cleared split _ h =>
    exact hc _ (by decide) _ _ _ (hspl split).1 (allNodes_literal hQ _) h

theorem create_nodes (cache : OperationCache) (fuel : Nat) : ∀ op ∈ bitwise, ∀ l r o, AllNodes Q l →
    AllNodes Q r → create cache fuel op l r = some o → AllNodes Q o := by
  induction fuel with
  | zero =>
    intro op _ l r o _ _ h
    cases h
  | succ fuel ih =>
    intro op hop l r o hl hr h
    rw [create] at h
    split_ifs at h
    exact (visitBinary_folds h).nodes hQ ih hl hr (hQ.bitwise op hop _ _ _)

theorem UnaryFold.nodes {create : BinaryConstructor}
    (hc : ∀ op ∈ bitwise, ∀ l r o, AllNodes Q l → AllNodes Q r → create op l r = some o →
      AllNodes Q o) {op : UnaryOpcode} {t : Ty} {operand : Operation}
    (hd : Q (.unary op t) [operand]) (ho : AllNodes Q operand)
    (h : UnaryFold create op t operand o) : AllNodes Q o := by
  cases h with
  | literal => exact allNodes_literal hQ _
  | operand => exact ho
  | inner _ hnot => exact (allNodes_mk.mp (hnot ▸ ho)).2 _ List.mem_cons_self
  | keep => exact allNodes_mk.mpr ⟨hd, by simpa using ho⟩
  | mask _ htrunc _ _ h =>
    exact hc _ (by decide) _ _ _ ((allNodes_mk.mp (htrunc ▸ ho)).2 _ List.mem_cons_self)
      (allNodes_literal hQ _) h

theorem visit_nodes (hd : Q d ops) (hops : ∀ o ∈ ops, AllNodes Q o)
    (h : visit cache (.mk d ops) = some o) : AllNodes Q o := by
  have hkeep : AllNodes Q (.mk d ops) := allNodes_mk.mpr ⟨hd, hops⟩
  have hc := create_nodes hQ cache (Operation.mk d ops).size
  unfold visit at h
  split at h
  · rename_i heq
    cases heq
    exact (visitBinary_folds h).nodes hQ hc (hops _ (by simp)) (hops _ (by simp)) hd
  · rename_i heq
    cases heq
    refine tryConstInt_nodes hQ h (fun o h => ?_)
    split_ifs at h with hsame hu
    · exact some.inj h ▸ allNodes_undef hQ (hops _ (by simp)) hu _
    · exact some.inj h ▸ allNodes_literal hQ _
    · exact some.inj h ▸ hkeep
  · rename_i heq
    cases heq
    exact (visitUnary_folds h).nodes hQ hc hd (hops _ (by simp))
  · rename_i heq
    cases heq
    unfold visitSelectOp at h
    repeat' split at h
    · exact some.inj h ▸ hops _ (by simp)
    · exact some.inj h ▸ hops _ (by simp)
    · exact some.inj h ▸ hops _ (by simp)
    · exact some.inj h ▸ hkeep
  · cases h

end OperationSimplifier

end Caffeine
