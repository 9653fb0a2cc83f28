import Caffeine.Solver.Solver

/-!
# Casts and operands given as integers

The constructors of `UnaryOp` that change the width of an integer, those of `BinaryOp` with an
integer as the right operand, and what they denote.
-/

namespace Caffeine

namespace Operation

variable (cache : OperationCache)

/-- The overloads of the constructors of `BinaryOp` with an integer as the right operand. -/
def createBinaryLiteral (op : BinaryOpcode) (lhs : Operation) (rhs : Nat) : Option Operation :=
  createBinary cache op lhs (constantInt (APInt.ofNat lhs.type.bitwidth rhs))

def createTrunc (tgt : Ty) (operand : Operation) : Option Operation :=
  create cache (.unary .trunc tgt) [operand]

def createZExt (tgt : Ty) (operand : Operation) : Option Operation :=
  create cache (.unary .zext tgt) [operand]

def createSExt (tgt : Ty) (operand : Operation) : Option Operation :=
  create cache (.unary .sext tgt) [operand]

def extractBit (op : Operation) (bit : Nat) : Option Operation := do
  guard (op.type.isInt = true ∧ bit < op.type.bitwidth)
  createTrunc cache (.int 1) (← createBinaryLiteral cache .lshr op bit)

end Operation

variable {w' : Nat} {l r : Operation}

namespace OperationSimplifier

open Operation

variable {σ : Assignment} {w : Nat} {cache : OperationCache} {o : Operation} {x : BitVec w}

theorem createUnary_returns {op : UnaryOpcode} {z : BitVec w'} (ho : Denotes σ o x)
    (ha : (OperationData.unary op (.int w')).accepts [.int w] = true)
    (hop : op ∈ [.not, .trunc, .zext, .sext]) (hcast : ¬ CastsLiteral (.unary op (.int w')) [o])
    (hz : Semantics.unary op (.int w') ⟨w, x⟩ = .int ⟨w', z⟩) :
    Returns σ (Operation.create cache (.unary op (.int w')) [o]) z := by
  have hd := denotes_unary ho ha hz
  obtain ⟨n, hn⟩ : ∃ n, Preserves cache σ _ n := visit_unary_preserves hd ho.type hop hcast
  exact ⟨n, hn.create hd.typed, hn.typed, hn.type, hn.value.trans hd.value⟩

theorem Denotes.not_castsLiteral {op : UnaryOpcode} (ho : Denotes σ o x) (hw : w ≠ w') :
    ¬ CastsLiteral (.unary op (.int w')) [o] := by
  rintro ⟨-, v, hv, hwidth⟩
  obtain ⟨-, rfl⟩ := ho.eq_constantInt hv
  exact hw hwidth

theorem createTrunc_returns (ho : Denotes σ o x) (hw : w' < w) :
    Returns σ (createTrunc cache (.int w') o) (x.setWidth w') :=
  createUnary_returns ho (by simp [OperationData.accepts, hw.le]) (by simp)
    (ho.not_castsLiteral hw.ne') rfl

theorem createZExt_returns (ho : Denotes σ o x) (hw : w < w') :
    Returns σ (createZExt cache (.int w') o) (x.setWidth w') :=
  createUnary_returns ho (by simp [OperationData.accepts, hw.le]) (by simp)
    (ho.not_castsLiteral hw.ne) rfl

theorem createSExt_returns (ho : Denotes σ o x) (hw : w < w') :
    Returns σ (createSExt cache (.int w') o) (x.signExtend w') :=
  createUnary_returns ho (by simp [OperationData.accepts, hw.le]) (by simp)
    (ho.not_castsLiteral hw.ne) rfl

theorem createBinaryLiteral_returns {op : BinaryOpcode} {z : BitVec w} (n : Nat)
    (ho : Denotes σ o x) (hz : Semantics.bitvec op x (BitVec.ofNat w n) = some z)
    (hdef : Semantics.DivisionDefined (.binary op (.int w)) [.int ⟨w, x⟩, .int (APInt.ofNat w n)]) :
    Returns σ (createBinaryLiteral cache op o n) z := by
  rw [createBinaryLiteral, ho.type]
  refine createBinary_returns_of_defined ho (denotes_constantInt _) hz ?_
  rw [ho.value]
  exact hdef

theorem lshr_trunc_eq_getLsbD {bit : Nat} (hbit : bit < w) :
    (x >>> BitVec.ofNat w bit).setWidth 1 = BitVec.ofBool (x.getLsbD bit) := by
  have hlt : bit < 2 ^ w := hbit.trans Nat.lt_two_pow_self
  ext i hi
  obtain rfl : i = 0 := Nat.lt_one_iff.mp hi
  simp [BitVec.getLsbD_ushiftRight, Nat.mod_eq_of_lt hlt]

theorem extractBit_returns {bit : Nat} (ho : Denotes σ o x) (hw : 1 < w) (hbit : bit < w) :
    Returns σ (extractBit cache o bit) (BitVec.ofBool (x.getLsbD bit)) := by
  rw [← lshr_trunc_eq_getLsbD hbit]
  simp only [extractBit, ho.type, Ty.isInt, Ty.bitwidth, hbit, and_self, guard, if_true]
  have hsh : Returns σ (createBinaryLiteral cache .lshr o bit) (x >>> BitVec.ofNat w bit) :=
    createBinaryLiteral_returns bit ho rfl trivial
  exact hsh.bind fun _ hs => createTrunc_returns hs hw

end OperationSimplifier

section Binary

open Operation OperationSimplifier

variable {σ : Assignment} {n : Nat} {cache : OperationCache}

theorem createAnd_returns {a b : Bool} (hl : Denotes σ l (BitVec.ofBool a))
    (hr : Denotes σ r (BitVec.ofBool b)) :
    Returns σ (createBinary cache .and l r) (BitVec.ofBool (a && b)) :=
  createBinary_returns hl hr rfl (congrArg some BitVec.ofBool_and_ofBool)

theorem createOr_returns {a b : Bool} (hl : Denotes σ l (BitVec.ofBool a))
    (hr : Denotes σ r (BitVec.ofBool b)) :
    Returns σ (createBinary cache .or l r) (BitVec.ofBool (a || b)) :=
  createBinary_returns hl hr rfl (congrArg some BitVec.ofBool_or_ofBool)

variable {x y : BitVec n}

theorem createAdd_returns (hl : Denotes σ l x) (hr : Denotes σ r y) :
    Returns σ (createBinary cache .add l r) (x + y) :=
  createBinary_returns hl hr rfl rfl

theorem createURem_returns (hl : Denotes σ l x) (hr : Denotes σ r y) (hy : y ≠ 0) :
    Returns σ (createBinary cache .urem l r) (x % y) := by
  refine createBinary_returns_of_defined hl hr rfl ?_
  rw [hl.value, hr.value]
  simpa [Semantics.DivisionDefined, APInt.isNullValue] using hy

theorem createSub_returns (hl : Denotes σ l x) (hr : Denotes σ r y) :
    Returns σ (createBinary cache .sub l r) (x - y) :=
  createBinary_returns hl hr rfl rfl

end Binary

end Caffeine
