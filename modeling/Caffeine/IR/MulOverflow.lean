import Caffeine.IR.OperationBuilder
import Caffeine.Util.ProductBits

/-!
# Overflow of multiplications

`CreateUMulOverflow` and `CreateSMulOverflow` build a boolean expression that tells whether a
multiplication overflows, from an or-prefix network over the bits of the factors and a product one
bit wider. The signed circuit runs the network, one bit narrower, over the factors xored with their
signs.
-/

namespace Caffeine

namespace Operation

variable (cache : OperationCache)

/-- One pass: `o` collects the leading bits of `a`, `v` whether one of them meets a bit of `b`. -/
def overflowStep (a b : Operation) (m : Nat) (ov : Operation × Operation) (i : Nat) :
    Option (Operation × Operation) := do
  let o ← createBinary cache .or ov.1 (← extractBit cache a (m - i))
  let v ← createBinary cache .or ov.2 (← createBinary cache .and o (← extractBit cache b i))
  some (o, v)

def overflowNetwork (a b : Operation) (m : Nat) : Option Operation := do
  let o ← extractBit cache a (m - 1)
  let v ← createBinary cache .and (← extractBit cache a (m - 1)) (← extractBit cache b 1)
  let ov ← (List.range' 2 (m - 2)).foldlM (overflowStep cache a b m) (o, v)
  some ov.2

def createUMulOverflow (a b : Operation) : Option Operation := do
  guard (a.type = b.type ∧ a.type.isInt = true)
  let bitwidth := a.type.bitwidth
  if bitwidth < 2 then some (constantInt (APInt.ofBool false))
  else
    let v ← overflowNetwork cache a b bitwidth
    let mult ← createBinary cache .mul (← createZExt cache (.int (bitwidth + 1)) a)
      (← createZExt cache (.int (bitwidth + 1)) b)
    createBinary cache .or v (← extractBit cache mult bitwidth)

def createSMulOverflow (a b : Operation) : Option Operation := do
  guard (a.type = b.type ∧ a.type.isInt = true)
  let bitwidth := a.type.bitwidth
  -- The circuit does not work for 1-bit integers.
  if bitwidth < 2 then createBinary cache .and a b
  else
    let ax ← createBinary cache .xor (← createBinaryLiteral cache .ashr a (bitwidth - 1)) a
    let bx ← createBinary cache .xor (← createBinaryLiteral cache .ashr b (bitwidth - 1)) b
    let v ← overflowNetwork cache ax bx (bitwidth - 1)
    let sign ← createICmp cache .eq (← extractBit cache a (bitwidth - 1))
      (← extractBit cache b (bitwidth - 1))
    let mult ← createBinary cache .mul (← createSExt cache (.int (bitwidth + 1)) a)
      (← createSExt cache (.int (bitwidth + 1)) b)
    let overflow1 ← createBinary cache .xor (← extractBit cache mult bitwidth)
      (← extractBit cache mult (bitwidth - 1))
    createBinary cache .and sign (← createBinary cache .or overflow1 v)

end Operation

namespace MulOverflow

open Operation OperationSimplifier ProductBits

variable {σ : Assignment} {cache : OperationCache} {n m : Nat} {a b : Operation} {x y : BitVec n}

structure Network (σ : Assignment) (x y m i : Nat) (ov : Operation × Operation) : Prop where
  lead : Denotes σ ov.1 (BitVec.ofBool (decide (2 ^ (m - i) ≤ x)))
  meet : Denotes σ ov.2 (BitVec.ofBool (decide (Meet m i x y)))

theorem overflowStep_network (cache : OperationCache) (ha : Denotes σ a x) (hb : Denotes σ b y)
    {i : Nat} (hi : i + 1 < m) (hm : m ≤ n) {ov : Operation × Operation}
    (hov : Network σ x.toNat y.toNat m i ov) :
    ∃ ov', overflowStep cache a b m ov (i + 1) = some ov' ∧
      Network σ x.toNat y.toNat m (i + 1) ov' := by
  obtain ⟨bit, hbit, hbitd⟩ : Returns σ (extractBit cache a (m - (i + 1))) _ :=
    extractBit_returns ha (by omega) (by omega)
  obtain ⟨o, ho, hod⟩ : Returns σ (createBinary cache .or ov.1 bit) _ :=
    createOr_returns hov.lead hbitd
  obtain ⟨other, hother, hotherd⟩ : Returns σ (extractBit cache b (i + 1)) _ :=
    extractBit_returns hb (by omega) (by omega)
  obtain ⟨both, hboth, hbothd⟩ : Returns σ (createBinary cache .and o other) _ :=
    createAnd_returns hod hotherd
  obtain ⟨v, hv, hvd⟩ : Returns σ (createBinary cache .or ov.2 both) _ :=
    createOr_returns hov.meet hbothd
  have hlead : (decide (2 ^ (m - i) ≤ x.toNat) || x.getLsbD (m - (i + 1))) =
      decide (2 ^ (m - (i + 1)) ≤ x.toNat) := by
    have hnext : m - (i + 1) + 1 = m - i := by omega
    have hiff := two_pow_le_iff (x := x.toNat) (j := m - (i + 1))
    rw [hnext] at hiff
    rw [Bool.eq_iff_iff]
    simp only [Bool.or_eq_true, decide_eq_true_eq, ← BitVec.testBit_toNat, hiff]
  rw [hlead] at hod hvd
  refine ⟨(o, v), ?_, hod, ?_⟩
  · simp only [overflowStep, hbit, ho, hother, hboth, hv, some_bind]
  · have hmeet : (decide (Meet m i x.toNat y.toNat) ||
        (decide (2 ^ (m - (i + 1)) ≤ x.toNat) && y.getLsbD (i + 1))) =
        decide (Meet m (i + 1) x.toNat y.toNat) := by
      rw [Bool.eq_iff_iff]
      simp only [Bool.or_eq_true, Bool.and_eq_true, decide_eq_true_eq, ← BitVec.testBit_toNat,
        meet_succ, and_comm]
    rwa [hmeet] at hvd

theorem overflowLoop_network (cache : OperationCache) (ha : Denotes σ a x) (hb : Denotes σ b y)
    (hm : m ≤ n) {ov : Operation × Operation} (hov : Network σ x.toNat y.toNat m 1 ov) (count : Nat)
    (hcnt : count ≤ m - 2) :
    ∃ ov', (List.range' 2 count).foldlM (overflowStep cache a b m) ov = some ov' ∧
      Network σ x.toNat y.toNat m (count + 1) ov' := by
  induction count with
  | zero => exact ⟨ov, rfl, hov⟩
  | succ count ih =>
    obtain ⟨ov₁, hrun, h₁⟩ := ih (Nat.le_of_succ_le hcnt)
    obtain ⟨ov₂, hstep, h₂⟩ :=
      overflowStep_network cache ha hb (by omega) hm h₁
    refine ⟨ov₂, ?_, h₂⟩
    rw [List.range'_1_concat, List.foldlM_append, hrun, Nat.add_comm 2 count]
    simp [hstep]

theorem overflowNetwork_returns (ha : Denotes σ a x) (hb : Denotes σ b y) (hpos : 0 < m)
    (hm : m ≤ n) (hn : 2 ≤ n) (hx : x.toNat < 2 ^ m) (hy : y.toNat < 2 ^ m) :
    Returns σ (overflowNetwork cache a b m)
      (BitVec.ofBool (decide (Meet m (m - 1) x.toNat y.toNat))) := by
  obtain ⟨o, ho, hod⟩ : Returns σ (extractBit cache a (m - 1)) _ :=
    extractBit_returns ha (by omega) (by omega)
  obtain ⟨bit, hbit, hbitd⟩ : Returns σ (extractBit cache b 1) _ :=
    extractBit_returns hb (by omega) (by omega)
  obtain ⟨v, hv, hvd⟩ : Returns σ (createBinary cache .and o bit) _ :=
    createAnd_returns hod hbitd
  have hlead : x.getLsbD (m - 1) = decide (2 ^ (m - 1) ≤ x.toNat) := by
    have hnext : m - 1 + 1 = m := by omega
    rw [Bool.eq_iff_iff, decide_eq_true_iff, ← BitVec.testBit_toNat]
    exact testBit_iff_of_lt (hnext.symm ▸ hx)
  have hmeet : (decide (2 ^ (m - 1) ≤ x.toNat) && y.getLsbD 1) =
      decide (Meet m 1 x.toNat y.toNat) := by
    rw [Bool.eq_iff_iff]
    simp only [Bool.and_eq_true, decide_eq_true_eq, ← BitVec.testBit_toNat, meet_one, and_comm]
  rw [hlead] at hod hvd
  rw [hmeet] at hvd
  have hstart : Network σ x.toNat y.toNat m 1 (o, v) := ⟨hod, hvd⟩
  obtain ⟨ov, hov, hdone⟩ := overflowLoop_network cache ha hb hm hstart (m - 2) le_rfl
  refine ⟨ov.2, ?_, ?_⟩
  · simp only [overflowNetwork, ho, hbit, hv, hov, some_bind]
  · have hlast : decide (Meet m (m - 2 + 1) x.toNat y.toNat) =
        decide (Meet m (m - 1) x.toNat y.toNat) :=
      decide_eq_decide.mpr (meet_iff_of_lt hy (by omega))
    exact hlast ▸ hdone.meet

/-! ### The unsigned circuit -/

theorem toNat_setWidth_mul (x y : BitVec n) :
    (x.setWidth (n + 1) * y.setWidth (n + 1)).toNat = x.toNat * y.toNat % 2 ^ (n + 1) := by
  rw [BitVec.toNat_mul, BitVec.toNat_setWidth_of_le n.le_succ,
    BitVec.toNat_setWidth_of_le n.le_succ]

theorem umulCircuit_eq (x y : BitVec n) : (decide (Meet n (n - 1) x.toNat y.toNat) ||
      (x.setWidth (n + 1) * y.setWidth (n + 1)).getLsbD n) =
      decide (2 ^ n ≤ x.toNat * y.toNat) := by
  rw [← BitVec.testBit_toNat, toNat_setWidth_mul]
  by_cases hmeet : Meet n (n - 1) x.toNat y.toNat
  · rw [decide_eq_true hmeet, Bool.true_or, decide_eq_true hmeet.le_mul]
  · have hle := succ_mul_succ_le x.isLt y.isLt hmeet
    have hlt : x.toNat * y.toNat < 2 ^ (n + 1) :=
      lt_of_lt_of_le (Nat.mul_lt_mul'' (Nat.lt_succ_self _) (Nat.lt_succ_self _)) hle
    rw [decide_eq_false hmeet, Bool.false_or, Nat.mod_eq_of_lt hlt, Bool.eq_iff_iff,
      decide_eq_true_iff, testBit_iff_of_lt hlt]

theorem mul_lt_two_pow_of_lt_two (hn : n < 2) (x y : BitVec n) : x.toNat * y.toNat < 2 ^ n := by
  have hx : x.toNat ≤ 2 ^ n - 1 := Nat.le_pred_of_lt x.isLt
  have hy : y.toNat ≤ 2 ^ n - 1 := Nat.le_pred_of_lt y.isLt
  refine lt_of_le_of_lt (Nat.mul_le_mul hx hy) ?_
  obtain rfl | rfl : n = 0 ∨ n = 1 := by omega
  · decide
  · decide

theorem createUMulOverflow_returns (ha : Denotes σ a x) (hb : Denotes σ b y) :
    Returns σ (createUMulOverflow cache a b)
      (BitVec.ofBool (decide (2 ^ n ≤ x.toNat * y.toNat))) := by
  simp only [createUMulOverflow, ha.type, hb.type, Ty.isInt, Ty.bitwidth, and_self, guard, if_true]
  by_cases hn : n < 2
  · rw [decide_eq_false (Nat.not_le.mpr (mul_lt_two_pow_of_lt_two hn x y)), if_pos hn]
    exact (denotes_constantInt _).returns
  · rw [← umulCircuit_eq, if_neg hn]
    refine (overflowNetwork_returns ha hb (by omega) le_rfl (by omega) x.isLt y.isLt).bind
      fun v hv => (createZExt_returns ha n.lt_succ_self).bind fun a' ha' =>
        (createZExt_returns hb n.lt_succ_self).bind fun b' hb' => ?_
    exact (createBinary_returns ha' hb' rfl rfl).bind fun _ hmult =>
      (extractBit_returns hmult (by omega) n.lt_succ_self).bind fun _ hbit =>
        createOr_returns hv hbit

/-- Unsigned multiplication overflow detection is exact. -/
theorem createUMulOverflow_eq_one_iff (cache : OperationCache) (σ : Assignment) (n : Nat)
    (a b : Operation) (x y : BitVec n) (ha : Denotes σ a x) (hb : Denotes σ b y) :
    ∃ o, createUMulOverflow cache a b = some o ∧ o.type = .bool ∧
      (o.eval σ = .int ⟨1, 1⟩ ↔ 2 ^ n ≤ x.toNat * y.toNat) := by
  obtain ⟨o, ho, hd⟩ : Returns σ (createUMulOverflow cache a b) _ :=
    createUMulOverflow_returns ha hb
  refine ⟨o, ho, hd.type, ?_⟩
  rw [hd.value]
  by_cases hover : 2 ^ n ≤ x.toNat * y.toNat <;> simp [hover]

theorem createUMulOverflow_sixteen_squared :
    let sixteen := constantInt ⟨8, 16⟩
    ∃ o, createUMulOverflow .full sixteen sixteen = some o ∧ o.eval default = .int ⟨1, 1⟩ := by
  obtain ⟨o, ho, -, hiff⟩ := createUMulOverflow_eq_one_iff .full default 8 (constantInt ⟨8, 16⟩)
    (constantInt ⟨8, 16⟩) 16 16 (denotes_constantInt 16) (denotes_constantInt 16)
  exact ⟨o, ho, hiff.mpr (by decide)⟩

/-! ### The signed circuit -/

def signFolded (x : BitVec n) : BitVec n := x.sshiftRight' (BitVec.ofNat n (n - 1)) ^^^ x

theorem sshiftRight_pred (hn : 0 < n) (x : BitVec n) :
    x.sshiftRight (n - 1) = if x.msb then BitVec.allOnes n else 0#n := by
  refine BitVec.eq_of_getLsbD_eq fun i hi => ?_
  have hbit : (if n - 1 + i < n then x.getLsbD (n - 1 + i) else x.msb) = x.msb := by
    split_ifs with hlt
    · rw [show n - 1 + i = n - 1 by omega, BitVec.msb_eq_getLsbD_last]
    · rfl
  rw [BitVec.getLsbD_sshiftRight, hbit]
  cases x.msb <;> simp [hi]

theorem toNat_signFolded (hn : 0 < n) (x : BitVec n) :
    ((signFolded x).toNat : Int) = if x.msb then -x.toInt - 1 else x.toInt := by
  have hlt : n - 1 < 2 ^ n := lt_of_lt_of_le (by omega) Nat.lt_two_pow_self.le
  have hsh : x.sshiftRight' (BitVec.ofNat n (n - 1)) = x.sshiftRight (n - 1) := by
    rw [BitVec.sshiftRight', BitVec.toNat_ofNat, Nat.mod_eq_of_lt hlt]
  rw [signFolded, hsh, sshiftRight_pred hn, BitVec.toInt_eq_msb_cond]
  have hx := x.isLt
  cases hmsb : x.msb
  · simp
  · simp only [if_true, BitVec.allOnes_xor, BitVec.toNat_not]
    omega

theorem signFolded_lt (hn : 0 < n) (x : BitVec n) : (signFolded x).toNat < 2 ^ (n - 1) := by
  have hfold := toNat_signFolded hn x
  have hlow := BitVec.le_toInt x
  have hhigh := BitVec.toInt_lt (x := x)
  have hlt : ((signFolded x).toNat : Int) < 2 ^ (n - 1) := by
    split_ifs at hfold <;> omega
  exact_mod_cast hlt

/-- The product is that of the folded factors, increased by one when they are negative. -/
theorem toInt_mul_toInt (hn : 0 < n) (hsign : x.msb = y.msb) : x.toInt * y.toInt =
    (((signFolded x).toNat + x.msb.toNat) * ((signFolded y).toNat + x.msb.toNat) : Nat) := by
  have hx := toNat_signFolded hn x
  have hy := toNat_signFolded hn y
  rw [← hsign] at hy
  push_cast
  rw [hx, hy]
  cases x.msb
  · simp
  · simp

theorem toInt_mul_toInt_nonpos (hsign : x.msb ≠ y.msb) : x.toInt * y.toInt ≤ 0 := by
  have hx := BitVec.msb_eq_toInt (x := x)
  have hy := BitVec.msb_eq_toInt (x := y)
  by_cases hneg : x.toInt < 0
  · have hpos : ¬ y.toInt < 0 := fun h => hsign (by rw [hx, hy]; simp [hneg, h])
    exact Int.mul_nonpos_of_nonpos_of_nonneg hneg.le (not_lt.mp hpos)
  · have hother : y.toInt < 0 := by
      by_contra h
      exact hsign (by rw [hx, hy]; simp [hneg, h])
    exact Int.mul_nonpos_of_nonneg_of_nonpos (not_lt.mp hneg) hother.le

theorem signExtend_mul (x y : BitVec n) :
    x.signExtend (n + 1) * y.signExtend (n + 1) = BitVec.ofInt (n + 1) (x.toInt * y.toInt) :=
  (BitVec.ofInt_mul x.toInt y.toInt).symm

theorem smulCircuit_eq (hn : 2 ≤ n) (x y : BitVec n) : ((x.getLsbD (n - 1) == y.getLsbD (n - 1)) &&
      (((x.signExtend (n + 1) * y.signExtend (n + 1)).getLsbD n ^^
        (x.signExtend (n + 1) * y.signExtend (n + 1)).getLsbD (n - 1)) ||
      decide (Meet (n - 1) (n - 1 - 1) (signFolded x).toNat (signFolded y).toNat))) =
    decide ((2 : Int) ^ (n - 1) ≤ x.toInt * y.toInt) := by
  have hpos : 0 < n := by omega
  rw [← BitVec.msb_eq_getLsbD_last, ← BitVec.msb_eq_getLsbD_last, signExtend_mul]
  by_cases hsign : x.msb = y.msb
  · rw [beq_iff_eq.mpr hsign, Bool.true_and]
    have hprod := toInt_mul_toInt hpos hsign
    have hone : x.msb.toNat ≤ 1 := Bool.toNat_le x.msb
    have hle : (signFolded x).toNat * (signFolded y).toNat ≤
        ((signFolded x).toNat + x.msb.toNat) * ((signFolded y).toNat + x.msb.toNat) :=
      Nat.mul_le_mul (Nat.le_add_right _ _) (Nat.le_add_right _ _)
    have hge : ((signFolded x).toNat + x.msb.toNat) * ((signFolded y).toNat + x.msb.toNat) ≤
        ((signFolded x).toNat + 1) * ((signFolded y).toNat + 1) :=
      Nat.mul_le_mul (Nat.add_le_add_left hone _) (Nat.add_le_add_left hone _)
    generalize ((signFolded x).toNat + x.msb.toNat) * ((signFolded y).toNat + x.msb.toNat) = p
      at hprod hle hge
    have hcast : decide ((2 : Int) ^ (n - 1) ≤ p) = decide (2 ^ (n - 1) ≤ p) :=
      decide_eq_decide.mpr (by exact_mod_cast Iff.rfl)
    rw [hprod, hcast, BitVec.ofInt_natCast, BitVec.getLsbD_ofNat, BitVec.getLsbD_ofNat,
      decide_eq_true n.lt_succ_self, decide_eq_true (show n - 1 < n + 1 by omega), Bool.true_and,
      Bool.true_and]
    by_cases hmeet : Meet (n - 1) (n - 1 - 1) (signFolded x).toNat (signFolded y).toNat
    · rw [decide_eq_true hmeet, Bool.or_true, decide_eq_true (hmeet.le_mul.trans hle)]
    · have hsmall : p ≤ 2 ^ (n - 1 + 1) :=
        hge.trans (succ_mul_succ_le (signFolded_lt hpos x) (signFolded_lt hpos y) hmeet)
      have hbits := testBit_bne_iff hsmall
      rw [Nat.sub_add_cancel hpos] at hbits
      rw [decide_eq_false hmeet, Bool.or_false, Bool.eq_iff_iff, decide_eq_true_iff, hbits]
  · have hneg : ¬ (2 : Int) ^ (n - 1) ≤ x.toInt * y.toInt := by
      have hle := toInt_mul_toInt_nonpos hsign
      have hpow : (0 : Int) < 2 ^ (n - 1) := Int.pow_pos (by decide)
      omega
    rw [beq_eq_false_iff_ne.mpr hsign, Bool.false_and, decide_eq_false hneg]

theorem and_eq_of_one (x y : BitVec 1) :
    x &&& y = BitVec.ofBool (decide ((2 : Int) ^ (1 - 1) ≤ x.toInt * y.toInt)) := by
  revert x y
  decide

theorem createXor_returns {t u : Bool} (ha : Denotes σ a (BitVec.ofBool t))
    (hb : Denotes σ b (BitVec.ofBool u)) :
    Returns σ (createBinary cache .xor a b) (BitVec.ofBool (t ^^ u)) :=
  createBinary_returns ha hb rfl (congrArg some BitVec.ofBool_xor_ofBool)

theorem createSMulOverflow_returns (hn : 0 < n) (ha : Denotes σ a x) (hb : Denotes σ b y) :
    Returns σ (createSMulOverflow cache a b)
      (BitVec.ofBool (decide ((2 : Int) ^ (n - 1) ≤ x.toInt * y.toInt))) := by
  simp only [createSMulOverflow, ha.type, hb.type, Ty.isInt, Ty.bitwidth, and_self, guard, if_true]
  by_cases hsmall : n < 2
  · obtain rfl : n = 1 := by omega
    rw [if_pos hsmall, ← and_eq_of_one]
    exact createBinary_returns ha hb rfl rfl
  · rw [← smulCircuit_eq (by omega), if_neg hsmall]
    have hsh : ∀ {o : Operation} {z : BitVec n}, Denotes σ o z →
        Returns σ (createBinaryLiteral cache .ashr o (n - 1)) _ :=
      fun ho => createBinaryLiteral_returns (n - 1) ho rfl trivial
    refine (hsh ha).bind fun _ has => (createBinary_returns has ha rfl rfl).bind fun ax hax =>
      (hsh hb).bind fun _ hbs => (createBinary_returns hbs hb rfl rfl).bind fun bx hbx =>
        (overflowNetwork_returns hax hbx (by omega) (by omega) (by omega)
          (signFolded_lt hn x) (signFolded_lt hn y)).bind fun v hv => ?_
    refine (extractBit_returns ha (by omega) (by omega)).bind fun _ hsa =>
      (extractBit_returns hb (by omega) (by omega)).bind fun _ hsb =>
        (createICmp_returns hsa hsb).bind fun sign hsign => ?_
    refine (createSExt_returns ha n.lt_succ_self).bind fun _ hae =>
      (createSExt_returns hb n.lt_succ_self).bind fun _ hbe =>
        (createBinary_returns hae hbe rfl rfl).bind fun mult hmult => ?_
    refine (extractBit_returns hmult (by omega) n.lt_succ_self).bind fun _ htop =>
      (extractBit_returns hmult (by omega) (by omega)).bind fun _ hnext =>
        (createXor_returns htop hnext).bind fun _ hover =>
          (createOr_returns hover hv).bind fun _ hor => ?_
    have heq : Semantics.compare .eq (BitVec.ofBool (x.getLsbD (n - 1)))
        (BitVec.ofBool (y.getLsbD (n - 1))) = (x.getLsbD (n - 1) == y.getLsbD (n - 1)) := by
      cases x.getLsbD (n - 1) <;> cases y.getLsbD (n - 1) <;> rfl
    rw [heq] at hsign
    exact createAnd_returns hsign hor

/-- The number is the value of an `n`-bit two's complement integer. -/
def Representable (n : Nat) (p : Int) : Prop := ∃ z : BitVec n, z.toInt = p

theorem representable_iff (hn : 0 < n) {p : Int} :
    Representable n p ↔ -2 ^ (n - 1) ≤ p ∧ p < 2 ^ (n - 1) := by
  constructor
  · rintro ⟨z, rfl⟩
    exact ⟨BitVec.le_toInt z, BitVec.toInt_lt⟩
  · rintro ⟨hlow, hhigh⟩
    exact ⟨BitVec.ofInt n p, BitVec.toInt_ofInt_eq_self hn hlow hhigh⟩

/-- Signed overflow is detected exactly unless the product is below the least number of the width:
then the circuit is 0. -/
theorem createSMulOverflow_exact_iff (cache : OperationCache) (σ : Assignment) (n : Nat)
    (hn : 0 < n) (a b : Operation) (x y : BitVec n) (ha : Denotes σ a x) (hb : Denotes σ b y) :
    ∃ o, createSMulOverflow cache a b = some o ∧ o.type = .bool ∧
      ((o.eval σ = .int ⟨1, 1⟩ ↔ ¬ Representable n (x.toInt * y.toInt)) ↔
        -2 ^ (n - 1) ≤ x.toInt * y.toInt) := by
  obtain ⟨o, ho, hd⟩ : Returns σ (createSMulOverflow cache a b) _ :=
    createSMulOverflow_returns hn ha hb
  refine ⟨o, ho, hd.type, ?_⟩
  have hone : o.eval σ = .int ⟨1, 1⟩ ↔ (2 : Int) ^ (n - 1) ≤ x.toInt * y.toInt := by
    rw [hd.value]
    by_cases hover : (2 : Int) ^ (n - 1) ≤ x.toInt * y.toInt <;> simp [hover]
  have hpow : (0 : Int) < 2 ^ (n - 1) := Int.pow_pos (by decide)
  rw [hone, representable_iff hn]
  constructor
  · intro hiff
    by_contra hlow
    have hover := hiff.mpr (fun h => hlow h.1)
    omega
  · intro hlow
    rw [not_and, not_lt]
    exact ⟨fun h _ => h, fun h => h hlow⟩

theorem createSMulOverflow_exact_sixteen_squared :
    let sixteen := constantInt ⟨8, 16⟩
    ∃ o, createSMulOverflow .full sixteen sixteen = some o ∧
      (o.eval default = .int ⟨1, 1⟩ ↔ ¬ Representable 8 (16 * 16)) := by
  obtain ⟨o, ho, -, hiff⟩ := createSMulOverflow_exact_iff .full default 8 (by decide)
    (constantInt ⟨8, 16⟩) (constantInt ⟨8, 16⟩) 16 16 (denotes_constantInt 16)
    (denotes_constantInt 16)
  exact ⟨o, ho, hiff.mpr (by decide)⟩

/-- 100 times -100 is not an 8-bit number, and the circuit folds to 0. -/
theorem createSMulOverflow_misses_underflow :
    createSMulOverflow .full (constantInt ⟨8, 100⟩) (constantInt ⟨8, -100⟩) =
      some (constantInt ⟨1, 0⟩) ∧
    ¬ Representable 8 ((100 : BitVec 8).toInt * (-100 : BitVec 8).toInt) := by
  constructor
  · decide +kernel
  · rw [representable_iff (by decide)]
    decide

end MulOverflow

end Caffeine
