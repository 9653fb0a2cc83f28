import Caffeine.IR.OperationSimplifierSound

/-!
# Assertions and solvers

An assertion is an expression of boolean type. A solver answers queries about a list of
assertions and one more assertion; it may answer the same query differently at different times.
-/

namespace Caffeine

open List

namespace Operation

variable (cache : OperationCache)

def createBinary (op : BinaryOpcode) (lhs rhs : Operation) : Option Operation :=
  create cache (.binary op lhs.type) [lhs, rhs]

def createICmp (cmp : ICmpOpcode) (lhs rhs : Operation) : Option Operation :=
  create cache (.icmp cmp) [lhs, rhs]

/-- The constructor overloads that take an integer as the right operand. -/
def createICmpLiteral (cmp : ICmpOpcode) (lhs : Operation) (rhs : Nat) : Option Operation :=
  createICmp cache cmp lhs (constantInt (APInt.ofNat lhs.type.bitwidth rhs))

def createNot (operand : Operation) : Option Operation :=
  create cache (.unary .not operand.type) [operand]

end Operation

structure Assertion where
  value : Operation
  type_eq : value.type = .bool
deriving DecidableEq

variable {as : List Assertion} {a : Assertion} {m : Option Operation} {o l r : Operation} {P : Prop}

namespace Assertion

def ofValue (value : Operation) : Option Assertion :=
  if h : value.type = .bool then some ⟨value, h⟩ else none

def constant (value : Bool) : Assertion := ⟨.constantInt (APInt.ofBool value), rfl⟩

def not (cache : OperationCache) (a : Assertion) : Option Assertion := do
  ofValue (← Operation.createNot cache a.value)

def Holds (σ : Assignment) (a : Assertion) : Prop := a.value.eval σ = .int ⟨1, 1⟩

/-- The assignments that satisfy all assertions of a list. -/
def Models (σ : Assignment) (assertions : List Assertion) : Prop := ∀ a ∈ assertions, a.Holds σ

variable {σ : Assignment}

theorem models_append {bs : List Assertion} :
    Models σ (as ++ bs) ↔ Models σ as ∧ Models σ bs := forall_mem_append

theorem models_cons : Models σ (a :: as) ↔ a.Holds σ ∧ Models σ as := forall_mem_cons

theorem models_perm {bs : List Assertion} (h : as.Perm bs) :
    Models σ as ↔ Models σ bs := forall_congr' fun _ => imp_congr_left h.mem_iff

theorem models_singleton : Models σ [a] ↔ a.Holds σ :=
  forall_mem_singleton

theorem ofValue_eq_some {value : Operation} : ofValue value = some a ↔ a.value = value := by
  obtain ⟨v, hv⟩ := a
  simp only [ofValue]
  split_ifs with h
  · simp only [Option.some.injEq, mk.injEq]
    exact eq_comm
  · simp only [false_iff]
    rintro rfl
    exact h hv

theorem holds_constant (σ : Assignment) (b : Bool) : (constant b).Holds σ ↔ b = true := by
  cases b <;> simp [Holds, constant, APInt.ofBool, Operation.constantInt, Operation.eval_mk,
    Semantics.apply]

end Assertion

inductive SolverResult where
  | UNSAT | SAT | Unknown
deriving DecidableEq, Repr

/-- `Solver::check` and `Solver::resolve`: the answer to the query with the given number. -/
structure Solver where
  check : Nat → List Assertion → Assertion → SolverResult

namespace Solver

def UnsatSound (solver : Solver) : Prop :=
  ∀ n as a, solver.check n as a = .UNSAT → ∀ σ, Assertion.Models σ as → ¬ a.Holds σ

def SatSound (solver : Solver) : Prop :=
  ∀ n as a, solver.check n as a = .SAT → ∃ σ, Assertion.Models σ as ∧ a.Holds σ

/-- The solver answers all queries, and correctly. -/
structure Exact (solver : Solver) : Prop where
  unsat : solver.UnsatSound
  sat : solver.SatSound
  decides : ∀ m as a, solver.check m as a ≠ .Unknown

theorem Exact.check_ne_unsat {solver : Solver} (h : solver.Exact) {m : Nat}
    {as : List Assertion} {a : Assertion} :
    solver.check m as a ≠ .UNSAT ↔ ∃ σ, Assertion.Models σ as ∧ a.Holds σ := by
  constructor
  · intro hne
    cases hres : solver.check m as a with
    | UNSAT => exact absurd hres hne
    | SAT => exact h.sat m as a hres
    | Unknown => exact absurd hres (h.decides m as a)
  · rintro ⟨σ, hm, ha⟩ hres
    exact h.unsat m as a hres σ hm ha

end Solver

/-! ### The values of constructed expressions -/

namespace OperationSimplifier

open Operation

variable {σ : Assignment} {w : Nat} {cache : OperationCache}

variable {x y : BitVec w}

theorem Returns.bind {w' : Nat} {f : Operation → Option Operation} {y : BitVec w'}
    (hm : Returns σ m x) (hf : ∀ o, Denotes σ o x → Returns σ (f o) y) : Returns σ (m >>= f) y := by
  obtain ⟨o, rfl, ho⟩ := hm
  exact hf o ho

theorem Returns.denotes (h : Returns σ m x) (hm : m = some o) : Denotes σ o x := by
  obtain ⟨o', rfl, ho⟩ := h
  cases hm
  exact ho

theorem Preserves.create {d : OperationData} {ops : List Operation}
    (h : Preserves cache σ (.mk d ops) o) (hop : (Operation.mk d ops).InterpretedIn σ) :
    Operation.create cache d ops = some o := by
  obtain ⟨-, hacc, -⟩ := wellTyped_mk.mp hop
  rw [Operation.create, if_pos hacc, h.visit]

def total (op : BinaryOpcode) : Bool := op ∈ [.add, .sub, .mul, .and, .or, .xor]

theorem createBinary_returns_of_defined {op : BinaryOpcode} {z : BitVec w} (hl : Denotes σ l x)
    (hr : Denotes σ r y) (hz : Semantics.bitvec op x y = some z)
    (hdef : Semantics.DivisionDefined (.binary op (.int w)) [l.eval σ, r.eval σ]) :
    Returns σ (createBinary cache op l r) z := by
  have hd := hl.binary hr hz
  obtain ⟨o, ho⟩ : ∃ o, Preserves cache σ _ o := visit_binary_preserves hd hdef
  refine ⟨o, ?_, ho.typed, ho.type, ho.value.trans hd.value⟩
  rw [createBinary, hl.type]
  exact ho.create hd.typed

theorem createBinary_returns {op : BinaryOpcode} {z : BitVec w} (hl : Denotes σ l x)
    (hr : Denotes σ r y) (hop : total op = true) (hz : Semantics.bitvec op x y = some z) :
    Returns σ (createBinary cache op l r) z :=
  createBinary_returns_of_defined hl hr hz (by cases op <;> trivial)

theorem createICmp_returns {cmp : ICmpOpcode} (hl : Denotes σ l x) (hr : Denotes σ r y) :
    Returns σ (createICmp cache cmp l r) (BitVec.ofBool (Semantics.compare cmp x y)) := by
  have hop : (mk (.icmp cmp) [l, r]).InterpretedIn σ := by
    refine wellTyped_mk.mpr ⟨rfl, ?_, ?_⟩
    · simp [OperationData.accepts, hl.type, hr.type]
    · simp only [forall_mem_cons]
      exact ⟨hl.typed, hr.typed, fun o ho => absurd ho not_mem_nil⟩
  obtain ⟨o, ho⟩ : ∃ o, Preserves cache σ _ o := visit_icmp_preserves hop hl.type hr.type
  refine ⟨o, ho.create hop, ho.typed, ho.type, ?_⟩
  rw [ho.value, eval_mk, map_cons, map_cons, map_nil, hl.value, hr.value]
  simp only [Semantics.apply, Semantics.icmp, APInt.resize_width]
  rfl

theorem createICmpLiteral_returns {cmp : ICmpOpcode} (n : Nat) (hl : Denotes σ l x) :
    Returns σ (createICmpLiteral cache cmp l n)
      (BitVec.ofBool (Semantics.compare cmp x (BitVec.ofNat w n))) := by
  rw [createICmpLiteral, hl.type]
  exact createICmp_returns hl (denotes_constantInt _)

theorem createNot_returns (ho : Denotes σ o x) : Returns σ (createNot cache o) (~~~x) := by
  have hd : Denotes σ (.mk (.unary .not (.int w)) [o]) (~~~x) :=
    denotes_unary ho (by simp [OperationData.accepts]) rfl
  obtain ⟨n, hn⟩ : ∃ n, Preserves cache σ _ n :=
    visit_unary_preserves hd ho.type (by simp) (by simp [CastsLiteral])
  refine ⟨n, ?_, hn.typed, hn.type, hn.value.trans hd.value⟩
  rw [createNot, ho.type]
  exact hn.create hd.typed

end OperationSimplifier

namespace Assertion

open OperationSimplifier

variable {σ : Assignment} {cache : OperationCache}

/-- The assertion has a value under the assignment, and this is its truth. -/
def Decides (σ : Assignment) (a : Assertion) (P : Prop) : Prop :=
  ∃ b : Bool, Denotes σ a.value (BitVec.ofBool b) ∧ (b = true ↔ P)

theorem Decides.holds_iff (h : Decides σ a P) : a.Holds σ ↔ P := by
  obtain ⟨b, hb, hP⟩ := h
  rw [Holds, hb.value, ← hP]
  cases b <;> simp

theorem Decides.congr {Q : Prop} (h : Decides σ a P) (hPQ : P ↔ Q) : Decides σ a Q := by
  obtain ⟨b, hb, hP⟩ := h
  exact ⟨b, hb, hP.trans hPQ⟩

def Asserts (σ : Assignment) (result : Option Assertion) (P : Prop) : Prop :=
  ∃ a, result = some a ∧ Decides σ a P

theorem Asserts.congr {m : Option Assertion} {Q : Prop} (h : Asserts σ m P) (hPQ : P ↔ Q) :
    Asserts σ m Q := by
  obtain ⟨a, hm, ha⟩ := h
  exact ⟨a, hm, ha.congr hPQ⟩

theorem Asserts.holds_iff {m : Option Assertion} (h : Asserts σ m P) (ha : m = some a) :
    a.Holds σ ↔ P := by
  obtain ⟨a', hm, ha'⟩ := h
  obtain rfl := Option.some.inj (hm.symm.trans ha)
  exact ha'.holds_iff

theorem asserts_of_returns {b : Bool} (hm : Returns σ m (BitVec.ofBool b)) :
    Asserts σ (m >>= ofValue) (b = true) := by
  obtain ⟨o, rfl, ho⟩ := hm
  exact ⟨⟨o, ho.type⟩, ofValue_eq_some.mpr rfl, b, ho, Iff.rfl⟩

theorem holds_ofValue {b : Bool} (ho : Denotes σ o (BitVec.ofBool b)) (ha : ofValue o = some a) :
    a.Holds σ ↔ b = true :=
  (asserts_of_returns ho.returns).holds_iff ha

theorem asserts_bind {w : Nat} {f : Operation → Option Assertion} {x : BitVec w}
    (hm : Returns σ m x) (hf : ∀ o, Denotes σ o x → Asserts σ (f o) P) : Asserts σ (m >>= f) P := by
  obtain ⟨o, rfl, ho⟩ := hm
  exact hf o ho

theorem Decides.not (h : Decides σ a P) : Asserts σ (a.not cache) (¬ P) := by
  obtain ⟨b, hb, hP⟩ := h
  have hn : Returns σ (Operation.createNot cache a.value) (BitVec.ofBool !b) := by
    cases b <;> exact createNot_returns hb
  refine (asserts_of_returns hn).congr ?_
  rw [← hP]
  cases b <;> simp

end Assertion

section Negation

open Operation Assertion OperationSimplifier

variable {σ : Assignment} {cache : OperationCache} {w : Nat}

theorem createNot_eq (ht : o.type = .int w) : createNot cache o = visitNot (.int w) o := by
  simp [createNot, Operation.create, ht, OperationData.accepts, OperationSimplifier.visit,
    visitUnary]

theorem eval_visitNot {x : BitVec w} (hv : o.eval σ = .int ⟨w, x⟩)
    (h : visitNot (.int w) o = some r) : r.eval σ = .int ⟨w, ~~~x⟩ := by
  unfold visitNot at h
  split at h
  · cases h
    rw [eval_mk] at hv
    cases hv
    rfl
  · cases h
    rw [eval_mk, map_singleton] at hv
    cases hval : r.eval σ with
    | int a =>
      rw [hval] at hv
      cases hv
      rw [BitVec.not_not]
    | array _ _ => rw [hval] at hv; cases hv
    | poison => rw [hval] at hv; cases hv
  · cases h
    rw [eval_mk, map_singleton, hv]
    rfl

theorem holds_not_iff {n : Assertion} {x : BitVec 1} (hv : a.value.eval σ = .int ⟨1, x⟩)
    (hn : a.not cache = some n) : n.Holds σ ↔ ¬ a.Holds σ := by
  simp only [Assertion.not, bind_eq_some, ofValue_eq_some] at hn
  obtain ⟨o, ho, rfl⟩ := hn
  rw [createNot_eq a.type_eq] at ho
  simp only [Holds, eval_visitNot hv ho, hv, Val.int.injEq, APInt.mk.injEq, heq_eq_eq, true_and]
  clear hv ho
  revert x
  decide

theorem not_eq_of_visitNot (h : visitNot (.int 1) a.value = some o) (ht : o.type = .bool) :
    a.not cache = some ⟨o, ht⟩ := by
  rw [Assertion.not, createNot_eq a.type_eq, h]
  exact ofValue_eq_some.mpr rfl

theorem exists_not (cache : OperationCache) {allowed : OperationData → Bool}
    (ha : a.value.WellTyped allowed) : ∃ n, a.not cache = some n := by
  suffices h : ∃ o, visitNot (.int 1) a.value = some o ∧ o.type = .bool by
    obtain ⟨o, ho, ht⟩ := h
    exact ⟨_, not_eq_of_visitNot ho ht⟩
  have ht := a.type_eq
  unfold visitNot
  split
  · rename_i v ops hval
    rw [hval] at ht
    exact ⟨_, rfl, ht⟩
  · rename_i t value hval
    rw [hval] at ha ht
    obtain ⟨-, hacc, -⟩ := wellTyped_mk.mp ha
    obtain rfl : t = .bool := ht
    exact ⟨_, rfl, of_decide_eq_true hacc⟩
  · exact ⟨_, rfl, rfl⟩

end Negation

end Caffeine
