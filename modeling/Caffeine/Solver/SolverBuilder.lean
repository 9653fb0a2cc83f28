import Caffeine.IR.Simplify
import Caffeine.Query.ConstraintSlicer

/-!
# The stack of solvers

`SolverBuilder` stacks solvers that transform a query on top of the one that decides it.
-/

namespace Caffeine

open Assertion AssertionList ConstraintSlicer List Option Transforms

namespace AssertionList

variable {allowed : OperationData → Bool} {l l' : AssertionList} {as added : List Assertion}

abbrev Typed (allowed : OperationData → Bool) (l : AssertionList) : Prop :=
  ∀ a ∈ l.live, a.value.WellTyped allowed

theorem Inserted.typed (h : Inserted allowed l l' as added) (hl : l.Typed allowed) :
    l'.Typed allowed := by
  intro a ha
  rw [h.live] at ha
  rcases mem_append.mp ha with ha | ha
  · exact hl a ha
  · obtain ⟨_, -, hpart⟩ := h.part a ha
    exact hpart.bool.typed

end AssertionList

namespace Transforms

def canonicalize (cache : OperationCache) (l : AssertionList) : Option AssertionList :=
  if l.live.any (·.isConstantValue false) then (∅ : AssertionList).insert cache (.constant false)
  else some l

variable {allowed : OperationData → Bool} {l : AssertionList}

theorem canonicalize_keeps (cache : OperationCache) (hallowed : RestrictsSymbols allowed)
    (hl : l.Typed allowed) : ∃ l', canonicalize cache l = some l' ∧ l'.Typed allowed ∧
      ∀ σ, Models σ l'.live ↔ Models σ l.live := by
  unfold canonicalize
  split_ifs with hfalse
  · obtain ⟨a, ha, hconst⟩ := any_eq_true.mp hfalse
    have hty : (constant false).value.WellTyped allowed := Operation.wellTyped_mk.mpr
      ⟨hallowed.of_symbols _ rfl rfl, rfl, fun _ h => absurd h not_mem_nil⟩
    obtain ⟨l', added, hrun, hins⟩ := insert_inserted cache hallowed ∅ ⟨hty, rfl⟩
    refine ⟨l', hrun, hins.typed fun _ h => absurd h not_mem_nil, fun σ => ?_⟩
    rw [hins.models, models_singleton, holds_constant]
    refine iff_of_false (fun h => Bool.false_ne_true h.2) fun h => ?_
    exact Bool.false_ne_true ((holds_iff_of_isConstantValue hconst σ).mp (h a ha))
  · exact ⟨l, rfl, hl, fun σ => Iff.rfl⟩

end Transforms

inductive Method where
  | check | resolve
deriving DecidableEq

/-- The answers of a solver; what it makes of the list is not read again. -/
abbrev SolverMethods := Method → AssertionList → Assertion → Option SolverResult

namespace SolverBuilder

def earlyExit (inner : SolverMethods) : SolverMethods := fun method l extra =>
  if extra.isConstantValue false then some .UNSAT
  else if method = .check ∧ l.unproven.isEmpty ∧ extra.isConstantValue true then some .SAT
  else inner method l extra

/-- `TransformSolver`, for the two transformations above, which leave the answer open. -/
def transform (f : AssertionList → Option AssertionList) (base : SolverMethods) : SolverMethods :=
  fun method l extra => do base method (← f l) extra

def slicing (cache : OperationCache) (inner : SolverMethods) : SolverMethods
  | .check, l, extra => do inner .check (← slice cache l extra) extra
  | .resolve, l, extra => inner .resolve l extra

def withDefault (create : Constructor) (cache : OperationCache) (fuel : Nat) :
    List (SolverMethods → SolverMethods) :=
  [earlyExit, transform (simplify create cache fuel), transform (canonicalize cache), slicing cache]

def build (base : SolverMethods) (stack : List (SolverMethods → SolverMethods)) : SolverMethods :=
  stack.foldr (fun wrap solver => wrap solver) base

/-- The query is answered; `UNSAT` is right, and so is `SAT` as an answer of `resolve`. -/
def Answers (solver : SolverMethods) (l : AssertionList) (extra : Assertion) : Prop :=
  ∀ method, ∃ r, solver method l extra = some r ∧
    (r = .UNSAT → ¬ Satisfiable (l.live ++ [extra])) ∧
    (method = .resolve → r = .SAT → Satisfiable (l.live ++ [extra]))

variable {solver : SolverMethods} {l l' : AssertionList} {extra : Assertion}

theorem Answers.earlyExit (h : Answers solver l extra) : Answers (earlyExit solver) l extra := by
  intro method
  unfold SolverBuilder.earlyExit
  split_ifs with hfalse hcheck
  · refine ⟨.UNSAT, rfl, fun _ => ?_, fun _ h => by cases h⟩
    rintro ⟨σ, hσ⟩
    have hextra := hσ extra (mem_append_right _ (mem_singleton_self extra))
    exact Bool.false_ne_true ((holds_iff_of_isConstantValue hfalse σ).mp hextra)
  · exact ⟨.SAT, rfl, fun h => (by cases h), fun h => absurd (hcheck.1.symm.trans h) (by decide)⟩
  · exact h method

theorem Answers.transform {f : AssertionList → Option AssertionList} (hf : f l = some l')
    (hmod : ∀ σ, Models σ l'.live ↔ Models σ l.live) (h : Answers solver l' extra) :
    Answers (transform f solver) l extra := by
  have hsat : Satisfiable (l'.live ++ [extra]) ↔ Satisfiable (l.live ++ [extra]) :=
    exists_congr fun σ => by rw [models_append, models_append, hmod]
  intro method
  rw [SolverBuilder.transform, hf, ← hsat]
  exact h method

theorem Answers.slicing {cache : OperationCache} (hl : slice cache l extra = some l')
    (hmod : ∀ σ, Models σ l.live → Models σ l'.live) (h : Answers solver l extra)
    (h' : Answers solver l' extra) : Answers (slicing cache solver) l extra := by
  intro method
  cases method with
  | resolve => exact h .resolve
  | check =>
    obtain ⟨r, hr, hunsat, -⟩ := h' .check
    refine ⟨r, ?_, fun hanswer => ?_, fun h => by cases h⟩
    · rw [SolverBuilder.slicing, hl, some_bind, hr]
    · rintro ⟨σ, hσ⟩
      rw [models_append] at hσ
      exact hunsat hanswer ⟨σ, models_append.mpr ⟨hmod σ hσ.1, hσ.2⟩⟩

/-- On top of a solver that answers queries about typed assertions, the default solvers answer them
too. Only a `SAT` of `check` may be wrong, where slicing has left out an assertion. -/
theorem withDefault_answers (width : Symbol → Nat) (Q : NodeCondition)
    (create : Constructor) (cache : OperationCache) (base : SolverMethods) (l : AssertionList)
    (extra : Assertion) (hQ : Stable Q) (hcreate : ValuePreserving width Q create)
    (hl : ∀ a ∈ l.live, Admitted width Q a.value)
    (hbase : ∀ l', Typed (usedAt width) l' → Answers base l' extra) :
    ∃ n, ∀ fuel ≥ n, Answers (build base (withDefault create cache fuel)) l extra := by
  have hallowed := restrictsSymbols_usedAt width
  obtain ⟨n, l₁, hsimp, hadm₁, hmod₁⟩ := simplify_keeps cache hQ hcreate hl
  obtain ⟨l₂, hcan, hty₂, hmod₂⟩ := canonicalize_keeps cache hallowed fun a ha => (hadm₁ a ha).typed
  obtain ⟨l₃, as, added, hslice, hins, hmem⟩ := slice_inserted cache hallowed l₂ extra hty₂
  have hsub : ∀ a ∈ as, a ∈ l₂.live := by
    intro a ha
    rw [l₂.live_eq, mem_append]
    exact ((mem_append.mp ((hmem a).mp ha)).imp_right fun ha => (mem_filter.mp ha).1).symm
  have hsliced := Answers.slicing hslice
    (fun σ hσ => (hins.models σ).mpr ⟨models_empty σ, fun a ha => hσ a (hsub a ha)⟩)
    (hbase l₂ hty₂) (hbase l₃ (hins.typed fun _ h => absurd h not_mem_nil))
  refine ⟨n, fun fuel hfuel => ?_⟩
  exact ((hsliced.transform hcan hmod₂).transform (hsimp fuel hfuel) hmod₁).earlyExit

open Classical in
noncomputable def oracle : SolverMethods := fun _ l extra =>
  some (if Satisfiable (l.live ++ [extra]) then .SAT else .UNSAT)

theorem withDefault_answers_oracle : ∃ n, ∀ fuel ≥ n, Answers
    (build oracle (withDefault (Operation.create .full) .full fuel)) Sample.equated
      (.constant true) :=
  withDefault_answers (fun _ => 8) Foldable _ .full oracle Sample.equated _ stable_foldable
    (create_valuePreserving _ _) Sample.equated_admitted fun l' _ _ =>
      ⟨_, rfl, by split_ifs <;> simp_all⟩

end SolverBuilder

end Caffeine
