import Caffeine.IR.FoldedNodes
import Caffeine.IR.OperationSimplifierArrays
import Caffeine.IR.EGraphExtractor

/-!
# What folding costs

The extractor compares nodes by the tree they stand for, but builds the expression with
`Operation::CreateRaw`, which folds. Folding makes nothing more expensive, except that an `Alloc` of
literal size becomes its bytes and a `Load` at an unknown index a chain of selections.
-/

namespace Caffeine

open EGraphExtractor OperationSimplifier List

def Operation.treeCost : Operation → Nat :=
  Operation.fold fun d costs => opcodeCost d.opcode + costs.sum

namespace Operation

theorem treeCost_mk (d : OperationData) (ops : List Operation) :
    (mk d ops).treeCost = opcodeCost d.opcode + (ops.map treeCost).sum := by
  rw [treeCost, fold_mk]

theorem treeCost_binary (op : BinaryOpcode) (t : Ty) (l r : Operation) :
    (mk (.binary op t) [l, r]).treeCost = 1 + l.treeCost + r.treeCost := by
  simp [treeCost_mk, opcodeCost, OperationData.opcode, Nat.add_assoc]

theorem one_le_treeCost (o : Operation) : 1 ≤ o.treeCost := by
  obtain ⟨d, ops⟩ := o
  rw [treeCost_mk]
  have hop : 1 ≤ opcodeCost d.opcode := by
    unfold opcodeCost
    split <;> omega
  omega

def LeafLiteral (d : OperationData) (ops : List Operation) : Prop :=
  ∀ v, d = .constantInt v → ops = []

end Operation

variable {op : BinaryOpcode}

namespace OperationSimplifier

open Operation

theorem foldClosed_leafLiteral : FoldClosed LeafLiteral where
  literal _ _ _ := rfl
  undef _ _ _ _ v h := by cases h
  bitwise _ _ _ _ _ v h := by cases h

variable {l r o : Operation}

theorem treeCost_literal (ho : AllNodes LeafLiteral o) (h : (constantInt? o).isSome) :
    o.treeCost = 1 := by
  obtain ⟨d, ops⟩ := o
  obtain ⟨here, -⟩ := allNodes_mk.mp ho
  unfold constantInt? at h
  split at h
  · rename_i v hd
    change d = _ at hd
    subst hd
    rw [here v rfl]
    rfl
  · cases h

/-- A constructor whose result costs no more than the operation, and 1 for two literals. -/
structure Cheap (create : BinaryConstructor) : Prop where
  nodes : ∀ op ∈ bitwise, ∀ l r o, AllNodes LeafLiteral l → AllNodes LeafLiteral r →
    create op l r = some o → AllNodes LeafLiteral o
  cost : ∀ op ∈ bitwise, ∀ l r o, AllNodes LeafLiteral l → AllNodes LeafLiteral r →
    create op l r = some o → o.treeCost ≤ 1 + l.treeCost + r.treeCost
  literals : ∀ op ∈ bitwise, ∀ l r o, AllNodes LeafLiteral l → AllNodes LeafLiteral r →
    (constantInt? l).isSome → (constantInt? r).isSome → create op l r = some o → o.treeCost = 1

section Binary

variable (hl : AllNodes LeafLiteral l) (hr : AllNodes LeafLiteral r) {t : Ty}
  {create : BinaryConstructor}

include hl hr

theorem Split.leaves {value c₁ c₂ : Operation} (h : Split l r value c₁ c₂) :
    (AllNodes LeafLiteral value ∧ AllNodes LeafLiteral c₁ ∧ AllNodes LeafLiteral c₂) ∧
      c₁.treeCost = 1 ∧ c₂.treeCost = 1 ∧ value.treeCost + 3 ≤ l.treeCost + r.treeCost := by
  obtain ⟨hval, h1, h2⟩ := h.parts (AllNodes LeafLiteral) (fun op t a b h => by
    obtain ⟨-, hops⟩ := allNodes_mk.mp h
    exact ⟨hops a (by simp), hops b (by simp)⟩) hl hr
  have hcost := h.cost treeCost treeCost_binary
  have hcost1 := treeCost_literal h1 h.literals.1
  have hcost2 := treeCost_literal h2 h.literals.2
  exact ⟨⟨hval, h1, h2⟩, hcost1, hcost2, by omega⟩

theorem BinaryFold.cost (hc : Cheap create) (h : BinaryFold create op t l r o) :
    o.treeCost ≤ 1 + l.treeCost + r.treeCost := by
  cases h with
  | left | right => omega
  | undef | literal =>
    exact Nat.le_add_right_of_le (Nat.le_add_right 1 _)
  | keep => exact (treeCost_binary op t l r).le
  | shifted split hm hv h =>
    obtain ⟨⟨hval, hmask, hsh⟩, -, hsh1, hcost⟩ := split.leaves hl hr
    have hmn := hc.nodes _ (by decide) _ _ _ hmask hsh hm
    have hm1 := hc.literals _ (by decide) _ _ _ hmask hsh split.literals.1 split.literals.2 hm
    have hv1 := hc.cost _ (by decide) _ _ _ hval hmn hv
    have h1 := hc.cost _ (by decide) _ _ _ (hc.nodes _ (by decide) _ _ _ hval hmn hv) hsh h
    omega
  | masked split hjoin hm h =>
    obtain ⟨⟨hval, h1, h2⟩, -, -, hcost⟩ := split.leaves hl hr
    have hm1 := hc.literals _ hjoin _ _ _ h1 h2 split.literals.1 split.literals.2 hm
    have h1 := hc.cost _ (by decide) _ _ _ hval (hc.nodes _ hjoin _ _ _ h1 h2 hm) h
    omega
  | @cleared value _ _ _ v split _ h =>
    obtain ⟨⟨hval, -⟩, -, -, hcost⟩ := split.leaves hl hr
    have h1 := hc.cost _ (by decide) _ _ _ hval (allNodes_literal foldClosed_leafLiteral v) h
    have hone : (constantInt v).treeCost = 1 := rfl
    omega

theorem BinaryFold.literals (hlv : (constantInt? l).isSome) (hrv : (constantInt? r).isSome)
    (h : BinaryFold create op t l r o) : o.treeCost = 1 := by
  have hl1 := treeCost_literal hl hlv
  have hr1 := treeCost_literal hr hrv
  cases h with
  | left => exact hl1
  | right => exact hr1
  | undef | literal => rfl
  | keep hnot => exact absurd ⟨hlv, hrv⟩ hnot
  | shifted split | masked split | cleared split =>
    obtain ⟨-, -, -, hcost⟩ := split.leaves hl hr
    omega

end Binary

theorem cheap_create (cache : OperationCache) (fuel : Nat) : Cheap (create cache fuel) := by
  induction fuel with
  | zero =>
    constructor
    · intro op _ l r o _ _ h
      cases h
    · intro op _ l r o _ _ h
      cases h
    · intro op _ l r o _ _ _ _ h
      cases h
  | succ fuel ih =>
    refine ⟨create_nodes foldClosed_leafLiteral cache (fuel + 1), fun op _ l r o hl hr h => ?_,
      fun op _ l r o hl hr hlv hrv h => ?_⟩
    · rw [create] at h
      split_ifs at h
      exact (visitBinary_folds h).cost hl hr ih
    · rw [create] at h
      split_ifs at h
      exact (visitBinary_folds h).literals hl hr hlv hrv

theorem UnaryFold.cost {create : BinaryConstructor}
    (hc : Cheap create) {op : UnaryOpcode} {t : Ty} {operand : Operation}
    (ho : AllNodes LeafLiteral operand) (h : UnaryFold create op t operand o) :
    o.treeCost ≤ 1 + operand.treeCost := by
  have hunary : ∀ op t o, (Operation.mk (.unary op t) [o]).treeCost = 1 + o.treeCost := by
    intro op t o
    simp [treeCost_mk, opcodeCost, OperationData.opcode]
  cases h with
  | literal => exact Nat.le_add_right 1 _
  | operand => omega
  | inner _ hnot =>
    rw [hnot, hunary]
    omega
  | keep => exact (hunary op t operand).le
  | @mask t' x _ v _ htrunc _ _ h =>
    subst htrunc
    have h1 := hc.cost _ (by decide) _ _ _ ((allNodes_mk.mp ho).2 _ mem_cons_self)
      (allNodes_literal foldClosed_leafLiteral v) h
    have hone : (constantInt v).treeCost = 1 := rfl
    rw [hunary]
    omega

variable {ops : List Operation}

theorem visit_cost {cache : OperationCache} {d : OperationData}
    (hops : ∀ o ∈ ops, AllNodes LeafLiteral o) (h : visit cache (.mk d ops) = some o) :
    o.treeCost ≤ (Operation.mk d ops).treeCost := by
  have hc := cheap_create cache (Operation.mk d ops).size
  have hkeep := (treeCost_mk d ops).ge
  unfold visit at h
  split at h
  · rename_i heq
    cases heq
    rw [treeCost_binary]
    exact (visitBinary_folds h).cost (hops _ (by simp)) (hops _ (by simp)) hc
  · rename_i heq
    cases heq
    unfold visitICmp tryConstInt at h
    split at h
    · cases h
      exact one_le_treeCost _
    split_ifs at h
    · cases h
      exact one_le_treeCost _
    · cases h
      exact one_le_treeCost _
    · cases h
      exact le_rfl
  · rename_i operand heq
    cases heq
    refine ((visitUnary_folds h).cost hc (hops _ (by simp))).trans_eq ?_
    simp [treeCost_mk, opcodeCost, OperationData.opcode]
  · rename_i t condition trueValue falseValue heq
    cases heq
    have hsel : (Operation.mk (.select t) [condition, trueValue, falseValue]).treeCost =
        1 + (condition.treeCost + (trueValue.treeCost + falseValue.treeCost)) := by
      simp [treeCost_mk, opcodeCost, OperationData.opcode]
    rw [hsel]
    unfold visitSelectOp at h
    repeat' split at h
    all_goals
      cases h
      omega
  · cases h

theorem sum_set_le (l : List Operation) (i : Nat) (v : Operation) :
    ((l.set i v).map treeCost).sum ≤ (l.map treeCost).sum + v.treeCost := by
  induction l generalizing i with
  | nil => simp
  | cons o l ih =>
    cases i with
    | zero =>
      simp only [set_cons_zero, map_cons, sum_cons]
      omega
    | succ i =>
      have hrest := ih i
      simp only [set_cons_succ, map_cons, sum_cons]
      omega

theorem visitArray_store {cache : OperationCache} {t : Ty}
    (h : visitArray cache (.store t) ops = some o) :
    (∃ t, o = .mk (.store t) ops) ∨ ∃ w w' elements offset value i,
      ops = [.mk (.fixedArray w) elements, offset, value] ∧
        o = .mk (.fixedArray w') (elements.set i value) := by
  unfold visitArray at h
  split at h
  · rename_i heq
    cases heq
  · rename_i data offset value _
    unfold visitStoreOp at h
    split at h
    · rename_i elements v hdata _
      unfold createFixedArray at h
      split_ifs at h
      cases h
      obtain ⟨d, ops⟩ := data
      unfold fixedArray? at hdata
      split at hdata
      · rename_i w hd
        cases hdata
        change d = _ at hd
        subst hd
        exact .inr ⟨w, _, ops, offset, value, _, rfl, rfl⟩
      · cases hdata
    · exact .inl ⟨_, (Option.some.inj h).symm⟩
  · rename_i heq
    cases heq
  · rename_i heq
    cases heq
  · exact .inl ⟨_, (Option.some.inj h).symm⟩

def expands : OperationData → Bool
  | .alloc _ | .load => true
  | _ => false

section ConstantFold

variable {cache : OperationCache} {d : OperationData} {ops : List Operation}
  (hd : expands d = false) (hops : ∀ o ∈ ops, AllNodes LeafLiteral o)

include hd hops

theorem constantFold_cost (h : constantFold cache d ops = some o) :
    o.treeCost ≤ (Operation.mk d ops).treeCost := by
  unfold constantFold at h
  split at h
  · cases hd
  · obtain ⟨t', rfl⟩ | ⟨w, w', elements, offset, value, i, rfl, rfl⟩ := visitArray_store h
    · rw [treeCost_mk, treeCost_mk]
      rfl
    · have hset := sum_set_le elements i value
      simp only [treeCost_mk, opcodeCost, OperationData.opcode, map_cons, map_nil,
        sum_cons, sum_nil]
      omega
  · cases hd
  all_goals
    first
    | exact visit_cost hops h
    | exact (congrArg treeCost (Option.some.inj h).symm).le

theorem constantFold_nodes (hleaf : LeafLiteral d ops) (h : constantFold cache d ops = some o) :
    AllNodes LeafLiteral o := by
  have hkeep : AllNodes LeafLiteral (.mk d ops) := allNodes_mk.mpr ⟨hleaf, hops⟩
  unfold constantFold at h
  split at h
  · cases hd
  · obtain ⟨t', rfl⟩ | ⟨w, w', elements, offset, value, i, rfl, rfl⟩ := visitArray_store h
    · exact allNodes_mk.mpr ⟨fun v hv => (nomatch hv), hops⟩
    · refine allNodes_mk.mpr ⟨fun v hv => (nomatch hv), fun o ho => ?_⟩
      rcases mem_or_eq_of_mem_set ho with ho | rfl
      · exact (allNodes_mk.mp (hops _ mem_cons_self)).2 o ho
      · exact hops _ (by simp)
  · cases hd
  all_goals
    first
    | exact visit_nodes foldClosed_leafLiteral hleaf hops h
    | exact Option.some.inj h ▸ hkeep

end ConstantFold

theorem createRaw_cost {cache : OperationCache} {d : OperationData} (hd : expands d = false)
    (hleaf : LeafLiteral d ops) (hops : ∀ o ∈ ops, AllNodes LeafLiteral o)
    (h : createRaw cache d ops = some o) :
    AllNodes LeafLiteral o ∧ o.treeCost ≤ opcodeCost d.opcode + (ops.map treeCost).sum := by
  have hfold := constantFold_of_createRaw h
  rw [← treeCost_mk]
  exact ⟨constantFold_nodes hd hops hleaf hfold, constantFold_cost hd hops hfold⟩

end OperationSimplifier

end Caffeine
