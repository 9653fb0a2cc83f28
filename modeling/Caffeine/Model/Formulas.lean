import Caffeine.Model.AssertionList

/-!
# Boolean formulas

An assertion is a formula: conjunctions, disjunctions, negations and literals over boolean atoms.
Whatever the truth of the atoms, the parts it is decomposed into hold together exactly if it does.
-/

namespace Caffeine

open List

variable {t : Ty}

namespace Operation

def isConnective : Operation → Bool
  | .mk (.binary .and _) [_, _] => true
  | .mk (.binary .or _) [_, _] => true
  | .mk (.unary .not _) [_] => true
  | .mk (.constantInt _) _ => true
  | _ => false

inductive Formula : Operation → Prop
  | and {l r : Operation} (left : Formula l) (right : Formula r) :
    Formula (.mk (.binary .and .bool) [l, r])
  | or {l r : Operation} (left : Formula l) (right : Formula r) :
    Formula (.mk (.binary .or .bool) [l, r])
  | not {o : Operation} (operand : Formula o) : Formula (.mk (.unary .not .bool) [o])
  | literal (x : BitVec 1) : Formula (constantInt ⟨1, x⟩)
  | atom {o : Operation} (type : o.type = .bool) (atomic : o.isConnective = false) : Formula o

def truth (atoms : Operation → Prop) : Operation → Prop
  | .mk (.binary .and _) [l, r] => truth atoms l ∧ truth atoms r
  | .mk (.binary .or _) [l, r] => truth atoms l ∨ truth atoms r
  | .mk (.unary .not _) [o] => ¬ truth atoms o
  | .mk (.constantInt v) _ => v.eqNat 1 = true
  | o => atoms o

variable {atoms : Operation → Prop} {o l r : Operation}

theorem truth_and : truth atoms (.mk (.binary .and t) [l, r]) ↔ truth atoms l ∧ truth atoms r := by
  rw [truth]

theorem truth_or : truth atoms (.mk (.binary .or t) [l, r]) ↔ truth atoms l ∨ truth atoms r := by
  rw [truth]

theorem truth_not : truth atoms (.mk (.unary .not t) [o]) ↔ ¬ truth atoms o := by
  rw [truth]

theorem truth_literal {v : APInt} : truth atoms (constantInt v) ↔ v.eqNat 1 = true := by
  rw [constantInt, truth]

namespace Formula

theorem type_eq (h : Formula o) : o.type = .bool := by
  cases h with
  | atom htype => exact htype
  | _ => rfl

theorem and_inv (h : Formula (.mk (.binary .and t) [l, r])) : Formula l ∧ Formula r := by
  cases h with
  | and hl hr => exact ⟨hl, hr⟩
  | atom _ hatomic => cases hatomic

theorem or_inv (h : Formula (.mk (.binary .or t) [l, r])) : Formula l ∧ Formula r := by
  cases h with
  | or hl hr => exact ⟨hl, hr⟩
  | atom _ hatomic => cases hatomic

theorem not_inv (h : Formula (.mk (.unary .not t) [o])) : Formula o := by
  cases h with
  | not ho => exact ho
  | atom _ hatomic => cases hatomic

theorem createNot (cache : OperationCache) (h : Formula o) :
    ∃ n, Operation.createNot cache o = some n ∧ Formula n ∧
      AssertionList.connectives n ≤ AssertionList.connectives o ∧
      ∀ atoms, truth atoms n ↔ ¬ truth atoms o := by
  rw [createNot_eq h.type_eq]
  unfold OperationSimplifier.visitNot
  split
  · rename_i v ops
    cases h with
    | literal x =>
      refine ⟨_, rfl, .literal _, le_rfl, fun atoms => ?_⟩
      have hopd : truth atoms (.mk (.constantInt ⟨1, x⟩) []) ↔ _ := truth_literal
      rw [truth_literal, hopd]
      clear hopd
      revert x
      decide
    | atom _ hatomic => cases hatomic
  · exact ⟨_, rfl, h.not_inv, by simp [AssertionList.connectives_mk], fun atoms => by
      rw [truth_not, not_not]⟩
  · exact ⟨_, rfl, .not h, by simp [AssertionList.connectives_mk], fun atoms => truth_not⟩

end Formula

end Operation

namespace AssertionList

open Operation

variable {cache : OperationCache}

structure SplitsInto (stack parts : List Operation) : Prop where
  formula : ∀ p ∈ parts, Formula p
  truth : ∀ atoms, (∀ p ∈ parts, p.truth atoms) ↔ ∀ o ∈ stack, o.truth atoms

theorem SplitsInto.split {stack parts : List Operation} {o l r : Operation}
    (h : SplitsInto (r :: l :: stack) parts)
    (hiff : ∀ atoms, o.truth atoms ↔ l.truth atoms ∧ r.truth atoms) :
    SplitsInto (o :: stack) parts where
  formula := h.formula
  truth atoms := by
    rw [h.truth]
    simp only [forall_mem_cons, hiff atoms]
    tauto

theorem decompose_formula (cache : OperationCache) (n : Nat) (stack : List Operation)
    (hstk : ∀ o ∈ stack, Formula o) (hn : work stack < n) :
    ∃ parts, decompose cache n stack = some parts ∧ SplitsInto stack parts := by
  induction n generalizing stack with
  | zero => cases hn
  | succ n ih =>
    cases stack with
    | nil => exact ⟨[], rfl, ⟨by simp, by simp⟩⟩
    | cons op stack =>
      obtain ⟨hop, hrest⟩ := forall_mem_cons.mp hstk
      have hwork : work (op :: stack) = 2 * connectives op + 1 + work stack := by simp [work]
      unfold decompose
      split
      · rename_i t lhs rhs
        obtain ⟨hl, hr⟩ := hop.and_inv
        have hcnt : connectives (.mk (.binary .and t) [lhs, rhs]) =
            connectives lhs + connectives rhs + 1 := by simp [connectives_mk]
        obtain ⟨parts, hrun, hpts⟩ := ih (rhs :: lhs :: stack)
          (forall_mem_cons.mpr ⟨hr, forall_mem_cons.mpr ⟨hl, hrest⟩⟩)
          (by simp only [work, map_cons, sum_cons] at hwork hn ⊢; omega)
        exact ⟨parts, hrun, hpts.split fun atoms => truth_and⟩
      · rename_i t t' lhs rhs
        obtain ⟨hl, hr⟩ := hop.not_inv.or_inv
        obtain ⟨nl, hnl, hfl, hcl, htl⟩ := hl.createNot cache
        obtain ⟨nr, hnr, hfr, hcr, htr⟩ := hr.createNot cache
        have hcnt : connectives (.mk (.unary .not t) [.mk (.binary .or t') [lhs, rhs]]) =
            connectives lhs + connectives rhs + 1 := by simp [connectives_mk]
        obtain ⟨parts, hrun, hpts⟩ := ih (nr :: nl :: stack)
          (forall_mem_cons.mpr ⟨hfr, forall_mem_cons.mpr ⟨hfl, hrest⟩⟩)
          (by simp only [work, map_cons, sum_cons] at hwork hn ⊢; omega)
        refine ⟨parts, ?_, hpts.split fun atoms => ?_⟩
        · simp only [hnl, hnr, some_bind, hrun]
        · rw [htl, htr, truth_not, truth_or, not_or]
      · obtain ⟨parts, hrun, hpts⟩ := ih stack hrest (by omega)
        refine ⟨op :: parts, by rw [hrun]; rfl, forall_mem_cons.mpr ⟨hop, hpts.formula⟩, ?_⟩
        intro atoms
        rw [forall_mem_cons, forall_mem_cons, hpts.truth]

end AssertionList

end Caffeine
