import Caffeine.Model.AssertionList
import Caffeine.Solver.Z3.ConvertSound

/-!
# Queries to Z3

`Z3Solver::resolve` translates the assertions of a list and adds them to a solver, unless one of
them is constantly false. The constraints have a model that extends an assignment of the symbols
exactly if the assignment satisfies the assertions.
-/

namespace Caffeine

open List

/-- The fixed arrays of an expression. -/
def Operation.fixedArrays (o : Operation) : Nat :=
  o.fold fun d counts => (match d with | .fixedArray _ => 1 | _ => 0) + counts.sum

variable {v : Visitor} {a : Assertion} {index : Operation}

namespace Z3

open SMT Visitor

namespace Visitor

/-- At most `n` temporary constants are taken; if there are none left there were fewer. -/
def Spends {α : Type} (n : Nat) (v : Visitor) : Except Abort (α × Visitor) → Prop
  | .error .constants => tmpConstMax < v.tmpConstNum + n
  | .error .invalid => True
  | .ok (_, v') => v'.tmpConstNum ≤ v.tmpConstNum + n

theorem Spends.mono {α : Type} {m n : Nat} {result : Except Abort (α × Visitor)}
    (h : Spends m v result) (hmn : m ≤ n) : Spends n v result := by
  cases result with
  | error abort =>
    cases abort with
    | invalid => trivial
    | constants => exact Nat.lt_of_lt_of_le h (Nat.add_le_add_left hmn _)
  | ok result => exact Nat.le_trans h (Nat.add_le_add_left hmn _)

theorem Spends.bind {α β : Type} {m n : Nat} {result : Except Abort (α × Visitor)}
    {k : α × Visitor → Except Abort (β × Visitor)} (h : Spends m v result)
    (hk : ∀ a v', Spends n v' (k (a, v'))) : Spends (m + n) v (result.bind k) := by
  cases result with
  | error abort => exact Spends.mono (α := β) (by cases abort <;> exact h) (Nat.le_add_right m n)
  | ok result =>
    obtain ⟨a, v'⟩ := result
    have hv' : v'.tmpConstNum ≤ v.tmpConstNum + m := h
    have hrest := hk a v'
    change Spends (m + n) v (k (a, v'))
    cases hrun : k (a, v') with
    | ok result =>
      rw [hrun] at hrest
      exact Nat.le_trans hrest (by omega)
    | error abort =>
      rw [hrun] at hrest
      cases abort with
      | invalid => trivial
      | constants => exact Nat.lt_of_lt_of_le hrest (by omega)

theorem prepare_spends (v : Visitor) (d : OperationData) :
    Spends (match d with | .fixedArray _ => 1 | _ => 0) v (prepare v d) := by
  cases d with
  | fixedArray w =>
    simp only [prepare, nextConst]
    split_ifs with h
    · exact Nat.lt_succ_of_le h.ge
    · exact Nat.le_refl _
  | _ => exact Nat.le_refl _

theorem finish_spends (v : Visitor) (d : OperationData) (array : Option Expr) (args : List Expr) :
    Spends 0 v (v.finish d array args) := by
  unfold finish
  split
  · unfold visitConstant
    split
    · exact Nat.le_refl _
    · split
      · exact Nat.le_refl _
      · trivial
  · split
    · exact Nat.le_refl _
    · trivial
  · split
    · exact Nat.le_refl _
    · trivial

theorem visitOperands_spends {sharing : Sharing} {d : OperationData} {array : Option Expr}
    {ops : List Operation} (ih : ∀ o ∈ ops, ∀ v, Spends o.fixedArrays v (visit sharing o v))
    (i : Nat) (v : Visitor) :
    Spends (ops.map Operation.fixedArrays).sum v (visitOperands sharing d array i ops v) := by
  induction ops generalizing i v with
  | nil => exact Nat.le_refl _
  | cons o ops ihops =>
    obtain ⟨iho, ihrest⟩ := forall_mem_cons.mp ih
    rw [visitOperands, map_cons, sum_cons]
    split_ifs
    · exact (ihops ihrest (i + 1) v).mono (Nat.le_add_left _ _)
    · refine (iho v).bind fun e v' => ?_
      dsimp only
      cases emitted d array i e with
      | none => trivial
      | some constraints =>
        exact Spends.bind (n := 0) (ihops ihrest (i + 1) (v'.add constraints))
          fun es v'' => Nat.le_refl _

theorem visit_spends (sharing : Sharing) (o : Operation) (v : Visitor) :
    Spends o.fixedArrays v (visit sharing o v) := by
  induction o using Operation.induct generalizing v with
  | mk d ops ih =>
    rw [visit, Operation.fixedArrays, Operation.fold_mk]
    cases sharing.pick v.visits (v.cached (.mk d ops)) with
    | some e => exact Nat.le_add_right v.tmpConstNum _
    | none =>
      refine (prepare_spends { v with visits := v.visits + 1 } d).bind fun array v₁ => ?_
      rw [← Nat.add_zero (List.sum _)]
      refine (visitOperands_spends (fun o ho v => ih o ho v) 0 v₁).bind fun args v₂ => ?_
      rw [← Nat.add_zero 0]
      exact (finish_spends v₂ d array args).bind fun e v₃ => Nat.le_refl _

end Visitor

def assert (sharing : Sharing) (v : Visitor) (a : Assertion) : Except Abort Visitor := do
  let (e, v) ← Visitor.visit sharing a.value v
  match normalizeToBool e with
  | ⟨.bool, t⟩ => .ok (v.add [t])
  | _ => .error .invalid

/-- `Z3Solver::resolve` up to the check: the constraints, or none if the answer is known without
them. -/
def resolve (sharing : Sharing) (assertions : List Assertion) (extra : Assertion) :
    Except Abort (Option (List (Term .bool))) :=
  if extra.isConstantValue false then .ok none
  else if assertions.any (·.isConstantValue false) then .ok none
  else do
    let v ← assertions.foldlM (assert sharing) Visitor.initial
    let v ← if extra.isConstantValue true then .ok v else assert sharing v extra
    .ok (some v.constraints)

def handed (assertions : List Assertion) (extra : Assertion) : List Assertion :=
  if extra.isConstantValue false || assertions.any (·.isConstantValue false) then []
  else assertions ++ if extra.isConstantValue true then [] else [extra]

/-- The constraints hold in a model exactly if the added assertions do under its assignment. -/
def Asserted (Γ : Symbol → Ty) (as : List Assertion) (v : Visitor) : Except Abort Visitor → Prop
  | .error .constants => tmpConstMax < v.tmpConstNum + (as.map (·.value.fixedArrays)).sum
  | .error .invalid => ∃ a ∈ as, ¬ Indexed a.value
  | .ok v' => Inv Γ v' ∧ (∀ a ∈ as, Indexed a.value) ∧
    v'.tmpConstNum ≤ v.tmpConstNum + (as.map (·.value.fixedArrays)).sum ∧
    (∀ σ τ, (∀ a ∈ as, Meaningful a.value σ) → Satisfies (model σ τ) v'.constraints →
      Assertion.Models σ as) ∧
    Extends (fun σ _ => (∀ a ∈ as, Meaningful a.value σ) ∧ Assertion.Models σ as) v v'

section Assert

variable {Γ : Symbol → Ty} {sharing : Sharing}

theorem normalizeToBool_assertion {constraints : List (Term .bool)} {e : Expr}
    (h : Known constraints a.value e) : ∃ t, normalizeToBool e = ⟨.bool, t⟩ ∧
      ∀ σ τ, Faithful σ (model σ τ) a.value e → (t.eval (model σ τ) = true ↔ a.Holds σ) := by
  have hsc : Scalar 1 e := scalar_of_sortOf a.type_eq h.sort
  obtain ⟨t, ht, heval⟩ := normalizeToBool_one hsc
  refine ⟨t, ht, fun σ τ hfaithful => ?_⟩
  rw [faithful_int a.type_eq, ← heval] at hfaithful
  rw [Assertion.Holds, hfaithful]
  cases t.eval (model σ τ) <;> simp

theorem assert_spec (sharing : Sharing) (hv : Inv Γ v)
    (hty : a.value.Interpreted) (hadm : AllVisited (Admissible Γ) a.value) :
    Asserted Γ [a] v (assert sharing v a) := by
  have hspec := visit_spec sharing a.value v hv hty hadm
  have hspends := visit_spends sharing a.value v
  simp only [assert, bind, Except.bind]
  cases hrun : visit sharing a.value v with
  | error abort =>
    rw [hrun] at hspec hspends
    cases abort with
    | constants => simpa [Asserted, Spends] using hspends
    | invalid => exact ⟨a, mem_singleton_self a, hspec⟩
  | ok result =>
    obtain ⟨e, v₁⟩ := result
    rw [hrun] at hspec hspends
    obtain ⟨hinv, hknown, hext⟩ := hspec
    obtain ⟨t, ht, hiff⟩ := normalizeToBool_assertion hknown
    simp only [ht]
    have hadd : Extends (fun σ _ => Meaningful a.value σ ∧ a.Holds σ) v₁ (v₁.add [t]) := by
      refine extends_add hknown (fun _ _ _ _ h => h) fun σ τ hholds hfaithful => ?_
      exact forall_mem_singleton.mpr ((hiff σ τ hfaithful).mpr hholds)
    refine ⟨hinv.add [t], forall_mem_singleton.mpr hknown.indexed, ?_, ?_, ?_⟩
    · simpa [Spends, Visitor.add] using hspends
    · intro σ τ hmean hsat
      obtain ⟨hold, hnew⟩ := forall_mem_append.mp hsat
      obtain ⟨hin, hrem⟩ := hmean a (mem_singleton_self a)
      exact forall_mem_singleton.mpr
        ((hiff σ τ (hknown.faithful σ τ hin hrem hold)).mp (hnew t (mem_singleton_self t)))
    · refine (hext.trans hadd fun _ _ _ _ h => h).congr rfl rfl rfl rfl ?_
      rintro σ τ ⟨hmean, hholds⟩
      have hmean := hmean a (mem_singleton_self a)
      exact ⟨hmean, hmean, hholds a (mem_singleton_self a)⟩

theorem Asserted.cons {as : List Assertion} {v₁ : Visitor} {result : Except Abort Visitor}
    (h : Asserted Γ [a] v (.ok v₁)) (hrest : Asserted Γ as v₁ result) :
    Asserted Γ (a :: as) v result := by
  obtain ⟨-, hidx, hspent, hsnd, hext⟩ := h
  have hsum : ((a :: as).map (·.value.fixedArrays)).sum =
      a.value.fixedArrays + (as.map (·.value.fixedArrays)).sum := by simp
  have hspent : v₁.tmpConstNum ≤ v.tmpConstNum + a.value.fixedArrays := by simpa using hspent
  cases result with
  | error abort =>
    cases abort with
    | constants =>
      rw [Asserted] at hrest ⊢
      omega
    | invalid =>
      obtain ⟨b, hb, hnot⟩ := hrest
      exact ⟨b, mem_cons_of_mem a hb, hnot⟩
  | ok v₂ =>
    obtain ⟨hinv, hidx', hspent', hsnd', hext'⟩ := hrest
    refine ⟨hinv, forall_mem_cons.mpr ⟨hidx a (mem_singleton_self a), hidx'⟩,
      by omega, fun σ τ hmean hsat => ?_, ?_⟩
    · obtain ⟨hmean, hmean'⟩ := forall_mem_cons.mp hmean
      have hold : Satisfies (model σ τ) v₁.constraints := fun c hc => hsat c (hext'.constraints hc)
      exact Assertion.models_cons.mpr
        ⟨Assertion.models_singleton.mp (hsnd σ τ (forall_mem_singleton.mpr hmean) hold),
          hsnd' σ τ hmean' hsat⟩
    · refine (hext.trans hext' fun _ _ _ _ h => h).congr rfl rfl rfl rfl ?_
      rintro σ τ ⟨hmean, hholds⟩
      obtain ⟨hmean, hmean'⟩ := forall_mem_cons.mp hmean
      obtain ⟨hholds, hholds'⟩ := Assertion.models_cons.mp hholds
      exact ⟨⟨forall_mem_singleton.mpr hmean, Assertion.models_singleton.mpr hholds⟩,
        hmean', hholds'⟩

theorem asserted_foldlM (sharing : Sharing) {as : List Assertion} (hv : Inv Γ v)
    (hty : ∀ a ∈ as, a.value.Interpreted ∧
      AllVisited (Admissible Γ) a.value) : Asserted Γ as v (as.foldlM (assert sharing) v) := by
  induction as generalizing v with
  | nil =>
    exact ⟨hv, by simp, Nat.le_refl _, fun _ _ _ _ => by simp [Assertion.Models], .refl _ v⟩
  | cons a as ih =>
    obtain ⟨⟨hwt, hadm⟩, hrest⟩ := forall_mem_cons.mp hty
    have hfst := assert_spec sharing hv hwt hadm
    rw [foldlM_cons]
    cases hrun : assert sharing v a with
    | error abort =>
      rw [hrun] at hfst
      cases abort with
      | constants =>
        have hfst : tmpConstMax < v.tmpConstNum + a.value.fixedArrays := by
          simpa [Asserted] using hfst
        have hsum : ((a :: as).map (·.value.fixedArrays)).sum =
            a.value.fixedArrays + (as.map (·.value.fixedArrays)).sum := by simp
        simp only [bind, Except.bind, Asserted]
        omega
      | invalid =>
        obtain ⟨b, hb, hnot⟩ := hfst
        exact ⟨b, mem_cons.mpr (.inl (mem_singleton.mp hb)), hnot⟩
    | ok v₁ =>
      rw [hrun] at hfst
      exact hfst.cons (ih hfst.1 hrest)

end Assert

theorem initial_inv (Γ : Symbol → Ty) : Inv Γ initial :=
  ⟨Nat.le_refl _, fun s e h => by simp [initial] at h, fun entry h => nomatch h⟩

theorem resolve_eq (sharing : Sharing) (assertions : List Assertion) (extra : Assertion) :
    resolve sharing assertions extra =
      if extra.isConstantValue false || assertions.any (·.isConstantValue false) then .ok none
      else ((handed assertions extra).foldlM (assert sharing) initial).map
        fun v => some v.constraints := by
  unfold resolve handed
  cases extra.isConstantValue false with
  | true => rfl
  | false =>
    cases assertions.any (·.isConstantValue false) with
    | true => rfl
    | false =>
      simp only [Bool.false_eq_true, if_false, Bool.or_self, foldlM_append]
      cases assertions.foldlM (assert sharing) initial with
      | error abort => rfl
      | ok v =>
        cases extra.isConstantValue true with
        | true => rfl
        | false =>
          simp only [bind, Except.bind, Bool.false_eq_true, if_false, foldlM_cons, foldlM_nil]
          cases assert sharing v extra <;> rfl

theorem not_models_of_false {assertions : List Assertion} {extra : Assertion}
    (h : (extra.isConstantValue false || assertions.any (·.isConstantValue false)) = true)
    (σ : Assignment) : ¬ Assertion.Models σ (extra :: assertions) := by
  intro hmod
  obtain hextra | hany := Bool.or_eq_true_iff.mp h
  · exact absurd ((Assertion.holds_iff_of_isConstantValue hextra σ).mp
      (hmod extra mem_cons_self)) (by simp)
  · obtain ⟨a, ha, hconst⟩ := List.any_eq_true.mp hany
    exact absurd ((Assertion.holds_iff_of_isConstantValue hconst σ).mp
      (hmod a (mem_cons_of_mem extra ha))) (by simp)

theorem models_handed {assertions : List Assertion} {extra : Assertion}
    (h : (extra.isConstantValue false || assertions.any (·.isConstantValue false)) = false)
    (σ : Assignment) :
    Assertion.Models σ (handed assertions extra) ↔ Assertion.Models σ (extra :: assertions) := by
  rw [handed, h, if_neg (by simp), Assertion.models_append, Assertion.models_cons, and_comm]
  refine and_congr_left fun _ => ?_
  split_ifs with hconst
  · simp [Assertion.Models, Assertion.holds_iff_of_isConstantValue hconst σ]
  · exact Assertion.models_singleton

/-- The constraints are well sorted exactly if no array is indexed by a comparison or a connective;
they are then satisfied by extensions of the models with accesses within bounds and agreeing signs.
-/
theorem resolve_exact (sharing : Sharing) (Γ : Symbol → Ty) (assertions : List Assertion)
    (extra : Assertion) (htyped : ∀ a ∈ extra :: assertions, a.value.Interpreted ∧
      AllVisited (Admissible Γ) a.value) :
    (((handed assertions extra).map (·.value.fixedArrays)).sum ≤ tmpConstMax - tmpConstMin →
      ((∃ query, resolve sharing assertions extra = .ok query) ↔
        ∀ a ∈ handed assertions extra, Indexed a.value)) ∧
    ∀ query, resolve sharing assertions extra = .ok query → ∀ σ,
      (∀ a ∈ handed assertions extra, Meaningful a.value σ) →
      (Assertion.Models σ (extra :: assertions) ↔
        ∃ constraints ∈ query, ∃ τ, Satisfies (model σ τ) constraints) := by
  rw [resolve_eq]
  cases hff : extra.isConstantValue false || assertions.any (·.isConstantValue false) with
  | true =>
    simp only [if_true]
    refine ⟨fun _ => ?_, fun query hqry σ _ => ?_⟩
    · simp [handed, hff]
    · cases hqry
      simp [not_models_of_false hff σ]
  | false =>
    have hsub : ∀ a ∈ handed assertions extra, a ∈ extra :: assertions := by
      intro a ha
      rw [handed, hff, if_neg (by simp)] at ha
      split_ifs at ha <;> simp at ha ⊢ <;> tauto
    have hspec := asserted_foldlM sharing (initial_inv Γ) fun a ha => htyped a (hsub a ha)
    simp only [Bool.false_eq_true, if_false]
    cases hrun : (handed assertions extra).foldlM (assert sharing) initial with
    | error abort =>
      rw [hrun] at hspec
      refine ⟨fun hcnt => ?_, fun query hqry => nomatch hqry⟩
      cases abort with
      | constants =>
        have hrange : tmpConstMin ≤ tmpConstMax := by decide
        have hstart : initial.tmpConstNum = tmpConstMin := rfl
        rw [Asserted] at hspec
        omega
      | invalid =>
        obtain ⟨a, ha, hnot⟩ := hspec
        exact ⟨fun ⟨query, hqry⟩ => (nomatch hqry), fun hidx => absurd (hidx a ha) hnot⟩
    | ok v =>
      rw [hrun] at hspec
      obtain ⟨-, hidx, -, hsnd, hext⟩ := hspec
      refine ⟨fun _ => ⟨fun _ => hidx, fun _ => ⟨_, rfl⟩⟩, fun query hqry σ hmean => ?_⟩
      cases hqry
      rw [← models_handed hff]
      constructor
      · intro hmod
        obtain ⟨τ, -, hsat⟩ := hext.satisfied σ (fun _ _ _ => 0) ⟨hmean, hmod⟩
          fun _ _ c hc => nomatch hc
        exact ⟨_, rfl, τ, hsat τ fun _ _ => rfl⟩
      · rintro ⟨constraints, hmem, τ, hsat⟩
        cases hmem
        exact hsnd σ τ hmean hsat

namespace Sample

def byte (n : Nat) : Operation := .constantInt (APInt.ofNat 8 n)

def symbol (name : String) (width : Nat) : Operation :=
  .mk (.constant (.int width) (.named name)) []

def access (index : Operation) : Assertion where
  value := .mk (.icmp .eq) [.mk .load [.mk (.fixedArray 1) [byte 1, byte 2], index], byte 2]
  type_eq := rfl

theorem access_typed (h : index.Interpreted) (htype : index.type = .int 1) :
    (access index).value.Interpreted := by
  have hload : (Operation.mk .load [.mk (.fixedArray 1) [byte 1, byte 2], index]).WellTyped
      OperationData.interpreted := by
    refine Operation.wellTyped_mk.mpr ⟨rfl, ?_, ?_⟩
    · simp [OperationData.accepts, htype, Operation.type_mk, OperationData.type]
    · simp only [mem_cons, not_mem_nil, or_false, forall_eq_or_imp, forall_eq]
      exact ⟨by decide, h⟩
  refine Operation.wellTyped_mk.mpr ⟨rfl, rfl, ?_⟩
  simp only [mem_cons, not_mem_nil, or_false, forall_eq_or_imp, forall_eq]
  exact ⟨hload, by decide⟩

theorem allVisited_access {P : NodeCondition}
    (hbyte : ∀ n, P (.constantInt (APInt.ofNat 8 n)) []) (harr : P (.fixedArray 1) [byte 1, byte 2])
    (hload : P .load [.mk (.fixedArray 1) [byte 1, byte 2], index])
    (hcmp : ∀ l r, P (.icmp .eq) [l, r]) (hidx : AllVisited P index) :
    AllVisited P (access index).value := by
  have hb : ∀ n, AllVisited P (byte n) := fun n => .mk (hbyte n) fun o ho => nomatch ho
  refine .mk (hcmp _ _) ?_
  simp only [visitedFrom, skips, Bool.false_eq_true, if_false, mem_cons, not_mem_nil,
    or_false, forall_eq_or_imp, forall_eq]
  refine ⟨.mk hload ?_, hb 2⟩
  simp only [visitedFrom, skips, Bool.false_eq_true, if_false, mem_cons, not_mem_nil,
    or_false, forall_eq_or_imp, forall_eq]
  refine ⟨.mk harr ?_, hidx⟩
  simp only [visitedFrom, skips, Bool.false_eq_true, if_false, mem_cons, not_mem_nil,
    or_false, forall_eq_or_imp, forall_eq]
  exact ⟨hb 1, hb 2⟩

theorem access_admissible {Γ : Symbol → Ty} (h : AllVisited (Admissible Γ) index) :
    AllVisited (Admissible Γ) (access index).value :=
  allVisited_access (fun n => ⟨Nat.zero_lt_succ 7, by simp, by simp, by simp⟩)
    ⟨Nat.zero_lt_one, by simp, by simp, by simp⟩ ⟨Nat.zero_lt_succ 7, by simp, by simp, by simp⟩
    (fun l r => ⟨Nat.zero_lt_one, by simp, by simp, by simp⟩) h

theorem access_meaningful (hty : index.Interpreted)
    (htype : index.type = .int 1) {σ : Assignment} (h : Meaningful index σ) :
    Meaningful (access index).value σ := by
  obtain ⟨hin, hrem⟩ := h
  constructor
  · refine allVisited_access (fun n => trivial) trivial ?_ (fun l r => trivial) hin
    intro w x hx
    obtain ⟨y, hy⟩ := hty.eval_int htype σ
    rw [hy] at hx
    cases hx
    exact y.isLt
  · exact allVisited_access (fun n => trivial) trivial trivial (fun l r => trivial) hrem

theorem symbol_admissible (name : String) {width : Nat} (h : 0 < width) :
    AllVisited (Admissible fun _ => .int width) (symbol name width) := by
  refine .mk ⟨h, by simp, fun t s hd => ?_, by simp⟩ fun o ho => nomatch ho
  cases hd
  rfl

end Sample

open Z3.Sample in
theorem resolve_exact_access : ∃ query,
    resolve .full [access (symbol "i" 1)] (.constant true) = .ok query ∧
      ∀ σ, (Assertion.Models σ [.constant true, access (symbol "i" 1)] ↔
        ∃ constraints ∈ query, ∃ τ, Satisfies (model σ τ) constraints) := by
  have hidx : ∀ {P : NodeCondition},
      P (.constant (.int 1) (.named "i")) [] → AllVisited P (symbol "i" 1) :=
    fun h => .mk h fun o ho => nomatch ho
  have hhanded : handed [access (symbol "i" 1)] (.constant true) = [access (symbol "i" 1)] := by
    decide
  have hex := resolve_exact .full (fun _ => .int 1) [access (symbol "i" 1)] (.constant true) (by
    simp only [mem_cons, not_mem_nil, or_false, forall_eq_or_imp, forall_eq]
    refine ⟨⟨by decide, .mk ⟨by decide, nofun, nofun, nofun⟩ fun o ho => nomatch ho⟩, ?_⟩
    exact ⟨access_typed (by decide) rfl, access_admissible (symbol_admissible "i" Nat.zero_lt_one)⟩)
  rw [hhanded] at hex
  obtain ⟨hsorted, hmdl⟩ := hex
  obtain ⟨query, hqry⟩ := (hsorted (by decide)).mpr (forall_mem_singleton.mpr
    (allVisited_access (fun n => rfl) rfl rfl (fun l r => rfl) (hidx rfl)))
  exact ⟨query, hqry, fun σ => hmdl query hqry σ (forall_mem_singleton.mpr
    (access_meaningful (by decide) rfl ⟨hidx trivial, hidx trivial⟩))⟩

namespace Sample

def minusOne : Assignment := ⟨fun _ _ => -1, fun _ _ _ => 0, fun _ => .poison⟩

def remainder : Assertion where
  value := .mk (.icmp .eq) [.mk (.binary .srem (.int 8)) [symbol "x" 8, byte 2], byte 255]
  type_eq := rfl

theorem remainder_admissible : AllVisited (Admissible fun _ => .int 8) remainder.value := by
  have hb : ∀ n, AllVisited (Admissible fun _ => .int 8) (byte n) :=
    fun n => .mk ⟨Nat.zero_lt_succ 7, by simp, by simp, by simp⟩ fun o ho => nomatch ho
  refine .mk ⟨Nat.zero_lt_one, by simp, by simp, by simp⟩ ?_
  simp only [visitedFrom, skips, Bool.false_eq_true, if_false, mem_cons, not_mem_nil,
    or_false, forall_eq_or_imp, forall_eq]
  refine ⟨.mk ⟨Nat.zero_lt_succ 7, by simp, by simp, by simp⟩ ?_, hb 255⟩
  simp only [visitedFrom, skips, Bool.false_eq_true, if_false, mem_cons, not_mem_nil,
    or_false, forall_eq_or_imp, forall_eq]
  exact ⟨symbol_admissible "x" (Nat.zero_lt_succ 7), hb 2⟩

end Sample

open Z3.Sample in
/-- The remainder of minus one by two: the solver is given that with the sign of the divisor. -/
theorem resolve_srem_differs :
    remainder.value.Interpreted ∧
      AllVisited (Admissible fun _ => .int 8) remainder.value ∧
      remainder.Holds minusOne ∧
      ∃ constraints, resolve .full [remainder] (.constant true) = .ok (some constraints) ∧
        ∀ τ, ¬ Satisfies (model minusOne τ) constraints := by
  refine ⟨by decide, remainder_admissible, ?_, _, rfl, fun τ hsat => ?_⟩
  · rfl
  · have hremainder := hsat _ mem_cons_self
    simp only [Term.eval, comparison, Pred.eval, BinOp.eval, model, minusOne] at hremainder
    revert hremainder
    decide

end Z3

end Caffeine
