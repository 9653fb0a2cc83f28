import Caffeine.Model.AssertionList

/-!
# Constraint slicing

`ConstraintSlicer` keeps the unproven assertions of a list, and of the proven ones those that
share a symbol with an unproven assertion or with the query. Proven assertions that are connected
to the query through other proven assertions only are left out.
-/

namespace Caffeine

open Assertion AssertionList List

namespace ConstraintSlicer

def containedConstants (expr : Operation) : List Symbol := expr.symbols.dedup

def known (assertions : AssertionList) (s : Symbol) : List Assertion :=
  assertions.proven.filter fun a => s ∈ containedConstants a.value

/-- Inserts the proven assertions that share a symbol with an expression. -/
def insertKnown (cache : OperationCache) (assertions : AssertionList) (expr : Operation)
    (list : AssertionList) : Option AssertionList :=
  (containedConstants expr).foldlM (fun list s => list.insertAll cache (known assertions s)) list

def slice (cache : OperationCache) (assertions : AssertionList) (extra : Assertion) :
    Option AssertionList := do
  let list ← assertions.unproven.foldlM
    (fun list a => do insertKnown cache assertions a.value (← list.insert cache a)) ∅
  let list ← insertKnown cache assertions extra.value list
  list.insertAll cache assertions.unproven

/-! ### The assertions of a slice -/

def shares (a b : Assertion) : Bool := a.value.symbols.any (· ∈ b.value.symbols)

/-- Whether an assertion shares a symbol with an unproven one or with the query. -/
def reached (assertions : AssertionList) (extra a : Assertion) : Bool :=
  (assertions.unproven ++ [extra]).any fun b => shares b a

def direct (assertions : AssertionList) (extra : Assertion) : List Assertion :=
  assertions.unproven ++ assertions.proven.filter (reached assertions extra)

def remaining (assertions : AssertionList) (extra : Assertion) : List Assertion :=
  assertions.proven.filter fun a => !reached assertions extra a

variable {assertions : AssertionList} {extra : Assertion} {allowed : OperationData → Bool}

theorem restrictsSymbols_interpreted : RestrictsSymbols OperationData.interpreted :=
  ⟨fun _ h => h, fun _ h _ => h⟩

theorem mem_known {s : Symbol} {a : Assertion} :
    a ∈ known assertions s ↔ a ∈ assertions.proven ∧ s ∈ a.value.symbols := by
  simp [known, containedConstants]

theorem insertKnown_inserted (cache : OperationCache) (hallowed : RestrictsSymbols allowed)
    (expr : Operation) (hty : ∀ a ∈ assertions.live, a.value.WellTyped allowed)
    (list : AssertionList) : ∃ list' added, insertKnown cache assertions expr list = some list' ∧
      Inserted allowed list list' ((containedConstants expr).flatMap (known assertions)) added := by
  refine foldlM_inserted _ (fun s _ list => ?_) list
  refine insertAll_inserted cache hallowed _ (fun a ha => ⟨?_, a.type_eq⟩) list
  exact hty a (assertions.live_eq ▸ mem_append_left _ (mem_known.mp ha).1)

theorem slice_inserted (cache : OperationCache) (hallowed : RestrictsSymbols allowed)
    (assertions : AssertionList) (extra : Assertion)
    (hty : ∀ a ∈ assertions.live, a.value.WellTyped allowed) :
    ∃ list as added, slice cache assertions extra = some list ∧ Inserted allowed ∅ list as added ∧
      ∀ a, a ∈ as ↔ a ∈ direct assertions extra := by
  have hunproven : ∀ a ∈ assertions.unproven, IsBool allowed a.value :=
    fun a ha => ⟨hty a (assertions.live_eq ▸ mem_append_right _ ha), a.type_eq⟩
  obtain ⟨first, added₁, hrun₁, hins₁⟩ := foldlM_inserted
    (f := fun list a => do insertKnown cache assertions a.value (← list.insert cache a))
    (g := fun a => [a] ++ (containedConstants a.value).flatMap (known assertions))
    assertions.unproven (fun a ha list => by
      obtain ⟨next, added, hrun, hins⟩ := insert_inserted cache hallowed list (hunproven a ha)
      obtain ⟨list', added', hrun', hins'⟩ :=
        insertKnown_inserted cache hallowed a.value hty next
      exact ⟨list', _, Option.bind_eq_some_iff.mpr ⟨next, hrun, hrun'⟩, hins.trans hins'⟩) ∅
  obtain ⟨second, added₂, hrun₂, hins₂⟩ :=
    insertKnown_inserted cache hallowed extra.value hty first
  obtain ⟨list, added₃, hrun₃, hins₃⟩ :=
    insertAll_inserted cache hallowed assertions.unproven hunproven second
  refine ⟨list, _, _, ?_, (hins₁.trans hins₂).trans hins₃, fun a => ?_⟩
  · exact Option.bind_eq_some_iff.mpr ⟨first, hrun₁, Option.bind_eq_some_iff.mpr ⟨second, hrun₂,
      hrun₃⟩⟩
  · simp only [mem_append, mem_flatMap, mem_singleton, mem_known, containedConstants,
      mem_dedup, direct, mem_filter, reached, shares, List.any_eq_true, decide_eq_true_eq]
    constructor
    · rintro ((⟨b, hb, rfl | ⟨s, hs, ha, hsa⟩⟩ | ⟨s, hs, ha, hsa⟩) | ha)
      · exact .inl hb
      · exact .inr ⟨ha, b, .inl hb, s, hs, hsa⟩
      · exact .inr ⟨ha, extra, .inr rfl, s, hs, hsa⟩
      · exact .inl ha
    · rintro (ha | ⟨ha, b, hb | rfl, s, hs, hsa⟩)
      · exact .inr ha
      · exact .inl (.inl ⟨b, hb, .inr ⟨s, hs, ha, hsa⟩⟩)
      · exact .inl (.inr ⟨s, hs, ha, hsa⟩)

theorem models_empty (σ : Assignment) : Models σ (∅ : AssertionList).live := by
  intro a ha
  cases ha

theorem slice_models (cache : OperationCache) (assertions : AssertionList) (extra : Assertion)
    (hty : ∀ a ∈ assertions.live, a.value.Interpreted) :
    ∃ list, slice cache assertions extra = some list ∧
      ∀ σ, Models σ list.live ↔ Models σ (direct assertions extra) := by
  obtain ⟨list, as, added, hrun, hins, hmem⟩ :=
    slice_inserted cache restrictsSymbols_interpreted assertions extra hty
  refine ⟨list, hrun, fun σ => ?_⟩
  rw [hins.models, and_iff_right (models_empty σ)]
  exact forall_congr' fun a => imp_congr_left (hmem a)

/-! ### Satisfiability -/

def Satisfiable (as : List Assertion) : Prop := ∃ σ, Models σ as

def symbols (as : List Assertion) : Set Symbol := {s | ∃ a ∈ as, s ∈ a.value.symbols}

variable {as : List Assertion}

theorem models_ofEnv (hty : ∀ a ∈ as, a.value.Interpreted) (σ : Assignment) :
    Models (.ofEnv σ.env) as ↔ Models σ as :=
  forall₂_congr fun a ha => by
    have hval := (hty a ha).eval_congr (σ := .ofEnv σ.env) (τ := σ) fun s _ => rfl
    rw [Holds, Holds, hval]

theorem dependsOn_models (hty : ∀ a ∈ as, a.value.Interpreted) :
    DependsOn (fun env => Models (.ofEnv env) as) (symbols as) :=
  dependsOn_forall_mem (R := fun (a : Assertion) env => a.Holds (.ofEnv env)) fun a ha x y hxy => by
    have hval := (hty a ha).eval_congr (σ := .ofEnv x) (τ := .ofEnv y) hxy
    simp only [Holds, hval]

theorem satisfiable_append_iff {bs : List Assertion} (has : ∀ a ∈ as, a.value.Interpreted)
    (hbs : ∀ b ∈ bs, b.value.Interpreted) :
    Satisfiable (as ++ bs) ↔ ∃ σ τ, Models σ as ∧ Models τ bs ∧
      ∀ s ∈ symbols as, s ∈ symbols bs → σ.env s = τ.env s := by
  have hglue := exists_and_iff_of_dependsOn (dependsOn_models has) (dependsOn_models hbs)
  constructor
  · rintro ⟨σ, hσ⟩
    obtain ⟨ha, hb⟩ := models_append.mp hσ
    exact ⟨σ, σ, ha, hb, fun _ _ _ => rfl⟩
  · rintro ⟨σ, τ, ha, hb, hagr⟩
    obtain ⟨env, ha, hb⟩ := hglue.mpr ⟨σ.env, τ.env, (models_ofEnv has σ).mpr ha,
      (models_ofEnv hbs τ).mpr hb, hagr⟩
    exact ⟨_, models_append.mpr ⟨ha, hb⟩⟩

theorem satisfiable_congr {bs : List Assertion} (h : ∀ σ, Models σ as ↔ Models σ bs) :
    Satisfiable as ↔ Satisfiable bs := exists_congr h

theorem models_live (σ : Assignment) : Models σ (assertions.live ++ [extra]) ↔
    Models σ ((direct assertions extra ++ [extra]) ++ remaining assertions extra) := by
  have hproven : Models σ assertions.proven ↔
      Models σ (assertions.proven.filter (reached assertions extra)) ∧
        Models σ (remaining assertions extra) := by
    constructor
    · exact fun h => ⟨fun a ha => h a (mem_filter.mp ha).1, fun a ha => h a (mem_filter.mp ha).1⟩
    · rintro ⟨hkept, hrest⟩ a ha
      by_cases hr : reached assertions extra a = true
      · exact hkept a (mem_filter.mpr ⟨ha, hr⟩)
      · exact hrest a (mem_filter.mpr ⟨ha, by simpa using hr⟩)
  simp only [live_eq, direct, models_append, hproven]
  tauto

theorem satisfiable_live_iff (hty : ∀ a ∈ assertions.live, a.value.Interpreted)
    (hextra : extra.value.Interpreted) :
    Satisfiable (assertions.live ++ [extra]) ↔ ∃ σ τ,
      Models σ (direct assertions extra ++ [extra]) ∧ Models τ (remaining assertions extra) ∧
        ∀ s ∈ symbols (direct assertions extra ++ [extra]),
          s ∈ symbols (remaining assertions extra) → σ.env s = τ.env s := by
  have hproven : ∀ a ∈ assertions.proven, a.value.Interpreted :=
    fun a ha => hty a (assertions.live_eq ▸ mem_append_left _ ha)
  have hdirect : ∀ a ∈ direct assertions extra ++ [extra],
      a.value.Interpreted := by
    intro a ha
    rcases mem_append.mp ha with ha | ha
    · rcases mem_append.mp ha with ha | ha
      · exact hty a (assertions.live_eq ▸ mem_append_right _ ha)
      · exact hproven a (mem_filter.mp ha).1
    · rwa [mem_singleton.mp ha]
  have hrem : ∀ a ∈ remaining assertions extra,
      a.value.Interpreted :=
    fun a ha => hproven a (mem_filter.mp ha).1
  rw [satisfiable_congr models_live, satisfiable_append_iff hdirect hrem]

theorem slice_satisfiable_iff (cache : OperationCache) (assertions : AssertionList)
    (extra : Assertion) (hty : ∀ a ∈ assertions.live, a.value.Interpreted) :
    ∃ list, slice cache assertions extra = some list ∧
      (Satisfiable (list.live ++ [extra]) ↔ Satisfiable (direct assertions extra ++ [extra])) := by
  obtain ⟨list, hrun, hmod⟩ := slice_models cache assertions extra hty
  exact ⟨list, hrun, satisfiable_congr fun σ => by rw [models_append, models_append, hmod]⟩

/-- A slice is equisatisfiable if no assertion it leaves out shares a symbol with the ones it
keeps. -/
theorem slice_equisatisfiable_of_disjoint (cache : OperationCache) (assertions : AssertionList)
    (extra : Assertion) (htyped : ∀ a ∈ assertions.live, a.value.Interpreted)
    (hextra : extra.value.Interpreted) (hproven : Satisfiable assertions.proven)
    (hdisjoint : ∀ a ∈ remaining assertions extra, ∀ b ∈ direct assertions extra ++ [extra],
      shares a b = false) :
    ∃ list, slice cache assertions extra = some list ∧
      (Satisfiable (list.live ++ [extra]) ↔ Satisfiable (assertions.live ++ [extra])) := by
  obtain ⟨list, hrun, hslice⟩ := slice_satisfiable_iff cache assertions extra htyped
  refine ⟨list, hrun, ?_⟩
  rw [hslice, satisfiable_live_iff htyped hextra]
  constructor
  · rintro ⟨σ, hσ⟩
    obtain ⟨τ, hτ⟩ := hproven
    refine ⟨σ, τ, hσ, fun a ha => hτ a (mem_filter.mp ha).1, ?_⟩
    rintro s ⟨b, hb, hsb⟩ ⟨a, ha, hsa⟩
    have hno := hdisjoint a ha b hb
    simp only [shares, List.any_eq_false, decide_eq_true_eq] at hno
    exact absurd hsb (hno s hsa)
  · rintro ⟨σ, τ, hσ, -, -⟩
    exact ⟨σ, hσ⟩

end ConstraintSlicer

namespace Sample

def slicedSymbol (n : Nat) : Operation := .constant (.int 8) (.numbered n)

def byteLiteral (v : Nat) : Operation := .constantInt (APInt.ofNat 8 v)

def below (lhs rhs : Operation) : Assertion := ⟨.mk (.icmp .ult) [lhs, rhs], rfl⟩

def chain : AssertionList :=
  ((∅ : AssertionList).insertPart (below (slicedSymbol 0) (slicedSymbol 1))
    |>.insertPart (below (slicedSymbol 1) (byteLiteral 3))).markSat

def separate : AssertionList :=
  ((∅ : AssertionList).insertPart (below (slicedSymbol 0) (slicedSymbol 1))
    |>.insertPart (below (slicedSymbol 2) (byteLiteral 3))).markSat

def aboveFive : Assertion := below (byteLiteral 5) (slicedSymbol 0)

theorem holds_below {σ : Assignment} {lhs rhs : Operation} {x y : BitVec 8}
    (hl : lhs.eval σ = .int ⟨8, x⟩) (hr : rhs.eval σ = .int ⟨8, y⟩) :
    (below lhs rhs).Holds σ ↔ x < y := by
  rw [Holds, below, Operation.eval_mk, map_cons, map_singleton, hl, hr]
  simp only [Semantics.apply, Semantics.icmp, Semantics.compare, APInt.resize_width, APInt.ofBool,
    Val.int.injEq, APInt.mk.injEq, heq_eq_eq, true_and, BitVec.lt_def, BitVec.ult]
  by_cases h : x.toNat < y.toNat
  · simp [h]
  · simp [h]

def values (x y : Nat) : Assignment where
  int s w := BitVec.ofNat w (if s = .numbered 0 then x else y)
  array _ _ _ := 0

end Sample

open Sample

namespace ConstraintSlicer

theorem models_values {x y : Nat} {as : List Assertion} (h : (as.all fun a =>
    ((a.value.eval (values x y)).toInt? = some ⟨1, 1⟩)) = true) :
    Models (values x y) as := by
  intro a ha
  have hval := of_decide_eq_true (List.all_eq_true.mp h a ha)
  rw [Holds]
  cases hv : a.value.eval (values x y) <;> simp_all [Val.toInt?]

/-- The assertion left out is about another symbol. -/
theorem slice_equisatisfiable_separate :
    remaining separate aboveFive =
      [below (slicedSymbol 2) (byteLiteral 3)] ∧
    ∃ list, slice .full separate aboveFive = some list ∧
      (Satisfiable (list.live ++ [aboveFive]) ↔
        Satisfiable (separate.live ++ [aboveFive])) :=
  ⟨by decide, slice_equisatisfiable_of_disjoint .full separate aboveFive (by decide)
    (by decide) ⟨values 0 1, models_values (by decide)⟩ (by decide)⟩

/-- The query contradicts the proven assertions, but not the slice. -/
theorem slice_chain_satisfiable : Satisfiable chain.proven ∧
    ∃ list, slice .full chain aboveFive = some list ∧
      Satisfiable (list.live ++ [aboveFive]) ∧
      ¬ Satisfiable (chain.live ++ [aboveFive]) := by
  refine ⟨⟨values 0 1, models_values (by decide)⟩, ?_⟩
  obtain ⟨list, hrun, hlive⟩ := Option.map_eq_some_iff.mp
    (show (slice .full chain aboveFive).map AssertionList.live =
      some [below (slicedSymbol 0) (slicedSymbol 1)] by decide +kernel)
  refine ⟨list, hrun, ⟨values 6 7, ?_⟩, ?_⟩
  · rw [hlive]
    exact models_values (by decide)
  · rintro ⟨σ, hσ⟩
    have hlive : chain.live = [below (slicedSymbol 0) (slicedSymbol 1),
      below (slicedSymbol 1) (byteLiteral 3)] := by decide
    rw [hlive] at hσ
    have hxy := (holds_below (σ := σ) rfl rfl).mp
      (hσ (below (slicedSymbol 0) (slicedSymbol 1)) (by simp))
    have hy := (holds_below (σ := σ) rfl rfl).mp
      (hσ (below (slicedSymbol 1) (byteLiteral 3)) (by simp))
    have hx := (holds_below (σ := σ) rfl rfl).mp (hσ aboveFive (by simp))
    bv_omega

end ConstraintSlicer

end Caffeine
