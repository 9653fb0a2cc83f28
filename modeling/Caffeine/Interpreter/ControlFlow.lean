import Caffeine.Interpreter.PathCondition
import Caffeine.Model.EGraphPath

/-!
# Branches and switches divide the path condition

A conditional branch or a switch has one alternative for each way control can go: a guard on
assignments and a successor block. The interpreter leaves out the alternatives whose guard the
solver refutes, and reuses the executing context for the default of a switch.
-/

namespace Caffeine

open Operation Assertion OperationSimplifier List
open Option hiding bind_assoc guard

variable {σ : Assignment} {cache : OperationCache} {w : Nat}

/-! ### Comparison with a literal -/

theorem createICmp_literal (cache : OperationCache) {condition : Operation}
    (ht : condition.type = .int w) (c : BitVec w) :
    ∃ o r, createICmp cache .eq condition (constantInt ⟨w, c⟩) = some o ∧ o.type = .bool ∧
      visitNot (.int 1) o = some r ∧ r.type = .bool ∧
      ∀ σ x, condition.eval σ = .int ⟨w, x⟩ → o.eval σ = .int ⟨1, BitVec.ofBool (x == c)⟩ := by
  have hcr : createICmp cache .eq condition (constantInt ⟨w, c⟩) =
      visitICmp cache .eq condition (constantInt ⟨w, c⟩) := by
    have htype : (constantInt ⟨w, c⟩).type = .int w := rfl
    simp [createICmp, Operation.create, ht, htype, OperationData.accepts, OperationSimplifier.visit]
  have hlit : constantInt? (constantInt ⟨w, c⟩) = some ⟨w, c⟩ := rfl
  rw [hcr]
  cases hcond : constantInt? condition with
  | some v =>
    let folded := constantInt (APInt.ofBool (APInt.constantIntCompare .eq v ⟨w, c⟩))
    refine ⟨folded, _, by simp only [visitICmp, tryConstInt, hcond, hlit, folded], rfl, rfl,
      rfl, fun σ x hx => ?_⟩
    obtain ⟨d, ops⟩ := condition
    simp only [constantInt?, data_mk] at hcond
    split at hcond
    · cases hcond
      rw [eval_mk] at hx
      cases hx
      simp only [folded, Semantics.constantIntCompare_eq, APInt.resize_width]
      rfl
    · cases hcond
  | none =>
    have hsame : cache.same condition (constantInt ⟨w, c⟩) = false := by
      rw [Bool.eq_false_iff]
      intro h
      rw [cache.eq_of_same _ _ h] at hcond
      cases hcond
    refine ⟨.mk (.icmp .eq) [condition, constantInt ⟨w, c⟩], _, ?_, rfl, rfl, rfl, fun σ x hx => ?_⟩
    · simp [visitICmp, tryConstInt, hcond, hsame]
    · rw [eval_mk, map_cons, map_singleton, hx]
      simp only [constantInt, eval_mk, Semantics.apply, Semantics.icmp, APInt.resize_width]
      rfl

theorem exists_caseAssertion (cache : OperationCache) {condition : Operation}
    (ht : condition.type = .int w) (c : BitVec w) :
    ∃ a n, (do ofValue (← createICmp cache .eq condition (constantInt ⟨w, c⟩))) = some a ∧
      a.not cache = some n ∧ ∀ σ x, condition.eval σ = .int ⟨w, x⟩ →
        (a.Holds σ ↔ x = c) ∧ (n.Holds σ ↔ x ≠ c) := by
  obtain ⟨o, r, hcr, hto, hr, htr, hval⟩ := createICmp_literal cache ht c
  have hnot : (Assertion.mk o hto).not cache = some ⟨r, htr⟩ := not_eq_of_visitNot hr htr
  refine ⟨⟨o, hto⟩, ⟨r, htr⟩, ?_, hnot, fun σ x hx => ?_⟩
  · rw [hcr]
    exact ofValue_eq_some.mpr rfl
  · have hholds : (Assertion.mk o hto).Holds σ ↔ x = c := by
      rw [Holds, hval σ x hx]
      by_cases h : x = c
      · simp [h]
      · simp [h, beq_eq_false_iff_ne.mpr h]
    exact ⟨hholds, (holds_not_iff (hval σ x hx) hnot).trans (not_congr hholds)⟩

/-! ### The alternatives of an instruction -/

variable {G : Type} [PathGraph G] {operand : Operand} {ctx : Context G} {inst : Instruction}

namespace Interpreter

def caseAlternative (condition : Operation) (c : APInt × BlockId) : Alternative where
  guard σ := condition.eval σ = .int c.1
  block := c.2

/-- The alternatives of a branch or a switch on a condition, the default of a switch first. -/
def alternatives (condition : Operation) : Instruction → List Alternative
  | .condBr _ successor0 successor1 =>
    [⟨fun σ => condition.eval σ = .int ⟨1, 1⟩, successor0⟩,
      ⟨fun σ => condition.eval σ ≠ .int ⟨1, 1⟩, successor1⟩]
  | .switch _ defaultDest cases =>
    ⟨fun σ => ∀ c ∈ cases, condition.eval σ ≠ .int c.1, defaultDest⟩ ::
      cases.map (caseAlternative condition)
  | _ => []

/-- The comparisons that a branch or a switch on a condition makes. -/
def comparisons (cache : OperationCache) (condition : Operation) :
    Instruction → List (Option Assertion)
  | .condBr .. => [ofValue condition]
  | .switch _ _ cases =>
    cases.map fun c => do ofValue (← createICmp cache .eq condition (constantInt c.1))
  | _ => []

/-- The assertion is one of them or the negation of one. -/
def Adds (cache : OperationCache) (condition : Operation) (inst : Instruction) (a : Assertion) :
    Prop :=
  ∃ b, some b ∈ comparisons cache condition inst ∧ (a = b ∨ b.not cache = some a)

/-- Of the right width, well typed, and an integer in every model of the path condition. -/
structure IsCondition (w : Nat) (pathCondition : List Assertion) (condition : Operation) :
    Prop where
  typed : condition.WellTyped fun _ => true
  type : condition.type = .int w
  value : ∀ σ, Models σ pathCondition → ∃ x : BitVec w, condition.eval σ = .int ⟨w, x⟩

variable {shared : CaffeineContext} {interp : InterpreterContext G} {condition : Operation}
  {allowed : Assertion → Prop}

theorem outcome_of_check {extra : Assertion} {block : BlockId} {guard : Assignment → Prop}
    (hunsat : shared.solver.UnsatSound) (hblk : interp.context.HasBlock block)
    (hadds : allowed extra)
    (hgd : ∀ σ, Models σ interp.context.assertions → (extra.Holds σ ↔ guard σ)) (m : Nat)
    (hasked : interp.context.After allowed ctx) (state : InterpreterContext G)
    (hstate : interp.context.After allowed state.context) :
    ∃ outcome, Outcome interp.context.assertions ⟨guard, block⟩ outcome ∧
      forkFor (ctx.check shared m extra) extra block state =
      some { state with
        forks := state.forks ++ [outcome].reduceOption.map ({ context := · }) } := by
  unfold forkFor
  split_ifs with hu
  · exact ⟨none, .pruned fun σ hσ hg => Context.solver_unsatSound hunsat hasked.keeps _ _ _ hu σ
      ((hasked.models σ).mpr hσ) ((hgd σ hσ).mpr hg), by simp⟩
  · obtain ⟨next, hfork, hat, hmod⟩ :=
      exists_forkTo state (hblk.of_stack hstate.stack) hstate.keeps hadds
    refine ⟨some next, .taken hat fun σ => ?_, hfork⟩
    rw [hmod, hstate.models]
    exact and_congr_right (hgd σ)

theorem visitBranchInst_outcomes {successor0 successor1 : BlockId}
    (hunsat : shared.solver.UnsatSound) (hforks : interp.forks = [])
    (hload : interp.context.load operand = some (.scalar (.expr condition)))
    (hcond : IsCondition 1 interp.context.assertions condition) (hkeeps : PathGraph.Keeps
      (Adds shared.cache condition (.condBr operand successor0 successor1)) interp.context.graph)
    (h0 : interp.context.HasBlock successor0) (h1 : interp.context.HasBlock successor1) :
    ∃ interp' outcomes,
      visitBranchInst shared operand successor0 successor1 interp = some interp' ∧
      Forall₂ (Outcome interp.context.assertions)
        (alternatives condition (.condBr operand successor0 successor1)) outcomes ∧
      Executor.live interp' = outcomes.reduceOption := by
  let assertion : Assertion := ⟨condition, hcond.type⟩
  have hval : ofValue condition = some assertion := ofValue_eq_some.mpr rfl
  obtain ⟨negated, hnot⟩ : ∃ n, assertion.not shared.cache = some n :=
    exists_not shared.cache hcond.typed
  have hnegated : ∀ σ, Models σ interp.context.assertions →
      (negated.Holds σ ↔ condition.eval σ ≠ .int ⟨1, 1⟩) := fun σ hσ => by
    obtain ⟨x, hx⟩ := hcond.value σ hσ
    exact holds_not_iff (a := assertion) hx hnot
  have hfirst := (Context.After.refl hkeeps).asked
  have hmem : some assertion ∈
      comparisons shared.cache condition (.condBr operand successor0 successor1) :=
    mem_singleton.mpr hval.symm
  let asked : InterpreterContext G := { interp.setContext interp.context.asked.asked with
    queries := interp.queries + 1 + 1 }
  obtain ⟨o0, hout0, hrun0⟩ := outcome_of_check hunsat h0 ⟨assertion, hmem, .inl rfl⟩
    (fun σ _ => Iff.rfl) interp.queries hfirst asked hfirst.asked
  obtain ⟨o1, hout1, hrun1⟩ := outcome_of_check hunsat h1 ⟨assertion, hmem, .inr hnot⟩ hnegated
    (interp.queries + 1) hfirst.asked
    { asked with forks := asked.forks ++ [o0].reduceOption.map ({ context := · }) } hfirst.asked
  refine ⟨InterpreterContext.kill { asked with
    forks := asked.forks ++ [o0].reduceOption.map ({ context := · }) ++
      [o1].reduceOption.map ({ context := · }) }, [o0, o1], ?_, .cons hout0 (.cons hout1 .nil), ?_⟩
  · simp only [visitBranchInst, hload, LLVMValue.expr?, hval, hnot, some_bind]
    refine bind_eq_some_iff.mpr ⟨_, hrun0, ?_⟩
    exact bind_eq_some_iff.mpr ⟨_, hrun1, rfl⟩
  · refine Executor.live_eq [o0, o1].reduceOption ?_
    simp only [InterpreterContext.kill, InterpreterContext.setContext, asked, hforks, nil_append,
      ← map_append, ← reduceOption_append, singleton_append]

theorem switchCases_outcomes (hunsat : shared.solver.UnsatSound)
    (hcond : IsCondition w interp.context.assertions condition) (cases : List (APInt × BlockId))
    (hcases : ∀ c ∈ cases, c.1.width = w ∧ interp.context.HasBlock c.2) (hadds : ∀ c ∈ cases, ∀ b,
      (do ofValue (← createICmp shared.cache .eq condition (constantInt c.1))) = some b →
        allowed b ∧ ∀ n, b.not shared.cache = some n → allowed n)
    (state : InterpreterContext G) (hstate : interp.context.After allowed state.context) :
    ∃ negated state' outcomes, switchCases shared condition cases state = some (negated, state') ∧
      interp.context.After allowed state'.context ∧ state'.isDead = state.isDead ∧
      state'.forks = state.forks ++ outcomes.reduceOption.map ({ context := · }) ∧
      Forall₂ (Outcome interp.context.assertions) (cases.map (caseAlternative condition))
        outcomes ∧ (∀ n ∈ negated, allowed n) ∧
      ∀ σ, Models σ interp.context.assertions →
        ((∀ n ∈ negated, n.Holds σ) ↔ ∀ c ∈ cases, condition.eval σ ≠ .int c.1) := by
  induction cases generalizing state with
  | nil => exact ⟨[], state, [], rfl, hstate, rfl, by simp, .nil, by simp, by simp⟩
  | cons c cases ih =>
    obtain ⟨⟨width, value⟩, block⟩ := c
    obtain ⟨⟨rfl, hblk⟩, hcases⟩ := forall_mem_cons.mp hcases
    obtain ⟨hadd, hadds⟩ := forall_mem_cons.mp hadds
    obtain ⟨a, n, ha, hn, hholds⟩ := exists_caseAssertion shared.cache hcond.type value
    obtain ⟨halw, hneg⟩ := hadd a ha
    have hgd : ∀ σ, Models σ interp.context.assertions →
        (a.Holds σ ↔ condition.eval σ = .int ⟨width, value⟩) := fun σ hσ => by
      obtain ⟨x, hx⟩ := hcond.value σ hσ
      rw [(hholds σ x hx).1, hx]
      simp
    let asked : InterpreterContext G :=
      { state.setContext state.context.asked with queries := state.queries + 1 }
    have hasked : interp.context.After allowed asked.context := hstate.asked
    by_cases hu : asked.context.check shared state.queries a = .UNSAT
    · obtain ⟨negated, state', outcomes, hrun, hafter, hdead, hforks, hall, hnegated⟩ :=
        ih hcases hadds asked hasked
      have hno : ∀ σ, Models σ interp.context.assertions →
          condition.eval σ ≠ .int ⟨width, value⟩ := fun σ hσ hv =>
        Context.solver_unsatSound hunsat hasked.keeps _ _ _ hu σ ((hasked.models σ).mpr hσ)
          ((hgd σ hσ).mpr hv)
      refine ⟨negated, state', none :: outcomes, ?_, hafter, hdead, hforks,
        .cons (.pruned hno) hall, hnegated.1, fun σ hσ => ?_⟩
      · rw [switchCases, ← bind_assoc, ha]
        exact (if_pos hu).trans hrun
      · rw [hnegated.2 σ hσ, forall_mem_cons, and_iff_right (hno σ hσ)]
    · obtain ⟨ctx, hfork, hat, hmod⟩ :=
        exists_forkTo asked (hblk.of_stack hasked.stack) hasked.keeps halw
      obtain ⟨negated, state', outcomes, hrun, hafter, hdead, hforks, hall, hnegated⟩ :=
        ih hcases hadds (asked.fork { context := ctx }) hasked
      refine ⟨n :: negated, state', some ctx :: outcomes, ?_, hafter, hdead, ?_,
        .cons (.taken hat fun σ => ?_) hall, forall_mem_cons.mpr ⟨hneg n hn, hnegated.1⟩,
        fun σ hσ => ?_⟩
      · rw [switchCases, ← bind_assoc, ha]
        refine (if_neg hu).trans ?_
        refine bind_eq_some_iff.mpr ⟨n, hn, bind_eq_some_iff.mpr ⟨_, hfork, ?_⟩⟩
        exact bind_eq_some_iff.mpr ⟨_, hrun, rfl⟩
      · rw [hforks]
        simp [InterpreterContext.fork, InterpreterContext.setContext, asked]
      · rw [hmod, hasked.models]
        exact and_congr_right (hgd σ)
      · obtain ⟨x, hx⟩ := hcond.value σ hσ
        rw [forall_mem_cons, forall_mem_cons, hnegated.2 σ hσ, (hholds σ x hx).2, hx]
        simp

theorem visitSwitchInst_outcomes {defaultDest : BlockId} {cases : List (APInt × BlockId)}
    (hunsat : shared.solver.UnsatSound) (hforks : interp.forks = [])
    (halive : interp.isDead = false)
    (hload : interp.context.load operand = some (.scalar (.expr condition)))
    (hcond : IsCondition w interp.context.assertions condition)
    (hkeeps : PathGraph.Keeps (Adds shared.cache condition (.switch operand defaultDest cases))
      interp.context.graph)
    (hdefault : interp.context.HasBlock defaultDest)
    (hcases : ∀ c ∈ cases, c.1.width = w ∧ interp.context.HasBlock c.2) :
    ∃ interp' outcomes, visitSwitchInst shared operand defaultDest cases interp = some interp' ∧
      Forall₂ (Outcome interp.context.assertions)
        (alternatives condition (.switch operand defaultDest cases)) outcomes ∧
      Executor.live interp' = outcomes.reduceOption := by
  obtain ⟨negated, state, outcomes, hrun, hafter, hdead, hstate, hall, halw, hnegated⟩ :=
    switchCases_outcomes hunsat hcond cases hcases (fun c hc b hb => by
      have hmem : some b ∈ comparisons shared.cache condition (.switch operand defaultDest cases) :=
        List.mem_map.mpr ⟨c, hc, hb⟩
      exact ⟨⟨b, hmem, .inl rfl⟩, fun n hn => ⟨b, hmem, .inr hn⟩⟩) interp (.refl hkeeps)
  let rest := negated.foldl Context.add state.context
  obtain ⟨hrest, hadded⟩ := Context.models_foldl_add hafter.keeps halw
  have hmod : ∀ σ, Models σ rest.asked.assertions ↔ Models σ interp.context.assertions ∧
      ∀ c ∈ cases, condition.eval σ ≠ .int c.1 := fun σ => by
    rw [(Context.After.refl hrest).asked.models, hadded, hafter.models]
    exact and_congr_right (hnegated σ)
  let asked : InterpreterContext G :=
    { state.setContext rest.asked with queries := state.queries + 1 }
  have hvis : visitSwitchInst shared operand defaultDest cases interp =
      if rest.asked.check shared state.queries (.constant true) = .UNSAT then some asked.kill
      else (do some (asked.setContext (← rest.asked.jumpTo defaultDest))) := by
    simp only [visitSwitchInst, hload, LLVMValue.expr?, hrun, some_bind]
    rfl
  rw [hvis]
  rw [hforks, nil_append] at hstate
  by_cases hu : rest.asked.check shared state.queries (.constant true) = .UNSAT
  · refine ⟨asked.kill, none :: outcomes, if_pos hu, .cons (.pruned fun σ hσ hg => ?_) hall, ?_⟩
    · exact Context.solver_unsatSound hunsat (Context.After.refl hrest).asked.keeps _ _ _ hu σ
        ((hmod σ).mpr ⟨hσ, hg⟩) ((holds_constant σ true).mpr rfl)
    · exact Executor.live_eq outcomes.reduceOption hstate
  · have hstack : rest.asked.stack = interp.context.stack :=
      (Context.stack_foldl_add state.context negated).trans hafter.stack
    obtain ⟨ctx, hjump, hasns, hat⟩ := Context.exists_jumpTo (hdefault.of_stack hstack)
    refine ⟨asked.setContext ctx, some ctx :: outcomes, ?_, .cons (.taken hat fun σ => ?_) hall, ?_⟩
    · rw [if_neg hu, hjump]
      rfl
    · rw [hasns, hmod]
    · have hdead : (asked.setContext ctx).isDead = false := hdead.trans halive
      have hlive : Executor.live (asked.setContext ctx) = _ :=
        Executor.live_eq outcomes.reduceOption hstate
      rw [hlive, hdead]
      rfl

/-! ### The step of a branch or a switch -/

def condition? : Instruction → Option Operand
  | .condBr condition _ _ => some condition
  | .switch condition _ _ => some condition
  | _ => none

/-- The successor that LLVM prescribes for a value of the condition. -/
def successor : Instruction → APInt → Option BlockId
  | .condBr _ successor0 successor1, v => some (if v = ⟨1, 1⟩ then successor0 else successor1)
  | .switch _ defaultDest cases, v => some (((cases.find? (·.1 = v)).map (·.2)).getD defaultDest)
  | _, _ => none

/-- Branches on one bit, switches with distinct case values of the width of the condition, and
successors in the function. -/
def WellFormed (ctx : Context G) (w : Nat) : Instruction → Prop
  | .condBr _ successor0 successor1 => w = 1 ∧ ctx.HasBlock successor0 ∧ ctx.HasBlock successor1
  | .switch _ defaultDest cases => ctx.HasBlock defaultDest ∧
    (∀ c ∈ cases, c.1.width = w ∧ ctx.HasBlock c.2) ∧ (cases.map Prod.fst).Nodup
  | _ => False

omit [PathGraph G] in
theorem WellFormed.imp {ctx' : Context G} (h : WellFormed ctx w inst)
    (hblk : ∀ block, ctx.HasBlock block → ctx'.HasBlock block) : WellFormed ctx' w inst := by
  cases inst with
  | condBr _ successor0 successor1 => exact ⟨h.1, hblk _ h.2.1, hblk _ h.2.2⟩
  | switch _ defaultDest cases =>
    exact ⟨hblk _ h.1, fun c hc => ⟨(h.2.1 c hc).1, hblk _ (h.2.1 c hc).2⟩, h.2.2⟩
  | _ => exact h.elim

omit [PathGraph G] in
theorem alternatives_exactlyOne {v : APInt} (hwf : WellFormed ctx w inst)
    (hv : condition.eval σ = .int v) :
    (alternatives condition inst).ExactlyOne fun alt => alt.guard σ := by
  cases inst with
  | condBr _ successor0 successor1 =>
    rw [alternatives, List.exactlyOne_cons, List.exactlyOne_singleton]
    by_cases hone : condition.eval σ = .int ⟨1, 1⟩
    · exact .inl ⟨hone, by simp [hone]⟩
    · exact .inr ⟨hone, hone⟩
  | switch _ defaultDest cases =>
    have hcases : ((cases.map (caseAlternative condition)).ExactlyOne fun alt => alt.guard σ) ↔
        (cases.map Prod.fst).ExactlyOne (v = ·) := by
      rw [List.exactlyOne_map, List.exactlyOne_map]
      exact List.ExactlyOne.congr fun c _ => by simp [caseAlternative, hv]
    rw [alternatives, List.exactlyOne_cons, hcases]
    by_cases hmem : v ∈ cases.map Prod.fst
    · obtain ⟨c, hc, rfl⟩ := List.mem_map.mp hmem
      exact .inr ⟨fun h => h c hc hv, hwf.2.2.exactlyOne hmem⟩
    · have hnone : ∀ c ∈ cases, condition.eval σ ≠ .int c.1 := fun c hc h =>
        hmem (List.mem_map.mpr ⟨c, hc, Val.int.inj (h.symm.trans hv)⟩)
      exact .inl ⟨hnone, List.forall_mem_map.mpr hnone⟩
  | _ => exact hwf.elim

omit [PathGraph G] in
theorem alternatives_block {v : APInt} {alt : Alternative} (hwf : WellFormed ctx w inst)
    (hv : condition.eval σ = .int v) (halt : alt ∈ alternatives condition inst)
    (hgd : alt.guard σ) : successor inst v = some alt.block := by
  cases inst with
  | condBr _ successor0 successor1 =>
    rcases mem_pair.mp halt with rfl | rfl
    · have hone : v = ⟨1, 1⟩ := Val.int.inj (hv.symm.trans hgd)
      rw [successor, if_pos hone]
    · have hne : v ≠ ⟨1, 1⟩ := fun h => hgd (h ▸ hv)
      rw [successor, if_neg hne]
  | switch _ defaultDest cases =>
    rcases mem_cons.mp halt with rfl | halt
    · have hnone : cases.find? (·.1 = v) = none := by
        rw [List.find?_eq_none]
        intro c hc hcv
        exact hgd c hc (of_decide_eq_true hcv ▸ hv)
      rw [successor, hnone]
      rfl
    · obtain ⟨c, hc, rfl⟩ := List.mem_map.mp halt
      obtain rfl : c.1 = v := Val.int.inj (hgd.symm.trans hv)
      rw [successor, find?_fst_of_nodup hwf.2.2 hc]
      rfl
  | _ => exact hwf.elim

theorem visit_outcomes (interp : InterpreterContext G) (hunsat : shared.solver.UnsatSound)
    (hforks : interp.forks = []) (halive : interp.isDead = false)
    (hopd : condition? inst = some operand) (hwf : WellFormed interp.context w inst)
    (hload : interp.context.load operand = some (.scalar (.expr condition)))
    (hcond : IsCondition w interp.context.assertions condition)
    (hkeeps : PathGraph.Keeps (Adds shared.cache condition inst) interp.context.graph) :
    ∃ interp' outcomes, visit shared inst interp = some interp' ∧
      Forall₂ (Outcome interp.context.assertions) (alternatives condition inst) outcomes ∧
      Executor.live interp' = outcomes.reduceOption := by
  cases inst with
  | condBr _ successor0 successor1 =>
    cases hopd
    obtain ⟨rfl, h0, h1⟩ := hwf
    exact visitBranchInst_outcomes hunsat hforks hload hcond hkeeps h0 h1
  | switch _ defaultDest cases =>
    cases hopd
    exact visitSwitchInst_outcomes hunsat hforks halive hload hcond hkeeps hwf.1 hwf.2.1
  | _ => cases hopd

end Interpreter

namespace Sample

def switch : Instruction :=
  .switch (.ident 0) 1 [(APInt.ofNat 8 3, 2), (APInt.ofNat 8 5, 3)]

def symbol : Operation := .constant (.int 8) (.numbered 0)

def switchContext : Context (List Assertion) where
  stack := [⟨⟨[[switch], [], [], []]⟩, AList.singleton 0 (.scalar (.expr symbol)), 0, none, 0⟩]
  heaps := ∅
  graph := []

theorem symbol_isCondition (pathCondition : List Assertion) :
    Interpreter.IsCondition 8 pathCondition symbol where
  typed := by decide
  type := rfl
  value σ _ := ⟨_, rfl⟩

end Sample

open Sample

namespace Sample

/-- `select(c, 0, z ^ z) == 0`, which is always true. -/
def tautology : Assertion where
  value := .mk (.icmp .eq) [.mk (.select (.int 8)) [.constant (.int 1) (.numbered 1),
    .constantInt ⟨8, 0⟩, .mk (.binary .xor (.int 8)) [symbol, symbol]], .constantInt ⟨8, 0⟩]
  type_eq := rfl

def bit : Operation := .constant (.int 1) (.numbered 2)

def branch : Instruction := .condBr (.ident 0) 1 2

def branchContext : Context (EGraphPath .insertion .integerDefaults .full 10) where
  stack := [⟨⟨[[branch], [], []]⟩, AList.singleton 0 (.scalar (.expr bit)), 0, none, 0⟩]
  heaps := ∅
  graph := PathGraph.add (some {} : EGraphPath .insertion .integerDefaults .full 10) tautology

def ones : Assignment where
  int _ w := BitVec.ofNat w 1
  array _ _ _ := 0
  node _ := .poison

end Sample

end Caffeine
