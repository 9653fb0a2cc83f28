import Caffeine.Interpreter.ControlFlow
import Caffeine.Util.Runs

/-!
# Exploring a program

The store and the workers hold a pool of contexts. A turn takes one of them, whichever the store
hands out, and what its step leaves live goes back to the pool.
-/

namespace Caffeine

open Assertion Interpreter List Option

variable {G : Type} [PathGraph G]

namespace PartitionsModels

variable {path : List Assertion} {ctx : Context G} {rest parts : List (Context G)}

theorem single (h : ∀ σ, Models σ ctx.assertions ↔ Models σ path) :
    PartitionsModels path [ctx] where
  covers σ hσ := exactlyOne_singleton.mpr ((h σ).mpr hσ)
  admits _ hctx σ hσ := (h σ).mp (mem_singleton.mp hctx ▸ hσ)

/-- The models of a context of the partition are divided further. -/
theorem replace (h : PartitionsModels path (ctx :: rest))
    (hparts : PartitionsModels ctx.assertions parts) : PartitionsModels path (parts ++ rest) where
  covers σ hσ := by
    rw [exactlyOne_append]
    rcases exactlyOne_cons.mp (h.covers σ hσ) with ⟨hctx, hrest⟩ | ⟨hctx, hrest⟩
    · exact .inl ⟨hparts.covers σ hctx, hrest⟩
    · exact .inr ⟨fun part hpart hσ => hctx (hparts.admits part hpart σ hσ), hrest⟩
  admits next hnext σ hσ := by
    rcases mem_append.mp hnext with hpart | hrest
    · exact h.admits ctx mem_cons_self σ (hparts.admits next hpart σ hσ)
    · exact h.admits next (mem_cons_of_mem _ hrest) σ hσ

end PartitionsModels

namespace Executor

/-- The context jumps, executes a PHI node, or branches or switches on a condition where the e-graph
keeps the models. -/
def Divides (cache : OperationCache) (ctx : Context G) : Instruction → Prop
  | .phi .. => True
  | .br _ => True
  | inst => ∃ w operand condition, condition? inst = some operand ∧ WellFormed ctx w inst ∧
      ctx.load operand = some (.scalar (.expr condition)) ∧
      IsCondition w ctx.assertions condition ∧ PathGraph.Keeps (Adds cache condition inst) ctx.graph

/-- The context is about to do so. -/
def Ready (cache : OperationCache) (ctx : Context G) : Prop :=
  ∃ top stack inst frame, ctx.stack = top :: stack ∧ fetch top = some (inst, frame) ∧
    Divides cache { ctx with stack := frame :: stack } inst

variable {shared : CaffeineContext} {interp interp' : InterpreterContext G} {ctx : Context G}

theorem partitions_moved {f : IRStackFrame → Option IRStackFrame} (hforks : interp.forks = [])
    (halive : interp.entry.dead = false) (h : interp.context.modifyTop f = some ctx) :
    PartitionsModels interp.context.assertions (live (interp.setContext ctx)) := by
  have hlive : live (interp.setContext ctx) = [ctx] := by
    simp [live, InterpreterContext.setContext, hforks, halive]
  rw [hlive]
  refine PartitionsModels.single fun σ => ?_
  unfold Context.modifyTop at h
  split at h
  · cases h
  · obtain ⟨frame, -, h⟩ := bind_eq_some_iff.mp h
    cases h
    exact Iff.rfl

theorem visit_partitions {inst : Instruction} (hunsat : shared.solver.UnsatSound)
    (hforks : interp.forks = []) (halive : interp.isDead = false)
    (hdivides : Divides shared.cache interp.context inst)
    (h : visit shared inst interp = some interp') :
    PartitionsModels interp.context.assertions (live interp') := by
  unfold Divides at hdivides
  split at hdivides
  · simp only [visit, visitPHINode, bind_eq_some, some.injEq] at h
    obtain ⟨_, -, _, -, _, -, _, -, next, hnext, rfl⟩ := h
    exact partitions_moved hforks halive hnext
  · simp only [visit, visitBr, bind_eq_some, some.injEq] at h
    obtain ⟨next, hnext, rfl⟩ := h
    exact partitions_moved hforks halive hnext
  · obtain ⟨w, operand, condition, hopd, hwf, hload, hcond, hkeeps⟩ := hdivides
    obtain ⟨next, outcomes, hvis, hall, hlive⟩ :=
      visit_outcomes interp hunsat hforks halive hopd hwf hload hcond hkeeps
    cases h.symm.trans hvis
    rw [hlive]
    refine (partitions_of_outcomes hall fun σ hσ => ?_).1
    obtain ⟨x, hx⟩ := hcond.value σ hσ
    exact alternatives_exactlyOne hwf hx

theorem turn_divides {queries : Nat} {kept stored : List (Context G)}
    (hunsat : shared.solver.UnsatSound) (hready : Ready shared.cache ctx)
    (h : turn shared ctx queries = some (kept, stored)) :
    PartitionsModels ctx.assertions (kept ++ stored) := by
  obtain ⟨top, stack, inst, frame, hstk, hfetch, hdivides⟩ := hready
  obtain ⟨interp, hrun, hend⟩ := bind_eq_some_iff.mp h
  cases hend
  let start : InterpreterContext G := ⟨{ context := ctx }, [], queries, []⟩
  let next := start.setContext { ctx with stack := frame :: stack }
  rw [execute_eq (show start.context.stack = _ from hstk) hfetch] at hrun
  have hlive := visit_partitions hunsat (show next.forks = [] from rfl) rfl hdivides hrun
  exact hlive.perm (endTurn_perm interp)

/-- A turn on the context at an index of the pool; the second number is that of its first query. -/
def explore (shared : CaffeineContext) (pool : List (Context G)) (choice : Nat × Nat) :
    Option (List (Context G)) := do
  let ctx ← pool[choice.1]?
  let (kept, stored) ← turn shared ctx choice.2
  some (kept ++ stored ++ pool.eraseIdx choice.1)

end Executor

end Caffeine
