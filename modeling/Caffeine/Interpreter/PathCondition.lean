import Caffeine.Interpreter.Interpreter
import Caffeine.Util.ExactlyOne

/-!
# Path conditions of contexts

A step of the interpreter turns one context into several. The path condition is kept if the
models of the old context are divided among the new ones.
-/

namespace Caffeine

open Assertion List

variable {G : Type} [PathGraph G]

/-- The models of the path condition satisfy exactly one of the contexts, and no other assignment
satisfies any. -/
structure PartitionsModels (pathCondition : List Assertion) (contexts : List (Context G)) :
    Prop where
  covers : ∀ σ, Models σ pathCondition → contexts.ExactlyOne fun ctx => Models σ ctx.assertions
  admits : ∀ ctx ∈ contexts, ∀ σ, Models σ ctx.assertions → Models σ pathCondition

variable {ctx ctx' : Context G} {frame : IRStackFrame} {block : BlockId} {σ : Assignment}
  {allowed : Assertion → Prop}

namespace Context

/-- `ctx'` is `ctx` after some queries. -/
structure After (allowed : Assertion → Prop) (ctx ctx' : Context G) : Prop where
  stack : ctx'.stack = ctx.stack
  heaps : ctx'.heaps = ctx.heaps
  keeps : PathGraph.Keeps allowed ctx'.graph
  models : ∀ σ, Models σ ctx'.assertions ↔ Models σ ctx.assertions

theorem After.refl (h : PathGraph.Keeps allowed ctx.graph) : After allowed ctx ctx :=
  ⟨rfl, rfl, h, fun _ => Iff.rfl⟩

theorem After.canonicalized (h : After allowed ctx ctx') :
    After allowed ctx ctx'.canonicalized where
  stack := h.stack
  heaps := h.heaps
  keeps := h.keeps.step (.canonicalize _)
  models σ := (h.keeps.faithful.canonicalize σ).trans (h.models σ)

theorem After.asked (h : After allowed ctx ctx') : After allowed ctx ctx'.asked where
  stack := h.stack
  heaps := h.heaps
  keeps := (h.keeps.step (.simplify _)).step (.canonicalize _)
  models σ := ((h.keeps.step (.simplify _)).faithful.canonicalize σ).trans
    ((h.keeps.faithful.simplify σ).trans (h.models σ))

theorem solver_unsatSound {shared : CaffeineContext} (hunsat : shared.solver.UnsatSound)
    (h : PathGraph.Keeps allowed ctx.graph) : (ctx.solver shared).UnsatSound :=
  fun n as a hres σ hσ ha => hunsat n as _ hres σ hσ ((h.faithful.extract a σ).mpr ha)

theorem solver_satSound {shared : CaffeineContext} (hsat : shared.solver.SatSound)
    (h : PathGraph.Keeps allowed ctx.graph) : (ctx.solver shared).SatSound := by
  intro n as a hres
  obtain ⟨σ, hσ, ha⟩ := hsat n as _ hres
  exact ⟨σ, hσ, (h.faithful.extract a σ).mp ha⟩

theorem models_foldl_add {as : List Assertion} (h : PathGraph.Keeps allowed ctx.graph)
    (has : ∀ a ∈ as, allowed a) : PathGraph.Keeps allowed (as.foldl add ctx).graph ∧
      ∀ σ, Models σ (as.foldl add ctx).assertions ↔
        Models σ ctx.assertions ∧ ∀ a ∈ as, a.Holds σ := by
  induction as generalizing ctx with
  | nil => exact ⟨h, by simp⟩
  | cons a as ih =>
    obtain ⟨ha, has⟩ := forall_mem_cons.mp has
    have hadd : PathGraph.Keeps allowed (ctx.add a).graph := h.step (.add _ ha)
    obtain ⟨hkeeps, hmod⟩ := ih hadd has
    refine ⟨hkeeps, fun σ => (hmod σ).trans ?_⟩
    rw [forall_mem_cons, ← and_assoc]
    exact and_congr_left' (h.faithful.add a ha σ)

theorem stack_foldl_add (ctx : Context G) (as : List Assertion) :
    (as.foldl add ctx).stack = ctx.stack := by
  induction as generalizing ctx with
  | nil => rfl
  | cons a as ih => exact ih (ctx.add a)

def AtBlock (ctx : Context G) (block : BlockId) : Prop :=
  ctx.stackTop.map (fun frame => (frame.currentBlock, frame.current)) = some (block, 0)

def HasBlock (ctx : Context G) (block : BlockId) : Prop :=
  ∃ frame, ctx.stackTop = some frame ∧ block < frame.func.blocks.length

omit [PathGraph G] in
theorem stack_eq_cons (h : ctx.stackTop = some frame) : ∃ stack, ctx.stack = frame :: stack := by
  cases hs : ctx.stack with
  | nil => simp [stackTop, hs] at h
  | cons f stack =>
    simp only [stackTop, hs, List.head?_cons, Option.some.injEq] at h
    exact ⟨stack, by rw [h]⟩

theorem exists_jumpTo (h : ctx.HasBlock block) :
    ∃ next, ctx.jumpTo block = some next ∧ next.assertions = ctx.assertions ∧
      next.AtBlock block := by
  obtain ⟨frame, htop, hblk⟩ := h
  obtain ⟨stack, hstk⟩ := stack_eq_cons htop
  simp only [jumpTo, modifyTop, hstk, IRStackFrame.jumpTo, hblk, guard_true, Option.pure_def,
    some_bind]
  exact ⟨_, rfl, rfl, rfl⟩

omit [PathGraph G] in
theorem HasBlock.of_stack (h : ctx.HasBlock block) (hs : ctx'.stack = ctx.stack) :
    ctx'.HasBlock block := by
  obtain ⟨frame, htop, hblk⟩ := h
  exact ⟨frame, by rwa [stackTop, hs], hblk⟩

end Context

/-! ### Alternatives -/

/-- A way control can go: the assignments that take it, and the block it leads to. -/
structure Alternative where
  guard : Assignment → Prop
  block : BlockId

/-- An alternative has no model of the path condition, or a context for it has been made. -/
inductive Outcome (pathCondition : List Assertion) (alt : Alternative) : Option (Context G) → Prop
  | pruned (h : ∀ σ, Models σ pathCondition → ¬ alt.guard σ) : Outcome pathCondition alt none
  | taken {ctx : Context G} (hblock : ctx.AtBlock alt.block)
    (hmodels : ∀ σ, Models σ ctx.assertions ↔ Models σ pathCondition ∧ alt.guard σ) :
    Outcome pathCondition alt (some ctx)

/-- If every model takes exactly one alternative, the contexts made for them divide the models, each
at the block of its alternative. -/
theorem partitions_of_outcomes {pathCondition : List Assertion} {alts : List Alternative}
    {outcomes : List (Option (Context G))} (h : Forall₂ (Outcome pathCondition) alts outcomes)
    (hone : ∀ σ, Models σ pathCondition → alts.ExactlyOne fun alt => alt.guard σ) :
    PartitionsModels pathCondition outcomes.reduceOption ∧
      ∀ ctx ∈ outcomes.reduceOption, ∀ σ, Models σ ctx.assertions →
        ∃ alt ∈ alts, alt.guard σ ∧ ctx.AtBlock alt.block := by
  have htaken : ∀ ctx ∈ outcomes.reduceOption, ∃ alt ∈ alts, ctx.AtBlock alt.block ∧
      ∀ σ, Models σ ctx.assertions ↔ Models σ pathCondition ∧ alt.guard σ := by
    intro ctx hctx
    obtain ⟨alt, halt, hout⟩ := forall₂_exists_left h (reduceOption_mem_iff.mp hctx)
    cases hout with
    | taken hblk hmod => exact ⟨alt, halt, hblk, hmod⟩
  refine ⟨⟨fun σ hσ => ?_, fun ctx hctx σ hσ => ?_⟩, fun ctx hctx σ hσ => ?_⟩
  · rw [List.exactlyOne_reduceOption]
    refine (List.exactlyOne_forall₂ (h.imp fun alt outcome hout => ?_)).mp (hone σ hσ)
    cases hout with
    | pruned hno => simp [hno σ hσ]
    | taken hblk hmod => simp [hmod, hσ]
  · obtain ⟨alt, -, -, hmod⟩ := htaken ctx hctx
    exact ((hmod σ).mp hσ).1
  · obtain ⟨alt, halt, hblk, hmod⟩ := htaken ctx hctx
    exact ⟨alt, halt, ((hmod σ).mp hσ).2, hblk⟩

theorem PartitionsModels.perm {assertions : List Assertion} {contexts contexts' : List (Context G)}
    (h : PartitionsModels assertions contexts) (hp : contexts.Perm contexts') :
    PartitionsModels assertions contexts' where
  covers σ hσ := (h.covers σ hσ).perm hp
  admits ctx hctx := h.admits ctx (hp.mem_iff.mpr hctx)

omit [PathGraph G] in
theorem Executor.endTurn_perm (interp : InterpreterContext G) :
    (live interp).Perm ((endTurn interp).1 ++ (endTurn interp).2) := by
  have h : ((live interp).take 1 ++ (live interp).drop 1).Perm _ :=
    (reverse_perm ((live interp).drop 1)).symm.append_left _
  rwa [take_append_drop] at h

omit [PathGraph G] in
theorem Executor.live_eq {interp : InterpreterContext G} (contexts : List (Context G))
    (h : interp.forks = contexts.map ({ context := · })) :
    live interp = (if interp.isDead then [] else [interp.context]) ++ contexts := by
  have hforks : ((contexts.map ({ context := · } : Context G → ContextQueueEntry G)).filter
      (!·.dead)).map (·.context) = contexts := by
    clear h
    induction contexts with
    | nil => rfl
    | cons ctx contexts ih => simpa using ih
  rw [live, h, filter_cons]
  cases hd : interp.entry.dead <;> simp [InterpreterContext.isDead, hd, hforks,
    InterpreterContext.context]

theorem Interpreter.eq_of_fetch {top : IRStackFrame} {inst : Instruction}
    (h : fetch top = some (inst, frame)) : frame = { top with current := top.current + 1 } := by
  simp only [fetch, bind_eq_some, Option.some.injEq, Prod.mk.injEq] at h
  obtain ⟨_, -, _, -, -, h⟩ := h
  exact h.symm

theorem Interpreter.execute_eq {shared : CaffeineContext} {interp : InterpreterContext G}
    {top : IRStackFrame} {stack : List IRStackFrame} {inst : Instruction}
    (hstk : interp.context.stack = top :: stack) (hfetch : fetch top = some (inst, frame)) :
    execute shared interp =
      visit shared inst (interp.setContext { interp.context with stack := frame :: stack }) := by
  simp only [execute, Context.stackTop, Context.modifyTop, hstk, hfetch, List.head?_cons, some_bind]

theorem Interpreter.exists_forkTo (interp : InterpreterContext G) {a : Assertion}
    (hblk : interp.context.HasBlock block) (h : PathGraph.Keeps allowed interp.context.graph)
    (ha : allowed a) :
    ∃ ctx, forkTo a block interp = some (interp.fork { context := ctx }) ∧ ctx.AtBlock block ∧
      ∀ σ, Models σ ctx.assertions ↔ Models σ interp.context.assertions ∧ a.Holds σ := by
  obtain ⟨ctx, hjump, hasns, hat⟩ :=
    Context.exists_jumpTo (hblk.of_stack (show (interp.context.add a).stack = _ from rfl))
  refine ⟨ctx, ?_, hat, fun σ => ?_⟩
  · simp only [forkTo, hjump, some_bind]
  · rw [hasns]
    exact h.faithful.add a ha σ

def Sample.undecided : CaffeineContext where
  cache := .full
  solver := ⟨fun _ _ _ => .Unknown⟩
  layout := ⟨fun _ => 1⟩
  memory := ⟨fun _ _ _ => none, fun _ _ _ _ _ => none⟩

end Caffeine
