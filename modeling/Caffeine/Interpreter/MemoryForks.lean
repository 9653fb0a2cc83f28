import Caffeine.Interpreter.PathCondition
import Caffeine.Memory.PointerValidity

/-!
# The forks of loads and stores

A load or a store forks for every allocation its pointer may point into. Each fork is given the
equality of the pointer with the resolved one; resolving subtracts the start of the allocation and
the value adds it again, so the equality always holds.
-/

namespace Caffeine

open Operation Assertion OperationSimplifier List

variable {G : Type} [PathGraph G] {allowed : Assertion → Prop}

namespace Context

theorem ptrAllocation_add (ctx : Context G) (a : Assertion) (p : Pointer) :
    (ctx.add a).ptrAllocation p = ctx.ptrAllocation p := rfl

theorem exists_store {ctx : Context G} (id : ValueId) (value : LLVMValue) (h : ctx.stack ≠ []) :
    ∃ stored, ctx.store id value = some stored ∧ stored.assertions = ctx.assertions := by
  obtain ⟨frame, stack, hframe⟩ := exists_cons_of_ne_nil h
  refine ⟨{ ctx with stack := frame.insert id value :: stack }, ?_, rfl⟩
  simp only [store, modifyTop, hframe]
  rfl

theorem exists_setAllocation {ctx : Context G} {ptr : Pointer} {alloc : Allocation}
    (written : Allocation) (h : ctx.ptrAllocation ptr = some alloc) :
    ∃ stored, ctx.setAllocation ptr written = some stored ∧
      stored.assertions = ctx.assertions := by
  simp only [ptrAllocation, bind_eq_some] at h
  obtain ⟨heap, hheap, id, hid, -⟩ := h
  simp only [setAllocation, hheap, hid, some_bind]
  exact ⟨_, rfl, rfl⟩

end Context

theorem InterpreterContext.fail_queue (shared : CaffeineContext) (interp : InterpreterContext G)
    (ctx : Context G) (message : String) : (interp.fail shared ctx message).entry = interp.entry ∧
      (interp.fail shared ctx message).forks = interp.forks := by
  by_cases h : ctx.asked.check shared interp.queries (.constant true) = .SAT <;>
    simp [fail, emitFailure, h]

theorem Map.emplace_of_lookup {κ υ : Type} [DecidableEq κ] {m : Map κ υ} {k : κ} {v : υ}
    (h : m.lookup k = some v) (u : υ) : m.emplace k u = m :=
  if_pos (Map.mem_of_lookup h)

/-! ### The forks of one access -/

/-- The fork accesses the pointer, and its path condition has the models of the given one. -/
structure Forked (pathCondition : List Assertion) (ptr : Pointer) (fork : ContextQueueEntry G) :
    Prop where
  access : fork.access = some ptr
  models : ∀ σ, Models σ fork.context.assertions ↔ Models σ pathCondition

variable {entry : ContextQueueEntry G} {type : LLVMType}

theorem foldlM_forks (step : InterpreterContext G → Pointer → Option (InterpreterContext G))
    (pointers : List Pointer)
    (hstep : ∀ ptr ∈ pointers, ∀ interp : InterpreterContext G, interp.entry = entry →
      ∃ interp' fork, step interp ptr = some interp' ∧ interp'.entry = entry ∧
        interp'.forks = interp.forks ++ [fork] ∧ Forked entry.context.assertions ptr fork)
    (interp : InterpreterContext G) (hent : interp.entry = entry) :
    ∃ interp' forks, pointers.foldlM step interp = some interp' ∧ interp'.entry = entry ∧
      interp'.forks = interp.forks ++ forks ∧
      Forall₂ (Forked entry.context.assertions) pointers forks := by
  induction pointers generalizing interp with
  | nil => exact ⟨interp, [], rfl, hent, by simp, .nil⟩
  | cons ptr pointers ih =>
    obtain ⟨next, fork, hnext, hne, hforks, hforked⟩ := hstep ptr mem_cons_self interp hent
    obtain ⟨interp', forks, hrun, he, hall, hrest⟩ :=
      ih (fun p hp => hstep p (mem_cons_of_mem _ hp)) next hne
    refine ⟨interp', fork :: forks, ?_, he, ?_, .cons hforked hrest⟩
    · rw [foldlM_cons, hnext]
      exact hrun
    · rw [hall, hforks, List.append_assoc, singleton_append]

/-! ### Resolved pointers and the equality a fork is given -/

/-- A pointer into a heap of a context, with integers of the pointer width throughout. -/
structure Points (n : Nat) (ctx : Context G) (heap : MemHeap) (ptr : Pointer) : Prop where
  lookup : ctx.heaps.lookup ptr.heap = some heap
  index : heap.index = ptr.heap
  typed : heap.Typed n
  offset : ptr.offset.IsInt n

variable {n : Nat} {shared : CaffeineContext} {ctx : Context G} {heap : MemHeap} {ptr p : Pointer}
  {alloc : Allocation}

omit [PathGraph G] in
theorem ResolvesTo.ptrAllocation (h : ResolvesTo shared.cache heap ptr p alloc)
    (hp : Points n ctx heap ptr) : ctx.ptrAllocation p = some alloc := by
  cases h with
  | same hid hl => simp only [Context.ptrAllocation, hp.lookup, hid, some_bind, hl]
  | relative hid hl ho => simp only [Context.ptrAllocation, hp.lookup, some_bind, hl]

omit [PathGraph G] in
theorem ResolvesTo.pointerValue (h : ResolvesTo shared.cache heap ptr p alloc)
    (hp : Points n ctx heap ptr) :
    ∃ l r, ctx.pointerValue shared.cache ptr = some l ∧ ctx.pointerValue shared.cache p = some r ∧
      ∀ σ, ∃ v : BitVec n, Denotes σ l v ∧ Denotes σ r v := by
  cases h with
  | @same id alloc hid hl =>
    have hval : ∀ σ, ∃ v : BitVec n,
        Returns σ (createBinary shared.cache .add alloc.address ptr.offset) v := fun σ => by
      obtain ⟨a, s, hat⟩ := hp.typed.at σ (Map.mem_pairs.mpr hl)
      obtain ⟨o, ho⟩ := hp.offset.denotes σ
      exact ⟨a + o, createAdd_returns hat.address ho⟩
    obtain ⟨-, value, hv, -⟩ := hval default
    have hptr : ctx.pointerValue shared.cache ptr = some value := by
      simp [Context.pointerValue, Pointer.isResolved, Pointer.value, hid, hp.lookup, hp.index, hl,
        hv]
    refine ⟨value, value, hptr, hptr, fun σ => ?_⟩
    obtain ⟨v, hret⟩ := hval σ
    exact ⟨v, hret.denotes hv, hret.denotes hv⟩
  | @relative id alloc offset hid hl ho =>
    have hval : ∀ σ, ∃ v : BitVec n, Denotes σ ptr.offset v ∧
        Returns σ (createBinary shared.cache .add alloc.address offset) v := fun σ => by
      obtain ⟨a, s, hat⟩ := hp.typed.at σ (Map.mem_pairs.mpr hl)
      obtain ⟨v, hv⟩ := hp.offset.denotes σ
      have hoff := (createSub_returns hv hat.address).denotes ho
      refine ⟨v, hv, ?_⟩
      rw [← BitVec.sub_add_cancel v a, BitVec.add_comm]
      exact createAdd_returns hat.address hoff
    obtain ⟨-, -, value, hv, -⟩ := hval default
    refine ⟨ptr.offset, value, ?_, ?_, fun σ => ?_⟩
    · simp [Context.pointerValue, Pointer.isResolved, hid]
    · simp [Context.pointerValue, Pointer.isResolved, Pointer.value, hp.lookup, hp.index, hl, hv]
    · obtain ⟨v, hptr, hret⟩ := hval σ
      exact ⟨v, hptr, hret.denotes hv⟩

omit [PathGraph G] in
theorem createPointerEq_of_values {l r : Operation} {lhs rhs : Pointer}
    (hl : ctx.pointerValue shared.cache lhs = some l)
    (hr : ctx.pointerValue shared.cache rhs = some r)
    (hv : ∀ σ, ∃ v : BitVec n, Denotes σ l v ∧ Denotes σ r v) :
    ∃ eq, Interpreter.createPointerEq shared ctx lhs rhs = some eq ∧ ∀ σ, eq.Holds σ := by
  have heq : ∀ σ, Asserts σ (Interpreter.createPointerEq shared ctx lhs rhs) True := fun σ => by
    obtain ⟨v, hlv, hrv⟩ := hv σ
    simp only [Interpreter.createPointerEq, hl, hr, some_bind]
    refine (asserts_of_returns (createICmp_returns hlv hrv)).congr ?_
    simp [Semantics.compare]
  obtain ⟨eq, hcr, -⟩ := heq default
  exact ⟨eq, hcr, fun σ => ((heq σ).holds_iff hcr).mpr trivial⟩

omit [PathGraph G] in
/-- The equality a fork is given is a tautology, in whichever order it is written. -/
theorem ResolvesTo.createPointerEq (h : ResolvesTo shared.cache heap ptr p alloc)
    (hp : Points n ctx heap ptr) :
    (∃ eq, Interpreter.createPointerEq shared ctx ptr p = some eq ∧ ∀ σ, eq.Holds σ) ∧
      ∃ eq, Interpreter.createPointerEq shared ctx p ptr = some eq ∧ ∀ σ, eq.Holds σ := by
  obtain ⟨l, r, hl, hr, hv⟩ := h.pointerValue hp
  have hv' : ∀ σ, ∃ v : BitVec n, Denotes σ r v ∧ Denotes σ l v := fun σ => by
    obtain ⟨v, hlv, hrv⟩ := hv σ
    exact ⟨v, hrv, hlv⟩
  exact ⟨createPointerEq_of_values hl hr hv, createPointerEq_of_values hr hl hv'⟩

theorem forked_add {eq : Assertion} {fork : ContextQueueEntry G}
    (h : PathGraph.Keeps allowed ctx.graph) (hadds : allowed eq) (ha : fork.access = some p)
    (hc : fork.context.assertions = (ctx.add eq).assertions) (heq : ∀ σ, eq.Holds σ) :
    Forked ctx.assertions p fork where
  access := ha
  models σ := by rw [hc]; exact (h.faithful.add eq hadds σ).trans (and_iff_left (heq σ))

namespace Interpreter

theorem assertPtrValid_eq {interp : InterpreterContext G} {width : Operation} {message : String}
    {valid : Assertion} (hsat : shared.solver.SatSound) (halive : interp.isDead = false)
    (hlook : interp.context.heaps.lookup ptr.heap = some heap)
    (hchk : heap.checkValid shared.cache ptr width = some valid)
    (hdec : ∀ σ, ∃ P, Decides σ valid P) (hkeeps : PathGraph.Keeps allowed interp.context.graph)
    (hvalid : ∀ σ, Models σ interp.context.assertions → valid.Holds σ) :
    interp.assertPtrValid shared ptr width message =
      some { interp.setContext interp.context.asked with queries := interp.queries + 1 } := by
  obtain ⟨P, hP⟩ := hdec default
  obtain ⟨negated, hnot, -⟩ : Asserts default (valid.not shared.cache) _ := hP.not
  have hafter := (Context.After.refl hkeeps).asked
  have hresult : interp.context.asked.check shared interp.queries negated ≠ .SAT := by
    intro hres
    obtain ⟨σ, hm, hholds⟩ := Context.solver_satSound hsat hafter.keeps _ _ _ hres
    obtain ⟨Q, hQ⟩ := hdec σ
    rw [hQ.not.holds_iff hnot, ← hQ.holds_iff] at hholds
    exact hholds (hvalid σ ((hafter.models σ).mp hm))
  unfold InterpreterContext.assertPtrValid
  rw [if_neg (by simp [halive]), Map.emplace_of_lookup hlook]
  simp only [hlook, hchk, hnot, some_bind]
  exact if_neg hresult

theorem loadFork_forked {interp : InterpreterContext G} {id : ValueId} (hent : interp.entry = entry)
    (hp : Points n entry.context heap ptr) (h : ResolvesTo shared.cache heap ptr p alloc)
    (hkeeps : PathGraph.Keeps allowed entry.context.graph)
    (hadds : ∀ p eq, createPointerEq shared entry.context ptr p = some eq → allowed eq)
    (hread : ∀ offset, ∃ value, shared.memory.read alloc offset type = some value)
    (hstk : entry.context.stack ≠ []) :
    ∃ interp' fork, loadFork shared id type ptr interp p = some interp' ∧
      interp'.entry = entry ∧ interp'.forks = interp.forks ++ [fork] ∧
      Forked entry.context.assertions p fork := by
  subst hent
  change Points n interp.context heap ptr at hp
  obtain ⟨⟨eq, hcr, heq⟩, -⟩ := h.createPointerEq hp
  change (interp.context.add eq).stack ≠ [] at hstk
  obtain ⟨value, hval⟩ := hread p.offset
  obtain ⟨stored, hsto, hasns⟩ := Context.exists_store id value hstk
  refine ⟨interp.fork { context := stored, access := some p }, _, ?_, rfl, rfl,
    forked_add hkeeps (hadds p eq hcr) rfl hasns heq⟩
  simp only [loadFork, hcr, Context.ptrAllocation_add, h.ptrAllocation hp, hval, hsto, some_bind]

theorem storeFork_forked {interp : InterpreterContext G} {value : LLVMValue}
    (hent : interp.entry = entry) (hp : Points n entry.context heap ptr)
    (h : ResolvesTo shared.cache heap ptr p alloc)
    (hkeeps : PathGraph.Keeps allowed entry.context.graph)
    (hadds : ∀ p eq, createPointerEq shared entry.context p ptr = some eq → allowed eq)
    (hwrite : ∀ offset heaps, ∃ result,
      shared.memory.write alloc offset type value heaps = some result) :
    ∃ interp' fork, storeFork shared type value ptr interp p = some interp' ∧
      interp'.entry = entry ∧ interp'.forks = interp.forks ++ [fork] ∧
      Forked entry.context.assertions p fork := by
  subst hent
  change Points n interp.context heap ptr at hp
  obtain ⟨-, eq, hcr, heq⟩ := h.createPointerEq hp
  have hal := h.ptrAllocation hp
  obtain ⟨result, hres⟩ := hwrite p.offset (interp.context.add eq).heaps
  cases result with
  | ok written =>
    obtain ⟨stored, hsto, hasns⟩ := Context.exists_setAllocation written
      ((interp.context.ptrAllocation_add eq p).trans hal)
    refine ⟨interp.fork { context := stored, access := some p }, _, ?_, rfl, rfl,
      forked_add hkeeps (hadds p eq hcr) rfl hasns heq⟩
    simp only [storeFork, hcr, Context.ptrAllocation_add, hal, hres, hsto, some_bind]
  | error message =>
    obtain ⟨hent, hforks⟩ := interp.fail_queue shared (interp.context.add eq) message
    have hforked : Forked interp.context.assertions p
        { context := interp.context.add eq, dead := true, access := some p } :=
      forked_add hkeeps (hadds p eq hcr) rfl rfl heq
    have hadded : Context.After _ (interp.context.add eq) _ :=
      .refl (hkeeps.step (.add _ (hadds p eq hcr)))
    refine ⟨(interp.fail shared (interp.context.add eq) message).fork
      { context := (interp.context.add eq).asked, dead := true, access := some p }, _, ?_, hent,
      congrArg (· ++ _) hforks, rfl, fun σ => (hadded.asked.models σ).trans (hforked.models σ)⟩
    simp only [storeFork, hcr, Context.ptrAllocation_add, hal, hres, some_bind]

def access? : Instruction → Option (LLVMType × Operand)
  | .load _ type pointer => some (type, pointer)
  | .store type _ pointer => some (type, pointer)
  | _ => none

/-- Reads and writes of the allocations of the heap return. A write may throw. -/
def CanAccess (shared : CaffeineContext) (ctx : Context G) (heap : MemHeap) : Instruction → Prop
  | .load _ type _ => ∀ entry ∈ heap.allocs.pairs, ∀ offset,
    ∃ value, shared.memory.read entry.2 offset type = some value
  | .store type operand _ => ∃ value, ctx.load operand = some value ∧
    ∀ entry ∈ heap.allocs.pairs, ∀ offset heaps,
      ∃ result, shared.memory.write entry.2 offset type value heaps = some result
  | _ => True

theorem resolvesTo_mem (h : ResolvesTo shared.cache heap ptr p alloc) :
    ∃ entry ∈ heap.allocs.pairs, entry.2 = alloc := by
  cases h with
  | @same id alloc hid hl => exact ⟨(id, alloc), Map.mem_pairs.mpr hl, rfl⟩
  | @relative id alloc offset hid hl ho => exact ⟨(id, alloc), Map.mem_pairs.mpr hl, rfl⟩

/-- The equalities of the pointer with another one. -/
def Equates (shared : CaffeineContext) (ctx : Context G) (ptr : Pointer) (a : Assertion) : Prop :=
  ∃ p, createPointerEq shared ctx ptr p = some a ∨ createPointerEq shared ctx p ptr = some a

omit [PathGraph G] in
theorem Equates.congr {ctx' : Context G} {a : Assertion} (h : Equates shared ctx' ptr a)
    (hheaps : ctx'.heaps = ctx.heaps) : Equates shared ctx ptr a := by
  simpa only [Equates, createPointerEq, Context.pointerValue, hheaps] using h

/-- A running context about to access memory through a valid pointer, in a separated heap. -/
structure ValidAccess (n : Nat) (shared : CaffeineContext) (interp : InterpreterContext G)
    (heap : MemHeap) (ptr : Pointer) (width : Nat) : Prop where
  points : Points n interp.context heap ptr
  alive : interp.isDead = false
  running : interp.context.stack ≠ []
  width_pos : 1 ≤ width
  width_lt : width < 2 ^ 32
  separated : ∀ σ, Models σ interp.context.assertions → heap.Separated n σ
  valid : ∃ valid, heap.checkValid shared.cache ptr (ptr.offset.literal width) = some valid ∧
    ∀ σ, Models σ interp.context.assertions → valid.Holds σ

variable {interp : InterpreterContext G} {width : Nat} {pointers : List Pointer} {queries : Nat}

omit [PathGraph G] in
theorem checkValid_decides {w : Operation} {valid : Assertion} (hp : Points n ctx heap ptr)
    (hw : w.IsInt n) (hchk : heap.checkValid shared.cache ptr w = some valid) (σ : Assignment) :
    ∃ P, Decides σ valid P := by
  obtain ⟨o, ho⟩ := hp.offset.denotes σ
  obtain ⟨x, hx⟩ := hw.denotes σ
  have hasrt : ∃ P, Asserts σ (heap.checkValid shared.cache ptr w) P := by
    cases hid : ptr.alloc with
    | none => exact ⟨_, MemHeap.checkValid_unresolved hp.typed hid ho hx⟩
    | some id =>
      cases hl : heap.allocs.lookup id with
      | none =>
        refine ⟨_, .constant false, by simp only [MemHeap.checkValid, hid, hl], false, ?_, Iff.rfl⟩
        exact denotes_constantInt _
      | some alloc =>
        obtain ⟨a, s, hat⟩ := hp.typed.at σ (Map.mem_pairs.mpr hl)
        exact ⟨_, MemHeap.checkValid_resolved hid hl hat ho hx⟩
  obtain ⟨P, a, ha, hP⟩ := hasrt
  rw [hchk] at ha
  cases ha
  exact ⟨P, hP⟩

omit [PathGraph G] in
theorem isInt_literal (hp : Points n ctx heap ptr) (width : Nat) :
    (ptr.offset.literal width).IsInt n := by
  rw [Operation.literal, hp.offset.type]
  exact ⟨rfl, rfl⟩

/-- The context in which `resolve_ptr` looks for allocations. -/
def resolving (ctx : Context G) : Context G := ctx.asked.canonicalized

theorem after_resolving (h : PathGraph.Keeps allowed ctx.graph) :
    ctx.After allowed (resolving ctx) := (Context.After.refl h).asked.canonicalized

theorem resolvePtrWidth_eq {w : Operation} {message : String}
    (hassert : interp.assertPtrValid shared ptr w message =
      some { interp.setContext interp.context.asked with queries := interp.queries + 1 })
    (halive : interp.isDead = false) (hlook : interp.context.heaps.lookup ptr.heap = some heap)
    (hrsv : heap.resolve shared.cache ((resolving interp.context).solver shared)
      (resolving interp.context).assertions (interp.queries + 1) ptr = some (pointers, queries)) :
    interp.resolvePtrWidth shared ptr w message =
      some (pointers, { interp.setContext (resolving interp.context) with queries }) := by
  have hlook' : (resolving interp.context).heaps.lookup ptr.heap = some heap := hlook
  have halive' : (interp.setContext interp.context.asked).isDead = false := halive
  simp only [InterpreterContext.resolvePtrWidth, hassert, Option.bind_eq_bind, Option.bind_some]
  rw [if_neg (by simpa [InterpreterContext.isDead] using halive')]
  refine (congrArg (Option.bind · _) hlook').trans ?_
  exact congrArg (Option.bind · _) hrsv

theorem resolvePtr_eq (h : ValidAccess n shared interp heap ptr width)
    (hsat : shared.solver.SatSound) (hkeeps : PathGraph.Keeps allowed interp.context.graph)
    (hrsv : heap.resolve shared.cache ((resolving interp.context).solver shared)
      (resolving interp.context).assertions (interp.queries + 1) ptr = some (pointers, queries))
    (message : String) : interp.resolvePtr shared ptr width message =
      some (pointers, { interp.setContext (resolving interp.context) with queries }) := by
  obtain ⟨valid, hchk, hvalid⟩ := h.valid
  rw [InterpreterContext.resolvePtr, Nat.mod_eq_of_lt h.width_lt]
  exact resolvePtrWidth_eq (assertPtrValid_eq hsat h.alive h.points.lookup hchk
    (checkValid_decides h.points (isInt_literal h.points width) hchk) hkeeps hvalid) h.alive
    h.points.lookup hrsv

/-- A load or a store kills the context and pushes a fork for each pointer `resolve` returns, with
the models of the path condition. -/
theorem visit_access {inst : Instruction} {operand : Operand}
    (haccess : access? inst = some (type, operand))
    (hload : interp.context.load operand = some (.scalar (.pointer ptr)))
    (h : ValidAccess n shared interp heap ptr (shared.layout.storeSize type))
    (hcan : CanAccess shared interp.context heap inst) (hsat : shared.solver.SatSound)
    (hkeeps : PathGraph.Keeps (Equates shared interp.context ptr) interp.context.graph)
    (hrsv : heap.resolve shared.cache ((resolving interp.context).solver shared)
      (resolving interp.context).assertions (interp.queries + 1) ptr = some (pointers, queries))
    (hrsd : ∀ p ∈ pointers, ∃ alloc, ResolvesTo shared.cache heap ptr p alloc) :
    ∃ interp' forks, visit shared inst interp = some interp' ∧ interp'.isDead = true ∧
      interp'.forks = interp.forks ++ forks ∧
      Forall₂ (Forked (resolving interp.context).assertions) pointers forks := by
  have hptr := resolvePtr_eq h hsat hkeeps hrsv
  have hafter := after_resolving hkeeps
  have hpoints : Points n (resolving interp.context) heap ptr :=
    ⟨h.points.lookup, h.points.index, h.points.typed, h.points.offset⟩
  let killed : InterpreterContext G := InterpreterContext.kill
    { interp.setContext (resolving interp.context) with queries := queries }
  have hdead : ∀ interp' : InterpreterContext G, interp'.entry = killed.entry →
      interp'.isDead = true := fun interp' hent => by
    rw [InterpreterContext.isDead, hent]
    rfl
  cases inst with
  | load id _ _ =>
    cases haccess
    obtain ⟨interp', forks, hrun, hent, hforks, hall⟩ :=
      foldlM_forks (loadFork shared id type ptr) pointers (fun p hp next hnext => by
        obtain ⟨alloc, hto⟩ := hrsd p hp
        obtain ⟨e, he, rfl⟩ := resolvesTo_mem hto
        exact loadFork_forked hnext hpoints hto hafter.keeps
          (fun p eq heq => ⟨p, .inl heq⟩) (hcan e he) h.running) killed rfl
    refine ⟨interp', forks, ?_, hdead interp' hent, hforks, hall⟩
    simp only [visit, visitLoadInst, hload, LLVMValue.pointer?, hptr, some_bind]
    exact hrun
  | store _ operand _ =>
    cases haccess
    obtain ⟨value, hval, hwrite⟩ := hcan
    obtain ⟨interp', forks, hrun, hent, hforks, hall⟩ :=
      foldlM_forks (storeFork shared type value ptr) pointers (fun p hp next hnext => by
        obtain ⟨alloc, hto⟩ := hrsd p hp
        obtain ⟨e, he, rfl⟩ := resolvesTo_mem hto
        exact storeFork_forked hnext hpoints hto hafter.keeps
          (fun p eq heq => ⟨p, .inr heq⟩) (hwrite e he)) killed rfl
    refine ⟨interp', forks, ?_, hdead interp' hent, hforks, hall⟩
    simp only [visit, visitStoreInst, hload, LLVMValue.pointer?, hval, hptr, some_bind]
    exact hrun
  | _ => cases haccess

end Interpreter

end Caffeine
