import Caffeine.Interpreter.MemoryForksSound
import Caffeine.Memory.Allocation
import Caffeine.Util.Runs

/-!
# The loop of a worker

`run_worker` keeps the contexts of a step of the interpreter in a queue of its own. After the step
it removes the dead ones, keeps the first and hands the others to the store. An exception leaves the
inner loop before that, and the queue is cleared when the worker takes the next context, so the
contexts a step has forked before it raised the exception are lost.
-/

namespace Caffeine

open List Option

namespace Executor

variable {G : Type}

/-- What a step leaves: the queue, and the index of the entry in which an exception was raised. -/
structure Outcome (G : Type) where
  interp : InterpreterContext G
  raised : Option Nat := none

def survivors (queue : List (ContextQueueEntry G)) (failed : Option Nat) : List (Context G) :=
  (queue.zipIdx.filter fun e => !e.1.dead && decide (some e.2 ≠ failed)).map (·.1.context)

namespace Outcome

def queue (o : Outcome G) : List (ContextQueueEntry G) := o.interp.entry :: o.interp.forks

def survivors (o : Outcome G) : List (Context G) := Executor.survivors o.queue o.raised

/-- The live contexts that a step leaves behind when it raises an exception. -/
def abandoned (o : Outcome G) : List (Context G) := if o.raised = none then [] else o.survivors

end Outcome

/-- A worker with its queue and logs of the contexts it was given, executed, handed to the store,
dropped and lost, and of its steps. -/
structure Worker (G : Type) where
  queue : List (ContextQueueEntry G) := []
  failed : Option Nat := none
  looping : Bool := false
  ended : Bool := false
  received : List (Context G) := []
  executed : List (Context G) := []
  handed : List (Context G) := []
  stopped : List (Context G) := []
  lost : List (Context G) := []
  outcomes : List (Outcome G) := []

/-- The steps of `run_worker`: an answer of the store, a stop request, and a step of the
interpreter. -/
inductive Action (G : Type) where
  | next (ctx : Context G)
  | finish
  | stop
  | execute (interpreter : Context G → Option (Outcome G))

namespace Worker

def clear (w : Worker G) : Worker G :=
  { w with queue := [], failed := none, lost := w.lost ++ survivors w.queue w.failed }

def execute (w : Worker G) (front : ContextQueueEntry G) (o : Outcome G) : Worker G :=
  let w := { w with
    executed := w.executed ++ [front.context]
    outcomes := w.outcomes ++ [o] }
  match o.raised with
  | some index => { w with queue := o.queue, failed := some index, looping := false }
  | none =>
    let (kept, handed) := endTurn o.interp
    { w with
      queue := kept.map fun ctx => { context := ctx }
      looping := !kept.isEmpty
      handed := w.handed ++ handed }

def step (w : Worker G) : Action G → Option (Worker G)
  | .next ctx =>
    if w.looping || w.ended then none
    else some { w.clear with
      queue := [{ context := ctx }]
      looping := true
      received := w.received ++ [ctx] }
  | .finish => if w.looping || w.ended then none else some { w.clear with ended := true }
  | .stop =>
    if w.looping then
      some { w with queue := [], looping := false, stopped := w.stopped ++ survivors w.queue none }
    else none
  | .execute interpreter =>
    match w.looping, w.queue with
    | true, [front] => (interpreter front.context).map (w.execute front)
    | _, _ => none

end Worker

/-! ### Steps that raise -/

section Access

open Operation Assertion OperationSimplifier

variable [PathGraph G] (shared : CaffeineContext)

/-- One fork for each pointer. One that raises an exception stays in the queue, after the others. -/
def accessForks (access : Context G → Pointer → Option (Except String (Context G)))
    (unresolved : Pointer) : List Pointer → InterpreterContext G → Option (Outcome G)
  | [], interp => some ⟨interp, none⟩
  | ptr :: resolved, interp => do
    let ctx := interp.context.add
      (← Interpreter.createPointerEq shared interp.context unresolved ptr)
    match ← access ctx ptr with
    | .ok ctx => accessForks access unresolved resolved (interp.fork ⟨ctx, false, some ptr⟩)
    | .error _ =>
      some ⟨interp.fork ⟨ctx, false, some ptr⟩, some (interp.forks.length + 1)⟩

def setJmpAccess (id : ValueId) (width : Nat) (jmpbuf : BitVec 64 × BitVec 64) (ctx : Context G)
    (ptr : Pointer) : Option (Except String (Context G)) := do
  let alloc ← ctx.ptrAllocation ptr
  if alloc.permissions.write = false then some (.error "tried to write to unwritable allocation")
  else
    let alloc ← alloc.write shared.cache ptr.offset (.constantInt ⟨64, jmpbuf.1⟩) 8
    let offset ← createBinaryLiteral shared.cache .add ptr.offset 8
    let alloc ← alloc.write shared.cache offset (.constantInt ⟨64, jmpbuf.2⟩) 8
    let ctx ← ctx.setAllocation ptr alloc
    some (.ok (← ctx.store id (.scalar (.expr (.constantInt ⟨width, 0⟩)))))

/-- The end of `setjmp`, from the resolution of its argument on. -/
def setJmpForks (id : ValueId) (width : Nat) (jmpbuf : BitVec 64 × BitVec 64) (unresolved : Pointer)
    (ctx : Context G) : Option (Outcome G) := do
  let interp : InterpreterContext G := ⟨{ context := ctx }, [], 0, []⟩
  let (resolved, interp) ← interp.resolvePtr shared unresolved 16 "invalid pointer write"
  accessForks shared (setJmpAccess shared id width jmpbuf) unresolved resolved interp.kill

end Access

/-! ### What becomes of the contexts -/

theorem survivors_none (queue : List (ContextQueueEntry G)) :
    survivors queue none = (queue.filter (!·.dead)).map (·.context) := by
  have h : ∀ k, ((queue.zipIdx k).filter fun e => !e.1.dead && decide (some e.2 ≠ none)).map
      (·.1.context) = (queue.filter (!·.dead)).map (·.context) := by
    induction queue with
    | nil => intro k; rfl
    | cons e queue ih =>
      intro k
      rw [zipIdx_cons]
      by_cases hdead : e.dead = true
      · simp [hdead, ← ih (k + 1)]
      · simp [hdead, ← ih (k + 1)]
  exact h 0

/-- What becomes of the contexts of a worker. -/
structure Accounted (w : Worker G) : Prop where
  sums : ∀ v : Context G → Nat,
    (w.received.map v).sum + ((w.outcomes.flatMap Outcome.survivors).map v).sum =
      (w.executed.map v).sum + (w.handed.map v).sum + (w.stopped.map v).sum +
        (w.lost.map v).sum + ((survivors w.queue w.failed).map v).sum
  lost : w.lost ++ (if w.looping then [] else survivors w.queue w.failed) =
    w.outcomes.flatMap Outcome.abandoned
  looping : w.looping = true → w.failed = none ∧ ∃ ctx, survivors w.queue none = [ctx]
  ended : w.ended = true → w.looping = false ∧ w.queue = []

theorem idle_accounted : Accounted (G := G) {} where
  sums _ := rfl
  lost := rfl
  looping h := by cases h
  ended h := by cases h

theorem survivors_nil (failed : Option Nat) : survivors (G := G) [] failed = [] := rfl

theorem survivors_singleton (ctx : Context G) : survivors [{ context := ctx }] none = [ctx] := rfl

variable {w : Worker G}

/-- Clearing the queue outside of the inner loop loses what an exception has left in it. -/
theorem Accounted.clear_lost (hw : Accounted w) (hloop : w.looping = false) :
    w.clear.lost = w.outcomes.flatMap Outcome.abandoned := by
  have hlost := hw.lost
  rw [hloop] at hlost
  exact hlost

theorem Accounted.next (hw : Accounted w) (hloop : w.looping = false) (hend : w.ended = false)
    (ctx : Context G) : Accounted { w.clear with
      queue := [{ context := ctx }], looping := true, received := w.received ++ [ctx] } where
  sums v := by
    have hsums := hw.sums v
    simp only [Worker.clear, survivors_singleton, map_append, map_cons, map_nil,
      sum_append, sum_cons, sum_nil]
    omega
  lost := by
    rw [if_pos rfl, append_nil]
    exact hw.clear_lost hloop
  looping _ := ⟨rfl, ctx, survivors_singleton ctx⟩
  ended h := absurd (hend.symm.trans h) Bool.false_ne_true

theorem Accounted.finish (hw : Accounted w) (hloop : w.looping = false) :
    Accounted { w.clear with ended := true } where
  sums v := by
    have hsums := hw.sums v
    simp only [Worker.clear, survivors_nil, map_append, map_nil, sum_append, sum_nil]
    omega
  lost := by
    have hlost := hw.clear_lost hloop
    simp only [Worker.clear, hloop, survivors_nil, append_nil, ite_self] at hlost ⊢
    exact hlost
  looping h := absurd (hloop.symm.trans h) Bool.false_ne_true
  ended _ := ⟨hloop, rfl⟩

theorem Accounted.stop (hw : Accounted w) (hloop : w.looping = true) : Accounted { w with
    queue := [], looping := false, stopped := w.stopped ++ survivors w.queue none } where
  sums v := by
    have hsums := hw.sums v
    rw [(hw.looping hloop).1] at hsums
    simp only [survivors_nil, map_append, map_nil, sum_append, sum_nil]
    omega
  lost := by
    have hlost := hw.lost
    simp only [hloop, if_true] at hlost
    exact hlost
  looping h := by cases h
  ended _ := ⟨rfl, rfl⟩

theorem survivors_map (contexts : List (Context G)) :
    survivors (contexts.map fun ctx => { context := ctx }) none = contexts := by
  rw [survivors_none]
  induction contexts with
  | nil => rfl
  | cons ctx contexts ih => simpa using ih

theorem survivors_of_not_raised {o : Outcome G} (h : o.raised = none) :
    o.survivors = live o.interp := by
  rw [Outcome.survivors, h, survivors_none]
  rfl

theorem endTurn_sum (v : Context G → Nat) (interp : InterpreterContext G) :
    ((endTurn interp).1.map v).sum + ((endTurn interp).2.map v).sum =
      ((live interp).map v).sum := by
  rw [endTurn, map_reverse, sum_reverse, ← sum_append, ← map_append, take_append_drop]

theorem Accounted.front (hw : Accounted w) (hloop : w.looping = true) {front : ContextQueueEntry G}
    (hq : w.queue = [front]) : survivors w.queue w.failed = [front.context] := by
  obtain ⟨hfailed, ctx, hctx⟩ := hw.looping hloop
  rw [hfailed]
  rw [hq, survivors_none] at hctx ⊢
  by_cases hdead : front.dead = true
  · simp [hdead] at hctx
  · simp [hdead]

theorem Accounted.execute (hw : Accounted w) (hloop : w.looping = true)
    {front : ContextQueueEntry G} (hq : w.queue = [front]) (o : Outcome G) :
    Accounted (w.execute front o) := by
  have hfront := hw.front hloop hq
  have hlost := hw.lost
  rw [hloop, if_pos rfl, append_nil] at hlost
  have hend : w.ended ≠ true := fun h => by
    rw [(hw.ended h).1] at hloop
    cases hloop
  cases hraised : o.raised with
  | some index =>
    simp only [Worker.execute, hraised]
    refine ⟨fun v => ?_, ?_, fun h => ?_, fun h => absurd h hend⟩
    · have hsums := hw.sums v
      have ho : o.survivors = survivors o.queue (some index) := by rw [Outcome.survivors, hraised]
      simp only [hfront, flatMap_append, flatMap_cons, flatMap_nil, append_nil, map_append,
        map_cons, map_nil, sum_append, sum_cons, sum_nil, ho] at hsums ⊢
      omega
    · rw [flatMap_append, flatMap_singleton, Outcome.abandoned, if_neg (by simp),
        Outcome.survivors, hraised, ← hlost]
      rfl
    · cases h
  | none =>
    simp only [Worker.execute, hraised]
    refine ⟨fun v => ?_, ?_, fun h => ⟨(hw.looping hloop).1, ?_⟩, fun h => absurd h hend⟩
    · have hsums := hw.sums v
      have hturn := endTurn_sum v o.interp
      rw [(hw.looping hloop).1, survivors_map]
      simp only [hfront, survivors_of_not_raised hraised, flatMap_append, flatMap_cons, flatMap_nil,
        append_nil, map_append, map_cons, map_nil, sum_append, sum_cons, sum_nil] at hsums ⊢
      omega
    · rw [(hw.looping hloop).1, survivors_map, flatMap_append, flatMap_singleton,
        Outcome.abandoned, if_pos hraised, append_nil, hlost]
      cases hkept : (endTurn o.interp).1 with
      | nil => exact append_nil _
      | cons ctx kept => exact append_nil _
    · rw [survivors_map]
      cases hlive : live o.interp with
      | nil =>
        rw [endTurn, hlive] at h
        cases h
      | cons ctx rest => exact ⟨ctx, by rw [endTurn, hlive]; rfl⟩

theorem step_accounted {w' : Worker G} {a : Action G} (h : w.step a = some w') (hw : Accounted w) :
    Accounted w' := by
  cases a with
  | next ctx =>
    simp only [Worker.step] at h
    split_ifs at h with hgd
    cases h
    simp only [Bool.or_eq_true, not_or, Bool.not_eq_true] at hgd
    exact hw.next hgd.1 hgd.2 ctx
  | finish =>
    simp only [Worker.step] at h
    split_ifs at h with hgd
    cases h
    simp only [Bool.or_eq_true, not_or, Bool.not_eq_true] at hgd
    exact hw.finish hgd.1
  | stop =>
    simp only [Worker.step] at h
    split_ifs at h with hloop
    cases h
    exact hw.stop hloop
  | execute interpreter =>
    simp only [Worker.step] at h
    split at h
    · rename_i front hloop hq
      obtain ⟨o, -, rfl⟩ := map_eq_some_iff.mp h
      exact hw.execute hloop hq o
    · cases h

/-- A worker executes or hands on every live context, except after a stop request, exactly if no
step that raises an exception leaves a live context besides the one that failed. -/
theorem keeps_contexts_iff (actions : List (Action G))
    (h : Runs.run Worker.step {} actions = some w) (hend : w.ended = true) :
    (w.received ++ w.outcomes.flatMap Outcome.survivors).Perm
        (w.executed ++ w.handed ++ w.stopped) ↔
      ∀ o ∈ w.outcomes, o.raised ≠ none → o.survivors = [] := by
  have hw : Accounted w := Runs.run_invariant (P := fun _ _ => True)
    (fun _ _ _ _ hstep hw => step_accounted hstep hw) (Runs.along_of_forall fun _ _ => trivial) h
    idle_accounted
  obtain ⟨hloop, hq⟩ := hw.ended hend
  have hsums := hw.sums
  have hlost := hw.lost
  rw [hq, hloop, survivors_nil] at hlost
  rw [hq] at hsums
  simp only [survivors_nil, map_nil, sum_nil, Nat.add_zero, ite_self, append_nil]
    at hlost hsums
  have hiff : w.lost = [] ↔ ∀ o ∈ w.outcomes, o.raised ≠ none → o.survivors = [] := by
    rw [hlost, flatMap_eq_nil_iff]
    refine forall₂_congr fun o _ => ?_
    by_cases hraised : o.raised = none <;> simp [Outcome.abandoned, hraised]
  rw [← hiff]
  constructor
  · intro hperm
    have hlen := hsums fun _ => 1
    have hcnt := hperm.length_eq
    simp only [map_const', sum_replicate_nat, Nat.mul_one, length_append]
      at hlen hcnt
    exact eq_nil_of_length_eq_zero (by omega)
  · intro hnil
    refine perm_of_sums fun v => ?_
    have hv := hsums v
    simp only [hnil, map_nil, sum_nil, map_append, sum_append] at hv ⊢
    omega

def sampleAllocation (address : Nat) (permissions : AllocationPermissions) : Allocation where
  address := Sample.literal address
  size := Sample.literal 16
  data := .mk (.fixedArray 64) (List.replicate 16 (.constantInt (APInt.ofNat 8 0)))
  kind := .malloc
  permissions := permissions
  typed := ⟨64, rfl, rfl⟩

def sampleHeap (writable : Bool) : MemHeap where
  index := 0
  allocs := (AList.singleton (2, 0) (sampleAllocation 64 ⟨true, writable, false⟩)).insert (1, 0)
    (sampleAllocation 16 ⟨true, true, false⟩)

def sampleContext (writable : Bool) : Context (List Assertion) where
  stack := [⟨⟨[]⟩, ∅, 0, none, 0⟩]
  heaps := AList.singleton 0 (sampleHeap writable)
  graph := ((sampleHeap writable).checkValid .full Sample.pointer (Sample.literal 16)).toList

def sampleStep : Action (List Assertion) :=
  .execute (setJmpForks
    { Sample.shared with solver := Sample.guess [Sample.assign 16, Sample.assign 64] } 0 32 (1, 0)
    Sample.pointer)

/-- If both buffers are writable, one fork is handed to the store and the other one kept. -/
theorem keeps_contexts_two : ∃ w,
    Runs.run Worker.step {} [.next (sampleContext true), sampleStep, .stop, .finish] = some w ∧
      w.handed.length = 1 ∧ (w.received ++ w.outcomes.flatMap Outcome.survivors).Perm
        (w.executed ++ w.handed ++ w.stopped) := by
  obtain ⟨w, hw, hdata⟩ := map_eq_some_iff.mp
    (show (Runs.run Worker.step {} [.next (sampleContext true), sampleStep, .stop, .finish]).map
      (fun w => decide (w.ended = true ∧ w.handed.length = 1 ∧ ∀ o ∈ w.outcomes, o.raised = none)) =
        some true by decide +kernel)
  obtain ⟨hend, hhanded, hraised⟩ := of_decide_eq_true hdata
  exact ⟨w, hw, hhanded, (keeps_contexts_iff _ hw hend).mpr
    fun o ho hne => absurd (hraised o ho) hne⟩

/-- If the second buffer is constant, the fork for the first one is lost. -/
theorem loses_fork : ∃ w,
    Runs.run Worker.step {} [.next (sampleContext false), sampleStep, .finish] = some w ∧
      w.ended = true ∧ (∃ o ∈ w.outcomes, o.raised = some 2 ∧ o.survivors.length = 1) ∧
      ¬ (w.received ++ w.outcomes.flatMap Outcome.survivors).Perm
        (w.executed ++ w.handed ++ w.stopped) := by
  obtain ⟨w, hw, hdata⟩ := map_eq_some_iff.mp
    (show (Runs.run Worker.step {} [.next (sampleContext false), sampleStep, .finish]).map
      (fun w => decide (w.ended = true ∧
        (∃ o ∈ w.outcomes, o.raised = some 2 ∧ o.survivors.length = 1) ∧
        (w.received ++ w.outcomes.flatMap Outcome.survivors).length ≠
          (w.executed ++ w.handed ++ w.stopped).length)) = some true by decide +kernel)
  obtain ⟨hend, hraised, hlen⟩ := of_decide_eq_true hdata
  exact ⟨w, hw, hend, hraised, fun hperm => hlen hperm.length_eq⟩

end Executor

end Caffeine
