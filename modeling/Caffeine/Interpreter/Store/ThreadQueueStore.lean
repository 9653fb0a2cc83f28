import Caffeine.Util.Runs
import Mathlib.Data.Multiset.Basic
import Mathlib.Algebra.BigOperators.Group.Multiset.Basic

/-!
# The work-stealing context store

`ThreadQueueContextStore` keeps a deque for every thread that has added contexts. A worker takes
from the back of its own, and steals from the front of another when its own is empty. The atomic
steps are the queue operations under one lock and single operations on `free`, `size` or `done`;
what a thread does in between is part of the step before.
-/

namespace Caffeine

namespace ThreadQueueStore

/-- `outside`, perhaps with a context it executes, in an `add`, or before a step of
`next_context`. -/
inductive Position (α : Type) where
  | outside (held : Option α)
  | pushing (held : Option α) (ctxs : List α)
  | dequeued (ctx : α)
  | missed
  | counted (cfree : Nat)
  | ending
  | stealing
  | picking
  | stolen (ctx : α)
  | returning (result : Option α)
  | exited
deriving DecidableEq

/-- The threads with a queue: the workers, and the thread that adds the first contexts. -/
abbrev Thread (n : Nat) := Option (Fin n)

/-- The log `returned` lists what `next_context` has returned. -/
structure State (α : Type) (n : Nat) where
  queues : Thread n → Option (List α)
  done : Bool
  free : Nat
  size : Nat
  positions : Fin n → Position α
  returned : List (Fin n × α)

/-- An atomic step, with who takes it, what is added, and whom a notification reaches. -/
inductive Action (α : Type) (n : Nat) where
  | create (worker : Fin n)
  | add (worker : Fin n) (ctxs : List α)
  | next (worker : Fin n)
  | steal (worker : Fin n) (victim : Thread n)
  | shutdown
deriving DecidableEq

variable {α : Type} {n : Nat}

def initial (n : Nat) (ctxs : List α) : State α n where
  queues thread := if thread = none ∧ ctxs ≠ [] then some ctxs else none
  done := false
  free := n
  size := ctxs.length
  positions _ := .outside none
  returned := []

namespace State

def move (s : State α n) (worker : Fin n) (position : Position α) : State α n :=
  { s with positions := Function.update s.positions worker position }

def setQueue (s : State α n) (thread : Thread n) (queue : List α) : State α n :=
  { s with queues := Function.update s.queues thread (some queue) }

def setSize (s : State α n) (size : Nat) : State α n := { s with size := size }

def setFree (s : State α n) (free : Nat) : State α n := { s with free := free }

def setDone (s : State α n) : State α n := { s with done := true }

def log (s : State α n) (worker : Fin n) (ctx : α) : State α n :=
  { s with returned := s.returned ++ [(worker, ctx)] }

/-- The contexts in the queue of a thread; a thread that has added nothing has no queue. -/
def queue (s : State α n) (thread : Thread n) : List α := (s.queues thread).getD []

/-- The thread holds the lock of its queue between the two steps of `add_context_multi`. -/
def Locked (s : State α n) : Thread n → Prop
  | none => False
  | some worker => ∃ held ctxs, s.positions worker = .pushing held ctxs

instance (s : State α n) (thread : Thread n) : Decidable (s.Locked thread) :=
  match thread with
  | none => isFalse id
  | some worker =>
    match h : s.positions worker with
    | .pushing held ctxs => isTrue ⟨held, ctxs, h⟩
    | .outside _ | .dequeued _ | .missed | .counted _ | .ending | .stealing | .picking | .stolen _
    | .returning _ | .exited => isFalse (by rintro ⟨_, _, h'⟩; rw [h] at h'; cases h')

end State

/-- `get_thread_queue`, which creates the queue of a thread that has none. -/
def getThreadQueue (s : State α n) (worker : Fin n) : Option (State α n) :=
  match s.positions worker with
  | .outside _ => some (s.setQueue (some worker) (s.queue (some worker)))
  | _ => none

/-- The start of `add_context_multi`: the queue is locked and the size increased. -/
def add (s : State α n) (worker : Fin n) (ctxs : List α) : Option (State α n) :=
  match s.positions worker, s.queues (some worker) with
  | .outside held, some _ =>
    some ((s.move worker (.pushing held ctxs)).setSize (s.size + ctxs.length))
  | _, _ => none

/-- `ThreadQueue::steal`. Without a context in the queue the thief waits for up to 100 ms. -/
def steal (s : State α n) (worker : Fin n) (victim : Thread n) : Option (State α n) :=
  match s.positions worker, s.queues victim with
  | .picking, some queue =>
    if s.Locked victim then none
    else match queue with
      | [] => some (s.move worker .stealing)
      | ctx :: queue => some ((s.setQueue victim queue).move worker (.stolen ctx))
  | _, _ => none

/-- The step a worker takes next; a steal is an action of its own. -/
def next (s : State α n) (worker : Fin n) : Option (State α n) :=
  match s.positions worker with
  | .outside _ =>
    match (s.queue (some worker)).getLast? with
    | some ctx => some ((s.setQueue (some worker) (s.queue (some worker)).dropLast).move worker
        (.dequeued ctx))
    | none => some (s.move worker .missed)
  | .pushing held ctxs =>
    some ((s.setQueue (some worker) (s.queue (some worker) ++ ctxs)).move worker (.outside held))
  | .dequeued ctx =>
    some (((s.move worker (.outside (some ctx))).setSize (s.size - 1)).log worker ctx)
  | .missed => some ((s.move worker (.counted (s.free - 1))).setFree (s.free - 1))
  | .counted cfree =>
    if cfree = 0 ∧ s.size = 0 then some (s.move worker .ending) else some (s.move worker .stealing)
  | .ending => some (s.move worker (.returning none)).setDone
  | .stealing =>
    if s.done then some (s.move worker (.returning none)) else some (s.move worker .picking)
  | .picking => none
  | .stolen ctx => some ((s.move worker (.returning (some ctx))).setSize (s.size - 1))
  | .returning (some ctx) =>
    some (((s.move worker (.outside (some ctx))).setFree (s.free + 1)).log worker ctx)
  | .returning none => some ((s.move worker .exited).setFree (s.free + 1))
  | .exited => none

def step (s : State α n) : Action α n → Option (State α n)
  | .create worker => getThreadQueue s worker
  | .add worker ctxs => add s worker ctxs
  | .next worker => next s worker
  | .steal worker victim => steal s worker victim
  | .shutdown => some s.setDone

def Action.added : Action α n → List α
  | .add _ ctxs => ctxs
  | _ => []

end ThreadQueueStore

end Caffeine
