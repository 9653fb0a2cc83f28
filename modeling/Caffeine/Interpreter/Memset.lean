import Caffeine.Interpreter.MemoryForks
import Caffeine.Memory.AllocationSound

/-!
# The frame of `llvm.memset`

`memset` is an external frame that stores one byte per turn. At the head of the loop it asks whether
the loop can go on and whether it can end, and forks for the end; neither answer joins the path
condition.
-/

namespace Caffeine

open Operation Assertion OperationSimplifier

variable {G : Type}

namespace Memset

inductive State where
  | entry
  | head
  | body
deriving DecidableEq

structure Frame where
  args : List LLVMValue
  state : State := .entry
  dst : Option Pointer := none
  offset : Option Operation := none

structure Task (G : Type) where
  frame : Frame
  context : Context G

structure Outcome (G : Type) where
  tasks : List (Task G) := []
  returned : List (Context G) := []
  queries : Nat

def call (ctx : Context G) (args : List LLVMValue) : Except String (Task G) :=
  if args.length ≠ 4 then .error "invalid llvm.memset signature (invalid number of arguments)"
  else .ok { frame := { args := args }, context := ctx }

variable [PathGraph G] (shared : CaffeineContext)

/-- `fork_external` over the resolved pointers; the fork goes on at the head. -/
def enter (queries : Nat) (t : Task G) (len : Operation) : Option (Outcome G) := do
  let ptr ← (← t.frame.args[0]?).pointer?
  let interp : InterpreterContext G := ⟨{ context := t.context }, [], queries, []⟩
  let (resolved, interp) ← interp.resolvePtrWidth shared ptr len "invalid pointer write"
  some {
    tasks := resolved.map fun p => {
      frame := { t.frame with state := .head, dst := some p, offset := some (len.literal 0) }
      context := interp.context }
    queries := interp.queries }

/-- The head of the loop. `function_return` kills a context without a caller. -/
def head (queries : Nat) (t : Task G) (len : Operation) : Option (Outcome G) := do
  let cond ← ofValue (← createICmp shared.cache .ult (← t.frame.offset) len)
  let negated ← cond.not shared.cache
  let interp : InterpreterContext G := ⟨{ context := t.context }, [], queries, []⟩
  let (isT, interp) := interp.check shared cond
  let (isF, interp) := interp.check shared negated
  let ctx := interp.context
  some {
    tasks := if isT ≠ .UNSAT then [⟨{ t.frame with state := .body }, ctx⟩] else []
    returned := if isF ≠ .UNSAT ∧ ctx.stack ≠ [] then [ctx] else []
    queries := interp.queries }

def body (queries : Nat) (t : Task G) (val : Operation) : Option (Outcome G) := do
  let dst ← t.frame.dst
  let offset ← t.frame.offset
  let alloc ← t.context.ptrAllocation dst
  let index ← createBinary shared.cache .add dst.offset offset
  let data ← createArray shared.cache (.store alloc.data.type) [alloc.data, index, val]
  let context ← t.context.setAllocation dst (← alloc.overwrite data)
  let next ← createBinaryLiteral shared.cache .add offset 1
  some {
    tasks := [{ frame := { t.frame with state := .head, offset := some next }, context := context }]
    queries := queries }

def step (queries : Nat) (t : Task G) : Option (Outcome G) := do
  let val ← (← t.frame.args[1]?).expr?
  let len ← (← t.frame.args[2]?).expr?
  match t.frame.state with
  | .entry => enter shared queries t len
  | .head => head shared queries t len
  | .body => body shared queries t val

structure Worker (G : Type) where
  tasks : List (Task G)
  returned : List (Context G) := []
  queries : Nat := 0

/-- Runs all tasks, which are independent, with at most `fuel` steps. -/
def run : Nat → Worker G → Option (List (Context G))
  | _, ⟨[], returned, _⟩ => some returned
  | 0, ⟨_ :: _, _, _⟩ => none
  | fuel + 1, ⟨t :: tasks, returned, queries⟩ => do
    let o ← step shared queries t
    run fuel ⟨o.tasks ++ tasks, returned ++ o.returned, o.queries⟩

end Memset

end Caffeine
