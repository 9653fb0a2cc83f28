import Caffeine.Interpreter.InterpreterContext

/-!
# The interpreter

One visitor for each instruction, the dispatch on the current instruction and what a worker does
with its queue after a step. `none` stands for a failed assertion, an exception that leaves the
step, or an instruction outside the model.
-/

namespace Caffeine

namespace Interpreter

open Operation Assertion

variable {G : Type} [PathGraph G] (shared : CaffeineContext)

def visitPHINode (id : ValueId) (incoming : List (BlockId × Operand))
    (interp : InterpreterContext G) : Option (InterpreterContext G) := do
  let prev ← (← interp.context.stackTop).prevBlock
  let operand ← incoming.lookup prev
  let value ← interp.context.load operand
  some (interp.setContext (← interp.context.store id value))

def visitBr (successor : BlockId) (interp : InterpreterContext G) :
    Option (InterpreterContext G) := do
  some (interp.setContext (← interp.context.jumpTo successor))

def forkTo (assertion : Assertion) (successor : BlockId) (interp : InterpreterContext G) :
    Option (InterpreterContext G) := do
  some (interp.fork { context := ← (interp.context.add assertion).jumpTo successor })

/-- A fork for an answer of the solver; unknown is treated as satisfiable. -/
def forkFor (result : SolverResult) (assertion : Assertion) (successor : BlockId)
    (interp : InterpreterContext G) : Option (InterpreterContext G) :=
  if result = .UNSAT then some interp else forkTo assertion successor interp

def visitBranchInst (condition : Operand) (successor0 successor1 : BlockId)
    (interp : InterpreterContext G) : Option (InterpreterContext G) := do
  let assertion ← ofValue (← (← interp.context.load condition).expr?)
  let negated ← assertion.not shared.cache
  let (isT, interp) := interp.check shared assertion
  let (isF, interp) := interp.check shared negated
  let interp ← forkFor isT assertion successor0 interp
  let interp ← forkFor isF negated successor1 interp
  some interp.kill

/-- The negated assertions of the cases that were forked, and the state after the forks. -/
def switchCases (condition : Operation) :
    List (APInt × BlockId) → InterpreterContext G → Option (List Assertion × InterpreterContext G)
  | [], interp => some ([], interp)
  | (value, successor) :: cases, interp => do
    let assertion ← ofValue (← createICmp shared.cache .eq condition (constantInt value))
    let (result, interp) := interp.check shared assertion
    if result = .UNSAT then switchCases condition cases interp
    else
      let negated ← assertion.not shared.cache
      let interp ← forkTo assertion successor interp
      let (assertions, interp) ← switchCases condition cases interp
      some (negated :: assertions, interp)

def visitSwitchInst (condition : Operand) (defaultDest : BlockId) (cases : List (APInt × BlockId))
    (interp : InterpreterContext G) :
    Option (InterpreterContext G) := do
  let condition ← (← interp.context.load condition).expr?
  let (assertions, interp) ← switchCases shared condition cases interp
  let interp := interp.setContext (assertions.foldl Context.add interp.context)
  let (result, interp) := interp.check shared (.constant true)
  if result = .UNSAT then some interp.kill
  else some (interp.setContext (← interp.context.jumpTo defaultDest))

def createPointerEq (ctx : Context G) (lhs rhs : Pointer) : Option Assertion := do
  let lhs ← ctx.pointerValue shared.cache lhs
  let rhs ← ctx.pointerValue shared.cache rhs
  ofValue (← createICmp shared.cache .eq lhs rhs)

def loadFork (id : ValueId) (type : LLVMType) (unresolved : Pointer) (interp : InterpreterContext G)
    (ptr : Pointer) : Option (InterpreterContext G) := do
  let ctx := interp.context.add (← createPointerEq shared interp.context unresolved ptr)
  let value ← shared.memory.read (← ctx.ptrAllocation ptr) ptr.offset type
  some (interp.fork { context := ← ctx.store id value, access := some ptr })

def visitLoadInst (id : ValueId) (type : LLVMType) (pointer : Operand)
    (interp : InterpreterContext G) : Option (InterpreterContext G) := do
  let unresolved ← (← interp.context.load pointer).pointer?
  let (resolved, interp) ← interp.resolvePtr shared unresolved (shared.layout.storeSize type)
    "invalid pointer read during load"
  resolved.foldlM (loadFork shared id type unresolved) interp.kill

/-- The fork of a store for one pointer; if the write throws, the fork fails. -/
def storeFork (type : LLVMType) (value : LLVMValue) (unresolved : Pointer)
    (interp : InterpreterContext G) (ptr : Pointer) : Option (InterpreterContext G) := do
  let ctx := interp.context.add (← createPointerEq shared interp.context ptr unresolved)
  match ← shared.memory.write (← ctx.ptrAllocation ptr) ptr.offset type value ctx.heaps with
  | .ok alloc => some (interp.fork { context := ← ctx.setAllocation ptr alloc, access := some ptr })
  | .error message =>
    some ((interp.fail shared ctx message).fork
      { context := ctx.asked, dead := true, access := some ptr })

def visitStoreInst (type : LLVMType) (value pointer : Operand) (interp : InterpreterContext G) :
    Option (InterpreterContext G) := do
  let unresolved ← (← interp.context.load pointer).pointer?
  let value ← interp.context.load value
  let (resolved, interp) ← interp.resolvePtr shared unresolved (shared.layout.storeSize type)
    "invalid pointer store"
  resolved.foldlM (storeFork shared type value unresolved) interp.kill

def visit : Instruction → InterpreterContext G → Option (InterpreterContext G)
  | .phi id incoming => visitPHINode id incoming
  | .br successor => visitBr successor
  | .condBr condition successor0 successor1 =>
    visitBranchInst shared condition successor0 successor1
  | .switch condition defaultDest cases => visitSwitchInst shared condition defaultDest cases
  | .load id type pointer => visitLoadInst shared id type pointer
  | .store type value pointer => visitStoreInst shared type value pointer

def fetch (frame : IRStackFrame) : Option (Instruction × IRStackFrame) := do
  let block ← frame.func.blocks[frame.currentBlock]?
  let inst ← block[frame.current]?
  some (inst, { frame with current := frame.current + 1 })

def execute (interp : InterpreterContext G) : Option (InterpreterContext G) := do
  let (inst, frame) ← fetch (← interp.context.stackTop)
  visit shared inst (interp.setContext (← interp.context.modifyTop fun _ => some frame))

def executeSteps : Nat → InterpreterContext G → Option (InterpreterContext G)
  | 0, interp => some interp
  | n + 1, interp => do executeSteps n (← execute shared interp)

end Interpreter

namespace Executor

variable {G : Type}

def live (interp : InterpreterContext G) : List (Context G) :=
  ((interp.entry :: interp.forks).filter (!·.dead)).map (·.context)

/-- The context the worker keeps, and those it hands to the store, the last one first. -/
def endTurn (interp : InterpreterContext G) : List (Context G) × List (Context G) :=
  ((live interp).take 1, ((live interp).drop 1).reverse)

/-- One turn of `run_worker`: a step of the interpreter and what becomes of its queue. -/
def turn [PathGraph G] (shared : CaffeineContext) (ctx : Context G) (queries : Nat) :
    Option (List (Context G) × List (Context G)) := do
  let interp ← Interpreter.execute shared ⟨{ context := ctx }, [], queries, []⟩
  some (endTurn interp)

end Executor

end Caffeine
