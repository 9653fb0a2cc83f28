import Caffeine.Memory.MemHeap
import Caffeine.Model.PathGraph

/-!
# Contexts and the operations of the interpreter on them

A context is one path of the program: a stack, the heaps and the path condition. The worker's queue
holds the executing context and the forks pushed so far.
-/

namespace Caffeine

inductive LLVMType where
  | int (bits : Nat)
  | pointer (addressSpace : Nat)
  | array (count : Nat) (element : LLVMType)
  | vector (count : Nat) (element : LLVMType)
  | struct (members : List LLVMType)
  | packedStruct (members : List LLVMType)
  | float (exponent mantissa : Nat)

inductive LLVMScalar where
  | expr (value : Operation)
  | pointer (value : Pointer)
deriving DecidableEq

inductive LLVMValue where
  | scalar (value : LLVMScalar)
  | vector (elements : List LLVMScalar)
  | aggregate (members : List LLVMValue)

namespace LLVMValue

def expr? : LLVMValue → Option Operation
  | scalar (.expr value) => some value
  | _ => none

def pointer? : LLVMValue → Option Pointer
  | scalar (.pointer value) => some value
  | _ => none

end LLVMValue

abbrev BlockId := Nat

abbrev ValueId := Nat

/-- Operands: instructions and arguments by name, constants by the value they evaluate to. -/
inductive Operand where
  | ident (id : ValueId)
  | constant (value : LLVMValue)

inductive Instruction where
  | phi (id : ValueId) (incoming : List (BlockId × Operand))
  | br (successor : BlockId)
  | condBr (condition : Operand) (successor0 successor1 : BlockId)
  | switch (condition : Operand) (defaultDest : BlockId) (cases : List (APInt × BlockId))
  | load (id : ValueId) (type : LLVMType) (pointer : Operand)
  | store (type : LLVMType) (value pointer : Operand)

structure Function where
  blocks : List (List Instruction)

structure IRStackFrame where
  func : Function
  vars : Map ValueId LLVMValue
  currentBlock : BlockId
  prevBlock : Option BlockId
  current : Nat

namespace IRStackFrame

def jumpTo (frame : IRStackFrame) (block : BlockId) : Option IRStackFrame := do
  guard (block < frame.func.blocks.length)
  some { frame with prevBlock := some frame.currentBlock, currentBlock := block, current := 0 }

def insert (frame : IRStackFrame) (id : ValueId) (value : LLVMValue) : IRStackFrame :=
  { frame with vars := frame.vars.insert id value }

end IRStackFrame

abbrev MemHeapMgr := Map Nat MemHeap

/-- One path. The stack is listed from its top. -/
structure Context (G : Type) where
  stack : List IRStackFrame
  heaps : MemHeapMgr
  graph : G

structure DataLayout where
  storeSize : LLVMType → Nat

/-- `Allocation::read` and `write`. A read of unreadable memory fails; a write to unwritable memory
throws. -/
structure MemoryAccess where
  read : Allocation → Operation → LLVMType → Option LLVMValue
  write : Allocation → Operation → LLVMType → LLVMValue → MemHeapMgr →
    Option (Except String Allocation)

structure CaffeineContext where
  cache : OperationCache
  solver : Solver
  layout : DataLayout
  memory : MemoryAccess

variable {G : Type}

namespace Context

def modifyTop (ctx : Context G) (f : IRStackFrame → Option IRStackFrame) : Option (Context G) :=
  match ctx.stack with
  | [] => none
  | frame :: stack => do some { ctx with stack := (← f frame) :: stack }

def stackTop (ctx : Context G) : Option IRStackFrame := ctx.stack.head?

def load (ctx : Context G) : Operand → Option LLVMValue
  | .ident id => do (← ctx.stackTop).vars.lookup id
  | .constant value => some value

def store (ctx : Context G) (id : ValueId) (value : LLVMValue) : Option (Context G) :=
  ctx.modifyTop fun frame => some (frame.insert id value)

def jumpTo (ctx : Context G) (block : BlockId) : Option (Context G) :=
  ctx.modifyTop (·.jumpTo block)

def pointerValue (cache : OperationCache) (ctx : Context G) (ptr : Pointer) : Option Operation :=
  if ptr.isResolved then do ptr.value cache (← ctx.heaps.lookup ptr.heap) else some ptr.offset

def ptrAllocation (ctx : Context G) (ptr : Pointer) : Option Allocation := do
  (← ctx.heaps.lookup ptr.heap).allocs.lookup (← ptr.alloc)

def setAllocation (ctx : Context G) (ptr : Pointer) (alloc : Allocation) :
    Option (Context G) := do
  let heap ← ctx.heaps.lookup ptr.heap
  let id ← ptr.alloc
  some { ctx with
    heaps := ctx.heaps.insert ptr.heap { heap with allocs := heap.allocs.replace id alloc } }

variable [PathGraph G]

def add (ctx : Context G) (assertion : Assertion) : Context G :=
  { ctx with graph := PathGraph.add ctx.graph assertion }

/-- The assertions of `extract_assertions`, from the graph it leaves. -/
def assertions (ctx : Context G) : List Assertion := PathGraph.assertions ctx.graph

def canonicalized (ctx : Context G) : Context G :=
  { ctx with graph := PathGraph.canonicalize ctx.graph }

/-- The context after `EGraph::simplify` and the query that follows it. -/
def asked (ctx : Context G) : Context G :=
  { ctx with graph := PathGraph.canonicalize (PathGraph.simplify ctx.graph) }

/-- The solver is asked about the expression that is extracted for the extra assertion. -/
def solver (shared : CaffeineContext) (ctx : Context G) : Solver where
  check n assertions extra := shared.solver.check n assertions (PathGraph.extract ctx.graph extra)

/-- `Context::check` and `resolve` on a context that is canonicalised; `n` numbers the query. -/
def check (shared : CaffeineContext) (ctx : Context G) (n : Nat) (extra : Assertion) :
    SolverResult :=
  (ctx.solver shared).check n ctx.assertions extra

end Context

/-- An entry of the worker's queue. `access`, the pointer a fork reads or writes, is not in the
code. -/
structure ContextQueueEntry (G : Type) where
  context : Context G
  dead : Bool := false
  access : Option Pointer := none

structure Failure where
  assertion : Assertion
  message : String

/-- The executing entry, the entries after it, the number of queries and the failures logged. -/
structure InterpreterContext (G : Type) where
  entry : ContextQueueEntry G
  forks : List (ContextQueueEntry G)
  queries : Nat
  failures : List Failure

namespace InterpreterContext

variable (shared : CaffeineContext) (interp : InterpreterContext G)

def context : Context G := interp.entry.context

def isDead : Bool := interp.entry.dead

def setContext (ctx : Context G) : InterpreterContext G :=
  { interp with entry := { interp.entry with context := ctx } }

def kill : InterpreterContext G := { interp with entry := { interp.entry with dead := true } }

def fork (entry : ContextQueueEntry G) : InterpreterContext G :=
  { interp with forks := interp.forks ++ [entry] }

def emitFailure (message : String) (assertion : Assertion) : InterpreterContext G :=
  { interp with failures := interp.failures ++ [⟨assertion, message⟩] }

variable [PathGraph G]

/-- `check` and `resolve`. -/
def check (extra : Assertion) : SolverResult × InterpreterContext G :=
  let ctx := interp.context.asked
  (ctx.check shared interp.queries extra,
    { interp.setContext ctx with queries := interp.queries + 1 })

/-- `fail` on a fork with the given context: a failure is logged if the context is satisfiable. -/
def fail (ctx : Context G) (message : String) : InterpreterContext G :=
  let result := ctx.asked.check shared interp.queries (.constant true)
  let interp := { interp with queries := interp.queries + 1 }
  if result = .SAT then interp.emitFailure message (.constant true) else interp

/-- A model in which the assertion fails is reported, and the context goes on without. -/
def assertOrFail (assertion : Assertion) (message : String) : Option (InterpreterContext G) :=
  if interp.isDead then some interp
  else do
    let checked ← assertion.not shared.cache
    let (result, interp) := interp.check shared checked
    let interp := if result = .SAT then interp.emitFailure message checked else interp
    some (interp.setContext (interp.context.add assertion))

def assertPtrStartsAllocation (ptr : Pointer) (message : String) :
    Option (InterpreterContext G) := do
  let heaps := interp.context.heaps.emplace ptr.heap ⟨ptr.heap, ∅⟩
  let starts ← (← heaps.lookup ptr.heap).checkStartsAllocation shared.cache ptr
  (interp.setContext { interp.context with heaps := heaps }).assertOrFail shared starts message

def assertPtrValid (ptr : Pointer) (width : Operation) (message : String) :
    Option (InterpreterContext G) :=
  if interp.isDead then some interp
  else do
    let heaps := interp.context.heaps.emplace ptr.heap ⟨ptr.heap, ∅⟩
    let interp := interp.setContext { interp.context with heaps := heaps }
    let valid ← (← heaps.lookup ptr.heap).checkValid shared.cache ptr width
    let assertion ← valid.not shared.cache
    let (result, interp) := interp.check shared assertion
    if result = .SAT then some (interp.emitFailure message assertion).kill else some interp

def resolvePtrWidth (ptr : Pointer) (width : Operation) (message : String) :
    Option (List Pointer × InterpreterContext G) := do
  let interp ← interp.assertPtrValid shared ptr width message
  if interp.isDead then some ([], interp)
  else do
    let ctx := interp.context.canonicalized
    let heap ← ctx.heaps.lookup ptr.heap
    let (pointers, queries) ←
      heap.resolve shared.cache (ctx.solver shared) ctx.assertions interp.queries ptr
    some (pointers, { interp.setContext ctx with queries := queries })

/-- `resolve_ptr` for a width in bytes, which is passed as a `uint32_t`. -/
def resolvePtr (ptr : Pointer) (width : Nat) (message : String) :
    Option (List Pointer × InterpreterContext G) :=
  interp.resolvePtrWidth shared ptr (ptr.offset.literal (width % 2 ^ 32)) message

end InterpreterContext

end Caffeine
