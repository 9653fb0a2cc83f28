import Caffeine.Solver.Solver

/-!
# Heaps of symbolic allocations

`MemHeap` keeps the live allocations of one address space. Addresses, sizes and pointer offsets
are expressions; whether an access is in bounds is an assertion about them, and the allocations an
absolute address may point into are found by solver queries.
-/

namespace Caffeine

inductive AllocationKind where
  | alloca | malloc | global
deriving DecidableEq, Repr

structure AllocationPermissions where
  read : Bool
  write : Bool
  execute : Bool
deriving DecidableEq, Repr

/-- A memory allocation. The address and the size are integers of one width. -/
structure Allocation where
  address : Operation
  size : Operation
  data : Operation
  kind : AllocationKind
  permissions : AllocationPermissions
  typed : ∃ w, address.type = .int w ∧ size.type = .int w
deriving DecidableEq

abbrev AllocId := Nat × Nat

/-- A pointer: an absolute address, or an offset from the start of an allocation. -/
structure Pointer where
  alloc : Option AllocId
  offset : Operation
  heap : Nat
deriving DecidableEq

def Pointer.isResolved (ptr : Pointer) : Bool := ptr.alloc.isSome

structure MemHeap where
  index : Nat
  allocs : Map AllocId Allocation

/-- `ConstantInt::Create(APInt(bitwidth, value))` at the width of an expression. -/
def Operation.literal (like : Operation) (value : Nat) : Operation :=
  .constantInt (APInt.ofNat like.type.bitwidth value)

section Assertions

open Operation Assertion

variable (cache : OperationCache)

namespace Allocation

def create (address size data : Operation) (kind : AllocationKind)
    (permissions : AllocationPermissions) : Option Allocation :=
  match ha : address.type, hs : size.type with
  | .int w, .int w' =>
    if h : w = w' then some ⟨address, size, data, kind, permissions, w, ha, h ▸ hs⟩ else none
  | _, _ => none

def checkInbounds (alloc : Allocation) (offset width : Operation) : Option Assertion := do
  let lower ← createICmp cache .ult offset alloc.size
  let upper ← createICmp cache .ule (← createBinary cache .add offset width) alloc.size
  ofValue (← createBinary cache .and upper lower)

/-- The address lies between the start and the last address from which `width` bytes fit. -/
def validAt (alloc : Allocation) (value width : Operation) : Option Operation := do
  let last ← createBinary cache .add alloc.address (← createBinary cache .sub alloc.size width)
  let cmp1 ← createICmp cache .ule alloc.address value
  let cmp2 ← createICmp cache .ule value last
  createBinary cache .and cmp1 cmp2

def contains (alloc : Allocation) (value : Operation) : Option Assertion := do
  let last ← createBinary cache .add alloc.address alloc.size
  let cmp1 ← createICmp cache .ule alloc.address value
  let cmp2 ← createICmp cache .ult value last
  ofValue (← createBinary cache .and cmp1 cmp2)

def noOverlap (newalloc alloc : Allocation) : Option Assertion := do
  let newEnd ← createBinary cache .add newalloc.address newalloc.size
  let oldEnd ← createBinary cache .add alloc.address alloc.size
  let cmp1 ← createICmp cache .ule oldEnd newalloc.address
  let cmp2 ← createICmp cache .ule newEnd alloc.address
  ofValue (← createBinary cache .or cmp1 cmp2)

/-- The assertions on the address of a new allocation: aligned, without wrapping around, not
null. -/
def placement (newalloc : Allocation) (alignment : Operation) : Option (List Assertion) := do
  let isAligned ← createICmpLiteral cache .eq
    (← createBinary cache .urem newalloc.address alignment) 0
  let alignIsZero ← createICmpLiteral cache .eq alignment 0
  let aligned ← ofValue (← createBinary cache .or isAligned alignIsZero)
  let stop ← createBinary cache .add newalloc.address newalloc.size
  let noWrap ← ofValue (← createICmp cache .ule newalloc.address stop)
  let notNull ← ofValue (← createICmpLiteral cache .ne newalloc.address 0)
  some [aligned, noWrap, notNull]

end Allocation

def Pointer.value (ptr : Pointer) (heap : MemHeap) : Option Operation :=
  match ptr.alloc with
  | none => some ptr.offset
  | some id => do
    guard (heap.index = ptr.heap)
    createBinary cache .add (← heap.allocs.lookup id).address ptr.offset

namespace MemHeap

/-- `MemHeap::allocate` at an address from `alloc_addr`, with the key from the slot map; also the
assertions it adds. -/
def allocate (heap : MemHeap) (key : AllocId) (address size alignment data : Operation)
    (kind : AllocationKind) (permissions : AllocationPermissions) :
    Option (MemHeap × List Assertion) := do
  guard (size.type = alignment.type)
  guard (data.type.isArray = false ∨ data.type.bitwidth = size.type.bitwidth)
  let newalloc ← Allocation.create address size data kind permissions
  let placed ← newalloc.placement cache alignment
  let separate ← heap.allocs.pairs.mapM (fun entry => newalloc.noOverlap cache entry.2)
  some ({ heap with allocs := heap.allocs.insert key newalloc }, placed ++ separate)

def checkLive (heap : MemHeap) (alloc : AllocId) : Bool := (heap.allocs.lookup alloc).isSome

def checkValid (heap : MemHeap) (ptr : Pointer) (width : Operation) : Option Assertion :=
  match ptr.alloc with
  | some id =>
    match heap.allocs.lookup id with
    | none => some (.constant false)
    | some alloc => do
      let last ← createBinary cache .sub alloc.size width
      ofValue (← createICmp cache .ule ptr.offset last)
  | none => do
    let value ← ptr.value cache heap
    let result ← heap.allocs.pairs.foldlM
      (fun result entry => do createBinary cache .or result (← entry.2.validAt cache value width))
      (constantInt (APInt.ofBool false))
    let notNull ← createICmpLiteral cache .ne value 0
    ofValue (← createBinary cache .and notNull result)

def checkStartsAllocation (heap : MemHeap) (ptr : Pointer) : Option Assertion :=
  match ptr.alloc with
  | some id =>
    if heap.checkLive id then do ofValue (← createICmpLiteral cache .eq ptr.offset 0)
    else some (.constant false)
  | none => do
    let value ← ptr.value cache heap
    let result ← heap.allocs.pairs.foldlM (fun result entry => do
      createBinary cache .or result (← createICmp cache .eq value entry.2.address))
      (constantInt (APInt.ofBool false))
    let notNull ← createICmpLiteral cache .ne value 0
    ofValue (← createBinary cache .and notNull result)

/-- The loop of `MemHeap::resolve` over the allocations; the first query has number `n`. -/
def resolveIn (solver : Solver) (assertions : List Assertion) (ptr : Pointer) (value : Operation) :
    Nat → List (AllocId × Allocation) → Option (List Pointer)
  | _, [] => some []
  | n, (key, alloc) :: rest => do
    let assertion ← alloc.contains cache value
    let results ← resolveIn solver assertions ptr value (n + 1) rest
    if solver.check n assertions assertion = .UNSAT then some results
    else some (⟨some key, ← createBinary cache .sub value alloc.address, ptr.heap⟩ :: results)

/-- `MemHeap::resolve` under assertions: the pointers found and the number of the next query. -/
def resolve (heap : MemHeap) (solver : Solver) (assertions : List Assertion) (n : Nat)
    (ptr : Pointer) : Option (List Pointer × Nat) :=
  match ptr.alloc with
  | some id => do
    guard (ptr.heap = heap.index)
    match heap.allocs.lookup id with
    | none => some ([], n)
    | some alloc => do
      let inbounds ← alloc.checkInbounds cache ptr.offset (ptr.offset.literal 0)
      if solver.check n assertions inbounds = .UNSAT then some ([], n + 1) else some ([ptr], n + 1)
  | none => do
    let value ← ptr.value cache heap
    let results ← resolveIn cache solver assertions ptr value n heap.allocs.pairs
    some (results, n + heap.allocs.pairs.length)

end MemHeap

end Assertions

end Caffeine
