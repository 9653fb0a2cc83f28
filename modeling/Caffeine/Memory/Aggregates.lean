import Caffeine.Interpreter.InterpreterContext
import Caffeine.Memory.Allocation

/-!
# Aggregates in memory

`Allocation::write` and `read` of structs, arrays and vectors work member by member, at the sums of
the allocation sizes of the members before. `visitGetElementPtr` takes the offset of a member from
the target layout instead.
-/

namespace Caffeine

open Operation

/-- What aggregates need besides: the size of pointers, `getTypeAllocSize` and the offsets of the
`StructLayout` of a type. -/
structure TargetLayout extends DataLayout where
  pointerSizeInBits : Nat
  getTypeAllocSize : LLVMType → Nat
  getElementOffset : LLVMType → Nat → Nat

def TargetLayout.getPointerSize (layout : TargetLayout) : Nat := divceil layout.pointerSizeInBits 8

/-- The element type of a vector type, any other type itself. -/
def LLVMType.elementType : LLVMType → LLVMType
  | vector _ element => element
  | type => type

/-- The elements of a vector; a scalar is a vector of one element. -/
def LLVMValue.elements? : LLVMValue → Option (List LLVMScalar)
  | scalar value => some [value]
  | vector elements => some elements
  | aggregate _ => none

def LLVMValue.members : LLVMValue → List LLVMValue
  | aggregate members => members
  | _ => []

def LLVMValue.scalar? : LLVMValue → Option LLVMScalar
  | scalar value => some value
  | vector [value] => some value
  | _ => none

/-! ### The traversal of a type

The loops of `write` and `read` over the members of a type, for any way to write and read the
scalars in them. -/

section Traversal

variable (cache : OperationCache) (layout : TargetLayout)

section Write

variable {α : Type} (write : α → Operation → LLVMScalar → Option α)

def writeVector (type : LLVMType) (offset : Operation) (elements : List LLVMScalar) (state : α) :
    Option α := do
  match type with
  | .vector count _ => guard (elements.length = count)
  | _ => some ()
  elements.zipIdx.foldlM (fun state p => do
    let index ← createBinaryLiteral cache .add offset
      (p.2 * layout.getTypeAllocSize type.elementType)
    write state index p.1) state

mutual

/-- `write` of a value of an LLVM type: vectors first, then arrays and structs. -/
def writeMember : LLVMType → Operation → LLVMValue → α → Option α
  | .array count element, offset, value, state =>
    match value.elements? with
    | some elements => writeVector cache layout write (.array count element) offset elements state
    | none => do
      guard (value.members.length = count)
      value.members.zipIdx.foldlM (fun state p => do
        let index ← createBinaryLiteral cache .add offset (p.2 * layout.getTypeAllocSize element)
        writeMember element index p.1 state) state
  | .struct types, offset, value, state =>
    match value.elements? with
    | some elements => writeVector cache layout write (.struct types) offset elements state
    | none => do
      guard (value.members.length = types.length)
      writeMembers types offset 0 value.members state
  | .packedStruct types, offset, value, state =>
    match value.elements? with
    | some elements => writeVector cache layout write (.packedStruct types) offset elements state
    | none => do
      guard (value.members.length = types.length)
      writeMembers types offset 0 value.members state
  | type, offset, value, state =>
    match value.elements? with
    | some elements => writeVector cache layout write type offset elements state
    | none => some state

def writeMembers : List LLVMType → Operation → Nat → List LLVMValue → α → Option α
  | type :: types, offset, elemOffset, value :: values, state => do
    let index ← createBinaryLiteral cache .add offset elemOffset
    let state ← writeMember type index value state
    writeMembers types offset (elemOffset + layout.getTypeAllocSize type) values state
  | _, _, _, _, state => some state

end

end Write

section Read

variable (read : Operation → Ty → Option Operation)

mutual

def readMember : LLVMType → Operation → Option LLVMValue
  | .pointer heap, offset => do
    let address ← read offset (.int layout.pointerSizeInBits)
    some (.scalar (.pointer ⟨none, address, heap⟩))
  | .array count element, offset => do
    let members ← (List.range count).mapM fun i => do
      let index ← createBinaryLiteral cache .add offset (i * layout.getTypeAllocSize element)
      readMember element index
    some (.aggregate members)
  | .struct types, offset => do some (.aggregate (← readMembers types offset 0))
  | .packedStruct types, offset => do some (.aggregate (← readMembers types offset 0))
  | .vector count element, offset => do
    let elements ← (List.range count).mapM fun i => do
      let index ← createBinaryLiteral cache .add offset (i * layout.getTypeAllocSize element)
      (← readMember element index).scalar?
    some (.vector elements)
  | .int bits, offset => do some (.scalar (.expr (← read offset (.int bits))))
  | .float exponent mantissa, offset => do
    some (.scalar (.expr (← read offset (.float exponent mantissa))))

def readMembers : List LLVMType → Operation → Nat → Option (List LLVMValue)
  | [], _, _ => some []
  | type :: types, offset, elemOffset => do
    let index ← createBinaryLiteral cache .add offset elemOffset
    let value ← readMember type index
    some (value :: (← readMembers types offset (elemOffset + layout.getTypeAllocSize type)))

end

end Read

end Traversal

namespace Allocation

variable (cache : OperationCache) (layout : TargetLayout)

/-- `Allocation::write` of a scalar; `ptrValue` is the address of a pointer. -/
def writeScalar (ptrValue : Pointer → Option Operation) (alloc : Allocation) (offset : Operation) :
    LLVMScalar → Option Allocation
  | .expr value => alloc.write cache offset value layout.getPointerSize
  | .pointer ptr => do alloc.write cache offset (← ptrValue ptr) layout.getPointerSize

/-- `Allocation::write` of a value of an LLVM type. The permissions, checked for each member, stay
the same. -/
def writeValue (ptrValue : Pointer → Option Operation) (alloc : Allocation) (offset : Operation)
    (type : LLVMType) (value : LLVMValue) : Option Allocation := do
  guard (alloc.permissions.write = true)
  writeMember cache layout (writeScalar cache layout ptrValue) type offset value alloc

/-- `Allocation::read` of a value of an LLVM type. -/
def readValue (alloc : Allocation) (offset : Operation) (type : LLVMType) : Option LLVMValue := do
  guard (alloc.permissions.read = true)
  readMember cache layout (fun offset t => alloc.read cache offset t layout.getPointerSize) type
    offset

end Allocation

namespace ExprEvaluator

variable (cache : OperationCache) (layout : TargetLayout)

def createTruncOrSExt (tgt : Ty) (operand : Operation) : Option Operation :=
  if operand.type.isInt && tgt.isInt then
    if tgt.bitwidth < operand.type.bitwidth then createTrunc cache tgt operand
    else if operand.type.bitwidth < tgt.bitwidth then createSExt cache tgt operand
    else some operand
  else none

/-- The offset of one index, a literal of the pointer width, and the type it leads to. -/
def indexedOffset (width : Nat) (type : LLVMType) (i : Nat) : Option (Operation × LLVMType) :=
  match type with
  | .struct types => do
    some (constantInt (APInt.ofNat width (layout.getElementOffset type i)), ← types[i]?)
  | .packedStruct types => do
    some (constantInt (APInt.ofNat width (layout.getElementOffset type i)), ← types[i]?)
  | .array _ element => do
    let index ← createTruncOrSExt cache (.int width) (constantInt (APInt.ofNat width i))
    some (← createBinaryLiteral cache .mul index (layout.getTypeAllocSize element), element)
  | .vector _ element => do
    let index ← createTruncOrSExt cache (.int width) (constantInt (APInt.ofNat width i))
    some (← createBinaryLiteral cache .mul index (layout.getTypeAllocSize element), element)
  | _ => none

def sumOffsets (width : Nat) : LLVMType → Operation → List Nat → Option Operation
  | _, offsets, [] => some offsets
  | type, offsets, i :: path => do
    let step ← indexedOffset cache layout width type i
    sumOffsets width step.2 (← createBinary cache .add offsets step.1) path

/-- `visitGetElementPtr` of an inbounds instruction: the first index is zero, the others lead to a
member. -/
def visitGetElementPtr (ptr : Pointer) (type : LLVMType) (path : List Nat) : Option Pointer := do
  let width := layout.pointerSizeInBits
  let index ← createTruncOrSExt cache (.int width) (constantInt (APInt.ofNat width 0))
  let first ← createBinaryLiteral cache .mul index (layout.getTypeAllocSize type)
  let start ← createBinary cache .add (constantInt (APInt.ofNat width 0)) first
  let offsets ← sumOffsets cache layout width type start path
  some { ptr with offset := ← createBinary cache .add ptr.offset offsets }

end ExprEvaluator

end Caffeine
