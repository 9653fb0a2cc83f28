import Caffeine.IR.OperationBuilder
import Caffeine.IR.OperationSimplifierArrays
import Caffeine.Memory.MemHeap

/-!
# Reading and writing the bytes of an allocation

The data of an allocation is an array of bytes. A scalar is read by loading its bytes and putting
them together with shifts, and written by storing its bytes one by one, the lowest byte first.
-/

namespace Caffeine

open Operation

def divceil (x y : Nat) : Nat := (x + (y - 1)) / y

/-- `Type::byte_size`, with the size of a pointer; functions, arrays and vectors have none. -/
def Ty.byteSize (pointerSize : Nat) : Ty → Option Nat
  | .void => some 0
  | .int bitwidth => some (divceil bitwidth 8)
  | .float exponent mantissa => some (divceil (mantissa + exponent) 8)
  | .pointer => some pointerSize
  | .function => none
  | .array _ => none
  | .vector => none

def Operation.createBitcast (cache : OperationCache) (tgt : Ty) (operand : Operation) :
    Option Operation :=
  create cache (.unary .bitcast tgt) [operand]

namespace Allocation

variable (cache : OperationCache)

def loadBytes (alloc : Allocation) (offset : Operation) (width : Nat) : Option (List Operation) :=
  (List.range width).mapM fun i => do
    createArray cache .load [alloc.data, ← createBinaryLiteral cache .add offset i]

def appendByte (bitwidth : Nat) (bitresult : Operation) (byte : Operation × Nat) :
    Option Operation := do
  let extended ← createBinaryLiteral cache .shl
    (← createZExt cache (.int bitwidth) byte.1) (byte.2 * 8)
  createBinary cache .or bitresult extended

/-- The integer with the given bytes; the first one is read without a check. -/
def assemble (bitwidth : Nat) : List Operation → Option Operation
  | [] => none
  | first :: bytes => do
    (bytes.zipIdx 1).foldlM (appendByte cache bitwidth) (← createZExt cache (.int bitwidth) first)

/-- `Allocation::read` of a scalar type; `none` also stands for the exception. -/
def read (alloc : Allocation) (offset : Operation) (t : Ty) (pointerSize : Nat) :
    Option Operation := do
  guard (t ≠ .void ∧ t.isArray = false)
  guard (alloc.permissions.read = true)
  let width ← t.byteSize pointerSize
  let bytes ← alloc.loadBytes cache offset width
  if t = .int 8 then bytes[0]?
  else
    let bitwidth := width * 8
    let bitresult ← assemble cache bitwidth bytes
    if t.isInt = true then
      if t.bitwidth ≠ bitwidth then do
        guard (t.bitwidth < bitwidth)
        createTrunc cache t bitresult
      else some bitresult
    else createBitcast cache t bitresult

def overwrite (alloc : Allocation) (newdata : Operation) : Option Allocation :=
  if alloc.permissions.write then some { alloc with data := newdata } else none

def storeByte (offset value : Operation) (alloc : Allocation) (i : Nat) : Option Allocation := do
  let byte ← createTrunc cache (.int 8) (← createBinaryLiteral cache .lshr value (i * 8))
  let index ← createBinaryLiteral cache .add offset i
  alloc.overwrite (← createArray cache (.store alloc.data.type) [alloc.data, index, byte])

def write (alloc : Allocation) (offset value : Operation) (pointerSize : Nat) :
    Option Allocation := do
  guard (offset.type.isInt = true)
  guard (alloc.permissions.write = true)
  let byteWidth ← value.type.byteSize pointerSize
  let bitwidth := byteWidth * 8
  if value.type = .int 8 then
    alloc.overwrite (← createArray cache (.store alloc.data.type) [alloc.data, offset, value])
  else
    let value ←
      if value.type.isInt = true then
        if value.type.bitwidth ≠ bitwidth then createZExt cache (.int bitwidth) value
        else some value
      else createBitcast cache (.int bitwidth) value
    (List.range byteWidth).foldlM (storeByte cache offset value) alloc

end Allocation

end Caffeine
