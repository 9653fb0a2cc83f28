import Mathlib.Data.Finset.Basic

/-!
# Concrete addresses

`BumpAllocator` hands out consecutive addresses of a range. The addresses are bitvectors and wrap
around; a block is followed by eight bytes that belong to no block.
-/

namespace Caffeine

structure BumpAllocator (n : Nat) where
  allocations : Finset (BitVec n)
  current : BitVec n
  base : BitVec n
  size : BitVec n

namespace BumpAllocator

variable {n : Nat}

def create (base size : BitVec n) : BumpAllocator n := ⟨∅, base, base, size⟩

def isPowerOf2 (v : BitVec n) : Bool := (List.range n).any fun k => v = BitVec.twoPow n k

/-- Alignments below eight are raised to eight; `setBit` asserts that the width has that bit. -/
def raise (align : BitVec n) : Option (BitVec n) :=
  if align.toNat < 8 then if 3 < n then some 8 else none else some align

/-- `BumpAllocator::allocate`: the address, if there is room for one. -/
def allocate (b : BumpAllocator n) (size align : BitVec n) :
    Option (Option (BitVec n) × BumpAllocator n) := do
  guard (align = 0 ∨ isPowerOf2 align)
  let align ← raise align
  let size := size + 8
  let pos := (b.current + (align - 1)) &&& ~~~(align - 1)
  if b.size - (pos - b.base) < size then some (none, { b with current := pos })
  else some (some pos, { b with current := pos + size, allocations := insert pos b.allocations })

def deallocate (b : BumpAllocator n) (addr : BitVec n) : Option (BumpAllocator n) :=
  if addr ∈ b.allocations then some { b with allocations := b.allocations.erase addr } else none

end BumpAllocator

end Caffeine
