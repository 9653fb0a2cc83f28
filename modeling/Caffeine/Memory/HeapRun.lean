import Caffeine.ADT.SlotMap
import Caffeine.Memory.BumpAllocator
import Caffeine.Memory.MemHeapSound

/-!
# Runs of a heap

A heap takes addresses from a concrete allocator as long as sizes and alignments are literals, and
then from fresh symbols. Where its allocations lie is fixed only by the assertions of `allocate`. A
run is a sequence of `allocate` and `deallocate`.
-/

namespace Caffeine

open Operation Assertion OperationSimplifier List

inductive Allocator where
  | symbolic
  | init {n : Nat} (bump : BumpAllocator n)
  | uninit

namespace Allocator

/-- The end of `alloc_addr`: a fresh symbol, and symbolic addresses from now on. -/
def symbolicAddr (type : Ty) (constants : Nat) : Option (Operation × Allocator × Nat) := do
  guard (constants < 2 ^ 29)
  some (.constant type (.numbered constants), .symbolic, constants + 1)

def bumpAddr {n : Nat} (bump : BumpAllocator n) (type : Ty) (constants : Nat) (size align : APInt) :
    Option (Operation × Allocator × Nat) := do
  guard (size.width = n ∧ align.width = n)
  match ← bump.allocate (size.resize n) (align.resize n) with
  | (some addr, bump) => some (.constantInt ⟨n, addr⟩, .init bump, constants)
  | (none, _) => symbolicAddr type constants

/-- `MemHeap::alloc_addr`, with what the e-graph extracts for the size and the alignment;
`constants` numbers the next symbol. -/
def allocAddr (allocator : Allocator) (type : Ty) (constants : Nat) (size align : Operation) :
    Option (Operation × Allocator × Nat) :=
  match allocator, constantInt? size, constantInt? align with
  | .init bump, some size, some align => bumpAddr bump type constants size align
  | .uninit, some size, some align =>
    let base := BitVec.intMin size.width
    bumpAddr (BumpAllocator.create base base) type constants size align
  | _, _, _ => symbolicAddr type constants

def release (allocator : Allocator) (address : Operation) : Option Allocator :=
  match allocator with
  | @init n bump => do
    let value ← constantInt? address
    guard (value.width = n)
    some (.init (← bump.deallocate (value.resize n)))
  | _ => some .symbolic

end Allocator

structure MemHeap.State where
  index : Nat
  allocs : SlotMap Allocation
  allocator : Allocator

def MemHeap.State.heap (s : MemHeap.State) : MemHeap := ⟨s.index, s.allocs.toMap⟩

/-- A heap, the part of the context its calls use, and the alignments requested. -/
structure HeapRun where
  state : MemHeap.State
  constants : Nat
  assertions : List Assertion
  alignments : Map AllocId Operation

/-- A call, with the expressions the e-graph extracts for the size and the alignment. -/
inductive HeapCall where
  | allocate (size alignment data : Operation) (kind : AllocationKind)
    (permissions : AllocationPermissions) (extractedSize extractedAlign : Operation)
  | deallocate (alloc : AllocId)

namespace HeapRun

variable (cache : OperationCache)

/-- The heap of the constructor; the first symbol has number `constants`. -/
def start (index : Nat) (concrete : Bool) (constants : Nat) : HeapRun where
  state := ⟨index, ∅, if concrete then .uninit else .symbolic⟩
  constants := constants
  assertions := []
  alignments := ∅

def allocate (r : HeapRun) (size alignment data : Operation) (kind : AllocationKind)
    (permissions : AllocationPermissions) (extractedSize extractedAlign : Operation) :
    Option HeapRun := do
  let (address, allocator, constants) ←
    r.state.allocator.allocAddr size.type r.constants extractedSize extractedAlign
  let newalloc ← Allocation.create address size data kind permissions
  let (key, allocs) ← r.state.allocs.emplace newalloc
  let (_, added) ← r.state.heap.allocate cache key address size alignment data kind permissions
  some ⟨⟨r.state.index, allocs, allocator⟩, constants, r.assertions ++ added,
    r.alignments.insert key alignment⟩

def deallocate (r : HeapRun) (alloc : AllocId) : Option HeapRun := do
  let (value, allocs) ← r.state.allocs.remove alloc
  let allocator ← r.state.allocator.release value.address
  some { r with
    state := ⟨r.state.index, allocs, allocator⟩, alignments := r.alignments.erase alloc }

def step (r : HeapRun) : HeapCall → Option HeapRun
  | .allocate size alignment data kind permissions extractedSize extractedAlign =>
    r.allocate cache size alignment data kind permissions extractedSize extractedAlign
  | .deallocate alloc => r.deallocate alloc

def run (r : HeapRun) (calls : List HeapCall) : Option HeapRun := calls.foldlM (step cache) r

end HeapRun

variable {cache : OperationCache} {n : Nat} {σ : Assignment}

namespace Allocator

variable {allocator allocator' : Allocator} {constants constants' : Nat}
  {size align address : Operation}

theorem symbolicAddr_wellTyped
    (h : symbolicAddr (.int n) constants = some (address, allocator', constants')) :
    address.Interpreted := by
  simp only [symbolicAddr, bind_eq_some, Option.some.injEq, Prod.mk.injEq] at h
  obtain ⟨-, -, rfl, -⟩ := h
  exact wellTyped_mk.mpr ⟨rfl, rfl, by simp⟩

theorem bumpAddr_wellTyped {m : Nat} {bump : BumpAllocator m} {s a : APInt}
    (h : bumpAddr bump (.int n) constants s a = some (address, allocator', constants')) :
    address.Interpreted := by
  simp only [bumpAddr, bind_eq_some] at h
  obtain ⟨-, -, ⟨addr, bump'⟩, -, h⟩ := h
  cases addr with
  | none => exact symbolicAddr_wellTyped h
  | some addr =>
    cases h
    exact wellTyped_mk.mpr ⟨rfl, rfl, by simp⟩

theorem allocAddr_wellTyped (h : allocator.allocAddr (.int n) constants size align =
      some (address, allocator', constants')) :
    address.Interpreted := by
  unfold allocAddr at h
  split at h
  · exact bumpAddr_wellTyped h
  · exact bumpAddr_wellTyped h
  · exact symbolicAddr_wellTyped h

end Allocator

namespace MemHeap

variable {heap heap' : MemHeap}

theorem Typed.perm (h : heap.Typed n) (hperm : heap'.allocs.pairs.Perm heap.allocs.pairs) :
    heap'.Typed n :=
  ⟨fun e he => h.address e (hperm.mem_iff.mp he), fun e he => h.size e (hperm.mem_iff.mp he)⟩

theorem Separated.perm (h : heap.Separated n σ)
    (hperm : heap'.allocs.pairs.Perm heap.allocs.pairs) : heap'.Separated n σ := by
  refine ⟨fun e he => h.placed e (hperm.mem_iff.mp he), (hperm.pairwise_iff ?_).mpr h.apart⟩
  intro e e' hapart a s a' s' hat hat'
  exact (hapart a' s' a s hat' hat).symm

theorem Typed.of_cons {entry : AllocId × Allocation} (h : heap.Typed n)
    (hperm : heap.allocs.pairs.Perm (entry :: heap'.allocs.pairs)) : heap'.Typed n :=
  ⟨fun e he => h.address e (hperm.mem_iff.mpr (mem_cons_of_mem _ he)),
    fun e he => h.size e (hperm.mem_iff.mpr (mem_cons_of_mem _ he))⟩

theorem Separated.of_cons {entry : AllocId × Allocation} (h : heap.Separated n σ)
    (hperm : heap.allocs.pairs.Perm (entry :: heap'.allocs.pairs)) : heap'.Separated n σ := by
  refine ⟨fun e he => h.placed e (hperm.mem_iff.mpr (mem_cons_of_mem _ he)), ?_⟩
  refine (pairwise_cons.mp ((hperm.pairwise_iff ?_).mp h.apart)).2
  intro e e' hapart a s a' s' hat hat'
  exact (hapart a' s' a s hat' hat).symm

end MemHeap

def HeapCall.Typed (n : Nat) : HeapCall → Prop
  | .allocate size alignment _ _ _ _ _ => size.IsInt n ∧ alignment.IsInt n
  | .deallocate _ => True

namespace HeapRun

/-- The allocation lies at a multiple of the alignment that was requested for it. -/
def Aligned (n : Nat) (σ : Assignment) (r : HeapRun) (entry : AllocId × Allocation) : Prop :=
  ∃ alignment, r.alignments.lookup entry.1 = some alignment ∧
    ∃ al : BitVec n, Denotes σ alignment al ∧
      ∀ a s : BitVec n, entry.2.At σ a s → al ≠ 0 → al.toNat ∣ a.toNat

structure Sound (n : Nat) (r : HeapRun) : Prop where
  typed : r.state.heap.Typed n
  separated : ∀ σ, Models σ r.assertions → r.state.heap.Separated n σ
  aligned : ∀ σ, Models σ r.assertions → ∀ entry ∈ r.state.heap.allocs.pairs, r.Aligned n σ entry

variable {r r' : HeapRun}

theorem start_sound (index : Nat) (concrete : Bool) (constants : Nat) :
    (start index concrete constants).Sound n := by
  have hpairs : (start index concrete constants).state.heap.allocs.pairs = [] := rfl
  refine ⟨⟨?_, ?_⟩, fun σ _ => ⟨?_, ?_⟩, fun σ _ => ?_⟩ <;> simp [hpairs]

theorem step_pairs {call : HeapCall} (h : r.step cache call = some r') :
    r'.state.index = r.state.index ∧
      match call with
      | .allocate size .. => ∃ entry : AllocId × Allocation, entry.2.size = size ∧
          r'.state.heap.allocs.pairs.Perm (entry :: r.state.heap.allocs.pairs)
      | .deallocate alloc => ∃ value,
          r.state.heap.allocs.pairs.Perm ((alloc, value) :: r'.state.heap.allocs.pairs) := by
  cases call with
  | allocate =>
    simp only [step, allocate, bind_eq_some, Option.some.injEq] at h
    obtain ⟨⟨address, allocator, constants⟩, -, newalloc, hnew, ⟨key, allocs⟩, hemplace, -, -,
      rfl⟩ := h
    refine ⟨rfl, (key, newalloc), (Allocation.eq_of_create hnew).2, ?_⟩
    rw [MemHeap.State.heap, MemHeap.State.heap, SlotMap.pairs_toMap, SlotMap.pairs_toMap]
    exact SlotMap.emplace_pairs hemplace
  | deallocate alloc =>
    simp only [step, deallocate, bind_eq_some, Option.some.injEq] at h
    obtain ⟨⟨value, allocs⟩, hremove, allocator, -, rfl⟩ := h
    refine ⟨rfl, value, ?_⟩
    rw [MemHeap.State.heap, MemHeap.State.heap, SlotMap.pairs_toMap, SlotMap.pairs_toMap]
    exact SlotMap.remove_pairs hremove

theorem allocate_sound {size alignment data extractedSize extractedAlign : Operation}
    {kind : AllocationKind} {permissions : AllocationPermissions} (hsize : size.IsInt n)
    (halignment : alignment.IsInt n)
    (h : r.allocate cache size alignment data kind permissions extractedSize extractedAlign =
      some r') (hr : r.Sound n) : r'.Sound n := by
  simp only [allocate, bind_eq_some, Option.some.injEq, hsize.type] at h
  obtain ⟨⟨address, allocator, constants⟩, haddr, newalloc, hnew, ⟨key, allocs⟩, hemplace,
    ⟨heap', added⟩, hallocate, rfl⟩ := h
  have hfr := SlotMap.emplace_notMem hemplace
  have hadr : address.IsInt n := by
    obtain ⟨w, hw, hw'⟩ := newalloc.typed
    obtain ⟨rfl, rfl⟩ := Allocation.eq_of_create hnew
    exact ⟨Allocator.allocAddr_wellTyped haddr, hw.trans (hw'.symm.trans hsize.type)⟩
  obtain ⟨hty, hsep⟩ :=
    MemHeap.allocate_separated hr.typed hadr hsize hfr hallocate
  obtain ⟨newalloc', placed, separate, hnew', hplaced, -, rfl, rfl⟩ :=
    MemHeap.allocate_eq_some hallocate
  obtain rfl := Option.some.inj (hnew.symm.trans hnew')
  have hperm : allocs.toMap.pairs.Perm ((key, newalloc) :: r.state.heap.allocs.pairs) := by
    rw [MemHeap.State.heap, SlotMap.pairs_toMap, SlotMap.pairs_toMap]
    exact SlotMap.emplace_pairs hemplace
  have hins := Map.pairs_insert hfr newalloc
  refine ⟨hty.perm (hins ▸ hperm), fun σ hσ => ?_, fun σ hσ entry hent => ?_⟩
  · obtain ⟨hold, hadded⟩ := models_append.mp hσ
    exact (hsep σ (hr.separated σ hold) hadded).perm (hins ▸ hperm)
  · obtain ⟨hold, hadded⟩ := models_append.mp hσ
    obtain rfl | hmem := mem_cons.mp (hperm.mem_iff.mp hent)
    · obtain ⟨al, hal⟩ := halignment.denotes σ
      refine ⟨alignment, AList.lookup_insert _, al, hal, fun a s hat hne => ?_⟩
      exact MemHeap.placement_aligned hat hal hplaced (models_append.mp hadded).1 hne
    · obtain ⟨alignment', hlook, haligned⟩ := hr.aligned σ hold entry hmem
      have hne : entry.1 ≠ key := by
        rintro rfl
        exact hfr (Map.mem_of_lookup (Map.mem_pairs.mp hmem))
      exact ⟨alignment', (AList.lookup_insert_ne hne).trans hlook, haligned⟩

theorem deallocate_sound {alloc : AllocId} (h : r.deallocate alloc = some r') (hr : r.Sound n) :
    r'.Sound n := by
  simp only [deallocate, bind_eq_some, Option.some.injEq] at h
  obtain ⟨⟨value, allocs⟩, hremove, allocator, -, rfl⟩ := h
  have hperm : r.state.heap.allocs.pairs.Perm ((alloc, value) :: allocs.toMap.pairs) := by
    rw [MemHeap.State.heap, SlotMap.pairs_toMap, SlotMap.pairs_toMap]
    exact SlotMap.remove_pairs hremove
  refine ⟨hr.typed.of_cons hperm, fun σ hσ => (hr.separated σ hσ).of_cons hperm,
    fun σ hσ entry hent => ?_⟩
  obtain ⟨alignment, hlook, haligned⟩ :=
    hr.aligned σ hσ entry (hperm.mem_iff.mpr (mem_cons_of_mem _ hent))
  have hne : entry.1 ≠ alloc := by
    rintro rfl
    exact SlotMap.remove_notMem hremove (Map.mem_of_lookup (Map.mem_pairs.mp hent))
  exact ⟨alignment, (AList.lookup_erase_ne hne).trans hlook, haligned⟩

theorem step_sound {call : HeapCall} (hcall : call.Typed n) (h : r.step cache call = some r')
    (hr : r.Sound n) : r'.Sound n := by
  cases call with
  | allocate => exact allocate_sound hcall.1 hcall.2 h hr
  | deallocate => exact deallocate_sound h hr

/-- After every run the models of the added assertions place the live allocations apart, at
multiples of their alignments. -/
theorem run_separated (cache : OperationCache) (index : Nat) (concrete : Bool) (constants n : Nat)
    (calls : List HeapCall) (r : HeapRun) (hcalls : ∀ call ∈ calls, call.Typed n)
    (hrun : (start index concrete constants).run cache calls = some r) (σ : Assignment)
    (hσ : Models σ r.assertions) :
    r.state.heap.Separated n σ ∧ ∀ entry ∈ r.state.heap.allocs.pairs, r.Aligned n σ entry := by
  have hsnd : r.Sound n := foldlM_invariant (Sound n)
    (fun r call r' hmem hstep hr => step_sound (hcalls call hmem) hstep hr) hrun
    (start_sound index concrete constants)
  exact ⟨hsnd.separated σ hσ, hsnd.aligned σ hσ⟩

namespace Sample

def literal (v : Nat) : Operation := .constantInt (APInt.ofNat 64 v)

def symbol : Operation := .constant (.int 64) (.numbered 0)

def calls : List HeapCall :=
  let allocate size align := HeapCall.allocate size align (literal 0) .malloc ⟨true, true, false⟩
    size align
  [allocate (literal 4) (literal 16), allocate (literal 0) (literal 8),
    allocate symbol (literal 8), .deallocate (0, 0), allocate (literal 4) (literal 16)]

theorem calls_typed : ∀ call ∈ calls, call.Typed 64 := by
  have hlit : ∀ v, (literal v).IsInt 64 := fun v => ⟨wellTyped_mk.mpr ⟨rfl, rfl, by simp⟩, rfl⟩
  have hsym : symbol.IsInt 64 := ⟨wellTyped_mk.mpr ⟨rfl, rfl, by simp⟩, rfl⟩
  simp [calls, HeapCall.Typed, hlit, hsym]

end Sample

theorem run_separated_reused_slot :
    ∃ r, (start 0 true 1).run .full Sample.calls = some r ∧
      r.state.heap.allocs.pairs.map Prod.fst = [(0, 1), (1, 0), (2, 0)] ∧
      ∀ σ, Models σ r.assertions → r.state.heap.Separated 64 σ := by
  obtain ⟨r, hrun, hkeys⟩ := Option.map_eq_some_iff.mp
    (show ((start 0 true 1).run .full Sample.calls).map
      (fun r => r.state.heap.allocs.pairs.map Prod.fst) = some [(0, 1), (1, 0), (2, 0)] by
        decide +kernel)
  exact ⟨r, hrun, hkeys, fun σ hσ =>
    (run_separated .full 0 true 1 64 Sample.calls r Sample.calls_typed hrun σ hσ).1⟩

end HeapRun

end Caffeine
