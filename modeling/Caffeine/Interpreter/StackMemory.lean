import Caffeine.ADT.SlotMapRuns
import Caffeine.Memory.MemHeap
import Caffeine.Util.Runs

/-!
# Stack memory

An alloca is recorded in the frame on top of the stack. Returning from a frame frees what it
recorded, while `longjmp` and the second phase of unwinding cut frames off as they are.
-/

namespace Caffeine

namespace StackMemory

open List

/-- A frame with its allocas, or the frame of an external function. -/
inductive Frame where
  | regular (allocations : List AllocId)
  | external

/-- The frames, the top one first, and the allocations of an address space. -/
structure Context where
  stack : List Frame := []
  allocs : SlotMap Allocation := ∅

inductive Event where
  | push (external : Bool)
  | pop
  | allocate (alloc : Allocation)
  | free (alloc : AllocId)
  | longjmp (frameIdx : Nat)
  | unwind (currentFrame : Nat)

def Context.heap (c : Context) : MemHeap := ⟨0, c.allocs.toMap⟩

def Frame.allocations : Frame → List AllocId
  | regular allocations => allocations
  | external => []

def recorded (c : Context) : List AllocId := c.stack.flatMap Frame.allocations

/-- One turn of the loop of `Context::pop`, with its assertion. -/
def release (allocs : SlotMap Allocation) (id : AllocId) : Option (SlotMap Allocation) := do
  let (alloc, allocs) ← allocs.remove id
  if alloc.kind = .alloca then some allocs else none

def pop (c : Context) : Option Context :=
  match c.stack with
  | [] => none
  | frame :: stack => (frame.allocations.foldlM release c.allocs).map fun allocs =>
    { c with stack, allocs }

def allocate (c : Context) (alloc : Allocation) : Option Context := do
  let (id, allocs) ← c.allocs.emplace alloc
  match alloc.kind, c.stack with
  | .alloca, .regular allocations :: stack =>
    some ⟨.regular (allocations ++ [id]) :: stack, allocs⟩
  | .alloca, _ => none
  | _, _ => some { c with allocs }

/-- The stack down to its first `size` frames; nothing is freed. -/
def cut (c : Context) (size : Nat) : Context :=
  { c with stack := c.stack.drop (c.stack.length - size) }

/-- Programs do not free stack memory. -/
def step (c : Context) : Event → Option Context
  | .push external =>
    some { c with stack := (if external then .external else .regular []) :: c.stack }
  | .pop => pop c
  | .allocate alloc => allocate c alloc
  | .free id => do
    let (alloc, allocs) ← c.allocs.remove id
    if alloc.kind = .alloca then none else some { c with allocs }
  | .longjmp frameIdx => some (cut c frameIdx)
  | .unwind currentFrame => some (cut c (currentFrame + 1))

def Event.left : Event → Option Nat
  | .longjmp frameIdx => some frameIdx
  | .unwind currentFrame => some (currentFrame + 1)
  | _ => none

/-- No frame with allocas is cut off. -/
def Allowed (c : Context) (e : Event) : Prop :=
  ∀ size ∈ e.left, ∀ frame ∈ c.stack.take (c.stack.length - size), frame.allocations = []

instance (c : Context) (e : Event) : Decidable (Allowed c e) :=
  inferInstanceAs (Decidable (∀ size ∈ e.left, _))

def Live (allocs : SlotMap Allocation) (id : AllocId) : Prop :=
  ∃ alloc, allocs.at? id = some alloc ∧ alloc.kind = .alloca

/-- The live allocas are those recorded, each of them once. -/
structure Exact (c : Context) : Prop where
  nodup : (recorded c).Nodup
  live : ∀ id, Live c.allocs id ↔ id ∈ recorded c

variable {c c' : Context} {e : Event} {allocs allocs' : SlotMap Allocation} {id : AllocId}
  {alloc : Allocation}

theorem at?_remove (h : allocs.remove id = some (alloc, allocs')) :
    allocs.at? id = some alloc ∧ ∀ k, allocs'.at? k = if k = id then none else allocs.at? k := by
  obtain ⟨hnone, hat⟩ := SlotMap.at?_of_perm (SlotMap.remove_pairs h)
  refine ⟨by rw [hat, if_pos rfl], fun k => ?_⟩
  split_ifs with hk
  · rw [hk, hnone]
  · rw [hat, if_neg hk]

theorem at?_release {ids : List AllocId} (h : ids.foldlM release allocs = some allocs')
    (k : AllocId) : allocs'.at? k = if k ∈ ids then none else allocs.at? k := by
  induction ids generalizing allocs with
  | nil =>
    cases h
    simp
  | cons id ids ih =>
    obtain ⟨allocs₁, hid, h⟩ := foldlM_cons_eq_some.mp h
    obtain ⟨⟨alloc, allocs₂⟩, hremove, hid⟩ := Option.bind_eq_some_iff.mp hid
    obtain ⟨-, hid⟩ := Option.ite_none_right_eq_some.mp hid
    cases hid
    rw [ih h, (at?_remove hremove).2]
    by_cases hk : k = id <;> simp [hk]

theorem allocate_cases (h : allocate c alloc = some c') : ∃ id, c.allocs.at? id = none ∧
    (∀ k, c'.allocs.at? k = if k = id then some alloc else c.allocs.at? k) ∧
    if alloc.kind = .alloca then (recorded c').Perm (id :: recorded c)
    else recorded c' = recorded c := by
  obtain ⟨⟨id, allocs⟩, hemplace, h⟩ := Option.bind_eq_some_iff.mp h
  obtain ⟨hnone, hat⟩ := SlotMap.at?_of_perm (SlotMap.emplace_pairs hemplace)
  refine ⟨id, hnone, ?_⟩
  simp only at h
  split at h
  case h_1 ids stack hkind hs =>
    cases h
    refine ⟨hat, ?_⟩
    rw [if_pos hkind]
    simp only [recorded, hs, flatMap_cons, Frame.allocations, append_assoc]
    exact perm_middle
  case h_2 => cases h
  case h_3 hkind _ =>
    cases h
    exact ⟨hat, by rw [if_neg hkind]; rfl⟩

theorem pop_cases (h : pop c = some c') : ∃ frame : Frame,
    recorded c = frame.allocations ++ recorded c' ∧
    ∀ k, c'.allocs.at? k = if k ∈ frame.allocations then none else c.allocs.at? k := by
  unfold pop at h
  split at h
  · cases h
  · rename_i frame stack hs
    obtain ⟨allocs, hrel, rfl⟩ := Option.map_eq_some_iff.mp h
    exact ⟨frame, by rw [recorded, hs, flatMap_cons]; rfl, at?_release hrel⟩

theorem Exact.pop (hc : Exact c) (h : pop c = some c') : Exact c' := by
  obtain ⟨frame, hrec, hat⟩ := pop_cases h
  obtain ⟨-, hrest, hdisj⟩ := nodup_append'.mp (hrec ▸ hc.nodup)
  refine ⟨hrest, fun id => ?_⟩
  have hlive := hc.live id
  rw [Live, hrec, mem_append] at hlive
  rw [Live, hat]
  by_cases hin : id ∈ frame.allocations
  · simpa [hin] using hdisj hin
  · simpa [hin] using hlive

/-- An access to an alloca of the frame that is left is invalid. -/
theorem checkValid_popped (h : pop c = some c') (hid : id ∈ recorded c) (hleft : id ∉ recorded c')
    (cache : OperationCache) {ptr : Pointer} (hptr : ptr.alloc = some id) (width : Operation) :
    c'.heap.checkValid cache ptr width = some (.constant false) := by
  obtain ⟨frame, hrec, hat⟩ := pop_cases h
  have hnone : c'.allocs.toMap.lookup id = none := by
    rw [← SlotMap.at?_eq_lookup, hat, if_pos]
    exact (mem_append.mp (hrec ▸ hid)).resolve_right hleft
  simp only [MemHeap.checkValid, hptr, Context.heap, hnone]

theorem Exact.allocate (hc : Exact c) (h : allocate c alloc = some c') : Exact c' := by
  obtain ⟨id, hnone, hat, hrec⟩ := allocate_cases h
  have hnew : id ∉ recorded c := fun hmem => by
    obtain ⟨a, ha, -⟩ := (hc.live id).mpr hmem
    rw [hnone] at ha
    cases ha
  have hlive : ∀ k, Live c'.allocs k ↔ k = id ∧ alloc.kind = .alloca ∨ k ∈ recorded c := by
    intro k
    rw [← hc.live, Live, Live, hat]
    by_cases hk : k = id <;> simp [hk, hnone]
  split_ifs at hrec with hkind
  · refine ⟨hrec.nodup_iff.mpr (nodup_cons.mpr ⟨hnew, hc.nodup⟩), fun k => ?_⟩
    rw [hlive, hrec.mem_iff, mem_cons, and_iff_left hkind]
  · exact ⟨hrec ▸ hc.nodup, fun k => by simp [hlive, hrec, hkind]⟩

theorem Exact.cut_iff (hc : Exact c) (size : Nat) : Exact (cut c size) ↔
    ∀ frame ∈ c.stack.take (c.stack.length - size), frame.allocations = [] := by
  have hrec : recorded c = (c.stack.take (c.stack.length - size)).flatMap Frame.allocations ++
      recorded (cut c size) := by
    rw [recorded, recorded, cut, ← flatMap_append, take_append_drop]
  rw [← flatMap_eq_nil_iff]
  constructor
  · intro hcut
    refine eq_nil_iff_forall_not_mem.mpr fun a ha => ?_
    have hlive : a ∈ recorded (cut c size) :=
      (hcut.live a).mp ((hc.live a).mpr (hrec ▸ mem_append_left _ ha))
    exact (nodup_append'.mp (hrec ▸ hc.nodup)).2.2 ha hlive
  · intro hnil
    rw [hnil, nil_append] at hrec
    exact ⟨hrec ▸ hc.nodup, fun a => hrec ▸ hc.live a⟩

theorem Exact.step_iff (hc : Exact c) (h : step c e = some c') : Exact c' ↔ Allowed c e := by
  have hkept (hleft : e.left = none) (hc' : Exact c') : Exact c' ↔ Allowed c e :=
    iff_of_true hc' (by simp [Allowed, hleft])
  cases e with
  | push external =>
    cases h
    exact hkept rfl (by cases external <;> exact ⟨hc.nodup, hc.live⟩)
  | pop => exact hkept rfl (hc.pop h)
  | allocate alloc => exact hkept rfl (hc.allocate h)
  | free k =>
    obtain ⟨⟨old, allocs⟩, hremove, h⟩ := Option.bind_eq_some_iff.mp h
    obtain ⟨hkind, h⟩ := Option.ite_none_left_eq_some.mp h
    cases h
    obtain ⟨hold, hat⟩ := at?_remove hremove
    refine hkept rfl ⟨hc.nodup, fun id => Iff.trans ?_ (hc.live id)⟩
    rw [Live, Live, hat]
    by_cases hid : id = k
    · simpa [hid, hold] using hkind
    · simp [hid]
  | longjmp frameIdx =>
    cases h
    simpa [Allowed, Event.left] using hc.cut_iff frameIdx
  | unwind currentFrame =>
    cases h
    simpa [Allowed, Event.left] using hc.cut_iff (currentFrame + 1)

def sampleAlloca : Allocation where
  address := .constantInt ⟨64, 256⟩
  size := .constantInt ⟨64, 8⟩
  data := .mk (.fixedArray 64) []
  kind := .alloca
  permissions := ⟨true, true, false⟩
  typed := ⟨64, rfl, rfl⟩

end StackMemory

end Caffeine
