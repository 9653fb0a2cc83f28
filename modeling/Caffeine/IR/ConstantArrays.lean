import Caffeine.IR.OperationSimplifierArrays

/-!
# Arrays of constant size

`AllocOp::Create` folds an allocation of constant size to an array, and every store at a constant
offset constructs the array again. Both pass the test of `FixedArray::Create` on the logarithm of
the size.
-/

namespace Caffeine

open List

def Operation.size? : Operation → Option Operation
  | .mk (.alloc _) (size :: _) => some size
  | .mk (.constant (.array _) _) (size :: _) => some size
  | .mk (.store _) [data, _, _] => data.size?
  | .mk (.fixedArray w) data => some (.constantInt ⟨w, BitVec.ofNat w data.length⟩)
  | _ => none

namespace OperationSimplifier

open Operation

section Constant

variable (cache : OperationCache) {w : Nat}

def storeAll (stores : List (BitVec w × Operation)) (array : Operation) : Option Operation :=
  stores.foldlM (fun array s =>
    createArray cache (.store array.type) [array, constantInt ⟨w, s.1⟩, s.2]) array

/-- An array of `m` bytes: its elements or, for the largest `size_t`, the stores to the
allocation. -/
inductive Represents (m : BitVec w) : Operation → Prop
  | fixed (elements : List Operation) (hlength : elements.length = m.toNat) (hm : m ≠ 0)
    (hlt : m.toNat < APInt.uint64Max) : Represents m (.mk (.fixedArray w) elements)
  | alloc (value : Operation) (hm : m.toNat = APInt.uint64Max) :
    Represents m (.mk (.alloc w) [constantInt ⟨w, m⟩, value])
  | store {data : Operation} (offset value : Operation) (hm : m.toNat = APInt.uint64Max)
    (hdata : Represents m data) : Represents m (.mk (.store (.array w)) [data, offset, value])

variable {m : BitVec w} {array : Operation}

theorem Represents.type (h : Represents m array) : array.type = .array w := by
  cases h <;> rfl

theorem Represents.size (h : Represents m array) : array.size? = some (constantInt ⟨w, m⟩) := by
  induction h with
  | fixed elements hlen _ _ => rw [size?, hlen, BitVec.ofNat_toNat, BitVec.setWidth_eq]
  | alloc value _ => rw [size?]
  | store offset value _ _ ih => rw [size?, ih]

theorem createAlloc_cases (hw : w ≤ 64) (value : Operation) (hval : value.type = .int 8) :
    (m = 0 → createArray cache (.alloc w) [constantInt ⟨w, m⟩, value] = none) ∧
      (m ≠ 0 → ∃ array, createArray cache (.alloc w) [constantInt ⟨w, m⟩, value] = some array ∧
        Represents m array) := by
  have hle : m.toNat ≤ APInt.uint64Max :=
    Nat.le_sub_one_of_lt (m.isLt.trans_le (Nat.pow_le_pow_right (by decide) hw))
  have hlimited : (APInt.mk w m).getLimitedValue APInt.uint64Max = m.toNat := Nat.min_eq_left hle
  have hcr : createArray cache (.alloc w) [constantInt ⟨w, m⟩, value] =
      if m.toNat < APInt.uint64Max then createFixedArray w (List.replicate m.toNat value)
      else some (.mk (.alloc w) [constantInt ⟨w, m⟩, value]) := by
    rw [createArray, if_pos (by simp [OperationData.accepts, constantInt, OperationData.type,
      hval])]
    rw [visitArray, visitAllocOp, ← hlimited]
    rfl
  rw [hcr]
  refine ⟨?_, fun hm => ?_⟩
  · rintro rfl
    have hzero : (0 : BitVec w).toNat = 0 := BitVec.toNat_zero
    rw [hzero, if_pos (by decide)]
    exact createFixedArray_nil (hw.trans_lt (by decide))
  · by_cases hlt : m.toNat < APInt.uint64Max
    · rw [if_pos hlt]
      refine ⟨_, createFixedArray_of_pos ?_ ?_, .fixed _ (length_replicate) hm hlt⟩
      · rw [length_replicate]
        exact BitVecFacts.toNat_pos hm
      · rw [length_replicate]
        exact m.isLt.le
    · rw [if_neg hlt]
      exact ⟨_, rfl, .alloc value (le_antisymm hle (Nat.not_lt.mp hlt))⟩

theorem Represents.createStore (hw : w ≤ 64) (h : Represents m array) (x : BitVec w)
    {value : Operation} (hval : value.type = .int 8) :
    (m.toNat = APInt.uint64Max ∨ x.toNat < m.toNat → ∃ array',
      createArray cache (.store array.type) [array, constantInt ⟨w, x⟩, value] = some array' ∧
        Represents m array') ∧
    (¬ (m.toNat = APInt.uint64Max ∨ x.toNat < m.toNat) →
      createArray cache (.store array.type) [array, constantInt ⟨w, x⟩, value] = none) := by
  have hcr : createArray cache (.store array.type) [array, constantInt ⟨w, x⟩, value] =
      visitStoreOp array (constantInt ⟨w, x⟩) value := by
    rw [createArray, if_pos (by simp [OperationData.accepts, constantInt, OperationData.type, hval,
      h.type])]
    rw [visitArray]
  have hunfolded : ∀ array : Operation, Represents m array → fixedArray? array = none →
      m.toNat = APInt.uint64Max → ∃ array',
        visitStoreOp array (constantInt ⟨w, x⟩) value = some array' ∧ Represents m array' := by
    intro array h hnone hm
    rw [visitStoreOp, hnone, h.type]
    exact ⟨_, rfl, .store _ _ hm h⟩
  rw [hcr]
  cases id h with
  | fixed elements hlen hm hlt =>
    have hlimited : (APInt.mk w x).getLimitedValue APInt.uint64Max = x.toNat :=
      Nat.min_eq_left (Nat.le_sub_one_of_lt (x.isLt.trans_le (Nat.pow_le_pow_right (by decide) hw)))
    have hvis : visitStoreOp (.mk (.fixedArray w) elements) (constantInt ⟨w, x⟩) value =
        if x.toNat < m.toNat then createFixedArray w (elements.set x.toNat value) else none := by
      rw [← hlimited, ← hlen]
      rfl
    rw [hvis, or_iff_right hlt.ne]
    refine ⟨fun hx => ?_, fun hx => if_neg hx⟩
    have hset : (elements.set x.toNat value).length = m.toNat := by rw [length_set, hlen]
    rw [if_pos hx]
    exact ⟨_, createFixedArray_of_pos (hset ▸ BitVecFacts.toNat_pos hm) (hset ▸ m.isLt.le),
      .fixed _ hset hm hlt⟩
  | alloc v hm => exact ⟨fun _ => hunfolded _ h rfl hm, fun hnot => absurd (.inl hm) hnot⟩
  | store offset v hm _ => exact ⟨fun _ => hunfolded _ h rfl hm, fun hnot =>
      absurd (.inl hm) hnot⟩

theorem Represents.storeAll (hw : w ≤ 64) {stores : List (BitVec w × Operation)}
    (hstores : ∀ s ∈ stores, s.2.type = .int 8) (h : Represents m array) :
    (m.toNat = APInt.uint64Max ∨ (∀ s ∈ stores, s.1.toNat < m.toNat) →
      ∃ last, storeAll cache stores array = some last ∧ Represents m last) ∧
    (¬ (m.toNat = APInt.uint64Max ∨ ∀ s ∈ stores, s.1.toNat < m.toNat) →
      storeAll cache stores array = none) := by
  induction stores generalizing array with
  | nil => exact ⟨fun _ => ⟨array, rfl, h⟩, fun hnot => absurd (.inr (by simp)) hnot⟩
  | cons s stores ih =>
    obtain ⟨hs, hstores⟩ := forall_mem_cons.mp hstores
    obtain ⟨hin, hout⟩ := h.createStore cache hw s.1 hs
    rw [forall_mem_cons, or_and_left, OperationSimplifier.storeAll, foldlM_cons]
    by_cases hcond : m.toNat = APInt.uint64Max ∨ s.1.toNat < m.toNat
    · obtain ⟨array', hcr, h'⟩ := hin hcond
      rw [and_iff_right hcond, hcr]
      exact ih hstores h'
    · rw [hout hcond]
      exact ⟨fun hall => absurd hall.1 hcond, fun _ => rfl⟩

/-- For every size but zero the allocation and the stores inside it are constructed, with that
size. -/
theorem constant_alloc_iff (cache : OperationCache) (w : Nat) (hw : 1 ≤ w ∧ w ≤ 64) (m : BitVec w)
    (value : Operation) (hvalue : value.type = .int 8) (stores : List (BitVec w × Operation))
    (hstores : ∀ s ∈ stores, s.2.type = .int 8) (σ : Assignment) :
    (∃ array last size, createArray cache (.alloc w) [constantInt ⟨w, m⟩, value] = some array ∧
      storeAll cache stores array = some last ∧ last.size? = some size ∧
      size.eval σ = .int ⟨w, m⟩) ↔
    m ≠ 0 ∧ (m.toNat = APInt.uint64Max ∨ ∀ s ∈ stores, s.1.toNat < m.toNat) := by
  obtain ⟨hzero, hnonzero⟩ := createAlloc_cases cache (m := m) hw.2 value hvalue
  by_cases hm : m = 0
  · refine iff_of_false ?_ fun hcond => hcond.1 hm
    rintro ⟨array, last, size, hal, -⟩
    rw [hzero hm] at hal
    cases hal
  · obtain ⟨array, hal, hrep⟩ := hnonzero hm
    obtain ⟨hin, hout⟩ := hrep.storeAll cache hw.2 hstores
    rw [and_iff_right hm]
    constructor
    · rintro ⟨array', last, size, hal', hlast, -⟩
      cases hal.symm.trans hal'
      by_contra hcond
      rw [hout hcond] at hlast
      cases hlast
    · intro hcond
      obtain ⟨last, hlast, hlastrep⟩ := hin hcond
      exact ⟨array, last, _, hal, hlast, hlastrep.size, eval_constantInt rfl⟩

/-- Three bytes with an index of two bits, the last one stored to. -/
theorem constant_alloc_three :
    let byte := fun v : BitVec 8 => constantInt ⟨8, v⟩
    ∃ array last size, createArray .full (.alloc 2) [constantInt ⟨2, 3⟩, byte 7] = some array ∧
      storeAll .full [((2 : BitVec 2), byte 9)] array = some last ∧ last.size? = some size ∧
      size.eval default = .int ⟨2, 3⟩ := by
  refine (constant_alloc_iff .full 2 (by decide) 3 _ rfl _ ?_ default).mpr ⟨by decide, .inr ?_⟩
  · simp [constantInt, OperationData.type]
  · simp

/-- The allocation of no bytes fails. -/
theorem alloc_zero_fails :
    createArray .full (.alloc 32) [constantInt ⟨32, 0⟩, constantInt ⟨8, 7⟩] = none ∧
      ilog2 0 = 2 ^ 64 - 1 := by
  decide

end Constant

end OperationSimplifier

end Caffeine
