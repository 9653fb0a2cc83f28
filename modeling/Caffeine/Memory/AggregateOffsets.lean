import Caffeine.Memory.Aggregates
import Caffeine.Memory.AllocationSound

/-!
# The layout of aggregates

The offsets at which `write` and `read` find a member and those that `getelementptr` computes, as
numbers: they differ by the padding of the structs on the way.
-/

namespace Caffeine

open Operation OperationSimplifier LittleEndian

variable {type t : LLVMType} {i : Nat} {path : List Nat}

namespace LLVMType

theorem induct {P : LLVMType → Prop} (int : ∀ bits, P (.int bits))
    (pointer : ∀ heap, P (.pointer heap))
    (array : ∀ count element, P element → P (.array count element))
    (vector : ∀ count element, P element → P (.vector count element))
    (struct : ∀ types, (∀ t ∈ types, P t) → P (.struct types))
    (packedStruct : ∀ types, (∀ t ∈ types, P t) → P (.packedStruct types))
    (float : ∀ exponent mantissa, P (.float exponent mantissa)) (type : LLVMType) : P type := by
  refine @LLVMType.rec P (fun types => ∀ t ∈ types, P t) int pointer array vector struct
    packedStruct float ?_ ?_ type
  · exact fun t ht => nomatch ht
  · intro head tail hhead htail t ht
    rcases List.mem_cons.mp ht with rfl | ht
    · exact hhead
    · exact htail t ht

def fields : LLVMType → List LLVMType
  | struct types => types
  | packedStruct types => types
  | _ => []

def isScalar : LLVMType → Bool
  | int _ => true
  | float _ _ => true
  | pointer _ => true
  | _ => false

def child : LLVMType → Nat → Option LLVMType
  | array count element, i => if i < count then some element else none
  | vector count element, i => if i < count then some element else none
  | type, i => type.fields[i]?

def follow : LLVMType → List Nat → Option LLVMType
  | type, [] => some type
  | type, i :: path => do follow (← type.child i) path

def WellFormed (type : LLVMType) : Prop :=
  ∀ path count element, type.follow path = some (vector count element) → element.isScalar = true

theorem WellFormed.child (h : type.WellFormed) (hch : type.child i = some t) : t.WellFormed := by
  intro path count element hpath
  refine h (i :: path) count element ?_
  rw [follow, hch]
  exact hpath

theorem follow_cons (h : type.follow (i :: path) = some t) :
    ∃ t', type.child i = some t' ∧ t'.follow path = some t := by
  rw [follow] at h
  exact Option.bind_eq_some_iff.mp h

theorem follow_scalar (htype : type.isScalar = true) (h : type.follow path = some t) :
    path = [] ∧ t = type := by
  cases path with
  | nil =>
    cases h
    exact ⟨rfl, rfl⟩
  | cons i path =>
    obtain ⟨t', ht', -⟩ := follow_cons h
    cases type <;> first | cases ht' | cases htype

end LLVMType

namespace TargetLayout

variable (layout : TargetLayout)

def scalarTy : LLVMType → Ty
  | .int bits => .int bits
  | .float exponent mantissa => .float exponent mantissa
  | _ => .int layout.pointerSizeInBits

def runningOffset (type : LLVMType) (i : Nat) : Nat :=
  ((type.fields.take i).map layout.getTypeAllocSize).sum

/-- The offset of member `i`, for given offsets of the members of structs. -/
def stepOffset (structOffset : LLVMType → Nat → Nat) (type : LLVMType) (i : Nat) : Nat :=
  match type with
  | .array _ element => i * layout.getTypeAllocSize element
  | .vector _ element => i * layout.getTypeAllocSize element
  | type => structOffset type i

def pathOffset (structOffset : LLVMType → Nat → Nat) : LLVMType → List Nat → Nat
  | _, [] => 0
  | type, i :: path => layout.stepOffset structOffset type i +
    ((type.child i).map (pathOffset structOffset · path)).getD 0

def memberOffset : LLVMType → List Nat → Nat := layout.pathOffset layout.runningOffset

def gepOffset : LLVMType → List Nat → Nat := layout.pathOffset layout.getElementOffset

/-- The members of a struct are laid out in their order, each behind the one before. -/
def Ordered : Prop :=
  ∀ type i t, type.fields[i]? = some t → i + 1 < type.fields.length →
    layout.getElementOffset type i + layout.getTypeAllocSize t ≤
      layout.getElementOffset type (i + 1)

/-- No member of a struct on the way has padding in front of it. -/
def Unpadded : LLVMType → List Nat → Prop
  | _, [] => True
  | type, i :: path =>
    (i < type.fields.length → layout.getElementOffset type i = layout.runningOffset type i) ∧
      ∀ t, type.child i = some t → Unpadded t path

variable {layout}

theorem runningOffset_succ (ht : type.fields[i]? = some t) : layout.runningOffset type (i + 1) =
      layout.runningOffset type i + layout.getTypeAllocSize t := by
  rw [runningOffset, List.take_add_one, ht, Option.toList_some, List.map_append, List.sum_append]
  simp [runningOffset]

theorem runningOffset_le (h : layout.Ordered) (hi : i < type.fields.length) :
    layout.runningOffset type i ≤ layout.getElementOffset type i := by
  induction i with
  | zero => exact Nat.zero_le _
  | succ i ih =>
    have hget : type.fields[i]? = some (type.fields[i]) := List.getElem?_eq_getElem _
    have hstep := h type i _ hget hi
    have hprev := ih (Nat.lt_of_succ_lt hi)
    rw [runningOffset_succ hget]
    omega

theorem pathOffset_cons {structOffset : LLVMType → Nat → Nat} (path : List Nat)
    (h : type.child i = some t) : layout.pathOffset structOffset type (i :: path) =
      layout.stepOffset structOffset type i + layout.pathOffset structOffset t path := by
  rw [pathOffset, h]
  rfl

theorem stepOffset_compare (h : layout.Ordered) (hch : type.child i = some t) :
    layout.stepOffset layout.runningOffset type i ≤
        layout.stepOffset layout.getElementOffset type i ∧
      (layout.stepOffset layout.runningOffset type i =
          layout.stepOffset layout.getElementOffset type i ↔
        (i < type.fields.length →
          layout.getElementOffset type i = layout.runningOffset type i)) := by
  have hfields : ∀ {types : List LLVMType}, types[i]? = some t → i < types.length :=
    fun hget => (List.getElem?_eq_some_iff.mp hget).1
  cases type with
  | array count element | vector count element => simp [stepOffset, LLVMType.fields]
  | struct types | packedStruct types =>
    have hi := hfields hch
    exact ⟨runningOffset_le h hi, fun heq _ => heq.symm, fun heq => (heq hi).symm⟩
  | int bits | pointer heap | float exponent mantissa => cases hch

theorem memberOffset_compare (h : layout.Ordered) (hpath : type.follow path = some t) :
    layout.memberOffset type path ≤ layout.gepOffset type path ∧
      (layout.memberOffset type path = layout.gepOffset type path ↔ layout.Unpadded type path) := by
  rw [memberOffset, gepOffset]
  induction path generalizing type with
  | nil => simp [pathOffset, Unpadded]
  | cons i path ih =>
    obtain ⟨t', hch, hrest⟩ := LLVMType.follow_cons hpath
    obtain ⟨hle, heq⟩ := stepOffset_compare h hch
    obtain ⟨hle', heq'⟩ := ih hrest
    rw [pathOffset_cons path hch, pathOffset_cons path hch, Unpadded, ← heq, hch]
    refine ⟨Nat.add_le_add hle hle', ?_⟩
    have hall : (∀ t, some t' = some t → layout.Unpadded t path) ↔ layout.Unpadded t' path :=
      ⟨fun hall => hall t' rfl, fun hu t ht => Option.some.inj ht ▸ hu⟩
    rw [hall, ← heq']
    omega

end TargetLayout

/-! ### The pointer to a member -/

namespace ExprEvaluator

variable {σ : Assignment} {cache : OperationCache} {layout : TargetLayout}

theorem createTruncOrSExt_same {w : Nat} {o : Operation} (h : o.type = .int w) :
    createTruncOrSExt cache (.int w) o = some o := by
  simp [createTruncOrSExt, h, Ty.isInt]

theorem scaledIndex_returns (cache : OperationCache) (w i size : Nat) :
    Returns σ (do
      let index ← createTruncOrSExt cache (.int w) (constantInt (APInt.ofNat w i))
      createBinaryLiteral cache .mul index size) (BitVec.ofNat w (i * size)) := by
  rw [createTruncOrSExt_same rfl, some_bind, BitVec.ofNat_mul]
  exact createBinaryLiteral_returns size (denotes_constantInt _) rfl trivial

theorem indexedOffset_returns (cache : OperationCache) (layout : TargetLayout) (w : Nat)
    (h : type.child i = some t) : ∃ o, indexedOffset cache layout w type i = some (o, t) ∧
      Denotes σ o (BitVec.ofNat w (layout.stepOffset layout.getElementOffset type i)) := by
  have hscaled : ∀ {count : Nat} {element : LLVMType}, (if i < count then some element else none) =
      some t → ∃ index o, createTruncOrSExt cache (.int w) (constantInt (APInt.ofNat w i)) =
        some index ∧ createBinaryLiteral cache .mul index (layout.getTypeAllocSize element) =
        some o ∧ element = t ∧
        Denotes σ o (BitVec.ofNat w (i * layout.getTypeAllocSize element)) := by
    intro count element hif
    split_ifs at hif
    cases hif
    obtain ⟨o, ho, hd⟩ := scaledIndex_returns (σ := σ) cache w i (layout.getTypeAllocSize t)
    rw [createTruncOrSExt_same rfl, some_bind] at ho
    exact ⟨_, o, createTruncOrSExt_same rfl, ho, rfl, hd⟩
  cases type with
  | array count element | vector count element =>
    obtain ⟨index, o, hidx, ho, rfl, hd⟩ := hscaled h
    exact ⟨o, by simp only [indexedOffset, hidx, ho, some_bind], hd⟩
  | struct types | packedStruct types =>
    have hget : types[i]? = some t := h
    refine ⟨_, ?_, denotes_constantInt _⟩
    simp only [indexedOffset, hget, some_bind]
    rfl
  | int bits | pointer heap | float exponent mantissa => cases h

theorem sumOffsets_returns (cache : OperationCache) (layout : TargetLayout) {w : Nat}
    (hpath : type.follow path = some t) {offsets : Operation} {y : BitVec w}
    (hoffsets : Denotes σ offsets y) : Returns σ (sumOffsets cache layout w type offsets path)
      (y + BitVec.ofNat w (layout.gepOffset type path)) := by
  rw [TargetLayout.gepOffset]
  induction path generalizing type offsets y with
  | nil =>
    rw [sumOffsets, TargetLayout.pathOffset, BitVec.add_zero]
    exact hoffsets.returns
  | cons i path ih =>
    obtain ⟨t', hch, hrest⟩ := LLVMType.follow_cons hpath
    obtain ⟨o, ho, hd⟩ := indexedOffset_returns (σ := σ) cache layout w hch
    obtain ⟨sum, hsum, hsumd⟩ : Returns σ (createBinary cache .add offsets o) _ :=
      createBinary_returns hoffsets hd rfl rfl
    rw [sumOffsets, ho, some_bind, hsum, some_bind, TargetLayout.pathOffset_cons path hch,
      BitVec.ofNat_add, ← BitVec.add_assoc]
    exact ih hrest hsumd

theorem visitGetElementPtr_returns (cache : OperationCache) (hpath : type.follow path = some t)
    {ptr : Pointer} {x : BitVec layout.pointerSizeInBits} (hptr : Denotes σ ptr.offset x) :
    ∃ offset, visitGetElementPtr cache layout ptr type path = some { ptr with offset := offset } ∧
      Denotes σ offset (x + BitVec.ofNat _ (layout.gepOffset type path)) := by
  obtain ⟨first, hfst, hfirstd⟩ := scaledIndex_returns (σ := σ) cache layout.pointerSizeInBits 0
    (layout.getTypeAllocSize type)
  rw [createTruncOrSExt_same rfl, some_bind] at hfst
  obtain ⟨start, hstart, hstartd⟩ : Returns σ (createBinary cache .add
      (constantInt (APInt.ofNat layout.pointerSizeInBits 0)) first) _ :=
    createBinary_returns (denotes_constantInt _) hfirstd rfl rfl
  have hzero : BitVec.ofNat layout.pointerSizeInBits 0 +
      BitVec.ofNat layout.pointerSizeInBits (0 * layout.getTypeAllocSize type) =
      BitVec.ofNat layout.pointerSizeInBits 0 := by simp
  rw [hzero] at hstartd
  obtain ⟨offsets, hoffsets, hd⟩ := sumOffsets_returns cache layout hpath hstartd
  rw [BitVec.zero_add] at hd
  obtain ⟨offset, hoff, hod⟩ : Returns σ (createBinary cache .add ptr.offset offsets) _ :=
    createBinary_returns hptr hd rfl rfl
  have hidx : createTruncOrSExt cache (.int layout.pointerSizeInBits)
      (constantInt (APInt.ofNat layout.pointerSizeInBits 0)) = some _ := createTruncOrSExt_same rfl
  refine ⟨offset, ?_, hod⟩
  simp only [visitGetElementPtr, hidx, hfst, hstart, hoffsets, hoff, some_bind]

end ExprEvaluator

end Caffeine
