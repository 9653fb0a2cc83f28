import Caffeine.Memory.MemHeapSound

/-!
# Valid pointers and the allocations they point into

`check_valid` tests an access against the bounds of allocations in the arithmetic of the pointer
width, and `resolve` asks the solver which allocations contain an address. Both are compared here
with containment in integers.
-/

namespace Caffeine

open Operation Assertion OperationSimplifier List Option BitVec

variable {σ : Assignment} {n : Nat} {cache : OperationCache}

/-- The live allocations a pointer may point into: its own, or any for an absolute address. -/
def MemHeap.candidates (heap : MemHeap) (ptr : Pointer) : List (AllocId × Allocation) :=
  match ptr.alloc with
  | none => heap.allocs.pairs
  | some id => (heap.allocs.lookup id).toList.map (id, ·)

/-- What `resolve` may return: the pointer, or the same address relative to an allocation. -/
inductive ResolvesTo (cache : OperationCache) (heap : MemHeap) (ptr : Pointer) :
    Pointer → Allocation → Prop
  | same {id : AllocId} {alloc : Allocation} (hid : ptr.alloc = some id)
    (hl : heap.allocs.lookup id = some alloc) : ResolvesTo cache heap ptr ptr alloc
  | relative {id : AllocId} {alloc : Allocation} {offset : Operation} (hid : ptr.alloc = none)
    (hl : heap.allocs.lookup id = some alloc)
    (ho : createBinary cache .sub ptr.offset alloc.address = some offset) :
    ResolvesTo cache heap ptr ⟨some id, offset, ptr.heap⟩ alloc

namespace Pointer

def Address (cache : OperationCache) (heap : MemHeap) (σ : Assignment) (ptr : Pointer)
    (p : BitVec n) : Prop :=
  ∃ value, ptr.value cache heap = some value ∧ Denotes σ value p

/-- The address for an offset, relative to the start of an allocation if the pointer is resolved. -/
def position (ptr : Pointer) (start offset : BitVec n) : BitVec n :=
  if ptr.isResolved then start + offset else offset

end Pointer

namespace Allocation

def Contains (σ : Assignment) (alloc : Allocation) (p width : BitVec n) : Prop :=
  ∃ a s : BitVec n, alloc.At σ a s ∧ a.toNat ≤ p.toNat ∧
    p.toNat + width.toNat ≤ a.toNat + s.toNat

/-- The allocation is too small, and `size - width` wraps around to a bound that admits the
pointer. -/
def Overruns (σ : Assignment) (alloc : Allocation) (ptr : Pointer) (offset width : BitVec n) :
    Prop :=
  ∃ a s : BitVec n, alloc.At σ a s ∧ s.toNat < width.toNat ∧
    if ptr.isResolved then offset.toNat + width.toNat ≤ s.toNat + 2 ^ n
    else a.toNat ≤ offset.toNat ∧ a.toNat + s.toNat < width.toNat ∧
      offset.toNat + width.toNat ≤ a.toNat + s.toNat + 2 ^ n

def Accepts (ptr : Pointer) (a s offset width : BitVec n) : Prop :=
  if ptr.isResolved then offset ≤ s - width else a ≤ offset ∧ offset ≤ a + (s - width)

end Allocation

section Bounds

variable {a s o w : BitVec n}

theorem toNat_sub_of_lt (h : s.toNat < w.toNat) : (s - w).toNat = s.toNat + 2 ^ n - w.toNat := by
  rw [toNat_sub, Nat.mod_eq_of_lt] <;> omega

theorem resolved_contains_iff (hwrap : a.toNat + s.toNat < 2 ^ n) (hroom : w.toNat ≤ s.toNat) :
    (a.toNat ≤ (a + o).toNat ∧ (a + o).toNat + w.toNat ≤ a.toNat + s.toNat) ↔ o ≤ s - w := by
  have ho := o.isLt
  rw [le_def, toNat_sub_of_le hroom, toNat_add]
  by_cases hsum : a.toNat + o.toNat < 2 ^ n
  · rw [Nat.mod_eq_of_lt hsum]
    omega
  · rw [Nat.mod_eq_sub_mod (by omega), Nat.mod_eq_of_lt (by omega)]
    omega

theorem absolute_contains_iff (hwrap : a.toNat + s.toNat < 2 ^ n) (hroom : w.toNat ≤ s.toNat) :
    (a.toNat ≤ o.toNat ∧ o.toNat + w.toNat ≤ a.toNat + s.toNat) ↔
      a ≤ o ∧ o ≤ a + (s - w) := by
  have hdiff : (s - w).toNat = s.toNat - w.toNat := toNat_sub_of_le hroom
  rw [le_def, le_def, toNat_add_of_lt (by omega), hdiff]
  omega

/-- With too few bytes, an absolute address passes the test only if the bound wraps around to one
above the start. -/
theorem absolute_overruns_iff (hroom : s.toNat < w.toNat) :
    (a ≤ o ∧ o ≤ a + (s - w)) ↔ a.toNat ≤ o.toNat ∧ a.toNat + s.toNat < w.toNat ∧
      o.toNat + w.toNat ≤ a.toNat + s.toNat + 2 ^ n := by
  have ho := o.isLt
  have hw := w.isLt
  rw [le_def, le_def, toNat_add, toNat_sub_of_lt hroom]
  by_cases hsum : a.toNat + s.toNat < w.toNat
  · rw [Nat.mod_eq_of_lt (by omega)]
    omega
  · rw [Nat.mod_eq_sub_mod (by omega), Nat.mod_eq_of_lt (by omega)]
    omega

end Bounds

namespace MemHeap

variable {heap : MemHeap} {ptr : Pointer} {width : Operation} {entry : AllocId × Allocation}
  {a s o p w : BitVec n}

theorem mem_pairs_of_candidates (h : entry ∈ heap.candidates ptr) : entry ∈ heap.allocs.pairs := by
  unfold candidates at h
  split at h
  · exact h
  · obtain ⟨alloc, hal, rfl⟩ := List.mem_map.mp h
    exact Map.mem_pairs.mpr (mem_toList.mp hal)

theorem nodup_candidates (heap : MemHeap) : (heap.candidates ptr).Nodup := by
  unfold candidates
  split
  · exact heap.allocs.nodup_pairs
  · cases heap.allocs.lookup _ <;> simp

theorem address_iff (hidx : heap.index = ptr.heap) (hent : entry ∈ heap.candidates ptr)
    (hat : entry.2.At σ a s) (ho : Denotes σ ptr.offset o) :
    ptr.Address cache heap σ p ↔ p = ptr.position a o := by
  have hadr : ptr.Address cache heap σ (ptr.position a o) := by
    unfold candidates at hent
    split at hent
    · rename_i hptr
      simp only [Pointer.Address, Pointer.position, Pointer.isResolved, Pointer.value, hptr]
      exact ⟨_, rfl, ho⟩
    · rename_i id hptr
      obtain ⟨alloc, hal, rfl⟩ := List.mem_map.mp hent
      have hlook : heap.allocs.lookup id = some alloc := mem_toList.mp hal
      obtain ⟨value, hval, hdenotes⟩ :
          Returns σ (createBinary cache .add alloc.address ptr.offset) (a + o) :=
        createAdd_returns hat.address ho
      refine ⟨value, ?_, ?_⟩
      · simp [Pointer.value, hptr, hidx, hlook, hval]
      · simpa only [Pointer.position, Pointer.isResolved, hptr, isSome_some, if_true]
          using hdenotes
  constructor
  · rintro ⟨value, hval, hp⟩
    obtain ⟨value', hval', hp'⟩ := hadr
    obtain rfl := some.inj (hval.symm.trans hval')
    exact hp.unique hp'
  · rintro rfl
    exact hadr

theorem checkValid_asserts (hty : heap.Typed n) (hsep : heap.Separated n σ)
    (ho : Denotes σ ptr.offset o) (hw : Denotes σ width w) :
    Asserts σ (heap.checkValid cache ptr width) (∃ entry ∈ heap.candidates ptr,
      ∃ a s : BitVec n, entry.2.At σ a s ∧ Allocation.Accepts ptr a s o w) := by
  cases hptr : ptr.alloc with
  | none =>
    refine (checkValid_unresolved hty hptr ho hw).congr ?_
    simp only [candidates, hptr, Allocation.Accepts, Pointer.isResolved, isSome_none,
      Bool.false_eq_true, if_false]
    refine ⟨And.right, fun h => ⟨?_, h⟩⟩
    -- The null address lies below every allocation.
    rintro rfl
    obtain ⟨e, he, a, s, hat, hle, -⟩ := h
    exact (hsep.placed e he a s hat).1 (BitVec.le_zero_iff.mp hle)
  | some id =>
    cases hlook : heap.allocs.lookup id with
    | none =>
      refine ⟨.constant false, ?_, false, denotes_constantInt _, ?_⟩
      · simp only [checkValid, hptr, hlook]
      · simp [candidates, hptr, hlook]
    | some alloc =>
      obtain ⟨a, s, hat⟩ := hty.at σ (Map.mem_pairs.mpr hlook)
      refine (checkValid_resolved hptr hlook hat ho hw).congr ?_
      simp only [candidates, hptr, hlook, toList_some, map_cons, map_nil,
        mem_singleton, exists_eq_left, hat.exists_iff, Allocation.Accepts,
        Pointer.isResolved, isSome_some, if_true]

theorem accepts_iff (cache : OperationCache) (hidx : heap.index = ptr.heap) (hty : heap.Typed n)
    (hsep : heap.Separated n σ) (hent : entry ∈ heap.candidates ptr) (ho : Denotes σ ptr.offset o) :
    (∃ a s : BitVec n, entry.2.At σ a s ∧ Allocation.Accepts ptr a s o w) ↔
      (∃ p : BitVec n, ptr.Address cache heap σ p ∧ entry.2.Contains σ p w) ∨
        entry.2.Overruns σ ptr o w := by
  have hmem := mem_pairs_of_candidates hent
  obtain ⟨a, s, hat⟩ := hty.at σ hmem
  have hwrap := (hsep.placed entry hmem a s hat).2
  simp only [address_iff hidx hent hat ho, exists_eq_left, Allocation.Contains,
    Allocation.Overruns, hat.exists_iff, Allocation.Accepts, Pointer.position]
  have hw := w.isLt
  by_cases hroom : w.toNat ≤ s.toNat
  · rw [or_iff_left (fun h => absurd h.1 (by omega))]
    split
    · exact (resolved_contains_iff hwrap hroom).symm
    · exact (absolute_contains_iff hwrap hroom).symm
  · have hlt := Nat.lt_of_not_le hroom
    rw [or_iff_right (fun h => hroom (by omega)), and_iff_right hlt]
    split
    · rw [le_def, toNat_sub_of_lt hlt]
      omega
    · exact absolute_overruns_iff hlt

/-- `check_valid` admits only contained accesses unless the bound of a too small allocation wraps
around. -/
theorem checkValid_contained_iff (cache : OperationCache) (heap : MemHeap) (ptr : Pointer)
    (width : Operation) (σ : Assignment) (o w : BitVec n) (hindex : heap.index = ptr.heap)
    (htyped : heap.Typed n) (hsep : heap.Separated n σ) (ho : Denotes σ ptr.offset o)
    (hw : Denotes σ width w) :
    ∃ valid, heap.checkValid cache ptr width = some valid ∧
      ((valid.Holds σ → ∃ entry ∈ heap.candidates ptr, ∃ p : BitVec n,
          ptr.Address cache heap σ p ∧ entry.2.Contains σ p w) ↔
        (∀ entry ∈ heap.candidates ptr, ¬ entry.2.Overruns σ ptr o w) ∨
          ∃ entry ∈ heap.candidates ptr, ∃ p : BitVec n,
            ptr.Address cache heap σ p ∧ entry.2.Contains σ p w) := by
  obtain ⟨valid, hvalid, hdec⟩ : Asserts σ (heap.checkValid cache ptr width) _ :=
    checkValid_asserts htyped hsep ho hw
  refine ⟨valid, hvalid, ?_⟩
  rw [hdec.holds_iff]
  constructor
  · intro h
    refine or_iff_not_imp_right.mpr fun hnot entry hent hover => hnot (h ⟨entry, hent, ?_⟩)
    exact (accepts_iff cache hindex htyped hsep hent ho).mpr (.inr hover)
  · rintro h ⟨entry, hent, haccs⟩
    obtain hcontains | hover := (accepts_iff cache hindex htyped hsep hent ho).mp haccs
    · exact ⟨entry, hent, hcontains⟩
    · exact h.resolve_left fun hnone => hnone entry hent hover

namespace Sample

def block (size : Nat) : Allocation where
  address := .constantInt (APInt.ofNat 64 16)
  size := .constantInt (APInt.ofNat 64 size)
  data := .mk (.fixedArray 64) (List.replicate size (.constantInt (APInt.ofNat 8 0)))
  kind := .malloc
  permissions := ⟨true, true, false⟩
  typed := ⟨64, rfl, rfl⟩

def single (size : Nat) : MemHeap := ⟨0, AList.singleton (0, 0) (block size)⟩

def start : Pointer := ⟨some (0, 0), .constantInt (APInt.ofNat 64 0), 0⟩

theorem block_at (σ : Assignment) (size : Nat) : (block size).At σ (16#64) (BitVec.ofNat 64 size) :=
  ⟨denotes_constantInt _, denotes_constantInt _⟩

theorem mem_single {size : Nat} (h : entry ∈ (single size).allocs.pairs) :
    entry = ((0, 0), block size) :=
  mem_singleton.mp h

theorem isInt_constant (v : Nat) : (Operation.constantInt (APInt.ofNat 64 v)).IsInt 64 :=
  ⟨wellTyped_mk.mpr ⟨rfl, rfl, by simp⟩, rfl⟩

theorem single_typed (size : Nat) : (single size).Typed 64 := by
  refine ⟨fun e he => ?_, fun e he => ?_⟩
  · obtain rfl := mem_single he
    exact isInt_constant 16
  · obtain rfl := mem_single he
    exact isInt_constant size

theorem single_separated (σ : Assignment) {size : Nat} (hsize : size < 2 ^ 63) :
    (single size).Separated 64 σ := by
  refine ⟨fun e he a s hat => ?_, pairwise_singleton _ _⟩
  obtain rfl := mem_single he
  obtain ⟨rfl, rfl⟩ := hat.unique (block_at σ size)
  refine ⟨by decide, ?_⟩
  rw [toNat_ofNat, toNat_ofNat, Nat.mod_eq_of_lt (by omega), Nat.mod_eq_of_lt (by omega)]
  omega

end Sample

open Sample in
theorem checkValid_contained_four_bytes :
    (single 4).checkValid .full start (.constantInt (APInt.ofNat 64 4)) = some (.constant true) ∧
      ∃ entry ∈ (single 4).candidates start, ∃ p : BitVec 64,
        start.Address .full (single 4) default p ∧ entry.2.Contains default p (4#64) := by
  have hrun : (single 4).checkValid .full start (.constantInt (APInt.ofNat 64 4)) =
      some (.constant true) := by decide +kernel
  obtain ⟨valid, hvalid, hiff⟩ := checkValid_contained_iff .full (single 4) start
    (.constantInt (APInt.ofNat 64 4)) default (0#64) (4#64) rfl (single_typed 4)
    (single_separated default (by decide)) (denotes_constantInt _) (denotes_constantInt _)
  obtain rfl := some.inj (hvalid.symm.trans hrun)
  refine ⟨hrun, hiff.mpr (.inl fun entry hent hover => ?_) ((holds_constant _ true).mpr rfl)⟩
  obtain rfl := mem_single (mem_pairs_of_candidates hent)
  obtain ⟨a, s, hat, hlt, -⟩ := hover
  obtain ⟨rfl, rfl⟩ := hat.unique (block_at default 4)
  exact absurd hlt (by decide)

open Sample in
/-- Four bytes at the start of a block of one byte are valid. -/
theorem checkValid_overruns_one_byte :
    (single 1).checkValid .full start (.constantInt (APInt.ofNat 64 4)) = some (.constant true) ∧
      ∀ σ, (single 1).Separated 64 σ ∧
        ¬ ∃ entry ∈ (single 1).candidates start, ∃ p : BitVec 64,
          start.Address .full (single 1) σ p ∧ entry.2.Contains σ p (4#64) := by
  refine ⟨by decide +kernel, fun σ => ⟨single_separated σ (by decide), ?_⟩⟩
  rintro ⟨entry, hent, p, -, a, s, hat, hle, hend⟩
  obtain rfl := mem_single (mem_pairs_of_candidates hent)
  obtain ⟨rfl, rfl⟩ := hat.unique (block_at σ 1)
  simp only [toNat_ofNat] at hle hend
  omega

/-! ### Resolution -/

end MemHeap

namespace Allocation

def Inside (σ : Assignment) (alloc : Allocation) (p : BitVec n) : Prop :=
  ∃ a s : BitVec n, alloc.At σ a s ∧ a.toNat ≤ p.toNat ∧ p.toNat < a.toNat + s.toNat

def AtStart (σ : Assignment) (alloc : Allocation) (p : BitVec n) : Prop :=
  Denotes σ alloc.address p

def AtEnd (σ : Assignment) (alloc : Allocation) (p : BitVec n) : Prop :=
  ∃ a s : BitVec n, alloc.At σ a s ∧ p.toNat = a.toNat + s.toNat

/-- The assertion for which `resolve` queries the solver. -/
def inside (cache : OperationCache) (ptr : Pointer) (alloc : Allocation) : Option Assertion :=
  if ptr.isResolved then alloc.checkInbounds cache ptr.offset (ptr.offset.literal 0)
  else alloc.contains cache ptr.offset

theorem At.inside_or_atEnd {alloc : Allocation} {a s p : BitVec n} (hat : alloc.At σ a s)
    (h : alloc.AtStart σ p) : alloc.Inside σ p ∨ alloc.AtEnd σ p := by
  obtain rfl := hat.address.unique h
  obtain hzero | hpos := Nat.eq_zero_or_pos s.toNat
  · exact .inr ⟨a, s, hat, by omega⟩
  · exact .inl ⟨a, s, hat, Nat.le_refl _, by omega⟩

end Allocation

namespace MemHeap

variable {heap : MemHeap} {ptr : Pointer} {width : Operation} {entry : AllocId × Allocation}
  {a s o p w : BitVec n} {solver : Solver} {pathCondition : List Assertion}

/-- The pointer is at the address of `ptr`, in an allocation with a byte there or, for width zero,
one that starts or ends there. -/
def Covers (n : Nat) (cache : OperationCache) (heap : MemHeap) (ptr : Pointer) (width : Operation)
    (σ : Assignment) (q : Pointer) : Prop :=
  ∃ id alloc, ∃ p : BitVec n, q.alloc = some id ∧ heap.allocs.lookup id = some alloc ∧
    ptr.Address cache heap σ p ∧ q.Address cache heap σ p ∧
    (alloc.Inside σ p ∨ Denotes σ width (0#n) ∧ (alloc.AtStart σ p ∨ alloc.AtEnd σ p))

def kept (cache : OperationCache) (solver : Solver) (pathCondition : List Assertion) (ptr : Pointer)
    (query : (AllocId × Allocation) × Nat) : Bool :=
  (query.1.2.inside cache ptr).any (solver.check query.2 pathCondition · ≠ .UNSAT)

theorem inside_asserts (hidx : heap.index = ptr.heap) (hty : heap.Typed n)
    (hsep : heap.Separated n σ) (hent : entry ∈ heap.candidates ptr) (ho : Denotes σ ptr.offset o) :
    Asserts σ (entry.2.inside cache ptr)
      (∃ p : BitVec n, ptr.Address cache heap σ p ∧ entry.2.Inside σ p) := by
  have hmem := mem_pairs_of_candidates hent
  obtain ⟨a, s, hat⟩ := hty.at σ hmem
  have hwrap := (hsep.placed entry hmem a s hat).2
  have hbd := o.isLt
  simp only [address_iff hidx hent hat ho, exists_eq_left, Allocation.Inside, hat.exists_iff,
    Allocation.inside, Pointer.position]
  split
  · refine (hat.checkInbounds_asserts ho (denotes_literal ho 0)).congr ?_
    rw [BitVec.add_zero, le_def, lt_def, toNat_add]
    by_cases hsum : a.toNat + o.toNat < 2 ^ n
    · rw [Nat.mod_eq_of_lt hsum]
      omega
    · rw [Nat.mod_eq_sub_mod (by omega), Nat.mod_eq_of_lt (by omega)]
      omega
  · refine (hat.contains_asserts ho).congr ?_
    rw [le_def, lt_def, toNat_add_of_lt hwrap]

theorem inside_returns (cache : OperationCache) (hty : heap.Typed n) (hoff : ptr.offset.IsInt n)
    (hent : entry ∈ heap.allocs.pairs) : ∃ c, entry.2.inside cache ptr = some c := by
  obtain ⟨a, s, hat⟩ := hty.at default hent
  obtain ⟨o, ho⟩ := hoff.denotes default
  unfold Allocation.inside
  split
  · exact (hat.checkInbounds_asserts ho (denotes_literal ho 0)).imp fun _ => And.left
  · exact (hat.contains_asserts ho).imp fun _ => And.left

theorem resolve_eq (cache : OperationCache) (solver : Solver) (pathCondition : List Assertion)
    (k : Nat) (hidx : heap.index = ptr.heap) (hty : heap.Typed n) (hoff : ptr.offset.IsInt n) :
    ∃ results next, heap.resolve cache solver pathCondition k ptr = some (results, next) ∧
      Forall₂ (fun query q => q.alloc = some query.1.1 ∧ q.heap = ptr.heap ∧
          ResolvesTo cache heap ptr q query.1.2)
        (((heap.candidates ptr).zipIdx k).filter (kept cache solver pathCondition ptr))
        results := by
  cases hptr : ptr.alloc with
  | none =>
    obtain ⟨results, hin, hall⟩ := resolveIn_eq cache solver pathCondition ptr hoff
      heap.allocs.pairs hty.address hty.size k
    have hkept : kept cache solver pathCondition ptr =
        possible cache solver pathCondition ptr.offset := by
      funext query
      simp [kept, possible, Allocation.inside, Pointer.isResolved, hptr]
    refine ⟨results, k + heap.allocs.pairs.length, ?_, ?_⟩
    · simp only [resolve, Pointer.value, hptr, hin, some_bind]
    simp only [candidates, hptr, hkept]
    refine ((forall₂_and_left _ _).mpr ⟨fun query hq =>
      fst_mem_of_mem_zipIdx (mem_filter.mp hq).1, hall⟩).imp ?_
    rintro ⟨⟨id, alloc⟩, number⟩ ⟨_, offset, _⟩ ⟨hmem, rfl, rfl, hsub⟩
    exact ⟨rfl, rfl, .relative hptr (Map.mem_pairs.mp hmem) hsub⟩
  | some id =>
    cases hlook : heap.allocs.lookup id with
    | none =>
      refine ⟨[], k, ?_, ?_⟩
      · simp [resolve, hptr, hlook, hidx]
      · simp [candidates, hptr, hlook]
    | some alloc =>
      obtain ⟨c, hc, hrsv⟩ := resolve_live cache solver pathCondition hty hoff hidx
        hptr hlook k
      refine ⟨_, _, hrsv, ?_⟩
      simp only [candidates, hptr, hlook, toList_some, map_cons, map_nil,
        zipIdx_singleton, filter_singleton, kept, Allocation.inside, Pointer.isResolved,
        isSome_some, if_true, hc, any_some]
      by_cases hunsat : solver.check k pathCondition c = .UNSAT
      · simp [hunsat]
      · simpa [hunsat, hptr] using .same hptr hlook

theorem ResolvesTo.address {q : Pointer} {alloc : Allocation}
    (h : ResolvesTo cache heap ptr q alloc) (hidx : heap.index = ptr.heap) (hty : heap.Typed n)
    (hp : ptr.Address cache heap σ p) : q.Address cache heap σ p := by
  cases h with
  | same => exact hp
  | @relative id alloc offset hptr hlook hsub =>
    obtain ⟨value, hval, hp⟩ := hp
    simp only [Pointer.value, hptr, some.injEq] at hval
    subst hval
    obtain ⟨a, s, hat⟩ := hty.at σ (Map.mem_pairs.mpr hlook)
    obtain ⟨sum, hsum, hdenotes⟩ : Returns σ (createBinary cache .add alloc.address offset) _ :=
      createAdd_returns hat.address ((createSub_returns hp hat.address).denotes hsub)
    refine ⟨sum, ?_, ?_⟩
    · simp [Pointer.value, hidx, hlook, hsum]
    · simpa [BitVec.add_comm a, BitVec.sub_add_cancel] using hdenotes

theorem checkValid_returns (cache : OperationCache) (hty : heap.Typed n) (hoff : ptr.offset.IsInt n)
    (hwid : width.IsInt n) : ∃ valid, heap.checkValid cache ptr width = some valid := by
  obtain ⟨o, ho⟩ := hoff.denotes default
  obtain ⟨w, hw⟩ := hwid.denotes default
  cases hptr : ptr.alloc with
  | none =>
    obtain ⟨valid, hvalid, -⟩ : Asserts default (heap.checkValid cache ptr width) _ :=
      checkValid_unresolved hty hptr ho hw
    exact ⟨valid, hvalid⟩
  | some id =>
    cases hlook : heap.allocs.lookup id with
    | none => exact ⟨.constant false, by simp only [checkValid, hptr, hlook]⟩
    | some alloc =>
      obtain ⟨a, s, hat⟩ := hty.at default (Map.mem_pairs.mpr hlook)
      obtain ⟨valid, hvalid, -⟩ : Asserts default (heap.checkValid cache ptr width) _ :=
        checkValid_resolved hptr hlook hat ho hw
      exact ⟨valid, hvalid⟩

theorem kept_of_inside {query : (AllocId × Allocation) × Nat} (hsolver : solver.UnsatSound)
    (hidx : heap.index = ptr.heap) (hty : heap.Typed n) (hoff : ptr.offset.IsInt n)
    (hsep : heap.Separated n σ) (hσ : Models σ pathCondition) (hent : query.1 ∈ heap.candidates ptr)
    (hp : ptr.Address cache heap σ p) (hinside : query.1.2.Inside σ p) :
    kept cache solver pathCondition ptr query := by
  obtain ⟨o, ho⟩ := hoff.denotes σ
  obtain ⟨c, hc, hdec⟩ : Asserts σ (query.1.2.inside cache ptr) _ :=
    inside_asserts hidx hty hsep hent ho
  simp only [kept, hc, any_some, decide_eq_true_eq]
  intro hunsat
  exact hsolver _ _ _ hunsat σ hσ (hdec.holds_iff.mpr ⟨p, hp, hinside⟩)

theorem kept_iff {query : (AllocId × Allocation) × Nat} (hexact : solver.Exact)
    (hidx : heap.index = ptr.heap) (hty : heap.Typed n) (hoff : ptr.offset.IsInt n)
    (hsep : ∀ σ, Models σ pathCondition → heap.Separated n σ)
    (hent : query.1 ∈ heap.candidates ptr) : kept cache solver pathCondition ptr query ↔
      ∃ σ, Models σ pathCondition ∧ ∃ p : BitVec n, ptr.Address cache heap σ p ∧
        query.1.2.Inside σ p := by
  obtain ⟨c, hc⟩ := inside_returns cache hty hoff (mem_pairs_of_candidates hent)
  simp only [kept, hc, any_some, decide_eq_true_eq]
  refine hexact.check_ne_unsat.trans (exists_congr fun σ => and_congr_right fun hσ => ?_)
  obtain ⟨o, ho⟩ := hoff.denotes σ
  exact (inside_asserts hidx hty (hsep σ hσ) hent ho).holds_iff hc

/-- The pointers `resolve` returns cover a model if the pointer lies inside an allocation. At the
end of one they do only if the solver leaves the query open; an exact solver does if the pointer
lies inside it in some model. -/
theorem resolve_covers_iff (cache : OperationCache) (heap : MemHeap) (solver : Solver)
    (pathCondition : List Assertion) (k : Nat) (ptr : Pointer) (width : Operation)
    (hindex : heap.index = ptr.heap) (htyped : heap.Typed n) (hoffset : ptr.offset.IsInt n)
    (hwidth : width.IsInt n) (hsolver : solver.UnsatSound)
    (hsep : ∀ σ, Models σ pathCondition → heap.Separated n σ) :
    ∃ valid results next, heap.checkValid cache ptr width = some valid ∧
      heap.resolve cache solver pathCondition k ptr = some (results, next) ∧
      ((∀ σ, Models σ pathCondition → valid.Holds σ) →
        ((∀ σ, Models σ pathCondition → ∃ q ∈ results, heap.Covers n cache ptr width σ q) ↔
          ∀ σ, Models σ pathCondition → ∃ query ∈ (heap.candidates ptr).zipIdx k, ∃ p : BitVec n,
            ptr.Address cache heap σ p ∧ (query.1.2.Inside σ p ∨
              Denotes σ width (0#n) ∧ query.1.2.AtEnd σ p ∧
                kept cache solver pathCondition ptr query))) ∧
      (solver.Exact → ∀ query ∈ (heap.candidates ptr).zipIdx k,
        (kept cache solver pathCondition ptr query ↔ ∃ σ, Models σ pathCondition ∧
          ∃ p : BitVec n, ptr.Address cache heap σ p ∧ query.1.2.Inside σ p)) := by
  obtain ⟨valid, hvalid⟩ := checkValid_returns cache htyped hoffset hwidth
  obtain ⟨results, next, hrsv, hall⟩ :=
    resolve_eq cache solver pathCondition k hindex htyped hoffset
  refine ⟨valid, results, next, hvalid, hrsv, fun _ => forall₂_congr fun σ hσ => ?_,
    fun hexact query hqry =>
      kept_iff hexact hindex htyped hoffset hsep (fst_mem_of_mem_zipIdx hqry)⟩
  constructor
  · rintro ⟨q, hq, id, alloc, p, hid, hlook, hp, -, hcov⟩
    obtain ⟨query, hqry, hal, -⟩ := forall₂_exists_left hall hq
    obtain ⟨hmem, hkept⟩ := mem_filter.mp hqry
    have hpair := mem_pairs_of_candidates (fst_mem_of_mem_zipIdx hmem)
    obtain rfl := some.inj (hal.symm.trans hid)
    obtain rfl := some.inj ((Map.mem_pairs.mp hpair).symm.trans hlook)
    obtain ⟨a, s, hat⟩ := htyped.at σ hpair
    refine ⟨query, hmem, p, hp, ?_⟩
    obtain hinside | ⟨hzero, hstart | hend⟩ := hcov
    · exact .inl hinside
    · exact (hat.inside_or_atEnd hstart).imp_right fun hend => ⟨hzero, hend, hkept⟩
    · exact .inr ⟨hzero, hend, hkept⟩
  · rintro ⟨query, hmem, p, hp, hcase⟩
    have hent := fst_mem_of_mem_zipIdx hmem
    have hkept : kept cache solver pathCondition ptr query := by
      obtain hinside | ⟨-, -, hkept⟩ := hcase
      · exact kept_of_inside hsolver hindex htyped hoffset (hsep σ hσ) hσ hent hp hinside
      · exact hkept
    obtain ⟨q, hq, hal, -, hto⟩ :=
      forall₂_exists_left hall.flip (mem_filter.mpr ⟨hmem, hkept⟩)
    refine ⟨q, hq, query.1.1, query.1.2, p, hal,
      Map.mem_pairs.mp (mem_pairs_of_candidates hent), hp,
      ResolvesTo.address hto hindex htyped hp, ?_⟩
    exact hcase.imp_right fun ⟨hzero, hend, _⟩ => ⟨hzero, .inr hend⟩

namespace Sample

def folded : Solver where
  check _ _ extra := if extra = .constant false then .UNSAT else .Unknown

theorem folded_unsatSound : folded.UnsatSound := by
  intro m assertions extra h σ _ hholds
  simp only [folded] at h
  split_ifs at h with hff
  rw [hff, holds_constant] at hholds
  cases hholds

end Sample

open Sample in
theorem resolve_covers_four_bytes :
    ∃ results next, (single 4).resolve .full folded [] 0 start = some (results, next) ∧
      ∀ σ, ∃ q ∈ results,
        (single 4).Covers 64 .full start (.constantInt (APInt.ofNat 64 0)) σ q := by
  obtain ⟨valid, results, next, hvalid, hrsv, hiff, -⟩ := resolve_covers_iff .full (single 4)
    folded [] 0 start (.constantInt (APInt.ofNat 64 0)) rfl (single_typed 4) (isInt_constant 0)
    (isInt_constant 0) folded_unsatSound (fun σ _ => single_separated σ (by decide))
  have hrun : (single 4).checkValid .full start (.constantInt (APInt.ofNat 64 0)) =
      some (.constant true) := by decide +kernel
  obtain rfl := some.inj (hvalid.symm.trans hrun)
  have hnil : ∀ σ, Models σ [] := fun σ => by simp [Models]
  refine ⟨results, next, hrsv, fun σ => (hiff fun σ _ => (holds_constant σ true).mpr rfl).mpr
    (fun σ _ => ?_) σ (hnil σ)⟩
  refine ⟨(((0, 0), block 4), 0), by decide +kernel, 16#64, ?_, .inl ⟨_, _, block_at σ 4, ?_⟩⟩
  · exact (address_iff rfl (mem_singleton_self _) (block_at σ 4) (denotes_constantInt _)).mpr rfl
  · decide

open Sample in
/-- The start of an empty block is valid for zero bytes, and resolves to nothing. -/
theorem resolve_empty_block :
    folded.UnsatSound ∧ (∀ σ, (single 0).Separated 64 σ) ∧
      (single 0).checkValid .full start (.constantInt (APInt.ofNat 64 0)) = some (.constant true) ∧
      (single 0).resolve .full folded [] 0 start = some ([], 1) :=
  ⟨folded_unsatSound, fun σ => single_separated σ (by decide), by decide +kernel, by decide +kernel⟩

end MemHeap

end Caffeine
