import Caffeine.IR.OperationBuilder
import Caffeine.Memory.MemHeap

/-!
# What the assertions of a heap say

Under an assignment every allocation has a start and a size, which the assertions of a heap are
about. The arithmetic is that of bitvectors of the pointer width, which wrap.
-/

namespace Caffeine

open Operation Assertion OperationSimplifier List

variable {σ : Assignment} {n : Nat} {cache : OperationCache}

/-- A well-typed integer expression without `Undef` and e-graph references. -/
structure Operation.IsInt (n : Nat) (o : Operation) : Prop where
  typed : o.Interpreted
  type : o.type = .int n

theorem Operation.IsInt.denotes {o : Operation} (h : o.IsInt n) (σ : Assignment) :
    ∃ x : BitVec n, Denotes σ o x :=
  exists_denotes (h.typed.mono fun _ => OperationData.interpretedIn_of_interpreted σ) h.type

theorem Operation.denotes_literal {o : Operation} {x : BitVec n} (ho : Denotes σ o x) (v : Nat) :
    Denotes σ (o.literal v) (BitVec.ofNat n v) := by
  rw [Operation.literal, ho.type]
  exact denotes_constantInt _

variable {address size data alignment : Operation} {kind : AllocationKind}
  {permissions : AllocationPermissions} {newalloc : Allocation}

namespace Allocation

structure At (σ : Assignment) (alloc : Allocation) (a s : BitVec n) : Prop where
  address : Denotes σ alloc.address a
  size : Denotes σ alloc.size s

theorem At.unique {alloc : Allocation} {a s a' s' : BitVec n} (h : At σ alloc a s)
    (h' : At σ alloc a' s') : a = a' ∧ s = s' :=
  ⟨h.address.unique h'.address, h.size.unique h'.size⟩

theorem At.exists_iff {alloc : Allocation} {a s : BitVec n} {P : BitVec n → BitVec n → Prop}
    (h : At σ alloc a s) : (∃ a' s' : BitVec n, At σ alloc a' s' ∧ P a' s') ↔ P a s := by
  constructor
  · rintro ⟨a', s', h', hP⟩
    obtain ⟨rfl, rfl⟩ := h.unique h'
    exact hP
  · exact fun hP => ⟨a, s, h, hP⟩

theorem eq_of_create {alloc : Allocation}
    (h : create address size data kind permissions = some alloc) :
    alloc.address = address ∧ alloc.size = size := by
  unfold create at h
  split at h
  · split_ifs at h
    cases h
    exact ⟨rfl, rfl⟩
  · cases h

variable {alloc : Allocation} {a s v w o : BitVec n} {value width offset : Operation}

theorem At.checkInbounds_asserts (h : At σ alloc a s) (ho : Denotes σ offset o)
    (hw : Denotes σ width w) :
    Asserts σ (alloc.checkInbounds cache offset width) (o + w ≤ s ∧ o < s) := by
  refine (asserts_bind (createICmp_returns ho h.size) fun _ hlow =>
    asserts_bind (createAdd_returns ho hw) fun _ hsum =>
      asserts_bind (createICmp_returns hsum h.size) fun _ hupper =>
        asserts_of_returns (createAnd_returns hupper hlow)).congr ?_
  simp only [Semantics.compare, Bool.and_eq_true, BitVec.ule_iff_le, BitVec.ult_iff_lt]

theorem At.validAt_returns (h : At σ alloc a s) (hv : Denotes σ value v) (hw : Denotes σ width w) :
    Returns σ (alloc.validAt cache value width)
      (BitVec.ofBool (a.ule v && v.ule (a + (s - w)))) :=
  (createSub_returns h.size hw).bind fun _ hd =>
    (createAdd_returns h.address hd).bind fun _ hl =>
      (createICmp_returns h.address hv).bind fun _ h1 =>
        (createICmp_returns hv hl).bind fun _ h2 => createAnd_returns h1 h2

theorem At.contains_asserts (h : At σ alloc a s) (hv : Denotes σ value v) :
    Asserts σ (alloc.contains cache value) (a ≤ v ∧ v < a + s) := by
  refine (asserts_bind (createAdd_returns h.address h.size) fun _ hlast =>
    asserts_bind (createICmp_returns h.address hv) fun _ h1 =>
      asserts_bind (createICmp_returns hv hlast) fun _ h2 =>
        asserts_of_returns (createAnd_returns h1 h2)).congr ?_
  simp only [Semantics.compare, Bool.and_eq_true, BitVec.ule_iff_le, BitVec.ult_iff_lt]

theorem At.noOverlap_asserts {b t : BitVec n} (hn : At σ newalloc b t) (h : At σ alloc a s) :
    Asserts σ (newalloc.noOverlap cache alloc) (a + s ≤ b ∨ b + t ≤ a) := by
  refine (asserts_bind (createAdd_returns hn.address hn.size) fun _ hnew =>
    asserts_bind (createAdd_returns h.address h.size) fun _ hold =>
      asserts_bind (createICmp_returns hold hn.address) fun _ h1 =>
        asserts_bind (createICmp_returns hnew h.address) fun _ h2 =>
          asserts_of_returns (createOr_returns h1 h2)).congr ?_
  simp only [Semantics.compare, Bool.or_eq_true, BitVec.ule_iff_le]

end Allocation

namespace MemHeap

structure Typed (n : Nat) (heap : MemHeap) : Prop where
  address : ∀ entry ∈ heap.allocs.pairs, entry.2.address.IsInt n
  size : ∀ entry ∈ heap.allocs.pairs, entry.2.size.IsInt n

theorem Typed.at {heap : MemHeap} (h : heap.Typed n) (σ : Assignment) {entry : AllocId × Allocation}
    (he : entry ∈ heap.allocs.pairs) : ∃ a s : BitVec n, entry.2.At σ a s := by
  obtain ⟨a, ha⟩ := (h.address entry he).denotes σ
  obtain ⟨s, hs⟩ := (h.size entry he).denotes σ
  exact ⟨a, s, ha, hs⟩

variable {heap : MemHeap} {ptr : Pointer} {width : Operation}

variable {a s w : BitVec n}

variable {id : AllocId} {alloc : Allocation}

theorem checkValid_resolved {o : BitVec n} (hid : ptr.alloc = some id)
    (hl : heap.allocs.lookup id = some alloc) (h : alloc.At σ a s) (ho : Denotes σ ptr.offset o)
    (hw : Denotes σ width w) : Asserts σ (heap.checkValid cache ptr width) (o ≤ s - w) := by
  simp only [checkValid, hid, hl]
  refine (asserts_bind (createSub_returns h.size hw) fun _ hlast =>
    asserts_of_returns (createICmp_returns ho hlast)).congr ?_
  simp only [Semantics.compare, BitVec.ule_iff_le]

theorem foldlM_or_returns {f : AllocId × Allocation → Option Operation}
    {P : AllocId × Allocation → Prop} (entries : List (AllocId × Allocation))
    (hf : ∀ e ∈ entries, ∃ c : Bool, Returns σ (f e) (BitVec.ofBool c) ∧ (c = true ↔ P e))
    {init : Operation} {b : Bool} (hinit : Denotes σ init (BitVec.ofBool b)) :
    ∃ b' : Bool, Returns σ (entries.foldlM (fun result entry => do
        createBinary cache .or result (← f entry)) init) (BitVec.ofBool b') ∧
      (b' = true ↔ b = true ∨ ∃ e ∈ entries, P e) := by
  induction entries generalizing init b with
  | nil => exact ⟨b, hinit.returns, by simp⟩
  | cons e entries ih =>
    obtain ⟨c, hc, hP⟩ := hf e mem_cons_self
    obtain ⟨o, hor, hd⟩ : Returns σ (do createBinary cache .or init (← f e)) _ :=
      hc.bind fun _ hvalid => createOr_returns hinit hvalid
    obtain ⟨b', hb', hiff⟩ := ih (fun e he => hf e (mem_cons_of_mem _ he)) hd
    refine ⟨b', ?_, hiff.trans ?_⟩
    · rw [foldlM_cons, hor]
      exact hb'
    · rw [exists_mem_cons_iff, Bool.or_eq_true, hP, or_assoc]

theorem notNull_or_asserts {f : AllocId × Allocation → Option Operation}
    {P : AllocId × Allocation → Prop} {value : Operation} {v : BitVec n} (hv : Denotes σ value v)
    (hf : ∀ e ∈ heap.allocs.pairs, ∃ c : Bool,
      Returns σ (f e) (BitVec.ofBool c) ∧ (c = true ↔ P e)) :
    Asserts σ (do
      let result ← heap.allocs.pairs.foldlM
        (fun result entry => do createBinary cache .or result (← f entry))
        (constantInt (APInt.ofBool false))
      let notNull ← createICmpLiteral cache .ne value 0
      ofValue (← createBinary cache .and notNull result))
      (v ≠ 0 ∧ ∃ e ∈ heap.allocs.pairs, P e) := by
  have hff : Denotes σ (constantInt (APInt.ofBool false)) (BitVec.ofBool false) :=
    denotes_constantInt _
  obtain ⟨b, hb, hiff⟩ : ∃ b' : Bool, _ := foldlM_or_returns heap.allocs.pairs hf hff
  refine (asserts_bind hb fun _ hres =>
    asserts_bind (createICmpLiteral_returns 0 hv) fun _ hnull =>
      asserts_of_returns (createAnd_returns hnull hres)).congr ?_
  simp [Semantics.compare, hiff]

theorem checkValid_unresolved {v : BitVec n} (hheap : heap.Typed n) (hptr : ptr.alloc = none)
    (hv : Denotes σ ptr.offset v) (hw : Denotes σ width w) :
    Asserts σ (heap.checkValid cache ptr width) (v ≠ 0 ∧ ∃ e ∈ heap.allocs.pairs,
      ∃ a s : BitVec n, e.2.At σ a s ∧ a ≤ v ∧ v ≤ a + (s - w)) := by
  simp only [checkValid, Pointer.value, hptr]
  refine asserts_bind hv.returns fun value hv =>
    notNull_or_asserts (f := fun e => e.2.validAt cache value width) hv fun e he => ?_
  obtain ⟨a, s, hat⟩ := hheap.at σ he
  refine ⟨_, hat.validAt_returns hv hw, ?_⟩
  rw [hat.exists_iff, Bool.and_eq_true, BitVec.ule_iff_le, BitVec.ule_iff_le]

theorem checkStartsAllocation_resolved {o : BitVec n} (hid : ptr.alloc = some id)
    (hl : heap.allocs.lookup id = some alloc) (ho : Denotes σ ptr.offset o) :
    Asserts σ (heap.checkStartsAllocation cache ptr) (o = 0) := by
  simp only [checkStartsAllocation, hid, checkLive, hl, Option.isSome_some, if_true]
  refine (asserts_of_returns (createICmpLiteral_returns 0 ho)).congr ?_
  simp [Semantics.compare]

theorem checkStartsAllocation_unresolved {v : BitVec n} (hheap : heap.Typed n)
    (hptr : ptr.alloc = none) (hv : Denotes σ ptr.offset v) :
    Asserts σ (heap.checkStartsAllocation cache ptr) (v ≠ 0 ∧ ∃ e ∈ heap.allocs.pairs,
      ∃ a s : BitVec n, e.2.At σ a s ∧ v = a) := by
  simp only [checkStartsAllocation, Pointer.value, hptr]
  refine asserts_bind hv.returns fun value hv =>
    notNull_or_asserts (f := fun e => createICmp cache .eq value e.2.address) hv fun e he => ?_
  obtain ⟨a, s, hat⟩ := hheap.at σ he
  refine ⟨_, createICmp_returns hv hat.address, ?_⟩
  rw [hat.exists_iff]
  simp [Semantics.compare]

/-- Allocations do not wrap around, are not at the null address and do not overlap. -/
structure Separated (n : Nat) (σ : Assignment) (heap : MemHeap) : Prop where
  placed : ∀ entry ∈ heap.allocs.pairs, ∀ a s : BitVec n, entry.2.At σ a s →
    a ≠ 0 ∧ a.toNat + s.toNat < 2 ^ n
  apart : heap.allocs.pairs.Pairwise fun e e' => ∀ a s a' s' : BitVec n, e.2.At σ a s →
    e'.2.At σ a' s' → a.toNat + s.toNat ≤ a'.toNat ∨ a'.toNat + s'.toNat ≤ a.toNat

theorem toNat_add_lt (h : a ≤ a + s) : a.toNat + s.toNat < 2 ^ n := by
  rw [BitVec.le_def, BitVec.toNat_add] at h
  by_contra hge
  rw [Nat.mod_eq_sub_mod (by omega), Nat.mod_eq_of_lt (by omega)] at h
  omega

theorem placement_holds {placed : List Assertion} (hat : newalloc.At σ a s)
    (h : newalloc.placement cache alignment = some placed) (hm : Models σ placed) :
    a ≠ 0 ∧ a.toNat + s.toNat < 2 ^ n := by
  simp only [Allocation.placement, bind_eq_some, Option.some.injEq] at h
  obtain ⟨rem, hrem, isAligned, hal, isZero, hzero, al, hor, aligned, haligned, stop, hstop, nw,
    hnw, noWrap, hnoWrap, nn, hnn, notNull, hnotNull, rfl⟩ := h
  simp only [Models, forall_mem_cons] at hm
  obtain ⟨-, hwrap, hnull, -⟩ := hm
  have hsum := (createAdd_returns hat.address hat.size).denotes hstop
  rw [holds_ofValue ((createICmp_returns hat.address hsum).denotes hnw) hnoWrap] at hwrap
  rw [holds_ofValue ((createICmpLiteral_returns 0 hat.address).denotes hnn) hnotNull] at hnull
  exact ⟨bne_iff_ne.mp hnull, toNat_add_lt (BitVec.ule_iff_le.mp hwrap)⟩

theorem placement_aligned {placed : List Assertion} {al : BitVec n} (hat : newalloc.At σ a s)
    (hal : Denotes σ alignment al) (h : newalloc.placement cache alignment = some placed)
    (hm : Models σ placed) (hne : al ≠ 0) : al.toNat ∣ a.toNat := by
  simp only [Allocation.placement, bind_eq_some, Option.some.injEq] at h
  obtain ⟨rem, hrem, isAligned, hisAligned, isZero, hisZero, or, hor, aligned, haligned, stop,
    hstop, nw, hnw, noWrap, hnoWrap, nn, hnn, notNull, hnotNull, rfl⟩ := h
  have hholds := hm aligned mem_cons_self
  have hremainder := (createURem_returns hat.address hal hne).denotes hrem
  rw [holds_ofValue ((createOr_returns
    ((createICmpLiteral_returns 0 hremainder).denotes hisAligned)
    ((createICmpLiteral_returns 0 hal).denotes hisZero)).denotes hor) haligned] at hholds
  simp only [Semantics.compare, Bool.or_eq_true, beq_iff_eq] at hholds
  have hzero := congrArg BitVec.toNat (hholds.resolve_right hne)
  rw [BitVec.toNat_umod, BitVec.toNat_ofNat, Nat.zero_mod] at hzero
  exact Nat.dvd_of_mod_eq_zero hzero

theorem allocate_eq_some {heap' : MemHeap} {key : AllocId} {added : List Assertion}
    (h : heap.allocate cache key address size alignment data kind permissions =
      some (heap', added)) :
    ∃ newalloc placed separate, Allocation.create address size data kind permissions =
        some newalloc ∧
      newalloc.placement cache alignment = some placed ∧
      heap.allocs.pairs.mapM (fun entry => newalloc.noOverlap cache entry.2) = some separate ∧
      heap' = { heap with allocs := heap.allocs.insert key newalloc } ∧
      added = placed ++ separate := by
  simp only [allocate, bind_eq_some, Option.some.injEq, Prod.mk.injEq] at h
  obtain ⟨-, -, -, -, newalloc, hnew, placed, hplaced, separate, hsep, rfl, rfl⟩ := h
  exact ⟨newalloc, placed, separate, hnew, hplaced, hsep, rfl, rfl⟩

theorem allocate_separated {heap' : MemHeap} {key : AllocId} {added : List Assertion}
    (hty : heap.Typed n) (hadr : address.IsInt n) (hsize : size.IsInt n) (hkey : key ∉ heap.allocs)
    (h : heap.allocate cache key address size alignment data kind permissions =
      some (heap', added)) :
    heap'.Typed n ∧ ∀ σ, heap.Separated n σ → Models σ added → heap'.Separated n σ := by
  obtain ⟨newalloc, placed, separate, hnew, hplaced, hseparate, rfl, rfl⟩ := allocate_eq_some h
  obtain ⟨rfl, rfl⟩ := Allocation.eq_of_create hnew
  have hnewAt : ∀ σ, ∃ a s : BitVec n, newalloc.At σ a s := fun σ => by
    obtain ⟨a, ha⟩ := hadr.denotes σ
    obtain ⟨s, hs⟩ := hsize.denotes σ
    exact ⟨a, s, ha, hs⟩
  refine ⟨⟨?_, ?_⟩, fun σ hsep hm => ⟨?_, ?_⟩⟩ <;> simp only [Map.pairs_insert hkey]
  · exact forall_mem_cons.mpr ⟨hadr, hty.address⟩
  · exact forall_mem_cons.mpr ⟨hsize, hty.size⟩
  · exact forall_mem_cons.mpr ⟨fun a s hat =>
      placement_holds hat hplaced (models_append.mp hm).1, hsep.placed⟩
  · refine pairwise_cons.mpr ⟨fun e he b t a s hnew hold => ?_, hsep.apart⟩
    obtain ⟨apart, hmem, hapart⟩ := exists_mem_mapM hseparate he
    have hholds := (hnew.noOverlap_asserts hold).holds_iff hapart |>.mp
      ((models_append.mp hm).2 apart hmem)
    have hb := (placement_holds hnew hplaced (models_append.mp hm).1).2
    have ha := (hsep.placed e he a s hold).2
    rw [BitVec.le_def, BitVec.le_def, BitVec.toNat_add_of_lt ha,
      BitVec.toNat_add_of_lt hb] at hholds
    exact hholds.symm

def possible (cache : OperationCache) (solver : Solver) (assertions : List Assertion)
    (value : Operation) (query : (AllocId × Allocation) × Nat) : Bool :=
  (query.1.2.contains cache value).any (solver.check query.2 assertions · ≠ .UNSAT)

theorem resolveIn_eq (cache : OperationCache) (solver : Solver) (assertions : List Assertion)
    (ptr : Pointer) {value : Operation} (hv : value.IsInt n) (entries : List (AllocId × Allocation))
    (hadr : ∀ e ∈ entries, e.2.address.IsInt n) (hsize : ∀ e ∈ entries, e.2.size.IsInt n)
    (m : Nat) : ∃ pointers, resolveIn cache solver assertions ptr value m entries = some pointers ∧
      Forall₂ (fun query p => p.alloc = some query.1.1 ∧ p.heap = ptr.heap ∧
        createBinary cache .sub value query.1.2.address = some p.offset)
        ((entries.zipIdx m).filter (possible cache solver assertions value)) pointers := by
  induction entries generalizing m with
  | nil => exact ⟨[], rfl, .nil⟩
  | cons e entries ih =>
    obtain ⟨key, alloc⟩ := e
    obtain ⟨pointers, hrest, hall⟩ := ih (fun e he => hadr e (mem_cons_of_mem _ he))
      (fun e he => hsize e (mem_cons_of_mem _ he)) (m + 1)
    obtain ⟨v, hv⟩ := hv.denotes default
    obtain ⟨a, ha⟩ := (hadr _ mem_cons_self).denotes default
    obtain ⟨s, hs⟩ := (hsize _ mem_cons_self).denotes default
    obtain ⟨c, hc, -⟩ : Asserts default (alloc.contains cache value) _ :=
      Allocation.At.contains_asserts ⟨ha, hs⟩ hv
    obtain ⟨offset, hoff, -⟩ : Returns default (createBinary cache .sub value alloc.address) _ :=
      createSub_returns hv ha
    have hpossible : possible cache solver assertions value ((key, alloc), m) =
        decide (solver.check m assertions c ≠ .UNSAT) := by
      simp only [possible, hc, Option.any_some]
    by_cases hunsat : solver.check m assertions c = .UNSAT
    · refine ⟨pointers, ?_, ?_⟩
      · simp only [resolveIn, hc, hrest, hunsat, some_bind, if_true]
      · rwa [zipIdx_cons, filter_cons_of_neg (by simp [hpossible, hunsat])]
    · refine ⟨⟨some key, offset, ptr.heap⟩ :: pointers, ?_, ?_⟩
      · simp only [resolveIn, hc, hrest, hoff, some_bind, if_neg hunsat]
      · rw [zipIdx_cons, filter_cons_of_pos (by simp [hpossible, hunsat])]
        exact .cons ⟨rfl, rfl, hoff⟩ hall

theorem resolve_live (cache : OperationCache) (solver : Solver) (assertions : List Assertion)
    (hty : heap.Typed n) (hoff : ptr.offset.IsInt n) (hidx : heap.index = ptr.heap)
    (hid : ptr.alloc = some id) (hl : heap.allocs.lookup id = some alloc) (m : Nat) :
    ∃ c, alloc.checkInbounds cache ptr.offset (ptr.offset.literal 0) = some c ∧
      heap.resolve cache solver assertions m ptr =
        some (if solver.check m assertions c = .UNSAT then [] else [ptr], m + 1) := by
  obtain ⟨a, s, hat⟩ := hty.at default (Map.mem_pairs.mpr hl)
  obtain ⟨o, ho⟩ := hoff.denotes default
  obtain ⟨c, hc, -⟩ : Asserts default (alloc.checkInbounds cache ptr.offset _) _ :=
    hat.checkInbounds_asserts ho (denotes_literal ho 0)
  refine ⟨c, hc, ?_⟩
  simp only [resolve, hid, hl, hidx, guard_true, hc, Option.pure_def, some_bind]
  split_ifs <;> rfl

end MemHeap

end Caffeine
