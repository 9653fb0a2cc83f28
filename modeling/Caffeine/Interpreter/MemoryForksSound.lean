import Caffeine.Interpreter.MemoryForks

/-!
# Where the forks of loads and stores are sound

The forks of an access all have the models of the path condition, so they partition them only if
there is one fork or no model. `check_valid` subtracts the width from the size, so it bounds the
access only if the allocation has room for it.
-/

namespace Caffeine

open Operation Assertion OperationSimplifier List BitVec

variable {G : Type} [PathGraph G] {σ : Assignment}

section

variable {n : Nat} {shared : CaffeineContext} {solver : Solver} {ctx : Context G} {heap : MemHeap}
  {ptr p : Pointer} {alloc : Allocation}

def Pointer.InBounds (σ : Assignment) (heap : MemHeap) (width : Nat) (ptr : Pointer) : Prop :=
  ∃ id alloc, ptr.alloc = some id ∧ heap.allocs.lookup id = some alloc ∧
    ∃ (n : Nat) (o s : BitVec n), ptr.offset.eval σ = .int ⟨n, o⟩ ∧
      alloc.size.eval σ = .int ⟨n, s⟩ ∧ o.toNat + width ≤ s.toNat

/-- The forks of an access partition the models of the path condition and stay in their
allocations. -/
structure SoundForks (pathCondition : List Assertion) (heap : MemHeap) (width : Nat)
    (forks : List (ContextQueueEntry G)) : Prop where
  partitions : PartitionsModels pathCondition (forks.map (·.context))
  inBounds : ∀ fork ∈ forks, ∃ ptr, fork.access = some ptr ∧
    ∀ σ, Models σ fork.context.assertions → ptr.InBounds σ heap width

def Allocation.HasRoom (σ : Assignment) (width : Nat) (alloc : Allocation) : Prop :=
  ∃ (n : Nat) (s : BitVec n), alloc.size.eval σ = .int ⟨n, s⟩ ∧ width ≤ s.toNat

variable {a s : BitVec n}

theorem Allocation.At.hasRoom_iff (h : alloc.At σ a s) (width : Nat) :
    alloc.HasRoom σ width ↔ width ≤ s.toNat := by
  constructor
  · rintro ⟨n', s', hs', hle⟩
    rw [h.size.value] at hs'
    cases hs'
    exact hle
  · exact fun hle => ⟨n, s, h.size.value, hle⟩

variable {width : Nat}

theorem ResolvesTo.inBounds_iff {o : BitVec n} {cache : OperationCache}
    (h : ResolvesTo cache heap ptr p alloc) (hat : alloc.At σ a s) (ho : Denotes σ p.offset o) :
    p.InBounds σ heap width ↔ o.toNat + width ≤ s.toNat := by
  have hlook : ∃ id, p.alloc = some id ∧ heap.allocs.lookup id = some alloc := by
    cases h with
    | @same id alloc hid hl => exact ⟨id, hid, hl⟩
    | @relative id alloc offset hid hl ho => exact ⟨id, rfl, hl⟩
  obtain ⟨id, hid, hl⟩ := hlook
  constructor
  · rintro ⟨id', alloc', hid', hl', n', o', s', ho', hs', hle⟩
    obtain rfl := Option.some.inj (hid.symm.trans hid')
    obtain rfl := Map.lookup_unique hl hl'
    rw [ho.value] at ho'
    cases ho'
    rw [hat.size.value] at hs'
    cases hs'
    exact hle
  · exact fun hle => ⟨id, alloc, hid, hl, n, o, s, ho.value, hat.size.value, hle⟩

/-- All forks have all models: they partition them if there is one pointer or no model. -/
structure SoundPointers (pathCondition : List Assertion) (heap : MemHeap) (width : Nat)
    (pointers : List Pointer) : Prop where
  partitions : (∀ σ, ¬ Models σ pathCondition) ∨ pointers.length = 1
  inBounds : ∀ p ∈ pointers, ∀ σ, Models σ pathCondition → p.InBounds σ heap width

theorem soundForks_iff {pathCondition : List Assertion} {pointers : List Pointer}
    {forks : List (ContextQueueEntry G)} (h : Forall₂ (Forked pathCondition) pointers forks) :
    SoundForks pathCondition heap width forks ↔
      SoundPointers pathCondition heap width pointers := by
  have hcov : ∀ σ, Models σ pathCondition →
      ((forks.map (·.context)).ExactlyOne (fun ctx => Models σ ctx.assertions) ↔
        pointers.length = 1) := fun σ hσ => by
    rw [List.exactlyOne_map, h.length_eq, ← List.exactlyOne_const hσ]
    refine List.ExactlyOne.congr fun fork hfork => ?_
    obtain ⟨p, -, hforked⟩ := forall₂_exists_left h hfork
    exact hforked.models σ
  constructor
  · intro hsnd
    refine ⟨or_iff_not_imp_left.mpr fun hmdl => ?_, fun p hp σ hσ => ?_⟩
    · obtain ⟨σ, hσ⟩ := not_forall_not.mp hmdl
      exact (hcov σ hσ).mp (hsnd.partitions.covers σ hσ)
    · obtain ⟨fork, hfork, hforked⟩ := forall₂_exists_left h.flip hp
      obtain ⟨p', hp', hin⟩ := hsnd.inBounds fork hfork
      obtain rfl := Option.some.inj (hforked.access.symm.trans hp')
      exact hin σ ((hforked.models σ).mpr hσ)
  · rintro ⟨hone, hin⟩
    refine ⟨⟨fun σ hσ => (hcov σ hσ).mpr (hone.resolve_left fun hno => hno σ hσ), ?_⟩, ?_⟩
    · simp only [List.forall_mem_map]
      intro fork hfork σ hσ
      obtain ⟨p, -, hforked⟩ := forall₂_exists_left h hfork
      exact (hforked.models σ).mp hσ
    · intro fork hfork
      obtain ⟨p, hp, hforked⟩ := forall₂_exists_left h hfork
      exact ⟨p, hforked.access, fun σ hσ => hin p hp σ ((hforked.models σ).mp hσ)⟩

theorem toNat_sub_ofNat (h : width ≤ s.toNat) :
    (s - BitVec.ofNat n width).toNat = s.toNat - width := by
  have hwid : (BitVec.ofNat n width).toNat = width := by
    rw [toNat_ofNat, Nat.mod_eq_of_lt (h.trans_lt s.isLt)]
  rw [toNat_sub_of_le (by rwa [le_def, hwid]), hwid]

theorem toNat_add_le_iff {o : BitVec n} (h : width ≤ s.toNat) :
    o.toNat + width ≤ s.toNat ↔ o ≤ s - BitVec.ofNat n width := by
  rw [le_def, toNat_sub_ofNat h]
  omega

theorem toNat_sub_add_le_iff {v : BitVec n} (hwrap : a.toNat + s.toNat < 2 ^ n) :
    (v - a).toNat + width ≤ s.toNat ↔
      (a ≤ v ∧ v ≤ a + (s - BitVec.ofNat n width)) ∧ width ≤ s.toNat := by
  by_cases hroom : width ≤ s.toNat
  · have hlast : (a + (s - BitVec.ofNat n width)).toNat = a.toNat + (s.toNat - width) := by
      rw [toNat_add_of_lt (by rw [toNat_sub_ofNat hroom]; omega), toNat_sub_ofNat hroom]
    have hv := v.isLt
    rw [le_def, le_def, hlast, toNat_sub]
    by_cases hle : a.toNat ≤ v.toNat
    · rw [show 2 ^ n - a.toNat + v.toNat = v.toNat - a.toNat + 2 ^ n by omega,
        Nat.add_mod_right, Nat.mod_eq_of_lt (by omega)]
      omega
    · rw [Nat.mod_eq_of_lt (by omega)]
      omega
  · constructor <;> intro h <;> omega

/-- The allocation's own bounds test in `check_valid` is true for the address. -/
def Allocation.TestHolds (cache : OperationCache) (σ : Assignment) (value width : Operation)
    (alloc : Allocation) : Prop :=
  ∃ test, alloc.validAt cache value width = some test ∧ test.eval σ = .int ⟨1, 1⟩

/-- There is room in every model, and an absolute address can lie in one allocation only. -/
def AccessFits (cache : OperationCache) (solver : Solver) (pathCondition : List Assertion)
    (heap : MemHeap) (ptr : Pointer) (width query : Nat) : Prop :=
  match ptr.alloc with
  | some id => ∀ alloc, heap.allocs.lookup id = some alloc →
    ∀ σ, Models σ pathCondition → alloc.HasRoom σ width
  | none => (∀ σ, ¬ Models σ pathCondition) ∨ ∃ entry number,
    (heap.allocs.pairs.zipIdx query).filter
      (MemHeap.possible cache solver pathCondition ptr.offset) = [(entry, number)] ∧
    ∀ σ, Models σ pathCondition →
      entry.2.TestHolds cache σ ptr.offset (ptr.offset.literal width) ∧
      entry.2.HasRoom σ width

theorem Allocation.At.testHolds_iff {cache : OperationCache} {v : BitVec n} {value : Operation}
    (h : alloc.At σ a s) (hv : Denotes σ value v) (width : Nat) :
    alloc.TestHolds cache σ value (value.literal width) ↔
      a ≤ v ∧ v ≤ a + (s - BitVec.ofNat n width) := by
  obtain ⟨test, htest, hd⟩ : Returns σ (alloc.validAt cache value (value.literal width)) _ :=
    h.validAt_returns hv (denotes_literal hv width)
  have hiff : test.eval σ = .int ⟨1, 1⟩ ↔ a ≤ v ∧ v ≤ a + (s - BitVec.ofNat n width) := by
    rw [← ule_iff_le, ← ule_iff_le, ← Bool.and_eq_true, hd.value]
    cases (a.ule v && v.ule (a + (s - BitVec.ofNat n width))) <;> simp
  rw [← hiff]
  constructor
  · rintro ⟨test', htest', hval⟩
    rw [htest] at htest'
    cases htest'
    exact hval
  · exact fun hval => ⟨test, htest, hval⟩

section Access

open Interpreter

variable {interp : InterpreterContext G} {width : Nat}

/-- A valid resolved pointer is in bounds if its allocation has room, and then satisfies the query
of `resolve`. -/
theorem model_resolved {id : AllocId} {c : Assertion}
    (h : ValidAccess n shared interp heap ptr width) (hid : ptr.alloc = some id)
    (hl : heap.allocs.lookup id = some alloc) (hσ : Models σ interp.context.assertions)
    (hc : alloc.checkInbounds shared.cache ptr.offset (ptr.offset.literal 0) = some c) :
    (ptr.InBounds σ heap width ↔ alloc.HasRoom σ width) ∧ (alloc.HasRoom σ width → c.Holds σ) := by
  obtain ⟨valid, hchk, hvalid⟩ := h.valid
  have hto : ResolvesTo shared.cache heap ptr ptr alloc := .same hid hl
  obtain ⟨a, s, hat⟩ := h.points.typed.at σ (Map.mem_pairs.mpr hl)
  obtain ⟨o, ho⟩ := h.points.offset.denotes σ
  have hle := ((MemHeap.checkValid_resolved hid hl hat ho (denotes_literal ho width)).holds_iff
    hchk).mp (hvalid σ hσ)
  rw [hto.inBounds_iff hat ho, hat.hasRoom_iff,
    (hat.checkInbounds_asserts ho (denotes_literal ho 0)).holds_iff hc]
  refine ⟨⟨fun hin => by omega, fun hroom => (toNat_add_le_iff hroom).mpr hle⟩, fun hroom => ?_⟩
  have hin := (toNat_add_le_iff hroom).mpr hle
  have hpos := h.width_pos
  rw [BitVec.add_zero, le_def, lt_def]
  omega

theorem resolved_sound_iff {id : AllocId} (h : ValidAccess n shared interp heap ptr width)
    (hunsat : solver.UnsatSound) (hid : ptr.alloc = some id) (query : Nat) :
    ∃ pointers queries, heap.resolve shared.cache solver interp.context.assertions query ptr =
        some (pointers, queries) ∧
      (∀ p ∈ pointers, ∃ alloc, ResolvesTo shared.cache heap ptr p alloc) ∧
      (SoundPointers interp.context.assertions heap width pointers ↔
        AccessFits shared.cache solver interp.context.assertions heap ptr width query) := by
  simp only [AccessFits, hid]
  cases hl : heap.allocs.lookup id with
  | none =>
    have hno : ∀ σ, ¬ Models σ interp.context.assertions := fun σ hσ => by
      obtain ⟨valid, hchk, hvalid⟩ := h.valid
      have hholds := hvalid σ hσ
      simp only [MemHeap.checkValid, hid, hl, Option.some.injEq] at hchk
      rw [← hchk, holds_constant] at hholds
      cases hholds
    refine ⟨[], _, by simp only [MemHeap.resolve, hid, hl, h.points.index, guard_true]; rfl,
      by simp, ?_⟩
    exact ⟨fun _ alloc ha => absurd ha (by simp), fun _ => ⟨.inl hno, by simp⟩⟩
  | some alloc =>
    obtain ⟨c, hc, hrsv⟩ := MemHeap.resolve_live shared.cache solver
      interp.context.assertions h.points.typed h.points.offset h.points.index hid hl query
    refine ⟨_, _, hrsv, ?_, ?_⟩
    · intro p hp
      split_ifs at hp
      · cases hp
      · rw [mem_singleton.mp hp]
        exact ⟨alloc, .same hid hl⟩
    simp only [Option.some.injEq, forall_eq']
    split_ifs with hu
    · refine ⟨fun hs => ?_, fun hroom => ⟨.inl fun σ hσ => ?_, by simp⟩⟩
      · exact fun σ hσ => absurd hσ (hs.partitions.resolve_right (by simp) σ)
      · exact hunsat _ _ _ hu σ hσ ((model_resolved h hid hl hσ hc).2 (hroom σ hσ))
    · refine ⟨fun hs σ hσ => ?_, fun hroom => ⟨.inr rfl, ?_⟩⟩
      · exact (model_resolved h hid hl hσ hc).1.mp (hs.inBounds ptr (by simp) σ hσ)
      · simp only [forall_mem_singleton]
        exact fun σ hσ => (model_resolved h hid hl hσ hc).1.mpr (hroom σ hσ)

structure RelativeTo (cache : OperationCache) (heap : MemHeap) (ptr : Pointer)
    (entry : AllocId × Allocation) (p : Pointer) : Prop where
  mem : entry ∈ heap.allocs.pairs
  resolves : ResolvesTo cache heap ptr p entry.2
  offset : createBinary cache .sub ptr.offset entry.2.address = some p.offset

omit [PathGraph G] in
theorem resolve_absolute {pathCondition : List Assertion} (cache : OperationCache)
    (solver : Solver) (hp : Points n ctx heap ptr) (hid : ptr.alloc = none) (m : Nat) :
    ∃ pointers queries, heap.resolve cache solver pathCondition m ptr =
        some (pointers, queries) ∧
      Forall₂ (fun query => RelativeTo cache heap ptr query.1)
        ((heap.allocs.pairs.zipIdx m).filter
          (MemHeap.possible cache solver pathCondition ptr.offset)) pointers := by
  obtain ⟨pointers, hin, hall⟩ := MemHeap.resolveIn_eq cache solver pathCondition ptr
    hp.offset heap.allocs.pairs hp.typed.address hp.typed.size m
  refine ⟨pointers, m + heap.allocs.pairs.length, ?_, ?_⟩
  · simp only [MemHeap.resolve, Pointer.value, hid, hin, some_bind]
  refine ((forall₂_and_left _ _).mpr ⟨fun query hq =>
    fst_mem_of_mem_zipIdx (mem_filter.mp hq).1, hall⟩).imp ?_
  rintro ⟨⟨id, alloc⟩, number⟩ ⟨_, offset, _⟩ ⟨hmem, rfl, rfl, ho⟩
  exact ⟨hmem, .relative hid (Map.mem_pairs.mp hmem) ho, ho⟩

theorem model_absolute {entry : AllocId × Allocation}
    (h : ValidAccess n shared interp heap ptr width) (hp : RelativeTo shared.cache heap ptr entry p)
    (hσ : Models σ interp.context.assertions) : p.InBounds σ heap width ↔
      entry.2.TestHolds shared.cache σ ptr.offset (ptr.offset.literal width) ∧
        entry.2.HasRoom σ width := by
  obtain ⟨a, s, hat⟩ := h.points.typed.at σ hp.mem
  obtain ⟨v, hv⟩ := h.points.offset.denotes σ
  have hwrap := ((h.separated σ hσ).placed entry hp.mem a s hat).2
  rw [hp.resolves.inBounds_iff hat ((createSub_returns hv hat.address).denotes hp.offset),
    toNat_sub_add_le_iff hwrap, hat.testHolds_iff hv, hat.hasRoom_iff]

theorem absolute_sound_iff (h : ValidAccess n shared interp heap ptr width)
    (hid : ptr.alloc = none) (query : Nat) :
    ∃ pointers queries, heap.resolve shared.cache solver interp.context.assertions query ptr =
        some (pointers, queries) ∧
      (∀ p ∈ pointers, ∃ alloc, ResolvesTo shared.cache heap ptr p alloc) ∧
      (SoundPointers interp.context.assertions heap width pointers ↔
        AccessFits shared.cache solver interp.context.assertions heap ptr width query) := by
  obtain ⟨pointers, queries, hrsv, hall⟩ :=
    resolve_absolute shared.cache solver h.points hid query
  refine ⟨pointers, queries, hrsv, fun p hp => ?_, ?_⟩
  · obtain ⟨query, -, hto⟩ := forall₂_exists_left hall hp
    exact ⟨query.1.2, hto.resolves⟩
  simp only [AccessFits, hid]
  constructor
  · intro hs
    refine hs.partitions.imp_right fun hone => ?_
    obtain ⟨p, rfl⟩ := length_eq_one_iff.mp hone
    obtain ⟨⟨entry, number⟩, hflt⟩ := length_eq_one_iff.mp (hall.length_eq.trans hone)
    rw [hflt] at hall
    obtain ⟨hto, -⟩ := forall₂_cons.mp hall
    exact ⟨entry, number, hflt, fun σ hσ =>
      (model_absolute h hto hσ).mp (hs.inBounds p (by simp) σ hσ)⟩
  · rintro (hno | ⟨entry, number, hflt, hfits⟩)
    · exact ⟨.inl hno, fun p _ σ hσ => absurd hσ (hno σ)⟩
    · rw [hflt] at hall
      obtain ⟨p, hp⟩ := length_eq_one_iff.mp hall.length_eq.symm
      subst hp
      obtain ⟨hto, -⟩ := forall₂_cons.mp hall
      refine ⟨.inr rfl, ?_⟩
      simp only [forall_mem_singleton]
      exact fun σ hσ => (model_absolute h hto hσ).mpr (hfits σ hσ)

theorem resolve_sound_iff (h : ValidAccess n shared interp heap ptr width)
    (hunsat : solver.UnsatSound) (query : Nat) :
    ∃ pointers queries, heap.resolve shared.cache solver interp.context.assertions query ptr =
        some (pointers, queries) ∧
      (∀ p ∈ pointers, ∃ alloc, ResolvesTo shared.cache heap ptr p alloc) ∧
      (SoundPointers interp.context.assertions heap width pointers ↔
        AccessFits shared.cache solver interp.context.assertions heap ptr width query) := by
  cases hid : ptr.alloc with
  | some id => exact resolved_sound_iff h hunsat hid query
  | none => exact absolute_sound_iff h hid query

theorem Interpreter.ValidAccess.after {allowed : Assertion → Prop}
    (h : ValidAccess n shared interp heap ptr width) (hafter : interp.context.After allowed ctx) :
    ValidAccess n shared (interp.setContext ctx) heap ptr width where
  points := ⟨(congrArg (·.lookup ptr.heap) hafter.heaps).trans h.points.lookup, h.points.index,
    h.points.typed, h.points.offset⟩
  alive := h.alive
  running hstk := h.running (hafter.stack.symm.trans hstk)
  width_pos := h.width_pos
  width_lt := h.width_lt
  separated σ hσ := h.separated σ ((hafter.models σ).mp hσ)
  valid := h.valid.imp fun _ hvalid =>
    ⟨hvalid.1, fun σ hσ => hvalid.2 σ ((hafter.models σ).mp hσ)⟩

theorem SoundForks.congr {path path' : List Assertion} {forks : List (ContextQueueEntry G)}
    (hmod : ∀ σ, Models σ path ↔ Models σ path') (h : SoundForks path heap width forks) :
    SoundForks path' heap width forks :=
  ⟨⟨fun σ hσ => h.partitions.covers σ ((hmod σ).mpr hσ), fun ctx hctx σ hσ =>
    (hmod σ).mp (h.partitions.admits ctx hctx σ hσ)⟩, h.inBounds⟩

end Access

end

namespace Sample

/-- A solver that knows some assignments: SAT if one of them answers the query. -/
def guess (candidates : List Assignment) : Solver where
  check _ assertions extra :=
    if candidates.any fun σ => (extra :: assertions).all fun a =>
      (a.value.eval σ).toInt? = some ⟨1, 1⟩ then .SAT else .Unknown

theorem toInt?_eq_some {v : Val} {x : APInt} : v.toInt? = some x ↔ v = .int x := by
  cases v <;> simp [Val.toInt?]

theorem guess_unsatSound (candidates : List Assignment) : (guess candidates).UnsatSound := by
  intro m assertions extra h
  simp only [guess] at h
  split_ifs at h

theorem guess_satSound (candidates : List Assignment) : (guess candidates).SatSound := by
  intro m assertions extra h
  simp only [guess] at h
  split_ifs at h with hany
  obtain ⟨σ, -, hall⟩ := List.any_eq_true.mp hany
  simp only [all_cons, List.all_eq_true, Bool.and_eq_true, decide_eq_true_eq,
    toInt?_eq_some] at hall
  exact ⟨σ, hall.2, hall.1⟩

def literal (v : Nat) : Operation := .constantInt (APInt.ofNat 64 v)

def allocation (address : Nat) : Allocation where
  address := literal address
  size := literal 4
  data := .mk (.fixedArray 64) (List.replicate 4 (.constantInt (APInt.ofNat 8 0)))
  kind := .malloc
  permissions := ⟨true, true, false⟩
  typed := ⟨64, rfl, rfl⟩

def heap (addresses : List Nat) : MemHeap where
  index := 0
  allocs := addresses.foldr (fun a m => m.insert (a, 0) (allocation a)) ∅

def pointer : Pointer := ⟨none, .constant (.int 64) (.numbered 0), 0⟩

def assign (v : Nat) : Assignment := ⟨fun _ w => BitVec.ofNat w v, fun _ _ _ => 0, fun _ => .poison⟩

def shared : CaffeineContext where
  cache := .full
  solver := guess [assign 17, assign 33]
  layout := ⟨fun | .int bits => (bits + 7) / 8 | _ => 8⟩
  memory := ⟨fun _ _ _ => some (.scalar (.expr (.constantInt (APInt.ofNat 8 0)))),
    fun alloc _ _ _ _ => some (.ok alloc)⟩

def state (addresses : List Nat) : InterpreterContext (List Assertion) where
  entry.context.stack := [⟨⟨[]⟩, AList.singleton 0 (.scalar (.pointer pointer)), 0, none, 0⟩]
  entry.context.heaps := AList.singleton 0 (heap addresses)
  entry.context.graph := ((heap addresses).checkValid .full pointer (literal 1)).toList
  forks := []
  queries := 0
  failures := []

def instruction : Instruction := .load 1 (.int 8) (.ident 0)

theorem allocation_at (σ : Assignment) (a : Nat) :
    (allocation a).At σ (BitVec.ofNat 64 a) (BitVec.ofNat 64 4) :=
  ⟨denotes_constantInt _, denotes_constantInt _⟩

theorem validAccess (addresses : List Nat)
    (hpairs : (heap addresses).allocs.pairs = addresses.map fun a => ((a, 0), allocation a))
    (hplaced : ∀ a ∈ addresses, 0 < a ∧ a + 4 < 2 ^ 64)
    (hapart : addresses.Pairwise fun a b => a + 4 ≤ b ∨ b + 4 ≤ a)
    (hvalid : ((heap addresses).checkValid .full pointer (literal 1)).isSome = true) :
    Interpreter.ValidAccess 64 shared (state addresses) (heap addresses) pointer 1 where
  points := by
    refine ⟨rfl, rfl, ⟨?_, ?_⟩, rfl, rfl⟩ <;> rw [hpairs] <;>
      simp only [List.forall_mem_map] <;> exact fun a _ => ⟨rfl, rfl⟩
  alive := rfl
  running := by simp [state, InterpreterContext.context]
  width_pos := le_rfl
  width_lt := by decide
  separated σ _ := by
    have htoNat : ∀ a ∈ addresses, (BitVec.ofNat 64 a).toNat = a := fun a ha => by
      have := hplaced a ha
      rw [toNat_ofNat, Nat.mod_eq_of_lt (by omega)]
    refine ⟨?_, ?_⟩ <;> rw [hpairs]
    · simp only [List.forall_mem_map]
      intro a ha x s hat
      obtain ⟨rfl, rfl⟩ := (allocation_at σ a).unique hat
      have hpos := hplaced a ha
      refine ⟨fun hzero => ?_, by rw [htoNat a ha]; exact hpos.2⟩
      have := (htoNat a ha).symm.trans (congrArg BitVec.toNat hzero)
      simp only [ofNat_eq_ofNat, toNat_ofNat, Nat.zero_mod] at this
      omega
    · rw [pairwise_map]
      refine hapart.imp_of_mem fun {a b} ha hb hab x s y t hx hy => ?_
      obtain ⟨rfl, rfl⟩ := (allocation_at σ a).unique hx
      obtain ⟨rfl, rfl⟩ := (allocation_at σ b).unique hy
      rw [htoNat a ha, htoNat b hb]
      exact hab
  valid := by
    obtain ⟨valid, hv⟩ := Option.isSome_iff_exists.mp hvalid
    refine ⟨valid, hv, fun σ hσ => hσ valid ?_⟩
    change valid ∈ ((heap addresses).checkValid .full pointer (literal 1)).toList
    simp [hv]

end Sample

open Sample

end Caffeine
