import Caffeine.Interpreter.MemoryForksSound
import Caffeine.Interpreter.MemsetReturns

/-!
# Where `llvm.memset` is exact

The frame returns for every allocation the destination may lie in and every length, with all models
of the path condition. The returned contexts divide the models only if there is one of them: if the
path condition determines the length and the allocation. Then the loop stores the fill byte where it
should.
-/

namespace Caffeine

open Operation Assertion OperationSimplifier LittleEndian List Option

variable {id : AllocId} {l fuel : Nat} {b : BitVec 8}

namespace Memset

variable {G : Type} [PathGraph G] {n : Nat} {shared : CaffeineContext}
  {val len offset : Operation} {queries k : Nat} {t : Task G} {ls : List Nat}

/-! ### Valid destinations -/

variable {x : BitVec n}

section Destination

variable {m : Nat} {σ : Assignment} {ctx ctx' : Context G} {heap : MemHeap} {ptr p : Pointer}
  {e : AllocId × Allocation}

def OffsetIn (σ : Assignment) (ptr : Pointer) (e : AllocId × Allocation) (x : BitVec n) : Prop :=
  match ptr.alloc with
  | some id => id = e.1 ∧ Denotes σ ptr.offset x
  | none => ∃ a v : BitVec n, Denotes σ e.2.address a ∧ Denotes σ ptr.offset v ∧ a ≤ v ∧ x = v - a

def Within (n : Nat) (σ : Assignment) (ptr : Pointer) (e : AllocId × Allocation) (l : Nat) : Prop :=
  ∃ s x : BitVec n, Denotes σ e.2.size s ∧ OffsetIn σ ptr e x ∧ x.toNat + l ≤ s.toNat

def MayHit (n : Nat) (ctx : Context G) (ptr : Pointer) (e : AllocId × Allocation) : Prop :=
  ∃ σ, Models σ ctx.assertions ∧ Within n σ ptr e 1

/-- The destination is valid for the length in every model, in a separated heap. Pointers have `n`
bits and lengths `m`. -/
structure Valid (n m : Nat) (ctx : Context G) (heap : MemHeap) (ptr : Pointer)
    (val len : Operation) : Prop where
  points : Points n ctx heap ptr
  live : ∀ id, ptr.alloc = some id → id ∈ heap.allocs
  byte : val.IsInt 8
  length : len.IsInt m
  running : ctx.stack ≠ []
  separated : ∀ σ, Models σ ctx.assertions → heap.Separated n σ
  contents : ∀ σ, Models σ ctx.assertions → ∀ e ∈ heap.allocs.pairs, ∀ s : BitVec n,
    Denotes σ e.2.size s → ∃ f : BitVec n → BitVec 8, Contents σ e.2.data s.toNat f
  writable : ∀ e ∈ heap.allocs.pairs, MayHit n ctx ptr e → e.2.permissions.write = true
  valid : ∀ σ, Models σ ctx.assertions → ∀ l : BitVec m, Denotes σ len l →
    ∃ e ∈ heap.allocs.pairs, Within n σ ptr e l.toNat

theorem offsetIn_resolved (hid : ptr.alloc = some id) :
    OffsetIn σ ptr e x ↔ id = e.1 ∧ Denotes σ ptr.offset x := by
  simp only [OffsetIn, hid]

theorem offsetIn_absolute (hid : ptr.alloc = none) : OffsetIn σ ptr e x ↔
    ∃ a v : BitVec n, Denotes σ e.2.address a ∧ Denotes σ ptr.offset v ∧ a ≤ v ∧ x = v - a := by
  simp only [OffsetIn, hid]

theorem OffsetIn.unique {y : BitVec n} (hx : OffsetIn σ ptr e x) (hy : OffsetIn σ ptr e y) :
    x = y := by
  cases hid : ptr.alloc with
  | some id => exact ((offsetIn_resolved hid).mp hx).2.unique ((offsetIn_resolved hid).mp hy).2
  | none =>
    obtain ⟨a, v, ha, hv, -, rfl⟩ := (offsetIn_absolute hid).mp hx
    obtain ⟨a', v', ha', hv', -, rfl⟩ := (offsetIn_absolute hid).mp hy
    rw [ha.unique ha', hv.unique hv']

theorem Within.mono {l' : Nat} (h : Within n σ ptr e l) (hl : l' ≤ l) : Within n σ ptr e l' := by
  obtain ⟨s, x, hs, hx, hle⟩ := h
  exact ⟨s, x, hs, hx, by omega⟩

theorem Within.bounds {s : BitVec n} (h : Within n σ ptr e l) (hs : Denotes σ e.2.size s)
    (hx : OffsetIn σ ptr e x) : x.toNat + l ≤ s.toNat := by
  obtain ⟨s', x', hs', hx', hle⟩ := h
  rwa [hs.unique hs', hx.unique hx']

theorem checkValid_holds (hp : Points n ctx heap ptr)
    (hlive : ∀ id, ptr.alloc = some id → id ∈ heap.allocs) (hlen : len.IsInt n)
    (hsep : ∀ σ, Models σ ctx.assertions → heap.Separated n σ)
    (hwithin : ∀ σ, Models σ ctx.assertions → ∀ l : BitVec n, Denotes σ len l →
      ∃ e ∈ heap.allocs.pairs, Within n σ ptr e l.toNat) (cache : OperationCache) :
    ∃ valid, heap.checkValid cache ptr len = some valid ∧
      ∀ σ, Models σ ctx.assertions → valid.Holds σ := by
  cases hid : ptr.alloc with
  | some id =>
    obtain ⟨alloc, hl⟩ := Map.exists_lookup (hlive id hid)
    have hasrt : ∀ σ, ∃ o s w : BitVec n, Denotes σ ptr.offset o ∧ Denotes σ alloc.size s ∧
        Denotes σ len w ∧ Asserts σ (heap.checkValid cache ptr len) (o ≤ s - w) := by
      intro σ
      obtain ⟨a, s, hat⟩ := hp.typed.at σ (Map.mem_pairs.mpr hl)
      obtain ⟨o, ho⟩ := hp.offset.denotes σ
      obtain ⟨w, hw⟩ := hlen.denotes σ
      exact ⟨o, s, w, ho, hat.size, hw, MemHeap.checkValid_resolved hid hl hat ho hw⟩
    obtain ⟨-, -, -, -, -, -, valid, hvalid, -⟩ := hasrt default
    refine ⟨valid, hvalid, fun σ hσ => ?_⟩
    obtain ⟨o, s, w, ho, hs, hw, hassert⟩ := hasrt σ
    obtain ⟨⟨id', alloc'⟩, he, s', x, hs', hx, hle⟩ := hwithin σ hσ w hw
    obtain ⟨rfl, ho'⟩ := (offsetIn_resolved hid).mp hx
    cases Map.lookup_unique hl (Map.mem_pairs.mp he)
    cases hs.unique hs'
    cases ho.unique ho'
    rw [hassert.holds_iff hvalid, BitVec.le_def,
      BitVec.toNat_sub_of_le (by rw [BitVec.le_def]; omega)]
    omega
  | none =>
    have hasrt : ∀ σ, ∃ v w : BitVec n, Denotes σ ptr.offset v ∧ Denotes σ len w ∧
        Asserts σ (heap.checkValid cache ptr len) (v ≠ 0 ∧ ∃ e ∈ heap.allocs.pairs,
          ∃ a s : BitVec n, e.2.At σ a s ∧ a ≤ v ∧ v ≤ a + (s - w)) := by
      intro σ
      obtain ⟨v, hv⟩ := hp.offset.denotes σ
      obtain ⟨w, hw⟩ := hlen.denotes σ
      exact ⟨v, w, hv, hw, MemHeap.checkValid_unresolved hp.typed hid hv hw⟩
    obtain ⟨-, -, -, -, valid, hvalid, -⟩ := hasrt default
    refine ⟨valid, hvalid, fun σ hσ => ?_⟩
    obtain ⟨v, w, hv, hw, hassert⟩ := hasrt σ
    obtain ⟨e, he, s, x, hs, hx, hle⟩ := hwithin σ hσ w hw
    obtain ⟨a, v', ha, hv', hav, rfl⟩ := (offsetIn_absolute hid).mp hx
    cases hv.unique hv'
    obtain ⟨hne, hwrap⟩ := (hsep σ hσ).placed e he a s ⟨ha, hs⟩
    have hwid : BitVec.ofNat n w.toNat = w := by simp
    obtain ⟨htest, -⟩ := (toNat_sub_add_le_iff hwrap).mp hle
    rw [hwid] at htest
    refine (hassert.holds_iff hvalid).mpr ⟨?_, e, he, a, s, ⟨ha, hs⟩, htest⟩
    rintro rfl
    apply hne
    have hzero : a.toNat ≤ 0 := by simpa [BitVec.le_def] using hav
    exact BitVec.eq_of_toNat_eq (by simpa using hzero)

structure Targets (n : Nat) (heap : MemHeap) (ptr : Pointer) (e : AllocId × Allocation)
    (p : Pointer) : Prop where
  mem : e ∈ heap.allocs.pairs
  alloc : p.alloc = some e.1
  heap : p.heap = ptr.heap
  offset : ∀ σ, ∃ y : BitVec n, Denotes σ p.offset y ∧ ∀ x, OffsetIn σ ptr e x → y = x

variable {c : Assertion} {allowed : Assertion → Prop}

omit [PathGraph G] in
theorem holds_checkInbounds_iff {alloc : Allocation} (hp : Points n ctx heap ptr)
    (hid : ptr.alloc = some id) (hl : heap.allocs.lookup id = some alloc)
    (hc : alloc.checkInbounds shared.cache ptr.offset (ptr.offset.literal 0) = some c) :
    c.Holds σ ↔ Within n σ ptr (id, alloc) 1 := by
  obtain ⟨a, s, hat⟩ := hp.typed.at σ (Map.mem_pairs.mpr hl)
  obtain ⟨o, ho⟩ := hp.offset.denotes σ
  have hoff : OffsetIn σ ptr (id, alloc) o := (offsetIn_resolved hid).mpr ⟨rfl, ho⟩
  rw [(hat.checkInbounds_asserts ho (denotes_literal ho 0)).holds_iff hc, BitVec.add_zero,
    BitVec.le_def, BitVec.lt_def]
  constructor
  · rintro ⟨-, hlt⟩
    exact ⟨s, o, hat.size, hoff, hlt⟩
  · intro hwithin
    have := hwithin.bounds hat.size hoff
    omega

omit [PathGraph G] in
theorem holds_contains_iff (hp : Points n ctx heap ptr) (hid : ptr.alloc = none)
    (hsep : heap.Separated n σ) (he : e ∈ heap.allocs.pairs)
    (hc : e.2.contains shared.cache ptr.offset = some c) : c.Holds σ ↔ Within n σ ptr e 1 := by
  obtain ⟨a, s, hat⟩ := hp.typed.at σ he
  obtain ⟨v, hv⟩ := hp.offset.denotes σ
  have hwrap := (hsep.placed e he a s hat).2
  rw [(hat.contains_asserts hv).holds_iff hc, BitVec.le_def, BitVec.lt_def,
    BitVec.toNat_add_of_lt hwrap]
  constructor
  · rintro ⟨hle, hlt⟩
    have hle' : a ≤ v := BitVec.le_def.mpr hle
    refine ⟨s, v - a, hat.size, (offsetIn_absolute hid).mpr ⟨a, v, hat.address, hv, hle', rfl⟩, ?_⟩
    rw [BitVec.toNat_sub_of_le hle']
    omega
  · rintro ⟨s', x, hs', hx, hle⟩
    obtain ⟨a', v', ha', hv', hav, rfl⟩ := (offsetIn_absolute hid).mp hx
    cases hat.address.unique ha'
    cases hv.unique hv'
    cases hat.size.unique hs'
    rw [BitVec.toNat_sub_of_le hav] at hle
    rw [BitVec.le_def] at hav
    omega

omit [PathGraph G] in
theorem holds_inside_iff (hp : Points n ctx heap ptr) (hsep : heap.Separated n σ)
    (he : e ∈ heap.candidates ptr) (hc : e.2.inside shared.cache ptr = some c) :
    c.Holds σ ↔ Within n σ ptr e 1 := by
  have hmem := MemHeap.mem_pairs_of_candidates he
  cases hid : ptr.alloc with
  | some id =>
    simp only [MemHeap.candidates, hid, List.mem_map, mem_toList] at he
    obtain ⟨alloc, hl, rfl⟩ := he
    simp only [Allocation.inside, Pointer.isResolved, hid, isSome_some, if_true] at hc
    exact holds_checkInbounds_iff hp hid hl hc
  | none =>
    simp only [Allocation.inside, Pointer.isResolved, hid, isSome_none, Bool.false_eq_true,
      if_false] at hc
    exact holds_contains_iff hp hid hsep hmem hc

theorem mem_candidates_of_within (h : Within n σ ptr e l) (he : e ∈ heap.allocs.pairs) :
    e ∈ heap.candidates ptr := by
  obtain ⟨s, x, -, hx, -⟩ := h
  cases hid : ptr.alloc with
  | none => simpa only [MemHeap.candidates, hid] using he
  | some id =>
    obtain ⟨rfl, -⟩ := (offsetIn_resolved hid).mp hx
    simp [MemHeap.candidates, hid, Map.mem_pairs.mp he]

omit [PathGraph G] in
theorem ResolvesTo.targets (h : ResolvesTo shared.cache heap ptr p e.2) (hp : Points n ctx heap ptr)
    (he : e ∈ heap.allocs.pairs) (hal : p.alloc = some e.1) (hheap : p.heap = ptr.heap) :
    Targets n heap ptr e p := by
  refine ⟨he, hal, hheap, fun σ => ?_⟩
  obtain ⟨v, hv⟩ := hp.offset.denotes σ
  cases h with
  | same hid _ => exact ⟨v, hv, fun x hx => hv.unique ((offsetIn_resolved hid).mp hx).2⟩
  | relative hid _ hsub =>
    obtain ⟨a, s, hat⟩ := hp.typed.at σ he
    refine ⟨v - a, (createSub_returns hv hat.address).denotes hsub, fun x hx => ?_⟩
    obtain ⟨a', v', ha', hv', -, rfl⟩ := (offsetIn_absolute hid).mp hx
    rw [hat.address.unique ha', hv.unique hv']

theorem targets (hp : Points n ctx heap ptr)
    (hsep : ∀ σ, Models σ ctx.assertions → heap.Separated n σ) (hex : shared.solver.Exact)
    (hafter : ctx.After allowed ctx') (queries : Nat) : ∃ pointers es queries',
      heap.resolve shared.cache (ctx'.solver shared) ctx'.assertions queries ptr =
        some (pointers, queries') ∧
      Forall₂ (fun e p => Targets n heap ptr e p ∧ ResolvesTo shared.cache heap ptr p e.2)
        es pointers ∧ es.Nodup ∧ ∀ e, e ∈ es ↔ e ∈ heap.allocs.pairs ∧ MayHit n ctx ptr e := by
  obtain ⟨pointers, queries', hrsv, hall⟩ := MemHeap.resolve_eq shared.cache
    (ctx'.solver shared) ctx'.assertions queries hp.index hp.typed hp.offset
  have hkept : ∀ query ∈ (heap.candidates ptr).zipIdx queries,
      (MemHeap.kept shared.cache (ctx'.solver shared) ctx'.assertions ptr query = true ↔
        MayHit n ctx ptr query.1) := by
    intro query hqry
    have he := fst_mem_of_mem_zipIdx hqry
    obtain ⟨c, hc⟩ := MemHeap.inside_returns shared.cache hp.typed hp.offset
      (MemHeap.mem_pairs_of_candidates he)
    simp only [MemHeap.kept, hc, any_some, decide_eq_true_eq]
    refine (hafter.check_ne_unsat hex _ _).trans ?_
    exact exists_congr fun σ => and_congr_right fun hσ => holds_inside_iff hp (hsep σ hσ) he hc
  refine ⟨pointers, _, queries', hrsv, forall₂_map_left_iff (f := Prod.fst).mpr
    (((forall₂_and_left _ _).mpr ⟨fun query hq => fst_mem_of_mem_zipIdx
      (mem_filter.mp hq).1, hall⟩).imp ?_), ?_, fun e => ?_⟩
  · rintro query p ⟨he, hal, hheap, hto⟩
    exact ⟨ResolvesTo.targets hto hp (MemHeap.mem_pairs_of_candidates he) hal hheap, hto⟩
  · have hsub := (filter_sublist
      (p := MemHeap.kept shared.cache (ctx'.solver shared) ctx'.assertions ptr)
      (l := (heap.candidates ptr).zipIdx queries)).map Prod.fst
    rw [zipIdx_map_fst] at hsub
    exact hsub.nodup heap.nodup_candidates
  · constructor
    · intro he
      obtain ⟨query, hqry, rfl⟩ := List.mem_map.mp he
      obtain ⟨hmem, hholds⟩ := mem_filter.mp hqry
      exact ⟨MemHeap.mem_pairs_of_candidates (fst_mem_of_mem_zipIdx hmem),
        (hkept query hmem).mp hholds⟩
    · rintro ⟨he, hmay⟩
      have hcandidate : e ∈ heap.candidates ptr :=
        hmay.elim fun _ h => mem_candidates_of_within h.2 he
      rw [← zipIdx_map_fst queries (heap.candidates ptr)] at hcandidate
      obtain ⟨query, hqry, rfl⟩ := List.mem_map.mp hcandidate
      exact List.mem_map_of_mem (mem_filter.mpr ⟨hqry, (hkept query hqry).mpr hmay⟩)

/-! ### The entry of the frame -/

def started (t : Task G) (len : Operation) (p : Pointer) : Task G where
  frame := { t.frame with state := .head, dst := some p, offset := some (len.literal 0) }
  context := Interpreter.resolving t.context

theorem Valid.exists_checkValid (h : Valid n m ctx heap ptr val len)
    (hwid : m = n ∨ heap.allocs.pairs = []) (shared : CaffeineContext) :
    ∃ valid, heap.checkValid shared.cache ptr len = some valid ∧ (∀ σ, ∃ P, Decides σ valid P) ∧
      ∀ σ, Models σ ctx.assertions → valid.Holds σ := by
  obtain rfl | hpairs := hwid
  · obtain ⟨valid, hvalid, hholds⟩ :=
      checkValid_holds h.points h.live h.length h.separated h.valid shared.cache
    exact ⟨valid, hvalid, Interpreter.checkValid_decides h.points h.length hvalid, hholds⟩
  · have hid : ptr.alloc = none := by
      cases hid : ptr.alloc with
      | none => rfl
      | some id =>
        obtain ⟨alloc, hl⟩ := Map.exists_lookup (h.live id hid)
        have hmem := Map.mem_pairs.mpr hl
        rw [hpairs] at hmem
        cases hmem
    -- without allocations the test does not look at the length
    have hsame : heap.checkValid shared.cache ptr len =
        heap.checkValid shared.cache ptr (ptr.offset.literal 0) := by
      simp only [MemHeap.checkValid, hid, hpairs, foldlM_nil]
    obtain ⟨v, hv⟩ := h.points.offset.denotes default
    obtain ⟨valid, hvalid, -⟩ : Asserts default (heap.checkValid shared.cache ptr _) _ :=
      MemHeap.checkValid_unresolved h.points.typed hid hv (denotes_literal hv 0)
    refine ⟨valid, hsame.trans hvalid, Interpreter.checkValid_decides h.points
      (Interpreter.isInt_literal h.points 0) hvalid, ?_⟩
    intro σ hσ
    obtain ⟨l, hl⟩ := h.length.denotes σ
    obtain ⟨e, he, -⟩ := h.valid σ hσ l hl
    rw [hpairs] at he
    cases he

theorem Valid.enter_eq (h : Valid n m t.context heap ptr val len) (hex : shared.solver.Exact)
    (hkeeps : Kept t.context) (hwid : m = n ∨ heap.allocs.pairs = [])
    (hptr : t.frame.args[0]? = some (.scalar (.pointer ptr))) (queries : Nat) :
    ∃ pointers es queries', enter shared queries t len =
        some { tasks := pointers.map (started t len), queries := queries' } ∧
      Forall₂ (Targets n heap ptr) es pointers ∧ es.Nodup ∧
      ∀ e, e ∈ es ↔ e ∈ heap.allocs.pairs ∧ MayHit n t.context ptr e := by
  obtain ⟨valid, hvalid, hdec, hholds⟩ := h.exists_checkValid hwid shared
  obtain ⟨pointers, es, queries', hrsv, htargets⟩ :=
    targets h.points h.separated hex (Interpreter.after_resolving hkeeps) (queries + 1)
  refine ⟨pointers, es, queries', ?_, htargets.1.imp fun _ _ => And.left, htargets.2⟩
  let interp : InterpreterContext G := ⟨{ context := t.context }, [], queries, []⟩
  have hassert : interp.assertPtrValid shared ptr len "invalid pointer write" = _ :=
    Interpreter.assertPtrValid_eq hex.sat rfl h.points.lookup hvalid hdec hkeeps hholds
  have henter : interp.resolvePtrWidth shared ptr len "invalid pointer write" = _ :=
    Interpreter.resolvePtrWidth_eq hassert rfl h.points.lookup hrsv
  simp only [enter, hptr, LLVMValue.pointer?, some_bind]
  exact congrArg (Option.bind · _) henter

theorem Valid.enter_sole (h : Valid n m t.context heap ptr val len) (hex : shared.solver.Exact)
    (hkeeps : Kept t.context) (hwid : m = n ∨ heap.allocs.pairs = [])
    (hptr : t.frame.args[0]? = some (.scalar (.pointer ptr)))
    (he : e ∈ heap.allocs.pairs ∧ MayHit n t.context ptr e)
    (huniq : ∀ e', e' ∈ heap.allocs.pairs ∧ MayHit n t.context ptr e' → e' = e) (queries : Nat) :
    ∃ p queries', enter shared queries t len =
      some { tasks := [started t len p], queries := queries' } ∧ Targets n heap ptr e p := by
  obtain ⟨pointers, es, queries', henter, htargets, hnd, hes⟩ :=
    h.enter_eq hex hkeeps hwid hptr queries
  obtain rfl : es = [e] := by
    by_contra hne
    rcases (hnd.ne_singleton_iff e).mp hne with rfl | ⟨e', he', hne'⟩
    · exact (nomatch (hes e).mpr he)
    · exact hne' (huniq e' ((hes e').mp he'))
  cases htargets with
  | cons hp hrest =>
    cases hrest
    exact ⟨_, queries', henter, hp⟩

theorem createBinary_eq_none {cache : OperationCache} {op : BinaryOpcode} {l r : Operation}
    (hl : l.type = .int n) (hr : r.type = .int m) (hne : m ≠ n) :
    createBinary cache op l r = none := by
  simp [createBinary, Operation.create, OperationData.accepts, hl, hr, hne]

theorem Valid.enter_none (h : Valid n m t.context heap ptr val len) (hne : m ≠ n)
    (hpairs : heap.allocs.pairs ≠ []) (hptr : t.frame.args[0]? = some (.scalar (.pointer ptr)))
    (queries : Nat) : enter shared queries t len = none := by
  have hsub : ∀ e ∈ heap.allocs.pairs, createBinary shared.cache .sub e.2.size len = none :=
    fun e he => createBinary_eq_none (h.points.typed.size e he).type h.length.type hne
  have hchk : heap.checkValid shared.cache ptr len = none := by
    cases hid : ptr.alloc with
    | some id =>
      obtain ⟨alloc, hl⟩ := Map.exists_lookup (h.live id hid)
      simp only [MemHeap.checkValid, hid, hl, hsub _ (Map.mem_pairs.mpr hl), bind_eq_bind,
        bind_none]
    | none =>
      obtain ⟨e, es, hes⟩ := exists_cons_of_ne_nil hpairs
      have he : e ∈ heap.allocs.pairs := by
        rw [hes]
        exact mem_cons_self
      simp only [MemHeap.checkValid, hid, Pointer.value, hes, foldlM_cons, Allocation.validAt,
        hsub e he, bind_eq_bind, bind_none, bind_some]
  have hlook := h.points.lookup
  simp only [enter, hptr, LLVMValue.pointer?, InterpreterContext.resolvePtrWidth,
    InterpreterContext.assertPtrValid, InterpreterContext.isDead, InterpreterContext.context,
    InterpreterContext.setContext, Map.emplace_of_lookup hlook, hlook, hchk,
    bind_eq_bind, bind_some, bind_none, Bool.false_eq_true, if_false]

/-! ### The loop over one allocation -/

structure Filling (n : Nat) (ctx : Context G) (heap : MemHeap) (ptr : Pointer) (val : Operation)
    (e : AllocId × Allocation) (k : Nat) (r : Context G) : Prop where
  keeps : Kept r
  models : ∀ σ, Models σ r.assertions ↔ Models σ ctx.assertions
  stack : r.stack = ctx.stack
  others : ∀ h, h ≠ ptr.heap → r.heaps.lookup h = ctx.heaps.lookup h
  filled : ∃ heap' data, r.heaps.lookup ptr.heap = some heap' ∧ heap'.index = heap.index ∧
    (∀ id, heap'.allocs.lookup id =
      if id = e.1 then some { e.2 with data := data } else heap.allocs.lookup id) ∧
    (k = 0 → data = e.2.data) ∧
    ∀ σ, Models σ ctx.assertions → ∀ (s x : BitVec n) (f : BitVec n → BitVec 8) (b : BitVec 8),
      Denotes σ e.2.size s → Contents σ e.2.data s.toNat f → OffsetIn σ ptr e x →
      Denotes σ val b → Contents σ data s.toNat (splice f x (fun _ => b) k)

theorem Filling.start (hp : Points n ctx heap ptr) (he : e ∈ heap.allocs.pairs)
    (hafter : ctx.After (fun _ => False) ctx') : Filling n ctx heap ptr val e 0 ctx' where
  keeps := hafter.keeps
  models := hafter.models
  stack := hafter.stack
  others _ _ := by rw [hafter.heaps]
  filled := by
    refine ⟨heap, e.2.data, by rw [hafter.heaps, hp.lookup], rfl, fun id => ?_, fun _ => rfl,
      fun σ _ s x f b _ hf _ _ => hf⟩
    by_cases hid : id = e.1
    · rw [if_pos hid, hid]
      exact Map.mem_pairs.mp he
    · rw [if_neg hid]

theorem Filling.asked {r : Context G} (hr : Filling n ctx heap ptr val e k r) :
    Filling n ctx heap ptr val e k r.asked :=
  have hafter := (Context.After.refl hr.keeps).asked
  ⟨hafter.keeps, fun σ => (hafter.models σ).trans (hr.models σ), hr.stack, hr.others, hr.filled⟩

theorem Filling.body {r : Context G} (h : Valid n n ctx heap ptr val len)
    (hp : Targets n heap ptr e p) (hmay : MayHit n ctx ptr e)
    (hwithin : ∀ σ, Models σ ctx.assertions → Within n σ ptr e l)
    (hr : Filling n ctx heap ptr val e k r) (hk : k < l) (hcnt : IsCount n offset k)
    (hctx : t.context = r) (hdst : t.frame.dst = some p) (hoff : t.frame.offset = some offset) :
    ∃ next r', IsCount n next (k + 1) ∧ Filling n ctx heap ptr val e (k + 1) r' ∧
      Memset.body shared queries t val = some {
        tasks := [{ frame := { t.frame with state := .head, offset := some next }, context := r' }]
        queries := queries } := by
  subst hctx
  obtain ⟨id, poffset, pheap⟩ := p
  obtain rfl : pheap = ptr.heap := hp.heap
  obtain rfl : id = some e.1 := hp.alloc
  obtain ⟨heap', data, hheap, hidx, hallocs, -, hcont⟩ := hr.filled
  have hwrite := h.writable e hp.mem hmay
  have hal : heap'.allocs.lookup e.1 = some { e.2 with data := data } := by
    rw [hallocs, if_pos rfl]
  have hptr : t.context.ptrAllocation ⟨some e.1, poffset, ptr.heap⟩ =
    some { e.2 with data := data } := by
    simp only [Context.ptrAllocation, hheap, hal, some_bind]
  have hadd : ∀ σ, ∃ y : BitVec n, (∀ x, OffsetIn σ ptr e x → y = x) ∧
      Returns σ (createBinary shared.cache .add poffset offset) (y + BitVec.ofNat n k) := by
    intro σ
    obtain ⟨y, hy, huniq⟩ := hp.offset σ
    exact ⟨y, huniq, createAdd_returns hy (hcnt σ)⟩
  obtain ⟨-, -, index, hidxEq, -⟩ := hadd default
  obtain ⟨next, hnext, -⟩ : Returns default (createBinaryLiteral shared.cache .add offset 1) _ :=
    createBinaryLiteral_returns 1 (hcnt default) rfl trivial
  have hnextCount : IsCount n next (k + 1) := by
    intro σ
    have hd : Returns σ (createBinaryLiteral shared.cache .add offset 1) _ :=
      createBinaryLiteral_returns 1 (hcnt σ) rfl trivial
    rw [BitVec.ofNat_add]
    exact hd.denotes hnext
  -- the folded store is the same expression in every model
  have hsto : ∀ σ, Models σ ctx.assertions → ∀ (s x : BitVec n) (f : BitVec n → BitVec 8)
      (b : BitVec 8), Denotes σ e.2.size s → Contents σ e.2.data s.toNat f → OffsetIn σ ptr e x →
      Denotes σ val b → ∃ folded,
        createArray shared.cache (.store data.type) [data, index, val] = some folded ∧
        Contents σ folded s.toNat (splice f x (fun _ => b) (k + 1)) := by
    intro σ hσ s x f b hs hf hx hb
    obtain ⟨y, huniq, hret⟩ := hadd σ
    have hin := (hwithin σ hσ).bounds hs hx
    have hlt := s.isLt
    obtain ⟨folded, hfolded, hnew, -⟩ : ∃ folded,
        createArray shared.cache (.store data.type) [data, index, val] = some folded ∧ _ :=
      createStore_contents
      (hcont σ hσ s x f b hs hf hx hb) (hret.denotes hidxEq) hb (by
        rw [huniq x hx, toNat_add_ofNat (by omega)]
        omega)
    rw [huniq x hx] at hnew
    exact ⟨folded, hfolded, hnew⟩
  obtain ⟨σ, hσ, s, x, hs, hx, -⟩ := hmay
  obtain ⟨f, hf⟩ := h.contents σ hσ e hp.mem s hs
  obtain ⟨b, hb⟩ := h.byte.denotes σ
  obtain ⟨folded, hfolded, -⟩ := hsto σ hσ s x f b hs hf hx hb
  let written : MemHeap :=
    { heap' with allocs := heap'.allocs.replace e.1 { e.2 with data := folded } }
  refine ⟨next, { t.context with heaps := t.context.heaps.insert ptr.heap written }, hnextCount,
    ⟨hr.keeps, hr.models, hr.stack, fun h hne => ?_, ?_⟩, ?_⟩
  · rw [← hr.others h hne]
    exact AList.lookup_insert_ne hne
  · refine ⟨_, folded, AList.lookup_insert _, hidx, fun id => ?_, (fun hzero => by cases hzero), ?_⟩
    · rw [Map.lookup_replace (Map.mem_of_lookup hal), hallocs]
      split_ifs <;> rfl
    · intro σ hσ s x f b hs hf hx hb
      obtain ⟨folded', hfolded', hnew⟩ := hsto σ hσ s x f b hs hf hx hb
      cases some.inj (hfolded.symm.trans hfolded')
      exact hnew
  · simp only [Memset.body, hdst, hoff, hptr, hidxEq, hfolded, hnext, Allocation.overwrite,
      hwrite, Context.setAllocation, hheap, some_bind, if_true]
    rfl

structure Task.AtHead (n : Nat) (val len : Operation) (p : Pointer) (k : Nat) (t : Task G) :
    Prop where
  val : t.frame.args[1]?.bind LLVMValue.expr? = some val
  len : t.frame.args[2]?.bind LLVMValue.expr? = some len
  state : t.frame.state = .head
  dst : t.frame.dst = some p
  offset : ∃ offset, t.frame.offset = some offset ∧ IsCount n offset k

theorem Filling.head {l : BitVec n} (hex : shared.solver.Exact) (h : Valid n n ctx heap ptr val len)
    (hmdl : ∃ σ, Models σ ctx.assertions) (hl : ∀ σ, Models σ ctx.assertions → Denotes σ len l)
    (hr : Filling n ctx heap ptr val e k t.context) (hk : k ≤ l.toNat) (ht : t.AtHead n val len p k)
    : step shared queries t = some (
      if k < l.toNat then
        ⟨[⟨{ t.frame with state := .body }, t.context.asked.asked⟩], [], queries + 2⟩
      else ⟨[], [t.context.asked.asked], queries + 2⟩) := by
  obtain ⟨offset, hoff, hcnt⟩ := ht.offset
  have hone : ∀ P : Nat → Prop, (∃ σ, Models σ ctx.assertions ∧
      ∃ l' : BitVec n, Denotes σ len l' ∧ P l'.toNat) ↔ P l.toNat := by
    intro P
    constructor
    · rintro ⟨σ, hσ, l', hl', hP⟩
      rwa [(hl σ hσ).unique hl']
    · obtain ⟨σ, hσ⟩ := hmdl
      exact fun hP => ⟨σ, hσ, l, hl σ hσ, hP⟩
  obtain ⟨tasks, returned, hhead, htasks, hret⟩ :
      ∃ tasks returned, Memset.head shared queries t len = _ ∧ _ :=
    head_eq hex hr.keeps h.length hoff hcnt (hk.trans_lt l.isLt)
      (by rw [hr.stack]; exact h.running)
  simp only [Longer, Over, hr.models] at htasks hret
  rw [hone (k < ·)] at htasks
  rw [hone (· ≤ k)] at hret
  rw [step_eq ht.val ht.len, ht.state]
  refine hhead.trans ?_
  by_cases hlt : k < l.toNat
  · obtain ⟨-, rfl⟩ := htasks.resolve_right fun hend => hend.1 hlt
    obtain ⟨-, rfl⟩ := hret.resolve_left fun hend => by omega
    rw [if_pos hlt]
  · obtain ⟨-, rfl⟩ := htasks.resolve_left fun hgo => hlt hgo.1
    obtain ⟨-, rfl⟩ := hret.resolve_right fun hgo => by omega
    rw [if_neg hlt]

theorem Filling.loop {l : BitVec n} {d : Nat} (hex : shared.solver.Exact)
    (h : Valid n n ctx heap ptr val len) (hp : Targets n heap ptr e p) (hmay : MayHit n ctx ptr e)
    (hl : ∀ σ, Models σ ctx.assertions → Denotes σ len l)
    (hwithin : 0 < l.toNat → ∀ σ, Models σ ctx.assertions → Within n σ ptr e l.toNat)
    (hr : Filling n ctx heap ptr val e k t.context) (hd : k + d = l.toNat)
    (ht : t.AtHead n val len p k) (queries : Nat) :
    ∃ fuel r, run shared fuel { tasks := [t], queries := queries } = some [r] ∧
      Filling n ctx heap ptr val e l.toNat r := by
  have hmdl : ∃ σ, Models σ ctx.assertions := hmay.imp fun _ hσ => hσ.1
  induction d generalizing k t queries with
  | zero =>
    have hstep : step shared queries t = _ := hr.head hex h hmdl hl (by omega) ht
    rw [if_neg (by omega)] at hstep
    refine ⟨1, t.context.asked.asked, ?_, hd ▸ hr.asked.asked⟩
    exact run_step hstep
  | succ d ih =>
    have hstep : step shared queries t = _ := hr.head hex h hmdl hl (by omega) ht
    rw [if_pos (by omega)] at hstep
    obtain ⟨offset, hoff, hcnt⟩ := ht.offset
    obtain ⟨next, r, hnext, hfilling, hbody⟩ : ∃ next r, _ ∧ _ ∧
        Memset.body shared (queries + 2) ⟨{ t.frame with state := .body }, t.context.asked.asked⟩
          val = _ :=
      Filling.body h hp hmay (hwithin (by omega)) hr.asked.asked (by omega) hcnt rfl ht.dst hoff
    obtain ⟨fuel, r', hrun, hdone⟩ := ih
      (t := ⟨{ t.frame with state := .head, offset := some next }, r⟩) hfilling (by omega)
      ⟨ht.val, ht.len, rfl, ht.dst, next, rfl, hnext⟩ (queries + 2)
    refine ⟨fuel + 2, r', ?_, hdone⟩
    have hstep' : step shared (queries + 2)
        ⟨{ t.frame with state := .body }, t.context.asked.asked⟩ = _ :=
      (step_eq (t := ⟨{ t.frame with state := .body }, t.context.asked.asked⟩) ht.val
        ht.len).trans hbody
    exact (run_step hstep).trans ((run_step hstep').trans hrun)

/-! ### Exact contexts -/

def InRange (σ : Assignment) (ptr : Pointer) (e : AllocId × Allocation) (l : Nat) (i : BitVec n) :
    Prop :=
  ∃ x : BitVec n, OffsetIn σ ptr e x ∧ x.toNat ≤ i.toNat ∧ i.toNat < x.toNat + l

structure Stored (n : Nat) (σ : Assignment) (ptr : Pointer) (b : BitVec 8) (l : Nat) (id : AllocId)
    (alloc alloc' : Allocation) : Prop where
  address : alloc'.address = alloc.address
  size : alloc'.size = alloc.size
  kind : alloc'.kind = alloc.kind
  permissions : alloc'.permissions = alloc.permissions
  bytes : ∀ (s : BitVec n) (f : BitVec n → BitVec 8), Denotes σ alloc.size s →
    Contents σ alloc.data s.toNat f → ∃ f' : BitVec n → BitVec 8,
      Contents σ alloc'.data s.toNat f' ∧ ∀ i : BitVec n, i.toNat < s.toNat →
        (InRange σ ptr (id, alloc) l i → f' i = b) ∧
        (¬ InRange σ ptr (id, alloc) l i → f' i = f i)

structure Filled (n : Nat) (σ : Assignment) (ctx : Context G) (heap : MemHeap) (ptr : Pointer)
    (b : BitVec 8) (l : Nat) (r : Context G) : Prop where
  others : ∀ h, h ≠ ptr.heap → r.heaps.lookup h = ctx.heaps.lookup h
  filled : ∃ heap', r.heaps.lookup ptr.heap = some heap' ∧ heap'.index = heap.index ∧
    ∀ id, Option.Rel (Stored n σ ptr b l id) (heap.allocs.lookup id) (heap'.allocs.lookup id)

/-- The returned contexts partition the models of the path condition, and in their models exactly
the bytes from the destination on hold the fill byte. -/
structure Exact (n m : Nat) (ctx : Context G) (heap : MemHeap) (ptr : Pointer) (val len : Operation)
    (returned : List (Context G)) : Prop where
  partitions : PartitionsModels ctx.assertions returned
  filled : ∀ r ∈ returned, ∀ σ, Models σ r.assertions → ∀ (b : BitVec 8) (l : BitVec m),
    Denotes σ val b → Denotes σ len l → Filled n σ ctx heap ptr b l.toNat r

theorem Stored.refl {alloc : Allocation}
    (hout : ∀ s i : BitVec n, Denotes σ alloc.size s → i.toNat < s.toNat →
      ¬ InRange σ ptr (id, alloc) l i) : Stored n σ ptr b l id alloc alloc where
  address := rfl
  size := rfl
  kind := rfl
  permissions := rfl
  bytes s f hs hf := ⟨f, hf, fun i hi => ⟨fun hin => absurd hin (hout s i hs hi), fun _ => rfl⟩⟩

theorem splice_inRange {f : BitVec n → BitVec 8} {i : BitVec n} (hle : x.toNat ≤ i.toNat)
    (hlt : i.toNat < x.toNat + l) (hroom : x.toNat + l ≤ 2 ^ n) :
    splice f x (fun _ => b) l i = b := by
  have hi : i = x + BitVec.ofNat n (i.toNat - x.toNat) := by
    apply BitVec.eq_of_toNat_eq
    rw [toNat_add_ofNat (by omega)]
    omega
  rw [hi]
  exact splice_at (by omega) hroom

theorem Filling.exact {r : Context G} (he : e ∈ heap.allocs.pairs)
    (huniq : ∀ e' ∈ heap.allocs.pairs, MayHit n ctx ptr e' → e' = e)
    (hwithin : 0 < l → ∀ σ, Models σ ctx.assertions → Within n σ ptr e l)
    (hr : Filling n ctx heap ptr val e l r) (hσ : Models σ ctx.assertions) (hb : Denotes σ val b) :
    Filled n σ ctx heap ptr b l r := by
  obtain ⟨heap', data, hheap, hidx, hallocs, hzero, hcont⟩ := hr.filled
  refine ⟨hr.others, heap', hheap, hidx, fun id => ?_⟩
  rw [hallocs]
  by_cases hid : id = e.1
  · subst hid
    rw [if_pos rfl, Map.mem_pairs.mp he]
    rcases Nat.eq_zero_or_pos l with rfl | hpos
    · rw [hzero rfl]
      refine .some (Stored.refl fun s i hs hi hin => ?_)
      obtain ⟨x, -, hle, hlt⟩ := hin
      omega
    · refine .some ⟨rfl, rfl, rfl, rfl, fun s f hs hf => ?_⟩
      obtain ⟨-, x, -, hx, -⟩ := hwithin hpos σ hσ
      have hin := (hwithin hpos σ hσ).bounds hs hx
      have hroom : x.toNat + l ≤ 2 ^ n := by
        have := s.isLt
        omega
      refine ⟨_, hcont σ hσ s x f b hs hf hx hb, fun i hi => ⟨?_, fun hout => ?_⟩⟩
      · rintro ⟨x', hx', hle, hlt⟩
        obtain rfl := hx.unique hx'
        exact splice_inRange hle hlt hroom
      · refine splice_outside ?_ hroom
        by_contra hcon
        exact hout ⟨x, hx, by omega, by omega⟩
  · rw [if_neg hid]
    cases hl : heap.allocs.lookup id with
    | none => exact .none
    | some alloc =>
      refine .some (Stored.refl fun s i hs hi hin => hid ?_)
      obtain ⟨x, hx, hle, -⟩ := hin
      have hmay : MayHit n ctx ptr (id, alloc) := ⟨σ, hσ, s, x, hs, hx, by omega⟩
      rw [← huniq (id, alloc) (Map.mem_pairs.mpr hl) hmay]

/-! ### One pointer and one length -/

structure Task.AtEntry (ptr : Pointer) (val len : Operation) (t : Task G) : Prop where
  ptr : t.frame.args[0]? = some (.scalar (.pointer ptr))
  val : t.frame.args[1]?.bind LLVMValue.expr? = some val
  len : t.frame.args[2]?.bind LLVMValue.expr? = some len
  state : t.frame.state = .entry

omit [PathGraph G] in
theorem call_atEntry {isVolatile : LLVMValue} (h : call ctx [.scalar (.pointer ptr),
    .scalar (.expr val), .scalar (.expr len), isVolatile] = .ok t) :
    t.AtEntry ptr val len ∧ t.context = ctx := by
  unfold call at h
  split_ifs at h
  cases h
  exact ⟨⟨rfl, rfl, rfl, rfl⟩, rfl⟩

theorem run_entry (ht : t.AtEntry ptr val len) :
    run shared (fuel + 1) { tasks := [t], queries := queries } =
      (enter shared queries t len).bind fun o =>
        run shared fuel ⟨o.tasks, o.returned, o.queries⟩ := by
  have hstep : step shared queries t = enter shared queries t len := by
    rw [step_eq ht.val ht.len, ht.state]
  simp only [run, hstep, bind_eq_bind, append_nil, nil_append]

theorem weight_zero (ls : List Nat) : weight ls 0 = ls.length := by
  simp [weight]

theorem started_counts (h : Valid n m t.context heap ptr val len) (hkeeps : Kept t.context)
    (ht : t.AtEntry ptr val len) (p : Pointer) :
    Counts m t.context.assertions len (started t len p) 0 :=
  have hafter := Interpreter.after_resolving hkeeps
  ⟨hafter.keeps, hafter.models, h.running, ⟨val, ht.val⟩, ht.len, Nat.two_pow_pos m, _, rfl,
    .inl ⟨rfl, isCount_zero h.length⟩⟩

theorem Valid.run_length (h : Valid n m t.context heap ptr val len) (hex : shared.solver.Exact)
    (hkeeps : Kept t.context) (ht : t.AtEntry ptr val len) {pointers : List Pointer}
    {returned : List (Context G)} (hls : Lengths m t.context.assertions len ls) (hnd : ls.Nodup)
    (hrun : run shared fuel { tasks := pointers.map (started t len), queries := queries } =
      some returned) :
    (∀ r ∈ returned, ∀ σ, Models σ r.assertions ↔ Models σ t.context.assertions) ∧
      pointers.length * ls.length ≤ returned.length := by
  have hcnts : Forall₂ (Counts m t.context.assertions len) (pointers.map (started t len))
      (pointers.map fun _ => 0) := by
    rw [forall₂_map_left_iff, forall₂_map_right_iff, forall₂_same]
    exact fun p _ => started_counts h hkeeps ht p
  obtain ⟨hall, hle⟩ := run_counts hex h.length hls hnd hcnts (by simp) hrun
  refine ⟨hall, ?_⟩
  simpa [weight_zero] using hle

theorem Valid.exact_counts (h : Valid n m t.context heap ptr val len) (hex : shared.solver.Exact)
    (hkeeps : Kept t.context) (ht : t.AtEntry ptr val len) {pointers : List Pointer}
    {returned : List (Context G)} (hσ : Models σ t.context.assertions)
    (hrun : run shared fuel { tasks := pointers.map (started t len), queries := queries } =
      some returned) (hptn : PartitionsModels t.context.assertions returned) :
    pointers.length = 1 ∧
      ∃ l : BitVec m, ∀ σ, Models σ t.context.assertions → Denotes σ len l := by
  obtain ⟨l, hl⟩ := h.length.denotes σ
  have hlens : ∀ σ' (l' : BitVec m), Models σ' t.context.assertions → Denotes σ' len l' →
      Lengths m t.context.assertions len [l.toNat, l'.toNat] := by
    intro σ' l' hσ' hl' k hk
    rcases mem_pair.mp hk with rfl | rfl
    · exact ⟨σ, hσ, l, hl, rfl⟩
    · exact ⟨σ', hσ', l', hl', rfl⟩
  have hsgl : Lengths m t.context.assertions len [l.toNat] :=
    fun k hk => hlens σ l hσ hl k (mem_cons_of_mem _ hk)
  obtain ⟨hall, hle⟩ := h.run_length hex hkeeps ht hsgl (nodup_singleton _) hrun
  have hone : returned.length = 1 := by
    have hcov := hptn.covers σ hσ
    rwa [List.ExactlyOne.congr fun r hr => hall r hr σ, List.exactlyOne_const hσ] at hcov
  have hptrs : pointers.length = 1 := by
    have hne : pointers ≠ [] := by
      rintro rfl
      cases fuel <;> cases hrun <;> cases hone
    have hpos := length_pos_of_ne_nil hne
    rw [length_singleton] at hle
    omega
  refine ⟨hptrs, l, fun σ' hσ' => ?_⟩
  obtain ⟨l', hl'⟩ := h.length.denotes σ'
  by_cases heq : l = l'
  · rwa [heq]
  · have hne : l.toNat ≠ l'.toNat := fun h => heq (BitVec.eq_of_toNat_eq h)
    obtain ⟨-, htwo⟩ := h.run_length hex hkeeps ht (hlens σ' l' hσ' hl')
      (by simpa using hne) hrun
    simp only [length_cons, length_nil] at htwo
    omega

/-- The path condition determines the length, of the width of pointers, and the allocation; or
nothing is returned. -/
def Determined (n m : Nat) (ctx : Context G) (heap : MemHeap) (ptr : Pointer) (len : Operation) :
    Prop :=
  (m = n ∨ heap.allocs.pairs = []) ∧ ((∀ σ, ¬ Models σ ctx.assertions) ∨
    (∃ l : BitVec m, ∀ σ, Models σ ctx.assertions → Denotes σ len l) ∧
      ∃! e, e ∈ heap.allocs.pairs ∧ MayHit n ctx ptr e)

theorem Exact.of_unsat (hno : ∀ σ, ¬ Models σ ctx.assertions) : Exact n m ctx heap ptr val len [] :=
  ⟨⟨fun σ hσ => absurd hσ (hno σ), fun _ hr => (nomatch hr)⟩, fun _ hr => (nomatch hr)⟩

end Destination

section FourBytes

open Classical in
noncomputable def completeSolver : Solver where
  check _ assertions extra := if ∃ σ, Models σ assertions ∧ extra.Holds σ then .SAT else .UNSAT

theorem completeSolver_exact : completeSolver.Exact where
  unsat m assertions extra h σ hσ hextra := by
    simp only [completeSolver] at h
    split_ifs at h with hex
    exact hex ⟨σ, hσ, hextra⟩
  sat m assertions extra h := by
    simp only [completeSolver] at h
    split_ifs at h with hex
    exact hex
  decides m assertions extra h := by
    simp only [completeSolver] at h
    split_ifs at h

open Sample

noncomputable def sampleShared : CaffeineContext := { Sample.shared with solver := completeSolver }

def sampleDestination : Pointer := ⟨some (16, 0), literal 0, 0⟩

def sampleByte : Operation := .constantInt ⟨8, 7⟩

def sampleContext (assertions : List Assertion) : Context (List Assertion) where
  stack := [⟨⟨[]⟩, ∅, 0, none, 0⟩]
  heaps := AList.singleton 0 (heap [16])
  graph := assertions

def sampleTask (assertions : List Assertion) (len : Operation) : Task (List Assertion) where
  frame := { args := [.scalar (.pointer sampleDestination), .scalar (.expr sampleByte),
    .scalar (.expr len), .scalar (.expr (.constantInt ⟨1, 0⟩))] }
  context := sampleContext assertions

theorem samplePairs : (heap [16]).allocs.pairs = [((16, 0), allocation 16)] := rfl

theorem sample_within (σ : Assignment) (hl : l ≤ 4) :
    Within 64 σ sampleDestination ((16, 0), allocation 16) l :=
  ⟨4, 0, denotes_constantInt _, ⟨rfl, denotes_constantInt _⟩, by simpa using hl⟩

theorem sample_contents (σ : Assignment) :
    ∃ f : BitVec 64 → BitVec 8, Contents σ (allocation 16).data 4 f := by
  have hdata : (allocation 16).data.Interpreted := rfl
  have hty := hdata.mono fun _ => OperationData.interpretedIn_of_interpreted σ
  obtain ⟨f, hf⟩ := Val.hasType_array.mp hty.eval_hasType
  refine ⟨f, hty, rfl, rfl, ?_, f, hf, fun _ _ => rfl⟩
  rintro elements ⟨⟩
  decide

theorem sample_valid {assertions : List Assertion} (hlen : len.IsInt 64)
    (hle : ∀ σ, Models σ assertions → ∀ l : BitVec 64, Denotes σ len l → l.toNat ≤ 4) :
    Valid 64 64 (sampleContext assertions) (heap [16]) sampleDestination sampleByte len where
  points := by
    refine ⟨rfl, rfl, ⟨?_, ?_⟩, rfl, rfl⟩ <;> rw [samplePairs] <;>
      exact forall_mem_singleton.mpr ⟨rfl, rfl⟩
  live := by
    rintro id ⟨⟩
    decide
  byte := ⟨rfl, rfl⟩
  length := hlen
  running := by simp [sampleContext]
  separated σ _ := by
    refine ⟨?_, ?_⟩ <;> rw [samplePairs]
    · refine forall_mem_singleton.mpr fun a s hat => ?_
      obtain ⟨rfl, rfl⟩ := (allocation_at σ 16).unique hat
      decide
    · exact pairwise_singleton _ _
  contents σ _ := by
    rw [samplePairs]
    refine forall_mem_singleton.mpr fun s hs => ?_
    obtain rfl := (allocation_at σ 16).size.unique hs
    exact sample_contents σ
  writable := by
    rw [samplePairs]
    exact forall_mem_singleton.mpr fun _ => rfl
  valid σ hσ l hl := by
    rw [samplePairs]
    exact ⟨_, mem_singleton_self _, sample_within σ (hle σ hσ l hl)⟩

def sampleLength : Operation := .constant (.int 64) (.numbered 0)

def lengthAtMostOne : List Assertion :=
  (createICmp .full .ule sampleLength (literal 1) >>= ofValue).toList

theorem models_lengthAtMostOne {σ : Assignment} {l : BitVec 64} (hl : Denotes σ sampleLength l) :
    Models σ lengthAtMostOne ↔ l.toNat ≤ 1 := by
  obtain ⟨a, ha, hd⟩ : Asserts σ (createICmp .full .ule sampleLength (literal 1) >>= ofValue)
      _ := asserts_of_returns (createICmp_returns hl (denotes_constantInt (BitVec.ofNat 64 1)))
  rw [lengthAtMostOne, ha, toList_some, models_singleton, hd.holds_iff]
  simp [Semantics.compare, BitVec.ule_iff_le, BitVec.le_def]

theorem sampleLength_isInt : sampleLength.IsInt 64 := ⟨rfl, rfl⟩

theorem denotes_sampleLength (v : Nat) :
    Denotes (assign v) sampleLength (BitVec.ofNat 64 v) := by
  obtain ⟨l, hl⟩ := sampleLength_isInt.denotes (assign v)
  have hval : sampleLength.eval (assign v) = .int ⟨64, BitVec.ofNat 64 v⟩ := rfl
  rw [hl.value] at hval
  cases hval
  exact hl

end FourBytes

end Memset

end Caffeine
