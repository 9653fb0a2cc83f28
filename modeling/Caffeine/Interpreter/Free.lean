import Caffeine.Interpreter.MemsetSound
import Caffeine.Memory.HeapRun

/-!
# Start addresses and `free`

`allocate` asserts that the ranges of live allocations do not overlap. An empty range overlaps
nothing, so an empty allocation may start where another one starts, and `free` does not find it.
Where no size is zero, the start of an allocation identifies it.
-/

namespace Caffeine

open Operation Assertion OperationSimplifier Memset List BitVec
open Option hiding guard

def MemHeap.remove (heap : MemHeap) (id : AllocId) : MemHeap :=
  { heap with allocs := heap.allocs.erase id }

variable {G : Type}

def Context.deallocate (ctx : Context G) (ptr : Pointer) : Option (Context G) := do
  let heap ← ctx.heaps.lookup ptr.heap
  let id ← ptr.alloc
  guard (heap.checkLive id)
  some { ctx with heaps := ctx.heaps.insert ptr.heap (heap.remove id) }

variable [PathGraph G]

namespace Free

variable (shared : CaffeineContext)

/-- The fork for one of the pointers that `memptr` is resolved to. -/
def fork (memptr : Pointer) (interp : InterpreterContext G) (ptr : Pointer) :
    Option (InterpreterContext G) := do
  let ctx := interp.context.add (← Interpreter.createPointerEq shared interp.context memptr ptr)
  some (interp.fork { context := ← ctx.deallocate ptr })

/-- `CaffeineFreeFunction::call`, with what it tests of the type of the function. -/
def call (returnsVoid takesPointer : Bool) (interp : InterpreterContext G) (args : List LLVMValue) :
    Option (InterpreterContext G) :=
  let fail message := some (interp.fail shared interp.context message).kill
  if args.length ≠ 1 then
    fail "invalid caffeine_free signature (invalid number of arguments)"
  else if !returnsVoid then fail "invalid caffeine_free signature (invalid return type)"
  else if !takesPointer then fail "invalid caffeine_free signature (invalid first argument)"
  else do
    let memptr ← (← args.head?).pointer?
    let interp ← interp.assertPtrStartsAllocation shared memptr
      "free called with an invalid pointer"
    let (resolved, interp) ← interp.resolvePtrWidth shared memptr (memptr.offset.literal 0)
      "free called with a pointer not allocated by malloc"
    resolved.foldlM (fork shared memptr) interp.kill

end Free

variable {n : Nat} {shared : CaffeineContext} {σ : Assignment} {heap : MemHeap} {ptr p : Pointer}
  {e e' : AllocId × Allocation} {interp : InterpreterContext G} {ctx : Context G}

def Pointer.Starts (cache : OperationCache) (n : Nat) (σ : Assignment) (heap : MemHeap)
    (ptr : Pointer) (e : AllocId × Allocation) : Prop :=
  ∃ value, ptr.value cache heap = some value ∧
    ∃ a s : BitVec n, e.2.At σ a s ∧ Denotes σ value a

namespace MemHeap

def DistinctStarts (n : Nat) (σ : Assignment) (heap : MemHeap) : Prop :=
  heap.allocs.pairs.Pairwise fun e e' => ∀ a s a' s' : BitVec n, e.2.At σ a s →
    e'.2.At σ a' s' → a ≠ a'

def NonEmpty (n : Nat) (σ : Assignment) (heap : MemHeap) : Prop :=
  ∀ e ∈ heap.allocs.pairs, ∀ s : BitVec n, Denotes σ e.2.size s → s ≠ 0

theorem Separated.eq_of_start {a s b t : BitVec n} (hsep : heap.Separated n σ)
    (hszs : heap.NonEmpty n σ) (he : e ∈ heap.allocs.pairs) (he' : e' ∈ heap.allocs.pairs)
    (hat : e.2.At σ a s) (hat' : e'.2.At σ b t) (hle : b.toNat ≤ a.toNat)
    (hlt : a.toNat < b.toNat + t.toNat) : e' = e := by
  by_contra hne
  have hs : s.toNat ≠ 0 := fun h0 => hszs e he s hat.size (eq_of_toNat_eq h0)
  have hsymm : Std.Symm fun e e' : AllocId × Allocation => ∀ a s a' s' : BitVec n, e.2.At σ a s →
      e'.2.At σ a' s' → a.toNat + s.toNat ≤ a'.toNat ∨ a'.toNat + s'.toNat ≤ a.toNat :=
    ⟨fun _ _ h a s a' s' hat hat' => (h a' s' a s hat' hat).symm⟩
  have hapart := hsep.apart.forall he' he hne b t a s hat' hat
  omega

theorem Separated.distinctStarts (hsep : heap.Separated n σ) (hszs : heap.NonEmpty n σ) :
    heap.DistinctStarts n σ := by
  refine hsep.apart.imp_of_mem fun he he' hapart a s a' s' hat hat' heq => ?_
  have hs : s.toNat ≠ 0 := fun h0 => hszs _ he s hat.size (eq_of_toNat_eq h0)
  have hs' : s'.toNat ≠ 0 := fun h0 => hszs _ he' s' hat'.size (eq_of_toNat_eq h0)
  have := hapart a s a' s' hat hat'
  rw [heq] at this
  omega

omit [PathGraph G] in
theorem Separated.eq_of_within (hsep : heap.Separated n σ) (hszs : heap.NonEmpty n σ)
    (hp : Points n ctx heap ptr) (he : e ∈ heap.allocs.pairs) (he' : e' ∈ heap.allocs.pairs)
    (hstart : OffsetIn σ ptr e (0 : BitVec n)) (hwithin : Within n σ ptr e' 1) : e' = e := by
  obtain ⟨t, x, ht, hx, hle⟩ := hwithin
  cases hid : ptr.alloc with
  | some id =>
    obtain ⟨rfl, -⟩ := (offsetIn_resolved hid).mp hstart
    obtain ⟨hkey, -⟩ := (offsetIn_resolved hid).mp hx
    have hl := Map.mem_pairs.mp he'
    rw [← hkey] at hl
    exact Prod.ext hkey.symm (Map.lookup_unique hl (Map.mem_pairs.mp he))
  | none =>
    obtain ⟨a, v, ha, hv, hav, hzero⟩ := (offsetIn_absolute hid).mp hstart
    obtain ⟨b, v', hb, hv', hbv, rfl⟩ := (offsetIn_absolute hid).mp hx
    obtain rfl := hv.unique hv'
    obtain ⟨s, hs⟩ := (hp.typed.size e he).denotes σ
    have hva : v.toNat = a.toNat := by
      have hsub : (0 : BitVec n).toNat = v.toNat - a.toNat := by
        rw [hzero, toNat_sub_of_le hav]
      have := le_def.mp hav
      simp only [ofNat_eq_ofNat, toNat_ofNat, Nat.zero_mod] at hsub
      omega
    rw [toNat_sub_of_le hbv] at hle
    have := le_def.mp hbv
    exact hsep.eq_of_start hszs he he' ⟨ha, hs⟩ ⟨hb, ht⟩ (by omega) (by omega)

end MemHeap

theorem Pointer.Starts.unique {cache : OperationCache} (hsep : heap.Separated n σ)
    (hszs : heap.NonEmpty n σ) (he : e ∈ heap.allocs.pairs) (he' : e' ∈ heap.allocs.pairs)
    (h : ptr.Starts cache n σ heap e) (h' : ptr.Starts cache n σ heap e') : e' = e := by
  obtain ⟨value, hval, a, s, hat, ha⟩ := h
  obtain ⟨value', hval', b, t, hat', hb⟩ := h'
  obtain rfl := some.inj (hval.symm.trans hval')
  obtain rfl := ha.unique hb
  have ht : t.toNat ≠ 0 := fun h0 => hszs e' he' t hat'.size (eq_of_toNat_eq h0)
  exact hsep.eq_of_start hszs he he' hat hat' le_rfl (by omega)

omit [PathGraph G] in
theorem checkStartsAllocation_returns (hp : Points n ctx heap ptr) (cache : OperationCache) :
    ∃ starts, heap.checkStartsAllocation cache ptr = some starts ∧
      (∀ σ, ∃ P, Decides σ starts P) ∧ ∀ σ, starts.Holds σ →
        ∃ e ∈ heap.allocs.pairs, ptr.Starts cache n σ heap e ∧
          OffsetIn σ ptr e (0 : BitVec n) := by
  have hasrt : ∀ σ, ∃ P, Asserts σ (heap.checkStartsAllocation cache ptr) P ∧
      (P → ∃ e ∈ heap.allocs.pairs, ptr.Starts cache n σ heap e ∧
        OffsetIn σ ptr e (0 : BitVec n)) := by
    intro σ
    obtain ⟨o, ho⟩ := hp.offset.denotes σ
    cases hid : ptr.alloc with
    | none =>
      refine ⟨_, MemHeap.checkStartsAllocation_unresolved hp.typed hid ho, ?_⟩
      rintro ⟨-, e, he, a, s, hat, rfl⟩
      refine ⟨e, he, ⟨ptr.offset, by simp only [Pointer.value, hid], o, s, hat, ho⟩, ?_⟩
      exact (offsetIn_absolute hid).mpr ⟨o, o, hat.address, ho, BitVec.le_refl o,
        (BitVec.sub_self o).symm⟩
    | some id =>
      cases hl : heap.allocs.lookup id with
      | none =>
        refine ⟨false = true, ⟨.constant false, ?_, false, denotes_constantInt _, Iff.rfl⟩,
          fun h => by cases h⟩
        simp [MemHeap.checkStartsAllocation, MemHeap.checkLive, hid, hl]
      | some alloc =>
        refine ⟨_, MemHeap.checkStartsAllocation_resolved hid hl ho, ?_⟩
        rintro rfl
        obtain ⟨a, s, hat⟩ := hp.typed.at σ (Map.mem_pairs.mpr hl)
        obtain ⟨value, hval, hdenotes⟩ :
            Returns σ (createBinary cache .add alloc.address ptr.offset) _ :=
          createAdd_returns hat.address ho
        rw [ofNat_eq_ofNat, BitVec.add_zero] at hdenotes
        refine ⟨(id, alloc), Map.mem_pairs.mpr hl, ⟨value, ?_, a, s, hat, hdenotes⟩,
          (offsetIn_resolved hid).mpr ⟨rfl, ho⟩⟩
        simp [Pointer.value, hid, hp.index, hl, hval]
  obtain ⟨-, ⟨starts, hstarts, -⟩, -⟩ := hasrt default
  refine ⟨starts, hstarts, fun σ => ?_, fun σ hholds => ?_⟩
  · obtain ⟨P, ⟨starts', hstarts', hdec⟩, -⟩ := hasrt σ
    cases hstarts.symm.trans hstarts'
    exact ⟨P, hdec⟩
  · obtain ⟨P, hP, himp⟩ := hasrt σ
    exact himp ((hP.holds_iff hstarts).mp hholds)

theorem assertPtrStartsAllocation_eq {starts : Assertion} (halive : interp.isDead = false)
    (hlook : interp.context.heaps.lookup ptr.heap = some heap)
    (hstarts : heap.checkStartsAllocation shared.cache ptr = some starts)
    (hdec : ∃ P, Decides default starts P) (message : String) :
    ∃ interp', interp.assertPtrStartsAllocation shared ptr message = some interp' ∧
      interp'.context = interp.context.asked.add starts ∧ interp'.isDead = false ∧
      interp'.forks = interp.forks := by
  obtain ⟨P, hP⟩ := hdec
  obtain ⟨negated, hnot, -⟩ : Asserts default (starts.not shared.cache) _ := hP.not
  simp only [InterpreterContext.assertPtrStartsAllocation, Map.emplace_of_lookup hlook, hlook,
    hstarts, InterpreterContext.assertOrFail, bind_eq_bind, bind_some]
  rw [if_neg (by simpa [InterpreterContext.setContext, InterpreterContext.isDead] using halive),
    hnot]
  refine ⟨_, rfl, ?_⟩
  split_ifs <;> exact ⟨rfl, halive, rfl⟩

namespace Free

theorem resolve_started {ctx' : Context G} {allowed : Assertion → Prop}
    (hex : shared.solver.Exact) (hafter : ctx.After allowed ctx') (hp : Points n ctx heap ptr)
    (hsep : ∀ σ, Models σ ctx.assertions → heap.Separated n σ)
    (hszs : ∀ σ, Models σ ctx.assertions → heap.NonEmpty n σ) (hmdl : ∃ σ, Models σ ctx.assertions)
    (he : e ∈ heap.allocs.pairs)
    (hstart : ∀ σ, Models σ ctx.assertions → OffsetIn σ ptr e (0 : BitVec n)) (queries : Nat) :
    (∃ valid, heap.checkValid shared.cache ptr (ptr.offset.literal 0) = some valid ∧
      ∀ σ, Models σ ctx.assertions → valid.Holds σ) ∧
    ∃ p queries', heap.resolve shared.cache (ctx'.solver shared) ctx'.assertions queries ptr =
      some ([p], queries') ∧ Targets n heap ptr e p ∧ ResolvesTo shared.cache heap ptr p e.2 := by
  have hwithin : ∀ σ, Models σ ctx.assertions → Within n σ ptr e 1 := by
    intro σ hσ
    obtain ⟨s, hs⟩ := (hp.typed.size e he).denotes σ
    have hne : s.toNat ≠ 0 := fun h0 => hszs σ hσ e he s hs (eq_of_toNat_eq h0)
    have hzero : (0 : BitVec n).toNat = 0 := by simp
    exact ⟨s, 0, hs, hstart σ hσ, by omega⟩
  obtain ⟨σ₀, hσ₀⟩ := hmdl
  have hlive : ∀ id, ptr.alloc = some id → id ∈ heap.allocs := by
    intro id hid
    obtain ⟨rfl, -⟩ := (offsetIn_resolved hid).mp (hstart σ₀ hσ₀)
    exact Map.mem_of_lookup (Map.mem_pairs.mp he)
  refine ⟨checkValid_holds hp hlive (Interpreter.isInt_literal hp 0) hsep (fun σ hσ l hl => ?_)
    shared.cache, ?_⟩
  · obtain ⟨o, ho⟩ := hp.offset.denotes σ
    obtain rfl := hl.unique (denotes_literal ho 0)
    exact ⟨e, he, (hwithin σ hσ).mono (by simp)⟩
  · obtain ⟨pointers, es, queries', hrsv, htargets, hnd, hes⟩ :=
      targets hp hsep hex hafter queries
    obtain rfl : es = [e] := by
      by_contra hne
      rcases (hnd.ne_singleton_iff e).mp hne with rfl | ⟨e', he', hne'⟩
      · exact (nomatch (hes e).mpr ⟨he, σ₀, hσ₀, hwithin σ₀ hσ₀⟩)
      · obtain ⟨hmem, σ, hσ, hother⟩ := (hes e').mp he'
        exact hne' ((hsep σ hσ).eq_of_within (hszs σ hσ) hp he hmem (hstart σ hσ) hother)
    cases htargets with
    | cons htgt hrest =>
      cases hrest
      exact ⟨_, queries', hrsv, htgt⟩

theorem fork_eq {allowed : Assertion → Prop} (hkeeps : PathGraph.Keeps allowed interp.context.graph)
    (hadds : ∀ a, Interpreter.Equates shared interp.context ptr a → allowed a)
    (hp : Points n interp.context heap ptr) (htgt : Targets n heap ptr e p)
    (hto : ResolvesTo shared.cache heap ptr p e.2) :
    ∃ new : ContextQueueEntry G, fork shared ptr interp p = some (interp.fork new) ∧
      new.dead = false ∧
      new.context.heaps = interp.context.heaps.insert ptr.heap (heap.remove e.1) ∧
      ∀ σ, Models σ new.context.assertions ↔ Models σ interp.context.assertions := by
  obtain ⟨⟨eq, hcr, heq⟩, -⟩ := hto.createPointerEq hp
  have hlive : heap.checkLive e.1 = true := by simp [MemHeap.checkLive, Map.mem_pairs.mp htgt.mem]
  have hlook : interp.context.heaps.lookup p.heap = some heap := by rw [htgt.heap, hp.lookup]
  refine ⟨{ context := { interp.context.add eq with
    heaps := interp.context.heaps.insert ptr.heap (heap.remove e.1) } }, ?_, rfl, rfl, fun σ => ?_⟩
  · simp [fork, hcr, Context.deallocate, Context.add, hlook, htgt.heap, htgt.alloc, hlive]
  · exact (hkeeps.faithful.add eq (hadds eq ⟨p, .inl hcr⟩) σ).trans (and_iff_left (heq σ))

/-- What `free` adds: that the pointer starts an allocation, and what it is resolved to. -/
def Adds (shared : CaffeineContext) (ctx : Context G) (heap : MemHeap) (ptr : Pointer)
    (a : Assertion) : Prop :=
  heap.checkStartsAllocation shared.cache ptr = some a ∨ Interpreter.Equates shared ctx ptr a

theorem call_started {starts : Assertion} (hex : shared.solver.Exact)
    (hkeeps : PathGraph.Keeps (Adds shared interp.context heap ptr) interp.context.graph)
    (hp : Points n interp.context heap ptr) (halive : interp.isDead = false)
    (hsep : ∀ σ, Models σ interp.context.assertions → heap.Separated n σ)
    (hszs : ∀ σ, Models σ interp.context.assertions → heap.NonEmpty n σ)
    (hstarts : heap.checkStartsAllocation shared.cache ptr = some starts)
    (hmdl : ∃ σ, Models σ interp.context.assertions ∧ starts.Holds σ)
    (he : e ∈ heap.allocs.pairs) (hagr : ∀ σ, Models σ interp.context.assertions →
      starts.Holds σ → ptr.Starts shared.cache n σ heap e) :
    ∃ interp' new, call shared true true interp [.scalar (.pointer ptr)] = some interp' ∧
      interp'.isDead = true ∧ interp'.forks = interp.forks ++ [new] ∧ new.dead = false ∧
      new.context.heaps = interp.context.heaps.insert ptr.heap (heap.remove e.1) ∧
      ∀ σ, Models σ new.context.assertions ↔
        Models σ interp.context.assertions ∧ starts.Holds σ := by
  obtain ⟨starts', hstarts', hdec, hstart⟩ := checkStartsAllocation_returns hp shared.cache
  obtain rfl := some.inj (hstarts'.symm.trans hstarts)
  obtain ⟨interp₁, hassert, hctx, halive₁, hforks⟩ := assertPtrStartsAllocation_eq halive hp.lookup
    hstarts (hdec default) "free called with an invalid pointer"
  have hasked := (Context.After.refl hkeeps).asked
  have hmod : ∀ σ, Models σ interp₁.context.assertions ↔
      Models σ interp.context.assertions ∧ starts'.Holds σ := fun σ => by
    rw [hctx, ← hasked.models]
    exact hasked.keeps.faithful.add starts' (.inl hstarts) σ
  have hkeeps₁ : PathGraph.Keeps (Adds shared interp.context heap ptr) interp₁.context.graph := by
    rw [hctx]
    exact hasked.keeps.step (.add _ (.inl hstarts))
  have hafter := Interpreter.after_resolving hkeeps₁
  have hheaps : interp₁.context.heaps = interp.context.heaps := by rw [hctx]; rfl
  have hp₁ : Points n interp₁.context heap ptr :=
    ⟨by rw [hheaps, hp.lookup], hp.index, hp.typed, hp.offset⟩
  have hoff : ∀ σ, Models σ interp₁.context.assertions → OffsetIn σ ptr e (0 : BitVec n) := by
    intro σ hσ
    obtain ⟨hpath, hholds⟩ := (hmod σ).mp hσ
    obtain ⟨e', he', hstarted, hzero⟩ := hstart σ hholds
    obtain rfl := (hagr σ hpath hholds).unique (hsep σ hpath) (hszs σ hpath) he he' hstarted
    exact hzero
  obtain ⟨⟨valid, hvalid, hholds⟩, p, queries, hrsv, htgt, hto⟩ := resolve_started hex hafter hp₁
    (fun σ hσ => hsep σ ((hmod σ).mp hσ).1) (fun σ hσ => hszs σ ((hmod σ).mp hσ).1)
    (hmdl.imp fun σ => (hmod σ).mpr) he hoff (interp₁.queries + 1)
  have hassertValid : interp₁.assertPtrValid shared ptr (ptr.offset.literal 0)
      "free called with a pointer not allocated by malloc" = _ :=
    Interpreter.assertPtrValid_eq hex.sat halive₁ hp₁.lookup hvalid
      (Interpreter.checkValid_decides hp₁ (Interpreter.isInt_literal hp₁ 0) hvalid) hkeeps₁ hholds
  have hresolved := Interpreter.resolvePtrWidth_eq hassertValid halive₁ hp₁.lookup hrsv
  let interp₂ := InterpreterContext.kill
    { interp₁.setContext (Interpreter.resolving interp₁.context) with queries := queries }
  obtain ⟨new, hnew, hdead, hnewHeaps, hnewModels⟩ : ∃ new : ContextQueueEntry G, _ :=
    fork_eq hafter.keeps (fun a ha => .inr (ha.congr (hafter.heaps.trans hheaps)))
      (show Points n interp₂.context heap ptr from ⟨hp₁.lookup, hp₁.index, hp₁.typed, hp₁.offset⟩)
      htgt hto
  refine ⟨interp₂.fork new, new, ?_, rfl, ?_, hdead, ?_, fun σ => ?_⟩
  · have hcall : call shared true true interp [.scalar (.pointer ptr)] =
        [p].foldlM (fork shared ptr) interp₂ := by
      simp [call, LLVMValue.pointer?, hassert, hresolved, interp₂]
    rw [hcall, foldlM_cons, hnew]
    rfl
  · exact congrArg (· ++ [new]) hforks
  · rw [hnewHeaps, ← hheaps]
    rfl
  · exact (hnewModels σ).trans ((hafter.models σ).trans (hmod σ))

end Free

def HeapCall.NonEmpty (n : Nat) (σ : Assignment) : HeapCall → Prop
  | .allocate size .. => ∀ s : BitVec n, Denotes σ size s → s ≠ 0
  | .deallocate _ => True

theorem HeapRun.step_nonEmpty {cache : OperationCache} {r r' : HeapRun} {call : HeapCall}
    (hcall : call.NonEmpty n σ) (h : r.step cache call = some r') (hr : r.state.heap.NonEmpty n σ) :
    r'.state.heap.NonEmpty n σ := by
  obtain ⟨-, hpairs⟩ := step_pairs h
  intro e he s hs
  cases call with
  | allocate size =>
    obtain ⟨entry, rfl, hperm⟩ := hpairs
    rcases mem_cons.mp (hperm.mem_iff.mp he) with rfl | he
    · exact hcall s hs
    · exact hr e he s hs
  | deallocate alloc =>
    obtain ⟨value, hperm⟩ := hpairs
    exact hr e (hperm.mem_iff.mpr (mem_cons_of_mem _ he)) s hs

namespace FreeSample

open Sample

def calls (count size : Nat) : List HeapCall :=
  List.replicate count (.allocate (literal size) (literal 8) (literal 0)
    .malloc ⟨true, true, false⟩ (literal size) (literal 8))

def start : HeapRun := HeapRun.start 0 false 0

theorem calls_typed (count size : Nat) : ∀ call ∈ calls count size, call.Typed 64 := by
  intro call hcall
  rw [eq_of_mem_replicate hcall]
  exact ⟨⟨rfl, rfl⟩, ⟨rfl, rfl⟩⟩

def state (r : HeapRun) : InterpreterContext (List Assertion) where
  entry.context := ⟨[], AList.singleton 0 r.state.heap, r.assertions⟩
  forks := []
  queries := 0
  failures := []

def holds (σ : Assignment) (a : Assertion) : Bool := (a.value.eval σ).toInt? = some ⟨1, 1⟩

theorem holds_iff {a : Assertion} : holds σ a = true ↔ a.Holds σ := by
  rw [holds, decide_eq_true_eq, toInt?_eq_some]
  rfl

theorem denotes_symbol (k v : Nat) :
    Denotes (assign v) (.constant (.int 64) (.numbered k)) (BitVec.ofNat 64 v) :=
  ⟨wellTyped_mk.mpr ⟨rfl, rfl, by simp⟩, rfl, rfl⟩

end FreeSample

end Caffeine
