import Caffeine.ADT.SparseVector
import Caffeine.IR.FoldedNodes
import Caffeine.IR.Symbols
import Caffeine.Solver.Solver
import Mathlib.Data.Finset.Basic

/-!
# Lists of assertions

An `AssertionList` is a conjunction. Inserted conjunctions and negated disjunctions are split
into their parts, and a part that is already in the list is not listed again. The assertions
before the mark have been proven satisfiable together.
-/

namespace Caffeine

open Operation List
open OperationSimplifier (allNodes_mk)

def Assertion.isConstantValue (a : Assertion) (value : Bool) : Bool :=
  match a.value.data with
  | .constantInt v => v.eqNat value.toNat
  | _ => false

theorem Assertion.holds_iff_of_isConstantValue {a : Assertion} {value : Bool}
    (h : a.isConstantValue value = true) (σ : Assignment) : a.Holds σ ↔ value = true := by
  obtain ⟨⟨d, ops⟩, ht⟩ := a
  simp only [isConstantValue, data_mk] at h
  split at h
  · rename_i v
    obtain ⟨w, x⟩ := v
    obtain rfl : w = 1 := Ty.int.inj ht
    obtain rfl : x = BitVec.ofBool value := BitVec.eq_of_toNat_eq (by
      have hx : x.toNat = value.toNat := of_decide_eq_true h
      rw [hx, BitVec.toNat_ofBool])
    rw [Holds, eval_mk]
    change Val.int ⟨1, BitVec.ofBool value⟩ = Val.int ⟨1, 1⟩ ↔ _
    cases value <;> simp
  · cases h

structure AssertionList where
  list : SparseVector Assertion
  lookup : Finset Assertion
  mark : Nat
  mem_lookup : ∀ a, a ∈ lookup ↔ a ∈ list.live
  nodup : list.live.Nodup
  mark_le : mark ≤ list.backingSize

namespace AssertionList

instance : EmptyCollection AssertionList :=
  ⟨⟨∅, ∅, 0, fun a => by simp, nodup_nil, le_rfl⟩⟩

def live (l : AssertionList) : List Assertion := l.list.live

def proven (l : AssertionList) : List Assertion := l.list.valuesBefore l.mark

def unproven (l : AssertionList) : List Assertion := l.list.valuesFrom l.mark

theorem live_eq (l : AssertionList) : l.live = l.proven ++ l.unproven :=
  (SparseVector.valuesBefore_append_valuesFrom l.list l.mark).symm

def connectives (o : Operation) : Nat :=
  o.fold fun d operands => operands.sum +
    match d with
    | .binary .and _ => 1
    | .binary .or _ => 1
    | _ => 0

/-- The decomposition of the expressions on a stack. The first argument bounds the number of
steps. -/
def decompose (cache : OperationCache) : Nat → List Operation → Option (List Operation)
  | 0, _ => none
  | _ + 1, [] => some []
  | n + 1, op :: stack =>
    match op with
    | .mk (.binary .and _) [lhs, rhs] => decompose cache n (rhs :: lhs :: stack)
    | .mk (.unary .not _) [.mk (.binary .or _) [lhs, rhs]] => do
      let lhs ← createNot cache lhs
      let rhs ← createNot cache rhs
      decompose cache n (rhs :: lhs :: stack)
    | op => do some (op :: (← decompose cache n stack))

def insertPart (l : AssertionList) (a : Assertion) : AssertionList :=
  if h : a ∈ l.lookup then l
  else
    { list := l.list.pushBack a
      lookup := insert a l.lookup
      mark := l.mark
      mem_lookup := fun b => by
        rw [Finset.mem_insert, l.mem_lookup, SparseVector.live_pushBack, mem_append,
          mem_singleton, or_comm]
      nodup := by
        rw [SparseVector.live_pushBack]
        rw [l.mem_lookup] at h
        exact nodup_append.mpr ⟨l.nodup, nodup_singleton a, fun b hb c hc hbc =>
          h (mem_singleton.mp hc ▸ hbc ▸ hb)⟩
      mark_le := l.mark_le.trans (by simp [SparseVector.backingSize, SparseVector.pushBack]) }

def insert (cache : OperationCache) (l : AssertionList) (a : Assertion) : Option AssertionList := do
  let parts ← decompose cache (2 * connectives a.value + 2) [a.value]
  if a.isConstantValue true then some l
  else parts.foldlM (fun l part => do some (l.insertPart (← Assertion.ofValue part))) l

def insertAll (cache : OperationCache) (l : AssertionList) (as : List Assertion) :
    Option AssertionList :=
  as.foldlM (insert cache) l

def markSat (l : AssertionList) : AssertionList where
  list := l.list.compress
  lookup := l.lookup
  mark := l.list.compress.size
  mem_lookup a := by rw [SparseVector.live_compress, l.mem_lookup]
  nodup := by rw [SparseVector.live_compress]; exact l.nodup
  mark_le := SparseVector.size_compress_le l.list

def erase (l : AssertionList) (i : Nat) : Option AssertionList :=
  match h : l.list.get? i with
  | none => none
  | some a => some
    { list := l.list.erase i
      lookup := l.lookup.erase a
      mark := l.mark
      mem_lookup := fun b => by
        have hnodup := l.nodup
        rw [SparseVector.live_eq_of_get? h] at hnodup
        have ha := (nodup_cons.mp (perm_middle.nodup_iff.mp hnodup)).1
        rw [Finset.mem_erase, l.mem_lookup, SparseVector.live_eq_of_get? h,
          SparseVector.live_erase h, perm_middle.mem_iff, mem_cons]
        constructor
        · exact fun ⟨hne, hb⟩ => hb.resolve_left hne
        · exact fun hb => ⟨fun heq => ha (heq ▸ hb), .inr hb⟩
      nodup := by
        have hnodup := l.nodup
        rw [SparseVector.live_eq_of_get? h] at hnodup
        rw [SparseVector.live_erase h]
        exact (nodup_cons.mp (perm_middle.nodup_iff.mp hnodup)).2
      mark_le := by
        rw [SparseVector.backingSize_erase]
        exact l.mark_le }

theorem erase_eq {l : AssertionList} {i : Nat} {a : Assertion} (h : l.list.get? i = some a) :
    ∃ l', l.erase i = some l' ∧ l'.list = l.list.erase i := by
  unfold erase
  split
  · rename_i hnone
    cases hnone.symm.trans h
  · exact ⟨_, rfl, rfl⟩

/-! ### The meaning of a decomposition -/

theorem connectives_mk (d : OperationData) (ops : List Operation) :
    connectives (.mk d ops) = (ops.map connectives).sum +
      match d with
      | .binary .and _ => 1
      | .binary .or _ => 1
      | _ => 0 := fold_mk _ d ops

/-- A set of payloads that restricts the use of symbols only. -/
structure RestrictsSymbols (allowed : OperationData → Bool) : Prop where
  interpreted : ∀ d, allowed d = true → d.interpreted = true
  of_symbols : ∀ d, d.interpreted = true → d.symbols = [] → allowed d = true

structure IsBool (allowed : OperationData → Bool) (o : Operation) : Prop where
  typed : o.WellTyped allowed
  type : o.type = .bool

variable {allowed : OperationData → Bool} {cache : OperationCache} {o l r : Operation}

theorem IsBool.value (hallowed : RestrictsSymbols allowed) (h : IsBool allowed o) (σ : Assignment) :
    ∃ x : BitVec 1, o.eval σ = .int ⟨1, x⟩ := by
  have hty : o.InterpretedIn σ := h.typed.mono fun d hd =>
    OperationData.interpretedIn_of_interpreted σ (hallowed.interpreted d hd)
  have hv := hty.eval_hasType
  rwa [h.type, Ty.bool, Val.hasType_int] at hv

variable {t : Ty}

theorem IsBool.operands {op : BinaryOpcode} (h : IsBool allowed (.mk (.binary op t) [l, r])) :
    IsBool allowed l ∧ IsBool allowed r := by
  obtain ⟨-, hacc, hops⟩ := wellTyped_mk.mp h.typed
  obtain rfl : t = .int 1 := h.type
  simp only [OperationData.accepts, map_cons, map_nil, Bool.and_eq_true, decide_eq_true_eq] at hacc
  exact ⟨⟨hops l (by simp), hacc.1.1⟩, ⟨hops r (by simp), hacc.1.2⟩⟩

theorem IsBool.not_operand (h : IsBool allowed (.mk (.unary .not t) [o])) : IsBool allowed o := by
  obtain ⟨-, hacc, hops⟩ := wellTyped_mk.mp h.typed
  obtain rfl : t = .int 1 := h.type
  exact ⟨hops o (by simp), of_decide_eq_true hacc⟩

theorem IsBool.and_iff (hallowed : RestrictsSymbols allowed)
    (h : IsBool allowed (.mk (.binary .and t) [l, r])) (σ : Assignment) :
    (Operation.mk (.binary .and t) [l, r]).eval σ = .int ⟨1, 1⟩ ↔
      l.eval σ = .int ⟨1, 1⟩ ∧ r.eval σ = .int ⟨1, 1⟩ := by
  obtain ⟨x, hx⟩ := h.operands.1.value hallowed σ
  obtain ⟨y, hy⟩ := h.operands.2.value hallowed σ
  simp only [eval_mk, map_cons, map_nil, hx, hy, Semantics.apply, Semantics.binary,
    Semantics.bitvec, APInt.resize_width, Val.int.injEq, APInt.mk.injEq, heq_eq_eq, true_and]
  clear hx hy
  revert x y
  decide

theorem IsBool.or_iff (hallowed : RestrictsSymbols allowed)
    (h : IsBool allowed (.mk (.binary .or t) [l, r])) (σ : Assignment) :
    (Operation.mk (.binary .or t) [l, r]).eval σ = .int ⟨1, 1⟩ ↔
      l.eval σ = .int ⟨1, 1⟩ ∨ r.eval σ = .int ⟨1, 1⟩ := by
  obtain ⟨x, hx⟩ := h.operands.1.value hallowed σ
  obtain ⟨y, hy⟩ := h.operands.2.value hallowed σ
  simp only [eval_mk, map_cons, map_nil, hx, hy, Semantics.apply, Semantics.binary,
    Semantics.bitvec, APInt.resize_width, Val.int.injEq, APInt.mk.injEq, heq_eq_eq, true_and]
  clear hx hy
  revert x y
  decide

theorem IsBool.not_iff (hallowed : RestrictsSymbols allowed)
    (h : IsBool allowed (.mk (.unary .not t) [o])) (σ : Assignment) :
    (Operation.mk (.unary .not t) [o]).eval σ = .int ⟨1, 1⟩ ↔ o.eval σ ≠ .int ⟨1, 1⟩ := by
  obtain ⟨x, hx⟩ := h.not_operand.value hallowed σ
  simp only [eval_mk, map_cons, map_nil, hx, Semantics.apply, Semantics.unary, APInt.not,
    APInt.map, Val.int.injEq, APInt.mk.injEq, heq_eq_eq, true_and, ne_eq]
  clear hx
  revert x
  decide

theorem symbols_subset_iff {S : List Symbol} :
    o.symbols ⊆ S ↔ AllNodes (fun d _ => d.symbols ⊆ S) o := by
  induction o using Operation.induct with
  | mk d ops ih =>
    rw [allNodes_mk]
    refine ⟨fun h => ⟨fun s hs => h (mem_symbols_mk.mpr (.inl hs)), fun o ho => (ih o ho).mp
      fun s hs => h (mem_symbols_mk.mpr (.inr ⟨o, ho, hs⟩))⟩, fun ⟨hd, hops⟩ s hs => ?_⟩
    rcases mem_symbols_mk.mp hs with hs | ⟨o, ho, hs⟩
    · exact hd hs
    · exact (ih o ho).mpr (hops o ho) hs

/-- Conditions on nodes that `CreateNot` keeps. -/
structure NegationClosed (Q : NodeCondition) : Prop where
  literal : ∀ v, Q (.constantInt v) []
  negated : ∀ t o, Q (.unary .not t) [o]

/-- What a part of a decomposition keeps of the expression it comes from. -/
structure PartOf (allowed : OperationData → Bool) (part o : Operation) : Prop where
  bool : IsBool allowed part
  nodes : ∀ Q, NegationClosed Q → AllNodes Q o → AllNodes Q part
  connectives : AssertionList.connectives part ≤ AssertionList.connectives o

theorem PartOf.symbols {part : Operation} (h : PartOf allowed part o) : part.symbols ⊆ o.symbols :=
  symbols_subset_iff.mpr (h.nodes _ ⟨fun _ => nil_subset _, fun _ _ => nil_subset _⟩
    (symbols_subset_iff.mp (Subset.refl _)))

theorem createNot_part (cache : OperationCache) (hallowed : RestrictsSymbols allowed)
    (h : IsBool allowed o) : ∃ n, createNot cache o = some n ∧ PartOf allowed n o ∧
      ∀ σ, n.eval σ = .int ⟨1, 1⟩ ↔ o.eval σ ≠ .int ⟨1, 1⟩ := by
  suffices hpart : ∃ n, OperationSimplifier.visitNot (.int 1) o = some n ∧ PartOf allowed n o by
    obtain ⟨n, hn, hpart⟩ := hpart
    refine ⟨n, (createNot_eq h.type).trans hn, hpart, fun σ => ?_⟩
    obtain ⟨x, hx⟩ := h.value hallowed σ
    rw [eval_visitNot hx hn, hx]
    simp only [Val.int.injEq, APInt.mk.injEq, heq_eq_eq, true_and, ne_eq]
    clear hx
    revert x
    decide
  unfold OperationSimplifier.visitNot
  split
  · rename_i v ops
    have hacc := (wellTyped_mk.mp h.typed).2.1
    cases ops with
    | nil =>
      refine ⟨_, rfl, ⟨wellTyped_mk.mpr ⟨hallowed.of_symbols _ rfl rfl, rfl, by simp⟩, h.type⟩,
        fun _ hQ _ => allNodes_mk.mpr ⟨hQ.literal _, by simp⟩, le_rfl⟩
    | cons _ _ => cases hacc
  · rename_i t value
    refine ⟨value, rfl, h.not_operand, fun _ _ hn => (allNodes_mk.mp hn).2 value (by simp), ?_⟩
    rw [connectives_mk]
    simp
  · refine ⟨_, rfl, ⟨wellTyped_mk.mpr ⟨hallowed.of_symbols _ rfl rfl, ?_, by simpa using h.typed⟩,
      rfl⟩, fun _ hQ hn => allNodes_mk.mpr ⟨hQ.negated _ _, by simpa using hn⟩, ?_⟩
    · simp [OperationData.accepts, h.type, Ty.bool]
    · rw [connectives_mk]
      simp

def work (stack : List Operation) : Nat := (stack.map fun o => 2 * connectives o + 1).sum

theorem PartOf.trans {part' : Operation} (h : PartOf allowed part' o) (h' : PartOf allowed o l) :
    PartOf allowed part' l where
  bool := h.bool
  nodes Q hQ hn := h.nodes Q hQ (h'.nodes Q hQ hn)
  connectives := h.connectives.trans h'.connectives

structure Decomposes (allowed : OperationData → Bool) (stack parts : List Operation) : Prop where
  part : ∀ part ∈ parts, ∃ o ∈ stack, PartOf allowed part o
  holds_iff : ∀ σ, (∀ part ∈ parts, part.eval σ = .int ⟨1, 1⟩) ↔
    ∀ o ∈ stack, o.eval σ = .int ⟨1, 1⟩

theorem Decomposes.split {stack parts : List Operation}
    (h : Decomposes allowed (r :: l :: stack) parts) (hl : PartOf allowed l o)
    (hr : PartOf allowed r o)
    (hiff : ∀ σ, o.eval σ = .int ⟨1, 1⟩ ↔ l.eval σ = .int ⟨1, 1⟩ ∧ r.eval σ = .int ⟨1, 1⟩) :
    Decomposes allowed (o :: stack) parts where
  part part hpart := by
    obtain ⟨p, hp, hof⟩ := h.part part hpart
    rcases mem_cons.mp hp with rfl | hp
    · exact ⟨o, mem_cons_self, hof.trans hr⟩
    · rcases mem_cons.mp hp with rfl | hp
      · exact ⟨o, mem_cons_self, hof.trans hl⟩
      · exact ⟨p, mem_cons_of_mem o hp, hof⟩
  holds_iff σ := by
    rw [h.holds_iff σ]
    simp only [forall_mem_cons, hiff σ]
    tauto

theorem Decomposes.cons {stack parts : List Operation} (h : Decomposes allowed stack parts)
    (ho : IsBool allowed o) : Decomposes allowed (o :: stack) (o :: parts) where
  part := by
    refine forall_mem_cons.mpr ⟨⟨o, mem_cons_self, ho, fun _ _ hn => hn, le_rfl⟩, ?_⟩
    intro part hpart
    obtain ⟨p, hp, hof⟩ := h.part part hpart
    exact ⟨p, mem_cons_of_mem o hp, hof⟩
  holds_iff σ := by rw [forall_mem_cons, forall_mem_cons, h.holds_iff σ]

theorem decompose_spec (cache : OperationCache) (hallowed : RestrictsSymbols allowed) (n : Nat)
    (stack : List Operation) (hstk : ∀ o ∈ stack, IsBool allowed o) (hn : work stack < n) :
    ∃ parts, decompose cache n stack = some parts ∧ Decomposes allowed stack parts := by
  induction n generalizing stack with
  | zero => cases hn
  | succ n ih =>
    cases stack with
    | nil => exact ⟨[], rfl, ⟨by simp, by simp⟩⟩
    | cons op stack =>
      obtain ⟨hop, hrest⟩ := forall_mem_cons.mp hstk
      have hwork : work (op :: stack) = 2 * connectives op + 1 + work stack := by simp [work]
      unfold decompose
      split
      · rename_i t lhs rhs
        obtain ⟨hl, hr⟩ := hop.operands
        have hcnt : connectives (.mk (.binary .and t) [lhs, rhs]) =
            connectives lhs + connectives rhs + 1 := by simp [connectives_mk]
        have hpart : ∀ x, x = lhs ∨ x = rhs → IsBool allowed x →
            PartOf allowed x (.mk (.binary .and t) [lhs, rhs]) := fun x hx hbool =>
          ⟨hbool, fun _ _ hn => (allNodes_mk.mp hn).2 x (by simpa using hx), by
            rcases hx with rfl | rfl <;> omega⟩
        obtain ⟨parts, hrun, hpts⟩ := ih (rhs :: lhs :: stack)
          (forall_mem_cons.mpr ⟨hr, forall_mem_cons.mpr ⟨hl, hrest⟩⟩)
          (by simp only [work, map_cons, sum_cons] at hwork hn ⊢; omega)
        exact ⟨parts, hrun, hpts.split (hpart lhs (.inl rfl) hl) (hpart rhs (.inr rfl) hr)
          (hop.and_iff hallowed)⟩
      · rename_i t t' lhs rhs
        obtain ⟨hl, hr⟩ := hop.not_operand.operands
        obtain ⟨nl, hnl, hpl, hil⟩ := createNot_part cache hallowed hl
        obtain ⟨nr, hnr, hpr, hir⟩ := createNot_part cache hallowed hr
        have hcnt : connectives (.mk (.unary .not t) [.mk (.binary .or t') [lhs, rhs]]) =
            connectives lhs + connectives rhs + 1 := by simp [connectives_mk]
        have hpart : ∀ x, x = lhs ∨ x = rhs → IsBool allowed x →
            PartOf allowed x (.mk (.unary .not t) [.mk (.binary .or t') [lhs, rhs]]) :=
          fun x hx hbool => ⟨hbool, fun _ _ hn =>
            (allNodes_mk.mp ((allNodes_mk.mp hn).2 _ mem_cons_self)).2 x (by simpa using hx), by
            rcases hx with rfl | rfl <;> omega⟩
        have hcl := hpl.connectives
        have hcr := hpr.connectives
        obtain ⟨parts, hrun, hpts⟩ := ih (nr :: nl :: stack)
          (forall_mem_cons.mpr ⟨hpr.bool, forall_mem_cons.mpr ⟨hpl.bool, hrest⟩⟩)
          (by simp only [work, map_cons, sum_cons] at hwork hn ⊢; omega)
        refine ⟨parts, ?_, hpts.split (hpl.trans (hpart lhs (.inl rfl) hl))
          (hpr.trans (hpart rhs (.inr rfl) hr)) fun σ => ?_⟩
        · simp only [hnl, hnr, some_bind, hrun]
        · rw [hil, hir, hop.not_iff hallowed, ne_eq, hop.not_operand.or_iff hallowed, not_or]
      · obtain ⟨parts, hrun, hpts⟩ := ih stack hrest (by omega)
        exact ⟨op :: parts, by rw [hrun]; rfl, hpts.cons hop⟩

/-! ### Insertion -/

open Assertion

/-- A list after the insertion of some assertions, of which `added` was appended. -/
structure Inserted (allowed : OperationData → Bool) (l l' : AssertionList)
    (as added : List Assertion) : Prop where
  elements : l'.list.elements = l.list.elements ++ added.map .inr
  mark : l'.mark = l.mark
  part : ∀ b ∈ added, ∃ a ∈ as, PartOf allowed b.value a.value
  models : ∀ σ, Models σ l'.live ↔ Models σ l.live ∧ Models σ as

variable {list list' list'' : AssertionList} {a : Assertion} {as bs added added' : List Assertion}

theorem Inserted.live (h : Inserted allowed list list' as added) :
    list'.live = list.live ++ added := by
  rw [AssertionList.live, SparseVector.live, h.elements, filterMap_append, filterMap_map]
  simp [AssertionList.live, SparseVector.live, Function.comp_def]

theorem Inserted.refl (allowed : OperationData → Bool) (list : AssertionList) :
    Inserted allowed list list [] [] where
  elements := by simp
  mark := rfl
  part := by simp
  models σ := by simp [Models]

theorem Inserted.trans (h : Inserted allowed list list' as added)
    (h' : Inserted allowed list' list'' bs added') :
    Inserted allowed list list'' (as ++ bs) (added ++ added') where
  elements := by rw [h'.elements, h.elements, map_append, List.append_assoc]
  mark := h'.mark.trans h.mark
  part := by
    intro b hb
    rcases mem_append.mp hb with hb | hb
    · obtain ⟨a, ha, hpart⟩ := h.part b hb
      exact ⟨a, mem_append_left _ ha, hpart⟩
    · obtain ⟨a, ha, hpart⟩ := h'.part b hb
      exact ⟨a, mem_append_right _ ha, hpart⟩
  models σ := by rw [h'.models, h.models, models_append, and_assoc]

theorem insertPart_inserted (list : AssertionList) (ha : IsBool allowed a.value) :
    ∃ added, Inserted allowed list (list.insertPart a) [a] added := by
  unfold insertPart
  split_ifs with h
  · refine ⟨[], by simp, rfl, by simp, fun σ => ?_⟩
    rw [list.mem_lookup] at h
    exact ⟨fun hm => ⟨hm, models_singleton.mpr (hm a h)⟩, And.left⟩
  · refine ⟨[a], rfl, rfl, ?_, fun σ => ?_⟩
    · exact forall_mem_singleton.mpr
        ⟨a, mem_cons_self, ha, fun _ _ hn => hn, le_rfl⟩
    · rw [AssertionList.live, SparseVector.live_pushBack, models_append]
      rfl

theorem insertParts_inserted (parts : List Operation) (hpts : ∀ p ∈ parts, IsBool allowed p)
    (list : AssertionList) : ∃ list' added as, as.map Assertion.value = parts ∧
      parts.foldlM (fun l part => do some (l.insertPart (← ofValue part))) list = some list' ∧
      Inserted allowed list list' as added := by
  induction parts generalizing list with
  | nil => exact ⟨list, [], [], rfl, rfl, .refl allowed list⟩
  | cons p parts ih =>
    obtain ⟨hp, hpts⟩ := forall_mem_cons.mp hpts
    let a : Assertion := ⟨p, hp.type⟩
    obtain ⟨added, hins⟩ := insertPart_inserted list (a := a) hp
    obtain ⟨list', added', as, has, hrun, hins'⟩ := ih hpts (list.insertPart a)
    refine ⟨list', added ++ added', [a] ++ as, by simp [has, a], ?_, hins.trans hins'⟩
    have hval : ofValue p = some a := ofValue_eq_some.mpr rfl
    simp only [foldlM_cons, hval, some_bind]
    exact hrun

theorem insert_inserted (cache : OperationCache) (hallowed : RestrictsSymbols allowed)
    (list : AssertionList) (ha : IsBool allowed a.value) :
    ∃ list' added, list.insert cache a = some list' ∧ Inserted allowed list list' [a] added := by
  obtain ⟨parts, hrun, hpts⟩ := decompose_spec cache hallowed (2 * connectives a.value + 2)
    [a.value] (forall_mem_singleton.mpr ha) (by simp [work])
  rw [insert, hrun, some_bind]
  by_cases hconst : a.isConstantValue true = true
  · refine ⟨list, [], if_pos hconst, by simp, rfl, by simp, fun σ => ?_⟩
    rw [models_singleton, and_iff_left ((holds_iff_of_isConstantValue hconst σ).mpr rfl)]
  · have hbool : ∀ p ∈ parts, IsBool allowed p := fun p hp => by
      obtain ⟨o, -, hof⟩ := hpts.part p hp
      exact hof.bool
    obtain ⟨list', added, as, rfl, hfold, hins⟩ := insertParts_inserted parts hbool list
    refine ⟨list', added, (if_neg hconst).trans hfold, hins.elements, hins.mark, ?_, fun σ => ?_⟩
    · intro b hb
      obtain ⟨p, hp, hbp⟩ := hins.part b hb
      obtain ⟨o, ho, hof⟩ := hpts.part p.value (List.mem_map_of_mem hp)
      exact ⟨a, mem_cons_self, hbp.trans (mem_singleton.mp ho ▸ hof)⟩
    · have hiff := hpts.holds_iff σ
      rw [List.forall_mem_map, forall_mem_singleton] at hiff
      rw [hins.models, models_singleton]
      exact and_congr_right fun _ => hiff

theorem foldlM_inserted {α : Type*} {f : AssertionList → α → Option AssertionList}
    {g : α → List Assertion} (xs : List α) (hf : ∀ x ∈ xs, ∀ list, ∃ list' added,
      f list x = some list' ∧ Inserted allowed list list' (g x) added) (list : AssertionList) :
    ∃ list' added, xs.foldlM f list = some list' ∧
      Inserted allowed list list' (xs.flatMap g) added := by
  induction xs generalizing list with
  | nil => exact ⟨list, [], rfl, .refl allowed list⟩
  | cons x xs ih =>
    obtain ⟨hx, hxs⟩ := forall_mem_cons.mp hf
    obtain ⟨next, added, hrun, hins⟩ := hx list
    obtain ⟨list', added', hrest, hins'⟩ := ih hxs next
    refine ⟨list', added ++ added', ?_, hins.trans hins'⟩
    rw [foldlM_cons, hrun]
    exact hrest

theorem insertAll_inserted (cache : OperationCache) (hallowed : RestrictsSymbols allowed)
    (as : List Assertion) (has : ∀ a ∈ as, IsBool allowed a.value) (list : AssertionList) :
    ∃ list' added, list.insertAll cache as = some list' ∧
      Inserted allowed list list' as added := by
  obtain ⟨list', added, hrun, hins⟩ := foldlM_inserted (g := fun a => [a]) as
    (fun a ha list => insert_inserted cache hallowed list (has a ha)) list
  rw [flatMap_singleton'] at hins
  exact ⟨list', added, hrun, hins⟩

end AssertionList

end Caffeine
