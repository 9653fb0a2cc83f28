import Caffeine.IR.Symbols
import Caffeine.Util.LittleEndian
import Caffeine.Util.Runs

/-!
# Symbolic allocations

A symbolic allocation of a small literal size takes numbered symbols for its bytes, any other takes
an array named by the program. Heap allocations may take a numbered symbol for their address. The
numbers come from a counter that is copied when a path forks.
-/

namespace Caffeine

namespace SymbolicAlloca

open List Option LittleEndian

/-- One constant cut into bytes, a constant for each byte, or an array. -/
inductive Contents where
  | word (size number : Nat)
  | bytes (numbers : List Nat)
  | array (name : String) (width : Nat)

structure Alloc where
  contents : Contents
  address : Option Nat

def nextConstant (constants : Nat) : Option (Nat × Nat) :=
  if constants < 2 ^ 29 then some (constants, constants + 1) else none

def nextConstants : Nat → Nat → Option (List Nat × Nat)
  | 0, constants => some ([], constants)
  | n + 1, constants => do
    let (k, constants) ← nextConstant constants
    let (ks, constants) ← nextConstants n constants
    some (k :: ks, constants)

def createFixedLengthSymbolicData (size constants : Nat) : Option (Contents × Nat) :=
  if size = 1 ∨ size = 2 ∨ size = 4 ∨ size = 8 then
    (nextConstant constants).map fun (k, constants) => (.word size k, constants)
  else (nextConstants size constants).map fun (ks, constants) => (.bytes ks, constants)

/-- With the size of a symbolic allocation if it is a literal, the width of its indices, and whether
addresses have become symbolic. -/
inductive Event where
  | symbolicAlloca (size : Option Nat) (name : String) (width : Nat) (symbolic : Bool)
  | allocate (symbolic : Bool)
  | fork

/-- The size is a literal below `MAX_FIXED_CONSTANT_SIZE`. -/
def isFixed (size : Option Nat) : Bool := size.any (· < 10 * 1024 * 1024)

/-- The contents; those of a heap allocation have no symbols. -/
def Event.data (constants : Nat) : Event → Option (Contents × Nat)
  | .symbolicAlloca size name width _ =>
    if isFixed size then createFixedLengthSymbolicData (size.getD 0) constants
    else some (.array name width, constants)
  | _ => some (.bytes [], constants)

def allocAddr (constants : Nat) (symbolic : Bool) : Option (Option Nat × Nat) :=
  if symbolic then (nextConstant constants).map fun (k, constants) => (some k, constants)
  else some (none, constants)

/-- The number of the next symbol and the allocations, newest first. -/
structure Path where
  constants : Nat
  allocs : List Alloc

def step (p : Path) (e : Event) : Option Path :=
  match e with
  | .fork => some p
  | .symbolicAlloca _ _ _ symbolic | .allocate symbolic => do
    let (contents, constants) ← e.data p.constants
    let (address, constants) ← allocAddr constants symbolic
    some ⟨constants, ⟨contents, address⟩ :: p.allocs⟩

def Event.arrayName : Event → Option String
  | .symbolicAlloca size name _ _ => if isFixed size then none else some name
  | _ => none

namespace Contents

def name : Contents → Option String
  | array name _ => some name
  | _ => none

def numbers : Contents → List Nat
  | word _ k => [k]
  | bytes ks => ks
  | array _ _ => []

def size : Contents → Nat
  | word n _ => n
  | bytes ks => ks.length
  | array _ w => 2 ^ w

def byte (σ : Assignment) : Contents → Nat → BitVec 8
  | word n k, i => LittleEndian.byte (σ.int (.numbered k) (8 * n)) i
  | bytes ks, i => σ.int (.numbered (ks.getD i 0)) 8
  | array name w, i => σ.array (.named name) w (.ofNat w i)

/-- One turn of the loop that stores the bytes of a constant, before folding. -/
def storeByte (w n k : Nat) (data : Operation) (i : Nat) : Operation :=
  .mk (.store (.array w)) [data, .constantInt (.ofNat w i),
    .mk (.unary .trunc (.int 8)) [.mk (.binary .lshr (.int (8 * n)))
      [.constant (.int (8 * n)) (.numbered k), .constantInt (.ofNat (8 * n) (i * 8))]]]

/-- The data of an allocation with indices of `w` bits. -/
def data (w : Nat) (size : Operation) : Contents → Operation
  | word n k => (range n).foldl (storeByte w n k) (.mk (.alloc w) [size, .constantInt ⟨8, 0⟩])
  | bytes ks => .mk (.fixedArray w) (ks.map fun k => .constant (.int 8) (.numbered k))
  | array name w => .mk (.constant (.array w) (.named name)) [size]

def pick (c : Contents) (values : Nat → BitVec 8) : Assignment where
  int s w := match c, s with
    | word n _, _ => combine w values n
    | bytes ks, .numbered k => (values (ks.idxOf k)).setWidth w
    | _, _ => 0
  array _ _ x := values x.toNat

variable {c : Contents} {i w : Nat} {σ : Assignment} {size : Operation}

theorem eval_storeByte {n k : Nat} {data : Operation} {f : BitVec w → BitVec 8} (hi : i < n)
    (h : data.eval σ = .array w f) : (storeByte w n k data i).eval σ =
      .array w (Function.update f (.ofNat w i) ((word n k).byte σ i)) := by
  have hlt : i * 8 < 2 ^ (8 * n) := lt_of_lt_of_le (by omega) Nat.lt_two_pow_self.le
  have hbyte := ushiftRight_setWidth_eq_byte (m := 8 * n) (σ.int (.numbered k) (8 * n))
    (show 8 * (i + 1) ≤ 8 * n by omega)
  rw [BitVec.setWidth_eq, Nat.mul_comm 8 i] at hbyte
  simp [storeByte, Operation.eval_mk, h, Semantics.apply, Operation.constantInt, Operation.constant,
    Semantics.binary, Semantics.unary, Semantics.bitvec, Semantics.byte, APInt.ofNat, APInt.trunc,
    byte, Ty.bitwidth, APInt.resize_width, ← hbyte, Nat.mod_eq_of_lt hlt]

/-- The bytes of the data are those of the contents. -/
theorem eval_data (hsize : (size.eval σ).HasType (.int w)) (hc : c.size ≤ 2 ^ w)
    (harray : ∀ name w', c = array name w' → w' = w) : ∃ f, (c.data w size).eval σ = .array w f ∧
      ∀ i < c.size, f (.ofNat w i) = c.byte σ i := by
  cases c with
  | word n k =>
    obtain ⟨v, hv⟩ := Val.hasType_int.mp hsize
    have hn : n ≤ 2 ^ w := hc
    have hstored : ∀ m ≤ n, ((range m).foldl (storeByte w n k)
        (.mk (.alloc w) [size, .constantInt ⟨8, 0⟩])).eval σ =
          .array w (splice (fun _ => 0) 0#w ((word n k).byte σ) m) := by
      intro m hm
      induction m with
      | zero =>
        rw [range_zero, foldl_nil, Operation.eval_mk, map_cons, hv]
        rfl
      | succ m ih =>
        rw [range_succ, foldl_append, splice, BitVec.zero_add]
        exact eval_storeByte hm (ih (by omega))
    refine ⟨_, hstored n le_rfl, fun i hi => ?_⟩
    rw [← BitVec.zero_add (.ofNat w i)]
    exact splice_at hi (by simpa)
  | bytes ks =>
    refine ⟨_, Operation.eval_mk σ _ _, fun i hi => ?_⟩
    have hmod : i % 2 ^ w = i := Nat.mod_eq_of_lt (lt_of_lt_of_le hi hc)
    have hlen : i < ks.length := hi
    simp [byte, hmod, hlen, Operation.constant, Operation.eval_mk, Semantics.apply, Semantics.byte,
      APInt.resize_width]
  | array name w' =>
    obtain rfl := harray name w' rfl
    exact ⟨_, rfl, fun i _ => rfl⟩

theorem byte_pick {values : Nat → BitVec 8} (hc : c.numbers.Nodup) (hi : i < c.size) :
    c.byte (c.pick values) i = values i := by
  cases c with
  | word n k => exact byte_combine values hi le_rfl
  | bytes ks =>
    simp only [byte, pick, getD_eq_getElem _ _ hi, BitVec.setWidth_eq]
    exact congrArg values (hc.idxOf_getElem i hi)
  | array name w => exact congrArg values (Nat.mod_eq_of_lt hi)

end Contents

namespace Alloc

def numbers (a : Alloc) : List Nat := a.contents.numbers ++ a.address.toList

def symbols (a : Alloc) : List Symbol :=
  a.contents.name.toList.map .named ++ a.numbers.map .numbered

def Apart (a b : Alloc) : Prop := a.symbols.Disjoint b.symbols

theorem byte_congr {a : Alloc} {σ τ : Assignment} {i : Nat} (hi : i < a.contents.size)
    (h : ∀ s ∈ a.symbols, σ.env s = τ.env s) : a.contents.byte σ i = a.contents.byte τ i := by
  obtain ⟨c, address⟩ := a
  have hint : ∀ k ∈ c.numbers, σ.int (.numbered k) = τ.int (.numbered k) := fun k hk =>
    congrArg Prod.fst (h _ (by simp [symbols, numbers, hk]))
  cases c with
  | word n k => simp only [Contents.byte, hint k mem_cons_self]
  | bytes ks => simp only [Contents.byte, getD_eq_getElem _ _ hi, hint _ (getElem_mem hi)]
  | array name w =>
    have harr : σ.array (.named name) = τ.array (.named name) :=
      congrArg Prod.snd (h _ (by simp [symbols, Contents.name]))
    simp only [Contents.byte, harr]

theorem apart_iff {a b : Alloc} (h : a.numbers.Disjoint b.numbers) :
    a.Apart b ↔ ∀ n ∈ a.contents.name, ∀ m ∈ b.contents.name, n ≠ m := by
  have hsym : ∀ a : Alloc, ∀ s, s ∈ a.symbols ↔
      (∃ n ∈ a.contents.name, .named n = s) ∨ ∃ k ∈ a.numbers, .numbered k = s := by
    simp [symbols]
  simp only [Apart, List.Disjoint, hsym]
  constructor
  · rintro hs n hn m hm rfl
    exact hs (.inl ⟨n, hn, rfl⟩) (.inl ⟨n, hm, rfl⟩)
  · rintro hne s (⟨n, hn, rfl⟩ | ⟨k, hk, rfl⟩) (⟨m, hm, heq⟩ | ⟨j, hj, heq⟩) <;> cases heq
    · exact hne n hn n hm rfl
    · exact h hk hj

end Alloc

/-- Numbers taken while the counter went from `c` to `c'`. -/
structure Taken (c c' : Nat) (ks : List Nat) : Prop where
  le : c ≤ c'
  range : ∀ k ∈ ks, c ≤ k ∧ k < c'
  nodup : ks.Nodup

variable {c c' c₁ : Nat} {ks js : List Nat} {p p' : Path} {e : Event}

theorem Taken.nil (c : Nat) : Taken c c [] := ⟨le_rfl, by simp, nodup_nil⟩

theorem Taken.append (hks : Taken c c₁ ks) (hjs : Taken c₁ c' js) : Taken c c' (ks ++ js) := by
  refine ⟨hks.le.trans hjs.le, fun k hk => ?_, hks.nodup.append hjs.nodup fun k hk hk' => ?_⟩
  · obtain hk | hk := mem_append.mp hk
    · exact ⟨(hks.range k hk).1, (hks.range k hk).2.trans_le hjs.le⟩
    · exact ⟨hks.le.trans (hjs.range k hk).1, (hjs.range k hk).2⟩
  · exact absurd (hks.range k hk).2 (hjs.range k hk').1.not_gt

theorem nextConstant_taken {k : Nat} (h : nextConstant c = some (k, c')) : Taken c c' [k] := by
  obtain ⟨-, h⟩ := ite_none_right_eq_some.mp h
  cases h
  exact ⟨c.le_succ, by simp, nodup_singleton _⟩

theorem nextConstants_taken {n : Nat} (h : nextConstants n c = some (ks, c')) : Taken c c' ks := by
  induction n generalizing c ks with
  | zero =>
    cases h
    exact .nil _
  | succ n ih =>
    obtain ⟨⟨k, c₁⟩, hk, h⟩ := bind_eq_some_iff.mp h
    obtain ⟨⟨ks, c₂⟩, hks, h⟩ := bind_eq_some_iff.mp h
    cases h
    exact (nextConstant_taken hk).append (ih hks)

theorem Event.data_taken {contents : Contents} (h : e.data c = some (contents, c')) :
    Taken c c' contents.numbers ∧ contents.name = e.arrayName := by
  unfold data at h
  split at h
  case h_1 size name w _ =>
    split_ifs at h with hfix
    · unfold createFixedLengthSymbolicData at h
      split_ifs at h
      · obtain ⟨⟨k, c₁⟩, hk, h⟩ := map_eq_some_iff.mp h
        cases h
        exact ⟨nextConstant_taken hk, by simp [arrayName, hfix, Contents.name]⟩
      · obtain ⟨⟨ks, c₁⟩, hks, h⟩ := map_eq_some_iff.mp h
        cases h
        exact ⟨nextConstants_taken hks, by simp [arrayName, hfix, Contents.name]⟩
    · cases h
      exact ⟨.nil c, by simp [arrayName, hfix, Contents.name]⟩
  case h_2 he =>
    cases h
    cases e with
    | symbolicAlloca size name w symbolic => exact absurd rfl (he size name w symbolic)
    | _ => exact ⟨.nil c, rfl⟩

theorem allocAddr_taken {symbolic : Bool} {address : Option Nat}
    (h : allocAddr c symbolic = some (address, c')) : Taken c c' address.toList := by
  unfold allocAddr at h
  split_ifs at h
  · obtain ⟨⟨k, c₁⟩, hk, h⟩ := map_eq_some_iff.mp h
    cases h
    exact nextConstant_taken hk
  · cases h
    exact .nil c

theorem step_cases (h : step p e = some p') : p' = p ∧ e.arrayName = none ∨
    ∃ a, p'.allocs = a :: p.allocs ∧ Taken p.constants p'.constants a.numbers ∧
      a.contents.name = e.arrayName := by
  by_cases hfork : e = .fork
  · subst hfork
    exact .inl ⟨(some.inj h).symm, rfl⟩
  · have hadd : ∃ symbolic, (do
        let (contents, constants) ← e.data p.constants
        let (address, constants) ← allocAddr constants symbolic
        some (⟨constants, ⟨contents, address⟩ :: p.allocs⟩ : Path)) = some p' := by
      cases e with
      | fork => exact absurd rfl hfork
      | _ => exact ⟨_, h⟩
    obtain ⟨symbolic, h⟩ := hadd
    obtain ⟨⟨contents, c₁⟩, hdata, h⟩ := bind_eq_some_iff.mp h
    obtain ⟨⟨address, c₂⟩, haddr, h⟩ := bind_eq_some_iff.mp h
    cases h
    obtain ⟨htaken, hname⟩ := e.data_taken hdata
    exact .inr ⟨_, rfl, htaken.append (allocAddr_taken haddr), hname⟩

/-- A path on which the arrays named by `names` have been allocated. -/
structure Fresh (names : List String) (p : Path) : Prop where
  below : ∀ a ∈ p.allocs, ∀ k ∈ a.numbers, k < p.constants
  nodup : ∀ a ∈ p.allocs, a.numbers.Nodup
  apart : p.allocs.Pairwise fun a b => a.numbers.Disjoint b.numbers
  named : p.allocs.filterMap (·.contents.name) = names

theorem Fresh.next {names : List String} (hp : Fresh names p) (h : step p e = some p') :
    Fresh (e.arrayName.toList ++ names) p' := by
  obtain ⟨rfl, hnone⟩ | ⟨a, hallocs, htaken, hname⟩ := step_cases h
  · simpa [hnone] using hp
  · refine ⟨?_, ?_, ?_, ?_⟩ <;> rw [hallocs]
    · exact forall_mem_cons.mpr ⟨fun k hk => (htaken.range k hk).2,
        fun b hb k hk => (hp.below b hb k hk).trans_le htaken.le⟩
    · exact forall_mem_cons.mpr ⟨htaken.nodup, hp.nodup⟩
    · refine pairwise_cons.mpr ⟨fun b hb k hk hk' => ?_, hp.apart⟩
      exact absurd (hp.below b hb k hk') (htaken.range k hk).1.not_gt
    · rw [filterMap_cons, hname, hp.named]
      cases e.arrayName <;> rfl

theorem Fresh.run {names : List String} {events : List Event} (hp : Fresh names p)
    (h : Runs.run step p events = some p') :
    Fresh ((events.filterMap Event.arrayName).reverse ++ names) p' := by
  induction events generalizing p names with
  | nil =>
    cases h
    exact hp
  | cons e events ih =>
    obtain ⟨p₁, hstep, h⟩ := Runs.run_cons.mp h
    have hrest := ih (hp.next hstep) h
    cases hname : e.arrayName <;> simpa [filterMap_cons, hname] using hrest

theorem exists_assignment (allocs : List Alloc) (values : Nat → Nat → BitVec 8)
    (hd : allocs.Pairwise Alloc.Apart) (hn : ∀ a ∈ allocs, a.numbers.Nodup) :
    ∃ σ : Assignment, ∀ i a, allocs[i]? = some a →
      ∀ j < a.contents.size, a.contents.byte σ j = values i j := by
  induction allocs generalizing values with
  | nil => exact ⟨default, by simp⟩
  | cons a allocs ih =>
    obtain ⟨ha, hd⟩ := pairwise_cons.mp hd
    obtain ⟨hna, hn⟩ := forall_mem_cons.mp hn
    obtain ⟨τ, hτ⟩ := ih (fun i => values (i + 1)) hd hn
    let env (s : Symbol) := if s ∈ a.symbols then (a.contents.pick (values 0)).env s else τ.env s
    refine ⟨.ofEnv env, fun i b hb j hj => ?_⟩
    cases i with
    | zero =>
      obtain rfl : a = b := some.inj hb
      refine Eq.trans ?_ (Contents.byte_pick (nodup_append.mp hna).1 hj)
      exact Alloc.byte_congr hj fun s hs => if_pos hs
    | succ i =>
      refine Eq.trans ?_ (hτ i b hb j hj)
      exact Alloc.byte_congr hj fun s hs => if_neg fun hs' => ha b (mem_of_getElem? hb) hs' hs

theorem independent_iff (constants : Nat) (events : List Event) (p : Path)
    (h : Runs.run step ⟨constants, []⟩ events = some p) :
    (p.allocs.Pairwise Alloc.Apart ↔ (events.filterMap Event.arrayName).Nodup) ∧
    ((events.filterMap Event.arrayName).Nodup → ∀ values : Nat → Nat → BitVec 8,
      ∃ σ : Assignment, ∀ i a, p.allocs[i]? = some a →
        ∀ j < a.contents.size, a.contents.byte σ j = values i j) := by
  have hstart : Fresh [] ⟨constants, []⟩ := ⟨by simp, by simp, .nil, rfl⟩
  have hp := hstart.run h
  have hiff : p.allocs.Pairwise Alloc.Apart ↔
      (events.filterMap Event.arrayName).Nodup := by
    rw [← nodup_reverse, ← append_nil (reverse _), ← hp.named, Nodup, pairwise_filterMap]
    constructor
    · exact fun hd => (hp.apart.and hd).imp fun h => (Alloc.apart_iff h.1).mp h.2
    · exact fun hd => (hp.apart.and hd).imp fun h => (Alloc.apart_iff h.1).mpr h.2
  exact ⟨hiff, fun hnames values => exists_assignment p.allocs values (hiff.mpr hnames) hp.nodup⟩

theorem independent_iff_mixed : ∃ p, Runs.run step ⟨0, []⟩ [.symbolicAlloca (some 4) "a" 64 true,
    .fork, .symbolicAlloca none "x" 64 false, .symbolicAlloca none "y" 64 false] = some p ∧
      p.allocs.Pairwise Alloc.Apart :=
  ⟨_, rfl, (independent_iff 0 [.symbolicAlloca (some 4) "a" 64 true, .fork,
    .symbolicAlloca none "x" 64 false, .symbolicAlloca none "y" 64 false] _ rfl).1.mpr (by decide)⟩

/-- Two arrays of one name are one array. -/
theorem independent_shared : ∃ p a b, Runs.run step ⟨0, []⟩ [.symbolicAlloca none "x" 64 false,
    .symbolicAlloca none "x" 64 false] = some p ∧ p.allocs = [a, b] ∧
      ¬ a.Apart b ∧ ∀ σ i, a.contents.byte σ i = b.contents.byte σ i :=
  ⟨_, _, _, rfl, rfl, fun h => h mem_cons_self mem_cons_self, fun _ _ => rfl⟩

end SymbolicAlloca

end Caffeine
