import Caffeine.IR.OperationSimplifierArrays
import Caffeine.Solver.ModelEvalSound
import Caffeine.Solver.Z3.ConvertSound

/-!
# Evaluation of arrays

An array expression is a chain of stores over a symbol, given bytes or an allocation. Its evaluation
has the bytes of the expression except those of an allocation that were not stored to: they are
zero, whatever the default value.
-/

namespace Caffeine

open List BitVec

variable {index : Operation}

namespace ModelEvaluator

open Operation OperationSimplifier

structure Leaf (m : Model) (σ : Assignment) (w : Nat) (o : Operation) : Prop where
  typed : o.Interpreted
  type : o.type = .int w
  computes : Computes m σ o

/-- Array expressions over integer expressions that are evaluated to their values. -/
inductive Chain (m : Model) (σ : Assignment) (w : Nat) : Operation → Prop
  | symbol {s : Symbol} {size : Operation} (hsize : Leaf m σ w size)
    (h : m.Gives σ (.constant (.array w) s)) : Chain m σ w (.mk (.constant (.array w) s) [size])
  | fixedArray {bytes : List Operation} (hbytes : ∀ o ∈ bytes, Leaf m σ 8 o)
    (hpos : 0 < bytes.length) (hle : bytes.length ≤ 2 ^ w) : Chain m σ w (.mk (.fixedArray w) bytes)
  | alloc {size value : Operation} (hsize : Leaf m σ w size)
    (hvalue : value.Interpreted) (htype : value.type = .int 8) :
    Chain m σ w (.mk (.alloc w) [size, value])
  | store {array index value : Operation} (harray : Chain m σ w array) (hindex : Leaf m σ w index)
    (hvalue : Leaf m σ 8 value) : Chain m σ w (.mk (.store (.array w)) [array, index, value])

def number (σ : Assignment) (o : Operation) : Nat := ((o.eval σ).toInt?.map (·.val.toNat)).getD 0

/-- Sizes fit the numbers of elements, and stores are within the array. -/
def Sized (σ : Assignment) : Operation → Prop
  | .mk (.constant _ _) [size] => number σ size ≤ APInt.uint64Max
  | .mk (.fixedArray w) bytes => bytes.length < 2 ^ w ∧ bytes.length ≤ APInt.uint64Max
  | .mk (.alloc _) [size, _] => number σ size ≤ APInt.uint64Max
  | .mk (.store _) [array, index, _] => Sized σ array ∧ number σ index < array.arraySize σ
  | _ => True

def Initial (σ : Assignment) : Operation → Nat → Prop
  | .mk (.alloc _) [_, value], _ => value.eval σ = .int ⟨8, 0⟩
  | .mk (.store _) [array, index, _], j => number σ index = j ∨ Initial σ array j
  | _, _ => True

def Agrees (m : Model) (σ : Assignment) (w : Nat) (o : Operation) : Prop :=
  ∃ bytes f, visit m o = some (.array bytes w) ∧ o.eval σ = .array w f ∧
    bytes.length = o.arraySize σ ∧ ∀ j < o.arraySize σ, bytes[j]? = some (f (BitVec.ofNat w j))

/-- The evaluation has the bytes of the term for the expression, in every model of its constraints
that extends the assignment. -/
def AgreesWithZ3 (m : Model) (σ : Assignment) (w : Nat) (o : Operation) : Prop :=
  ∀ Γ sharing v e v' τ bytes, Z3.AllVisited (Z3.Admissible Γ) o → Z3.Visitor.Meaningful o σ →
    Z3.Visitor.Inv Γ v → Z3.Visitor.visit sharing o v = .ok (e, v') →
    Z3.Satisfies (Z3.model σ τ) v'.constraints → visit m o = some (.array bytes w) →
    ∀ j < o.arraySize σ, bytes[j]? = some (Z3.bytes (Z3.model σ τ) w e (BitVec.ofNat w j))

section Evaluation

variable {m : Model} {σ : Assignment} {w : Nat} {o : Operation}

/-- Where the comparisons evaluated hold and the changes of width are proper, an integer expression
without loads is evaluated to its value. -/
theorem Leaf.of_asserts (hty : o.WellTyped arithmetic) (htype : o.type = .int w)
    (hevaluable : AllEvaluated σ (Evaluable m σ) o) (hasrt : AllEvaluated σ (Asserts σ) o) :
    Leaf m σ w o := by
  refine ⟨hty.mono fun _ => interpreted_of_arithmetic, htype, ?_⟩
  obtain ⟨-, h⟩ | ⟨hnot, -⟩ := visit_outcome hty hevaluable
  · exact h
  · exact absurd hasrt hnot

theorem Leaf.value (h : Leaf m σ w o) : ∃ x : BitVec w, visit m o = some (.int ⟨w, x⟩) ∧
    o.eval σ = .int ⟨w, x⟩ ∧ number σ o = x.toNat := by
  obtain ⟨x, hvis, heval⟩ := h.computes.int h.typed h.type
  exact ⟨x, hvis, heval, by rw [number, heval]; rfl⟩

/-- The evaluation of an array: its bytes where the sizes fit, and what follows if it has its
size. -/
structure Evaluates (m : Model) (σ : Assignment) (w : Nat) (o : Operation)
    (f : BitVec w → BitVec 8) : Prop where
  typed : o.Interpreted
  type : o.type = .array w
  eval : o.eval σ = .array w f
  size_le : o.arraySize σ ≤ 2 ^ w
  limit : Sized σ o → o.arraySize σ ≤ APInt.uint64Max
  bytes : Sized σ o → ∃ bytes, visit m o = some (.array bytes w) ∧
    bytes.length = o.arraySize σ ∧
    ∀ j < o.arraySize σ, bytes[j]? = some (f (BitVec.ofNat w j)) ↔ Initial σ o j
  sized : ∀ bytes w', visit m o = some (.array bytes w') → bytes.length = o.arraySize σ → Sized σ o

theorem evaluates_symbol {s : Symbol} {size : Operation} (hsize : Leaf m σ w size)
    (h : m.Gives σ (.constant (.array w) s)) :
    Evaluates m σ w (.mk (.constant (.array w) s) [size]) (σ.array s w) := by
  obtain ⟨n, hvis, heval, hnum⟩ := hsize.value
  have harr : (mk (.constant (.array w) s) [size]).arraySize σ = n.toNat := by
    rw [arraySize, heval]
    rfl
  have hrun : visit m (.mk (.constant (.array w) s) [size]) =
      some (.array (List.ofFn fun i : Fin (min n.toNat APInt.uint64Max) =>
        σ.array s w (BitVec.ofNat w i)) w) := by
    simp only [visit_mk, visitOperation, map_cons, map_nil, hvis, some_bind, visitConstantArray,
      Value.apint, APInt.getLimitedValue, h _]
  refine ⟨?_, rfl, eval_mk σ _ _, harr ▸ n.isLt.le, fun hsized => ?_, fun hsized => ?_,
    fun bytes w' hb hlen => ?_⟩
  · exact wellTyped_mk.mpr ⟨rfl, by simp [OperationData.accepts, hsize.type],
      forall_mem_singleton.mpr hsize.typed⟩
  · rwa [Sized, hnum, ← harr] at hsized
  · rw [Sized, hnum] at hsized
    rw [harr]
    refine ⟨_, hrun, by simpa using hsized, fun j hj => iff_of_true ?_ trivial⟩
    simp [hj, Nat.lt_of_lt_of_le hj hsized]
  · rw [hrun] at hb
    cases hb
    rw [harr, length_ofFn] at hlen
    rw [Sized, hnum]
    omega

theorem evaluates_fixedArray {bytes : List Operation} (hbytes : ∀ o ∈ bytes, Leaf m σ 8 o)
    (hle : bytes.length ≤ 2 ^ w) : Evaluates m σ w (.mk (.fixedArray w) bytes)
      fun i => Semantics.byte ((bytes.map (eval σ)).getD i.toNat .poison) := by
  have harr : (mk (.fixedArray w) bytes).arraySize σ = bytes.length := by rw [arraySize]
  have hrun : visit m (.mk (.fixedArray w) bytes) =
      some (.array ((bytes.take (min (bytes.length % 2 ^ w) APInt.uint64Max)).map
        fun o => Semantics.byte (o.eval σ)) w) := by
    simp only [visit_mk, visitOperation, visitFixedArray, APInt.getLimitedValue, APInt.ofNat,
      toNat_ofNat, length_map, ← map_take, mapM_map]
    rw [mapM_eq_some_map (g := fun o => Semantics.byte (o.eval σ))]
    · rfl
    · intro o ho
      obtain ⟨x, hvis, heval, -⟩ := (hbytes o (mem_of_mem_take ho)).value
      simp [hvis, heval, Value.apint, Semantics.byte]
  refine ⟨?_, rfl, eval_mk σ _ _, harr ▸ hle, fun hsized => harr ▸ hsized.2, fun hsized => ?_,
    fun bs w' hb hlen => ?_⟩
  · refine wellTyped_mk.mpr ⟨rfl, ?_, fun o ho => (hbytes o ho).typed⟩
    simp only [OperationData.accepts, List.all_map, List.all_eq_true]
    exact fun o ho => decide_eq_true (hbytes o ho).type
  · obtain ⟨hlt, hmax⟩ := hsized
    have hmin : min (bytes.length % 2 ^ w) APInt.uint64Max = bytes.length := by
      rw [Nat.mod_eq_of_lt hlt, Nat.min_eq_left hmax]
    rw [hmin, take_length] at hrun
    refine ⟨_, hrun, by rw [harr, length_map], fun j hj => iff_of_true ?_ trivial⟩
    rw [harr] at hj
    simp [hj, Nat.mod_eq_of_lt (Nat.lt_trans hj hlt)]
  · rw [hrun] at hb
    cases hb
    have hmod : bytes.length % 2 ^ w < 2 ^ w := Nat.mod_lt _ (Nat.two_pow_pos w)
    rw [harr, length_map, length_take] at hlen
    rw [Sized]
    omega

theorem evaluates_alloc {size value : Operation} (hsize : Leaf m σ w size)
    (hval : value.Interpreted) (htype : value.type = .int 8) :
    Evaluates m σ w (.mk (.alloc w) [size, value]) fun _ => Semantics.byte (value.eval σ) := by
  obtain ⟨n, hvis, heval, hnum⟩ := hsize.value
  obtain ⟨y, hy⟩ := hval.eval_int htype σ
  have harr : (mk (.alloc w) [size, value]).arraySize σ = n.toNat := by
    rw [arraySize, heval]
    rfl
  have hrun : visit m (.mk (.alloc w) [size, value]) =
      some (.array (List.replicate (min n.toNat APInt.uint64Max) 0) w) := by
    simp [visit_mk, visitOperation, hvis, visitAlloc, Value.apint, APInt.getLimitedValue]
  refine ⟨?_, rfl, ?_, harr ▸ n.isLt.le, fun hsized => ?_, fun hsized => ?_,
    fun bytes w' hb hlen => ?_⟩
  · refine wellTyped_mk.mpr ⟨rfl, by simp [OperationData.accepts, hsize.type, htype], ?_⟩
    simp only [mem_cons, not_mem_nil, or_false, forall_eq_or_imp, forall_eq]
    exact ⟨hsize.typed, hval⟩
  · rw [eval_mk, map_cons, heval]
    rfl
  · rwa [Sized, hnum, ← harr] at hsized
  · rw [Sized, hnum] at hsized
    rw [harr]
    refine ⟨_, hrun, by simpa using hsized, fun j hj => ?_⟩
    have hzero : (List.replicate (min n.toNat APInt.uint64Max) (0 : BitVec 8))[j]? = some 0 := by
      rw [Nat.min_eq_left hsized, List.getElem?_replicate, if_pos hj]
    have hbyte : Semantics.byte (.int ⟨8, y⟩) = y := APInt.resize_width y
    rw [Initial, hy, hzero, hbyte, Option.some.injEq, Val.int.injEq, APInt.mk.injEq, heq_eq_eq,
      and_iff_right rfl]
    exact eq_comm
  · rw [hrun] at hb
    cases hb
    rw [harr, length_replicate] at hlen
    rw [Sized, hnum]
    omega

variable {f : BitVec w → BitVec 8}

theorem evaluates_store {array value : Operation} (harr : Evaluates m σ w array f)
    (hidx : Leaf m σ w index) (hval : Leaf m σ 8 value) :
    ∃ f', Evaluates m σ w (.mk (.store (.array w)) [array, index, value]) f' := by
  obtain ⟨x, hvis, heval, hnum⟩ := hidx.value
  obtain ⟨y, hvis', heval', -⟩ := hval.value
  have hsize : (mk (.store (.array w)) [array, index, value]).arraySize σ = array.arraySize σ := by
    rw [arraySize]
  have hrun : visit m (.mk (.store (.array w)) [array, index, value]) =
      (visit m array).bind fun a => Value.store a (.int ⟨w, x⟩) (.int ⟨8, y⟩) := by
    simp [visit_mk, visitOperation, hvis, hvis']
  refine ⟨Function.update f x y, ?_, rfl, ?_, hsize ▸ harr.size_le, fun hsized => ?_,
    fun hsized => ?_, fun bytes w' hb hlen => ?_⟩
  · refine wellTyped_mk.mpr ⟨rfl, ?_, ?_⟩
    · simp [OperationData.accepts, harr.type, hidx.type, hval.type]
    · simp only [mem_cons, not_mem_nil, or_false, forall_eq_or_imp, forall_eq]
      exact ⟨harr.typed, hidx.typed, hval.typed⟩
  · rw [eval_mk, map_cons, map_cons, map_cons, harr.eval, heval, heval']
    simp [Semantics.apply, Semantics.byte]
  · rw [Sized] at hsized
    exact hsize ▸ harr.limit hsized.1
  · rw [Sized, hnum] at hsized
    obtain ⟨hsized, hin⟩ := hsized
    obtain ⟨bytes, hbytes, hlength, hiff⟩ := harr.bytes hsized
    rw [hsize]
    refine ⟨bytes.set x.toNat y, ?_, by rw [length_set, hlength], fun j hj => ?_⟩
    · rw [hrun, hbytes]
      simp [Value.store, hlength, hin]
    · rw [Initial, hnum, ← hiff j hj, List.getElem?_set]
      have hjw : j < 2 ^ w := Nat.lt_of_lt_of_le hj harr.size_le
      by_cases hxj : x.toNat = j
      · have hx : BitVec.ofNat w j = x := by rw [← hxj, ofNat_toNat, setWidth_eq]
        simp [hxj, hx, hlength, hj]
      · have hx : BitVec.ofNat w j ≠ x := by
          rintro rfl
          exact hxj (by rw [toNat_ofNat, Nat.mod_eq_of_lt hjw])
        simp [hxj, hx]
  · rw [hrun, Option.bind_eq_some_iff] at hb
    obtain ⟨a, ha, hsto⟩ := hb
    cases a with
    | empty => cases hsto
    | int v => cases hsto
    | array bs w'' =>
      rw [Value.store] at hsto
      split_ifs at hsto with hcond
      cases hsto
      rw [length_set, hsize] at hlen
      exact ⟨harr.sized bs w'' ha hlen, by rw [hnum, ← hlen]; exact hcond.2.2⟩

theorem Chain.evaluates (h : Chain m σ w o) : ∃ f, Evaluates m σ w o f := by
  induction h with
  | symbol hsize h => exact ⟨_, evaluates_symbol hsize h⟩
  | fixedArray hbytes _ hle => exact ⟨_, evaluates_fixedArray hbytes hle⟩
  | alloc hsize hval htype => exact ⟨_, evaluates_alloc hsize hval htype⟩
  | store _ hidx hval ih =>
    obtain ⟨f, hf⟩ := ih
    exact evaluates_store hf hidx hval

theorem agrees_iff (h : Evaluates m σ w o f) :
    Agrees m σ w o ↔ Sized σ o ∧ ∀ j < o.arraySize σ, Initial σ o j := by
  constructor
  · rintro ⟨bytes, f', hvis, heval, hlen, hbytes⟩
    rw [h.eval] at heval
    cases heval
    have hsized := h.sized bytes w hvis hlen
    obtain ⟨bytes', hvis', -, hiff⟩ := h.bytes hsized
    rw [hvis] at hvis'
    cases hvis'
    exact ⟨hsized, fun j hj => (hiff j hj).mp (hbytes j hj)⟩
  · rintro ⟨hsized, hinitial⟩
    obtain ⟨bytes, hvis, hlen, hiff⟩ := h.bytes hsized
    exact ⟨bytes, f, hvis, h.eval, hlen, fun j hj => (hiff j hj).mpr (hinitial j hj)⟩

theorem Agrees.load (h : Agrees m σ w o) (hidx : Leaf m σ w index)
    (hin : number σ index < o.arraySize σ) : Computes m σ (.mk .load [o, index]) := by
  obtain ⟨bytes, f, hvis, heval, -, hbytes⟩ := h
  obtain ⟨x, hvis', heval', hnum⟩ := hidx.value
  rw [hnum] at hin
  refine ⟨⟨8, f x⟩, ?_, ?_⟩
  · have hbyte := hbytes x.toNat hin
    rw [ofNat_toNat, setWidth_eq] at hbyte
    simp [visit_mk, visitOperation, hvis, hvis', Value.load, hbyte]
  · rw [eval_mk, map_cons, map_cons, map_nil, heval, heval']
    simp [Semantics.apply]

theorem Agrees.withZ3 (hf : Evaluates m σ w o f) (h : Agrees m σ w o) : AgreesWithZ3 m σ w o := by
  intro Γ sharing v e v' τ bytes hadm hmean hinv hrun hsat hvis j hj
  have hspec := Z3.Visitor.visit_spec sharing o v hinv hf.typed hadm
  rw [hrun] at hspec
  obtain ⟨-, hknown, -⟩ := hspec
  obtain ⟨bytes', f', hvis', heval, -, hbytes⟩ := h
  obtain ⟨f'', heval', hterm⟩ :=
    (Z3.faithful_array hf.type).mp (hknown.faithful σ τ hmean.1 hmean.2 hsat)
  rw [heval] at heval'
  cases heval'
  rw [hvis] at hvis'
  cases hvis'
  have hjw : (BitVec.ofNat w j).toNat = j := by
    rw [toNat_ofNat, Nat.mod_eq_of_lt (Nat.lt_of_lt_of_le hj hf.size_le)]
  rw [hbytes j hj, hterm _ (hjw.symm ▸ hj)]

end Evaluation

/-- The size of an allocation is not the constant zero, which the constructor rejects. -/
def Foldable : Operation → Prop
  | .mk (.alloc w) [size, _] => constantInt? size ≠ some ⟨w, 0⟩
  | _ => True

/-- The folding constructors return the array, or a load from it, with the same bytes. -/
def Folds (σ : Assignment) (w : Nat) (o : Operation) : Prop :=
  ∀ cache, ∃ folded, Operation.createArray cache o.data o.operands = some folded ∧
    SameBytes σ w o folded

section Folding

variable {m : Model} {σ : Assignment} {w : Nat} {o : Operation}

theorem Chain.folds_iff (hw : w < 2 ^ 24) (h : Chain m σ w o) (hsized : Sized σ o) :
    Folds σ w o ↔ Foldable o := by
  obtain ⟨f, hf⟩ := h.evaluates
  have hcr : ∀ cache, Operation.createArray cache o.data o.operands =
      visitArray cache o.data o.operands := by
    obtain ⟨d, ops⟩ := o
    obtain ⟨-, hacc, -⟩ := wellTyped_mk.mp hf.typed
    exact fun cache => if_pos hacc
  simp only [Folds, hcr]
  cases h with
  | symbol hsize hgives => exact iff_of_true (fun cache => ⟨_, rfl, .refl hf.eval⟩) trivial
  | fixedArray hbytes hpos hle =>
    exact iff_of_true (fun cache => ⟨_, createFixedArray_of_pos hpos hle, .refl hf.eval⟩) trivial
  | @alloc size value hsize hval htype =>
    obtain ⟨n, -, heval, -⟩ := hsize.value
    have hspec := visitAllocOp_spec value hw heval
    rw [Foldable]
    split_ifs at hspec with hzero
    · refine iff_of_false (fun hfolds => ?_) (not_not_intro hzero)
      obtain ⟨folded, hfolded, -⟩ := hfolds .full
      rw [data_mk, operands_mk, visitArray, hspec] at hfolded
      cases hfolded
    · exact iff_of_true (fun cache => hspec) hzero
  | @store array index value harr hidx hval =>
    obtain ⟨f', hf'⟩ := harr.evaluates
    obtain ⟨x, -, heval, hnum⟩ := hidx.value
    rw [Sized, hnum] at hsized
    have hbuilt := built_of_size_le hf'.type (hf'.limit hsized.1) hf'.size_le
    exact iff_of_true (fun cache =>
      visitStoreOp_spec hf'.type hidx.type hf'.eval heval hsized.2 hbuilt) trivial

theorem Chain.folds_load (h : Chain m σ w o) (hsized : Sized σ o) (hidx : Leaf m σ w index)
    (hin : number σ index < o.arraySize σ) (cache : OperationCache) :
    ∃ folded, Operation.createArray cache .load [o, index] = some folded ∧
      folded.eval σ = (Operation.mk .load [o, index]).eval σ := by
  obtain ⟨f, hf⟩ := h.evaluates
  obtain ⟨x, -, heval, hnum⟩ := hidx.value
  have hbuilt := built_of_size_le hf.type (hf.limit hsized) hf.size_le
  rw [Operation.createArray, if_pos (by simp [OperationData.accepts, hf.type, hidx.type])]
  refine visitLoadOp_spec hf.type ⟨hidx.type, heval⟩ (hnum ▸ hin) hbuilt ?_
  exact fun elements => elements_hasType (hf.typed.mono fun _ hd =>
    OperationData.evaluatedIn_of_interpretedIn (OperationData.interpretedIn_of_interpreted σ hd))

end Folding

/-- Evaluation, translation, loads and folding agree on an array exactly if the sizes fit, bytes not
stored to are zero, and it is no allocation of size zero. -/
theorem visit_array_iff {m : Model} {σ : Assignment} {w : Nat} {o : Operation} (hw : w < 2 ^ 24)
    (h : Chain m σ w o) :
    (Agrees m σ w o ∧ AgreesWithZ3 m σ w o ∧ Folds σ w o ∧ ∀ index, Leaf m σ w index →
      number σ index < o.arraySize σ → Computes m σ (.mk .load [o, index]) ∧
        ∀ cache, ∃ folded, Operation.createArray cache .load [o, index] = some folded ∧
          folded.eval σ = (Operation.mk .load [o, index]).eval σ) ↔
      Sized σ o ∧ (∀ j < o.arraySize σ, Initial σ o j) ∧ Foldable o := by
  obtain ⟨f, hf⟩ := h.evaluates
  constructor
  · rintro ⟨hagr, -, hfolds, -⟩
    obtain ⟨hsized, hinitial⟩ := (agrees_iff hf).mp hagr
    exact ⟨hsized, hinitial, (h.folds_iff hw hsized).mp hfolds⟩
  · rintro ⟨hsized, hinitial, hfoldable⟩
    have hagr := (agrees_iff hf).mpr ⟨hsized, hinitial⟩
    exact ⟨hagr, hagr.withZ3 hf, (h.folds_iff hw hsized).mpr hfoldable, fun index hidx hin =>
      ⟨hagr.load hidx hin, fun cache => h.folds_load hsized hidx hin cache⟩⟩

namespace Sample

def n : Operation := .mk (.constant (.int 32) (.named "n")) []

def two : Model := ⟨fun _ _ => .int ⟨32, 2⟩⟩

def σ₂ : Assignment := ⟨fun _ w => BitVec.ofNat w 2, fun _ _ _ => 0, fun _ => .poison⟩

def literal (k : Nat) : Operation := .constantInt (APInt.ofNat 32 k)

def allocation (value : Nat) : Operation := .mk (.alloc 32) [n, byte value]

def stored : Operation := .mk (.store (.array 32)) [allocation 0, literal 1, byte 5]

theorem n_leaf : Leaf two σ₂ 32 n :=
  .of_asserts (by decide) rfl (.mk ⟨.inl rfl, trivial⟩ fun _ h => nomatch h)
    (.mk trivial fun _ h => nomatch h)

theorem allocation_chain (value : Nat) : Chain two σ₂ 32 (allocation value) :=
  .alloc n_leaf rfl rfl

theorem stored_chain : Chain two σ₂ 32 stored :=
  .store (allocation_chain 0) ⟨by decide, rfl, _, rfl, rfl⟩ ⟨by decide, rfl, _, rfl, rfl⟩

end Sample

open ModelEvaluator.Sample in
theorem visit_array_stored : Agrees two σ₂ 32 stored ∧ Folds σ₂ 32 stored := by
  have hsize : (allocation 0).arraySize σ₂ = 2 := by
    rw [allocation, arraySize]
    rfl
  obtain ⟨hagr, -, hfolds, -⟩ := (visit_array_iff (by decide) stored_chain).mpr (by
    refine ⟨?_, fun j hj => ?_, trivial⟩
    · rw [stored, Sized, hsize, allocation, Sized]
      decide
    · rw [stored, Initial, allocation, Initial]
      exact .inr rfl)
  exact ⟨hagr, hfolds⟩

open ModelEvaluator.Sample in
/-- Two bytes with the default value seven: zeros, although the folded allocation has sevens. -/
theorem visit_array_default_value : Chain two σ₂ 32 (allocation 7) ∧
    (allocation 7).eval σ₂ = .array 32 (fun _ => 7) ∧
    visit two (allocation 7) = some (.array [0, 0] 32) ∧
    Operation.createArray .full (.alloc 32) [literal 2, byte 7] =
      some (.mk (.fixedArray 32) [byte 7, byte 7]) ∧
    visit two (.mk (.fixedArray 32) [byte 7, byte 7]) = some (.array [7, 7] 32) :=
  ⟨allocation_chain 7, rfl, by decide, by decide +kernel, by decide⟩

end ModelEvaluator

end Caffeine
