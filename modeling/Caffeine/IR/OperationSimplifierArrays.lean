import Caffeine.Solver.Solver

/-!
# The folding constructors of arrays

An allocation of constant size becomes an array of its elements, a store at a constant index
replaces one, and a load selects one. Within their size the results have the bytes of the
operations. `FixedArray::Create` rejects an empty array, since `ilog2` of zero wraps.
-/

namespace Caffeine

open List hiding beq_eq_decide

/-- `ilog2`, rounded up, as a number of 64 bits. -/
def ilog2 (x : Nat) : Nat :=
  if x = 0 then 2 ^ 64 - 1 else Nat.log2 x + if x &&& (x - 1) = 0 then 0 else 1

theorem ilog2_le_iff {x w : Nat} (hx : 0 < x) : ilog2 x ≤ w ↔ x ≤ 2 ^ w := by
  have hne : x ≠ 0 := Nat.pos_iff_ne_zero.mp hx
  rw [ilog2, if_neg hne]
  split_ifs with hpow
  · obtain ⟨k, rfl⟩ := (Nat.and_sub_one_eq_zero_iff_isPowerOfTwo hne).mp hpow
    rw [Nat.add_zero, Nat.log2_two_pow, Nat.pow_le_pow_iff_right Nat.one_lt_two]
  · have hnot : x ≠ 2 ^ w := by
      rintro rfl
      exact hpow ((Nat.and_sub_one_eq_zero_iff_isPowerOfTwo hne).mpr ⟨w, rfl⟩)
    rw [Nat.add_one_le_iff, Nat.log2_lt hne]
    omega

variable {o data offset : Operation} {elements : List Operation}

namespace OperationSimplifier

open Operation

def createFixedArray (w : Nat) (data : List Operation) : Option Operation :=
  if ilog2 data.length ≤ w then some (.mk (.fixedArray w) data) else none

def fixedArray? (op : Operation) : Option (List Operation) :=
  match op.data with
  | .fixedArray _ => some op.operands
  | _ => none

def visitAllocOp (w : Nat) (size value : Operation) : Option Operation :=
  match constantInt? size with
  | some v =>
    if v.getLimitedValue APInt.uint64Max < APInt.uint64Max then
      createFixedArray w (List.replicate (v.getLimitedValue APInt.uint64Max) value)
    else some (.mk (.alloc w) [size, value])
  | none => some (.mk (.alloc w) [size, value])

section Visitors

variable (cache : OperationCache)

def selectElement (offset output : Operation) (element : Operation × Nat) : Option Operation := do
  let here ← createICmpLiteral cache .eq offset element.2
  Operation.create cache (.select element.1.type) [here, element.1, output]

/-- An index past the end is undefined, `none` here. Interning does not change the operation. -/
def visitLoadOp (data offset : Operation) : Option Operation :=
  match fixedArray? data with
  | some elements =>
    match constantInt? offset with
    | some v => elements[v.getLimitedValue APInt.uint64Max]?
    | none =>
      if elements.length < 1024 then
        elements.zipIdx.foldlM (selectElement cache offset) (.mk (.undef (.int 8)) [])
      else some (.mk .load [data, offset])
  | none => some (.mk .load [data, offset])

def visitStoreOp (data offset value : Operation) : Option Operation :=
  match fixedArray? data, constantInt? offset with
  | some elements, some v =>
    if v.getLimitedValue APInt.uint64Max < elements.length then
      createFixedArray offset.type.bitwidth
        (elements.set (v.getLimitedValue APInt.uint64Max) value)
    else none
  | _, _ => some (.mk (.store data.type) [data, offset, value])

end Visitors

def visitArray (cache : OperationCache) : OperationData → List Operation → Option Operation
  | .alloc w, [size, value] => visitAllocOp w size value
  | .store _, [data, offset, value] => visitStoreOp data offset value
  | .load, [data, offset] => visitLoadOp cache data offset
  | .fixedArray w, data => createFixedArray w data
  | d, ops => some (.mk d ops)

/-- `constant_fold`, which runs the visitor of an operation; `none` for the float opcodes. -/
def constantFold (cache : OperationCache) (d : OperationData) (ops : List Operation) :
    Option Operation :=
  match d with
  | .alloc _ | .store _ | .load => visitArray cache d ops
  | .binary _ _ | .icmp _ | .fcmp _ | .unary _ _ | .select _ => visit cache (.mk d ops)
  | _ => some (.mk d ops)

/-- `Operation::CreateRaw`. The range of opcodes whose operands are compared has the comparisons of
floats in it and those of integers not. -/
def createRaw (cache : OperationCache) (d : OperationData) (ops : List Operation) :
    Option Operation :=
  match d, ops with
  | .binary _ _, lhs :: rhs :: _ | .fcmp _, lhs :: rhs :: _ =>
    if lhs.type = rhs.type then constantFold cache d ops else none
  | _, _ => constantFold cache d ops

theorem constantFold_of_createRaw {cache : OperationCache} {d : OperationData}
    {ops : List Operation} (h : createRaw cache d ops = some o) :
    constantFold cache d ops = some o := by
  unfold createRaw at h
  split at h
  · split_ifs at h
    exact h
  · split_ifs at h
    exact h
  · exact h

def SameBytes (σ : Assignment) (w : Nat) (o o' : Operation) : Prop :=
  ∃ f f', o.eval σ = .array w f ∧ o'.eval σ = .array w f' ∧ o'.arraySize σ = o.arraySize σ ∧
    ∀ i : BitVec w, i.toNat < o.arraySize σ → f' i = f i

/-- A `FixedArray` passed the assertion of its constructor, with a `size_t` of elements. -/
def Built (o : Operation) : Prop :=
  ∀ elements, fixedArray? o = some elements →
    elements.length ≤ 2 ^ o.type.bitwidth ∧ elements.length ≤ APInt.uint64Max

structure Valued (σ : Assignment) (o : Operation) {w : Nat} (x : BitVec w) : Prop where
  type : o.type = .int w
  value : o.eval σ = .int ⟨w, x⟩

section Sound

variable {cache : OperationCache} {σ : Assignment} {w : Nat}

variable {x : BitVec w}

theorem Denotes.valued (h : Denotes σ o x) : Valued σ o x :=
  ⟨h.type, h.value⟩

theorem SameBytes.refl {f : BitVec w → BitVec 8} (h : o.eval σ = .array w f) :
    SameBytes σ w o o := ⟨f, f, h, h, rfl, fun _ _ => rfl⟩

theorem fixedArray?_eq_some (h : fixedArray? o = some elements) :
    ∃ w, o = .mk (.fixedArray w) elements := by
  obtain ⟨d, ops⟩ := o
  unfold fixedArray? at h
  split at h
  · cases h
    rename_i w hd
    exact ⟨w, congrArg (mk · ops) hd⟩
  · cases h

theorem built_of_size_le (htype : o.type = .array w) (hsize : o.arraySize σ ≤ APInt.uint64Max)
    (hfits : o.arraySize σ ≤ 2 ^ w) : Built o := by
  intro elements helts
  obtain ⟨w', rfl⟩ := fixedArray?_eq_some helts
  cases htype
  rw [arraySize] at hsize hfits
  exact ⟨hfits, hsize⟩

theorem eval_fixedArray (elements : List Operation) : (mk (.fixedArray w) elements).eval σ =
    .array w fun i => Semantics.byte ((elements.map (eval σ)).getD i.toNat .poison) :=
  eval_mk σ _ _

theorem createFixedArray_of_pos {data : List Operation} (hpos : 0 < data.length)
    (hle : data.length ≤ 2 ^ w) : createFixedArray w data = some (.mk (.fixedArray w) data) :=
  if_pos ((ilog2_le_iff hpos).mpr hle)

theorem createFixedArray_nil (hw : w < 2 ^ 24) : createFixedArray w [] = none := by
  refine if_neg (Nat.not_le.mpr ?_)
  have hzero : ilog2 ([] : List Operation).length = 2 ^ 64 - 1 := rfl
  omega

theorem visitAllocOp_spec {size : Operation} (value : Operation) {n : BitVec w} (hw : w < 2 ^ 24)
    (hsize : size.eval σ = .int ⟨w, n⟩) :
    if constantInt? size = some ⟨w, 0⟩ then visitAllocOp w size value = none
    else ∃ folded, visitAllocOp w size value = some folded ∧
      SameBytes σ w (.mk (.alloc w) [size, value]) folded := by
  have heval : (mk (.alloc w) [size, value]).eval σ =
      .array w fun _ => Semantics.byte (value.eval σ) := by
    rw [eval_mk, map_cons, hsize]
    rfl
  have harr : (mk (.alloc w) [size, value]).arraySize σ = n.toNat := by
    rw [arraySize, hsize]
    rfl
  unfold visitAllocOp
  cases hcon : constantInt? size with
  | none => exact ⟨_, rfl, .refl heval⟩
  | some v =>
    rw [eval_constantInt hcon] at hsize
    cases hsize
    by_cases hzero : n = 0
    · subst hzero
      have hmin : (APInt.mk w 0).getLimitedValue APInt.uint64Max = 0 := by
        simp [APInt.getLimitedValue]
      rw [if_pos rfl]
      simp only [hmin, List.replicate_zero, createFixedArray_nil hw]
      exact if_pos (by decide)
    · have hpos : 0 < n.toNat := BitVecFacts.toNat_pos hzero
      rw [if_neg (by simpa using hzero)]
      dsimp only
      split_ifs with hmax
      · have hmin : (APInt.mk w n).getLimitedValue APInt.uint64Max = n.toNat := by
          simp only [APInt.getLimitedValue] at hmax ⊢
          omega
        rw [hmin]
        refine ⟨_, createFixedArray_of_pos (by simpa using hpos) (by simpa using n.isLt.le), _, _,
          heval, eval_fixedArray _, ?_, fun i hi => ?_⟩
        · rw [harr, arraySize, length_replicate]
        · rw [harr] at hi
          simp [hi]
      · exact ⟨_, rfl, .refl heval⟩

theorem visitStoreOp_spec {value : Operation} {f : BitVec w → BitVec 8}
    (hdata : data.type = .array w) (hoff : offset.type = .int w) (hf : data.eval σ = .array w f)
    (hx : offset.eval σ = .int ⟨w, x⟩) (hin : x.toNat < data.arraySize σ) (hbuilt : Built data) :
    ∃ folded, visitStoreOp data offset value = some folded ∧
      SameBytes σ w (.mk (.store (.array w)) [data, offset, value]) folded := by
  have heval : (mk (.store (.array w)) [data, offset, value]).eval σ =
      .array w (Function.update f x (Semantics.byte (value.eval σ))) := by
    rw [eval_mk, map_cons, map_cons, hf, hx]
    simp [Semantics.apply]
  have harr : (mk (.store (.array w)) [data, offset, value]).arraySize σ = data.arraySize σ := by
    rw [arraySize]
  unfold visitStoreOp
  split
  · rename_i elements v hfix hcon
    rw [eval_constantInt hcon] at hx
    cases hx
    obtain ⟨hfits, hsize⟩ := hbuilt elements hfix
    obtain ⟨w', rfl⟩ := fixedArray?_eq_some hfix
    cases hdata
    rw [type_mk, OperationData.type, Ty.bitwidth] at hfits
    rw [eval_fixedArray] at hf
    obtain ⟨-, rfl⟩ : w = w ∧ _ := by simpa using hf
    have hlen : (mk (.fixedArray w) elements).arraySize σ = elements.length := by rw [arraySize]
    rw [hlen] at hin
    have hmin : (APInt.mk w x).getLimitedValue APInt.uint64Max = x.toNat := by
      simp only [APInt.getLimitedValue]
      omega
    rw [hmin, if_pos hin, hoff, Ty.bitwidth]
    refine ⟨_, createFixedArray_of_pos (by simp; omega) (by simpa using hfits), _, _, heval,
      eval_fixedArray _, ?_, fun i hi => ?_⟩
    · rw [harr, arraySize, length_set, hlen]
    · rw [harr, hlen] at hi
      simp only [map_set, getD_eq_getElem?_getD, List.getElem?_set, length_map, List.getElem?_map]
      by_cases hix : x = i
      · subst hix
        simp [hi]
      · have hne : x.toNat ≠ i.toNat := fun h => hix (BitVec.eq_of_toNat_eq h)
        rw [if_neg hne, Function.update_of_ne (Ne.symm hix)]
  · rw [hdata]
    exact ⟨_, rfl, .refl heval⟩

theorem elements_hasType (hdata : data.WellTyped (OperationData.evaluatedIn σ))
    (helts : fixedArray? data = some elements) :
    ∀ o ∈ elements, o.type = .int 8 ∧ (o.eval σ).HasType (.int 8) := by
  obtain ⟨w', rfl⟩ := fixedArray?_eq_some helts
  obtain ⟨-, hacc, hty⟩ := wellTyped_mk.mp hdata
  intro o ho
  have htype : o.type = .int 8 := by
    simp only [OperationData.accepts, List.all_map, List.all_eq_true, Function.comp_apply,
      decide_eq_true_eq] at hacc
    exact hacc o ho
  exact ⟨htype, htype ▸ (hty o ho).evaluated_hasType⟩

theorem createICmpLiteral_valued (ho : Valued σ o x) {k : Nat} (hk : k < 2 ^ w) :
    ∃ here, createICmpLiteral cache .eq o k = some here ∧
      Valued σ here (BitVec.ofBool (decide (x.toNat = k))) := by
  have hcompare : Semantics.compare .eq x (BitVec.ofNat w k) = decide (x.toNat = k) := by
    refine (beq_eq_decide ..).trans (decide_eq_decide.mpr ?_)
    rw [← BitVec.toNat_inj, BitVec.toNat_ofNat, Nat.mod_eq_of_lt hk]
  have hcr : createICmpLiteral cache .eq o k =
      visitICmp cache .eq o (constantInt (APInt.ofNat w k)) := by
    rw [createICmpLiteral, createICmp, Operation.create, if_pos]
    · rw [ho.type]
      rfl
    · simp [OperationData.accepts, ho.type, constantInt, OperationData.type, APInt.ofNat,
        Ty.bitwidth]
  rw [hcr, ← hcompare]
  unfold visitICmp tryConstInt
  cases hcon : constantInt? o with
  | some v =>
    have hv := ho.value
    rw [eval_constantInt hcon] at hv
    cases hv
    refine ⟨_, rfl, rfl, ?_⟩
    simp only [Semantics.constantIntCompare_eq, constantInt, eval_mk, APInt.ofNat,
      APInt.resize_width, APInt.ofBool, Semantics.apply]
  | none =>
    have hsame : ¬ cache.same o (constantInt (APInt.ofNat w k)) = true := by
      intro hsame
      rw [cache.eq_of_same _ _ hsame] at hcon
      cases hcon
    refine ⟨_, if_neg hsame, rfl, ?_⟩
    rw [eval_mk, map_cons, map_cons, map_nil, ho.value]
    simp only [Semantics.apply, Semantics.icmp, constantInt, eval_mk, APInt.ofNat,
      APInt.resize_width, APInt.ofBool]

theorem foldlM_selectElement {output : Operation} (hoff : Valued σ offset x)
    (htype : ∀ o ∈ elements, o.type = .int 8) (hout : output.type = .int 8) {k : Nat}
    (hk : k + elements.length ≤ 2 ^ w) :
    ∃ folded, (elements.zipIdx k).foldlM (selectElement cache offset) output = some folded ∧
      folded.type = .int 8 ∧ folded.eval σ =
        if k ≤ x.toNat then ((elements.map (eval σ))[x.toNat - k]?).getD (output.eval σ)
        else output.eval σ := by
  induction elements generalizing output k with
  | nil => exact ⟨output, rfl, hout, by simp⟩
  | cons o elements ih =>
    obtain ⟨ho, htype⟩ := forall_mem_cons.mp htype
    rw [length_cons] at hk
    obtain ⟨here, hhere, hval⟩ : ∃ here, createICmpLiteral cache .eq offset k = some here ∧ _ :=
      createICmpLiteral_valued hoff (by omega)
    obtain ⟨next, hnext, hcases, hvalue⟩ : ∃ o', visitSelectOp cache (.int 8) here o output =
        some o' ∧ _ := visitSelectOp_returns hval.value
    have hcr : Operation.create cache (.select (.int 8)) [here, o, output] = some next := by
      rw [Operation.create, if_pos]
      · exact hnext
      · simp [OperationData.accepts, hval.type, ho, hout, Ty.bool]
    have hnexttype : next.type = .int 8 := by
      obtain rfl | rfl | rfl := hcases
      · exact ho
      · exact hout
      · rfl
    have hstep : selectElement cache offset output (o, k) = some next := by
      simp only [selectElement, hhere, some_bind, ho, hcr]
    have hchosen : next.eval σ = if x.toNat = k then o.eval σ else output.eval σ := by
      rw [hvalue, eval_mk, map_cons, hval.value]
      by_cases hxk : x.toNat = k <;> simp [Semantics.apply, APInt.eqNat, hxk]
    obtain ⟨folded, hfolded, hfoldedtype, heval⟩ := ih htype hnexttype (k := k + 1) (by omega)
    refine ⟨folded, ?_, hfoldedtype, ?_⟩
    · rw [zipIdx_cons, foldlM_cons, hstep]
      exact hfolded
    · rw [heval, hchosen]
      obtain hlt | rfl | hgt := Nat.lt_trichotomy x.toNat k
      · rw [if_neg (by omega), if_neg (by omega), if_neg (by omega)]
      · simp
      · obtain ⟨n, hn⟩ := Nat.exists_eq_add_of_lt hgt
        rw [if_pos (by omega), if_neg (by omega), if_pos (by omega), hn]
        simp [show k + n + 1 - (k + 1) = n by omega, show k + n + 1 - k = n + 1 by omega]

theorem visitLoadOp_spec (htype : data.type = .array w) (hoff : Valued σ offset x)
    (hin : x.toNat < data.arraySize σ) (hbuilt : Built data)
    (hbytes : ∀ elements, fixedArray? data = some elements → ∀ o ∈ elements,
      o.type = .int 8 ∧ (o.eval σ).HasType (.int 8)) :
    ∃ folded, visitLoadOp cache data offset = some folded ∧
      folded.eval σ = (mk .load [data, offset]).eval σ := by
  unfold visitLoadOp
  cases hfix : fixedArray? data with
  | none => exact ⟨_, rfl, rfl⟩
  | some elements =>
    obtain ⟨hfits, hsize⟩ := hbuilt elements hfix
    replace hbytes := hbytes elements hfix
    obtain ⟨w', rfl⟩ := fixedArray?_eq_some hfix
    cases htype
    rw [type_mk, OperationData.type, Ty.bitwidth] at hfits
    have hlength : (mk (.fixedArray w) elements).arraySize σ = elements.length := by rw [arraySize]
    rw [hlength] at hin
    have hload : (mk .load [mk (.fixedArray w) elements, offset]).eval σ =
        (elements[x.toNat]).eval σ := by
      obtain ⟨y, hy⟩ := Val.hasType_int.mp (hbytes _ (getElem_mem hin)).2
      rw [eval_mk, map_cons, map_cons, map_nil, eval_fixedArray, hoff.value, hy]
      simp [Semantics.apply, hin, hy, Semantics.byte]
    rw [hload]
    cases hcon : constantInt? offset with
    | some v =>
      have hv := hoff.value
      rw [eval_constantInt hcon] at hv
      cases hv
      have hmin : (APInt.mk w x).getLimitedValue APInt.uint64Max = x.toNat := by
        simp only [APInt.getLimitedValue]
        omega
      refine ⟨elements[x.toNat], ?_, rfl⟩
      dsimp only
      rw [hmin]
      exact List.getElem?_eq_getElem hin
    | none =>
      dsimp only
      split_ifs with hlen
      · obtain ⟨folded, hfolded, -, heval⟩ : ∃ folded, (elements.zipIdx 0).foldlM
            (selectElement cache offset) (.mk (.undef (.int 8)) []) = some folded ∧ _ ∧ _ :=
          foldlM_selectElement hoff (fun o ho => (hbytes o ho).1) rfl (by omega)
        refine ⟨folded, hfolded, ?_⟩
        rw [heval, if_pos (Nat.zero_le _)]
        simp [hin]
      · exact ⟨_, rfl, hload⟩

end Sound

end OperationSimplifier

/-- The constructors of array operations: assertions on the types, then the simplifier. -/
def Operation.createArray (cache : OperationCache) (d : OperationData) (ops : List Operation) :
    Option Operation :=
  if d.accepts (ops.map Operation.type) then OperationSimplifier.visitArray cache d ops else none

namespace OperationSimplifier

/-- Folding of arrays preserves meaning within bounds, but fails for allocations of size zero. -/
theorem createArray_preserves_iff (cache : OperationCache) (σ : Assignment) (w : Nat)
    (hw : w < 2 ^ 24) :
    (∀ (data offset : Operation) (x : BitVec w), data.WellTyped (OperationData.evaluatedIn σ) →
      data.type = .array w → Built data → Valued σ offset x → x.toNat < data.arraySize σ →
      ∃ folded, Operation.createArray cache .load [data, offset] = some folded ∧
        folded.eval σ = (Operation.mk .load [data, offset]).eval σ) ∧
    (∀ (data offset value : Operation) (x : BitVec w),
      data.WellTyped (OperationData.evaluatedIn σ) → data.type = .array w → Built data →
      Valued σ offset x → value.type = .int 8 → x.toNat < data.arraySize σ →
      ∃ folded, Operation.createArray cache (.store (.array w)) [data, offset, value] =
          some folded ∧
        SameBytes σ w (.mk (.store (.array w)) [data, offset, value]) folded) ∧
    ∀ (size value : Operation) (n : BitVec w), Valued σ size n → value.type = .int 8 →
      ((∃ folded, Operation.createArray cache (.alloc w) [size, value] = some folded ∧
        SameBytes σ w (.mk (.alloc w) [size, value]) folded) ↔
          constantInt? size ≠ some ⟨w, 0⟩) := by
  refine ⟨?_, ?_, ?_⟩
  · intro data offset x hdata htype hbuilt hoff hin
    rw [Operation.createArray, if_pos (by simp [OperationData.accepts, htype, hoff.type])]
    exact visitLoadOp_spec htype hoff hin hbuilt fun elements => elements_hasType hdata
  · intro data offset value x hdata htype hbuilt hoff hval hin
    obtain ⟨f, hf⟩ := Val.hasType_array.mp (htype ▸ hdata.evaluated_hasType)
    rw [Operation.createArray, if_pos (by simp [OperationData.accepts, htype, hoff.type, hval])]
    exact visitStoreOp_spec htype hoff.type hf hoff.value hin hbuilt
  · intro size value n hsize hval
    have hspec := visitAllocOp_spec value hw hsize.value
    rw [Operation.createArray, if_pos (by simp [OperationData.accepts, hsize.type, hval])]
    split_ifs at hspec with hzero
    · refine iff_of_false ?_ (not_not_intro hzero)
      rintro ⟨folded, hfolded, -⟩
      rw [visitArray, hspec] at hfolded
      cases hfolded
    · exact iff_of_true hspec hzero

/-- A symbolic load from an array of two bytes. -/
theorem createArray_preserves_symbolic_load :
    let byte := fun v : BitVec 8 => Operation.constantInt ⟨8, v⟩
    let data := Operation.mk (.fixedArray 32) [byte 7, byte 9]
    let offset := Operation.constant (.int 32) (.numbered 0)
    ∃ folded, Operation.createArray .full .load [data, offset] = some folded ∧
      folded.eval default = (Operation.mk .load [data, offset]).eval default := by
  refine (createArray_preserves_iff .full default 32 (by decide)).1 _ _ (0 : BitVec 32) ?_ rfl ?_
    ⟨rfl, rfl⟩ ?_
  · rfl
  · rintro elements helts
    cases helts
    decide
  · decide

/-- The allocation of no bytes has no byte to differ, but its construction fails. -/
theorem createArray_rejects_empty_alloc :
    Operation.createArray .full (.alloc 64)
      [.constantInt ⟨64, 0⟩, .constantInt ⟨8, 0⟩] = none := by
  decide

end OperationSimplifier

end Caffeine
