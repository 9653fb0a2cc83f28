import Caffeine.Memory.Allocation
import Caffeine.Util.LittleEndian

/-!
# Scalars in memory

What is written to an allocation is read back, and the bytes around it stay. The array expressions
in between are what the folding constructors make of loads and stores: at a literal index the
elements of a `FixedArray` are replaced and picked.
-/

open Function

namespace Caffeine

open Operation OperationSimplifier LittleEndian List
open Option hiding guard
open OperationData (accepts)

variable {σ : Assignment} {cache : OperationCache} {w : Nat}

structure Contents (σ : Assignment) (o : Operation) (s : Nat) (f : BitVec w → BitVec 8) : Prop where
  typed : o.InterpretedIn σ
  type : o.type = .array w
  size : o.arraySize σ = s
  built : Built o
  bytes : ∃ g, o.eval σ = .array w g ∧ ∀ i : BitVec w, i.toNat < s → g i = f i

/-- The constructor of a load does not turn into a chain of selections. -/
def Plain (data offset : Operation) : Prop :=
  fixedArray? data = none ∨ (constantInt? offset).isSome = true

variable {b : BitVec 8} {i : Nat}

section Elements

variable {data offset value : Operation} {s : Nat} {f : BitVec w → BitVec 8} {x : BitVec w}

theorem wellTyped_load (hdata : data.InterpretedIn σ) (htype : data.type = .array w)
    (hoff : Denotes σ offset x) : (mk .load [data, offset]).InterpretedIn σ := by
  refine wellTyped_mk.mpr ⟨rfl, ?_, ?_⟩
  · simp [accepts, htype, hoff.type]
  · simp only [forall_mem_cons]
    exact ⟨hdata, hoff.typed, fun o ho => absurd ho not_mem_nil⟩

theorem wellTyped_store (hdata : data.InterpretedIn σ)
    (htype : data.type = .array w) (hoff : Denotes σ offset x) (hval : Denotes σ value b) :
    (mk (.store (.array w)) [data, offset, value]).InterpretedIn σ := by
  refine wellTyped_mk.mpr ⟨rfl, ?_, ?_⟩
  · simp [accepts, htype, hoff.type, hval.type]
  · simp only [forall_mem_cons]
    exact ⟨hdata, hoff.typed, hval.typed, fun o ho => absurd ho not_mem_nil⟩

theorem visitLoadOp_typed {folded : Operation} (hdata : data.InterpretedIn σ)
    (htype : data.type = .array w) (hoff : Denotes σ offset x) (hplain : Plain data offset)
    (hrun : visitLoadOp cache data offset = some folded) :
    folded.InterpretedIn σ ∧ folded.type = .int 8 := by
  unfold visitLoadOp at hrun
  cases hfix : fixedArray? data with
  | none =>
    rw [hfix] at hrun
    cases hrun
    exact ⟨wellTyped_load hdata htype hoff, rfl⟩
  | some elements =>
    obtain ⟨v, hv⟩ := isSome_iff_exists.mp (hplain.resolve_left (by simp [hfix]))
    rw [hfix, hv] at hrun
    have hmem := mem_of_getElem? hrun
    obtain ⟨w', rfl⟩ := fixedArray?_eq_some hfix
    obtain ⟨-, -, hty⟩ := wellTyped_mk.mp hdata
    exact ⟨hty folded hmem, (elements_hasType (hdata.mono fun _ =>
      OperationData.evaluatedIn_of_interpretedIn) hfix folded hmem).1⟩

theorem createLoad_returns (h : Contents σ data s f) (hoff : Denotes σ offset x) (hin : x.toNat < s)
    (hplain : Plain data offset) : Returns σ (createArray cache .load [data, offset]) (f x) := by
  obtain ⟨g, hg, hbytes⟩ := h.bytes
  obtain ⟨folded, hfolded, heval⟩ : ∃ folded, visitLoadOp cache data offset = some folded ∧ _ :=
    visitLoadOp_spec h.type hoff.valued (h.size ▸ hin) h.built fun elements =>
      elements_hasType (h.typed.mono fun _ => OperationData.evaluatedIn_of_interpretedIn)
  obtain ⟨hty, htype⟩ := visitLoadOp_typed h.typed h.type hoff hplain hfolded
  refine ⟨folded, ?_, hty, htype, ?_⟩
  · rw [createArray, if_pos (by simp [accepts, h.type, hoff.type])]
    exact hfolded
  · rw [heval, eval_mk, map_cons, map_cons, map_nil, hg, hoff.value]
    simp [Semantics.apply, hbytes x hin]

theorem visitStoreOp_typed {folded : Operation} (h : Contents σ data s f)
    (hoff : Denotes σ offset x) (hval : Denotes σ value b)
    (hrun : visitStoreOp data offset value = some folded) :
    folded.InterpretedIn σ ∧ folded.type = .array w ∧ Built folded ∧
      Plain folded offset := by
  unfold visitStoreOp at hrun
  split at hrun
  · rename_i elements v hfix hcon
    split_ifs at hrun with hlt
    obtain ⟨hfits, hsize⟩ := h.built elements hfix
    obtain ⟨w', rfl⟩ := fixedArray?_eq_some hfix
    cases h.type
    simp only [createFixedArray, hoff.type, Ty.bitwidth] at hrun
    split_ifs at hrun
    cases hrun
    obtain ⟨-, hacc, hty⟩ := wellTyped_mk.mp h.typed
    refine ⟨wellTyped_mk.mpr ⟨rfl, ?_, ?_⟩, rfl, ?_, .inr (by simp [hcon])⟩
    · simp only [accepts, List.all_map, List.all_eq_true, Function.comp_apply,
        decide_eq_true_eq] at hacc ⊢
      intro o ho
      rcases mem_or_eq_of_mem_set ho with hmem | rfl
      · exact hacc o hmem
      · exact hval.type
    · intro o ho
      rcases mem_or_eq_of_mem_set ho with hmem | rfl
      · exact hty o hmem
      · exact hval.typed
    · intro elements' helts'
      cases helts'
      rw [operands_mk, length_set]
      exact ⟨hfits, hsize⟩
  · cases hrun
    rw [h.type]
    refine ⟨wellTyped_store h.typed h.type hoff hval, rfl, ?_, .inl rfl⟩
    rintro elements ⟨⟩

theorem createStore_contents (h : Contents σ data s f) (hoff : Denotes σ offset x)
    (hval : Denotes σ value b) (hin : x.toNat < s) :
    ∃ folded, createArray cache (.store data.type) [data, offset, value] = some folded ∧
      Contents σ folded s (update f x b) ∧ Plain folded offset := by
  obtain ⟨g, hg, hbytes⟩ := h.bytes
  obtain ⟨folded, hfolded, g', g'', hsto, hres, hsize, hagr⟩ :
      ∃ folded, visitStoreOp data offset value = some folded ∧ _ :=
    visitStoreOp_spec h.type hoff.type hg hoff.value (h.size ▸ hin) h.built
  obtain ⟨hty, htype, hbuilt, hplain⟩ := visitStoreOp_typed h hoff hval hfolded
  have hsame : (mk (.store (.array w)) [data, offset, value]).arraySize σ = s := by
    rw [arraySize, h.size]
  refine ⟨folded, ?_, ⟨hty, htype, hsize.trans hsame, hbuilt, g'', hres, ?_⟩, hplain⟩
  · rw [h.type, createArray, if_pos]
    · exact hfolded
    · simp [accepts, h.type, hoff.type, hval.type]
  · intro i hi
    have hstored : (mk (.store (.array w)) [data, offset, value]).eval σ =
        .array w (update g x b) := by
      rw [eval_mk, map_cons, map_cons, map_cons, hg, hoff.value, hval.value]
      simp [Semantics.apply, Semantics.byte]
    obtain rfl : g' = update g x b := by
      rw [hstored] at hsto
      simpa using hsto.symm
    rw [hagr i (hsame ▸ hi)]
    by_cases hix : i = x
    · subst hix
      rw [update_self, update_self]
    · rw [update_of_ne hix, update_of_ne hix, hbytes i hi]

end Elements

section Index

variable {offset : Operation} {x : BitVec w}

theorem visitAdd_literal {t : Ty} {v : APInt} {index : Operation} (hu : isUndef offset = false)
    (hrun : visitAdd t offset (constantInt v) = some index) :
    (constantInt? index).isSome = (constantInt? offset).isSome := by
  have hright : isUndef (constantInt v) = false := rfl
  simp only [visitAdd, hu, hright, Bool.or_self, Bool.false_eq_true, if_false] at hrun
  split_ifs at hrun with hleft hzero
  · cases hrun
    cases hcon : constantInt? offset with
    | none => simp [isConstantInt, hcon] at hleft
    | some a => rfl
  · cases hrun
    rfl
  · cases hcon : constantInt? offset with
    | none =>
      simp only [tryConstInt, hcon] at hrun
      cases hrun
      rfl
    | some a =>
      simp only [tryConstInt, hcon] at hrun
      cases hrun
      rfl

theorem createIndex_returns (cache : OperationCache) (hoff : Denotes σ offset x) (i : Nat) :
    ∃ index, createBinaryLiteral cache .add offset i = some index ∧
      Denotes σ index (x + BitVec.ofNat w i) ∧
      (constantInt? index).isSome = (constantInt? offset).isSome := by
  obtain ⟨index, hidx, hd⟩ : Returns σ (createBinaryLiteral cache .add offset i) _ :=
    createBinaryLiteral_returns i hoff rfl trivial
  have hvis : visitAdd offset.type offset (constantInt (APInt.ofNat offset.type.bitwidth i)) =
      some index := by
    rw [createBinaryLiteral, createBinary, Operation.create] at hidx
    split_ifs at hidx
    exact hidx
  exact ⟨index, hidx, hd, visitAdd_literal hoff.not_isUndef hvis⟩

theorem Plain.of_index {data index : Operation}
    (hidx : (constantInt? index).isSome = (constantInt? offset).isSome) :
    Plain data index ↔ Plain data offset := by
  rw [Plain, Plain, hidx]

end Index

section Byte

variable {data offset value : Operation}

/-- The value extended to a byte is a literal, which the casts of a byte to a byte refuse. -/
def RecastsLiteral (cache : OperationCache) (n : Nat) (value : Operation) : Prop :=
  n < 8 ∧ ∃ byte, createZExt cache (.int 8) value = some byte ∧ (constantInt? byte).isSome = true

theorem createLShr_zero {x : BitVec w} (hval : Denotes σ value x) :
    createBinaryLiteral cache .lshr value 0 = some value := by
  have hzero : isConstantInt (constantInt (APInt.ofNat value.type.bitwidth 0)) 0 = true := by
    simp [isConstantInt, constantInt, constantInt?, APInt.eqNat, APInt.ofNat]
  rw [createBinaryLiteral, createBinary, Operation.create, if_pos]
  · show visitLShr _ _ _ = _
    rw [visitLShr, hzero, Bool.or_true, if_pos rfl]
  · simp only [List.map_cons, List.map_nil, hval.type]
    simp [accepts, constantInt, OperationData.type, APInt.ofNat, Ty.bitwidth]

theorem not_castsLiteral_of_none {op : UnaryOpcode} {t : Ty} (h : constantInt? value = none) :
    ¬ CastsLiteral (.unary op t) [value] := by
  rintro ⟨-, v, hv, -⟩
  rw [h] at hv
  cases hv

/-- What was stored as an expression is not loaded as a literal. -/
theorem visitStoreOp_load {folded byte : Operation} (hval : constantInt? value = none)
    (hsto : visitStoreOp data offset value = some folded)
    (hload : visitLoadOp cache folded offset = some byte) : constantInt? byte = none := by
  unfold visitStoreOp at hsto
  split at hsto
  · rename_i elements v hfix hcon
    split_ifs at hsto with hlt
    simp only [createFixedArray] at hsto
    split_ifs at hsto
    cases hsto
    simp only [visitLoadOp, fixedArray?, data_mk, operands_mk, hcon, getElem?_set_self hlt] at hload
    cases hload
    exact hval
  · cases hsto
    cases hload
    rfl

end Byte

namespace Allocation

section Write

variable {alloc : Allocation} {offset value : Operation} {s n k m : Nat}
  {f : BitVec w → BitVec 8} {x : BitVec w} {v : BitVec n}

structure Written (σ : Assignment) (offset : Operation) (s : Nat) (f : BitVec w → BitVec 8)
    (x : BitVec w) (bytes : Nat → BitVec 8) (i : Nat) (alloc alloc' : Allocation) : Prop where
  permissions : alloc'.permissions = alloc.permissions
  contents : Contents σ alloc'.data s (splice f x bytes i)
  plain : 0 < i → Plain alloc'.data offset

theorem createByte_returns (cache : OperationCache) (hval : Denotes σ value (v.setWidth m))
    (hlit : m = 8 → constantInt? value = none) (hi : 8 * (i + 1) ≤ m) : ∃ shifted byteOp,
      createBinaryLiteral cache .lshr value (i * 8) = some shifted ∧
      createTrunc cache (.int 8) shifted = some byteOp ∧ Denotes σ byteOp (byte v i) := by
  obtain ⟨shifted, hshd, hd⟩ : Returns σ (createBinaryLiteral cache .lshr value (i * 8)) _ :=
    createBinaryLiteral_returns (i * 8) hval rfl trivial
  have hlt : i * 8 < 2 ^ m := lt_of_lt_of_le (by omega) Nat.lt_two_pow_self.le
  have heq : v.setWidth m >>> BitVec.ofNat m (i * 8) = v.setWidth m >>> (8 * i) := by
    rw [BitVec.ushiftRight_eq', BitVec.toNat_ofNat, Nat.mod_eq_of_lt hlt, Nat.mul_comm]
  rw [heq] at hd
  have hcast : ¬ CastsLiteral (.unary .trunc (.int 8)) [shifted] := by
    by_cases hm : m = 8
    · -- the only byte is the value itself
      obtain rfl : i = 0 := by omega
      obtain rfl : value = shifted := some.inj ((createLShr_zero hval).symm.trans hshd)
      exact not_castsLiteral_of_none (hlit hm)
    · exact hd.not_castsLiteral hm
  obtain ⟨byteOp, hbyte, hbyted⟩ : Returns σ (createTrunc cache (.int 8) shifted)
      ((v.setWidth m >>> (8 * i)).setWidth 8) :=
    createUnary_returns hd (by simp [accepts]; omega) (by simp) hcast rfl
  rw [ushiftRight_setWidth_eq_byte v hi] at hbyted
  exact ⟨shifted, byteOp, hshd, hbyte, hbyted⟩

theorem Written.storeByte (cache : OperationCache) {alloc' : Allocation}
    (hperm : alloc.permissions.write = true) (hoff : Denotes σ offset x)
    (hval : Denotes σ value (v.setWidth m)) (hlit : m = 8 → constantInt? value = none)
    (hi : 8 * (i + 1) ≤ m) (hin : x.toNat + i < s)
    (hwrap : x.toNat + i < 2 ^ w) (h : Written σ offset s f x (byte v) i alloc alloc') :
    ∃ alloc'', Allocation.storeByte cache offset value alloc' i = some alloc'' ∧
      Written σ offset s f x (byte v) (i + 1) alloc alloc'' := by
  obtain ⟨shifted, byteOp, hshd, hbyte, hbyted⟩ := createByte_returns cache hval hlit hi
  obtain ⟨index, hidx, hindexd, hconst⟩ := createIndex_returns cache hoff i
  obtain ⟨folded, hfolded, hcont, hplain⟩ : ∃ folded,
      createArray cache (.store alloc'.data.type) [alloc'.data, index, byteOp] = some folded ∧ _ :=
    createStore_contents h.contents hindexd hbyted (by rwa [toNat_add_ofNat hwrap])
  refine ⟨{ alloc' with data := folded }, ?_, h.permissions, hcont,
    fun _ => (Plain.of_index hconst).mp hplain⟩
  simp only [Allocation.storeByte, hshd, hbyte, hidx, hfolded, some_bind, overwrite, h.permissions,
    hperm, if_true]

theorem storeBytes_written (cache : OperationCache) (hperm : alloc.permissions.write = true)
    (hcont : Contents σ alloc.data s f) (hoff : Denotes σ offset x)
    (hval : Denotes σ value (v.setWidth m)) (hlit : m = 8 → constantInt? value = none)
    (hin : x.toNat + k ≤ s) (hwrap : x.toNat + k ≤ 2 ^ w) (hk : 8 * k ≤ m) :
    ∃ alloc', (List.range k).foldlM (Allocation.storeByte cache offset value) alloc = some alloc' ∧
      Written σ offset s f x (byte v) k alloc alloc' := by
  induction k with
  | zero => exact ⟨alloc, rfl, rfl, hcont, fun h => absurd h (Nat.lt_irrefl 0)⟩
  | succ k ih =>
    obtain ⟨alloc₁, hrun, h₁⟩ := ih (by omega) (by omega) (by omega)
    obtain ⟨alloc₂, hstep, h₂⟩ := h₁.storeByte cache hperm hoff hval hlit hk (by omega) (by omega)
    refine ⟨alloc₂, ?_, h₂⟩
    rw [range_succ, foldlM_append, hrun]
    simp [hstep]

theorem byteSize_int {pointerSize : Nat} : (Ty.int n).byteSize pointerSize = some (divceil n 8) :=
  rfl

theorem denotes_setWidth {o : Operation} (ho : Denotes σ o v) (hm : n = m) :
    Denotes σ o (v.setWidth m) := by
  subst hm
  rwa [BitVec.setWidth_eq]

theorem write_written (cache : OperationCache) (pointerSize : Nat)
    (hperm : alloc.permissions.write = true) (hcont : Contents σ alloc.data s f)
    (hoff : Denotes σ offset x) (hval : Denotes σ value v) (hlit : ¬ RecastsLiteral cache n value)
    (hin : x.toNat + divceil n 8 ≤ s) (hwrap : x.toNat + divceil n 8 ≤ 2 ^ w) :
    ∃ alloc', alloc.write cache offset value pointerSize = some alloc' ∧
      Written σ offset s f x (byte v) (divceil n 8) alloc alloc' := by
  simp only [write, hoff.type, hval.type, Ty.isInt, hperm, guard, if_true, byteSize_int,
    Ty.bitwidth, bind_eq_bind, bind_some, Option.pure_def]
  have hle : n ≤ divceil n 8 * 8 := by
    rw [divceil]
    omega
  split_ifs with height hwid
  · -- a single byte is stored as it is
    obtain rfl : n = 8 := Ty.int.inj height
    obtain ⟨folded, hfolded, hcont', hplain⟩ : ∃ folded,
        createArray cache (.store alloc.data.type) [alloc.data, offset, value] = some folded ∧ _ :=
      createStore_contents hcont hoff hval (by rw [divceil] at hin; omega)
    refine ⟨{ alloc with data := folded }, ?_, rfl, ?_, fun _ => hplain⟩
    · simp only [hfolded, bind_some, overwrite, hperm, if_true]
    · have hzero : x + BitVec.ofNat w 0 = x := by simp
      have hone : splice f x (byte v) (divceil 8 8) = update f x v := by
        rw [show divceil 8 8 = 0 + 1 from rfl, splice, splice, byte_zero, hzero]
      rw [hone]
      exact hcont'
  · obtain ⟨value', hval', hd⟩ : Returns σ (createZExt cache (.int (divceil n 8 * 8)) value) _ :=
      createZExt_returns hval (lt_of_le_of_ne hle hwid)
    simp only [hval', bind_some]
    refine storeBytes_written cache hperm hcont hoff hd (fun hm => ?_) hin hwrap (by omega)
    by_contra hsome
    refine hlit ⟨by omega, value', hm ▸ hval', isSome_iff_ne_none.mpr hsome⟩
  · exact storeBytes_written cache hperm hcont hoff (denotes_setWidth hval (not_not.mp hwid))
      (fun hm => absurd (congrArg Ty.int (not_not.mp hwid |>.trans hm)) height) hin hwrap (by omega)

end Write

/-- The byte loaded at the offset is not a literal. -/
def Symbolic (cache : OperationCache) (alloc : Allocation) (offset : Operation) : Prop :=
  ∀ ops, alloc.loadBytes cache offset 1 = some ops → ∀ op ∈ ops, constantInt? op = none

section Read

variable {alloc : Allocation} {offset : Operation} {s n k m : Nat} {f : BitVec w → BitVec 8}
  {x : BitVec w} {bytes : Nat → BitVec 8}

theorem loadBytes_returns (cache : OperationCache) (hcont : Contents σ alloc.data s f)
    (hplain : Plain alloc.data offset) (hoff : Denotes σ offset x) (hin : x.toNat + k ≤ s)
    (hwrap : x.toNat + k ≤ 2 ^ w) (hbytes : ∀ i < k, f (x + BitVec.ofNat w i) = bytes i) :
    ∃ ops, alloc.loadBytes cache offset k = some ops ∧
      Forall₂ (fun i op => Denotes σ op (bytes i)) (List.range k) ops := by
  refine mapM_exists fun i hi => ?_
  have hlt : i < k := mem_range.mp hi
  obtain ⟨index, hidx, hindexd, hconst⟩ := createIndex_returns cache hoff i
  obtain ⟨op, hop, hd⟩ : Returns σ (createArray cache .load [alloc.data, index]) _ :=
    createLoad_returns hcont hindexd (by rw [toNat_add_ofNat (by omega)]; omega)
      ((Plain.of_index hconst).mpr hplain)
  refine ⟨op, ?_, hbytes i hlt ▸ hd⟩
  simp only [hidx, some_bind, hop]

theorem appendByte_returns {result op : Operation} (hres : Denotes σ result (combine m bytes i))
    (hop : Denotes σ op (bytes i)) (hpos : 0 < i) (hi : 8 * (i + 1) ≤ m) :
    Returns σ (appendByte cache m result (op, i)) (combine m bytes (i + 1)) := by
  have hlt : i * 8 < 2 ^ m := lt_of_lt_of_le (by omega) Nat.lt_two_pow_self.le
  obtain ⟨wide, hwide, hwided⟩ : Returns σ (createZExt cache (.int m) op) _ :=
    createZExt_returns hop (by omega)
  obtain ⟨shifted, hshd, hd⟩ : Returns σ (createBinaryLiteral cache .shl wide (i * 8)) _ :=
    createBinaryLiteral_returns (i * 8) hwided rfl trivial
  have heq : (bytes i).setWidth m <<< BitVec.ofNat m (i * 8) =
      (bytes i).setWidth m <<< (8 * i) := by
    rw [BitVec.shiftLeft_eq', BitVec.toNat_ofNat, Nat.mod_eq_of_lt hlt, Nat.mul_comm]
  rw [heq] at hd
  simp only [appendByte, hwide, hshd, some_bind]
  exact createBinary_returns hres hd rfl rfl

theorem appendBytes_returns {result : Operation} {ops : List Operation}
    (hops : Forall₂ (fun i op => Denotes σ op (bytes i)) (List.range' i ops.length) ops)
    (hres : Denotes σ result (combine m bytes i)) (hpos : 0 < i) (hm : 8 * (i + ops.length) ≤ m) :
    Returns σ ((ops.zipIdx i).foldlM (appendByte cache m) result)
      (combine m bytes (i + ops.length)) := by
  induction ops generalizing i result with
  | nil => exact hres.returns
  | cons op ops ih =>
    rw [length_cons] at hops hm ⊢
    rw [List.range'_succ] at hops
    obtain ⟨hop, hrest⟩ := forall₂_cons.mp hops
    obtain ⟨next, hnext, hd⟩ : Returns σ (appendByte cache m result (op, i)) _ :=
      appendByte_returns hres hop hpos (by omega)
    rw [zipIdx_cons, foldlM_cons, hnext, some_bind, ← Nat.add_assoc, Nat.add_right_comm]
    exact ih hrest hd (by omega) (by omega)

theorem assemble_returns {ops : List Operation}
    (hops : Forall₂ (fun i op => Denotes σ op (bytes i)) (List.range k) ops) (hk : 0 < k)
    (hm : 8 * k ≤ m) (hlit : m = 8 → ∀ op ∈ ops, constantInt? op = none) :
    Returns σ (assemble cache m ops) (combine m bytes k) := by
  have hlen := hops.length_eq
  rw [length_range] at hlen
  obtain ⟨k, rfl⟩ := Nat.exists_eq_add_of_lt hk
  rw [range_eq_range', Nat.zero_add, List.range'_succ] at hops
  cases hops with
  | @cons _ first _ ops hfst hrest =>
    rw [length_cons, Nat.zero_add] at hlen
    obtain rfl : k = ops.length := Nat.succ.inj hlen
    have hcast : ¬ CastsLiteral (.unary .zext (.int m)) [first] := by
      by_cases hm8 : m = 8
      · exact not_castsLiteral_of_none (hlit hm8 first mem_cons_self)
      · exact hfst.not_castsLiteral (Ne.symm hm8)
    obtain ⟨wide, hwide, hd⟩ : Returns σ (createZExt cache (.int m) first)
        ((bytes 0).setWidth m) :=
      createUnary_returns hfst (by simp [accepts]; omega) (by simp) hcast rfl
    have hone : combine m bytes (0 + 1) = (bytes 0).setWidth m := by
      simp [combine]
    rw [← hone] at hd
    simp only [assemble, hwide, some_bind]
    have hcnt : 0 + 1 + ops.length = 0 + ops.length + 1 := by omega
    have hdone : Returns σ ((ops.zipIdx (0 + 1)).foldlM (appendByte cache m) wide)
        (combine m bytes (0 + 1 + ops.length)) :=
      appendBytes_returns hrest hd Nat.one_pos (by omega)
    rw [hcnt] at hdone
    exact hdone

theorem read_returns (cache : OperationCache) (pointerSize : Nat) {v : BitVec n} (hn : 0 < n)
    (hperm : alloc.permissions.read = true) (hcont : Contents σ alloc.data s f)
    (hplain : Plain alloc.data offset) (hoff : Denotes σ offset x) (hin : x.toNat + divceil n 8 ≤ s)
    (hwrap : x.toNat + divceil n 8 ≤ 2 ^ w)
    (hbytes : ∀ i < divceil n 8, f (x + BitVec.ofNat w i) = byte v i)
    (hlit : n < 8 → alloc.Symbolic cache offset) :
    Returns σ (alloc.read cache offset (.int n) pointerSize) v := by
  obtain ⟨ops, hops, hall⟩ := loadBytes_returns cache hcont hplain hoff hin hwrap hbytes
  have hpos : 0 < divceil n 8 := by
    rw [divceil]
    omega
  have hle : n ≤ divceil n 8 * 8 := by
    rw [divceil]
    omega
  have hsc : (Ty.int n ≠ .void) ∧ (Ty.int n).isArray = false := ⟨by simp, rfl⟩
  have hint : (Ty.int n).isInt = true := rfl
  simp only [read, hperm, if_pos hsc, guard, if_true, byteSize_int, hops, hint, bind_eq_bind,
    bind_some, Option.pure_def]
  by_cases height : Ty.int n = .int 8
  · -- a single byte is returned as it was loaded
    obtain rfl : n = 8 := Ty.int.inj height
    cases hall with
    | cons hfst _ => exact byte_zero v ▸ hfst.returns
  · have hne : n ≠ 8 := fun h => height (congrArg Ty.int h)
    obtain ⟨result, hres, hd⟩ : Returns σ (assemble cache (divceil n 8 * 8) ops) _ := by
      refine assemble_returns hall hpos (by omega) fun hm => ?_
      have hone : divceil n 8 = 1 := by omega
      exact hlit (by omega) ops (hone ▸ hops)
    have hval := combine_byte v (m := divceil n 8 * 8) (k := divceil n 8) (by omega) hle
    rw [if_neg height, hres, bind_some]
    by_cases hwid : (Ty.int n).bitwidth = divceil n 8 * 8
    · rw [if_neg (not_not_intro hwid), ← hval]
      exact (denotes_setWidth hd hwid.symm).returns
    · have hlt : (Ty.int n).bitwidth < divceil n 8 * 8 := lt_of_le_of_ne hle hwid
      rw [if_pos hwid, if_pos hlt, bind_some, ← hval]
      exact createTrunc_returns hd hlt

end Read

section Small

variable {alloc alloc' : Allocation} {offset value byte : Operation} {n pointerSize : Nat}
  {x : BitVec w} {v : BitVec n}

/-- An integer of fewer than eight bits is one byte, which is cast to a byte once more. -/
theorem write_small (hn : 0 < n) (hlt : n < 8) (hperm : alloc.permissions.write = true)
    (hoff : Denotes σ offset x) (hval : Denotes σ value v)
    (hbyte : createZExt cache (.int 8) value = some byte) :
    alloc.write cache offset value pointerSize = storeByte cache offset byte alloc 0 := by
  have hone : divceil n 8 = 1 := by
    rw [divceil]
    omega
  have hne : n ≠ 8 := hlt.ne
  simp [write, hoff.type, hval.type, Ty.isInt, Ty.bitwidth, hperm, guard, byteSize_int, hone, hne,
    hbyte, List.range_succ]

theorem write_recastsLiteral (hn : 0 < n) (hperm : alloc.permissions.write = true)
    (hoff : Denotes σ offset x) (hval : Denotes σ value v) (hlit : RecastsLiteral cache n value) :
    alloc.write cache offset value pointerSize = none := by
  obtain ⟨hlt, byte, hbyte, hsome⟩ := hlit
  obtain ⟨byte', hbyte', hd⟩ : Returns σ (createZExt cache (.int 8) value) _ :=
    createZExt_returns hval hlt
  obtain rfl : byte = byte' := some.inj (hbyte.symm.trans hbyte')
  obtain ⟨c, hc⟩ := isSome_iff_exists.mp hsome
  obtain ⟨-, rfl⟩ := hd.eq_constantInt hc
  have hcast : createTrunc cache (.int 8) byte = none := by
    rw [createTrunc, Operation.create, ite_eq_right_iff]
    intro
    exact visit_castsLiteral ⟨by simp, _, hc, rfl⟩
  rw [write_small hn hlt hperm hoff hval hbyte, storeByte, Nat.zero_mul, createLShr_zero hd,
    some_bind, hcast]
  rfl

theorem write_symbolic (hn : 0 < n) (hlt : n < 8) (hperm : alloc.permissions.write = true)
    (hoff : Denotes σ offset x) (hval : Denotes σ value v) (hlit : ¬ RecastsLiteral cache n value)
    (hrun : alloc.write cache offset value pointerSize = some alloc') :
    alloc'.Symbolic cache offset := by
  obtain ⟨byte, hbyte, hd⟩ : Returns σ (createZExt cache (.int 8) value) _ :=
    createZExt_returns hval hlt
  have hnone : constantInt? byte = none := by
    by_contra hsome
    exact hlit ⟨hlt, byte, hbyte, isSome_iff_ne_none.mpr hsome⟩
  have hcast : createTrunc cache (.int 8) byte = some byte := by
    rw [createTrunc, Operation.create, if_pos (by rw [List.map_singleton, hd.type]; rfl)]
    show visitTrunc _ _ = _
    rw [visitTrunc, hnone, if_pos hd.type.symm]
  rw [write_small hn hlt hperm hoff hval hbyte, storeByte, Nat.zero_mul, createLShr_zero hd,
    some_bind, hcast, some_bind] at hrun
  obtain ⟨index, hidx, hrun⟩ := bind_eq_some_iff.mp hrun
  obtain ⟨folded, hsto, hrun⟩ := bind_eq_some_iff.mp hrun
  rw [overwrite, if_pos hperm] at hrun
  cases hrun
  intro ops hops op hop
  obtain ⟨j, hj, hload⟩ := exists_of_mem_mapM hops hop
  obtain rfl : j = 0 := Nat.lt_one_iff.mp (mem_range.mp hj)
  rw [hidx, some_bind, createArray] at hload
  rw [createArray] at hsto
  split_ifs at hsto hload
  exact visitStoreOp_load hnone hsto hload

end Small

/-- A write within the array puts the little-endian bytes of the value and no others, and a read at
the offset returns it, unless the literal of fewer than eight bits is refused. -/
theorem write_read_roundtrip_iff (cache : OperationCache) (σ : Assignment) (pointerSize w n : Nat)
    (hn : 0 < n) (alloc : Allocation) (offset value : Operation) (x : BitVec w) (v : BitVec n)
    (hread : alloc.permissions.read = true) (hwrite : alloc.permissions.write = true)
    (hdata : alloc.data.InterpretedIn σ) (htype : alloc.data.type = .array w)
    (hbuilt : Built alloc.data) (hoffset : Denotes σ offset x) (hvalue : Denotes σ value v)
    (hin : x.toNat + divceil n 8 ≤ alloc.data.arraySize σ) (hwrap : x.toNat + divceil n 8 ≤ 2 ^ w) :
    (∃ alloc' f f', alloc.write cache offset value pointerSize = some alloc' ∧
      alloc.data.eval σ = .array w f ∧ alloc'.data.eval σ = .array w f' ∧
      (∃ result, alloc'.read cache offset (.int n) pointerSize = some result ∧
        result.type = .int n ∧ result.eval σ = .int ⟨n, v⟩) ∧
      (∀ i < divceil n 8, f' (x + BitVec.ofNat w i) = byte v i) ∧
      ∀ j : BitVec w, j.toNat < alloc.data.arraySize σ →
        j.toNat < x.toNat ∨ x.toNat + divceil n 8 ≤ j.toNat → f' j = f j) ↔
      ¬ RecastsLiteral cache n value := by
  constructor
  · rintro ⟨alloc', -, -, hrun, -⟩ hlit
    rw [write_recastsLiteral hn hwrite hoffset hvalue hlit] at hrun
    cases hrun
  intro hlit
  obtain ⟨f, hf⟩ := Val.hasType_array.mp (htype ▸ hdata.eval_hasType)
  have hcont : Contents σ alloc.data (alloc.data.arraySize σ) f :=
    ⟨hdata, htype, rfl, hbuilt, f, hf, fun _ _ => rfl⟩
  obtain ⟨alloc', hrun, hwritten⟩ :=
    write_written cache pointerSize hwrite hcont hoffset hvalue hlit hin hwrap
  obtain ⟨f', hf', hagr⟩ := hwritten.contents.bytes
  have hpos : 0 < divceil n 8 := by
    rw [divceil]
    omega
  obtain ⟨result, hres, hd⟩ : Returns σ (alloc'.read cache offset (.int n) pointerSize) v :=
    read_returns cache pointerSize hn (hwritten.permissions ▸ hread) hwritten.contents
      (hwritten.plain hpos) hoffset hin hwrap (fun i hi => splice_at hi hwrap)
      fun hlt => write_symbolic hn hlt hwrite hoffset hvalue hlit hrun
  refine ⟨alloc', f, f', hrun, hf, hf', ⟨result, hres, hd.type, hd.value⟩, ?_, ?_⟩
  · intro i hi
    have hidx : (x + BitVec.ofNat w i).toNat = x.toNat + i := toNat_add_ofNat (by omega)
    rw [hagr _ (by omega), splice_at hi hwrap]
  · intro j hj houtside
    rw [hagr j hj, splice_outside houtside hwrap]

def fourBytes : Allocation where
  address := constantInt ⟨64, 4096⟩
  size := constantInt ⟨64, 4⟩
  data := .mk (.fixedArray 64) ([1, 2, 3, 4].map fun b => constantInt ⟨8, b⟩)
  kind := .malloc
  permissions := ⟨true, true, false⟩
  typed := ⟨64, rfl, rfl⟩

/-- Three bits are extended to a byte, and the literal byte is truncated to a byte. -/
theorem write_three_bits :
    fourBytes.write .full (constantInt ⟨64, 1⟩) (constantInt ⟨3, 5⟩) 8 = none :=
  rfl

/-- A value of twelve bits takes two bytes. -/
theorem write_read_twelve_bits :
    ∃ alloc', fourBytes.write .full (constantInt ⟨64, 1⟩) (constantInt ⟨12, 0xabc⟩) 8 =
        some alloc' ∧
      ∃ result, alloc'.read .full (constantInt ⟨64, 1⟩) (.int 12) 8 = some result ∧
        result.eval default = .int ⟨12, 0xabc⟩ := by
  have hbuilt : Built fourBytes.data := by
    rintro elements ⟨⟩
    decide
  obtain ⟨alloc', f, f', hrun, -, -, ⟨result, hres, -, heval⟩, -⟩ :=
    (write_read_roundtrip_iff .full default 8 64 12 (by decide) fourBytes (constantInt ⟨64, 1⟩)
      (constantInt ⟨12, 0xabc⟩) 1 0xabc rfl rfl rfl rfl hbuilt (denotes_constantInt 1)
      (denotes_constantInt 0xabc) (by decide) (by decide)).mpr fun h => absurd h.1 (by decide)
  exact ⟨alloc', hrun, result, hres, heval⟩

/-- An integer to be written within an array of `s` bytes, with the values of the expressions. -/
structure Store (cache : OperationCache) (σ : Assignment) (w s : Nat) where
  offset : Operation
  value : Operation
  start : BitVec w
  width : Nat
  bits : BitVec width
  offset_eq : Denotes σ offset start
  value_eq : Denotes σ value bits
  inside : start.toNat + divceil width 8 ≤ min s (2 ^ w)
  recast : ¬ RecastsLiteral cache width value

namespace Store

variable {s : Nat}

def write (pointerSize : Nat) (alloc : Allocation) (store : Store cache σ w s) :
    Option Allocation :=
  alloc.write cache store.offset store.value pointerSize

def splice (f : BitVec w → BitVec 8) (store : Store cache σ w s) : BitVec w → BitVec 8 :=
  LittleEndian.splice f store.start (byte store.bits) (divceil store.width 8)

end Store

/-- An allocation is an array of bytes: after any writes inside of it, a read at a known offset
returns what they have left there, except a literal byte as fewer than eight bits. -/
theorem writes_read (cache : OperationCache) (σ : Assignment) (pointerSize w s : Nat)
    (stores : List (Store cache σ w s)) (alloc : Allocation) (f : BitVec w → BitVec 8)
    (hread : alloc.permissions.read = true) (hwrite : alloc.permissions.write = true)
    (hcont : Contents σ alloc.data s f) :
    ∃ alloc', stores.foldlM (Store.write pointerSize) alloc = some alloc' ∧
      Contents σ alloc'.data s (stores.foldl Store.splice f) ∧
      ∀ offset (x : BitVec w) n (v : BitVec n), Denotes σ offset x →
        (constantInt? offset).isSome = true → 0 < n → x.toNat + divceil n 8 ≤ min s (2 ^ w) →
        (∀ i < divceil n 8, stores.foldl Store.splice f (x + BitVec.ofNat w i) = byte v i) →
        (n < 8 → alloc'.Symbolic cache offset) →
        Returns σ (alloc'.read cache offset (.int n) pointerSize) v := by
  induction stores generalizing alloc f with
  | nil =>
    refine ⟨alloc, rfl, hcont, fun offset x n v hoff hlit hn hinside hbytes hsym => ?_⟩
    obtain ⟨hin, hwrap⟩ := le_min_iff.mp hinside
    exact read_returns cache pointerSize hn hread hcont (.inr hlit) hoff hin hwrap hbytes hsym
  | cons store stores ih =>
    obtain ⟨hin, hwrap⟩ := le_min_iff.mp store.inside
    obtain ⟨next, hnext, hwritten⟩ :=
      write_written cache pointerSize hwrite hcont store.offset_eq store.value_eq
        store.recast hin hwrap
    obtain ⟨alloc', hrun, hrest⟩ := ih next _ (hwritten.permissions ▸ hread)
      (hwritten.permissions ▸ hwrite) hwritten.contents
    exact ⟨alloc', foldlM_cons_eq_some.mpr ⟨next, hnext, hrun⟩, hrest⟩

/-- The second write covers the upper byte of the first. -/
theorem writes_read_overlapping : ∃ alloc' result,
    (fourBytes.write .full (constantInt ⟨64, 0⟩) (constantInt ⟨16, 0xabcd⟩) 8 >>= fun alloc =>
        alloc.write .full (constantInt ⟨64, 1⟩) (constantInt ⟨8, 0xff⟩) 8) = some alloc' ∧
      alloc'.read .full (constantInt ⟨64, 0⟩) (.int 16) 8 = some result ∧
      result.eval default = .int ⟨16, 0xffcd⟩ := by
  have hdata : fourBytes.data.InterpretedIn default := rfl
  obtain ⟨f, hf⟩ := Val.hasType_array.mp hdata.eval_hasType
  have hbuilt : Built fourBytes.data := by
    rintro elements ⟨⟩
    decide
  obtain ⟨alloc', hrun, -, hreads⟩ := writes_read .full default 8 64 4
    [⟨_, _, 0, 16, 0xabcd, denotes_constantInt _, denotes_constantInt _, by decide,
        fun h => absurd h.1 (by decide)⟩,
      ⟨_, _, 1, 8, 0xff, denotes_constantInt _, denotes_constantInt _, by decide,
        fun h => absurd h.1 (by decide)⟩]
    fourBytes f rfl rfl ⟨hdata, rfl, rfl, hbuilt, f, hf, fun _ _ => rfl⟩
  obtain ⟨result, hres, hd⟩ := hreads _ 0 16 0xffcd (denotes_constantInt _) rfl (by decide)
    (by decide) (fun i hi => by
      obtain rfl | rfl : i = 0 ∨ i = 1 := by
        change i < 2 at hi
        omega
      · rfl
      · rfl) fun h => absurd h (by decide)
  exact ⟨alloc', result, hrun, hres, hd.value⟩

end Allocation

end Caffeine
