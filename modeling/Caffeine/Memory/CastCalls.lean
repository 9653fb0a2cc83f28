import Caffeine.IR.StrictGraphs
import Caffeine.Memory.Allocation
import Caffeine.Solver.ModelEval

/-!
# Casts of literals

The simplifier folds a cast of a literal before it compares the types, so a cast to its own width
reaches `llvm::APInt`; a read of fewer than eight bits extends a literal byte so. Evaluation in a
model and constant propagation cast only what the constructors left, which changes the width.
-/

namespace Caffeine

open Operation OperationData OperationSimplifier List
open Option hiding guard

variable {d : OperationData} {v b a : Value}

namespace OperationSimplifier

variable {τ : Nat → Ty} {cache : OperationCache}

/-- The calls the simplifier makes; the constructors its visitors call make none. -/
def foldCalls (d : OperationData) (ops : List Operation) : List CastCall :=
  match ops.mapM constantInt? with
  | some args => d.castCalls args
  | none => []

theorem mem_foldCalls {o : Operation} {c : CastCall} :
    c ∈ foldCalls d [o] ↔ ∃ v, constantInt? o = some v ∧ c ∈ d.castCalls [v] := by
  cases h : constantInt? o with
  | none => simp [foldCalls, h]
  | some v => simp [foldCalls, h]

theorem castCalls_allowed_iff {v : APInt} (hd : d.isCast = true)
    (ha : d.accepts [.int v.width] = true) :
    (∀ c ∈ d.castCalls [v], c.Allowed) ↔ d.type ≠ .int v.width := by
  have hshape : d.Shape id [.int v.width] := shape_of_accepts ha
  cases hshape with
  | @trunc w w' o ho hle =>
    obtain rfl : v.width = w' := Ty.int.inj ho
    have hcalls : (OperationData.unary .trunc (.int w)).castCalls [v] = [⟨.trunc, v.width, w⟩] :=
      rfl
    rw [hcalls, forall_mem_singleton, ne_eq, OperationData.type, Ty.int.injEq]
    exact ⟨fun h => h.ne, fun h => lt_of_le_of_ne hle h⟩
  | @zext w w' o ho hle =>
    obtain rfl : v.width = w' := Ty.int.inj ho
    have hcalls : (OperationData.unary .zext (.int w)).castCalls [v] = [⟨.zext, v.width, w⟩] :=
      rfl
    rw [hcalls, forall_mem_singleton, ne_eq, OperationData.type, Ty.int.injEq]
    exact ⟨fun h => h.ne', fun h => lt_of_le_of_ne hle (Ne.symm h)⟩
  | @sext w w' o ho hle =>
    obtain rfl : v.width = w' := Ty.int.inj ho
    have hcalls : (OperationData.unary .sext (.int w)).castCalls [v] = [⟨.sext, v.width, w⟩] :=
      rfl
    rw [hcalls, forall_mem_singleton, ne_eq, OperationData.type, Ty.int.injEq]
    exact ⟨fun h => h.ne', fun h => lt_of_le_of_ne hle (Ne.symm h)⟩
  | _ => cases hd

theorem foldCalls_allowed_iff {o : Operation} (hd : d.isCast = true)
    (ha : d.accepts [o.type] = true) : (∀ c ∈ foldCalls d [o], c.Allowed) ↔
      ¬ ∃ v, constantInt? o = some v ∧ d.type = .int v.width := by
  simp only [mem_foldCalls, forall_exists_index, and_imp, not_exists, not_and]
  have hiff : ∀ v, constantInt? o = some v →
      ((∀ c ∈ d.castCalls [v], c.Allowed) ↔ d.type ≠ .int v.width) := by
    intro v hv
    obtain ⟨ops, rfl⟩ := constantInt?_eq_some hv
    exact castCalls_allowed_iff hd ha
  exact ⟨fun h v hv => (hiff v hv).mp fun c hc => h c v hv hc,
    fun h c v hv => (hiff v hv).mpr (h v hv) c⟩

/-- A call that is not allowed is where the visitor fails. -/
theorem foldCalls_allowed_of_visit {o r : Operation} (hd : d.isCast = true)
    (ha : d.accepts [o.type] = true) (h : visit cache (.mk d [o]) = some r) :
    ∀ c ∈ foldCalls d [o], c.Allowed := by
  rw [foldCalls_allowed_iff hd ha]
  rintro ⟨v, hv, hwidth⟩
  have hcast : CastsLiteral d [o] := by
    cases d with
    | unary op t =>
      cases hwidth
      refine ⟨?_, v, hv, rfl⟩
      cases op with
      | trunc | zext | sext => decide
      | _ => cases hd
    | _ => cases hd
  rw [visit_castsLiteral hcast] at h
  cases h

variable {offset : Operation}

theorem createAdd_zero {index : Operation}
    (h : createBinaryLiteral cache .add offset 0 = some index) :
    (constantInt? index).map (·.getLimitedValue APInt.uint64Max) =
      (constantInt? offset).map (·.getLimitedValue APInt.uint64Max) := by
  simp only [createBinaryLiteral, createBinary, Operation.create, ite_none_right_eq_some] at h
  replace h : visitAdd _ offset (Operation.constantInt (APInt.ofNat _ 0)) = some index := h.2
  have hzero : isConstantInt (Operation.constantInt (APInt.ofNat offset.type.bitwidth 0)) 0 =
      true := by
    simp [isConstantInt, constantInt?, Operation.constantInt, APInt.eqNat, APInt.ofNat]
  unfold visitAdd at h
  split_ifs at h with hundef hoffset
  · cases h
    have hnone : constantInt? offset = none := by
      cases hv : constantInt? offset with
      | none => rfl
      | some v =>
        obtain ⟨ops, rfl⟩ := constantInt?_eq_some hv
        cases hundef
    rw [hnone]
    rfl
  · cases h
    rw [isConstantInt] at hoffset
    cases hv : constantInt? offset with
    | none =>
      rw [hv] at hoffset
      cases hoffset
    | some v =>
      rw [hv, any_some, APInt.eqNat, beq_iff_eq] at hoffset
      simp [constantInt?, Operation.constantInt, APInt.getLimitedValue, hoffset, APInt.ofNat]
  · cases h
    rfl

theorem selectElement_not_literal {output result : Operation} {element : Operation × Nat}
    (hoffset : constantInt? offset = none) (hout : constantInt? output = none)
    (h : selectElement cache offset output element = some result) : constantInt? result = none := by
  simp only [selectElement, bind_eq_some] at h
  obtain ⟨here, hhere, h⟩ := h
  have hcond : constantInt? here = none := by
    simp only [createICmpLiteral, createICmp, Operation.create, ite_none_right_eq_some] at hhere
    replace hhere : visitICmp cache .eq offset _ = some here := hhere.2
    simp only [visitICmp, tryConstInt, hoffset] at hhere
    split_ifs at hhere with hsame <;> cases hhere <;> try rfl
    rw [cache.eq_of_same _ _ hsame] at hoffset
    cases hoffset
  simp only [Operation.create, ite_none_right_eq_some] at h
  replace h : visitSelectOp cache element.1.type here element.1 output = some result := h.2
  simp only [visitSelectOp, hcond] at h
  split_ifs at h with hsame
  · cases h
    rw [cache.eq_of_same _ _ hsame, hout]
  · cases h
    rfl

theorem visitLoadOp_literal {data byte : Operation} (h : visitLoadOp cache data offset = some byte)
    (hbyte : (constantInt? byte).isSome = true) :
    ∃ elements v, fixedArray? data = some elements ∧ constantInt? offset = some v ∧
      elements[v.getLimitedValue APInt.uint64Max]? = some byte := by
  unfold visitLoadOp at h
  split at h
  · rename_i elements helts
    split at h
    · rename_i v hv
      exact ⟨elements, v, helts, hv, h⟩
    · rename_i hnone
      split_ifs at h
      · have hres : constantInt? byte = none :=
          foldlM_invariant (fun o => constantInt? o = none)
            (fun _ _ _ _ hstep ho => selectElement_not_literal hnone ho hstep) h rfl
        rw [hres] at hbyte
        cases hbyte
      · cases h
        cases hbyte
  · cases h
    cases hbyte

end OperationSimplifier

namespace Operation

variable {cache : OperationCache} {τ : Nat → Ty} {o l r : Operation}

theorem constructed_literal (v : APInt) : Constructed cache τ (constantInt v) :=
  .node (.inr rfl) rfl (fun _ _ h => nomatch h) (by simp)

theorem Constructed.binary {op : BinaryOpcode} (hl : Constructed cache τ l)
    (hr : Constructed cache τ r) (h : createBinary cache op l r = some o) :
    Constructed cache τ o ∧ o.type = l.type := by
  have hops : ∀ a ∈ [l, r], Constructed cache τ a := by simp [hl, hr]
  exact ⟨.create hops h, (create_typed (fun a ha => (hops a ha).strict) h).type⟩

theorem Constructed.zext {w : Nat} (ho : Constructed cache τ l)
    (h : createZExt cache (.int w) l = some o) : Constructed cache τ o ∧ o.type = .int w := by
  have hops : ∀ a ∈ [l], Constructed cache τ a := by simp [ho]
  exact ⟨.create hops h, (create_typed (fun a ha => (hops a ha).strict) h).type⟩

end Operation

namespace Allocation

variable {cache : OperationCache} {τ : Nat → Ty} {alloc : Allocation} {offset o : Operation}
  {bytes : List Operation} {w bitwidth : Nat}

/-- The casts a read of an integer of `w` bits constructs, with their operands; the last one is not
reached if a byte cannot be extended. -/
def readCasts (cache : OperationCache) (alloc : Allocation) (offset : Operation) (w : Nat) :
    Option (List (OperationData × Operation)) := do
  guard (alloc.permissions.read = true)
  let bytes ← alloc.loadBytes cache offset (divceil w 8)
  if w = 8 then some []
  else
    let bitwidth := divceil w 8 * 8
    let truncation :=
      if w ≠ bitwidth then
        (assemble cache bitwidth bytes).toList.map (OperationData.unary .trunc (.int w), ·)
      else []
    some (bytes.map (OperationData.unary .zext (.int bitwidth), ·) ++ truncation)

def LiteralByte (data offset : Operation) : Prop :=
  ∃ elements v byte, fixedArray? data = some elements ∧ constantInt? offset = some v ∧
    elements[v.getLimitedValue APInt.uint64Max]? = some byte ∧ (constantInt? byte).isSome = true

section Constructed

variable (hdata : alloc.data.Constructed cache τ) (hoffset : offset.Constructed cache τ)

include hdata hoffset

theorem loadBytes_constructed (h : alloc.loadBytes cache offset w = some bytes) :
    ∀ b ∈ bytes, b.Constructed cache τ ∧ b.type = .int 8 := by
  intro b hb
  obtain ⟨i, -, hi⟩ := exists_of_mem_mapM h hb
  simp only [bind_eq_some] at hi
  obtain ⟨index, hidx, hload⟩ := hi
  have hconstructed := (hoffset.binary (constructed_literal _) hidx).1
  have hops : ∀ a ∈ [alloc.data, index], Constructed cache τ a := by simp [hdata, hconstructed]
  have hrefs : ∀ t i, OperationData.load = .egraphNode t i → τ i = t := fun _ _ h => nomatch h
  exact ⟨.createArray rfl hrefs hops hload,
    (createArray_typed rfl hrefs (fun a ha => (hops a ha).strict) hload).type⟩

omit hdata hoffset in
theorem assemble_constructed (hbytes : ∀ b ∈ bytes, b.Constructed cache τ)
    (h : assemble cache bitwidth bytes = some o) :
    o.Constructed cache τ ∧ o.type = .int bitwidth := by
  cases bytes with
  | nil => cases h
  | cons first bytes =>
    simp only [assemble, bind_eq_some] at h
    obtain ⟨start, hstart, h⟩ := h
    refine foldlM_invariant (fun o => o.Constructed cache τ ∧ o.type = .int bitwidth) ?_ h
      ((hbytes first mem_cons_self).zext hstart)
    intro result byte result' hmem hstep hres
    simp only [appendByte, bind_eq_some] at hstep
    obtain ⟨extended, hextended, shifted, hshd, hor⟩ := hstep
    have hbyte := hbytes byte.1 (mem_cons_of_mem _ (fst_mem_of_mem_zipIdx hmem))
    have hsh := (hbyte.zext hextended).1.binary (constructed_literal _) hshd
    obtain ⟨hconstructed, htype⟩ := hres.1.binary hsh.1 hor
    exact ⟨hconstructed, htype.trans hres.2⟩

theorem read_constructed {pointerSize : Nat}
    (h : alloc.read cache offset (.int w) pointerSize = some o) : o.Constructed cache τ := by
  simp only [read, bind_eq_bind, bind_eq_some_iff] at h
  obtain ⟨-, -, -, -, width, -, bytes, hload, h⟩ := h
  have hbytes := loadBytes_constructed hdata hoffset hload
  by_cases height : Ty.int w = .int 8
  · rw [if_pos height] at h
    exact (hbytes o (mem_of_getElem? h)).1
  · rw [if_neg height, bind_eq_some_iff] at h
    obtain ⟨result, hres, h⟩ := h
    have hconstructed := (assemble_constructed (fun b hb => (hbytes b hb).1) hres).1
    rw [if_pos (show (Ty.int w).isInt = true from rfl)] at h
    split_ifs at h
    · rw [bind_eq_some_iff] at h
      obtain ⟨-, -, h⟩ := h
      exact .create (by simpa using hconstructed) h
    · exact some.inj h ▸ hconstructed

omit hdata hoffset in
theorem assemble_created (h : assemble cache bitwidth bytes = some o) :
    ∀ b ∈ bytes, ∃ r, createZExt cache (.int bitwidth) b = some r := by
  cases bytes with
  | nil => cases h
  | cons first bytes =>
    simp only [assemble, bind_eq_some] at h
    obtain ⟨start, hstart, h⟩ := h
    refine forall_mem_cons.mpr ⟨⟨start, hstart⟩, fun b hb => ?_⟩
    rw [← zipIdx_map_fst 1 bytes] at hb
    obtain ⟨p, hp, rfl⟩ := List.mem_map.mp hb
    obtain ⟨_, _, hstep⟩ := exists_step_of_mem h hp
    simp only [appendByte, bind_eq_some] at hstep
    obtain ⟨r, hr, -⟩ := hstep
    exact ⟨r, hr⟩

omit hdata hoffset in
/-- A read that returns has constructed its casts. -/
theorem readCasts_of_read {pointerSize : Nat}
    (h : alloc.read cache offset (.int w) pointerSize = some o) :
    ∃ casts, alloc.readCasts cache offset w = some casts ∧
      ∀ p ∈ casts, ∃ r, visit cache (.mk p.1 [p.2]) = some r := by
  have hvisit : ∀ {d o r}, Operation.create cache d [o] = some r →
      visit cache (.mk d [o]) = some r := fun h => (ite_none_right_eq_some.mp h).2
  simp only [read, bind_eq_bind, bind_eq_some_iff] at h
  obtain ⟨-, -, u, hperm, width, hwidth, bytes, hload, h⟩ := h
  cases hwidth
  simp only [readCasts, hperm, hload, bind_eq_bind, bind_some]
  by_cases height : w = 8
  · rw [if_pos height]
    exact ⟨[], rfl, fun p hp => nomatch hp⟩
  · rw [if_neg (fun h => height (Ty.int.inj h)), bind_eq_some_iff] at h
    obtain ⟨result, hres, h⟩ := h
    rw [if_neg height, hres]
    refine ⟨_, rfl, fun p hp => ?_⟩
    rcases mem_append.mp hp with hp | hp
    · obtain ⟨b, hb, rfl⟩ := List.mem_map.mp hp
      obtain ⟨r, hr⟩ := assemble_created hres b hb
      exact ⟨r, hvisit hr⟩
    · split_ifs at hp with hne
      · rw [if_pos (show (Ty.int w).isInt = true from rfl),
          if_pos (show (Ty.int w).bitwidth ≠ _ from hne), bind_eq_some_iff] at h
        obtain ⟨-, -, h⟩ := h
        obtain rfl := mem_singleton.mp hp
        exact ⟨o, hvisit h⟩
      · cases hp

omit hdata hoffset in
theorem loadBytes_one (h : alloc.loadBytes cache offset 1 = some bytes) :
    ∃ b, bytes = [b] ∧ ((constantInt? b).isSome = true ↔ LiteralByte alloc.data offset) := by
  simp only [loadBytes, range_one, mapM_cons, mapM_nil, bind_eq_some, Option.pure_def,
    some.injEq] at h
  obtain ⟨b, ⟨index, hidx, hload⟩, _, rfl, rfl⟩ := h
  refine ⟨b, rfl, ?_⟩
  have hlim := createAdd_zero hidx
  rw [createArray, ite_none_right_eq_some] at hload
  replace hload : visitLoadOp cache alloc.data index = some b := hload.2
  constructor
  · intro hb
    obtain ⟨elements, v, helts, hv, hget⟩ := visitLoadOp_literal hload hb
    rw [hv, map_some, eq_comm, map_eq_some_iff] at hlim
    obtain ⟨u, hu, hlim⟩ := hlim
    exact ⟨elements, u, b, helts, hu, hlim ▸ hget, hb⟩
  · rintro ⟨elements, u, byte, helts, hu, hget, hbyte⟩
    rw [hu, map_some, map_eq_some_iff] at hlim
    obtain ⟨v, hv, hlim⟩ := hlim
    simp only [visitLoadOp, helts, hv, hlim, hget] at hload
    exact some.inj hload ▸ hbyte

end Constructed

theorem zext_byte_allowed_iff {b : Operation} (htype : b.type = .int 8) (hle : 8 ≤ bitwidth) :
    (∀ c ∈ foldCalls (.unary .zext (.int bitwidth)) [b], c.Allowed) ↔
      (bitwidth = 8 → (constantInt? b).isSome = false) := by
  rw [foldCalls_allowed_iff rfl (by simpa [accepts, htype] using hle)]
  have hwid : ∀ v, constantInt? b = some v → v.width = 8 := by
    intro v hv
    obtain ⟨ops, rfl⟩ := constantInt?_eq_some hv
    exact Ty.int.inj htype
  constructor
  · rintro h rfl
    rw [← Bool.not_eq_true, isSome_iff_exists]
    rintro ⟨v, hv⟩
    exact h ⟨v, hv, by rw [hwid v hv]; rfl⟩
  · rintro h ⟨v, hv, heq⟩
    have hnone := h ((Ty.int.inj heq).trans (hwid v hv))
    rw [hv] at hnone
    cases hnone

theorem trunc_allowed (htype : o.type = .int bitwidth) (hlt : w < bitwidth) :
    ∀ c ∈ foldCalls (.unary .trunc (.int w)) [o], c.Allowed := by
  rw [foldCalls_allowed_iff rfl (by simpa [accepts, htype] using hlt.le)]
  rintro ⟨v, hv, heq⟩
  obtain ⟨ops, rfl⟩ := constantInt?_eq_some hv
  have hw : w = v.width := Ty.int.inj heq
  have hbitwidth : v.width = bitwidth := Ty.int.inj htype
  omega

/-- A read casts a literal to its own width exactly if the integer has fewer than eight bits and the
byte is a literal. -/
theorem readCasts_allowed_iff (hdata : alloc.data.Constructed cache τ)
    (hoffset : offset.Constructed cache τ) (hw : 0 < w) {casts : List (OperationData × Operation)}
    (h : alloc.readCasts cache offset w = some casts) :
    (∀ p ∈ casts, ∀ c ∈ foldCalls p.1 [p.2], c.Allowed) ↔
      ¬ (w < 8 ∧ LiteralByte alloc.data offset) := by
  simp only [readCasts, bind_eq_bind, bind_eq_some_iff] at h
  obtain ⟨-, -, bytes, hload, h⟩ := h
  have hbytes := loadBytes_constructed hdata hoffset hload
  have hceil : divceil w 8 = (w + 7) / 8 := rfl
  by_cases height : w = 8
  · rw [if_pos height] at h
    cases h
    simp [height]
  · simp only [if_neg height, some.injEq] at h
    subst h
    have htrunc : ∀ p ∈ (if w ≠ divceil w 8 * 8 then
        (assemble cache (divceil w 8 * 8) bytes).toList.map (OperationData.unary .trunc (.int w), ·)
        else []), ∀ c ∈ foldCalls p.1 [p.2], c.Allowed := by
      intro p hp
      split_ifs at hp with hne
      · obtain ⟨result, hres, rfl⟩ := List.mem_map.mp hp
        have htype := (assemble_constructed (fun b hb => (hbytes b hb).1)
          (Option.mem_toList.mp hres)).2
        exact trunc_allowed htype (by omega)
      · cases hp
    have hzext : ∀ b ∈ bytes, ((∀ c ∈ foldCalls (.unary .zext (.int (divceil w 8 * 8))) [b],
        c.Allowed) ↔ (divceil w 8 * 8 = 8 → (constantInt? b).isSome = false)) :=
      fun b hb => zext_byte_allowed_iff (hbytes b hb).2 (by omega)
    simp only [forall_mem_append, List.forall_mem_map]
    rw [and_iff_left htrunc]
    rcases Nat.lt_or_ge w 8 with hlt | hge
    · have hone : divceil w 8 = 1 := by omega
      rw [hone] at hload hzext
      obtain ⟨b, rfl, hlit⟩ := loadBytes_one hload
      rw [forall_mem_singleton, hone, hzext b mem_cons_self, ← hlit]
      simp [hlt]
    · refine iff_of_true (fun b hb => (hzext b hb).mpr fun heq => ?_) fun hsmall => ?_
      · omega
      · exact absurd hsmall.1 (Nat.not_lt.mpr hge)

end Allocation

def Value.type? : Value → Option Ty
  | .empty => none
  | .int v => some (.int v.width)
  | .array _ w => some (.array w)

theorem Value.apint_type {a : APInt} (h : v.apint = some a) : v.type? = some (.int a.width) := by
  cases v with
  | int b =>
    cases h
    rfl
  | _ => cases h

namespace ModelEvaluator

def Model.Fits (m : Model) : OperationData → Prop
  | .constant (.int w) s => m.lookup s none ≠ .empty → (m.lookup s none).type? = some (.int w)
  | .constant (.array w) s => ∀ n, m.lookup s (some n) ≠ .empty →
    (m.lookup s (some n)).type? = some (.array w)
  | _ => True

variable {m : Model} {τ : Nat → Ty}

variable {w : Nat}

theorem visitConstant_type {s : Symbol} (h : m.Fits (.constant (.int w) s)) :
    (visitConstant m w s).type? = some (.int w) := by
  unfold visitConstant
  split
  · rfl
  · rename_i hne
    exact h hne

theorem visitConstantArray_type {s : Symbol} {size : Value} (hm : m.Fits (.constant (.array w) s))
    (h : visitConstantArray m s size = some v) : v.type? = some (.array w) := by
  simp only [visitConstantArray, bind_eq_some] at h
  obtain ⟨n, -, h⟩ := h
  split at h
  · cases h
  · rename_i hne
    cases h
    exact hm _ hne

theorem binop_type {op : BinaryOpcode} (ha : a.type? = some (.int w))
    (h : Value.binop op a b = some v) : v.type? = some (.int w) := by
  simp only [Value.binop, bind_eq_some] at h
  obtain ⟨x, hx, y, -, h⟩ := h
  split_ifs at h
  obtain ⟨f, hf, rfl⟩ := map_eq_some_iff.mp h
  rw [Value.apint_type hx] at ha
  rw [← ha, Value.type?, binary_width hf]

theorem visitICmp_type {cmp : ICmpOpcode} (h : visitICmp cmp a b = some v) :
    v.type? = some .bool := by
  have hbool : ∀ x : Bool, Value.ofBool x = some v → v.type? = some .bool := by
    intro x hx
    cases x with
    | false => cases hx
    | true =>
      cases hx
      rfl
  unfold visitICmp at h
  split at h
  · obtain ⟨x, -, hx⟩ := bind_eq_some_iff.mp h
    exact hbool x hx
  · obtain ⟨x, -, hx⟩ := bind_eq_some_iff.mp h
    exact hbool _ hx
  · cases h

theorem unary_type {op : UnaryOpcode} (h : Value.unary op (.int w) a = some v)
    (hnot : op = .not → a.type? = some (.int w)) : v.type? = some (.int w) := by
  unfold Value.unary at h
  split at h
  · obtain ⟨x, hx, rfl⟩ := map_eq_some_iff.mp h
    rw [Value.apint_type hx] at hnot
    exact hnot rfl
  all_goals
    first
    | (simp only [Value.trunc, Value.zext, Value.sext, bind_eq_some, ite_none_right_eq_some] at h
       obtain ⟨x, -, -, h⟩ := h
       cases h
       rfl)
    | cases h

theorem load_type {i : Value} (h : Value.load a i = some v) : v.type? = some (.int 8) := by
  unfold Value.load at h
  split at h
  · split_ifs at h
    obtain ⟨byte, -, rfl⟩ := map_eq_some_iff.mp h
    rfl
  · cases h

theorem store_type {i : Value} (ha : a.type? = some (.array w)) (h : Value.store a i b = some v) :
    v.type? = some (.array w) := by
  unfold Value.store at h
  split at h
  · split_ifs at h with hcond
    cases h
    rw [Value.type?, hcond.1]
    exact ha
  · cases h

theorem visitOperation_float (hd : d.isFloatOp = true) (args : List (Option Value)) :
    visitOperation m d args = none := by
  cases d with
  | constant t s => cases t <;> first | rfl | cases hd
  | unary op t =>
    rcases args with _ | ⟨a, _ | ⟨b, args⟩⟩
    · rfl
    · cases a with
      | none => rfl
      | some a => cases op <;> first | rfl | cases hd
    · rfl
  | _ => cases hd

theorem visit_type {o : Operation} (ho : o.Strict τ)
    (hm : AllReached (fun _ ops => ops) (fun d _ => m.Fits d) o) (h : visit m o = some v) :
    v.type? = some o.type := by
  induction o using Operation.induct generalizing v with
  | mk d ops ih =>
    obtain ⟨hnode, hops⟩ := strict_mk.mp ho
    obtain ⟨hfits, hbelow⟩ := hm
    have hval : ∀ a ∈ ops, ∀ u t, a.type = t → visit m a = some u → u.type? = some t :=
      fun a ha u t ht hu => ht ▸ ih a ha (hops a ha) (hbelow a ha) hu
    rw [visit_mk] at h
    rcases hnode.accepts with hfloat | hacc
    · rw [visitOperation_float hfloat] at h
      cases h
    · cases shape_of_accepts hacc with
      | symbol w s =>
        cases h
        exact visitConstant_type hfits
      | arraySymbol s hsize =>
        obtain ⟨size, -, h⟩ := bind_eq_some_iff.mp h
        exact visitConstantArray_type hfits h
      | literal u =>
        cases h
        rfl
      | binary hl hr hop =>
        simp only [visitOperation, map_cons, map_nil, bind_eq_some] at h
        obtain ⟨a, ha, b, hb, h⟩ := h
        exact binop_type (hval _ (by simp) a _ hl ha) h
      | floatBinary hl =>
        obtain ⟨a, ha, -⟩ := bind_eq_some_iff.mp h
        have hfloat := hval _ (by simp) a _ hl ha
        cases a <;> cases hfloat
      | icmp cmp hl hr =>
        simp only [visitOperation, map_cons, map_nil, bind_eq_some] at h
        obtain ⟨a, ha, b, hb, h⟩ := h
        exact visitICmp_type h
      | not htype =>
        obtain ⟨a, ha, h⟩ := bind_eq_some_iff.mp h
        exact unary_type h fun _ => hval _ (by simp) a _ htype ha
      | trunc htype hle | zext htype hle | sext htype hle =>
        obtain ⟨a, ha, h⟩ := bind_eq_some_iff.mp h
        exact unary_type h fun hop => nomatch hop
      | select hc hl hr =>
        simp only [visitOperation, map_cons, map_nil, bind_eq_some] at h
        obtain ⟨c, hc, a, ha, h⟩ := h
        split_ifs at h
        · exact hval _ (by simp) v _ hl h
        · exact hval _ (by simp) v _ hr h
      | fixedArray w hbytes =>
        simp only [visitOperation, visitFixedArray, bind_eq_some] at h
        obtain ⟨bytes, -, h⟩ := h
        cases h
        rfl
      | alloc hs hv =>
        simp only [visitOperation, map_cons, map_nil, visitAlloc, bind_eq_some] at h
        obtain ⟨size, -, n, -, h⟩ := h
        cases h
        rfl
      | store hdata hi hb =>
        simp only [visitOperation, map_cons, map_nil, bind_eq_some] at h
        obtain ⟨a, ha, i, -, b, -, h⟩ := h
        exact store_type (hval _ (by simp) a _ hdata ha) h
      | load hdata hi =>
        simp only [visitOperation, map_cons, map_nil, bind_eq_some] at h
        obtain ⟨a, -, i, -, h⟩ := h
        exact load_type h
      | _ => cases h

/-- The calls the evaluator makes on an expression and below it. -/
inductive EvaluatorCall (m : Model) : Operation → CastCall → Prop
  | here {d : OperationData} {o : Operation} {a : APInt} {c : CastCall}
    (value : visit m o = some (.int a)) (call : c ∈ d.castCalls [a]) :
    EvaluatorCall m (.mk d [o]) c
  | inside {d : OperationData} {ops : List Operation} {o : Operation} {c : CastCall}
    (operand : o ∈ ops) (call : EvaluatorCall m o c) : EvaluatorCall m (.mk d ops) c

theorem EvaluatorCall.allowed {o : Operation} {c : CastCall} (h : EvaluatorCall m o c)
    (ho : o.Strict τ) (hm : AllReached (fun _ ops => ops) (fun d _ => m.Fits d) o) : c.Allowed := by
  induction h with
  | @here d o a c hval hcall =>
    obtain ⟨hnode, hops⟩ := strict_mk.mp ho
    obtain ⟨-, hbelow⟩ := hm
    have htype := visit_type (hops o (by simp)) (hbelow o (by simp)) hval
    rw [map_singleton, ← some.inj htype] at hnode
    exact StrictNode.allowed hnode c hcall
  | inside hmem _ ih =>
    obtain ⟨-, hbelow⟩ := hm
    exact ih ((strict_mk.mp ho).2 _ hmem) (hbelow _ hmem)

end ModelEvaluator

open Allocation ModelEvaluator EGraph

/-- Casts respect the integer library unless the operand is a literal of the target width, or fewer
than eight bits are read from a literal byte. -/
theorem castCalls_allowed (cache : OperationCache) (τ : Nat → Ty) :
    (∀ (d : OperationData) (o : Operation), d.isCast = true → d.accepts [o.type] = true →
      ((∀ c ∈ foldCalls d [o], c.Allowed) ↔
        ¬ ∃ v, constantInt? o = some v ∧ d.type = .int v.width) ∧
      ∀ r, visit cache (.mk d [o]) = some r → ∀ c ∈ foldCalls d [o], c.Allowed) ∧
    (∀ (alloc : Allocation) (offset : Operation) (w : Nat),
      alloc.data.Constructed cache τ → offset.Constructed cache τ → 0 < w →
      (∀ casts, alloc.readCasts cache offset w = some casts →
        ((∀ p ∈ casts, ∀ c ∈ foldCalls p.1 [p.2], c.Allowed) ↔
          ¬ (w < 8 ∧ LiteralByte alloc.data offset))) ∧
      ∀ pointerSize o, alloc.read cache offset (.int w) pointerSize = some o →
        o.Constructed cache τ ∧ ∃ casts, alloc.readCasts cache offset w = some casts ∧
          ∀ p ∈ casts, ∃ r, visit cache (.mk p.1 [p.2]) = some r) ∧
    (∀ (o : Operation) (m : Model) (c : CastCall), o.Constructed cache τ →
      AllReached (fun _ ops => ops) (fun d _ => m.Fits d) o → EvaluatorCall m o c → c.Allowed) ∧
    ∀ (g : EGraph) (c : CastCall), Assembled cache τ g → PropagationCall g c → c.Allowed := by
  refine ⟨fun d o hd ha => ⟨foldCalls_allowed_iff hd ha,
    fun r h => foldCalls_allowed_of_visit hd ha h⟩, ?_, ?_, ?_⟩
  · intro alloc offset w hdata hoffset hw
    exact ⟨fun casts h => readCasts_allowed_iff hdata hoffset hw h,
      fun pointerSize o h => ⟨read_constructed hdata hoffset h, readCasts_of_read h⟩⟩
  · exact fun o m c ho hm hcall => hcall.allowed ho.strict hm
  · exact fun g c hg hcall => hg.strict.allowed hcall

def constantBytes : Allocation where
  address := constantInt ⟨64, 4096⟩
  size := constantInt ⟨64, 2⟩
  data := .mk (.fixedArray 64) [constantInt ⟨8, 1⟩, constantInt ⟨8, 2⟩]
  kind := .global
  permissions := ⟨true, false, false⟩
  typed := ⟨64, rfl, rfl⟩

/-- Two bytes are read from a constant with allowed calls. -/
theorem castCalls_allowed_two_bytes :
    ∃ casts, constantBytes.readCasts .full (constantInt ⟨64, 0⟩) 16 = some casts ∧
      casts.length = 2 ∧ ∀ p ∈ casts, ∀ c ∈ foldCalls p.1 [p.2], c.Allowed := by
  obtain ⟨casts, hcasts, hlen⟩ := map_eq_some_iff.mp
    (show (constantBytes.readCasts .full (constantInt ⟨64, 0⟩) 16).map List.length = some 2 by
      decide +kernel)
  refine ⟨casts, hcasts, hlen, ?_⟩
  have hlit : ∀ v, (Operation.constantInt v).Constructed .full (fun _ => .int 8) :=
    constructed_literal
  have hdata : constantBytes.data.Constructed .full (fun _ => .int 8) := by
    refine .node (.inr rfl) rfl (fun _ _ h => nomatch h) ?_
    simp [hlit]
  obtain ⟨-, hread, -⟩ := castCalls_allowed .full (fun _ => .int 8)
  exact ((hread constantBytes _ 16 hdata (hlit _) (by decide)).1 casts hcasts).mpr
    fun h => absurd h.1 (by decide)

/-- A bit read from a constant byte: the byte is extended to the width it has. So is a literal cast
to its own width. -/
theorem constant_bit_extends_byte :
    (∃ casts, constantBytes.readCasts .full (constantInt ⟨64, 0⟩) 1 = some casts ∧
      ∃ p ∈ casts, ∃ c ∈ foldCalls p.1 [p.2], ¬ c.Allowed) ∧
    ∀ op ∈ [UnaryOpcode.trunc, .zext, .sext], (OperationData.unary op (.int 8)).accepts [.int 8] ∧
      ∃ c ∈ foldCalls (.unary op (.int 8)) [constantInt ⟨8, 5⟩], ¬ c.Allowed := by
  constructor
  · obtain ⟨casts, hcasts, hcall⟩ := map_eq_some_iff.mp
      (show (constantBytes.readCasts .full (constantInt ⟨64, 0⟩) 1).map (fun casts =>
        decide (∃ p ∈ casts, ∃ c ∈ foldCalls p.1 [p.2], ¬ c.Allowed)) = some true by
          decide +kernel)
    exact ⟨casts, hcasts, of_decide_eq_true hcall⟩
  · decide +kernel

end Caffeine
