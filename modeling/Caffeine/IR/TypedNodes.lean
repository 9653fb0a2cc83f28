import Caffeine.IR.EGraphTyped

/-!
# Well-typed nodes by opcode

A node that is well typed and has the value of an id, taken apart by its opcode: payload,
operands, their values and the value of the id.
-/

namespace Caffeine

open EGraph Semantics OperationData List

variable {op : BinaryOpcode} {w i j : Nat} {ts : List Ty} {cmp : ICmpOpcode} {x y : BitVec w}

namespace OperationData

theorem shape_of_opcode (d : OperationData) :
    match d.opcode with
    | .binary op => ∃ t, d = .binary op t
    | .icmp cmp => d = .icmp cmp
    | .unary op => ∃ t, d = .unary op t
    | .select => ∃ t, d = .select t
    | .store => ∃ t, d = .store t
    | .load => d = .load
    | _ => True := by
  cases d with
  | constant t s => cases t <;> cases s <;> trivial
  | binary op t => exact ⟨t, rfl⟩
  | unary op t => exact ⟨t, rfl⟩
  | select t => exact ⟨t, rfl⟩
  | store t => exact ⟨t, rfl⟩
  | icmp cmp => exact rfl
  | load => exact rfl
  | _ => trivial

theorem accepts_binary (h : (binary op (.int w)).accepts ts = true) : ts = [.int w, .int w] := by
  unfold accepts at h
  split at h <;> first | (cases h; done) | skip
  all_goals
    rename_i heq
    cases heq
  simp only [Bool.and_eq_true, decide_eq_true_eq] at h
  rw [h.1.1, h.1.2]

theorem accepts_icmp (h : (icmp cmp).accepts ts = true) : ∃ w, ts = [.int w, .int w] := by
  unfold accepts at h
  split at h <;> first | (cases h; done) | skip
  all_goals
    rename_i heq
    cases heq
  rw [of_decide_eq_true h]
  exact ⟨_, rfl⟩

theorem accepts_resize {op : UnaryOpcode} (hres : op = .trunc ∨ op = .zext) {w' : Nat}
    (h : (unary op (.int w')).accepts ts = true) :
    ∃ w, ts = [.int w] ∧ (op = .trunc → w' ≤ w) ∧ (op = .zext → w ≤ w') := by
  rcases hres with rfl | rfl <;>
  · unfold accepts at h
    split at h <;> first | (cases h; done) | skip
    all_goals
      rename_i heq
      cases heq
    exact ⟨_, rfl, by simp_all, by simp_all⟩

theorem accepts_select {t : Ty} (h : (select t).accepts ts = true) : ts = [.bool, t, t] := by
  unfold accepts at h
  split at h <;> first | (cases h; done) | skip
  all_goals
    rename_i heq
    cases heq
  simp only [Bool.and_eq_true, decide_eq_true_eq] at h
  rw [h.1.1, h.1.2, h.2]

theorem accepts_store (h : (store (.array w)).accepts ts = true) :
    ts = [.array w, .int w, .int 8] := by
  unfold accepts at h
  split at h <;> first | (cases h; done) | skip
  all_goals
    rename_i heq
    cases heq
  simp only [Bool.and_eq_true, decide_eq_true_eq] at h
  rw [h.1.1, h.1.2, h.2]

theorem accepts_load (h : load.accepts ts = true) : ∃ w, ts = [.array w, .int w] := by
  unfold accepts at h
  split at h <;> first | (cases h; done) | skip
  all_goals
    rename_i heq
    cases heq
  rw [of_decide_eq_true h]
  exact ⟨_, rfl⟩

end OperationData

namespace EGraph

structure Holds (σ : Assignment) (V : Nat → Val) (id : Nat) (n : ENode) : Prop where
  typed : TypedNode V n
  value : nodeValue (apply σ) V n = V id

variable {σ : Assignment} {V : Nat → Val} {id : Nat} {n : ENode}

theorem ty_eq_int {v : Val} (h : v.ty = .int w) : ∃ x : BitVec w, v = .int ⟨w, x⟩ :=
  Val.hasType_int.mp (h ▸ Val.hasType_ty (by rw [h]; exact Ty.noConfusion))

theorem ty_eq_array {v : Val} (h : v.ty = .array w) : ∃ f, v = .array w f :=
  Val.hasType_array.mp (h ▸ Val.hasType_ty (by rw [h]; exact Ty.noConfusion))

theorem typedNode_binary (hop : op ∈ [.add, .sub, .mul, .and, .or, .xor, .shl, .lshr, .ashr])
    (hi : V i = .int ⟨w, x⟩) (hj : V j = .int ⟨w, y⟩) :
    TypedNode V ⟨.binary op (.int w), [i, j]⟩ := by
  refine ⟨decide_eq_true hop, ?_⟩
  simp only [map_cons, map_nil, hi, hj]
  simp only [mem_cons, not_mem_nil, or_false] at hop
  rcases hop with rfl | rfl | rfl | rfl | rfl | rfl | rfl | rfl | rfl <;>
    simp [accepts, Val.ty, Val.type?]

theorem TypedNode.binary_inv (h : TypedNode V n) (hop : n.opcode = .binary op) :
    ∃ (w i j : Nat) (x y : BitVec w), n = ⟨.binary op (.int w), [i, j]⟩ ∧
      V i = .int ⟨w, x⟩ ∧ V j = .int ⟨w, y⟩ := by
  obtain ⟨d, os⟩ := n
  have hd := shape_of_opcode d
  rw [show d.opcode = .binary op from hop] at hd
  obtain ⟨t, rfl⟩ := hd
  obtain ⟨hfree, hacc⟩ := h
  cases t with
  | int w =>
    have hts := accepts_binary hacc
    simp only [map_eq_cons_iff, map_eq_nil_iff] at hts
    obtain ⟨i, -, rfl, hi, j, -, rfl, hj, rfl⟩ := hts
    obtain ⟨x, hx⟩ := ty_eq_int hi
    obtain ⟨y, hy⟩ := ty_eq_int hj
    exact ⟨w, i, j, x, y, rfl, hx, hy⟩
  | _ => cases hfree

theorem typedNode_icmp (hi : V i = .int ⟨w, x⟩) (hj : V j = .int ⟨w, y⟩) :
    TypedNode V ⟨.icmp cmp, [i, j]⟩ := by
  refine ⟨rfl, ?_⟩
  simp [hi, hj, accepts, Val.ty, Val.type?]

theorem TypedNode.icmp_inv (h : TypedNode V n) (hop : n.opcode = .icmp cmp) :
    ∃ (w i j : Nat) (x y : BitVec w), n = ⟨.icmp cmp, [i, j]⟩ ∧
      V i = .int ⟨w, x⟩ ∧ V j = .int ⟨w, y⟩ := by
  obtain ⟨d, os⟩ := n
  have hd := shape_of_opcode d
  rw [show d.opcode = .icmp cmp from hop] at hd
  obtain rfl := hd
  obtain ⟨w, hts⟩ := accepts_icmp h.accepts
  simp only [map_eq_cons_iff, map_eq_nil_iff] at hts
  obtain ⟨i, -, rfl, hi, j, -, rfl, hj, rfl⟩ := hts
  obtain ⟨x, hx⟩ := ty_eq_int hi
  obtain ⟨y, hy⟩ := ty_eq_int hj
  exact ⟨w, i, j, x, y, rfl, hx, hy⟩

theorem TypedNode.resize_inv {op : UnaryOpcode} (h : TypedNode V n) (hop : n.opcode = .unary op)
    (hres : op = .trunc ∨ op = .zext) :
    ∃ (w w' i : Nat) (x : BitVec w), n = ⟨.unary op (.int w'), [i]⟩ ∧ V i = .int ⟨w, x⟩ ∧
      (op = .trunc → w' ≤ w) ∧ (op = .zext → w ≤ w') := by
  obtain ⟨d, os⟩ := n
  have hd := shape_of_opcode d
  rw [show d.opcode = .unary op from hop] at hd
  obtain ⟨t, rfl⟩ := hd
  obtain ⟨hfree, hacc⟩ := h
  cases t with
  | int w' =>
    obtain ⟨w, hts, hle⟩ := accepts_resize hres hacc
    simp only [map_eq_cons_iff, map_eq_nil_iff] at hts
    obtain ⟨i, -, rfl, hi, rfl⟩ := hts
    obtain ⟨x, hx⟩ := ty_eq_int hi
    exact ⟨w, w', i, x, rfl, hx, hle⟩
  | _ => cases hfree

theorem TypedNode.select_inv (h : TypedNode V n) (hop : n.opcode = .select) :
    ∃ (t : Ty) (c i j : Nat) (b : BitVec 1), n = ⟨.select t, [c, i, j]⟩ ∧ V c = .int ⟨1, b⟩ ∧
      (V i).ty = t ∧ (V j).ty = t := by
  obtain ⟨d, os⟩ := n
  have hd := shape_of_opcode d
  rw [show d.opcode = .select from hop] at hd
  obtain ⟨t, rfl⟩ := hd
  have hts := accepts_select h.accepts
  simp only [map_eq_cons_iff, map_eq_nil_iff] at hts
  obtain ⟨c, -, rfl, hc, i, -, rfl, hi, j, -, rfl, hj, rfl⟩ := hts
  obtain ⟨b, hb⟩ := ty_eq_int hc
  exact ⟨t, c, i, j, b, rfl, hb, hi, hj⟩

theorem TypedNode.store_inv (h : TypedNode V n) (hop : n.opcode = .store) :
    ∃ (w i j k : Nat) (f : BitVec w → BitVec 8) (x : BitVec w) (v : BitVec 8),
      n = ⟨.store (.array w), [i, j, k]⟩ ∧ V i = .array w f ∧ V j = .int ⟨w, x⟩ ∧
        V k = .int ⟨8, v⟩ := by
  obtain ⟨d, os⟩ := n
  have hd := shape_of_opcode d
  rw [show d.opcode = .store from hop] at hd
  obtain ⟨t, rfl⟩ := hd
  obtain ⟨hfree, hacc⟩ := h
  cases t with
  | array w =>
    have hts := accepts_store hacc
    simp only [map_eq_cons_iff, map_eq_nil_iff] at hts
    obtain ⟨i, -, rfl, hi, j, -, rfl, hj, k, -, rfl, hk, rfl⟩ := hts
    obtain ⟨f, hf⟩ := ty_eq_array hi
    obtain ⟨x, hx⟩ := ty_eq_int hj
    obtain ⟨v, hv⟩ := ty_eq_int hk
    exact ⟨w, i, j, k, f, x, v, rfl, hf, hx, hv⟩
  | _ => cases hfree

theorem TypedNode.load_inv (h : TypedNode V n) (hop : n.opcode = .load) :
    ∃ (w i j : Nat) (f : BitVec w → BitVec 8) (x : BitVec w),
      n = ⟨.load, [i, j]⟩ ∧ V i = .array w f ∧ V j = .int ⟨w, x⟩ := by
  obtain ⟨d, os⟩ := n
  have hd := shape_of_opcode d
  rw [show d.opcode = .load from hop] at hd
  obtain rfl := hd
  obtain ⟨w, hts⟩ := accepts_load h.accepts
  simp only [map_eq_cons_iff, map_eq_nil_iff] at hts
  obtain ⟨i, -, rfl, hi, j, -, rfl, hj, rfl⟩ := hts
  obtain ⟨f, hf⟩ := ty_eq_array hi
  obtain ⟨x, hx⟩ := ty_eq_int hj
  exact ⟨w, i, j, f, x, rfl, hf, hx⟩

theorem nodeValue_binary {t : Ty} {x y : APInt} (hi : V i = .int x) (hj : V j = .int y) :
    nodeValue (apply σ) V ⟨.binary op t, [i, j]⟩ = Semantics.binary op x y := by
  rw [nodeValue, map_cons, map_cons, map_nil, hi, hj]
  rfl

theorem nodeValue_icmp (hi : V i = .int ⟨w, x⟩) (hj : V j = .int ⟨w, y⟩) :
    nodeValue (apply σ) V ⟨.icmp cmp, [i, j]⟩ = .int (APInt.ofBool (compare cmp x y)) := by
  rw [nodeValue, map_cons, map_cons, map_nil, hi, hj]
  simp only [apply, Semantics.icmp, APInt.resize_width]

theorem Holds.binary (h : Holds σ V id n) (hop : n.opcode = .binary op) :
    ∃ (w i j : Nat) (x y : BitVec w), n = ⟨.binary op (.int w), [i, j]⟩ ∧
      V i = .int ⟨w, x⟩ ∧ V j = .int ⟨w, y⟩ ∧ V id = Semantics.binary op ⟨w, x⟩ ⟨w, y⟩ := by
  obtain ⟨w, i, j, x, y, rfl, hi, hj⟩ := h.typed.binary_inv hop
  exact ⟨w, i, j, x, y, rfl, hi, hj, h.value.symm.trans (nodeValue_binary hi hj)⟩

theorem Holds.icmp (h : Holds σ V id n) (hop : n.opcode = .icmp cmp) :
    ∃ (w i j : Nat) (x y : BitVec w), n = ⟨.icmp cmp, [i, j]⟩ ∧ V i = .int ⟨w, x⟩ ∧
      V j = .int ⟨w, y⟩ ∧ V id = .int (APInt.ofBool (compare cmp x y)) := by
  obtain ⟨w, i, j, x, y, rfl, hi, hj⟩ := h.typed.icmp_inv hop
  exact ⟨w, i, j, x, y, rfl, hi, hj, h.value.symm.trans (nodeValue_icmp hi hj)⟩

theorem Holds.resize {op : UnaryOpcode} (h : Holds σ V id n) (hop : n.opcode = .unary op)
    (hres : op = .trunc ∨ op = .zext) :
    ∃ (w w' i : Nat) (x : BitVec w), n = ⟨.unary op (.int w'), [i]⟩ ∧ V i = .int ⟨w, x⟩ ∧
      (op = .trunc → w' ≤ w) ∧ (op = .zext → w ≤ w') ∧ V id = .int ⟨w', x.setWidth w'⟩ := by
  obtain ⟨w, w', i, x, rfl, hi, htrunc, hzext⟩ := h.typed.resize_inv hop hres
  refine ⟨w, w', i, x, rfl, hi, htrunc, hzext, ?_⟩
  rw [← h.value, nodeValue, map_cons, map_nil, hi]
  rcases hres with rfl | rfl <;> rfl

theorem Holds.select (h : Holds σ V id n) (hop : n.opcode = .select) :
    ∃ (t : Ty) (c i j : Nat) (b : BitVec 1), n = ⟨.select t, [c, i, j]⟩ ∧ V c = .int ⟨1, b⟩ ∧
      V id = if (APInt.mk 1 b).eqNat 1 then V i else V j := by
  obtain ⟨t, c, i, j, b, rfl, hc, -, -⟩ := h.typed.select_inv hop
  refine ⟨t, c, i, j, b, rfl, hc, ?_⟩
  rw [← h.value, nodeValue, map_cons, map_cons, map_cons, map_nil, hc]
  rfl

theorem Holds.load (h : Holds σ V id n) (hop : n.opcode = .load) :
    ∃ (w i j : Nat) (f : BitVec w → BitVec 8) (x : BitVec w), n = ⟨.load, [i, j]⟩ ∧
      V i = .array w f ∧ V j = .int ⟨w, x⟩ ∧ V id = .int ⟨8, f x⟩ := by
  obtain ⟨w, i, j, f, x, rfl, hi, hj⟩ := h.typed.load_inv hop
  refine ⟨w, i, j, f, x, rfl, hi, hj, ?_⟩
  rw [← h.value, nodeValue, map_cons, map_cons, map_nil, hi, hj]
  simp only [apply, APInt.resize_width]

theorem Holds.store (h : Holds σ V id n) (hop : n.opcode = .store) :
    ∃ (w i j k : Nat) (f : BitVec w → BitVec 8) (x : BitVec w) (v : BitVec 8),
      n = ⟨.store (.array w), [i, j, k]⟩ ∧ V i = .array w f ∧ V j = .int ⟨w, x⟩ ∧
        V k = .int ⟨8, v⟩ ∧ V id = .array w (Function.update f x v) := by
  obtain ⟨w, i, j, k, f, x, v, rfl, hi, hj, hk⟩ := h.typed.store_inv hop
  refine ⟨w, i, j, k, f, x, v, rfl, hi, hj, hk, ?_⟩
  rw [← h.value, nodeValue, map_cons, map_cons, map_cons, map_nil, hi, hj, hk]
  simp only [apply, byte, APInt.resize_width]

theorem holds_binary (hop : op ∈ [.add, .sub, .mul, .and, .or, .xor, .shl, .lshr, .ashr])
    (hi : V i = .int ⟨w, x⟩) (hj : V j = .int ⟨w, y⟩)
    (hid : V id = Semantics.binary op ⟨w, x⟩ ⟨w, y⟩) : Holds σ V id ⟨.binary op (.int w), [i, j]⟩ :=
  ⟨typedNode_binary hop hi hj, (nodeValue_binary hi hj).trans hid.symm⟩

theorem holds_icmp (hi : V i = .int ⟨w, x⟩) (hj : V j = .int ⟨w, y⟩)
    (hid : V id = .int (APInt.ofBool (compare cmp x y))) : Holds σ V id ⟨.icmp cmp, [i, j]⟩ :=
  ⟨typedNode_icmp hi hj, (nodeValue_icmp hi hj).trans hid.symm⟩

theorem holds_constantInt {v : APInt} (h : V id = .int v) : Holds σ V id ⟨.constantInt v, []⟩ :=
  ⟨⟨rfl, rfl⟩, h.symm⟩

end EGraph

end Caffeine
