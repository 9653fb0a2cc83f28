import Caffeine.IR.FoldedNodes
import Caffeine.IR.OperationBuilder
import Caffeine.IR.OperationSimplifierArrays

/-!
# Casts that change the width

`llvm::APInt` truncates only to smaller widths and extends only to larger ones. The constructors of
`UnaryOp` accept equal widths too: they fold a literal first, then return an operand that has the
target type already. So a constructed expression has no cast of equal widths.
-/

namespace Caffeine

open List

/-- A call of `trunc`, `zext` or `sext` of `llvm::APInt`. -/
structure CastCall where
  op : UnaryOpcode
  operandWidth : Nat
  width : Nat
  deriving DecidableEq

def CastCall.Allowed (c : CastCall) : Prop :=
  if c.op = .trunc then c.width < c.operandWidth else c.operandWidth < c.width

instance : DecidablePred CastCall.Allowed := fun c =>
  inferInstanceAs (Decidable (if c.op = .trunc then _ else _))

namespace OperationData

def isCast : OperationData → Bool
  | .unary op _ => op ∈ [.trunc, .zext, .sext]
  | _ => false

/-- Symbols of float type, the unary operations on floats and `Bitcast`, which are not modelled. -/
def isFloatOp : OperationData → Bool
  | .constant (.float _ _) _ => true
  | .unary op _ => op ∉ [.not, .trunc, .zext, .sext]
  | _ => false

/-- The calls made to fold an operation whose operands are literals. -/
def castCalls (d : OperationData) : List APInt → List CastCall
  | [a] =>
    match d with
    | .unary op t => if d.isCast then [⟨op, a.width, t.bitwidth⟩] else []
    | _ => []
  | _ => []

def changesWidth : OperationData → List Ty → Bool
  | .unary .trunc t, [a] => t.bitwidth < a.bitwidth
  | .unary .zext t, [a] => a.bitwidth < t.bitwidth
  | .unary .sext t, [a] => a.bitwidth < t.bitwidth
  | _, _ => true

/-- A node with operands of the given types, in which casts change the width and references have the
types of their ids. -/
structure StrictNode (τ : Nat → Ty) (d : OperationData) (types : List Ty) : Prop where
  accepts : d.isFloatOp = true ∨ d.accepts types = true
  changesWidth : d.changesWidth types = true
  reference : ∀ t i, d = .egraphNode t i → τ i = t

theorem StrictNode.allowed {τ : Nat → Ty} {d : OperationData} {args : List APInt}
    (h : StrictNode τ d (args.map fun a => .int a.width)) : ∀ c ∈ d.castCalls args, c.Allowed := by
  intro c hc
  rcases args with _ | ⟨a, _ | ⟨b, args⟩⟩
  · cases hc
  · cases d with
    | unary op t =>
      have hchanges := h.changesWidth
      have hwid : (Ty.int a.width).bitwidth = a.width := rfl
      cases op <;> simp_all [castCalls, isCast, OperationData.changesWidth, CastCall.Allowed]
    | _ => cases hc
  · cases hc

end OperationData

variable {op : BinaryOpcode} {fold : APInt → APInt → APInt}

namespace Operation

open OperationData

def Strict (τ : Nat → Ty) : Operation → Prop :=
  AllReached (fun _ ops => ops) (fun d ops => StrictNode τ d (ops.map type))

variable {τ : Nat → Ty}

theorem strict_mk {d : OperationData} {ops : List Operation} :
    Strict τ (mk d ops) ↔ StrictNode τ d (ops.map type) ∧ ∀ o ∈ ops, Strict τ o := by
  constructor
  · rintro ⟨here, below⟩
    exact ⟨here, below⟩
  · exact fun ⟨here, below⟩ => ⟨here, below⟩

structure Typed (τ : Nat → Ty) (t : Ty) (o : Operation) : Prop where
  strict : Strict τ o
  type : o.type = t

theorem typed_undef (t : Ty) : Typed τ t (mk (.undef t) []) where
  strict := strict_mk.mpr ⟨⟨.inr rfl, rfl, fun _ _ h => nomatch h⟩, by simp⟩
  type := rfl

variable {w : Nat}

theorem typed_literal {v : APInt} (hv : v.width = w) : Typed τ (.int w) (constantInt v) where
  strict := strict_mk.mpr ⟨⟨.inr rfl, rfl, fun _ _ h => nomatch h⟩, by simp⟩
  type := congrArg Ty.int hv

theorem Typed.binary {l r : Operation} (hl : Typed τ (.int w) l) (hr : Typed τ (.int w) r)
    (hop : op ∉ [.fadd, .fsub, .fmul, .fdiv, .frem]) :
    Typed τ (.int w) (.mk (.binary op (.int w)) [l, r]) where
  strict := by
    refine strict_mk.mpr ⟨⟨.inr ?_, rfl, fun _ _ h => nomatch h⟩, ?_⟩
    · simpa [accepts, hl.type, hr.type] using hop
    · simp [hl.strict, hr.strict]
  type := rfl

theorem Typed.binary_inv {t : Ty} {l r : Operation}
    (h : Typed τ (.int w) (.mk (.binary op t) [l, r])) :
    Typed τ (.int w) l ∧ Typed τ (.int w) r := by
  obtain ⟨hnode, hops⟩ := strict_mk.mp h.strict
  obtain rfl : t = .int w := h.type
  have hacc := hnode.accepts.resolve_left (by simp [isFloatOp])
  simp only [map_cons, map_nil, accepts, Bool.and_eq_true, decide_eq_true_eq] at hacc
  exact ⟨⟨hops l (by simp), hacc.1.1⟩, ⟨hops r (by simp), hacc.1.2⟩⟩

theorem Typed.width {o : Operation} {v : APInt} (h : Typed τ (.int w) o)
    (hv : OperationSimplifier.constantInt? o = some v) : v.width = w := by
  obtain ⟨ops, rfl⟩ := OperationSimplifier.constantInt?_eq_some hv
  exact Ty.int.inj h.type

end Operation

namespace OperationSimplifier

open Operation OperationData

variable {τ : Nat → Ty} {w : Nat} {l r o : Operation}

theorem BinaryFold.typed {create : BinaryConstructor}
    (hc : ∀ op l r o, Typed τ (.int w) l → Typed τ (.int w) r → create op l r = some o →
      Typed τ (.int w) o) (hl : Typed τ (.int w) l) (hr : Typed τ (.int w) r)
    (hop : op ∉ [.fadd, .fsub, .fmul, .fdiv, .frem]) (h : BinaryFold create op (.int w) l r o) :
    Typed τ (.int w) o := by
  have hspl : ∀ {value c₁ c₂}, Split l r value c₁ c₂ →
      Typed τ (.int w) value ∧ Typed τ (.int w) c₁ ∧ Typed τ (.int w) c₂ :=
    fun split => split.parts (Typed τ (.int w)) (fun _ _ _ _ h => h.binary_inv) hl hr
  cases h with
  | left => exact hl
  | right => exact hr
  | undef => exact typed_undef _
  | literal hv => exact typed_literal (hv.elim id fun ⟨a, ha, hv⟩ => hv.trans (hl.width ha))
  | keep => exact hl.binary hr hop
  | shifted split hm hv h =>
    obtain ⟨hval, hmask, hsh⟩ := hspl split
    exact hc _ _ _ _ (hc _ _ _ _ hval (hc _ _ _ _ hmask hsh hm) hv) hsh h
  | masked split _ hm h =>
    obtain ⟨hval, h1, h2⟩ := hspl split
    exact hc _ _ _ _ hval (hc _ _ _ _ h1 h2 hm) h
  | cleared split hv h => exact hc _ _ _ _ (hspl split).1 (typed_literal hv) h

variable {cache : OperationCache}

theorem create_typed {fuel : Nat} (hl : Typed τ (.int w) l) (hr : Typed τ (.int w) r)
    (h : create cache fuel op l r = some o) : Typed τ (.int w) o := by
  induction fuel generalizing op l r o with
  | zero => cases h
  | succ fuel ih =>
    rw [create, hl.type, hr.type] at h
    split_ifs at h with hacc
    refine (visitBinary_folds h).typed (fun op l r o hl hr h => ih hl hr h) hl hr ?_
    simpa [accepts] using hacc

theorem visit_unary_typed {op : UnaryOpcode} {t : Ty} {n : Operation} (ho : Strict τ o)
    (ha : (OperationData.unary op t).accepts [o.type] = true)
    (h : visit cache (.mk (.unary op t) [o]) = some n) : Typed τ t n := by
  have hvis : visitUnary (create cache (Operation.mk (.unary op t) [o]).size) op t o = some n := h
  obtain ⟨w, w', htype, rfl⟩ : ∃ w w', o.type = .int w' ∧ t = .int w := by
    cases OperationData.shape_of_accepts (l := [o]) ha with
    | not h | trunc h | zext h | sext h => exact ⟨_, _, h, rfl⟩
  have hnot : op = .not → w = w' := by
    rintro rfl
    rw [htype] at ha
    exact (Ty.int.inj (of_decide_eq_true ha)).symm
  cases visitUnary_folds hvis with
  | literal hv =>
    refine typed_literal (hv.elim id fun ⟨hop, a, hlit, hv⟩ => ?_)
    exact hv.trans ((Typed.width ⟨ho, htype⟩ hlit).trans (hnot hop).symm)
  | operand heq => exact ⟨ho, heq.symm⟩
  | @inner t' x hop hx =>
    subst hx
    obtain ⟨hnode, hops⟩ := strict_mk.mp ho
    obtain rfl : t' = .int w' := htype
    have hacc := hnode.accepts.resolve_left (by simp [isFloatOp])
    exact ⟨hops _ (by simp), hnot hop ▸ of_decide_eq_true hacc⟩
  | keep hkeep =>
    refine ⟨strict_mk.mpr ⟨⟨.inr ha, ?_, fun _ _ h => nomatch h⟩, by simpa using ho⟩, rfl⟩
    rw [map_singleton, htype]
    rw [htype] at ha hkeep
    -- a cast of equal widths returns its operand
    have hne : op ≠ .not → w ≠ w' := fun hop hw => hkeep.elim hop fun h => h (congrArg Ty.int hw)
    cases op with
    | trunc => exact decide_eq_true (lt_of_le_of_ne (of_decide_eq_true ha) (hne nofun))
    | zext | sext => exact decide_eq_true (lt_of_le_of_ne (of_decide_eq_true ha) (hne nofun).symm)
    | _ => rfl
  | @mask t' x _ v hop hx hbits hv hres =>
    subst hx hop
    obtain ⟨hnode, hops⟩ := strict_mk.mp ho
    have hacc := hnode.accepts.resolve_left (by simp [isFloatOp])
    obtain rfl : t' = .int w' := htype
    have hinner : x.type = .int w := by
      cases OperationData.shape_of_accepts (l := [x]) hacc with
      | trunc htype _ =>
        rw [htype] at hbits
        rw [htype]
        exact congrArg Ty.int hbits.symm
    exact create_typed ⟨hops x (by simp), hinner⟩ (typed_literal hv) hres

theorem visitSelectOp_typed {t : Ty} {c a b : Operation} (hc : Typed τ .bool c) (ha : Typed τ t a)
    (hb : Typed τ t b) (h : visitSelectOp cache t c a b = some o) : Typed τ t o := by
  unfold visitSelectOp at h
  split at h
  · split_ifs at h <;> cases h
    · exact ha
    · exact hb
  · split_ifs at h <;> cases h
    · exact ha
    · refine ⟨strict_mk.mpr ⟨⟨.inr ?_, rfl, fun _ _ h => nomatch h⟩, ?_⟩, rfl⟩
      · simp [accepts, hc.type, ha.type, hb.type]
      · simp [hc.strict, ha.strict, hb.strict]

theorem visitICmp_typed {cmp : ICmpOpcode} (hl : Typed τ (.int w) l) (hr : Typed τ (.int w) r)
    (h : visitICmp cache cmp l r = some o) : Typed τ .bool o := by
  unfold visitICmp tryConstInt at h
  split at h
  · cases h
    exact typed_literal rfl
  split_ifs at h <;> cases h
  · exact typed_undef _
  · exact typed_literal rfl
  · refine ⟨strict_mk.mpr ⟨⟨.inr ?_, rfl, fun _ _ h => nomatch h⟩, ?_⟩, rfl⟩
    · simp [accepts, hl.type, hr.type]
    · simp [hl.strict, hr.strict]

end OperationSimplifier

namespace Operation

open OperationSimplifier OperationData

variable {τ : Nat → Ty} {cache : OperationCache} {d : OperationData} {ops : List Operation}
  {o : Operation}

theorem create_typed (hops : ∀ o ∈ ops, Strict τ o) (h : create cache d ops = some o) :
    Typed τ d.type o := by
  unfold create at h
  split_ifs at h with ha
  have hty : ∀ a ∈ ops, ∀ t, a.type = t → Typed τ t a := fun a hmem t ht => ⟨hops a hmem, ht⟩
  cases OperationData.shape_of_accepts ha with
  | binary hl hr hop =>
    exact (visitBinary_folds h).typed (fun _ _ _ _ hl hr h =>
      OperationSimplifier.create_typed hl hr h)
      (hty _ (by simp) _ hl) (hty _ (by simp) _ hr) hop
  | icmp cmp hl hr =>
    exact visitICmp_typed (hty _ (by simp) _ hl) (hty _ (by simp) _ hr) h
  | not | trunc | zext | sext => exact visit_unary_typed (hops _ (by simp)) ha h
  | select hc hl hr =>
    exact visitSelectOp_typed (hty _ (by simp) _ hc) (hty _ (by simp) _ hl)
      (hty _ (by simp) _ hr) h
  | @floatBinary op e m l r hl => cases op <;> first | cases h | simp [accepts] at ha
  | _ => cases h

theorem strict_node (ha : d.isFloatOp = true ∨ d.accepts (ops.map type) = true)
    (hcast : d.isCast = false) (href : ∀ t i, d = .egraphNode t i → τ i = t)
    (hops : ∀ o ∈ ops, Strict τ o) : Strict τ (mk d ops) := by
  refine strict_mk.mpr ⟨⟨ha, ?_, href⟩, hops⟩
  cases d with
  | unary op t => cases op <;> first | rfl | simp [isCast] at hcast
  | _ => rfl

variable {w : Nat}

theorem fixedArray_typed {bytes : List Operation} (hbytes : ∀ b ∈ bytes, Typed τ (.int 8) b)
    (h : createFixedArray w bytes = some o) : Typed τ (.array w) o := by
  unfold createFixedArray at h
  split_ifs at h
  cases h
  refine ⟨strict_node (.inr ?_) rfl (fun _ _ h => nomatch h) (fun b hb => (hbytes b hb).strict),
    rfl⟩
  simpa [accepts] using fun b hb => (hbytes b hb).type

theorem Typed.elements {bytes : List Operation} (ho : Typed τ (.array w) o)
    (h : fixedArray? o = some bytes) : ∀ b ∈ bytes, Typed τ (.int 8) b := by
  obtain ⟨w', rfl⟩ := fixedArray?_eq_some h
  obtain ⟨hnode, hops⟩ := strict_mk.mp ho.strict
  have hacc := hnode.accepts.resolve_left (by simp [isFloatOp])
  simp only [accepts, List.all_map, List.all_eq_true, Function.comp, decide_eq_true_eq] at hacc
  exact fun b hb => ⟨hops b hb, hacc b hb⟩

theorem selectElement_typed {offset output : Operation} {element : Operation × Nat}
    (hoff : Typed τ (.int w) offset) (hout : Typed τ (.int 8) output)
    (helt : Typed τ (.int 8) element.1) (h : selectElement cache offset output element = some o) :
    Typed τ (.int 8) o := by
  simp only [selectElement, bind_eq_some] at h
  obtain ⟨here, hhere, h⟩ := h
  have hcond : Typed τ .bool here := by
    refine create_typed (d := .icmp .eq) ?_ hhere
    simp only [forall_mem_cons, not_mem_nil, false_implies, implies_true, and_true]
    exact ⟨hoff.strict, (typed_literal rfl).strict⟩
  rw [helt.type] at h
  refine create_typed (d := .select (.int 8)) ?_ h
  simp [hcond.strict, helt.strict, hout.strict]

theorem visitLoadOp_typed {data offset : Operation} (hdata : Typed τ (.array w) data)
    (hoff : Typed τ (.int w) offset) (h : visitLoadOp cache data offset = some o) :
    Typed τ (.int 8) o := by
  have hkeep : Typed τ (.int 8) (mk .load [data, offset]) := by
    refine ⟨strict_node (.inr ?_) rfl (fun _ _ h => nomatch h) ?_, rfl⟩
    · simp [accepts, hdata.type, hoff.type]
    · simp [hdata.strict, hoff.strict]
  unfold visitLoadOp at h
  split at h
  · rename_i elements helts
    have hbytes := hdata.elements helts
    split at h
    · exact hbytes o (mem_of_getElem? h)
    · split_ifs at h
      · refine foldlM_invariant (Typed τ (.int 8)) ?_ h (typed_undef _)
        intro output element output' hmem hstep hout
        exact selectElement_typed hoff hout
          (hbytes _ (fst_mem_of_mem_zipIdx hmem)) hstep
      · exact Option.some.inj h ▸ hkeep
  · exact Option.some.inj h ▸ hkeep

theorem createArray_typed (hcast : d.isCast = false) (href : ∀ t i, d = .egraphNode t i → τ i = t)
    (hops : ∀ o ∈ ops, Strict τ o) (h : createArray cache d ops = some o) : Typed τ d.type o := by
  unfold createArray at h
  split_ifs at h with ha
  have hty : ∀ a ∈ ops, ∀ t, a.type = t → Typed τ t a := fun a hmem t ht => ⟨hops a hmem, ht⟩
  have hkeep : Typed τ d.type (mk d ops) := ⟨strict_node (.inr ha) hcast href hops, rfl⟩
  cases OperationData.shape_of_accepts ha with
  | fixedArray w hbytes =>
    exact fixedArray_typed (fun b hb => hty b hb _ (hbytes b hb)) h
  | alloc hs hv =>
    simp only [visitArray, visitAllocOp] at h
    split at h
    · split_ifs at h
      · refine fixedArray_typed (fun b hb => ?_) h
        exact hty b (by simp [eq_of_mem_replicate hb]) _
          (eq_of_mem_replicate hb ▸ hv)
      · exact Option.some.inj h ▸ hkeep
    · exact Option.some.inj h ▸ hkeep
  | store hdata hi hv =>
    simp only [visitArray, visitStoreOp] at h
    split at h
    · rename_i elements v helts hidx
      split_ifs at h
      rw [hi] at h
      refine fixedArray_typed (fun b hb => ?_) h
      rcases mem_or_eq_of_mem_set hb with hb | rfl
      · exact (hty _ (by simp) _ hdata).elements helts b hb
      · exact hty b (by simp) _ hv
    · rw [hdata] at h
      exact Option.some.inj h ▸ hkeep
  | load hdata hi =>
    exact visitLoadOp_typed (hty _ (by simp) _ hdata) (hty _ (by simp) _ hi) h
  | _ => exact Option.some.inj h ▸ hkeep

/-- The expressions constructors make. Operations on floats, and any but casts, may stand as they
are. -/
inductive Constructed (cache : OperationCache) (τ : Nat → Ty) : Operation → Prop
  | node {d : OperationData} {ops : List Operation}
    (accepts : d.isFloatOp = true ∨ d.accepts (ops.map type) = true) (notCast : d.isCast = false)
    (reference : ∀ t i, d = .egraphNode t i → τ i = t)
    (operands : ∀ o ∈ ops, Constructed cache τ o) : Constructed cache τ (mk d ops)
  | create {d : OperationData} {ops : List Operation} {o : Operation}
    (operands : ∀ o ∈ ops, Constructed cache τ o) (result : create cache d ops = some o) :
    Constructed cache τ o
  | createArray {d : OperationData} {ops : List Operation} {o : Operation}
    (notCast : d.isCast = false) (reference : ∀ t i, d = .egraphNode t i → τ i = t)
    (operands : ∀ o ∈ ops, Constructed cache τ o) (result : createArray cache d ops = some o) :
    Constructed cache τ o

theorem Constructed.strict (h : Constructed cache τ o) : Strict τ o := by
  induction h with
  | node ha hcast href _ ih => exact strict_node ha hcast href ih
  | create _ h ih => exact (create_typed ih h).strict
  | createArray hcast href _ h ih => exact (createArray_typed hcast href ih h).strict

end Operation

end Caffeine
