import Caffeine.IR.Value
import Caffeine.Util.Containers

/-!
# Well-typed expressions

An expression is well typed over a set of payloads when every node has a payload of the set and
operands of the types its constructor asserts. Typing is an interpretation of operations, like
evaluation. Over interpreted payloads, well-typed expressions have values of their type.
-/

namespace Caffeine

open List

variable {v : Val} {w : Nat} {σ : Assignment} {d : OperationData} {o : Operation}

namespace Val

theorem hasType_int : v.HasType (.int w) ↔ ∃ x : BitVec w, v = .int ⟨w, x⟩ := by
  constructor
  · intro h
    cases v with
    | int a =>
      obtain ⟨w', x⟩ := a
      cases h
      exact ⟨x, rfl⟩
    | array w' f => cases h
    | poison => cases h
  · rintro ⟨x, rfl⟩
    exact rfl

theorem hasType_array : v.HasType (.array w) ↔ ∃ f, v = .array w f := by
  constructor
  · intro h
    cases v with
    | int a => cases h
    | array w' f =>
      cases h
      exact ⟨f, rfl⟩
    | poison => cases h
  · rintro ⟨f, rfl⟩
    exact rfl

instance (v : Val) (t : Ty) : Decidable (v.HasType t) := inferInstanceAs (Decidable (_ = _))

theorem not_hasType_float {e m : Nat} : ¬ v.HasType (.float e m) := by
  intro h
  cases v <;> cases h

end Val

namespace OperationData

/-- The payloads whose operations have a value for all operands of the right types. -/
def interpreted : OperationData → Bool
  | .constantFloat _ _ _ => false
  | .functionObject _ => false
  | .egraphNode _ _ => false
  | .undef _ => false
  | _ => true

/-- The same with references to e-graph nodes whose value is of the type of the reference. -/
def interpretedIn (σ : Assignment) : OperationData → Bool
  | .egraphNode t id => decide ((σ.node id).HasType t)
  | d => d.interpreted

/-- The same with undefined integers, which the semantics reads as zero. -/
def evaluatedIn (σ : Assignment) : OperationData → Bool
  | .undef (.int _) => true
  | d => d.interpretedIn σ

theorem evaluatedIn_of_interpretedIn (h : d.interpretedIn σ = true) : d.evaluatedIn σ = true := by
  cases d with
  | undef t => cases h
  | _ => exact h

theorem interpretedIn_of_interpreted (σ : Assignment) (h : d.interpreted = true) :
    d.interpretedIn σ = true := by
  cases d with
  | egraphNode t id => cases h
  | _ => exact h

end OperationData

namespace OperationData

inductive Shape {α : Type*} (type : α → Ty) : OperationData → List α → Prop
  | symbol (w : Nat) (s : Symbol) : Shape type (.constant (.int w) s) []
  | arraySymbol {w : Nat} (s : Symbol) {size : α} (h : type size = .int w) :
    Shape type (.constant (.array w) s) [size]
  | literal (v : APInt) : Shape type (.constantInt v) []
  | floatLiteral (e m bits : Nat) : Shape type (.constantFloat e m bits) []
  | functionObject (f : Nat) : Shape type (.functionObject f) []
  | node (t : Ty) (id : Nat) : Shape type (.egraphNode t id) []
  | undef (t : Ty) : Shape type (.undef t) []
  | binary {op : BinaryOpcode} {w : Nat} {l r : α} (hl : type l = .int w) (hr : type r = .int w)
    (hop : op ∉ [.fadd, .fsub, .fmul, .fdiv, .frem]) : Shape type (.binary op (.int w)) [l, r]
  | floatBinary {op : BinaryOpcode} {e m : Nat} {l r : α} (hl : type l = .float e m) :
    Shape type (.binary op (.float e m)) [l, r]
  | icmp (cmp : ICmpOpcode) {w : Nat} {l r : α} (hl : type l = .int w) (hr : type r = .int w) :
    Shape type (.icmp cmp) [l, r]
  | fcmp (cmp : FCmpOpcode) {e m : Nat} {l r : α} (hl : type l = .float e m) :
    Shape type (.fcmp cmp) [l, r]
  | not {w : Nat} {o : α} (h : type o = .int w) : Shape type (.unary .not (.int w)) [o]
  | trunc {w w' : Nat} {o : α} (h : type o = .int w') (hle : w ≤ w') :
    Shape type (.unary .trunc (.int w)) [o]
  | zext {w w' : Nat} {o : α} (h : type o = .int w') (hle : w' ≤ w) :
    Shape type (.unary .zext (.int w)) [o]
  | sext {w w' : Nat} {o : α} (h : type o = .int w') (hle : w' ≤ w) :
    Shape type (.unary .sext (.int w)) [o]
  | select {t : Ty} {c a b : α} (hc : type c = .bool) (ha : type a = t) (hb : type b = t) :
    Shape type (.select t) [c, a, b]
  | fixedArray (w : Nat) {bytes : List α} (h : ∀ o ∈ bytes, type o = .int 8) :
    Shape type (.fixedArray w) bytes
  | alloc {w : Nat} {size value : α} (hs : type size = .int w) (hv : type value = .int 8) :
    Shape type (.alloc w) [size, value]
  | store {w : Nat} {a i v : α} (ha : type a = .array w) (hi : type i = .int w)
    (hv : type v = .int 8) : Shape type (.store (.array w)) [a, i, v]
  | load {w : Nat} {a i : α} (ha : type a = .array w) (hi : type i = .int w) :
    Shape type .load [a, i]

theorem shape_of_accepts {α : Type*} {type : α → Ty} {l : List α}
    (h : d.accepts (l.map type) = true) : Shape type d l := by
  generalize hts : l.map type = ts at h
  unfold accepts at h
  split at h
  case h_17 =>
    refine .fixedArray _ fun o ho => ?_
    exact of_decide_eq_true (List.all_eq_true.mp h _ (hts ▸ List.mem_map_of_mem ho))
  case h_21 => cases h
  all_goals simp only [map_eq_cons_iff, map_eq_nil_iff] at hts
  case h_2 | h_3 | h_4 | h_5 | h_6 | h_7 =>
    subst hts
    constructor
  case h_1 | h_12 | h_13 | h_14 | h_15 =>
    obtain ⟨a, l, rfl, ha, rfl⟩ := hts
    have hle := of_decide_eq_true h
    subst_vars
    constructor <;> assumption
  case h_10 | h_11 | h_20 =>
    obtain ⟨a, l, rfl, ha, b, l, rfl, hb, rfl⟩ := hts
    obtain rfl := of_decide_eq_true h
    constructor <;> assumption
  case h_8 | h_9 | h_18 =>
    obtain ⟨a, l, rfl, ha, b, l, rfl, hb, rfl⟩ := hts
    simp only [Bool.and_eq_true, decide_eq_true_eq] at h
    constructor <;> simp_all
  case h_16 | h_19 =>
    obtain ⟨a, l, rfl, ha, b, l, rfl, hb, c, l, rfl, hc, rfl⟩ := hts
    simp only [Bool.and_eq_true, decide_eq_true_eq] at h
    constructor <;> simp_all

def IsBitvector : OperationData → Prop
  | .constantFloat _ _ _ | .functionObject _ | .egraphNode _ _ | .undef _ | .fcmp _
  | .binary _ (.float _ _) => False
  | _ => True

end OperationData

namespace Semantics

def typing (allowed : OperationData → Bool) (d : OperationData) (types : List (Option Ty)) :
    Option Ty := do
  let types ← types.mapM id
  if allowed d && d.accepts types then some d.type else none

theorem typing_eq_some {allowed : OperationData → Bool} {types : List (Option Ty)} {t : Ty} :
    typing allowed d types = some t ↔
      ∃ ts, types = ts.map some ∧ allowed d = true ∧ d.accepts ts = true ∧ d.type = t := by
  simp only [typing, bind_eq_some, mapM_id_eq_some,
    Option.ite_none_right_eq_some, Bool.and_eq_true, Option.some.injEq, and_assoc]

theorem apply_hasType (σ : Assignment) {ts : List Ty} {vs : List Val}
    (hi : d.interpretedIn σ = true) (ha : d.accepts ts = true) (hvs : Forall₂ Val.HasType vs ts) :
    (apply σ d vs).HasType d.type := by
  unfold OperationData.accepts at ha
  split at ha
  case h_1 w s w' =>
    rcases hvs with _ | ⟨-, _ | _⟩
    exact rfl
  case h_2 | h_3 =>
    rcases hvs with _ | _
    exact rfl
  case h_4 | h_5 | h_7 => cases hi
  case h_6 => exact of_decide_eq_true hi
  case h_8 op w t1 t2 =>
    simp only [Bool.and_eq_true, decide_eq_true_eq] at ha
    obtain ⟨⟨rfl, rfl⟩, hop⟩ := ha
    rcases hvs with _ | ⟨h1, _ | ⟨h2, _ | _⟩⟩
    obtain ⟨x, rfl⟩ := Val.hasType_int.mp h1
    obtain ⟨y, rfl⟩ := Val.hasType_int.mp h2
    cases op <;> first | rfl | simp at hop
  case h_9 op e m t1 t2 =>
    simp only [Bool.and_eq_true, decide_eq_true_eq] at ha
    obtain ⟨⟨rfl, -⟩, -⟩ := ha
    rcases hvs with _ | ⟨h1, -⟩
    exact (Val.not_hasType_float h1).elim
  case h_10 cmp w t2 =>
    obtain rfl := of_decide_eq_true ha
    rcases hvs with _ | ⟨h1, _ | ⟨h2, _ | _⟩⟩
    obtain ⟨x, rfl⟩ := Val.hasType_int.mp h1
    obtain ⟨y, rfl⟩ := Val.hasType_int.mp h2
    exact rfl
  case h_11 cmp e m t2 =>
    rcases hvs with _ | ⟨h1, -⟩
    exact (Val.not_hasType_float h1).elim
  case h_12 w t1 =>
    obtain rfl := of_decide_eq_true ha
    rcases hvs with _ | ⟨h1, _ | _⟩
    obtain ⟨x, rfl⟩ := Val.hasType_int.mp h1
    exact rfl
  case h_13 w w' | h_14 w w' | h_15 w w' =>
    rcases hvs with _ | ⟨h1, _ | _⟩
    obtain ⟨x, rfl⟩ := Val.hasType_int.mp h1
    exact rfl
  case h_16 t c t1 t2 =>
    simp only [Bool.and_eq_true, decide_eq_true_eq] at ha
    obtain ⟨⟨rfl, rfl⟩, rfl⟩ := ha
    rcases hvs with _ | ⟨h1, _ | ⟨h2, _ | ⟨h3, _ | _⟩⟩⟩
    obtain ⟨c, rfl⟩ := Val.hasType_int.mp h1
    simp only [apply]
    split_ifs
    · exact h2
    · exact h3
  case h_17 w ts => exact rfl
  case h_18 w t1 t2 =>
    simp only [Bool.and_eq_true, decide_eq_true_eq] at ha
    obtain ⟨rfl, rfl⟩ := ha
    rcases hvs with _ | ⟨h1, _ | ⟨h2, _ | _⟩⟩
    obtain ⟨x, rfl⟩ := Val.hasType_int.mp h1
    exact rfl
  case h_19 w t1 t2 t3 =>
    simp only [Bool.and_eq_true, decide_eq_true_eq] at ha
    obtain ⟨⟨rfl, rfl⟩, rfl⟩ := ha
    rcases hvs with _ | ⟨h1, _ | ⟨h2, _ | ⟨h3, _ | _⟩⟩⟩
    obtain ⟨f, rfl⟩ := Val.hasType_array.mp h1
    obtain ⟨i, rfl⟩ := Val.hasType_int.mp h2
    exact rfl
  case h_20 w t2 =>
    obtain rfl := of_decide_eq_true ha
    rcases hvs with _ | ⟨h1, _ | ⟨h2, _ | _⟩⟩
    obtain ⟨f, rfl⟩ := Val.hasType_array.mp h1
    obtain ⟨i, rfl⟩ := Val.hasType_int.mp h2
    exact rfl
  case h_21 => cases ha

end Semantics

namespace Operation

def typeOf (allowed : OperationData → Bool) (o : Operation) : Option Ty :=
  o.fold (Semantics.typing allowed)

def WellTyped (allowed : OperationData → Bool) (o : Operation) : Prop :=
  o.typeOf allowed = some o.type

abbrev Interpreted (o : Operation) : Prop := o.WellTyped OperationData.interpreted

abbrev InterpretedIn (σ : Assignment) (o : Operation) : Prop :=
  o.WellTyped (OperationData.interpretedIn σ)

instance (allowed : OperationData → Bool) (o : Operation) : Decidable (o.WellTyped allowed) :=
  inferInstanceAs (Decidable (_ = _))

variable {allowed : OperationData → Bool}

theorem type_of_typeOf {t : Ty} (h : o.typeOf allowed = some t) : o.type = t := by
  cases o with
  | mk d ops =>
    rw [typeOf, fold_mk, Semantics.typing_eq_some] at h
    obtain ⟨ts, -, -, -, ht⟩ := h
    exact ht

theorem wellTyped_mk {ops : List Operation} : (mk d ops).WellTyped allowed ↔
      allowed d = true ∧ d.accepts (ops.map type) = true ∧ ∀ o ∈ ops, o.WellTyped allowed := by
  rw [WellTyped, typeOf, fold_mk, Semantics.typing_eq_some]
  constructor
  · rintro ⟨ts, hts, hd, ha, -⟩
    have hty : ∀ o ∈ ops, o.WellTyped allowed := by
      intro o ho
      have hmem : fold (Semantics.typing allowed) o ∈ ts.map some := hts ▸ List.mem_map_of_mem ho
      obtain ⟨t, -, ht⟩ := List.mem_map.mp hmem
      rw [WellTyped, typeOf, ← ht, type_of_typeOf ht.symm]
    refine ⟨hd, ?_, hty⟩
    have hmap : (ops.map type).map some = ts.map some := by
      rw [← hts, List.map_map]
      exact map_congr_left (fun o ho => (hty o ho).symm)
    rwa [map_injective_iff.mpr (Option.some_injective _) hmap]
  · rintro ⟨hd, ha, hops⟩
    refine ⟨ops.map type, ?_, hd, ha, rfl⟩
    rw [List.map_map]
    exact map_congr_left hops

theorem WellTyped.mono {allowed' : OperationData → Bool}
    (himp : ∀ d, allowed d = true → allowed' d = true) (ho : o.WellTyped allowed) :
    o.WellTyped allowed' := by
  induction o using Operation.induct with
  | mk d ops ih =>
    obtain ⟨hd, ha, hops⟩ := wellTyped_mk.mp ho
    exact wellTyped_mk.mpr ⟨himp d hd, ha, fun o hmem => ih o hmem (hops o hmem)⟩

theorem WellTyped.evaluated_hasType (ho : o.WellTyped (OperationData.evaluatedIn σ)) :
    (o.eval σ).HasType o.type := by
  induction o using Operation.induct with
  | mk d ops ih =>
    obtain ⟨hd, ha, hops⟩ := wellTyped_mk.mp ho
    rw [eval_mk]
    have hvals : Forall₂ Val.HasType (ops.map (eval σ)) (ops.map Operation.type) := by
      rw [forall₂_map_left_iff, forall₂_map_right_iff, forall₂_same]
      exact fun o hmem => ih o hmem (hops o hmem)
    by_cases hundef : ∃ w, d = .undef (.int w)
    · obtain ⟨w, rfl⟩ := hundef
      exact rfl
    · refine Semantics.apply_hasType σ ?_ ha hvals
      unfold OperationData.evaluatedIn at hd
      split at hd
      · exact absurd ⟨_, rfl⟩ hundef
      · exact hd

theorem WellTyped.eval_hasType (ho : o.InterpretedIn σ) : (o.eval σ).HasType o.type :=
  (ho.mono fun _ => OperationData.evaluatedIn_of_interpretedIn).evaluated_hasType

theorem WellTyped.hasType (h : o.Interpreted) (σ : Assignment) : (o.eval σ).HasType o.type :=
  (h.mono fun _ => OperationData.interpretedIn_of_interpreted σ).eval_hasType

theorem WellTyped.eval_int (h : o.Interpreted) (ho : o.type = .int w)
    (σ : Assignment) : ∃ x : BitVec w, o.eval σ = .int ⟨w, x⟩ :=
  Val.hasType_int.mp (ho ▸ h.hasType σ)

theorem WellTyped.type_int_or_array (h : o.Interpreted) :
    (∃ w, o.type = .int w) ∨ ∃ w, o.type = .array w := by
  have hval := h.hasType default
  rw [Val.HasType] at hval
  cases hv : o.eval default with
  | int v =>
    rw [hv] at hval
    exact .inl ⟨v.width, (Option.some.inj hval).symm⟩
  | array w f =>
    rw [hv] at hval
    exact .inr ⟨w, (Option.some.inj hval).symm⟩
  | poison =>
    rw [hv] at hval
    cases hval

theorem WellTyped.type_ne_float (h : o.Interpreted) (e m : Nat) :
    o.type ≠ .float e m := fun htype =>
  Val.not_hasType_float (htype ▸ h.hasType default)

theorem WellTyped.shape {ops : List Operation} (h : (mk d ops).Interpreted) :
    d.Shape type ops ∧ d.IsBitvector := by
  obtain ⟨hd, ha, hops⟩ := wellTyped_mk.mp h
  have hshape := OperationData.shape_of_accepts ha
  refine ⟨hshape, ?_⟩
  cases hshape with
  | floatLiteral | functionObject | node | undef => cases hd
  | floatBinary hl => exact (hops _ mem_cons_self).type_ne_float _ _ hl
  | fcmp cmp hl => exact (hops _ mem_cons_self).type_ne_float _ _ hl
  | _ => trivial

end Operation

end Caffeine
