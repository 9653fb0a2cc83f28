import Caffeine.IR.StrictCasts
import Caffeine.Model.AssertionList
import Mathlib.Data.Finset.Card
import Mathlib.Data.Multiset.DershowitzManna

/-!
# Simplification of queries

`transforms::simplify` looks for assertions that equate a symbol with a literal and replaces the
symbol in all others. Changed assertions are erased during the iteration and inserted again at the
end of a round; equalities among them start the replacement again.
-/

namespace Caffeine

open Operation Assertion List Option
open OperationSimplifier (allNodes_mk)

variable {o : Operation} {a : Assertion} {i : Nat}

namespace Transforms

variable (create : Constructor) (visitor : Operation → Operation)

mutual

def rebuild : Operation → Option Operation
  | .mk d ops => do
    let operands ← rebuildOperands ops
    if operands = ops then some (visitor (.mk d ops)) else some (visitor (← create d operands))

def rebuildOperands : List Operation → Option (List Operation)
  | [] => some []
  | op :: ops => do
    let op ← rebuild op
    some (op :: (← rebuildOperands ops))

end

def constant? (op : Operation) : Option Symbol :=
  match op.data with
  | .constant (.array _) _ => none
  | .constant _ s => some s
  | _ => none

def substitute (s : Symbol) (value op : Operation) : Operation :=
  if constant? op = some s then value else op

def isEqualityExpr (a : Assertion) : Option (Symbol × Operation) :=
  match a.value with
  | .mk (.icmp .eq) [lhs, rhs] =>
    match constant? lhs, OperationSimplifier.constantInt? rhs with
    | some s, some _ => some (s, rhs)
    | _, _ =>
      match OperationSimplifier.constantInt? lhs, constant? rhs with
      | some _, some s => some (s, lhs)
      | _, _ => none
  | _ => none

abbrev State := AssertionList × List Assertion

def replaceAt (exception : Nat) (s : Symbol) (value : Operation) (state : State) (i : Nat) :
    Option State :=
  if i = exception then some state
  else
    match state.1.list.get? i with
    | none => some state
    | some a => do
      let changed ← rebuild create (substitute s value) a.value
      if changed = a.value then some state
      else some (← state.1.erase i, state.2 ++ [← ofValue changed])

def replaceAll (exception : Nat) (s : Symbol) (value : Operation) (state : State) : Option State :=
  (List.range state.1.list.backingSize).foldlM (replaceAt create exception s value) state

def simplifyAt (state : State) (i : Nat) : Option State :=
  match state.1.list.get? i >>= isEqualityExpr with
  | none => some state
  | some (s, value) => replaceAll create i s value state

def simplifyFrom (index : Nat) (assertions : AssertionList) : Option State :=
  (List.range' index (assertions.list.backingSize - index)).foldlM (simplifyAt create)
    (assertions, [])

variable (cache : OperationCache)

/-- The rounds of `simplify`, at most as many as the first argument says. -/
def simplifyRounds : Nat → State → Option AssertionList
  | 0, _ => none
  | n + 1, (assertions, added) => do
    let index := assertions.list.backingSize
    let assertions ← assertions.insertAll cache added
    let (assertions, added) ← simplifyFrom create index assertions
    if added = [] then some assertions else simplifyRounds n (assertions, added)

def simplify (n : Nat) (assertions : AssertionList) : Option AssertionList := do
  simplifyRounds create cache n (← simplifyFrom create assertions.mark assertions)

/-! ### Rebuilding -/

/-- The payloads over integer symbols, each used at one width. -/
def usedAt (width : Symbol → Nat) (d : OperationData) : Bool :=
  d.interpreted &&
    match d with
    | .constant t s => t = .int (width s)
    | _ => true

theorem restrictsSymbols_usedAt (width : Symbol → Nat) :
    AssertionList.RestrictsSymbols (usedAt width) where
  interpreted d h := (Bool.and_eq_true _ _ ▸ h).1
  of_symbols d h hs := by
    cases d with
    | constant t s => cases hs
    | _ => simpa [usedAt] using h

/-- The expressions over integer symbols, each used at one width, whose nodes meet a condition. -/
structure Admitted (width : Symbol → Nat) (Q : NodeCondition)
    (o : Operation) : Prop where
  typed : o.WellTyped (usedAt width)
  nodes : AllNodes Q o

/-- The constructors of such expressions keep types and values and introduce no symbols. -/
def ValuePreserving (width : Symbol → Nat) (Q : NodeCondition)
    (create : Constructor) : Prop :=
  ∀ d ops, ops ≠ [] → Admitted width Q (.mk d ops) → ∃ o, create d ops = some o ∧
    Admitted width Q o ∧ o.type = d.type ∧ (∀ σ, o.eval σ = (Operation.mk d ops).eval σ) ∧
    o.symbols ⊆ (Operation.mk d ops).symbols

/-- Conditions that a replacement keeps, which leaves the types of operands and the operands without
symbols. -/
structure Stable (Q : NodeCondition) : Prop
    extends AssertionList.NegationClosed Q where
  replaced : ∀ d ops ops', Q d ops → Forall₂ (fun o o' : Operation =>
    o'.type = o.type ∧ (o.symbols = [] → o' = o)) ops ops' → Q d ops'

variable {create cache} {width : Symbol → Nat} {Q : NodeCondition}
  {s : Symbol} {x : BitVec (width s)}

/-- What the replacement of a symbol by a literal makes of an expression. -/
structure Replaced (width : Symbol → Nat) (Q : NodeCondition) (s : Symbol)
    (x : BitVec (width s)) (o o' : Operation) : Prop where
  admitted : Admitted width Q o'
  type : o'.type = o.type
  value : ∀ σ, σ.int s (width s) = x → o'.eval σ = o.eval σ
  symbols : ∀ t ∈ o'.symbols, t ∈ o.symbols ∧ t ≠ s
  unchanged : s ∉ o.symbols → o' = o

theorem constant?_eq_some (ho : o.WellTyped (usedAt width)) {t : Symbol}
    (h : constant? o = some t) : o = .constant (.int (width t)) t := by
  obtain ⟨d, ops⟩ := o
  obtain ⟨hd, hacc, -⟩ := wellTyped_mk.mp ho
  cases d with
  | constant ty u =>
    simp only [usedAt, Bool.and_eq_true, decide_eq_true_eq] at hd
    obtain ⟨-, rfl⟩ := hd
    obtain rfl : u = t := some.inj h
    cases ops with
    | nil => rfl
    | cons _ _ => cases hacc
  | _ => cases h

theorem replaced_substitute (hQ : Stable Q) {o' : Operation} (ho' : Admitted width Q o')
    (htype : o'.type = o.type) (hval : ∀ σ, σ.int s (width s) = x → o'.eval σ = o.eval σ)
    (hsyms : ∀ t ∈ o'.symbols, t ∈ o.symbols ∧ (t = s → constant? o' = some s))
    (hunc : s ∉ o.symbols → o' = o) :
    Replaced width Q s x o (substitute s (constantInt ⟨width s, x⟩) o') := by
  unfold substitute
  split_ifs with h
  · obtain rfl := constant?_eq_some ho'.typed h
    refine ⟨⟨rfl, allNodes_mk.mpr ⟨hQ.literal _, by simp⟩⟩, htype, fun σ hσ => ?_,
      by simp [constantInt, symbols_mk, OperationData.symbols], ?_⟩
    · rw [← hval σ hσ, constantInt, Operation.constant, eval_mk, eval_mk]
      simp only [Semantics.apply, hσ]
    · intro hs
      exact absurd (hsyms s (by simp [Operation.constant, symbols_mk, OperationData.symbols])).1 hs
  · exact ⟨ho', htype, hval, fun t ht => ⟨(hsyms t ht).1, fun hts => h ((hsyms t ht).2 hts)⟩, hunc⟩

theorem rebuildOperands_forall₂ {visitor : Operation → Operation} {R : Operation → Operation → Prop}
    {ops : List Operation} (h : ∀ o ∈ ops, ∃ o', rebuild create visitor o = some o' ∧ R o o') :
    ∃ ops', rebuildOperands create visitor ops = some ops' ∧ Forall₂ R ops ops' := by
  induction ops with
  | nil => exact ⟨[], by rw [rebuildOperands], .nil⟩
  | cons o ops ih =>
    obtain ⟨ho, hops⟩ := forall_mem_cons.mp h
    obtain ⟨o', hrun, hrep⟩ := ho
    obtain ⟨ops', hrest, hreps⟩ := ih hops
    refine ⟨o' :: ops', ?_, .cons hrep hreps⟩
    rw [rebuildOperands, hrun, hrest]
    rfl

theorem symbols_of_usedAt {d : OperationData} {ops : List Operation}
    (h : (Operation.mk d ops).WellTyped (usedAt width)) (hs : s ∈ d.symbols) :
    constant? (.mk d ops) = some s ∧ ops = [] := by
  obtain ⟨hd, hacc, -⟩ := wellTyped_mk.mp h
  cases d with
  | constant t u =>
    simp only [usedAt, Bool.and_eq_true, decide_eq_true_eq] at hd
    obtain ⟨-, rfl⟩ := hd
    obtain rfl : s = u := mem_singleton.mp hs
    cases ops with
    | nil => exact ⟨rfl, rfl⟩
    | cons _ _ => cases hacc
  | _ => cases hs

theorem rebuild_replaced (hQ : Stable Q) (hcr : ValuePreserving width Q create)
    (ho : Admitted width Q o) :
    ∃ o', rebuild create (substitute s (constantInt ⟨width s, x⟩)) o = some o' ∧
      Replaced width Q s x o o' := by
  induction o using induct with
  | mk d ops ih =>
    obtain ⟨hd, hacc, hops⟩ := wellTyped_mk.mp ho.typed
    obtain ⟨hhere, hbelow⟩ := allNodes_mk.mp ho.nodes
    obtain ⟨ops', hrun, hreps⟩ := rebuildOperands_forall₂ fun o hmem =>
      ih o hmem ⟨hops o hmem, hbelow o hmem⟩
    rw [rebuild, hrun, some_bind]
    have hnot : ∀ t, (∃ o' ∈ ops', t ∈ o'.symbols) → (∃ o ∈ ops, t ∈ o.symbols) ∧ t ≠ s := by
      rintro t ⟨o', ho', ht⟩
      obtain ⟨o, hmem, hrep⟩ := forall₂_exists_left hreps ho'
      exact ⟨⟨o, hmem, (hrep.symbols t ht).1⟩, (hrep.symbols t ht).2⟩
    by_cases hsame : ops' = ops
    · rw [if_pos hsame]
      refine ⟨_, rfl, replaced_substitute hQ ho rfl (fun _ _ => rfl) (fun t ht => ⟨ht, ?_⟩)
        fun _ => rfl⟩
      rintro rfl
      rcases mem_symbols_mk.mp ht with ht | ht
      · exact (symbols_of_usedAt ho.typed ht).1
      · exact absurd rfl (hnot t (hsame ▸ ht)).2
    · have htys : ops'.map Operation.type = ops.map Operation.type :=
        forall₂_map_eq hreps fun _ _ _ hrep => hrep.type
      have hty : (Operation.mk d ops').WellTyped (usedAt width) :=
        wellTyped_mk.mpr ⟨hd, by rwa [htys], fun o' ho' => by
          obtain ⟨o, -, hrep⟩ := forall₂_exists_left hreps ho'
          exact hrep.admitted.typed⟩
      have hnodes : AllNodes Q (.mk d ops') := by
        refine allNodes_mk.mpr ⟨hQ.replaced d ops ops' hhere (hreps.imp fun o o' hrep =>
          ⟨hrep.type, fun hnil => hrep.unchanged (by simp [hnil])⟩), fun o' ho' => ?_⟩
        obtain ⟨o, -, hrep⟩ := forall₂_exists_left hreps ho'
        exact hrep.admitted.nodes
      have hne : ops' ≠ [] := by
        rintro rfl
        cases hreps
        exact hsame rfl
      obtain ⟨r, hr, hradm, hrtype, hrvalue, hrsymbols⟩ := hcr d ops' hne ⟨hty, hnodes⟩
      rw [if_neg hsame, hr, some_bind]
      refine ⟨_, rfl, replaced_substitute hQ hradm hrtype (fun σ hσ => ?_) (fun t ht => ?_)
        fun hs => ?_⟩
      · have hvals : ops'.map (eval σ) = ops.map (eval σ) :=
          forall₂_map_eq hreps fun _ _ _ hrep => hrep.value σ hσ
        rw [hrvalue, eval_mk, eval_mk, hvals]
      · rcases mem_symbols_mk.mp (hrsymbols ht) with ht | ht
        · exact absurd (symbols_of_usedAt hty ht).2 hne
        · obtain ⟨hmem, hne⟩ := hnot t ht
          exact ⟨mem_symbols_mk.mpr (.inr hmem), fun h => absurd h hne⟩
      · have hids : ops'.map id = ops.map id := forall₂_map_eq hreps fun o hmem _ hrep =>
          hrep.unchanged fun ho => hs (mem_symbols_mk.mpr (.inr ⟨o, hmem, ho⟩))
        rw [List.map_id, List.map_id] at hids
        exact absurd hids hsame

/-! ### Equalities -/

theorem constantInt?_eq_some (ho : o.WellTyped (usedAt width)) {v : APInt}
    (h : OperationSimplifier.constantInt? o = some v) : o = constantInt v := by
  obtain ⟨d, ops⟩ := o
  obtain ⟨-, hacc, -⟩ := wellTyped_mk.mp ho
  cases d with
  | constantInt u =>
    obtain rfl : u = v := some.inj h
    cases ops with
    | nil => rfl
    | cons _ _ => cases hacc
  | _ => cases h

theorem compare_eq_one {w : Nat} {x y : BitVec w}
    (h : Semantics.icmp .eq ⟨w, x⟩ ⟨w, y⟩ = .int ⟨1, 1⟩) : x = y := by
  simp only [Semantics.icmp, Semantics.compare, APInt.resize_width, APInt.ofBool, Val.int.injEq,
    APInt.mk.injEq, heq_eq_eq, true_and] at h
  by_contra hne
  rw [beq_eq_false_iff_ne.mpr hne] at h
  cases h

theorem isEqualityExpr_spec (ha : a.value.WellTyped (usedAt width)) {value : Operation}
    (h : isEqualityExpr a = some (s, value)) :
    ∃ x : BitVec (width s), value = constantInt ⟨width s, x⟩ ∧
      ∀ σ, a.Holds σ → σ.int s (width s) = x := by
  obtain ⟨value', htype⟩ := a
  unfold isEqualityExpr at h
  split at h
  · rename_i lhs rhs hval
    obtain rfl : value' = _ := hval
    obtain ⟨-, hacc, hops⟩ := wellTyped_mk.mp ha
    have hl := hops lhs (by simp)
    have hr := hops rhs (by simp)
    split at h
    · rename_i t v ht hv
      obtain ⟨rfl, rfl⟩ := Prod.mk.inj (some.inj h)
      obtain rfl := constant?_eq_some hl ht
      obtain ⟨w, y⟩ := v
      obtain rfl := constantInt?_eq_some hr hv
      obtain rfl : w = width t := Ty.int.inj (of_decide_eq_true hacc)
      exact ⟨y, rfl, fun σ hσ => compare_eq_one hσ⟩
    · split at h
      · rename_i v t hv ht
        obtain ⟨rfl, rfl⟩ := Prod.mk.inj (some.inj h)
        obtain rfl := constant?_eq_some hr ht
        obtain ⟨w, y⟩ := v
        obtain rfl := constantInt?_eq_some hl hv
        obtain rfl : width t = w := Ty.int.inj (of_decide_eq_true hacc)
        exact ⟨y, rfl, fun σ hσ => (compare_eq_one hσ).symm⟩
      · cases h
  · cases h

/-! ### A round -/

def symbolCount (a : Assertion) : Nat := a.value.symbols.toFinset.card

/-- Each assertion to be added in a round that began with `start` stands for an erased one with more
symbols. -/
def Shrinks (start : AssertionList) (state : State) : Prop :=
  ∃ erased, start.live.Perm (state.1.live ++ erased) ∧
    Forall₂ (fun b a => symbolCount b < symbolCount a) state.2 erased

variable {l : AssertionList}

theorem live_perm_of_erase {l' : AssertionList} (hget : l.list.get? i = some a)
    (hl : l'.list = l.list.erase i) : l.live.Perm (a :: l'.live) := by
  rw [AssertionList.live, AssertionList.live, hl]
  exact SparseVector.live_perm_erase hget

theorem Shrinks.replace {start : AssertionList} {state : State} (h : Shrinks start state)
    {b : Assertion} (hget : state.1.list.get? i = some a) (hl : l.list = state.1.list.erase i)
    (hlt : symbolCount b < symbolCount a) : Shrinks start (l, state.2 ++ [b]) := by
  obtain ⟨erased, hstart, hcnt⟩ := h
  refine ⟨erased ++ [a], ?_, rel_append hcnt (.cons hlt .nil)⟩
  refine hstart.trans (((live_perm_of_erase hget hl).append_right erased).trans ?_)
  rw [← List.append_assoc]
  exact (perm_append_singleton a (l.live ++ erased)).symm

theorem symbolCount_lt (hsyms : ∀ t ∈ o.symbols, t ∈ a.value.symbols ∧ t ≠ s)
    (hunc : s ∉ a.value.symbols → o = a.value) (hne : o ≠ a.value) (ht : o.type = .bool) :
    symbolCount ⟨o, ht⟩ < symbolCount a := by
  have hs : s ∈ a.value.symbols := by
    by_contra hs
    exact hne (hunc hs)
  refine Finset.card_lt_card ⟨fun t ht => ?_, fun hsub => ?_⟩
  · rw [List.mem_toFinset] at ht ⊢
    exact (hsyms t ht).1
  · have hmem := hsub (List.mem_toFinset.mpr hs)
    exact (hsyms s (List.mem_toFinset.mp hmem)).2 rfl

/-- The state within a round that began with `start`. -/
structure Round (width : Symbol → Nat) (Q : NodeCondition)
    (start : AssertionList) (state : State) : Prop where
  admitted : ∀ a ∈ state.1.live ++ state.2, Admitted width Q a.value
  shrinks : Shrinks start state
  models : ∀ σ, Models σ (state.1.live ++ state.2) ↔ Models σ start.live

variable {start : AssertionList} {state : State}

theorem Round.refl (h : ∀ a ∈ start.live, Admitted width Q a.value) :
    Round width Q start (start, []) where
  admitted := by simpa using h
  shrinks := ⟨[], by simp, .nil⟩
  models σ := by simp

theorem Round.replace (h : Round width Q start state) {exception : Nat} {eq : Assertion}
    (hget : state.1.list.get? i = some a) (hi : i ≠ exception)
    (heq : state.1.list.get? exception = some eq) (hval : ∀ σ, eq.Holds σ → σ.int s (width s) = x)
    (hrep : Replaced width Q s x a.value o) (hne : o ≠ a.value) (ht : o.type = .bool)
    (hl : l.list = state.1.list.erase i) : Round width Q start (l, state.2 ++ [⟨o, ht⟩]) := by
  have hperm : state.1.live.Perm (a :: l.live) := live_perm_of_erase hget hl
  have hlive : l.list.get? exception = some eq := by
    rw [hl, SparseVector.get?_erase_of_ne hi.symm, heq]
  have hsub : ∀ b ∈ l.live, b ∈ state.1.live := fun b hb =>
    hperm.mem_iff.mpr (mem_cons_of_mem a hb)
  refine ⟨?_, h.shrinks.replace hget hl (symbolCount_lt hrep.symbols hrep.unchanged hne ht),
    fun σ => ?_⟩
  · simp only [mem_append, mem_singleton]
    rintro b (hb | hb | rfl)
    · exact h.admitted b (mem_append_left _ (hsub b hb))
    · exact h.admitted b (mem_append_right _ hb)
    · exact hrep.admitted
  · rw [← h.models σ]
    simp only [models_append, models_singleton]
    rw [models_perm hperm, models_cons]
    have hsame : Models σ l.live → ((⟨o, ht⟩ : Assertion).Holds σ ↔ a.Holds σ) := fun hm => by
      have hσ := hval σ (hm eq (SparseVector.mem_live.mpr ⟨exception, hlive⟩))
      rw [Holds, Holds, hrep.value σ hσ]
    tauto

section Traversal

variable (hQ : Stable Q) (hcr : ValuePreserving width Q create)

include hQ hcr

theorem Round.replaceAt (h : Round width Q start state) {exception : Nat} {eq : Assertion}
    {value : Operation} (hexpr : isEqualityExpr eq = some (s, value)) (i : Nat)
    (heq : state.1.list.get? exception = some eq) :
    ∃ state', replaceAt create exception s value state i = some state' ∧
      Round width Q start state' ∧ state'.1.list.get? exception = some eq := by
  unfold Transforms.replaceAt
  by_cases hi : i = exception
  · exact ⟨state, if_pos hi, h, heq⟩
  rw [if_neg hi]
  cases hget : state.1.list.get? i with
  | none => exact ⟨state, rfl, h, heq⟩
  | some a =>
    have hadm : ∀ {j b}, state.1.list.get? j = some b → Admitted width Q b.value :=
      fun hj => h.admitted _ (mem_append_left _ (SparseVector.mem_live.mpr ⟨_, hj⟩))
    obtain ⟨x, rfl, hval⟩ := isEqualityExpr_spec (hadm heq).typed hexpr
    obtain ⟨o, hrun, hrep⟩ := rebuild_replaced (s := s) (x := x) hQ hcr (hadm hget)
    simp only [hrun, some_bind]
    by_cases hsame : o = a.value
    · exact ⟨state, if_pos hsame, h, heq⟩
    · have ht : o.type = .bool := hrep.type.trans a.type_eq
      obtain ⟨l, herase, hl⟩ := AssertionList.erase_eq hget
      have hof : ofValue o = some ⟨o, ht⟩ := ofValue_eq_some.mpr rfl
      refine ⟨(l, state.2 ++ [⟨o, ht⟩]), ?_, h.replace hget hi heq hval hrep hsame ht hl, ?_⟩
      · rw [if_neg hsame, herase, hof]
        rfl
      · rw [hl, SparseVector.get?_erase_of_ne (Ne.symm hi), heq]

theorem Round.simplifyAt (h : Round width Q start state) (i : Nat) :
    ∃ state', simplifyAt create state i = some state' ∧ Round width Q start state' := by
  unfold Transforms.simplifyAt
  cases hexpr : state.1.list.get? i >>= isEqualityExpr with
  | none => exact ⟨state, rfl, h⟩
  | some p =>
    obtain ⟨s, value⟩ := p
    obtain ⟨eq, heq, hexpr⟩ := bind_eq_some_iff.mp hexpr
    obtain ⟨state', hrun, hstate', -⟩ := foldlM_exists
      (fun state => Round width Q start state ∧ state.1.list.get? i = some eq)
      (fun state j _ ⟨hstate, hget⟩ => hstate.replaceAt hQ hcr hexpr j hget) ⟨h, heq⟩
    exact ⟨state', hrun, hstate'⟩

theorem simplifyFrom_round (index : Nat) (hl : ∀ a ∈ l.live, Admitted width Q a.value) :
    ∃ state, simplifyFrom create index l = some state ∧ Round width Q l state :=
  foldlM_exists (Round width Q l) (fun _ i _ h => h.simplifyAt hQ hcr i) (.refl hl)

end Traversal

/-! ### The rounds -/

def symbolCounts (l : AssertionList) : Multiset Nat := l.live.map symbolCount

variable {allowed : OperationData → Bool}

theorem PartOf.symbolCount_le {b : Assertion} (h : AssertionList.PartOf allowed b.value a.value) :
    symbolCount b ≤ symbolCount a :=
  Finset.card_le_card fun _ ht => List.mem_toFinset.mpr (h.symbols (List.mem_toFinset.mp ht))

theorem symbolCounts_lt (h : Shrinks start state) {added : List Assertion}
    (hins : AssertionList.Inserted allowed state.1 l state.2 added) (hne : state.2 ≠ []) :
    (symbolCounts l).IsDershowitzMannaLT (symbolCounts start) := by
  obtain ⟨erased, hperm, hcnt⟩ := h
  refine ⟨(state.1.live.map symbolCount : List Nat), (added.map symbolCount : List Nat),
    (erased.map symbolCount : List Nat), ?_, ?_, ?_, ?_⟩
  · intro hnil
    have hnil : erased = [] := by simpa using hnil
    subst hnil
    cases hstate : state.2 with
    | nil => exact hne hstate
    | cons _ _ =>
      rw [hstate] at hcnt
      cases hcnt
  · rw [symbolCounts, hins.live, map_append, Multiset.coe_add]
  · rw [symbolCounts, Multiset.coe_add, ← map_append]
    exact Multiset.coe_eq_coe.mpr (hperm.map _)
  · intro n hn
    obtain ⟨b, hb, rfl⟩ := List.mem_map.mp (Multiset.mem_coe.mp hn)
    obtain ⟨c, hc, hpart⟩ := hins.part b hb
    obtain ⟨a, ha, hlt⟩ := forall₂_exists_left hcnt.flip hc
    exact ⟨symbolCount a, List.mem_map_of_mem ha, (PartOf.symbolCount_le hpart).trans_lt hlt⟩

theorem insertAll_admitted (cache : OperationCache) (hQ : Stable Q)
    (h : ∀ a ∈ state.1.live ++ state.2, Admitted width Q a.value) :
    ∃ l added, state.1.insertAll cache state.2 = some l ∧
      AssertionList.Inserted (usedAt width) state.1 l state.2 added ∧
      ∀ a ∈ l.live, Admitted width Q a.value := by
  obtain ⟨l, added, hrun, hins⟩ := AssertionList.insertAll_inserted cache
    (restrictsSymbols_usedAt width) state.2
    (fun a ha => ⟨(h a (mem_append_right _ ha)).typed, a.type_eq⟩) state.1
  refine ⟨l, added, hrun, hins, fun a ha => ?_⟩
  rw [hins.live] at ha
  rcases mem_append.mp ha with ha | ha
  · exact h a (mem_append_left _ ha)
  · obtain ⟨b, hb, hpart⟩ := hins.part a ha
    exact ⟨hpart.bool.typed, hpart.nodes Q hQ.toNegationClosed (h b (mem_append_right _ hb)).nodes⟩

theorem simplifyRounds_keeps (hQ : Stable Q) (hcr : ValuePreserving width Q create)
    (counts : Multiset Nat) (state : State) (l : AssertionList)
    (hrun : state.1.insertAll cache state.2 = some l)
    (hl : ∀ a ∈ l.live, Admitted width Q a.value) (hcnts : symbolCounts l = counts) :
    ∃ n l', (∀ m ≥ n, simplifyRounds create cache m state = some l') ∧
      (∀ a ∈ l'.live, Admitted width Q a.value) ∧ ∀ σ, Models σ l'.live ↔ Models σ l.live := by
  have hwf : WellFounded (Multiset.IsDershowitzMannaLT : Multiset Nat → Multiset Nat → Prop) :=
    Multiset.wellFounded_isDershowitzMannaLT
  induction counts using hwf.induction generalizing state l with
  | _ counts ih =>
    obtain ⟨next, hnext, hround⟩ := simplifyFrom_round hQ hcr state.1.list.backingSize hl
    have hstep : ∀ m, simplifyRounds create cache (m + 1) state =
        if next.2 = [] then some next.1 else simplifyRounds create cache m next := fun m => by
      simp only [simplifyRounds, hrun, hnext, some_bind]
    by_cases hnil : next.2 = []
    · have hlive : next.1.live ++ next.2 = next.1.live := by rw [hnil, append_nil]
      refine ⟨1, next.1, fun m hm => ?_, hlive ▸ hround.admitted, fun σ => hlive ▸ hround.models σ⟩
      obtain ⟨m, rfl⟩ := Nat.exists_eq_add_of_le' hm
      rw [hstep, if_pos hnil]
    · obtain ⟨l₂, added₂, hrun₂, hins₂, hl₂⟩ := insertAll_admitted cache hQ hround.admitted
      obtain ⟨n, l', hrets, hl', hmod⟩ := ih (symbolCounts l₂)
        (hcnts ▸ symbolCounts_lt hround.shrinks hins₂ hnil) next l₂ hrun₂ hl₂ rfl
      refine ⟨n + 1, l', fun m hm => ?_, hl', fun σ => ?_⟩
      · obtain ⟨m, rfl⟩ := Nat.exists_eq_add_of_le' (Nat.one_le_of_lt hm)
        rw [hstep, if_neg hnil]
        exact hrets m (Nat.le_of_succ_le_succ hm)
      · rw [hmod, hins₂.models, ← models_append, hround.models]

theorem simplify_keeps (cache : OperationCache) (hQ : Stable Q)
    (hcr : ValuePreserving width Q create) (hl : ∀ a ∈ l.live, Admitted width Q a.value) :
    ∃ n l', (∀ m ≥ n, simplify create cache m l = some l') ∧
      (∀ a ∈ l'.live, Admitted width Q a.value) ∧ ∀ σ, Models σ l'.live ↔ Models σ l.live := by
  obtain ⟨state, hrun, hround⟩ := simplifyFrom_round hQ hcr l.mark hl
  obtain ⟨next, added, hadd, hins, hnext⟩ := insertAll_admitted cache hQ hround.admitted
  obtain ⟨n, l', hrets, hl', hmod⟩ := simplifyRounds_keeps hQ hcr _ state next hadd hnext rfl
  refine ⟨n, l', fun m hm => ?_, hl', fun σ => ?_⟩
  · rw [simplify, hrun]
    exact hrets m hm
  · rw [hmod, hins.models, ← models_append, hround.models]

/-- Simplification terminates and preserves the models of a list. -/
theorem simplify_preserves_models (width : Symbol → Nat)
    (Q : NodeCondition) (create : Constructor) (cache : OperationCache)
    (assertions : AssertionList) (hQ : Stable Q) (hcreate : ValuePreserving width Q create)
    (htyped : ∀ a ∈ assertions.live, Admitted width Q a.value) :
    ∃ n l, (∀ m ≥ n, simplify create cache m assertions = some l) ∧
      ∀ σ, Models σ l.live ↔ Models σ assertions.live := by
  obtain ⟨n, l, hrets, -, hmod⟩ := simplify_keeps cache hQ hcreate htyped
  exact ⟨n, l, hrets, hmod⟩

/-! ### The folding constructors -/

/-- What the folding constructors are right about: integer operations, with casts that change the
width and divisions by literals other than zero and minus one. -/
def Foldable (d : OperationData) (ops : List Operation) : Prop :=
  (ops = [] ∨ d.isIntegerOp = true) ∧ d.changesWidth (ops.map type) = true ∧
    ∀ op t l r, d = .binary op t → op ∈ [.udiv, .urem, .sdiv, .srem] → ops = [l, r] →
      ∃ v, r = constantInt v ∧ v.isNullValue = false ∧ v.isAllOnesValue = false

theorem stable_foldable : Stable Foldable where
  literal v := ⟨.inl rfl, rfl, fun _ _ _ _ h => nomatch h⟩
  negated t o := ⟨.inr rfl, rfl, fun _ _ _ _ h => nomatch h⟩
  replaced d ops ops' h hreps := by
    obtain ⟨hint, hwidth, hdiv⟩ := h
    have htypes : ops'.map type = ops.map type := forall₂_map_eq hreps fun _ _ _ hrep => hrep.1
    refine ⟨hint.imp_left fun hnil => ?_, by rwa [htypes], fun op t l r hd hop hops => ?_⟩
    · subst hnil
      cases hreps
      rfl
    · subst hops
      obtain _ | ⟨-, _ | ⟨hrep, _ | _⟩⟩ := hreps
      obtain ⟨v, rfl, hv⟩ := hdiv op t _ _ hd hop rfl
      exact ⟨v, hrep.2 rfl, hv⟩

theorem foldClosed_foldable : OperationSimplifier.FoldClosed Foldable where
  literal := stable_foldable.literal
  undef _ _ _ _ := ⟨.inl rfl, rfl, fun _ _ _ _ h => nomatch h⟩
  bitwise op hop t l r := by
    simp only [OperationSimplifier.bitwise, mem_cons, not_mem_nil, or_false] at hop
    refine ⟨.inr ?_, rfl, fun op' t' l' r' h hdiv => ?_⟩
    · rcases hop with rfl | rfl | rfl | rfl <;> rfl
    · cases h
      rcases hop with rfl | rfl | rfl | rfl <;> simp at hdiv

variable {d : OperationData} {ops : List Operation}

theorem Foldable.divisionDefined (h : Foldable d ops) (σ : Assignment) :
    Semantics.DivisionDefined d (ops.map (eval σ)) := by
  have hdivisor : ∀ {op t a b}, d = .binary op t → op ∈ [.udiv, .urem, .sdiv, .srem] →
      ops.map (eval σ) = [a, .int b] → b.isNullValue = false ∧ b.isAllOnesValue = false := by
    intro op t a b hd hop hvals
    obtain ⟨l, r, rfl⟩ := length_eq_two.mp (by simpa using congrArg List.length hvals)
    obtain ⟨v, rfl, hv⟩ := h.2.2 op t l r hd hop rfl
    simp only [map_cons, map_nil, List.cons.injEq, and_true] at hvals
    obtain rfl : v = b := Val.int.inj hvals.2
    exact hv
  unfold Semantics.DivisionDefined
  split
  · rename_i hvals
    exact (hdivisor rfl (by simp) hvals).1
  · rename_i hvals
    exact (hdivisor rfl (by simp) hvals).1
  · rename_i hvals
    obtain ⟨hzero, hones⟩ := hdivisor rfl (by simp) hvals
    simp [hzero, hones]
  · rename_i hvals
    obtain ⟨hzero, hones⟩ := hdivisor rfl (by simp) hvals
    simp [hzero, hones]
  · trivial

theorem Foldable.not_castsLiteral (h : Foldable d ops) :
    ¬ OperationSimplifier.CastsLiteral d ops := by
  unfold OperationSimplifier.CastsLiteral
  split
  · rename_i op t a
    rintro ⟨hop, v, hv, hw⟩
    obtain ⟨os, rfl⟩ := OperationSimplifier.constantInt?_eq_some hv
    have hwidth := h.2.1
    simp only [mem_cons, not_mem_nil, or_false] at hop
    rcases hop with rfl | rfl | rfl
    · exact (of_decide_eq_true hwidth : t.bitwidth < v.width).ne' hw
    · exact (of_decide_eq_true hwidth : v.width < t.bitwidth).ne hw
    · exact (of_decide_eq_true hwidth : v.width < t.bitwidth).ne hw
  · exact id

theorem wellTyped_iff_nodes {allowed allowed' : OperationData → Bool} (ho : o.WellTyped allowed) :
    o.WellTyped allowed' ↔ AllNodes (fun d _ => allowed' d = true) o := by
  induction o using induct with
  | mk d ops ih =>
    obtain ⟨-, hacc, hops⟩ := wellTyped_mk.mp ho
    rw [wellTyped_mk, allNodes_mk, and_iff_right hacc]
    exact and_congr_right fun _ => forall₂_congr fun o hmem => ih o hmem (hops o hmem)

/-- The constructors of the simplifier satisfy the assumption for such operations. -/
theorem create_valuePreserving (width : Symbol → Nat) (cache : OperationCache) :
    ValuePreserving width Foldable (Operation.create cache) := by
  intro d ops hne h
  obtain ⟨hhere, -⟩ := allNodes_mk.mp h.nodes
  have hty : ∀ σ, (Operation.mk d ops).InterpretedIn σ := fun σ =>
    h.typed.mono fun d hd => OperationData.interpretedIn_of_interpreted σ
      ((restrictsSymbols_usedAt width).interpreted d hd)
  have hpreserves : ∀ σ, ∃ o, OperationSimplifier.Preserves cache σ (.mk d ops) o := fun σ =>
    OperationSimplifier.exists_preserves (hhere.1.resolve_left hne) (hty σ)
      (hhere.divisionDefined σ) hhere.not_castsLiteral
  obtain ⟨o, ho⟩ := hpreserves default
  have hnodes : ∀ {Q}, OperationSimplifier.FoldClosed Q → AllNodes Q (.mk d ops) → AllNodes Q o :=
    fun hQ h => OperationSimplifier.visit_nodes hQ (allNodes_mk.mp h).1 (allNodes_mk.mp h).2
      ho.visit
  refine ⟨o, ho.create (hty default), ⟨?_, hnodes foldClosed_foldable h.nodes⟩, ho.type,
    fun σ => ?_, AssertionList.symbols_subset_iff.mpr (hnodes ?_ ?_)⟩
  · refine (wellTyped_iff_nodes ho.typed).mpr (hnodes ⟨fun _ => rfl, ?_, fun _ _ _ _ _ => rfl⟩
      ((wellTyped_iff_nodes h.typed).mp h.typed))
    exact fun t ops t' h => nomatch h
  · obtain ⟨o', ho'⟩ := hpreserves σ
    obtain rfl : o' = o := some.inj (ho'.visit.symm.trans ho.visit)
    exact ho'.value
  · exact ⟨fun _ => nil_subset _, fun _ _ _ _ => nil_subset _, fun _ _ _ _ _ => nil_subset _⟩
  · exact AssertionList.symbols_subset_iff.mp (Subset.refl _)

end Transforms

namespace Sample

def comparison (cmp : ICmpOpcode) (lhs rhs : Operation) : Assertion :=
  ⟨.mk (.icmp cmp) [lhs, rhs], rfl⟩

def equated : AssertionList :=
  (∅ : AssertionList).insertPart (comparison .eq (.constant (.int 8) (.numbered 0))
      (.constantInt (APInt.ofNat 8 3)))
    |>.insertPart (comparison .ult (.constant (.int 8) (.numbered 0))
      (.constant (.int 8) (.numbered 1)))

theorem equated_admitted :
    ∀ a ∈ equated.live, Transforms.Admitted (fun _ => 8) Transforms.Foldable a.value := by
  have hlit : ∀ v, AllNodes Transforms.Foldable (.constantInt v) := fun v =>
    allNodes_mk.mpr ⟨Transforms.stable_foldable.literal v, by simp⟩
  have hsym : ∀ s, AllNodes Transforms.Foldable (.constant (.int 8) s) := fun s =>
    allNodes_mk.mpr ⟨⟨.inl rfl, rfl, fun _ _ _ _ h => nomatch h⟩, by simp⟩
  have hcmp : ∀ {cmp l r}, AllNodes Transforms.Foldable l → AllNodes Transforms.Foldable r →
      AllNodes Transforms.Foldable (comparison cmp l r).value := fun hl hr =>
    allNodes_mk.mpr ⟨⟨.inr rfl, rfl, fun _ _ _ _ h => nomatch h⟩, by simpa using ⟨hl, hr⟩⟩
  refine forall_mem_cons.mpr ⟨⟨rfl, hcmp (hsym _) (hlit _)⟩, forall_mem_singleton.mpr ?_⟩
  exact ⟨rfl, hcmp (hsym _) (hsym _)⟩

end Sample

theorem Transforms.simplify_preserves_models_equated :
    ∃ n l, (∀ m ≥ n, simplify (Operation.create .full) .full m Sample.equated = some l) ∧
      ∀ σ, Models σ l.live ↔ Models σ Sample.equated.live :=
  simplify_preserves_models (fun _ => 8) Foldable (Operation.create .full) .full Sample.equated
    stable_foldable (create_valuePreserving _ _) Sample.equated_admitted

end Caffeine
