import Caffeine.Interpreter.Memset

/-!
# How often `llvm.memset` returns

At the head of the loop the frame returns if some model has a length that small, and goes on if some
model has a larger one. So it returns once for every length in a model, each time with the path
condition of the call.
-/

namespace Caffeine

open Operation Assertion OperationSimplifier List Option

variable {G : Type} [PathGraph G]

namespace Context

variable {shared : CaffeineContext} {ctx ctx' : Context G} {allowed : Assertion → Prop}

theorem solver_exact (hex : shared.solver.Exact) (h : PathGraph.Keeps allowed ctx.graph) :
    (ctx.solver shared).Exact where
  unsat := solver_unsatSound hex.unsat h
  sat := solver_satSound hex.sat h
  decides n as _ := hex.decides n as _

theorem After.check_ne_unsat (h : ctx.After allowed ctx') (hex : shared.solver.Exact) (m : Nat)
    (a : Assertion) :
    ctx'.check shared m a ≠ .UNSAT ↔ ∃ σ, Models σ ctx.assertions ∧ a.Holds σ :=
  (solver_exact hex h.keeps).check_ne_unsat.trans
    (exists_congr fun σ => and_congr_left' (h.models σ))

end Context

namespace Memset

/-- The queries of the frame keep the models; it adds no assertion. -/
abbrev Kept (ctx : Context G) : Prop := PathGraph.Keeps (fun _ => False) ctx.graph

def Longer (n : Nat) (pathCondition : List Assertion) (len : Operation) (k : Nat) : Prop :=
  ∃ σ, Models σ pathCondition ∧ ∃ l : BitVec n, Denotes σ len l ∧ k < l.toNat

def Over (n : Nat) (pathCondition : List Assertion) (len : Operation) (k : Nat) : Prop :=
  ∃ σ, Models σ pathCondition ∧ ∃ l : BitVec n, Denotes σ len l ∧ l.toNat ≤ k

variable {n : Nat} {shared : CaffeineContext} {val len offset : Operation} {queries k : Nat}
  {t : Task G} {o : Outcome G}

def IsCount (n : Nat) (offset : Operation) (k : Nat) : Prop :=
  ∀ σ, Denotes σ offset (BitVec.ofNat n k)

theorem isCount_zero (hlen : len.IsInt n) : IsCount n (len.literal 0) 0 := by
  intro σ
  obtain ⟨l, hl⟩ := hlen.denotes σ
  exact denotes_literal hl 0

theorem head_eq (hex : shared.solver.Exact) (hkeeps : Kept t.context) (hlen : len.IsInt n)
    (hoff : t.frame.offset = some offset) (hk : IsCount n offset k) (hlt : k < 2 ^ n)
    (hstk : t.context.stack ≠ []) : ∃ tasks returned,
      head shared queries t len = some ⟨tasks, returned, queries + 2⟩ ∧
      (Longer n t.context.assertions len k ∧
          tasks = [⟨{ t.frame with state := .body }, t.context.asked.asked⟩] ∨
        ¬ Longer n t.context.assertions len k ∧ tasks = []) ∧
      (Over n t.context.assertions len k ∧ returned = [t.context.asked.asked] ∨
        ¬ Over n t.context.assertions len k ∧ returned = []) := by
  have hcond : ∀ σ (l : BitVec n), Denotes σ len l →
      Asserts σ (createICmp shared.cache .ult offset len >>= ofValue) (k < l.toNat) := by
    intro σ l hl
    refine (asserts_of_returns (createICmp_returns (hk σ) hl)).congr ?_
    simp only [Semantics.compare, BitVec.ult_iff_lt, BitVec.lt_def, BitVec.toNat_ofNat,
      Nat.mod_eq_of_lt hlt]
  obtain ⟨l0, hl0⟩ := hlen.denotes default
  obtain ⟨cond, hcr, hdec⟩ := hcond default l0 hl0
  obtain ⟨negated, hnot, -⟩ : Asserts default (cond.not shared.cache) _ := hdec.not
  let first := t.context.asked
  have hfirst := (Context.After.refl hkeeps).asked
  have htrue : first.check shared queries cond ≠ .UNSAT ↔
      Longer n t.context.assertions len k := by
    rw [hfirst.check_ne_unsat hex]
    refine exists_congr fun σ => and_congr_right fun _ => ?_
    obtain ⟨l, hl⟩ := hlen.denotes σ
    rw [(hcond σ l hl).holds_iff hcr]
    refine ⟨fun h => ⟨l, hl, h⟩, ?_⟩
    rintro ⟨l', hl', h⟩
    exact hl.unique hl' ▸ h
  have hff : first.asked.check shared (queries + 1) negated ≠ .UNSAT ↔
      Over n t.context.assertions len k := by
    rw [hfirst.asked.check_ne_unsat hex]
    refine exists_congr fun σ => and_congr_right fun _ => ?_
    obtain ⟨l, hl⟩ := hlen.denotes σ
    obtain ⟨a, ha, hd⟩ := hcond σ l hl
    cases some.inj (ha.symm.trans hcr)
    rw [hd.not.holds_iff hnot, not_lt]
    refine ⟨fun h => ⟨l, hl, h⟩, ?_⟩
    rintro ⟨l', hl', h⟩
    exact hl.unique hl' ▸ h
  obtain ⟨value, hval, hcr⟩ := bind_eq_some_iff.mp hcr
  refine ⟨if first.check shared queries cond ≠ .UNSAT then
      [⟨{ t.frame with state := .body }, first.asked⟩] else [],
    if first.asked.check shared (queries + 1) negated ≠ .UNSAT ∧ first.asked.stack ≠ [] then
      [first.asked] else [], ?_, ?_, ?_⟩
  · simp only [head, hoff, hval, hcr, hnot, some_bind]
    rfl
  · rw [← htrue]
    by_cases h : first.check shared queries cond = .UNSAT
    · exact .inr ⟨not_not.mpr h, if_neg (not_not.mpr h)⟩
    · exact .inl ⟨h, if_pos h⟩
  · rw [← hff]
    by_cases h : first.asked.check shared (queries + 1) negated = .UNSAT
    · exact .inr ⟨not_not.mpr h, if_neg fun hand => hand.1 h⟩
    · exact .inl ⟨h, if_pos ⟨h, hstk⟩⟩

omit [PathGraph G] in
theorem body_cases (hoff : t.frame.offset = some offset) (hk : IsCount n offset k)
    (h : body shared queries t val = some o) : ∃ next context, IsCount n next (k + 1) ∧
      context.graph = t.context.graph ∧ context.stack = t.context.stack ∧
      o = { tasks := [{ frame := { t.frame with state := .head, offset := some next },
                        context := context }], queries := queries } := by
  simp only [body, hoff, bind_eq_bind, bind_some, bind_eq_some_iff] at h
  obtain ⟨dst, -, alloc, -, index, -, data, -, written, -, context, hctx, next, hnext, h⟩ := h
  refine ⟨next, context, fun σ => ?_, ?_, ?_, (some.inj h).symm⟩
  · have hadd : Returns σ (createBinaryLiteral shared.cache .add offset 1) _ :=
      createBinaryLiteral_returns 1 (hk σ) rfl trivial
    rw [BitVec.ofNat_add]
    exact hadd.denotes hnext
  all_goals
    simp only [Context.setAllocation, bind_eq_bind, bind_eq_some_iff, some.injEq] at hctx
    obtain ⟨heap, -, id, -, rfl⟩ := hctx
    rfl

theorem step_eq (hval : t.frame.args[1]?.bind LLVMValue.expr? = some val)
    (hlen : t.frame.args[2]?.bind LLVMValue.expr? = some len) :
    step shared queries t = match t.frame.state with
      | .entry => enter shared queries t len
      | .head => head shared queries t len
      | .body => body shared queries t val := by
  obtain ⟨value, hvalue, hval⟩ := bind_eq_some_iff.mp hval
  obtain ⟨value', hval', hlen⟩ := bind_eq_some_iff.mp hlen
  cases hstate : t.frame.state <;>
    simp only [step, hvalue, hval', hval, hlen, hstate, some_bind]

theorem run_step {tasks : List (Task G)} {returned : List (Context G)} {fuel : Nat}
    (h : step shared queries t = some o) : run shared (fuel + 1) ⟨t :: tasks, returned, queries⟩ =
      run shared fuel ⟨o.tasks ++ tasks, returned ++ o.returned, o.queries⟩ := by
  simp only [run, h, some_bind]

/-! ### How many contexts return -/

structure Counts (n : Nat) (pathCondition : List Assertion) (len : Operation) (t : Task G)
    (k : Nat) : Prop where
  keeps : Kept t.context
  models : ∀ σ, Models σ t.context.assertions ↔ Models σ pathCondition
  stack : t.context.stack ≠ []
  val : ∃ val, t.frame.args[1]?.bind LLVMValue.expr? = some val
  len : t.frame.args[2]?.bind LLVMValue.expr? = some len
  lt : k < 2 ^ n
  offset : ∃ offset, t.frame.offset = some offset ∧
    (t.frame.state = .head ∧ IsCount n offset k ∨
      t.frame.state = .body ∧ ∃ j, k = j + 1 ∧ IsCount n offset j)

def weight (ls : List Nat) (k : Nat) : Nat := (ls.filter (k ≤ ·)).length

theorem weight_le {ls : List Nat} (hls : ls.Nodup) (k : Nat) :
    weight ls k ≤ (if k ∈ ls then 1 else 0) + weight ls (k + 1) := by
  unfold weight
  induction ls with
  | nil => simp
  | cons l ls ih =>
    obtain ⟨hl, hls⟩ := nodup_cons.mp hls
    have hrest := ih hls
    rcases Nat.lt_trichotomy l k with hlt | rfl | hgt
    · rw [filter_cons_of_neg (by simpa using hlt), filter_cons_of_neg (by simp; omega)]
      have hmem : k ∈ l :: ls ↔ k ∈ ls := by
        rw [mem_cons, or_iff_right (by omega)]
      simpa only [hmem] using hrest
    · rw [if_neg hl] at hrest
      rw [filter_cons_of_pos (by simp), filter_cons_of_neg (by simp),
        if_pos mem_cons_self, length_cons]
      omega
    · rw [filter_cons_of_pos (by simp; omega), filter_cons_of_pos (by simp; omega)]
      have hmem : k ∈ l :: ls ↔ k ∈ ls := by
        rw [mem_cons, or_iff_right (by omega)]
      simp only [hmem, length_cons]
      omega

theorem weight_pos {ls : List Nat} (h : 0 < weight ls k) : ∃ l ∈ ls, k ≤ l := by
  obtain ⟨l, hl⟩ := exists_mem_of_length_pos h
  obtain ⟨hmem, hle⟩ := mem_filter.mp hl
  exact ⟨l, hmem, of_decide_eq_true hle⟩

def Lengths (n : Nat) (pathCondition : List Assertion) (len : Operation) (ls : List Nat) : Prop :=
  ∀ l ∈ ls, ∃ σ, Models σ pathCondition ∧ ∃ x : BitVec n, Denotes σ len x ∧ x.toNat = l

variable {pathCondition : List Assertion} {ls : List Nat}

theorem step_counts (hex : shared.solver.Exact) (hlen : len.IsInt n)
    (hls : Lengths n pathCondition len ls) (hnd : ls.Nodup) (ht : Counts n pathCondition len t k)
    (h : step shared queries t = some o) :
    (∀ r ∈ o.returned, ∀ σ, Models σ r.assertions ↔ Models σ pathCondition) ∧
      ∃ ks, Forall₂ (Counts n pathCondition len) o.tasks ks ∧
        weight ls k ≤ o.returned.length + (ks.map (weight ls)).sum := by
  obtain ⟨hkeeps, hmod, hstk, ⟨val, hval⟩, hargs, hlt, offset, hoff, hstate⟩ := ht
  have hafter := (Context.After.refl hkeeps).asked.asked
  rw [step_eq hval hargs] at h
  obtain ⟨hstate, hcnt⟩ | ⟨hstate, j, rfl, hcnt⟩ := hstate
  · rw [hstate] at h
    change head shared queries t len = some o at h
    obtain ⟨tasks, returned, hhead, htasks, hret⟩ :
        ∃ tasks returned, head shared queries t len = _ ∧ _ :=
      head_eq hex hkeeps hlen hoff hcnt hlt hstk
    simp only [Longer, Over, hmod] at htasks hret
    cases some.inj (hhead.symm.trans h)
    have hmore : weight ls (k + 1) ≠ 0 → Longer n pathCondition len k := by
      intro hne
      obtain ⟨l, hl, hle⟩ := weight_pos (Nat.pos_of_ne_zero hne)
      obtain ⟨σ, hσ, x, hx, hxl⟩ := hls l hl
      exact ⟨σ, hσ, x, hx, by omega⟩
    have hends : (if k ∈ ls then 1 else 0) ≤ returned.length := by
      by_cases hk : k ∈ ls
      · obtain ⟨σ, hσ, x, hx, hxk⟩ := hls k hk
        have hover : Over n pathCondition len k := ⟨σ, hσ, x, hx, hxk.le⟩
        rw [(hret.resolve_right fun h => h.1 hover).2, if_pos hk, length_singleton]
      · rw [if_neg hk]
        exact Nat.zero_le _
    have hweight := weight_le hnd k
    refine ⟨fun r hr => ?_, ?_⟩
    · obtain ⟨-, rfl⟩ | ⟨-, rfl⟩ := hret
      · rw [mem_singleton.mp hr]
        exact fun σ => (hafter.models σ).trans (hmod σ)
      · cases hr
    · obtain ⟨hlonger, rfl⟩ | ⟨hlonger, rfl⟩ := htasks
      · obtain ⟨σ, -, l, -, hkl⟩ := hlonger
        refine ⟨[k + 1], .cons ⟨hafter.keeps, fun σ => (hafter.models σ).trans (hmod σ), hstk,
          ⟨val, hval⟩, hargs, ?_, offset, hoff, .inr ⟨rfl, k, rfl, hcnt⟩⟩ .nil, ?_⟩
        · have := l.isLt
          omega
        · simp only [map_cons, map_nil, sum_cons, sum_nil]
          omega
      · refine ⟨[], .nil, ?_⟩
        have hzero := not_imp_not.mpr hmore hlonger
        simp only [map_nil, sum_nil]
        omega
  · rw [hstate] at h
    change body shared queries t val = some o at h
    obtain ⟨next, context, hnext, hgraph, hst, rfl⟩ := body_cases hoff hcnt h
    refine ⟨fun r hr => (nomatch hr), [j + 1], .cons ⟨?_, fun σ => ?_, ?_, ⟨val, hval⟩,
      hargs, hlt, next, rfl, .inl ⟨rfl, hnext⟩⟩ .nil, ?_⟩
    · rwa [Kept, hgraph]
    · rw [Context.assertions, hgraph]
      exact hmod σ
    · rw [hst]
      exact hstk
    · simp

theorem run_counts (hex : shared.solver.Exact) (hlen : len.IsInt n)
    (hls : Lengths n pathCondition len ls) (hnd : ls.Nodup) {fuel : Nat} {w : Worker G}
    {ks : List Nat} {returned : List (Context G)}
    (hw : Forall₂ (Counts n pathCondition len) w.tasks ks)
    (hret : ∀ r ∈ w.returned, ∀ σ, Models σ r.assertions ↔ Models σ pathCondition)
    (h : run shared fuel w = some returned) :
    (∀ r ∈ returned, ∀ σ, Models σ r.assertions ↔ Models σ pathCondition) ∧
      w.returned.length + (ks.map (weight ls)).sum ≤ returned.length := by
  induction fuel generalizing w ks with
  | zero =>
    obtain ⟨tasks, done, queries⟩ := w
    cases tasks with
    | nil =>
      cases hw
      cases h
      exact ⟨hret, le_rfl⟩
    | cons t tasks => cases h
  | succ fuel ih =>
    obtain ⟨tasks, done, queries⟩ := w
    cases tasks with
    | nil =>
      cases hw
      cases h
      exact ⟨hret, le_rfl⟩
    | cons t tasks =>
      obtain _ | @⟨_, k, _, ks, ht, htasks⟩ := hw
      rw [run, bind_eq_some] at h
      obtain ⟨o, ho, h⟩ := h
      obtain ⟨hnew, ks', hks', hweight⟩ := step_counts hex hlen hls hnd ht ho
      obtain ⟨hall, hlength⟩ := ih (w := ⟨o.tasks ++ tasks, done ++ o.returned, o.queries⟩)
        (rel_append hks' htasks) (by
          intro r hr
          rcases mem_append.mp hr with hr | hr
          · exact hret r hr
          · exact hnew r hr) h
      refine ⟨hall, ?_⟩
      simp only [length_append, map_append, sum_append, map_cons, sum_cons] at hlength ⊢
      omega

end Memset

end Caffeine
