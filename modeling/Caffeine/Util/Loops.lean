import Caffeine.Util.Containers
import Mathlib.Logic.Relation
import Mathlib.Order.WellFounded

/-!
# Loops with a step bound

A loop ends in a state with an output and goes on from any other. Functions that model loops take a
bound on the steps, which the body may use for loops of its own. If the states decrease in a
well-founded order, the function returns for some bound exactly if the body never fails.
-/

namespace Caffeine

open Option hiding wellFounded_lt

variable {σ β : Type*}

/-- `run` is the loop with the outputs `out` and the body `step`; without steps left it may still
return. -/
structure IsLoop (run : Nat → σ → Option β) (out : σ → Option β) (step : Nat → σ → Option σ) :
    Prop where
  zero : ∀ s b, run 0 s = some b → out s = some b
  stop : ∀ fuel s b, out s = some b → run (fuel + 1) s = some b
  next : ∀ fuel s, out s = none → run (fuel + 1) s = (step fuel s).bind (run fuel)
  step_mono : ∀ fuel fuel' s t, fuel ≤ fuel' → step fuel s = some t → step fuel' s = some t

def LoopStep (out : σ → Option β) (step : Nat → σ → Option σ) (s t : σ) : Prop :=
  out s = none ∧ ∃ fuel, step fuel s = some t

variable {fuel : Nat} {s : σ} {b : β}

namespace IsLoop

variable {run : Nat → σ → Option β} {out : σ → Option β} {step : Nat → σ → Option σ}

theorem of_out (hl : IsLoop run out step) {c : β} (hb : out s = some b) (hc : run fuel s = some c) :
    c = b := by
  cases fuel with
  | zero => exact some.inj ((hl.zero s c hc).symm.trans hb)
  | succ fuel => exact some.inj (hc.symm.trans (hl.stop fuel s b hb))

theorem mono (hl : IsLoop run out step) {fuel' : Nat} (hle : fuel ≤ fuel')
    (h : run fuel s = some b) : run fuel' s = some b := by
  induction fuel generalizing fuel' s with
  | zero =>
    cases fuel' with
    | zero => exact h
    | succ fuel' => exact hl.stop fuel' s b (hl.zero s b h)
  | succ fuel ih =>
    obtain ⟨fuel', rfl⟩ := Nat.exists_eq_succ_of_ne_zero (Nat.ne_of_gt (Nat.lt_of_lt_of_le
      (Nat.succ_pos fuel) hle))
    have hle' : fuel ≤ fuel' := Nat.le_of_succ_le_succ hle
    cases hout : out s with
    | some c =>
      rw [hl.of_out hout h]
      exact hl.stop fuel' s c hout
    | none =>
      rw [hl.next fuel s hout] at h
      obtain ⟨t, ht, hrun⟩ := bind_eq_some_iff.mp h
      change run (fuel' + 1) s = some b
      rw [hl.next fuel' s hout]
      exact bind_eq_some_iff.mpr ⟨t, hl.step_mono fuel fuel' s t hle' ht, ih hle' hrun⟩

theorem invariant (hl : IsLoop run out step) (P : σ → Prop)
    (hstep : ∀ s t, P s → LoopStep out step s t → P t) (hs : P s) (h : run fuel s = some b) :
    ∃ t, P t ∧ out t = some b := by
  induction fuel generalizing s with
  | zero => exact ⟨s, hs, hl.zero s b h⟩
  | succ fuel ih =>
    cases hout : out s with
    | some c =>
      rw [hl.of_out hout h]
      exact ⟨s, hs, hout⟩
    | none =>
      rw [hl.next fuel s hout] at h
      obtain ⟨t, ht, hrun⟩ := bind_eq_some_iff.mp h
      exact ih (hstep s t hs ⟨hout, fuel, ht⟩) hrun

theorem of_step (hl : IsLoop run out step) {t : σ} (hstep : LoopStep out step s t)
    (h : run fuel s = some b) : ∃ fuel', run fuel' t = some b := by
  obtain ⟨hout, fuel', ht⟩ := hstep
  cases fuel with
  | zero => exact absurd (hl.zero s b h) (by rw [hout]; exact some_ne_none b ∘ Eq.symm)
  | succ fuel =>
    rw [hl.next fuel s hout] at h
    obtain ⟨u, hu, hrun⟩ := bind_eq_some_iff.mp h
    have ht' := hl.step_mono _ _ s t (Nat.le_max_left fuel' fuel) ht
    have hu' := hl.step_mono _ _ s u (Nat.le_max_right fuel' fuel) hu
    cases some.inj (ht'.symm.trans hu')
    exact ⟨fuel, hrun⟩

/-- A loop that goes down returns exactly if its body never fails. -/
theorem exists_iff {μ : Type*} [Preorder μ] [WellFoundedLT μ] (hl : IsLoop run out step)
    (measure : σ → μ) (Inv : σ → Prop)
    (hinv : ∀ s t, Inv s → LoopStep out step s t → Inv t ∧ measure t < measure s) (hs : Inv s) :
    (∃ fuel b, run fuel s = some b) ↔
      ∀ t, Relation.ReflTransGen (LoopStep out step) s t → out t = none →
        ∃ fuel u, step fuel t = some u := by
  constructor
  · rintro ⟨fuel, b, h⟩ t hst
    induction hst using Relation.ReflTransGen.head_induction_on generalizing fuel with
    | refl =>
      intro hout
      cases fuel with
      | zero => exact absurd (hl.zero t b h) (by rw [hout]; exact some_ne_none b ∘ Eq.symm)
      | succ fuel =>
        rw [hl.next fuel t hout] at h
        obtain ⟨u, hu, -⟩ := bind_eq_some_iff.mp h
        exact ⟨fuel, u, hu⟩
    | head hstep _ ih =>
      obtain ⟨fuel', h'⟩ := hl.of_step hstep h
      exact ih (hinv _ _ hs hstep).1 fuel' h'
  · intro hall
    induction s using (InvImage.wf measure (wellFounded_lt (α := μ))).induction with
    | _ s ih =>
      cases hout : out s with
      | some b => exact ⟨1, b, hl.stop 0 s b hout⟩
      | none =>
        obtain ⟨fuel, t, ht⟩ := hall s Relation.ReflTransGen.refl hout
        have hstep : LoopStep out step s t := ⟨hout, fuel, ht⟩
        obtain ⟨hinvt, hlt⟩ := hinv s t hs hstep
        obtain ⟨fuel', b, hrun⟩ := ih t hlt hinvt fun u hu =>
          hall u (Relation.ReflTransGen.head hstep hu)
        refine ⟨max fuel fuel' + 1, b, ?_⟩
        rw [hl.next _ s hout]
        exact bind_eq_some_iff.mpr ⟨t, hl.step_mono _ _ s t (Nat.le_max_left _ _) ht,
          hl.mono (Nat.le_max_right _ _) hrun⟩

end IsLoop

/-- A `for` loop whose body takes a step bound returns for some bound exactly if the body never
fails. -/
theorem foldlM_fuel_exists_iff {α : Type*} {f : Nat → σ → α → Option σ}
    (hmono : ∀ fuel fuel', fuel ≤ fuel' → ∀ s a t, f fuel s a = some t → f fuel' s a = some t)
    {l : List α} : (∃ fuel t, l.foldlM (f fuel) s = some t) ↔
      ∀ done a rest fuel t, l = done ++ a :: rest → done.foldlM (f fuel) s = some t →
        ∃ fuel' u, f fuel' t a = some u := by
  constructor
  · rintro ⟨fuel, t, h⟩ done a rest fuel' t' rfl ht'
    have h1 := foldlM_mono (hmono _ _ (Nat.le_max_left fuel fuel')) h
    have h2 := foldlM_mono (hmono _ _ (Nat.le_max_right fuel fuel')) ht'
    rw [List.foldlM_append, bind_eq_bind, h2, bind_some] at h1
    obtain ⟨u, hu, -⟩ := foldlM_cons_eq_some.mp h1
    exact ⟨_, u, hu⟩
  · intro hall
    induction l generalizing s with
    | nil => exact ⟨0, s, rfl⟩
    | cons a l ih =>
      obtain ⟨fuel, t, ht⟩ := hall [] a l 0 s rfl rfl
      obtain ⟨fuel', u, hu⟩ : ∃ fuel u, l.foldlM (f fuel) t = some u := by
        refine ih fun done b rest fuel' u hl hu => ?_
        refine hall (a :: done) b rest (max fuel fuel') u (by rw [hl, List.cons_append]) ?_
        exact foldlM_cons_eq_some.mpr ⟨t, hmono _ _ (Nat.le_max_left _ _) _ _ _ ht,
          foldlM_mono (hmono _ _ (Nat.le_max_right _ _)) hu⟩
      exact ⟨max fuel fuel', u, foldlM_cons_eq_some.mpr
        ⟨t, hmono _ _ (Nat.le_max_left _ _) _ _ _ ht,
          foldlM_mono (hmono _ _ (Nat.le_max_right _ _)) hu⟩⟩

end Caffeine
