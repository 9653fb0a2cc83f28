import Mathlib.Logic.Function.DependsOn
import Mathlib.Data.Set.Piecewise

/-!
# Constraints over variables

A constraint is a predicate on assignments to variables that depends on some of the variables
only. Constraints without common variables can be satisfied independently.
-/

variable {ι : Type*} {α : ι → Type*} {P Q : (∀ i, α i) → Prop} {s t : Set ι}

theorem dependsOn_forall_mem {κ : Type*} {R : κ → (∀ i, α i) → Prop} {l : List κ} {u : κ → Set ι}
    (h : ∀ k ∈ l, DependsOn (R k) (u k)) :
    DependsOn (fun x => ∀ k ∈ l, R k x) {i | ∃ k ∈ l, i ∈ u k} := by
  intro x y hxy
  refine propext (forall₂_congr fun k hk => ?_)
  have hk' := h k hk fun i hi => hxy i ⟨k, hk, hi⟩
  exact hk'.to_iff

/-- Two constraints have a common solution if they have solutions that agree on the variables
they share. -/
theorem exists_and_iff_of_dependsOn (hP : DependsOn P s) (hQ : DependsOn Q t) :
    (∃ x, P x ∧ Q x) ↔ ∃ x y, P x ∧ Q y ∧ ∀ i ∈ s, i ∈ t → x i = y i := by
  classical
  constructor
  · rintro ⟨x, hPx, hQx⟩
    exact ⟨x, x, hPx, hQx, fun i _ _ => rfl⟩
  · rintro ⟨x, y, hPx, hQy, hxy⟩
    refine ⟨s.piecewise x y, ?_, ?_⟩
    · rwa [hP fun i hi => Set.piecewise_eq_of_mem s x y hi]
    · rw [hQ fun i hi => ?_]
      · exact hQy
      · by_cases his : i ∈ s
        · rw [Set.piecewise_eq_of_mem s x y his, hxy i his hi]
        · exact Set.piecewise_eq_of_notMem s x y his
