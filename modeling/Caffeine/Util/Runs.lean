import Caffeine.Util.Containers
import Mathlib.Algebra.Order.BigOperators.Group.Finset
import Mathlib.Data.Fintype.BigOperators
import Mathlib.Tactic.Abel

/-!
# Runs of a transition function

A run applies a list of actions; one that is not enabled ends it. The actions also stand for the
choices of a scheduler, so what holds of all runs holds of all interleavings. `Along` says that
every action is taken in a state that allows it; the rules derive facts about runs from facts about
one step. The last section is about the parties of a run of which one has moved.
-/

open Function

namespace Runs

open Caffeine

variable {σ α β : Type} (step : σ → α → Option σ)

def run (s : σ) (actions : List α) : Option σ := actions.foldlM step s

/-- Every action of the run is taken in a state in which the condition allows it. -/
def Along (P : σ → α → Prop) : σ → List α → Prop
  | _, [] => True
  | s, a :: actions => P s a ∧ ∀ s', step s a = some s' → Along P s' actions

instance decidableAlong (P : σ → α → Prop) [∀ s a, Decidable (P s a)] :
    ∀ (s : σ) (actions : List α), Decidable (Along step P s actions)
  | _, [] => .isTrue trivial
  | s, a :: actions =>
    haveI : Decidable (∀ s', step s a = some s' → Along step P s' actions) :=
      match step s a with
      | none => .isTrue nofun
      | some t =>
        haveI := decidableAlong P t actions
        decidable_of_iff (Along step P t actions)
          ⟨fun ht _ hs => Option.some.inj hs ▸ ht, fun hall => hall t rfl⟩
    inferInstanceAs (Decidable (_ ∧ _))

variable {step}

variable {s s' : σ} {actions : List α}

theorem run_cons {a : α} :
    run step s (a :: actions) = some s' ↔ ∃ t, step s a = some t ∧ run step t actions = some s' :=
  foldlM_cons_eq_some

/-- What every allowed step keeps holds after every run of allowed steps. -/
theorem run_invariant {P : σ → α → Prop} {I : σ → Prop}
    (hstep : ∀ s a s', P s a → step s a = some s' → I s → I s') (hP : Along step P s actions)
    (h : run step s actions = some s') (hs : I s) : I s' := by
  induction actions generalizing s with
  | nil =>
    cases h
    exact hs
  | cons a actions ih =>
    obtain ⟨t, ht, hrest⟩ := run_cons.mp h
    exact ih (hP.2 t ht) hrest (hstep s a t hP.1 ht hs)

/-- A condition that does not look at the state. -/
theorem along_of_forall {P : α → Prop} (h : ∀ a ∈ actions, P a) :
    Along step (fun _ a => P a) s actions := by
  induction actions generalizing s with
  | nil => trivial
  | cons a actions ih =>
    obtain ⟨ha, hrest⟩ := List.forall_mem_cons.mp h
    exact ⟨ha, fun s' _ => ih hrest⟩

theorem along_and {P Q : σ → α → Prop} (hP : Along step P s actions) (hQ : Along step Q s actions) :
    Along step (fun s a => P s a ∧ Q s a) s actions := by
  induction actions generalizing s with
  | nil => trivial
  | cons a actions ih =>
    exact ⟨⟨hP.1, hQ.1⟩, fun s' hs' => ih (hP.2 s' hs') (hQ.2 s' hs')⟩

/-- What a step adds to a log is added by a run in the order of its actions. -/
theorem run_log {R : List β → σ → Prop} (out : α → List β)
    (hstep : ∀ log s a s', step s a = some s' → R log s → R (log ++ out a) s') {log : List β}
    (h : run step s actions = some s') (hs : R log s) : R (log ++ actions.flatMap out) s' := by
  induction actions generalizing s log with
  | nil =>
    cases h
    rwa [List.flatMap_nil, List.append_nil]
  | cons a actions ih =>
    obtain ⟨t, ht, hrest⟩ := run_cons.mp h
    rw [List.flatMap_cons, ← List.append_assoc]
    exact ih hrest (hstep log s a t ht hs)

section Parties

variable {ι M : Type} [DecidableEq ι]

theorem forall_update {P : ι → β → Prop} {f : ι → β} {i : ι} {y : β} (h : ∀ j, j ≠ i → P j (f j))
    (hy : P i y) (j : ι) : P j (update f i y j) := by
  by_cases hj : j = i
  · subst hj
    rwa [update_self]
  · rw [update_of_ne hj]
    exact h j hj

variable [Fintype ι] [AddCommMonoid M]

theorem sum_update_add (f : ι → β) (g : β → M) (i : ι) (y : β) :
    ∑ j, g (update f i y j) + g (f i) = ∑ j, g (f j) + g y := by
  have hrest : ∑ j ∈ Finset.univ.erase i, g (update f i y j) =
      ∑ j ∈ Finset.univ.erase i, g (f j) := by
    refine Finset.sum_congr rfl fun j hj => ?_
    rw [update_of_ne (Finset.ne_of_mem_erase hj)]
  rw [← Finset.add_sum_erase _ _ (Finset.mem_univ i),
    ← Finset.add_sum_erase _ (fun j => g (f j)) (Finset.mem_univ i), hrest, update_self]
  abel

/-- If every party counts at most once and one not at all, the sum is less than their number. -/
theorem sum_lt_card {n : Nat} (f : Fin n → Nat) (hle : ∀ j, f j ≤ 1) {i : Fin n} (hi : f i = 0) :
    ∑ j, f j < n := by
  have hlt : ∑ j, f j < ∑ _j : Fin n, 1 :=
    Finset.sum_lt_sum (fun j _ => hle j) ⟨i, Finset.mem_univ i, by rw [hi]; exact Nat.one_pos⟩
  rwa [Finset.sum_const, Finset.card_univ, Fintype.card_fin, nsmul_one, Nat.cast_id] at hlt

end Parties

end Runs
