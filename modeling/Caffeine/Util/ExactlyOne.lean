import Mathlib.Data.List.Basic
import Mathlib.Data.List.Perm.Basic
import Mathlib.Data.List.Forall2
import Mathlib.Data.List.ReduceOption

/-!
# Exactly one position of a list

A list of sets partitions a set when every element of the set lies in the set at exactly one
position. Positions count: two equal sets in a list are two parts.
-/

namespace List

open List

variable {α β : Type*} {p : α → Prop}

def ExactlyOne (p : α → Prop) (l : List α) : Prop :=
  ∃ before a after, l = before ++ a :: after ∧ p a ∧ ∀ b ∈ before ++ after, ¬ p b

theorem not_exactlyOne_nil : ¬ ExactlyOne p [] := by
  rintro ⟨before, a, after, h, -, -⟩
  simp at h

variable {a : α} {l : List α}

theorem exactlyOne_cons :
    ExactlyOne p (a :: l) ↔ (p a ∧ ∀ b ∈ l, ¬ p b) ∨ (¬ p a ∧ ExactlyOne p l) := by
  constructor
  · rintro ⟨before, c, after, h, hc, hrest⟩
    cases before with
    | nil =>
      obtain ⟨rfl, rfl⟩ := List.cons.inj h
      exact .inl ⟨hc, hrest⟩
    | cons b before =>
      obtain ⟨rfl, rfl⟩ := List.cons.inj h
      exact .inr ⟨hrest _ (by simp), before, c, after, rfl, hc,
        fun b hb => hrest b (mem_cons_of_mem _ hb)⟩
  · rintro (⟨ha, hl⟩ | ⟨ha, before, c, after, rfl, hc, hrest⟩)
    · exact ⟨[], a, l, rfl, ha, hl⟩
    · refine ⟨a :: before, c, after, rfl, hc, fun b hb => ?_⟩
      rcases mem_cons.mp hb with rfl | hb
      · exact ha
      · exact hrest b hb

theorem exactlyOne_append {m : List α} : ExactlyOne p (l ++ m) ↔
    (ExactlyOne p l ∧ ∀ b ∈ m, ¬ p b) ∨ ((∀ b ∈ l, ¬ p b) ∧ ExactlyOne p m) := by
  induction l with
  | nil => simp [not_exactlyOne_nil]
  | cons a l ih =>
    simp only [cons_append, exactlyOne_cons, forall_mem_append, forall_mem_cons, ih]
    tauto

theorem exactlyOne_singleton : ExactlyOne p [a] ↔ p a := by
  simp [exactlyOne_cons, not_exactlyOne_nil]

theorem ExactlyOne.perm {l₁ l₂ : List α} (hl : l₁.Perm l₂) (h : ExactlyOne p l₁) :
    ExactlyOne p l₂ := by
  induction hl with
  | nil => exact h
  | cons a hl ih =>
    rw [exactlyOne_cons] at h ⊢
    rcases h with ⟨ha, hrest⟩ | ⟨ha, hrest⟩
    · exact .inl ⟨ha, fun b hb => hrest b (hl.mem_iff.mpr hb)⟩
    · exact .inr ⟨ha, ih hrest⟩
  | swap a b l =>
    simp only [exactlyOne_cons, forall_mem_cons] at h ⊢
    tauto
  | trans _ _ ih₁ ih₂ => exact ih₂ (ih₁ h)

theorem exactlyOne_forall₂ {q : β → Prop} {m : List β} (h : Forall₂ (fun a b => p a ↔ q b) l m) :
    ExactlyOne p l ↔ ExactlyOne q m := by
  induction h with
  | nil => exact iff_of_false not_exactlyOne_nil not_exactlyOne_nil
  | @cons a b l m hab hrest ih =>
    have hnone : (∀ a ∈ l, ¬ p a) ↔ ∀ b ∈ m, ¬ q b := by
      clear ih
      induction hrest with
      | nil => simp
      | cons hab _ ih => rw [forall_mem_cons, forall_mem_cons, hab, ih]
    rw [exactlyOne_cons, exactlyOne_cons, hab, hnone, ih]

theorem exactlyOne_map {f : β → α} {l : List β} :
    ExactlyOne p (l.map f) ↔ ExactlyOne (fun b => p (f b)) l :=
  exactlyOne_forall₂ (by simp [forall₂_map_left_iff, forall₂_same])

theorem ExactlyOne.congr {q : α → Prop} (h : ∀ a ∈ l, p a ↔ q a) :
    ExactlyOne p l ↔ ExactlyOne q l :=
  exactlyOne_forall₂ (forall₂_same.mpr h)

theorem exactlyOne_reduceOption {l : List (Option α)} :
    ExactlyOne p l.reduceOption ↔ ExactlyOne (fun o => ∃ a, o = some a ∧ p a) l := by
  induction l with
  | nil => exact iff_of_false not_exactlyOne_nil not_exactlyOne_nil
  | cons o l ih =>
    cases o with
    | none => rw [reduceOption_cons_of_none, ih, exactlyOne_cons]; simp
    | some a =>
      rw [reduceOption_cons_of_some, exactlyOne_cons, exactlyOne_cons, ih]
      have hnone : (∀ b ∈ l.reduceOption, ¬ p b) ↔ ∀ o ∈ l, ¬ ∃ a, o = some a ∧ p a := by
        simp only [reduceOption_mem_iff, not_exists, not_and]
        exact ⟨fun h o ho a ha => h a (ha ▸ ho), fun h b hb => h (some b) hb b rfl⟩
      simp [hnone]

theorem Nodup.exactlyOne (hl : l.Nodup) (ha : a ∈ l) : ExactlyOne (a = ·) l := by
  obtain ⟨before, after, rfl⟩ := append_of_mem ha
  refine ⟨before, a, after, rfl, rfl, ?_⟩
  rintro b hb rfl
  exact (nodup_cons.mp (perm_middle.nodup_iff.mp hl)).1 hb

/-- When all positions agree, exactly one of them is all of them. -/
theorem exactlyOne_const {P : Prop} (hP : P) : ExactlyOne (fun _ => P) l ↔ l.length = 1 := by
  constructor
  · rintro ⟨before, a, after, rfl, -, hrest⟩
    have hnil : before ++ after = [] :=
      eq_nil_iff_forall_not_mem.mpr fun b hb => hrest b hb hP
    obtain ⟨rfl, rfl⟩ := append_eq_nil_iff.mp hnil
    rfl
  · intro h
    obtain ⟨a, rfl⟩ := length_eq_one_iff.mp h
    exact exactlyOne_singleton.mpr hP

end List
