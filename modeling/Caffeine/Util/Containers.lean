import Mathlib.Algebra.Ring.Nat
import Mathlib.Data.List.AList

/-!
# Hash containers and fallible loops

Association lists stand for hash maps. A program may observe the order of a traversal, so traversals
go through a `HashOrder`, an oracle that may answer differently at every tick of a clock. Loops that
can fail are folds in `Option`; `foldlM_invariant` is their rule.
-/

namespace Caffeine

open List Option

theorem bind_eq_some {α β : Type} {x : Option α} {f : α → Option β} {b : β} :
    (x >>= f) = some b ↔ ∃ a, x = some a ∧ f a = some b :=
  bind_eq_some_iff

theorem some_bind {α β : Type} (a : α) (f : α → Option β) : (some a >>= f) = f a := rfl

abbrev Map (κ υ : Type) := AList (fun _ : κ => υ)

namespace Map

variable {κ υ : Type} [DecidableEq κ]

/-- `emplace` of the standard containers: an existing key keeps its value. -/
def emplace (m : Map κ υ) (k : κ) (v : υ) : Map κ υ := if k ∈ m then m else m.insert k v

theorem lookup_emplace (m : Map κ υ) (k : κ) (v : υ) (k' : κ) :
    (m.emplace k v).lookup k' = if k' = k ∧ k ∉ m then some v else m.lookup k' := by
  by_cases hk : k ∈ m
  · simp [emplace, hk]
  · by_cases hk' : k' = k
    · subst hk'
      simp [emplace, hk]
    · simp [emplace, hk, hk', AList.lookup_insert_ne hk']

theorem emplace_emplace (m : Map κ υ) (k : κ) (v : υ) :
    (m.emplace k v).emplace k v = m.emplace k v := by
  by_cases hk : k ∈ m
  · simp [emplace, hk]
  · simp [emplace, hk]

variable {m : Map κ υ} {k : κ} {v : υ}

theorem erase_of_notMem (hk : k ∉ m) : m.erase k = m :=
  AList.ext (kerase_of_notMem_keys hk)

theorem lookup_insert (m : Map κ υ) (k : κ) (v : υ) (k' : κ) :
    AList.lookup k' (m.insert k v) = if k' = k then some v else m.lookup k' := by
  by_cases hk : k' = k
  · subst hk
    simp
  · rw [if_neg hk, AList.lookup_insert_ne hk]

theorem lookup_erase (m : Map κ υ) (k k' : κ) :
    AList.lookup k' (m.erase k) = if k' = k then none else m.lookup k' := by
  by_cases hk : k' = k
  · subst hk
    simp
  · rw [if_neg hk, AList.lookup_erase_ne hk]

theorem lookup_replace (hk : k ∈ m) (v : υ) (k' : κ) :
    AList.lookup k' (m.replace k v) = if k' = k then some v else m.lookup k' := by
  have hmem : k ∈ m.entries.keys := hk
  change (List.kreplace k v m.entries).dlookup k' = if k' = k then some v else m.entries.dlookup k'
  generalize m.entries = l at hmem
  induction l with
  | nil => cases hmem
  | cons e l ih =>
    obtain ⟨a, b⟩ := e
    unfold List.kreplace at ih ⊢
    by_cases ha : k = a
    · subst ha
      rw [lookmap_cons_some _ _ (show (if k = k then some (⟨k, v⟩ : Sigma fun _ => υ) else
        none) = some ⟨k, v⟩ from if_pos rfl)]
      by_cases hk' : k' = k
      · subst hk'
        rw [if_pos rfl, dlookup_cons_eq]
      · rw [if_neg hk', dlookup_cons_ne _ _ hk', dlookup_cons_ne _ _ hk']
    · have hl : k ∈ List.keys l := by
        rw [keys_cons, mem_cons] at hmem
        exact hmem.resolve_left ha
      rw [lookmap_cons_none _ _ (show (if k = a then some (⟨k, v⟩ : Sigma fun _ => υ) else
        none) = none from if_neg ha)]
      by_cases hk' : k' = a
      · subst hk'
        rw [if_neg (Ne.symm ha), dlookup_cons_eq, dlookup_cons_eq]
      · rw [dlookup_cons_ne _ _ hk', dlookup_cons_ne _ _ hk', ih hl]

theorem mem_of_lookup (h : m.lookup k = some v) : k ∈ m :=
  AList.lookup_isSome.mp (by rw [h]; rfl)

theorem exists_lookup (h : k ∈ m) : ∃ v, m.lookup k = some v :=
  isSome_iff_exists.mp (AList.lookup_isSome.mpr h)

theorem lookup_unique {w : υ} (hv : m.lookup k = some v) (hw : m.lookup k = some w) :
    v = w := some.inj (hv.symm.trans hw)

def pairs (m : Map κ υ) : List (κ × υ) := m.entries.map (fun e => (e.1, e.2))

theorem mem_pairs : (k, v) ∈ m.pairs ↔ m.lookup k = some v := by
  rw [← mem_def, AList.mem_lookup_iff, pairs, List.mem_map]
  constructor
  · rintro ⟨⟨k', v'⟩, he, heq⟩
    cases heq
    exact he
  · intro he
    exact ⟨⟨k, v⟩, he, rfl⟩

theorem kunion_eq_left {l l' : List (Sigma fun _ : κ => υ)} (hl' : l'.NodupKeys)
    (h : l'.keys ⊆ l.keys) : kunion l l' = l := by
  induction l generalizing l' with
  | nil =>
    rw [nil_kunion]
    exact map_eq_nil_iff.mp (subset_nil.mp h)
  | cons e l ih =>
    rw [kunion_cons, ih (hl'.kerase e.1)]
    intro k hk
    have hmem : k ∈ (e :: l).keys := h (kerase_keys_subset _ _ hk)
    rw [keys_cons] at hmem
    rcases mem_cons.mp hmem with rfl | hk'
    · exact absurd hk (notMem_keys_kerase _ hl')
    · exact hk'

theorem union_eq_left {m' : Map κ υ} (h : m'.keys ⊆ m.keys) : m ∪ m' = m :=
  AList.ext (kunion_eq_left m'.nodupKeys h)

omit [DecidableEq κ] in
theorem nodup_pairs (m : Map κ υ) : m.pairs.Nodup := by
  refine Nodup.of_map Prod.fst ?_
  rw [pairs, List.map_map]
  exact m.nodupKeys

theorem pairs_insert (hk : k ∉ m) (v : υ) : pairs (m.insert k v) = (k, v) :: m.pairs := by
  simp only [pairs, AList.entries_insert_of_notMem hk, map_cons]

end Map

/-- Traversal orders of hash containers: `order t l` of traversal `t`. -/
structure HashOrder where
  order : {α : Type} → Nat → List α → List α
  order_perm : ∀ {α : Type} (t : Nat) (l : List α), (order t l).Perm l

namespace HashOrder

def insertion : HashOrder where
  order _ l := l
  order_perm _ l := Perm.refl l

theorem mem_order (h : HashOrder) {α : Type} {t : Nat} {l : List α} {a : α} :
    a ∈ h.order t l ↔ a ∈ l := (h.order_perm t l).mem_iff

end HashOrder

variable {β : Type*} {r : List β}

section FoldM

variable {α σ : Type*}

variable {f : σ → α → Option σ} {l : List α} {s s' : σ} {R : α → β → Prop}

theorem foldlM_cons_eq_some {a : α} :
    (a :: l).foldlM f s = some s' ↔ ∃ t, f s a = some t ∧ l.foldlM f t = some s' := by
  rw [foldlM_cons]
  exact bind_eq_some_iff

/-- What every step of a fallible loop preserves, the loop preserves. -/
theorem foldlM_invariant (P : σ → Prop) (step : ∀ s a s', a ∈ l → f s a = some s' → P s → P s')
    (h : l.foldlM f s = some s') (hs : P s) : P s' := by
  induction l generalizing s with
  | nil =>
    cases h
    exact hs
  | cons a l ih =>
    obtain ⟨t, ht, hrest⟩ := foldlM_cons_eq_some.mp h
    refine ih (fun s b s' hb => step s b s' (mem_cons_of_mem a hb)) hrest ?_
    exact step s a t mem_cons_self ht hs

theorem exists_step_of_mem (h : l.foldlM f s = some s') {a : α} (ha : a ∈ l) :
    ∃ t t', f t a = some t' := by
  induction l generalizing s with
  | nil => cases ha
  | cons b l ih =>
    obtain ⟨t, ht, h⟩ := foldlM_cons_eq_some.mp h
    rcases mem_cons.mp ha with rfl | ha
    · exact ⟨s, t, ht⟩
    · exact ih h ha

/-- If a fold whose steps keep the start or end in `Q` for good does not end in `Q`, no step has
changed anything. -/
theorem foldlM_stays (Q : σ → Prop) (hstart : ∀ a ∈ l, ∀ t, f s a = some t → t = s ∨ Q t)
    (hstep : ∀ t a t', f t a = some t' → Q t → Q t') (hs : l.foldlM f s = some s') (hQ : ¬ Q s') :
    s' = s ∧ ∀ a ∈ l, f s a = some s := by
  induction l with
  | nil =>
    cases hs
    exact ⟨rfl, fun a ha => absurd ha not_mem_nil⟩
  | cons a l ih =>
    obtain ⟨t, ht, hrest⟩ := foldlM_cons_eq_some.mp hs
    rcases hstart a mem_cons_self t ht with rfl | hqt
    · obtain ⟨heq, hall⟩ := ih (fun b hb => hstart b (mem_cons_of_mem _ hb)) hrest
      exact ⟨heq, forall_mem_cons.mpr ⟨ht, hall⟩⟩
    · exact absurd (foldlM_invariant Q (fun t b t' _ hb hq => hstep t b t' hb hq) hrest hqt) hQ

/-- A fallible loop returns if its steps do under an invariant over the elements done. -/
theorem foldlM_exists_done (P : List α → σ → Prop)
    (step : ∀ done a rest s, l = done ++ a :: rest → P done s →
      ∃ s', f s a = some s' ∧ P (done ++ [a]) s') (hs : P [] s) :
    ∃ s', l.foldlM f s = some s' ∧ P l s' := by
  have main : ∀ rest done s, l = done ++ rest → P done s →
      ∃ s', rest.foldlM f s = some s' ∧ P l s' := by
    intro rest
    induction rest with
    | nil =>
      intro done s hl hP
      rw [append_nil] at hl
      exact ⟨s, rfl, hl ▸ hP⟩
    | cons a rest ih =>
      intro done s hl hP
      obtain ⟨t, ht, hPt⟩ := step done a rest s hl hP
      obtain ⟨s', hrest, hP'⟩ := ih (done ++ [a]) t (by simpa using hl) hPt
      exact ⟨s', foldlM_cons_eq_some.mpr ⟨t, ht, hrest⟩, hP'⟩
  exact main l [] s rfl hs

/-- A fallible loop whose steps return under an invariant returns. -/
theorem foldlM_exists (P : σ → Prop) (step : ∀ s a, a ∈ l → P s → ∃ s', f s a = some s' ∧ P s')
    (hs : P s) : ∃ s', l.foldlM f s = some s' ∧ P s' := by
  refine foldlM_exists_done (fun _ => P) ?_ hs
  rintro done a rest s rfl
  exact step s a (mem_append_right _ mem_cons_self)

/-- A loop whose steps are more defined is more defined. -/
theorem foldlM_mono {f' : σ → α → Option σ} (h : ∀ s a s', f s a = some s' → f' s a = some s')
    (hl : l.foldlM f s = some s') : l.foldlM f' s = some s' := by
  induction l generalizing s with
  | nil => exact hl
  | cons a l ih =>
    obtain ⟨t, ht, hrest⟩ := foldlM_cons_eq_some.mp hl
    exact foldlM_cons_eq_some.mpr ⟨t, h s a t ht, ih hrest⟩

/-- A list of results is complete exactly if none of them failed. -/
theorem mapM_id_eq_some {l : List (Option α)} {as : List α} :
    l.mapM id = some as ↔ l = as.map some := by
  induction l generalizing as with
  | nil => cases as <;> simp
  | cons a l ih =>
    simp only [mapM_cons, bind_eq_bind, bind_eq_some_iff, id, Option.pure_def, some.injEq, ih]
    constructor
    · rintro ⟨b, rfl, bs, rfl, rfl⟩
      rfl
    · intro h
      cases as with
      | nil => cases h
      | cons b bs =>
        obtain ⟨ha, hl⟩ := List.cons.inj h
        exact ⟨b, ha, bs, hl, rfl⟩

variable {f : α → Option β}

theorem forall₂_of_mapM (h : l.mapM f = some r) :
    Forall₂ (fun a b => f a = some b) l r := by
  induction l generalizing r with
  | nil =>
    cases h
    exact .nil
  | cons a l ih =>
    simp only [mapM_cons, bind_eq_bind, bind_eq_some_iff, Option.pure_def, some.injEq] at h
    obtain ⟨b, hb, bs, hbs, rfl⟩ := h
    exact .cons hb (ih hbs)

theorem forall₂_exists_left (h : Forall₂ R l r) {y : β} (hy : y ∈ r) : ∃ x ∈ l, R x y := by
  induction h with
  | nil => cases hy
  | cons hR _ ih =>
    rcases mem_cons.mp hy with rfl | hy
    · exact ⟨_, mem_cons_self, hR⟩
    · obtain ⟨x, hx, hxy⟩ := ih hy
      exact ⟨x, mem_cons_of_mem _ hx, hxy⟩

theorem forall₂_map_eq {γ : Type*} {f : β → γ} {g : α → γ} (h : Forall₂ R l r)
    (hfg : ∀ a ∈ l, ∀ b, R a b → f b = g a) : r.map f = l.map g := by
  induction h with
  | nil => rfl
  | cons hR _ ih =>
    obtain ⟨ha, hl⟩ := forall_mem_cons.mp hfg
    rw [map_cons, map_cons, ha _ hR, ih hl]

theorem mapM_eq_some_map {g : α → β} (h : ∀ a ∈ l, f a = some (g a)) :
    l.mapM f = some (l.map g) := by
  induction l with
  | nil => rfl
  | cons a l ih =>
    obtain ⟨ha, hl⟩ := forall_mem_cons.mp h
    rw [mapM_cons, ha, ih hl]
    rfl

theorem mapM_exists (h : ∀ a ∈ l, ∃ b, f a = some b ∧ R a b) :
    ∃ r, l.mapM f = some r ∧ Forall₂ R l r := by
  induction l with
  | nil => exact ⟨[], rfl, .nil⟩
  | cons a l ih =>
    obtain ⟨ha, hl⟩ := forall_mem_cons.mp h
    obtain ⟨b, hb, hR⟩ := ha
    obtain ⟨r, hr, hall⟩ := ih hl
    refine ⟨b :: r, ?_, .cons hR hall⟩
    rw [mapM_cons, hb, hr]
    rfl

theorem exists_of_mem_mapM (h : l.mapM f = some r) {y : β} (hy : y ∈ r) :
    ∃ x ∈ l, f x = some y :=
  forall₂_exists_left (forall₂_of_mapM h) hy

theorem exists_mem_mapM (h : l.mapM f = some r) {x : α} (hx : x ∈ l) :
    ∃ y ∈ r, f x = some y :=
  forall₂_exists_left (forall₂_of_mapM h).flip hx

end FoldM

theorem map_result_eq {α : Type*} (f : α → β) {o : Option α} {a : α} {b : β} (h : o = some a)
    (hb : o.map f = some b) : f a = b := by
  subst h
  exact some.inj hb

/-- Lists with the same sums are permutations of each other. -/
theorem perm_of_sums {α : Type*} {l l' : List α}
    (h : ∀ v : α → Nat, (l.map v).sum = (l'.map v).sum) : l.Perm l' := by
  classical
  have hcnt : ∀ (l : List α) (a : α),
      l.count a = (l.map fun b => if b = a then 1 else 0).sum := by
    intro l a
    induction l with
    | nil => rfl
    | cons b l ih =>
      rw [count_cons, ih, map_cons, sum_cons, Nat.add_comm]
      simp only [beq_iff_eq]
  rw [perm_iff_count]
  intro a
  rw [hcnt, hcnt, h]

theorem find?_fst_of_nodup [DecidableEq α] {l : List (α × β)} {c : α × β}
    (hl : (l.map Prod.fst).Nodup) (hc : c ∈ l) : l.find? (·.1 = c.1) = some c := by
  cases h : l.find? (·.1 = c.1) with
  | none => simpa using List.find?_eq_none.mp h c hc
  | some d =>
    have hd : d.1 = c.1 := by simpa using List.find?_some h
    rw [inj_on_of_nodup_map hl (mem_of_find?_eq_some h) hc hd]

end Caffeine
