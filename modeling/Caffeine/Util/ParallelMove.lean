import Mathlib.Data.List.Pairwise
import Mathlib.Logic.Function.Basic

/-!
# Moves in sequence and in parallel

A move copies a variable or a constant to a variable. A list of moves can be executed one after
the other or all at once; the two differ when a move reads a variable that an earlier move has
changed.
-/

namespace ParallelMove

open List Option Function

variable {α β : Type*}

abbrev Env (α β : Type*) := α → Option β

structure Move (α β : Type*) where
  dst : α
  src : α ⊕ β

def eval (env : Env α β) : α ⊕ β → Option β :=
  Sum.elim env some

/-- All sources are read before any destination is written. -/
def Parallel (moves : List (Move α β)) (env env' : Env α β) : Prop :=
  ∀ m ∈ moves, env' m.dst = eval env m.src

/-- No move reads a destination that an earlier move changes. -/
def Independent (moves : List (Move α β)) (env : Env α β) : Prop :=
  moves.Pairwise fun earlier later =>
    later.src = .inl earlier.dst → env earlier.dst = eval env earlier.src

def Defined (moves : List (Move α β)) (env : Env α β) : Prop :=
  ∀ m ∈ moves, (eval env m.src).isSome

variable [DecidableEq α]

def sequential : List (Move α β) → Env α β → Option (Env α β)
  | [], env => some env
  | m :: moves, env => (eval env m.src).bind fun value =>
    sequential moves (update env m.dst (some value))

variable {moves : List (Move α β)} {env env' : Env α β}

variable {x : α} {m : Move α β} {value : β}

theorem eval_update_of_ne {src : α ⊕ β} (h : src ≠ .inl x) (value : Option β) :
    eval (update env x value) src = eval env src := by
  cases src with
  | inl y =>
    have hne : y ≠ x := fun hy => h (congrArg Sum.inl hy)
    exact update_of_ne hne value env
  | inr b => rfl

theorem eval_update_isSome {src : α ⊕ β} (h : (eval env src).isSome) (value : β) :
    (eval (update env x (some value)) src).isSome := by
  by_cases hx : src = .inl x
  · subst hx
    simp [eval]
  · rwa [eval_update_of_ne hx]

theorem Defined.update (h : Defined (m :: moves) env) (value : β) :
    Defined moves (update env m.dst (some value)) :=
  fun n hn => eval_update_isSome (h n (mem_cons_of_mem m hn)) value

theorem exists_sequential (h : Defined moves env) : ∃ env', sequential moves env = some env' := by
  induction moves generalizing env with
  | nil => exact ⟨env, rfl⟩
  | cons m moves ih =>
    obtain ⟨value, hval⟩ := isSome_iff_exists.mp (h m mem_cons_self)
    obtain ⟨env', henv'⟩ := ih (h.update value)
    exact ⟨env', bind_eq_some_iff.mpr ⟨value, hval, henv'⟩⟩

theorem sequential_frame (h : sequential moves env = some env') (hx : x ∉ moves.map Move.dst) :
    env' x = env x := by
  induction moves generalizing env with
  | nil =>
    cases h
    rfl
  | cons m moves ih =>
    obtain ⟨value, -, hrest⟩ := bind_eq_some_iff.mp h
    rw [map_cons, mem_cons, not_or] at hx
    rw [ih hrest hx.2, update_of_ne hx.1]

theorem sequential_copies (h : sequential moves env = some env') (hnd : (moves.map Move.dst).Nodup)
    (hx : x ∉ moves.map Move.dst) (hm : m ∈ moves) (hsrc : m.src = .inl x) :
    env' m.dst = env x := by
  induction moves generalizing env with
  | nil => cases hm
  | cons k moves ih =>
    obtain ⟨value, hval, hrest⟩ := bind_eq_some_iff.mp h
    rw [map_cons, nodup_cons] at hnd
    rw [map_cons, mem_cons, not_or] at hx
    rcases mem_cons.mp hm with rfl | hm
    · rw [hsrc] at hval
      rw [sequential_frame hrest hnd.1, update_self]
      exact hval.symm
    · rw [ih hrest hnd.2 hx.2 hm, update_of_ne hx.1]

/-- If the later moves do not notice the first one, they read the same without it. -/
theorem eval_update_of_independent {n : Move α β} (hval : eval env m.src = some value)
    (h : n.src = .inl m.dst → env m.dst = eval env m.src) :
    eval (update env m.dst (some value)) n.src = eval env n.src := by
  by_cases hn : n.src = .inl m.dst
  · have hsame := h hn
    rw [hn]
    change update env m.dst (some value) m.dst = env m.dst
    rw [update_self, hsame, hval]
  · exact eval_update_of_ne hn _

theorem independent_update (hval : eval env m.src = some value) (hfr : m.dst ∉ moves.map Move.dst)
    (hhead : ∀ n ∈ moves, n.src = .inl m.dst → env m.dst = eval env m.src) :
    Independent moves (update env m.dst (some value)) ↔ Independent moves env := by
  refine Pairwise.iff_of_mem fun {a b} ha _ => ?_
  have hne : a.dst ≠ m.dst := fun h => hfr (h ▸ List.mem_map_of_mem ha)
  rw [update_of_ne hne, eval_update_of_independent hval (hhead a ha)]

theorem parallel_update (hval : eval env m.src = some value)
    (hhead : ∀ n ∈ moves, n.src = .inl m.dst → env m.dst = eval env m.src) :
    Parallel moves (update env m.dst (some value)) env' ↔ Parallel moves env env' :=
  forall₂_congr fun n hn => by rw [eval_update_of_independent hval (hhead n hn)]

/-- Moves to distinct variables can be executed in turn exactly if none reads what an earlier one
has changed. -/
theorem parallel_iff_independent (hnd : (moves.map Move.dst).Nodup)
    (hseq : sequential moves env = some env') :
    Parallel moves env env' ↔ Independent moves env := by
  induction moves generalizing env with
  | nil => exact iff_of_true (fun m hm => absurd hm not_mem_nil) .nil
  | cons m moves ih =>
    obtain ⟨value, hval, hrest⟩ := bind_eq_some_iff.mp hseq
    rw [map_cons, nodup_cons] at hnd
    have hdst : env' m.dst = eval env m.src := by
      rw [sequential_frame hrest hnd.1, update_self, hval]
    have hcons : Parallel (m :: moves) env env' ↔ Parallel moves env env' := by
      rw [Parallel, forall_mem_cons, and_iff_right hdst, Parallel]
    rw [hcons, Independent, pairwise_cons]
    by_cases hhead : ∀ n ∈ moves, n.src = .inl m.dst → env m.dst = eval env m.src
    · rw [and_iff_right hhead, ← parallel_update hval hhead, ih hnd.2 hrest,
        independent_update hval hnd.1 hhead, Independent]
    · refine iff_of_false (fun hpar => hhead fun n hn hsrc => ?_) fun h => hhead h.1
      have hcopy := sequential_copies hrest hnd.2 hnd.1 hn hsrc
      rw [update_self, hpar n hn, hsrc] at hcopy
      rw [hval]
      exact hcopy

end ParallelMove
