import Caffeine.Interpreter.Store.ThreadQueueStore

/-!
# What the steps of the work-stealing store keep

The counter `size` is changed before a context is pushed and after one is popped, so it is the
number of contexts in the queues and between these operations, and never too small. No step loses a
context or makes two of one.
-/

open Function

namespace Caffeine

open List Option

namespace ThreadQueueStore

variable {α : Type} {n : Nat} {s s' : State α n} {a : Action α n} {worker : Fin n}

inductive Moves (s : State α n) : Action α n → State α n → Prop
  | create {worker : Fin n} {held : Option α} (h : s.positions worker = .outside held) :
    Moves s (.create worker) (s.setQueue (some worker) (s.queue (some worker)))
  | add {worker : Fin n} {held : Option α} {ctxs : List α}
    (h : s.positions worker = .outside held) : Moves s (.add worker ctxs)
      ((s.move worker (.pushing held ctxs)).setSize (s.size + ctxs.length))
  | push {worker : Fin n} {held : Option α} {ctxs : List α}
    (h : s.positions worker = .pushing held ctxs) : Moves s (.next worker)
      ((s.setQueue (some worker) (s.queue (some worker) ++ ctxs)).move worker (.outside held))
  | dequeue {worker : Fin n} {held : Option α} {queue : List α} {ctx : α}
    (h : s.positions worker = .outside held) (hq : s.queue (some worker) = queue ++ [ctx]) :
    Moves s (.next worker) ((s.setQueue (some worker) queue).move worker (.dequeued ctx))
  | miss {worker : Fin n} {held : Option α} (h : s.positions worker = .outside held)
    (hq : s.queue (some worker) = []) : Moves s (.next worker) (s.move worker .missed)
  | take {worker : Fin n} {ctx : α} (h : s.positions worker = .dequeued ctx) :
    Moves s (.next worker)
      (((s.move worker (.outside (some ctx))).setSize (s.size - 1)).log worker ctx)
  | count {worker : Fin n} (h : s.positions worker = .missed) : Moves s (.next worker)
      ((s.move worker (.counted (s.free - 1))).setFree (s.free - 1))
  | idle {worker : Fin n} (h : s.positions worker = .counted 0) (hsize : s.size = 0) :
    Moves s (.next worker) (s.move worker .ending)
  | busy {worker : Fin n} {cfree : Nat} (h : s.positions worker = .counted cfree)
    (hbusy : ¬ (cfree = 0 ∧ s.size = 0)) : Moves s (.next worker) (s.move worker .stealing)
  | stop {worker : Fin n} (h : s.positions worker = .ending) :
    Moves s (.next worker) (s.move worker (.returning none)).setDone
  | leave {worker : Fin n} (h : s.positions worker = .stealing) (hdone : s.done = true) :
    Moves s (.next worker) (s.move worker (.returning none))
  | pick {worker : Fin n} (h : s.positions worker = .stealing) (hdone : s.done = false) :
    Moves s (.next worker) (s.move worker .picking)
  | wait {worker : Fin n} {victim : Thread n} (h : s.positions worker = .picking)
    (hq : s.queue victim = []) : Moves s (.steal worker victim) (s.move worker .stealing)
  | steal {worker : Fin n} {victim : Thread n} {ctx : α} {queue : List α}
    (h : s.positions worker = .picking) (hq : s.queue victim = ctx :: queue)
    (hlock : ¬ s.Locked victim) : Moves s (.steal worker victim)
      ((s.setQueue victim queue).move worker (.stolen ctx))
  | discount {worker : Fin n} {ctx : α} (h : s.positions worker = .stolen ctx) :
    Moves s (.next worker) ((s.move worker (.returning (some ctx))).setSize (s.size - 1))
  | answer {worker : Fin n} {ctx : α} (h : s.positions worker = .returning (some ctx)) :
    Moves s (.next worker)
      (((s.move worker (.outside (some ctx))).setFree (s.free + 1)).log worker ctx)
  | exit {worker : Fin n} (h : s.positions worker = .returning none) :
    Moves s (.next worker) ((s.move worker .exited).setFree (s.free + 1))
  | shutdown : Moves s .shutdown s.setDone

theorem next_moves (h : next s worker = some s') : Moves s (.next worker) s' := by
  unfold next at h
  split at h
  · rename_i held hpos
    split at h
    · rename_i ctx hlast
      cases h
      obtain ⟨queue, hqueue⟩ := List.getLast?_eq_some_iff.mp hlast
      rw [hqueue, dropLast_concat]
      exact .dequeue hpos hqueue
    · rename_i hlast
      cases h
      exact .miss hpos (List.getLast?_eq_none_iff.mp hlast)
  · cases h
    exact .push ‹_›
  · cases h
    exact .take ‹_›
  · cases h
    exact .count ‹_›
  · rename_i cfree hpos
    split_ifs at h with hidle
    · cases h
      obtain ⟨rfl, hsize⟩ := hidle
      exact .idle hpos hsize
    · cases h
      exact .busy hpos hidle
  · cases h
    exact .stop ‹_›
  · split_ifs at h with hdone
    · cases h
      exact .leave ‹_› hdone
    · cases h
      exact .pick ‹_› (Bool.not_eq_true _ ▸ hdone)
  · cases h
  · cases h
    exact .discount ‹_›
  · cases h
    exact .answer ‹_›
  · cases h
    exact .exit ‹_›
  · cases h

theorem steal_moves {victim : Thread n} (h : steal s worker victim = some s') :
    Moves s (.steal worker victim) s' := by
  unfold steal at h
  split at h
  · rename_i queue hpos hqueue
    split_ifs at h with hlock
    cases queue with
    | nil =>
      cases h
      exact .wait hpos (by rw [State.queue, hqueue, getD_some])
    | cons ctx queue =>
      cases h
      exact .steal hpos (by rw [State.queue, hqueue, getD_some]) hlock
  · cases h

theorem step_moves (h : step s a = some s') : Moves s a s' := by
  cases a with
  | create worker =>
    simp only [step, getThreadQueue] at h
    split at h
    · cases h
      exact .create ‹_›
    · cases h
  | add worker ctxs =>
    simp only [step, add] at h
    split at h
    · cases h
      exact .add ‹_›
    · cases h
  | next worker => exact next_moves h
  | steal worker victim => exact steal_moves h
  | shutdown =>
    cases h
    exact .shutdown

/-! ### What a step leaves alone -/

def Action.actor : Action α n → Option (Fin n)
  | .create worker => some worker
  | .add worker _ => some worker
  | .next worker => some worker
  | .steal worker _ => some worker
  | .shutdown => none

theorem State.queue_setQueue (s : State α n) (thread t : Thread n) (q : List α) :
    (s.setQueue thread q).queue t = if t = thread then q else s.queue t := by
  simp only [State.queue, State.setQueue]
  by_cases h : t = thread
  · subst h
    rw [if_pos rfl, update_self, getD_some]
  · rw [if_neg h, update_of_ne h]

theorem Moves.frame (h : Moves s a s') {w : Fin n} (hw : a.actor ≠ some w) :
    s'.positions w = s.positions w := by
  cases h with
  | create h | shutdown => rfl
  | _ => exact update_of_ne (fun heq => hw (congrArg some heq.symm)) _ _

theorem Moves.shrinks (h : Moves s a s') (t : Thread n) : (s'.queue t).Sublist (s.queue t) ∨
      ∃ worker held ctxs, t = some worker ∧ s.positions worker = .pushing held ctxs ∧
        s'.positions worker = .outside held := by
  cases h with
  | @create worker held h =>
    left
    rw [State.queue_setQueue]
    split_ifs with ht
    · rw [ht]
    · exact Sublist.refl _
  | @push worker held ctxs h =>
    by_cases ht : t = some worker
    · exact .inr ⟨worker, held, ctxs, ht, h, update_self _ _ _⟩
    · left
      change ((s.setQueue (some worker) _).queue t).Sublist _
      rw [State.queue_setQueue, if_neg ht]
  | @dequeue worker held queue ctx h hq =>
    left
    change ((s.setQueue (some worker) queue).queue t).Sublist _
    rw [State.queue_setQueue]
    split_ifs with ht
    · rw [ht, hq]
      exact sublist_append_left queue [ctx]
    · exact Sublist.refl _
  | @steal worker victim ctx queue h hq hlock =>
    left
    change ((s.setQueue victim queue).queue t).Sublist _
    rw [State.queue_setQueue]
    split_ifs with ht
    · rw [ht, hq]
      exact sublist_cons_self ctx queue
    · exact Sublist.refl _
  | _ => exact .inl (Sublist.refl _)

theorem Moves.queue_nil (h : Moves s a s') {t : Thread n} (ht : s.queue t = [])
    (hpush : ∀ worker held ctxs, t = some worker → s.positions worker = .pushing held ctxs →
      s'.positions worker ≠ .outside held) : s'.queue t = [] := by
  obtain hsub | ⟨worker, held, ctxs, hworker, hbef, haft⟩ := h.shrinks t
  · rw [ht] at hsub
    exact sublist_nil.mp hsub
  · exact absurd haft (hpush worker held ctxs hworker hbef)

/-! ### Sums over queues and workers -/

/-- What the contexts a worker has popped or will push add to a sum, if `size` counts them. -/
def Position.stored (v : α → Nat) : Position α → Nat
  | .pushing _ ctxs => (ctxs.map v).sum
  | .dequeued ctx => v ctx
  | .stolen ctx => v ctx
  | _ => 0

/-- What a stolen context adds to a sum when `size` no longer counts it. -/
def Position.taken (v : α → Nat) : Position α → Nat
  | .returning (some ctx) => v ctx
  | _ => 0

def State.stored (v : α → Nat) (s : State α n) : Nat :=
  ∑ thread, (((s.queues thread).getD []).map v).sum + ∑ worker, (s.positions worker).stored v

/-- The sum over the other contexts, which a thief returns or a worker has been given. -/
def State.taken (v : α → Nat) (s : State α n) : Nat :=
  ∑ worker, (s.positions worker).taken v + (s.returned.map fun entry => v entry.2).sum

inductive Change (v : α → Nat) (s : State α n) (added : List α) (s' : State α n) : Prop
  | adds (stored : s'.stored v = s.stored v + (added.map v).sum) (taken : s'.taken v = s.taken v)
    (size : s'.size = s.size + added.length)
  | takes (ctx : α) (stored : s'.stored v + v ctx = s.stored v)
    (taken : s'.taken v = s.taken v + v ctx) (size : s'.size = s.size - 1) (none : added = [])

section Sums

variable (v : α → Nat)

@[simp] theorem State.stored_setSize (count : Nat) : (s.setSize count).stored v = s.stored v := rfl
@[simp] theorem State.stored_setFree (count : Nat) : (s.setFree count).stored v = s.stored v := rfl
@[simp] theorem State.stored_log (ctx : α) : (s.log worker ctx).stored v = s.stored v := rfl
@[simp] theorem State.taken_setSize (count : Nat) : (s.setSize count).taken v = s.taken v := rfl
@[simp] theorem State.taken_setFree (count : Nat) : (s.setFree count).taken v = s.taken v := rfl

@[simp] theorem State.taken_log (ctx : α) : (s.log worker ctx).taken v = s.taken v + v ctx := by
  simp only [State.taken, State.log, map_append, map_cons, map_nil, sum_append, sum_cons, sum_nil]
  omega

theorem State.stored_move (s : State α n) (worker : Fin n) (p : Position α) :
    (s.move worker p).stored v + (s.positions worker).stored v = s.stored v + p.stored v := by
  have h := Runs.sum_update_add s.positions (Position.stored v) worker p
  simp only [State.stored, State.move]
  omega

theorem State.stored_put (s : State α n) (thread : Thread n) (q : List α) (worker : Fin n)
    (p : Position α) : ((s.setQueue thread q).move worker p).stored v +
        ((s.queue thread).map v).sum + (s.positions worker).stored v =
      s.stored v + (q.map v).sum + p.stored v := by
  have hqueue := Runs.sum_update_add s.queues (fun q => ((q.getD []).map v).sum) thread (some q)
  have hmove := Runs.sum_update_add s.positions (Position.stored v) worker p
  simp only [State.stored, State.move, State.setQueue, State.queue, getD_some] at hqueue ⊢
  omega

theorem State.taken_move (s : State α n) (worker : Fin n) (p : Position α) :
    (s.move worker p).taken v + (s.positions worker).taken v = s.taken v + p.taken v := by
  have h := Runs.sum_update_add s.positions (Position.taken v) worker p
  simp only [State.taken, State.move]
  omega

theorem State.taken_put (s : State α n) (thread : Thread n) (q : List α) (worker : Fin n)
    (p : Position α) : ((s.setQueue thread q).move worker p).taken v +
      (s.positions worker).taken v = s.taken v + p.taken v :=
  State.taken_move v s worker p

theorem Change.of_move {p : Position α} (hq : s'.queues = s.queues)
    (hp : s'.positions = update s.positions worker p) (hr : s'.returned = s.returned)
    (hsize : s'.size = s.size) (hs : p.stored v = (s.positions worker).stored v)
    (ht : p.taken v = (s.positions worker).taken v) : Change v s [] s' := by
  have hstored := State.stored_move v s worker p
  have htaken := State.taken_move v s worker p
  simp only [State.stored, State.taken, State.move, ← hq, ← hp, ← hr] at hstored htaken
  refine .adds ?_ ?_ hsize
  · simp only [State.stored, map_nil, sum_nil, ← hq]
    omega
  · simp only [State.taken, ← hr]
    omega

theorem Moves.change (h : Moves s a s') : Change v s a.added s' := by
  cases h with
  | @create worker held h =>
    have hstored := Runs.sum_update_add s.queues (fun q => ((q.getD []).map v).sum) (some worker)
      (some (s.queue (some worker)))
    refine .adds ?_ rfl rfl
    simp only [State.stored, State.setQueue, State.queue, getD_some, Action.added,
      map_nil, sum_nil] at hstored ⊢
    omega
  | @add worker held ctxs h =>
    have hstored := State.stored_move v s worker (.pushing held ctxs)
    have htaken := State.taken_move v s worker (.pushing held ctxs)
    simp only [h, Position.stored, Position.taken] at hstored htaken
    refine .adds ?_ ?_ rfl
    · rw [State.stored_setSize, Action.added]
      omega
    · rw [State.taken_setSize]
      omega
  | @push worker held ctxs h =>
    have hstored := State.stored_put v s (some worker) (s.queue (some worker) ++ ctxs) worker
      (.outside held)
    have htaken := State.taken_put v s (some worker) (s.queue (some worker) ++ ctxs) worker
      (.outside held)
    simp only [h, Position.stored, Position.taken, map_append, sum_append]
      at hstored htaken
    refine .adds ?_ ?_ rfl
    · simp only [Action.added, map_nil, sum_nil]
      omega
    · omega
  | @dequeue worker held queue ctx h hq =>
    have hstored := State.stored_put v s (some worker) queue worker (.dequeued ctx)
    have htaken := State.taken_put v s (some worker) queue worker (.dequeued ctx)
    simp only [h, hq, Position.stored, Position.taken, map_append, sum_append,
      map_cons, map_nil, sum_cons, sum_nil] at hstored htaken
    refine .adds ?_ ?_ rfl
    · simp only [Action.added, map_nil, sum_nil]
      omega
    · omega
  | @steal worker victim ctx queue h hq hlock =>
    have hstored := State.stored_put v s victim queue worker (.stolen ctx)
    have htaken := State.taken_put v s victim queue worker (.stolen ctx)
    simp only [h, hq, Position.stored, Position.taken, map_cons, sum_cons]
      at hstored htaken
    refine .adds ?_ ?_ rfl
    · simp only [Action.added, map_nil, sum_nil]
      omega
    · omega
  | @take worker ctx h =>
    have hstored := State.stored_move v s worker (.outside (some ctx))
    have htaken := State.taken_move v s worker (.outside (some ctx))
    simp only [h, Position.stored, Position.taken] at hstored htaken
    refine .takes ctx ?_ ?_ rfl rfl
    · rw [State.stored_log, State.stored_setSize]
      omega
    · rw [State.taken_log, State.taken_setSize]
      omega
  | @discount worker ctx h =>
    have hstored := State.stored_move v s worker (.returning (some ctx))
    have htaken := State.taken_move v s worker (.returning (some ctx))
    simp only [h, Position.stored, Position.taken] at hstored htaken
    refine .takes ctx ?_ ?_ rfl rfl
    · rw [State.stored_setSize]
      omega
    · rw [State.taken_setSize]
      omega
  | @answer worker ctx h =>
    have hstored := State.stored_move v s worker (.outside (some ctx))
    have htaken := State.taken_move v s worker (.outside (some ctx))
    simp only [h, Position.stored, Position.taken] at hstored htaken
    refine .adds ?_ ?_ rfl
    · simp only [State.stored_log, State.stored_setFree, Action.added, map_nil, sum_nil]
      omega
    · rw [State.taken_log, State.taken_setFree]
      omega
  | miss h | idle h | busy h | leave h | pick h | wait h | count h | stop h | exit h =>
    exact .of_move v rfl rfl rfl rfl (by rw [h]; rfl) (by rw [h]; rfl)
  | shutdown => exact .adds rfl rfl rfl

end Sums

theorem Moves.size_eq (h : Moves s a s') (hs : s.size = s.stored fun _ => 1) :
    s'.size = s'.stored fun _ => 1 := by
  obtain ⟨hstored, -, hsize⟩ | ⟨ctx, hstored, -, hsize, -⟩ := h.change fun _ => 1
  · simp only [map_const', sum_replicate_nat, Nat.mul_one] at hstored
    omega
  · omega

def Conserved (added : List α) (s : State α n) : Prop :=
  ∀ v : α → Nat, s.stored v + s.taken v = (added.map v).sum

theorem Moves.conserved {added : List α} (h : Moves s a s') (hs : Conserved added s) :
    Conserved (added ++ a.added) s' := by
  intro v
  have hv := hs v
  rw [map_append, sum_append]
  obtain ⟨hstored, htaken, -⟩ | ⟨ctx, hstored, htaken, -, hnone⟩ := h.change v
  · omega
  · simp only [hnone, map_nil, sum_nil]
    omega

theorem initial_stored (v : α → Nat) (ctxs : List α) :
    (initial n ctxs).stored v = (ctxs.map v).sum := by
  have hqueue : ∀ thread : Thread n, (((initial n ctxs).queues thread).getD []) =
      if thread = none then ctxs else [] := by
    intro thread
    by_cases hctxs : ctxs = []
    · simp [initial, hctxs]
    · by_cases hthread : thread = none <;> simp [initial, hctxs, hthread]
  have hsum : ∀ thread : Thread n, ((if thread = none then ctxs else []).map v).sum =
      if thread = none then (ctxs.map v).sum else 0 := by
    intro thread
    by_cases hthread : thread = none <;> simp [hthread]
  have hpos : ∑ worker, ((initial n ctxs).positions worker).stored v = 0 :=
    Finset.sum_eq_zero fun worker _ => rfl
  rw [State.stored, hpos, Nat.add_zero]
  simp only [hqueue, hsum, Finset.sum_ite_eq', Finset.mem_univ, if_true]

theorem initial_conserved (ctxs : List α) : Conserved ctxs (initial n ctxs) := by
  intro v
  have htaken : (initial n ctxs).taken v = 0 := by
    have hpos : ∑ worker, ((initial n ctxs).positions worker).taken v = 0 :=
      Finset.sum_eq_zero fun worker _ => rfl
    rw [State.taken, hpos]
    rfl
  rw [htaken, initial_stored, Nat.add_zero]

theorem queue_eq_nil (hs : s.size = s.stored fun _ => 1) (hzero : s.size = 0) (thread : Thread n) :
    s.queue thread = [] := by
  have hsum : ∑ t, (((s.queues t).getD []).map fun _ => 1).sum = 0 := by
    rw [hs, State.stored] at hzero
    omega
  have hthread := (Finset.sum_eq_zero_iff.mp hsum) thread (Finset.mem_univ _)
  rw [map_const', sum_replicate_nat, Nat.mul_one] at hthread
  exact eq_nil_of_length_eq_zero hthread

end ThreadQueueStore

end Caffeine
