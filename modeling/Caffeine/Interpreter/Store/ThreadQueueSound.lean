import Caffeine.Interpreter.Store.ThreadQueueSteps

/-!
# The work-stealing store loses nothing, but stops too early

A worker leaves only after it has found its own queue empty, and `done` is set only after `size` was
read as zero, when the queue of the first thread is empty for good. So every context is returned,
although `done` may be set while a thief still holds one: between the steal and the increment of
`free` it counts as idle.
-/

open Function Option

namespace Caffeine

namespace ThreadQueueStore

variable {α : Type} {n : Nat} {s s' : State α n} {a : Action α n} {worker : Fin n}

/-! ### Nothing is lost -/

/-- The worker has found its own queue empty in the call it is in, or it has left. -/
def Position.Missed : Position α → Prop
  | .outside _ | .pushing _ _ | .dequeued _ => False
  | .missed | .counted _ | .ending | .stealing | .picking | .stolen _ | .returning _ | .exited =>
    True

def Position.Leaving : Position α → Prop
  | .returning none | .exited => True
  | _ => False

structure Orderly (s : State α n) : Prop where
  size : s.size = s.stored fun _ => 1
  own : ∀ worker, (s.positions worker).Missed → s.queue (some worker) = []
  first : (s.done = true ∨ ∃ worker, s.positions worker = .ending) → s.queue none = []
  done : ∀ worker, (s.positions worker).Leaving → s.done = true

theorem initial_orderly (ctxs : List α) : Orderly (initial n ctxs) where
  size := by
    rw [initial_stored, List.map_const', List.sum_replicate_nat, Nat.mul_one]
    rfl
  own _ h := absurd h id
  first := by
    rintro (h | ⟨worker, h⟩)
    · cases h
    · cases h
  done _ h := absurd h id

theorem Moves.done_mono (h : Moves s a s') (hdone : s.done = true) : s'.done = true := by
  cases h with
  | stop h | shutdown => rfl
  | _ => exact hdone

variable {w : Fin n} {p : Position α}

theorem Moves.missed_from (h : Moves s a s') (hw : (s'.positions w).Missed) :
    (s.positions w).Missed ∨ s.queue (some w) = [] := by
  by_cases hact : a.actor = some w
  · cases h with
    | create h => exact .inl hw
    | shutdown => cases hact
    | miss h hq =>
      obtain rfl := some.inj hact
      exact .inr hq
    | add h | push h | dequeue h | take h | answer h =>
      obtain rfl := some.inj hact
      change (update s.positions _ _ _).Missed at hw
      rw [update_self] at hw
      exact absurd hw id
    | count h | idle h | busy h | stop h | leave h | pick h | wait h | steal h | discount h
    | exit h =>
      obtain rfl := some.inj hact
      exact .inl (by rw [h]; trivial)
  · rw [h.frame hact] at hw
    exact .inl hw

theorem Moves.ending (h : Moves s a s') (hw : s'.positions w = .ending) :
    s.positions w = .ending ∨ s.size = 0 := by
  by_cases hact : a.actor = some w
  · cases h with
    | create h => exact .inl hw
    | shutdown => cases hact
    | idle h hsize => exact .inr hsize
    | _ =>
      obtain rfl := some.inj hact
      change update s.positions _ _ _ = _ at hw
      rw [update_self] at hw
      cases hw
  · rw [h.frame hact] at hw
    exact .inl hw

theorem Moves.done_from (h : Moves s a s') (ha : a ≠ .shutdown) (hdone : s'.done = true) :
    s.done = true ∨ ∃ worker, s.positions worker = .ending := by
  cases h with
  | stop h => exact .inr ⟨_, h⟩
  | shutdown => exact absurd rfl ha
  | _ => exact .inl hdone

theorem Moves.leaving (h : Moves s a s') (hw : (s'.positions w).Leaving) :
    (s.positions w).Leaving ∨ s'.done = true := by
  by_cases hact : a.actor = some w
  · cases h with
    | create h => exact .inl hw
    | shutdown => cases hact
    | stop h => exact .inr rfl
    | leave h hdone => exact .inr hdone
    | exit h =>
      obtain rfl := some.inj hact
      exact .inl (by rw [h]; trivial)
    | _ =>
      obtain rfl := some.inj hact
      change (update s.positions _ _ _).Leaving at hw
      rw [update_self] at hw
      exact absurd hw id
  · rw [h.frame hact] at hw
    exact .inl hw

theorem Moves.orderly (h : Moves s a s') (ha : a ≠ .shutdown) (hs : Orderly s) : Orderly s' where
  size := h.size_eq hs.size
  own w hw := by
    have hqueue : s.queue (some w) = [] := (h.missed_from hw).elim (hs.own w) id
    refine h.queue_nil hqueue ?_
    rintro _ held _ ⟨⟩ - hpos
    rw [hpos] at hw
    exact hw
  first hs' := by
    have hfst : s.queue none = [] := by
      rcases hs' with hdone | ⟨w, hw⟩
      · exact hs.first (h.done_from ha hdone)
      · rcases h.ending hw with hending | hsize
        · exact hs.first (.inr ⟨w, hending⟩)
        · exact queue_eq_nil hs.size hsize none
    exact h.queue_nil hfst (by rintro _ _ _ ⟨⟩)
  done w hw := by
    rcases h.leaving hw with hleaving | hdone
    · exact h.done_mono (hs.done w hleaving)
    · exact hdone

theorem run_orderly {ctxs : List α} {actions : List (Action α n)} (ha : .shutdown ∉ actions)
    (h : Runs.run step (initial n ctxs) actions = some s) : Orderly s := by
  refine Runs.run_invariant (P := fun _ a => a ≠ .shutdown) (fun s a s' ha hstep hs => ?_)
    (Runs.along_of_forall fun a hmem => ?_) h (initial_orderly ctxs)
  · exact (step_moves hstep).orderly ha hs
  · rintro rfl
    exact ha hmem

theorem run_conserved {ctxs : List α} {actions : List (Action α n)}
    (h : Runs.run step (initial n ctxs) actions = some s) :
    Conserved (ctxs ++ actions.flatMap Action.added) s :=
  Runs.run_log Action.added (fun _ _ _ _ hstep hs => (step_moves hstep).conserved hs) h
    (initial_conserved ctxs)

theorem Orderly.stored_eq_zero (hs : Orderly s) (hn : 0 < n)
    (hexit : ∀ worker, s.positions worker = .exited) (v : α → Nat) :
    s.stored v = 0 ∧ s.taken v = (s.returned.map fun entry => v entry.2).sum := by
  have hdone : s.done = true := hs.done ⟨0, hn⟩ (by rw [hexit]; trivial)
  have hqueue : ∀ thread, (s.queues thread).getD [] = [] := by
    rintro (_ | worker)
    · exact hs.first (.inl hdone)
    · exact hs.own worker (by rw [hexit]; trivial)
  constructor
  · simp [State.stored, hqueue, hexit, Position.stored]
  · simp [State.taken, hexit, Position.taken]

/-- Every context is returned once: at the end what was returned is a permutation of what was
added. -/
theorem returned_perm_added (hn : 0 < n) (ctxs : List α) (actions : List (Action α n))
    (ha : .shutdown ∉ actions) (h : Runs.run step (initial n ctxs) actions = some s)
    (hexit : ∀ worker, s.positions worker = .exited) :
    (s.returned.map Prod.snd).Perm (ctxs ++ actions.flatMap Action.added) := by
  refine perm_of_sums fun v => ?_
  obtain ⟨hstored, htaken⟩ := (run_orderly ha h).stored_eq_zero hn hexit v
  rw [← run_conserved h v, hstored, htaken, List.map_map, Nat.zero_add]
  rfl

/-- A thief takes the first context, executes it and adds another one. -/
def sampleRun (a b : Fin 2) : List (Action Nat 2) :=
  [.next a, .next a, .next a, .next a, .steal a none, .next a, .next a, .create a, .add a [8],
    .next a, .next b, .next b, .next b, .next b, .next a, .next a, .next a, .next a, .next a,
    .next a, .next a, .steal b none, .next b, .next b]

/-- One worker executes the context it has stolen and adds another, which it is given back; the
other finds nothing. -/
theorem returned_perm_added_two :
    ∃ s : State Nat 2, Runs.run step (initial 2 [7]) (sampleRun 0 1) = some s ∧
      (s.returned.map Prod.snd).Perm ([7] ++ (sampleRun 0 1).flatMap Action.added) := by
  obtain ⟨s, hs, hexit⟩ := map_eq_some_iff.mp
    (show (Runs.run step (initial 2 [7]) (sampleRun 0 1)).map
      (fun s => decide (∀ worker, s.positions worker = .exited)) = some true by decide +kernel)
  exact ⟨s, hs, returned_perm_added (by decide) [7] (sampleRun 0 1) (by decide) hs
    (of_decide_eq_true hexit)⟩

/-! ### When the store stops -/

namespace Position

/-- The worker counts as free: `free` is not decremented for it, or incremented again. -/
def active : Position α → Nat
  | .outside _ | .pushing _ _ | .dequeued _ | .missed | .exited => 1
  | .counted _ | .ending | .stealing | .picking | .stolen _ | .returning _ => 0

/-- The worker has stolen a context and does not yet count as free. -/
def thief : Position α → Bool
  | .stolen _ | .returning (some _) => true
  | _ => false

/-- The worker is between its decrement of `free` and its decision to stop or to steal. -/
def deciding : Position α → Bool
  | .counted _ | .ending => true
  | _ => false

/-- The worker was the last one to be blocked and may stop the store. -/
def Stopping : Position α → Prop
  | .counted cfree => cfree = 0
  | .ending => True
  | _ => False

def Quiet : Position α → Prop
  | .counted _ | .ending | .stealing | .picking | .returning none | .exited => True
  | .outside _ | .pushing _ _ | .dequeued _ | .missed | .stolen _ | .returning (some _) => False

theorem Stopping.deciding (h : p.Stopping) : p.deciding = true := by
  cases p with
  | counted cfree | ending => rfl
  | _ => exact absurd h id

theorem quiet_of_blocked (hactive : p.active = 0) (hthief : p.thief = false) : p.Quiet := by
  cases p with
  | outside held | pushing held ctxs | dequeued ctx | missed | exited => cases hactive
  | stolen ctx => cases hthief
  | returning result =>
    cases result with
    | none => trivial
    | some ctx => cases hthief
  | counted cfree | ending | stealing | picking => trivial

end Position

def Idle (s : State α n) : Prop :=
  (∀ thread, s.queue thread = []) ∧ ∀ worker, (s.positions worker).Quiet

/-- No worker decrements `free` while a thief does not yet count as free, and a thief takes no
context while a worker decides. -/
def Separate (s : State α n) : Action α n → Prop
  | .next worker => s.positions worker = .missed →
    ∀ other, (s.positions other).thief = false
  | .steal _ victim => s.queue victim ≠ [] → ∀ other, (s.positions other).deciding = false
  | .create _ | .add _ _ | .shutdown => True

instance [DecidableEq α] (s : State α n) : ∀ a, Decidable (Separate s a)
  | .next worker => inferInstanceAs (Decidable (s.positions worker = .missed → _))
  | .steal _ victim => inferInstanceAs (Decidable (s.queue victim ≠ [] → _))
  | .create _ | .add _ _ | .shutdown => .isTrue trivial

structure Settled (s : State α n) : Prop where
  orderly : Orderly s
  free : s.free = ∑ worker, (s.positions worker).active
  quiet : (s.done = true ∨ ∃ worker, (s.positions worker).Stopping) →
    ∀ worker, (s.positions worker).Quiet
  queues : (s.done = true ∨ ∃ worker, s.positions worker = .ending) →
    ∀ thread, s.queue thread = []

theorem initial_settled (ctxs : List α) : Settled (initial n ctxs) where
  orderly := initial_orderly ctxs
  free := by
    have hactive : ∀ worker, ((initial n ctxs).positions worker).active = 1 := fun _ => rfl
    simp only [hactive, Finset.sum_const, Finset.card_univ, Fintype.card_fin]
    exact (Nat.mul_one n).symm
  quiet := by
    rintro (h | ⟨worker, h⟩)
    · cases h
    · exact absurd h id
  queues := by
    rintro (h | ⟨worker, h⟩)
    · cases h
    · cases h

theorem free_move {free : Nat} (hs : s.free = ∑ worker, (s.positions worker).active)
    (hfree : free = s.free + p.active - (s.positions worker).active) :
    free = ∑ w, (update s.positions worker p w).active := by
  have hsum := Runs.sum_update_add s.positions Position.active worker p
  omega

theorem Moves.free_eq (h : Moves s a s') (hs : s.free = ∑ worker, (s.positions worker).active) :
    s'.free = ∑ worker, (s'.positions worker).active := by
  cases h with
  | create h | shutdown => exact hs
  | add h | push h | dequeue h | miss h | take h | count h | idle h | busy h | stop h | leave h
  | pick h | wait h | steal h | discount h | answer h | exit h =>
    exact free_move (s := s) hs (by rw [h]; rfl)

theorem Moves.stopping (h : Moves s a s') (hw : (s'.positions w).Stopping) :
    (s.positions w).Stopping ∨ a = .next w ∧ s.positions w = .missed ∧ s'.free = 0 := by
  by_cases hact : a.actor = some w
  · cases h with
    | create h => exact .inl hw
    | shutdown => cases hact
    | @count worker h =>
      obtain rfl := some.inj hact
      change (update s.positions worker _ worker).Stopping at hw
      rw [update_self] at hw
      exact .inr ⟨rfl, h, hw⟩
    | idle h hsize =>
      obtain rfl := some.inj hact
      exact .inl (by rw [h]; rfl)
    | _ =>
      obtain rfl := some.inj hact
      change (update s.positions _ _ _).Stopping at hw
      rw [update_self] at hw
      exact absurd hw id
  · rw [h.frame hact] at hw
    exact .inl hw

theorem Moves.quiet (h : Moves s a s') (hw : (s.positions w).Quiet)
    (hsteal : ∀ victim, a = .steal w victim → s.queue victim = []) : (s'.positions w).Quiet := by
  by_cases hact : a.actor = some w
  · cases h with
    | create h => exact hw
    | shutdown => cases hact
    | add h | push h | dequeue h | miss h | take h | count h | discount h | answer h =>
      obtain rfl := some.inj hact
      rw [h] at hw
      exact absurd hw id
    | @steal worker victim ctx queue h hq =>
      obtain rfl := some.inj hact
      rw [hsteal victim rfl] at hq
      cases hq
    | idle h | busy h | stop h | leave h | pick h | wait h | exit h =>
      obtain rfl := some.inj hact
      change (update s.positions _ _ _).Quiet
      rw [update_self]
      trivial
  · rwa [h.frame hact]

theorem Moves.quiet_of_last (h : Moves s (.next worker) s') (hs : Settled s)
    (hsep : Separate s (.next worker)) (hmissed : s.positions worker = .missed)
    (hfree : s'.free = 0) (w : Fin n) : (s'.positions w).Quiet := by
  have hsum := (h.free_eq hs.free).symm.trans hfree
  have hblocked := Finset.sum_eq_zero_iff.mp hsum w (Finset.mem_univ w)
  refine Position.quiet_of_blocked hblocked ?_
  by_cases hw : worker = w
  · subst hw
    cases h with
    | count h =>
      change (update s.positions _ _ _).thief = false
      rw [update_self]
      rfl
    | push h | dequeue h | miss h | take h | idle h | busy h | stop h | leave h | pick h
    | discount h | answer h | exit h =>
      rw [hmissed] at h
      cases h
  · rw [h.frame fun heq => hw (some.inj heq)]
    exact hsep hmissed w

theorem Moves.settled (h : Moves s a s') (ha : a ≠ .shutdown) (hsep : Separate s a)
    (hs : Settled s) : Settled s' := by
  have hquiet : (s'.done = true ∨ ∃ worker, (s'.positions worker).Stopping) →
      ∀ worker, (s'.positions worker).Quiet := by
    intro hs' w
    -- either the store was about to stop before the step, or the step blocks the last worker
    have hcases : (s.done = true ∨ ∃ worker, (s.positions worker).Stopping) ∨
        ∃ worker, a = .next worker ∧ s.positions worker = .missed ∧ s'.free = 0 := by
      rcases hs' with hdone | ⟨worker, hworker⟩
      · rcases h.done_from ha hdone with hdone | ⟨worker, hworker⟩
        · exact .inl (.inl hdone)
        · exact .inl (.inr ⟨worker, by rw [hworker]; trivial⟩)
      · rcases h.stopping hworker with hbef | hlast
        · exact .inl (.inr ⟨worker, hbef⟩)
        · exact .inr ⟨worker, hlast⟩
    rcases hcases with hbef | ⟨worker, rfl, hmissed, hfree⟩
    · refine h.quiet (hs.quiet hbef w) ?_
      rintro victim rfl
      rcases hbef with hdone | ⟨worker, hworker⟩
      · exact hs.queues (.inl hdone) victim
      · by_contra hne
        have hdeciding := hsep hne worker
        rw [hworker.deciding] at hdeciding
        cases hdeciding
    · exact h.quiet_of_last hs hsep hmissed hfree w
  refine ⟨h.orderly ha hs.orderly, h.free_eq hs.free, hquiet, fun hs' thread => ?_⟩
  have hbef : s.queue thread = [] := by
    rcases hs' with hdone | ⟨w, hw⟩
    · exact hs.queues (h.done_from ha hdone) thread
    · rcases h.ending hw with hending | hsize
      · exact hs.queues (.inr ⟨w, hending⟩) thread
      · exact queue_eq_nil hs.orderly.size hsize thread
  refine h.queue_nil hbef fun worker held _ _ _ hpos => ?_
  have hstopping : s'.done = true ∨ ∃ worker, (s'.positions worker).Stopping :=
    hs'.imp id fun ⟨w, hw⟩ => ⟨w, by rw [hw]; trivial⟩
  have hworker := hquiet hstopping worker
  rw [hpos] at hworker
  exact hworker

/-- If no steal overlaps a decision, `done` is set only when all queues are empty and no worker has
a context, for good. -/
theorem idle_of_done (ctxs : List α) (actions : List (Action α n)) (ha : .shutdown ∉ actions)
    (hsep : Runs.Along step Separate (initial n ctxs) actions)
    (h : Runs.run step (initial n ctxs) actions = some s) (hdone : s.done = true) : Idle s := by
  have hs : Settled s := by
    refine Runs.run_invariant (P := fun s a => Separate s a ∧ a ≠ .shutdown)
      (fun s a s' hP hstep hs => (step_moves hstep).settled hP.2 hP.1 hs)
      (Runs.along_and hsep (Runs.along_of_forall fun a hmem => ?_)) h (initial_settled ctxs)
    rintro rfl
    exact ha hmem
  exact ⟨hs.queues (.inl hdone), hs.quiet (.inl hdone)⟩

theorem idle_of_done_two : ∃ s : State Nat 2,
    Runs.run step (initial 2 [7]) (sampleRun 0 1) = some s ∧ s.done = true ∧ Idle s := by
  obtain ⟨s, hs, hdone⟩ := map_eq_some_iff.mp
    (show (Runs.run step (initial 2 [7]) (sampleRun 0 1)).map State.done =
      some true by decide +kernel)
  exact ⟨s, hs, hdone, idle_of_done [7] (sampleRun 0 1) (by decide) (by decide +kernel) hs hdone⟩

/-- The other worker reads `free` and `size` as zero when a thief is about to return the only
context. -/
def earlyStop (a b : Fin 2) : List (Action Nat 2) :=
  [.next a, .next a, .next a, .next a, .steal a none, .next a, .next b, .next b, .next b, .next b,
    .next b]

/-- The store is done and one worker has left while the other one holds a context. -/
theorem done_not_idle : ∃ s, .shutdown ∉ (earlyStop 0 1) ∧
    Runs.run step (initial 2 [7]) (earlyStop 0 1) = some s ∧ s.done = true ∧ s.positions 1 =
      .exited ∧
      s.positions 0 = .returning (some 7) ∧ ¬ Idle s := by
  obtain ⟨s, hs, hpos⟩ := map_eq_some_iff.mp
    (show (Runs.run step (initial 2 [7]) (earlyStop 0 1)).map
      (fun s => decide (s.done = true ∧ s.positions 1 = .exited ∧
        s.positions 0 = .returning (some 7))) = some true by decide +kernel)
  obtain ⟨hdone, hexited, hholds⟩ := of_decide_eq_true hpos
  refine ⟨s, by decide, hs, hdone, hexited, hholds, fun hidle => ?_⟩
  have hquiet := hidle.2 0
  rw [hholds] at hquiet
  exact hquiet

end ThreadQueueStore

end Caffeine
