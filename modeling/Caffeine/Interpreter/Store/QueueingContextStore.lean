import Caffeine.Util.Runs

/-!
# The queueing context store

A monitor around one queue: a reader that finds the queue empty waits on a condition variable, and
the last reader to block ends the run. The atomic steps are the sections under the lock, the
notifications after its release, and the wake-ups, which may be spurious.
-/

open Function

namespace Caffeine

namespace QueueingContextStore

/-- Outside of the store, at the end of `add_context`, inside of `next_context`, waiting, woken up,
or gone. -/
inductive Position (α : Type) where
  | outside (held : Option α)
  | notifying (held : Option α) (all : Bool)
  | waiting
  | woken
  | exited
deriving DecidableEq

/-- The log `returned` lists what `next_context` has returned. -/
structure State (α : Type) (n : Nat) where
  queue : List α
  blocked : Nat
  done : Bool
  positions : Fin n → Position α
  returned : List (Fin n × α)

/-- An atomic step, with who takes it, what is added, and whom a notification reaches. -/
inductive Action (α : Type) (n : Nat) where
  | call (reader : Fin n)
  | resume (reader : Fin n)
  | wake (reader : Fin n)
  | add (reader : Fin n) (ctxs : List α)
  | notify (reader : Fin n) (target : Option (Fin n))
  | shutdown
deriving DecidableEq

variable {α : Type} {n : Nat}

def initial (n : Nat) (ctxs : List α) : State α n where
  queue := ctxs
  blocked := 0
  done := false
  positions _ := .outside none
  returned := []

def Position.isWaiting : Position α → Bool
  | .waiting => true
  | _ => false

def Position.wakeUp : Position α → Position α
  | .waiting => .woken
  | p => p

namespace State

def move (s : State α n) (reader : Fin n) (position : Position α) : State α n :=
  { s with positions := update s.positions reader position }

def setQueue (s : State α n) (queue : List α) : State α n := { s with queue := queue }

def setBlocked (s : State α n) (blocked : Nat) : State α n := { s with blocked := blocked }

def setDone (s : State α n) : State α n := { s with done := true }

def notifyAll (s : State α n) : State α n :=
  { s with positions := fun reader => (s.positions reader).wakeUp }

def log (s : State α n) (reader : Fin n) (ctx : α) : State α n :=
  { s with returned := s.returned ++ [(reader, ctx)] }

end State

/-- The end of `next_context`, where the context at the front of the queue is returned. -/
def take (s : State α n) (reader : Fin n) (ctx : α) (queue : List α) : State α n :=
  ((s.setQueue queue).move reader (.outside (some ctx))).log reader ctx

/-- `next_context` up to the end or to the first `wait`. -/
def call (s : State α n) (reader : Fin n) : Option (State α n) :=
  match s.positions reader with
  | .outside _ =>
    if s.done then some (s.move reader .exited)
    else match s.queue with
      | ctx :: queue => some (take s reader ctx queue)
      | [] =>
        if s.blocked + 1 = n then some (s.setDone.notifyAll.move reader .exited)
        else some ((s.move reader .waiting).setBlocked (s.blocked + 1))
  | _ => none

/-- The rest of `next_context` when a `wait` returns. -/
def resume (s : State α n) (reader : Fin n) : Option (State α n) :=
  match s.positions reader with
  | .woken =>
    if s.done then some ((s.move reader .exited).setBlocked (s.blocked - 1))
    else match s.queue with
      | ctx :: queue => some (take (s.setBlocked (s.blocked - 1)) reader ctx queue)
      | [] => some (s.move reader .waiting)
  | _ => none

/-- `add_context_multi` up to the release of the lock, with `add_context` as a case. A reader adds
contexts while it has one. -/
def add (s : State α n) (reader : Fin n) (ctxs : List α) : Option (State α n) :=
  match s.positions reader with
  | .outside (some held) =>
    some ((s.setQueue (s.queue ++ ctxs)).move reader (.notifying (some held) (ctxs.length != 1)))
  | _ => none

/-- `notify_one` reaches a waiting reader if there is one. -/
def notify (s : State α n) (reader : Fin n) (target : Option (Fin n)) : Option (State α n) :=
  match s.positions reader, target with
  | .notifying held true, none => some (s.notifyAll.move reader (.outside held))
  | .notifying held false, some target =>
    if (s.positions target).isWaiting then
      some ((s.move target .woken).move reader (.outside held))
    else none
  | .notifying held false, none =>
    if ∀ target, (s.positions target).isWaiting = false then some (s.move reader (.outside held))
    else none
  | _, _ => none

/-- The notification after a `shutdown` is a sequence of wake-ups. -/
def step (s : State α n) : Action α n → Option (State α n)
  | .call reader => call s reader
  | .resume reader => resume s reader
  | .wake reader => if (s.positions reader).isWaiting then some (s.move reader .woken) else none
  | .add reader ctxs => add s reader ctxs
  | .notify reader target => notify s reader target
  | .shutdown => some s.setDone

def Action.added : Action α n → List α
  | .add _ ctxs => ctxs
  | _ => []

variable {s s' : State α n} {a : Action α n} {reader : Fin n}

/-! ### The steps -/

inductive Moves (s : State α n) : Action α n → State α n → Prop
  | leave {reader : Fin n} {held : Option α} (h : s.positions reader = .outside held)
    (hdone : s.done = true) : Moves s (.call reader) (s.move reader .exited)
  | take {reader : Fin n} {held : Option α} {ctx : α} {queue : List α}
    (h : s.positions reader = .outside held) (hdone : s.done = false)
    (hq : s.queue = ctx :: queue) : Moves s (.call reader) (take s reader ctx queue)
  | stop {reader : Fin n} {held : Option α} (h : s.positions reader = .outside held)
    (hdone : s.done = false) (hq : s.queue = []) (hlast : s.blocked + 1 = n) :
    Moves s (.call reader) (s.setDone.notifyAll.move reader .exited)
  | block {reader : Fin n} {held : Option α} (h : s.positions reader = .outside held)
    (hdone : s.done = false) (hq : s.queue = []) (hlast : s.blocked + 1 ≠ n) :
    Moves s (.call reader) ((s.move reader .waiting).setBlocked (s.blocked + 1))
  | exit {reader : Fin n} (h : s.positions reader = .woken) (hdone : s.done = true) :
    Moves s (.resume reader) ((s.move reader .exited).setBlocked (s.blocked - 1))
  | retake {reader : Fin n} {ctx : α} {queue : List α} (h : s.positions reader = .woken)
    (hdone : s.done = false) (hq : s.queue = ctx :: queue) :
    Moves s (.resume reader) (QueueingContextStore.take (s.setBlocked (s.blocked - 1)) reader ctx
      queue)
  | rewait {reader : Fin n} (h : s.positions reader = .woken) (hdone : s.done = false)
    (hq : s.queue = []) : Moves s (.resume reader) (s.move reader .waiting)
  | wake {reader : Fin n} (h : s.positions reader = .waiting) :
    Moves s (.wake reader) (s.move reader .woken)
  | add {reader : Fin n} {held : α} {ctxs : List α}
    (h : s.positions reader = .outside (some held)) : Moves s (.add reader ctxs)
      ((s.setQueue (s.queue ++ ctxs)).move reader (.notifying (some held) (ctxs.length != 1)))
  | notifyAll {reader : Fin n} {held : Option α} (h : s.positions reader = .notifying held true) :
    Moves s (.notify reader none) (s.notifyAll.move reader (.outside held))
  | notifyOne {reader target : Fin n} {held : Option α}
    (h : s.positions reader = .notifying held false) (htarget : s.positions target = .waiting) :
    Moves s (.notify reader (some target)) ((s.move target .woken).move reader (.outside held))
  | notifyNone {reader : Fin n} {held : Option α}
    (h : s.positions reader = .notifying held false) :
    Moves s (.notify reader none) (s.move reader (.outside held))
  | shutdown : Moves s .shutdown s.setDone

variable {p : Position α} {r : Fin n}

theorem Position.eq_waiting (h : p.isWaiting = true) : p = .waiting := by
  cases p with
  | waiting => rfl
  | _ => cases h

theorem call_moves (h : call s reader = some s') : Moves s (.call reader) s' := by
  unfold call at h
  split at h
  · rename_i held hpos
    split at h
    · cases h
      exact .leave hpos ‹_›
    · have hdone : s.done = false := Bool.not_eq_true _ ▸ ‹_›
      split at h
      · cases h
        exact .take hpos hdone ‹_›
      · split_ifs at h with hlast
        · cases h
          exact .stop hpos hdone ‹_› hlast
        · cases h
          exact .block hpos hdone ‹_› hlast
  · cases h

theorem resume_moves (h : resume s reader = some s') : Moves s (.resume reader) s' := by
  unfold resume at h
  split at h
  · rename_i hpos
    split_ifs at h with hdone
    · cases h
      exact .exit hpos hdone
    · have hdone : s.done = false := Bool.not_eq_true _ ▸ hdone
      split at h
      · cases h
        exact .retake hpos hdone ‹_›
      · cases h
        exact .rewait hpos hdone ‹_›
  · cases h

theorem notify_moves {target : Option (Fin n)} (h : notify s reader target = some s') :
    Moves s (.notify reader target) s' := by
  unfold notify at h
  split at h
  · cases h
    exact .notifyAll ‹_›
  · split_ifs at h with hwaiting
    cases h
    exact .notifyOne ‹_› (Position.eq_waiting hwaiting)
  · split_ifs at h
    cases h
    exact .notifyNone ‹_›
  · cases h

theorem step_moves (h : step s a = some s') : Moves s a s' := by
  cases a with
  | call reader => exact call_moves h
  | resume reader => exact resume_moves h
  | wake reader =>
    simp only [step] at h
    split_ifs at h with hwaiting
    cases h
    exact .wake (Position.eq_waiting hwaiting)
  | add reader ctxs =>
    simp only [step, add] at h
    split at h
    · cases h
      exact .add ‹_›
    · cases h
  | notify reader target => exact notify_moves h
  | shutdown =>
    cases h
    exact .shutdown

theorem State.move_self : (s.move reader p).positions reader = p :=
  update_self _ _ _

theorem State.move_of_ne (hr : r ≠ reader) : (s.move reader p).positions r = s.positions r :=
  update_of_ne hr _ _

/-- What was returned, and then what is in the queue, is what was added, in order. -/
def Fifo (added : List α) (s : State α n) : Prop := s.returned.map Prod.snd ++ s.queue = added

theorem fifo_take {added : List α} {ctx : α} {queue : List α} (hq : s.queue = ctx :: queue)
    (hs : Fifo added s) : Fifo added (take s reader ctx queue) := by
  rw [Fifo, hq] at hs
  rw [← hs]
  simp [Fifo, take, State.log, State.move, State.setQueue]

theorem Moves.fifo {added : List α} (h : Moves s a s') (hs : Fifo added s) :
    Fifo (added ++ a.added) s' := by
  cases h with
  | take h hdone hq | retake h hdone hq =>
    change Fifo (added ++ []) _
    rw [List.append_nil]
    exact fifo_take hq hs
  | add h =>
    rw [Fifo] at hs ⊢
    rw [← hs, Action.added, List.append_assoc]
    rfl
  | _ =>
    change Fifo (added ++ []) _
    rw [List.append_nil]
    exact hs

/-! ### The end of a run -/

def Position.active : Position α → Nat
  | .outside _ | .notifying _ _ | .exited => 1
  | .waiting | .woken => 0

structure Orderly (s : State α n) : Prop where
  blocked : s.blocked + ∑ reader, (s.positions reader).active = n
  running : s.done = false → s.blocked < n
  ended : s.done = true → s.queue = [] ∧
    ∀ reader, s.positions reader = .woken ∨ s.positions reader = .exited
  left : ∀ reader, s.positions reader = .exited → s.done = true

theorem initial_orderly (hn : 0 < n) (ctxs : List α) : Orderly (initial n ctxs) where
  blocked := by
    have hactive : ∀ reader, ((initial n ctxs).positions reader).active = 1 := fun _ => rfl
    simp only [hactive, Finset.sum_const, Finset.card_univ, Fintype.card_fin]
    exact (Nat.zero_add _).trans (Nat.mul_one n)
  running _ := hn
  ended h := by cases h
  left _ h := by cases h

@[simp] theorem Position.active_wakeUp (p : Position α) : p.wakeUp.active = p.active := by
  cases p <;> rfl

theorem Position.active_le_one (p : Position α) : p.active ≤ 1 := by
  cases p with
  | outside held | notifying held all | exited => exact le_rfl
  | waiting | woken => exact Nat.zero_le 1

section Blocked

variable (hs : s.blocked + ∑ reader, (s.positions reader).active = n)

include hs

theorem blocked_pos (h : (s.positions reader).active = 0) : 0 < s.blocked := by
  have hlt := Runs.sum_lt_card _ (fun r => (s.positions r).active_le_one) h
  omega

theorem others_blocked (hlast : s.blocked + 1 = n) (h : (s.positions reader).active = 1)
    (hr : r ≠ reader) : (s.positions r).active = 0 := by
  have hsum := Runs.sum_update_add s.positions Position.active reader .waiting
  have hwaiting : Position.active (.waiting : Position α) = 0 := rfl
  have hzero : ∑ j, (update s.positions reader .waiting j).active = 0 := by omega
  have hother := Finset.sum_eq_zero_iff.mp hzero r (Finset.mem_univ r)
  rwa [update_of_ne hr] at hother

theorem blocked_move {blocked : Nat}
    (hblocked : blocked + p.active = s.blocked + (s.positions reader).active) :
    blocked + ∑ r, (update s.positions reader p r).active = n := by
  have hsum := Runs.sum_update_add s.positions Position.active reader p
  omega

theorem Moves.blocked_eq (h : Moves s a s') :
    s'.blocked + ∑ reader, (s'.positions reader).active = n := by
  have hall : s.notifyAll.blocked + ∑ reader, (s.notifyAll.positions reader).active = n := by
    simpa only [State.notifyAll, Position.active_wakeUp] using hs
  cases h with
  | leave h | take h | block h | rewait h | wake h | add h | notifyNone h =>
    exact blocked_move hs (by rw [h]; rfl)
  | exit h | retake h =>
    have hpos := blocked_pos hs (by rw [h]; rfl)
    exact blocked_move hs (by rw [h]; exact Nat.sub_add_cancel hpos)
  | stop h | notifyAll h => exact blocked_move hall (by simp only [State.notifyAll, h]; rfl)
  | @notifyOne reader target held h htgt =>
    have hne : reader ≠ target := by
      rintro rfl
      rw [h] at htgt
      cases htgt
    have htgt := blocked_move (s := s) (p := .woken) hs (by rw [htgt]; rfl)
    refine blocked_move (s := s.move target .woken) htgt ?_
    rw [State.move_of_ne hne, h]
    rfl
  | shutdown => exact hs

end Blocked

theorem Moves.ends (h : Moves s a s') (ha : a ≠ .shutdown) (hs : Orderly s) (hdone : s.done = false)
    (hdone' : s'.done = true) :
    ∃ reader, a = .call reader ∧ s.queue = [] ∧ ∀ r, r ≠ reader →
      s.positions r = .waiting ∨ s.positions r = .woken := by
  cases h with
  | @stop reader held h hq hemp hlast =>
    refine ⟨reader, rfl, hemp, fun r hr => ?_⟩
    have hblocked := others_blocked hs.blocked hlast (by rw [h]; rfl) hr
    cases hpos : s.positions r with
    | waiting => exact .inl rfl
    | woken => exact .inr rfl
    | outside held | notifying held all | exited =>
      rw [hpos] at hblocked
      cases hblocked
  | shutdown => exact absurd rfl ha
  | _ => exact absurd (hdone.symm.trans hdone') Bool.false_ne_true

theorem Moves.running (h : Moves s a s') (hs : s.done = false → s.blocked < n)
    (hdone : s'.done = false) : s'.blocked < n := by
  cases h with
  | stop h | shutdown => cases hdone
  | block h hrun hq hlast => exact Nat.lt_of_le_of_ne (hs hrun) hlast
  | retake h hrun hq => exact (Nat.sub_le _ 1).trans_lt (hs hrun)
  | exit h hend => exact absurd (hend.symm.trans hdone) Bool.true_eq_false.mp
  | _ => exact hs hdone

theorem Orderly.ended_at (hs : Orderly s) (hdone : s.done = true) (h : s.positions reader = p) :
    p = .woken ∨ p = .exited :=
  h ▸ (hs.ended hdone).2 reader

theorem Moves.ended (h : Moves s a s') (ha : a ≠ .shutdown) (hs : Orderly s)
    (hdone : s'.done = true) : s'.queue = [] ∧
      ∀ reader, s'.positions reader = .woken ∨ s'.positions reader = .exited := by
  cases h with
  | @stop reader held h hrun hq hlast =>
    refine ⟨hq, Runs.forall_update (P := fun _ p => p = Position.woken ∨ p = .exited)
      (fun r hr => ?_) (.inr rfl)⟩
    have hblocked := others_blocked hs.blocked hlast (by rw [h]; rfl) hr
    change (s.positions r).wakeUp = .woken ∨ _
    cases hpos : s.positions r with
    | waiting | woken => exact .inl rfl
    | outside held | notifying held all | exited =>
      rw [hpos] at hblocked
      cases hblocked
  | exit h hend =>
    obtain ⟨hq, hpos⟩ := hs.ended hend
    exact ⟨hq, Runs.forall_update (P := fun _ p => p = Position.woken ∨ p = .exited)
      (fun r _ => hpos r) (.inr rfl)⟩
  | shutdown => exact absurd rfl ha
  | take h hrun | block h hrun | retake h hrun | rewait h hrun =>
    exact absurd (hrun.symm.trans hdone) Bool.false_ne_true
  | leave h | wake h | add h | notifyAll h | notifyOne h | notifyNone h =>
    -- the readers outside of `next_context` have left
    rcases hs.ended_at hdone h with hpos | hpos <;> cases hpos

theorem exited_of_move (hr : (s.move reader p).positions r = .exited) (hp : p ≠ .exited) :
    s.positions r = .exited := by
  by_cases hreader : r = reader
  · subst hreader
    rw [State.move_self] at hr
    exact absurd hr hp
  · rwa [State.move_of_ne hreader] at hr

theorem exited_of_notifyAll (hr : s.notifyAll.positions r = .exited) : s.positions r = .exited := by
  change (s.positions r).wakeUp = .exited at hr
  cases hpos : s.positions r with
  | exited => rfl
  | _ =>
    rw [hpos] at hr
    cases hr

theorem Moves.left (h : Moves s a s') (hs : ∀ reader, s.positions reader = .exited → s.done = true)
    (r : Fin n) (hr : s'.positions r = .exited) : s'.done = true := by
  cases h with
  | stop h | shutdown => rfl
  | leave h hdone | exit h hdone => exact hdone
  | notifyAll h => exact hs r (exited_of_notifyAll (exited_of_move hr nofun))
  | notifyOne h htgt => exact hs r (exited_of_move (exited_of_move hr nofun) nofun)
  | take h | block h | retake h | rewait h | wake h | add h | notifyNone h =>
    exact hs r (exited_of_move (s := s) hr nofun)

theorem Moves.orderly (h : Moves s a s') (ha : a ≠ .shutdown) (hs : Orderly s) : Orderly s' where
  blocked := h.blocked_eq hs.blocked
  running := h.running hs.running
  ended := h.ended ha hs
  left := h.left hs.left

theorem run_orderly (hn : 0 < n) {ctxs : List α} {actions : List (Action α n)}
    (ha : .shutdown ∉ actions) (h : Runs.run step (initial n ctxs) actions = some s) :
    Orderly s := by
  refine Runs.run_invariant (P := fun _ a => a ≠ .shutdown)
    (fun s a s' ha hstep hs => (step_moves hstep).orderly ha hs)
    (Runs.along_of_forall fun a hmem => ?_) h (initial_orderly hn ctxs)
  rintro rfl
  exact ha hmem

theorem run_fifo {ctxs : List α} {actions : List (Action α n)}
    (h : Runs.run step (initial n ctxs) actions = some s) :
    Fifo (ctxs ++ actions.flatMap Action.added) s :=
  Runs.run_log Action.added (fun _ _ _ _ hstep hs => (step_moves hstep).fifo hs) h rfl

theorem Orderly.exists_running (hs : Orderly s) (hdone : s.done = false) :
    ∃ reader, (s.positions reader).active = 1 ∧ s.positions reader ≠ .exited := by
  by_contra hnone
  have hzero : ∑ reader, (s.positions reader).active = 0 := by
    refine Finset.sum_eq_zero fun reader _ => ?_
    cases hpos : s.positions reader with
    | waiting | woken => rfl
    | outside held | notifying held all =>
      exact absurd ⟨reader, by rw [hpos]; rfl, by rw [hpos]; nofun⟩ hnone
    | exited => exact absurd ((hs.left reader hpos).symm.trans hdone) Bool.true_eq_false.mp
  have hblocked := hs.blocked
  have hlt := hs.running hdone
  omega

/-- After every run without shutdown, what was returned and what is in the queue is what was added,
and readers never all wait next to a context. -/
theorem exact_monitor (hn : 0 < n) (ctxs : List α) (actions : List (Action α n))
    (ha : .shutdown ∉ actions) (h : Runs.run step (initial n ctxs) actions = some s) :
    s.returned.map Prod.snd ++ s.queue = ctxs ++ actions.flatMap Action.added ∧
    (s.done = true → s.queue = [] ∧
      ∀ reader, s.positions reader = .woken ∨ s.positions reader = .exited) ∧
    (∀ a s', a ≠ .shutdown → step s a = some s' → s.done = false → s'.done = true →
      ∃ reader, a = .call reader ∧ s.queue = [] ∧ ∀ r, r ≠ reader →
        s.positions r = .waiting ∨ s.positions r = .woken) ∧
    ((∀ reader, s.positions reader = .waiting ∨ s.positions reader = .exited) →
      (∀ reader, s.positions reader = .exited) ∧
        s.returned.map Prod.snd = ctxs ++ actions.flatMap Action.added) ∧
    ¬ ((∀ reader, s.positions reader = .waiting) ∧ s.queue ≠ []) := by
  have hs := run_orderly hn ha h
  have hfifo := run_fifo h
  -- if all readers wait or have left, the run is over, and then none of them waits
  have hover : (∀ reader, s.positions reader = .waiting ∨ s.positions reader = .exited) →
      s.done = true := by
    intro hall
    by_contra hdone
    obtain ⟨reader, hactive, hexited⟩ := hs.exists_running (Bool.not_eq_true _ ▸ hdone)
    rcases hall reader with hpos | hpos
    · rw [hpos] at hactive
      cases hactive
    · exact hexited hpos
  refine ⟨hfifo, hs.ended, fun a s' ha hstep => (step_moves hstep).ends ha hs, fun hall => ?_,
    fun ⟨hwait, hq⟩ => hq (hs.ended (hover fun r => .inl (hwait r))).1⟩
  obtain ⟨hq, hpos⟩ := hs.ended (hover hall)
  constructor
  · intro reader
    rcases hpos reader with hwoken | hexited
    · rcases hall reader with hother | hother <;> rw [hwoken] at hother <;> cases hother
    · exact hexited
  · rw [Fifo, hq, List.append_nil] at hfifo
    exact hfifo

/-- A reader executes the only context and adds one, which wakes the other; then both find the queue
empty. -/
def sampleRun : List (Action Nat 2) :=
  [.call 0, .call 1, .add 0 [8], .notify 0 (some 1), .resume 1, .call 0, .call 1, .resume 0]

theorem exact_monitor_two : ∃ s : State Nat 2,
    Runs.run step (initial 2 [7]) sampleRun = some s ∧ s.returned.map Prod.snd = [7, 8] := by
  obtain ⟨s, hs, hexit⟩ := Option.map_eq_some_iff.mp
    (show (Runs.run step (initial 2 [7]) sampleRun).map
      (fun s => decide (∀ reader, s.positions reader = .exited)) = some true by decide +kernel)
  have hexit := of_decide_eq_true hexit
  obtain ⟨-, -, -, hall, -⟩ := exact_monitor (by decide) [7] sampleRun (by decide) hs
  exact ⟨s, hs, (hall fun reader => .inr (hexit reader)).2⟩

end QueueingContextStore

end Caffeine
