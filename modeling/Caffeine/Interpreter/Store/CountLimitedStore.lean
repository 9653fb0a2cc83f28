import Caffeine.Interpreter.Store.ThreadQueueSteps
import Caffeine.Interpreter.Store.QueueingContextStore

/-!
# The limit on the number of contexts

`CountLimitedStore` draws a ticket for every call of `next_context`: the call with the ticket
`limit` shuts the inner store down, and later ones return nothing. That call still asks the inner
store: after a shutdown the queueing store returns nothing, but the work-stealing store returns what
is in the worker's own queue.
-/

open Function

namespace Caffeine

open List

inductive Status where
  | outside
  | adding
  | calling
  | exited
deriving DecidableEq

def StatusStep {n : Nat} (starts adds : Option (Fin n)) (w : Fin n) (old new : Status) : Prop :=
  new = old ∨ starts = some w ∨ (adds = some w ∧ new = .adding) ∨
    (old ≠ .outside ∧ new ≠ .calling)

theorem StatusStep.update {n : Nat} {starts adds : Option (Fin n)} {P : Type} {status : P → Status}
    {positions : Fin n → P} {worker : Fin n} {p : P}
    (h : StatusStep starts adds worker (status (positions worker)) (status p)) (w : Fin n) :
    StatusStep starts adds w (status (positions w))
      (status (update positions worker p w)) :=
  Runs.forall_update (P := fun w p => StatusStep starts adds w (status (positions w)) (status p))
    (fun _ _ => .inl rfl) h w

/-- A context store as a transition system. A worker is sealed if its call returns nothing; a
shutdown seals the drained ones. -/
structure ContextStore (α : Type) (n : Nat) where
  State : Type
  Action : Type
  initial : List α → State
  step : State → Action → Option State
  shutdown : Action
  returned : State → List (Fin n × α)
  status : State → Fin n → Status
  starts : State → Action → Option (Fin n)
  adds : Action → Option (Fin n)
  Drained : State → Fin n → Prop
  Sealed : State → Fin n → Prop
  initial_returned : ∀ ctxs, returned (initial ctxs) = []
  initial_status : ∀ ctxs w, status (initial ctxs) w = .outside
  step_status : ∀ {s a s'}, step s a = some s' → ∀ w,
    StatusStep (starts s a) (adds a) w (status s w) (status s' w)
  step_returned : ∀ {s a s'}, step s a = some s' → returned s' = returned s ∨
    ∃ w ctx, returned s' = returned s ++ [(w, ctx)] ∧
      (status s w = .calling ∨ starts s a = some w) ∧ status s' w = .outside ∧ ¬ Sealed s w
  step_sealed : ∀ {s a s' w}, step s a = some s' → adds a ≠ some w → Sealed s w → Sealed s' w
  adds_shutdown : adds shutdown = none
  step_shutdown : ∀ {s s'}, step s shutdown = some s' → returned s' = returned s ∧
    status s' = status s
  shutdown_sealed : ∀ {s s' w}, step s shutdown = some s' → status s w = .outside → Drained s w →
    Sealed s' w

/-! ### The queueing store -/

namespace QueueingContextStore

variable {α : Type} {n : Nat} {s s' : State α n} {a : Action α n} {w : Fin n}

def Position.status : Position α → Status
  | .outside _ => .outside
  | .notifying _ _ => .adding
  | .waiting | .woken => .calling
  | .exited => .exited

def starts (s : State α n) : Action α n → Option (Fin n)
  | .call reader => if (s.positions reader).status = .outside then some reader else none
  | _ => none

def Action.adds : Action α n → Option (Fin n)
  | .add reader _ => some reader
  | _ => none

theorem starts_call {held : Option α} (h : s.positions w = .outside held) :
    starts s (.call w) = some w :=
  if_pos (by rw [h]; rfl)

theorem Position.status_wakeUp (p : Position α) : p.wakeUp.status = p.status := by
  cases p <;> rfl

theorem statusStep_notifyAll {starts adds : Option (Fin n)} {reader : Fin n} {p : Position α}
    (h : StatusStep starts adds reader (s.positions reader).status p.status) (w : Fin n) :
    StatusStep starts adds w (s.positions w).status
      ((s.notifyAll.move reader p).positions w).status := by
  rw [← Position.status_wakeUp] at h ⊢
  exact StatusStep.update h w

theorem Moves.status (h : Moves s a s') (w : Fin n) : StatusStep (starts s a) a.adds w
    (s.positions w).status (s'.positions w).status := by
  cases h with
  | leave h | take h | block h => exact StatusStep.update (.inr (.inl (starts_call h))) w
  | stop h => exact statusStep_notifyAll (.inr (.inl (starts_call h))) w
  | exit h | retake h | notifyNone h =>
    exact StatusStep.update (.inr (.inr (.inr (by rw [h]; exact ⟨nofun, nofun⟩)))) w
  | rewait h | wake h => exact StatusStep.update (.inl (by rw [h]; rfl)) w
  | add h => exact StatusStep.update (.inr (.inr (.inl ⟨rfl, rfl⟩))) w
  | notifyAll h =>
    exact statusStep_notifyAll (.inr (.inr (.inr (by rw [h]; exact ⟨nofun, nofun⟩)))) w
  | @notifyOne reader target held h htgt =>
    have hsame : ∀ r, ((s.move target .woken).positions r).status = (s.positions r).status := by
      intro r
      by_cases hr : r = target
      · subst hr
        rw [State.move_self, htgt]
        rfl
      · rw [State.move_of_ne hr]
    rw [← hsame]
    refine StatusStep.update (.inr (.inr (.inr ?_))) w
    rw [hsame, h]
    exact ⟨nofun, nofun⟩
  | shutdown => exact .inl rfl

theorem Moves.done_mono (h : Moves s a s') (hdone : s.done = true) : s'.done = true := by
  cases h with
  | stop h | shutdown => rfl
  | _ => exact hdone

theorem Moves.returned (h : Moves s a s') : s'.returned = s.returned ∨
    ∃ w ctx, s'.returned = s.returned ++ [(w, ctx)] ∧
      ((s.positions w).status = .calling ∨ starts s a = some w) ∧
      (s'.positions w).status = .outside ∧ ¬ s.done = true := by
  cases h with
  | @take reader held ctx queue h hdone hq =>
    refine .inr ⟨reader, ctx, rfl, .inr (starts_call h), ?_, by rw [hdone]; nofun⟩
    exact congrArg Position.status (State.move_self (s := s))
  | @retake reader ctx queue h hdone hq =>
    refine .inr ⟨reader, ctx, rfl, .inl (by rw [h]; rfl), ?_, by rw [hdone]; nofun⟩
    exact congrArg Position.status (State.move_self (s := s))
  | _ => exact .inl rfl

/-- After a shutdown the queueing store returns nothing. -/
def store (α : Type) (n : Nat) : ContextStore α n where
  State := State α n
  Action := Action α n
  initial := initial n
  step := step
  shutdown := .shutdown
  returned := State.returned
  status s w := (s.positions w).status
  starts := starts
  adds := Action.adds
  Drained _ _ := True
  Sealed s _ := s.done = true
  initial_returned _ := rfl
  initial_status _ _ := rfl
  step_status h := (step_moves h).status
  step_returned h := (step_moves h).returned
  step_sealed h _ := (step_moves h).done_mono
  adds_shutdown := rfl
  step_shutdown h := by
    cases h
    exact ⟨rfl, rfl⟩
  shutdown_sealed h _ _ := by
    cases h
    rfl

end QueueingContextStore

/-! ### The work-stealing store -/

namespace ThreadQueueStore

variable {α : Type} {n : Nat} {s s' : State α n} {a : Action α n} {w : Fin n}

def Position.status : Position α → Status
  | .outside _ => .outside
  | .pushing _ _ => .adding
  | .dequeued _ | .missed | .counted _ | .ending | .stealing | .picking | .stolen _
  | .returning _ => .calling
  | .exited => .exited

def starts (s : State α n) : Action α n → Option (Fin n)
  | .next worker => if (s.positions worker).status = .outside then some worker else none
  | _ => none

def Action.adds : Action α n → Option (Fin n)
  | .create worker => some worker
  | .add worker _ => some worker
  | _ => none

theorem starts_next {held : Option α} (h : s.positions w = .outside held) :
    starts s (.next w) = some w :=
  if_pos (by rw [h]; rfl)

theorem Moves.status (h : Moves s a s') (w : Fin n) : StatusStep (starts s a) a.adds w
    (s.positions w).status (s'.positions w).status := by
  cases h with
  | create h | shutdown => exact .inl rfl
  | add h => exact StatusStep.update (.inr (.inr (.inl ⟨rfl, rfl⟩))) w
  | dequeue h | miss h => exact StatusStep.update (.inr (.inl (starts_next h))) w
  | push h | take h | answer h | exit h =>
    exact StatusStep.update (.inr (.inr (.inr (by rw [h]; exact ⟨nofun, nofun⟩)))) w
  | count h | idle h | busy h | stop h | leave h | pick h | wait h | steal h | discount h =>
    exact StatusStep.update (.inl (by rw [h]; rfl)) w

/-- The call of the worker, if any, will find the store shut down before it can steal. -/
def Position.Stoppable : Position α → Prop
  | .outside _ | .missed | .counted _ | .ending | .stealing | .returning none | .exited => True
  | .pushing _ _ | .dequeued _ | .picking | .stolen _ | .returning (some _) => False

def Sealed (s : State α n) (w : Fin n) : Prop :=
  s.done = true ∧ s.queue (some w) = [] ∧ (s.positions w).Stoppable

theorem Moves.sealed (h : Moves s a s') (ha : a.adds ≠ some w) (hs : Sealed s w) : Sealed s' w := by
  obtain ⟨hdone, hq, hpos⟩ := hs
  have hq' : s'.queue (some w) = [] := by
    refine h.queue_nil hq ?_
    rintro _ held ctxs ⟨⟩ hpush
    rw [hpush] at hpos
    exact absurd hpos id
  refine ⟨?_, hq', ?_⟩
  · cases h with
    | stop h | shutdown => rfl
    | _ => exact hdone
  · by_cases hact : a.actor = some w
    · cases h with
      | create h | add h => exact absurd hact ha
      | shutdown => cases hact
      | push h | take h | wait h | steal h | discount h | answer h =>
        obtain rfl := Option.some.inj hact
        rw [h] at hpos
        exact absurd hpos id
      | dequeue h hqueue =>
        obtain rfl := Option.some.inj hact
        rw [hq] at hqueue
        exact absurd hqueue.symm (append_ne_nil_of_right_ne_nil _ nofun)
      | pick h hrun => exact absurd (hdone.symm.trans hrun) Bool.true_eq_false.mp
      | miss h | count h | idle h | busy h | stop h | leave h | exit h =>
        obtain rfl := Option.some.inj hact
        change (update s.positions _ _ _).Stoppable
        rw [update_self]
        trivial
    · rwa [h.frame hact]

theorem Moves.returned (h : Moves s a s') : s'.returned = s.returned ∨
    ∃ w ctx, s'.returned = s.returned ++ [(w, ctx)] ∧
      ((s.positions w).status = .calling ∨ starts s a = some w) ∧
      (s'.positions w).status = .outside ∧ ¬ Sealed s w := by
  cases h with
  | @take worker ctx h | @answer worker ctx h =>
    refine .inr ⟨worker, ctx, rfl, .inl (by rw [h]; rfl), ?_, ?_⟩
    · exact congrArg Position.status (update_self worker _ s.positions)
    · rintro ⟨-, -, hpos⟩
      rw [h] at hpos
      exact hpos
  | _ => exact .inl rfl

/-- After a shutdown a worker is still given what is in its own queue. -/
def store (α : Type) (n : Nat) : ContextStore α n where
  State := State α n
  Action := Action α n
  initial := initial n
  step := step
  shutdown := .shutdown
  returned := State.returned
  status s w := (s.positions w).status
  starts := starts
  adds := Action.adds
  Drained s w := s.queue (some w) = []
  Sealed := Sealed
  initial_returned _ := rfl
  initial_status _ _ := rfl
  step_status h := (step_moves h).status
  step_returned h := (step_moves h).returned
  step_sealed h := (step_moves h).sealed
  adds_shutdown := rfl
  step_shutdown h := by
    cases h
    exact ⟨rfl, rfl⟩
  shutdown_sealed {s s' w} h hout hq := by
    cases h
    refine ⟨rfl, hq, ?_⟩
    change (s.positions w).Stoppable
    cases hpos : s.positions w with
    | outside held => trivial
    | _ =>
      rw [hpos] at hout
      cases hout

end ThreadQueueStore

/-! ### Tickets -/

namespace CountLimitedStore

variable {α : Type} {n : Nat} {S : ContextStore α n}

/-- Before the ticket, shutting the store down, asking the inner store, or past the limit. -/
inductive Phase where
  | idle
  | shutting
  | asking (last : Bool)
  | past
deriving DecidableEq

structure State (S : ContextStore α n) where
  inner : S.State
  count : Nat
  phases : Fin n → Phase

inductive Action (S : ContextStore α n) where
  | ticket (worker : Fin n)
  | shutdown (worker : Fin n)
  | inner (action : S.Action)

def initial (S : ContextStore α n) (ctxs : List α) : State S where
  inner := S.initial ctxs
  count := 0
  phases _ := .idle

def Phase.isAsking : Phase → Bool
  | .asking _ => true
  | .idle | .shutting | .past => false

def ticketPhase (limit current : Nat) : Phase :=
  if current = limit then .shutting else if limit < current then .past else .asking false

/-- A worker asks the inner store with a ticket only, and adds contexts between its calls. -/
def step (limit : Nat) (s : State S) : Action S → Option (State S)
  | .ticket worker =>
    if s.phases worker = .idle ∧ S.status s.inner worker = .outside then
      some ⟨s.inner, (s.count + 1) % 2 ^ 64, update s.phases worker (ticketPhase limit s.count)⟩
    else none
  | .shutdown worker =>
    if s.phases worker = .shutting then
      (S.step s.inner S.shutdown).map fun inner =>
        ⟨inner, s.count, update s.phases worker (.asking true)⟩
    else none
  | .inner action =>
    if (∀ w, S.starts s.inner action = some w → (s.phases w).isAsking = true) ∧
        ∀ w, S.adds action = some w → s.phases w = .idle then
      (S.step s.inner action).map fun inner =>
        let served := ((S.returned inner).drop (S.returned s.inner).length).map Prod.fst
        ⟨inner, s.count, fun w => if w ∈ served then .idle else s.phases w⟩
    else none

variable {limit : Nat} {s s' : State S} {a : Action S}

inductive Moves (limit : Nat) (s : State S) : Action S → State S → Prop
  | ticket {worker : Fin n} (h : s.phases worker = .idle)
    (hout : S.status s.inner worker = .outside) : Moves limit s (.ticket worker)
      ⟨s.inner, (s.count + 1) % 2 ^ 64, update s.phases worker (ticketPhase limit s.count)⟩
  | shutdown {worker : Fin n} {inner : S.State} (h : s.phases worker = .shutting)
    (hstep : S.step s.inner S.shutdown = some inner) : Moves limit s (.shutdown worker)
      ⟨inner, s.count, update s.phases worker (.asking true)⟩
  | pass {action : S.Action} {inner : S.State} (hstep : S.step s.inner action = some inner)
    (hstarts : ∀ w, S.starts s.inner action = some w → (s.phases w).isAsking = true)
    (hadds : ∀ w, S.adds action = some w → s.phases w = .idle)
    (hreturned : S.returned inner = S.returned s.inner) :
    Moves limit s (.inner action) ⟨inner, s.count, s.phases⟩
  | serve {action : S.Action} {inner : S.State} {worker : Fin n} {ctx : α}
    (hstep : S.step s.inner action = some inner)
    (hstarts : ∀ w, S.starts s.inner action = some w → (s.phases w).isAsking = true)
    (hadds : ∀ w, S.adds action = some w → s.phases w = .idle)
    (hreturned : S.returned inner = S.returned s.inner ++ [(worker, ctx)])
    (hasks : S.status s.inner worker = .calling ∨ S.starts s.inner action = some worker)
    (hout : S.status inner worker = .outside) (hopen : ¬ S.Sealed s.inner worker) :
    Moves limit s (.inner action) ⟨inner, s.count, update s.phases worker .idle⟩

theorem step_moves (h : step limit s a = some s') : Moves limit s a s' := by
  cases a with
  | ticket worker =>
    simp only [step] at h
    split_ifs at h with hidle
    cases h
    exact .ticket hidle.1 hidle.2
  | shutdown worker =>
    simp only [step] at h
    split_ifs at h with hshutting
    obtain ⟨inner, hstep, rfl⟩ := Option.map_eq_some_iff.mp h
    exact .shutdown hshutting hstep
  | inner action =>
    simp only [step] at h
    split_ifs at h with hgd
    obtain ⟨inner, hstep, rfl⟩ := Option.map_eq_some_iff.mp h
    rcases S.step_returned hstep with hsame | ⟨worker, ctx, hret, hasks, hout, hopen⟩
    · rw [hsame, drop_length]
      exact .pass hstep hgd.1 hgd.2 hsame
    · have hphases : (fun w => if w ∈ [worker] then Phase.idle else s.phases w) =
          update s.phases worker .idle := by
        funext w
        simp only [mem_singleton, update_apply]
      rw [hret, drop_left, map_singleton, hphases]
      exact .serve hstep hgd.1 hgd.2 hret hasks hout hopen

def Phase.late : Phase → Nat
  | .shutting | .past | .asking true => 1
  | .idle | .asking false => 0

/-- The worker has drawn a ticket below the limit and may be given a context for it. -/
def Phase.pending : Phase → Nat
  | .asking false => 1
  | .idle | .shutting | .past | .asking true => 0

/-- What holds between the steps if the call with the ticket `limit` is given nothing. -/
structure Within (limit : Nat) (inner : S.State) (count : Nat) (phases : Fin n → Phase) :
    Prop where
  tickets : count ≤ limit + ∑ w, (phases w).late
  served : (S.returned inner).length + ∑ w, (phases w).pending ≤ min count limit
  asking : ∀ w, S.status inner w = .calling → (phases w).isAsking = true
  shutting : ∀ w, phases w = .shutting → S.status inner w = .outside
  last : ∀ w, phases w = .asking true → S.Sealed inner w

theorem initial_within (ctxs : List α) : Within limit (S.initial ctxs) 0 fun _ => .idle where
  tickets := Nat.zero_le _
  served := by
    have hpend : ∑ _w : Fin n, Phase.idle.pending = 0 := Finset.sum_eq_zero fun _ _ => rfl
    rw [hpend, S.initial_returned]
    exact Nat.zero_le _
  asking w h := by
    rw [S.initial_status] at h
    cases h
  shutting _ h := by cases h
  last _ h := by cases h

theorem ticketPhase_late (limit current : Nat) :
    current + 1 ≤ max limit current + (ticketPhase limit current).late := by
  unfold ticketPhase
  split_ifs with hlast hover
  · have hlate : Phase.shutting.late = 1 := rfl
    omega
  · have hlate : Phase.past.late = 1 := rfl
    omega
  · omega

theorem ticketPhase_pending (limit current : Nat) :
    min current limit + (ticketPhase limit current).pending ≤ min (current + 1) limit := by
  unfold ticketPhase
  split_ifs with hlast hover
  · have hpend : Phase.shutting.pending = 0 := rfl
    omega
  · have hpend : Phase.past.pending = 0 := rfl
    omega
  · have hpend : (Phase.asking false).pending = 1 := rfl
    omega

theorem ticketPhase_ne (limit current : Nat) : ticketPhase limit current ≠ .asking true := by
  unfold ticketPhase
  split_ifs <;> nofun

theorem Phase.late_le_one (p : Phase) : p.late ≤ 1 := by
  cases p with
  | shutting | past => exact le_rfl
  | idle => exact Nat.zero_le 1
  | asking last =>
    cases last with
    | true => exact le_rfl
    | false => exact Nat.zero_le 1

section Steps

variable {inner inner' : S.State} {count : Nat} {phases : Fin n → Phase} {worker : Fin n}
  (hs : Within limit inner count phases)

include hs

theorem Within.ticket (hlim : limit + n < 2 ^ 64) (h : phases worker = .idle)
    (hout : S.status inner worker = .outside) : Within limit inner ((count + 1) % 2 ^ 64)
      (update phases worker (ticketPhase limit count)) := by
  have hlate := Runs.sum_update_add phases Phase.late worker (ticketPhase limit count)
  have hpend := Runs.sum_update_add phases Phase.pending worker (ticketPhase limit count)
  have hidle : Phase.idle.late = 0 ∧ Phase.idle.pending = 0 := ⟨rfl, rfl⟩
  have hlt := Runs.sum_lt_card _ (fun w => (phases w).late_le_one) (by rw [h]; exact hidle.1)
  have hcnt := hs.tickets
  have hserved := hs.served
  -- a worker that draws a ticket has not drawn a late one, so the counter does not wrap
  have hmod : (count + 1) % 2 ^ 64 = count + 1 := Nat.mod_eq_of_lt (by omega)
  rw [h] at hlate hpend
  rw [hmod]
  refine ⟨?_, ?_, ?_, ?_, ?_⟩
  · have hticket := ticketPhase_late limit count
    omega
  · have hticket := ticketPhase_pending limit count
    omega
  · refine Runs.forall_update
      (P := fun w (p : Phase) => S.status inner w = .calling → p.isAsking = true)
      (fun w _ => hs.asking w) fun hcalling => ?_
    rw [hout] at hcalling
    cases hcalling
  · exact Runs.forall_update (P := fun w p => p = Phase.shutting → S.status inner w = .outside)
      (fun w _ => hs.shutting w) fun _ => hout
  · exact Runs.forall_update (P := fun w p => p = Phase.asking true → S.Sealed inner w)
      (fun w _ => hs.last w) fun hlast => absurd hlast (ticketPhase_ne limit count)

theorem Within.shutdown (h : phases worker = .shutting)
    (hstep : S.step inner S.shutdown = some inner') (hdrained : S.Drained inner worker) :
    Within limit inner' count (update phases worker (.asking true)) := by
  obtain ⟨hret, hstatus⟩ := S.step_shutdown hstep
  have hlate := Runs.sum_update_add phases Phase.late worker (.asking true)
  have hpend := Runs.sum_update_add phases Phase.pending worker (.asking true)
  have hcnt := hs.tickets
  have hserved := hs.served
  rw [h] at hlate hpend
  refine ⟨?_, ?_, ?_, ?_, ?_⟩
  · have hsame : (Phase.asking true).late = Phase.shutting.late := rfl
    omega
  · have hsame : (Phase.asking true).pending = Phase.shutting.pending := rfl
    rw [hret]
    omega
  · rw [hstatus]
    exact Runs.forall_update
      (P := fun w (p : Phase) => S.status inner w = .calling → p.isAsking = true)
      (fun w _ => hs.asking w) fun _ => rfl
  · rw [hstatus]
    exact Runs.forall_update (P := fun w p => p = Phase.shutting → S.status inner w = .outside)
      (fun w _ => hs.shutting w) nofun
  · refine Runs.forall_update (P := fun w p => p = Phase.asking true → S.Sealed inner' w)
      (fun w _ hlast => ?_) fun _ => S.shutdown_sealed hstep (hs.shutting worker h) hdrained
    exact S.step_sealed hstep (by rw [S.adds_shutdown]; nofun) (hs.last w hlast)

section Inner

variable {action : S.Action} (hstep : S.step inner action = some inner')
  (hstarts : ∀ w, S.starts inner action = some w → (phases w).isAsking = true)
  (hadds : ∀ w, S.adds action = some w → phases w = .idle)

include hstep hstarts

theorem Within.step_asking (w : Fin n) (hw : S.status inner' w = .calling) :
    (phases w).isAsking = true := by
  rcases S.step_status hstep w with hsame | hstart | ⟨-, hadding⟩ | ⟨-, hne⟩
  · exact hs.asking w (hsame ▸ hw)
  · exact hstarts w hstart
  · rw [hw] at hadding
    cases hadding
  · exact absurd hw hne

include hadds

theorem Within.step_shutting (w : Fin n) (hw : phases w = .shutting) :
    S.status inner' w = .outside := by
  rcases S.step_status hstep w with hsame | hstart | ⟨hadd, -⟩ | ⟨hne, -⟩
  · rw [hsame]
    exact hs.shutting w hw
  · have hasking := hstarts w hstart
    rw [hw] at hasking
    cases hasking
  · have hidle := hadds w hadd
    rw [hw] at hidle
    cases hidle
  · exact absurd (hs.shutting w hw) hne

omit hstarts in
theorem Within.step_last (w : Fin n) (hw : phases w = .asking true) : S.Sealed inner' w := by
  refine S.step_sealed hstep (fun hadd => ?_) (hs.last w hw)
  have hidle := hadds w hadd
  rw [hw] at hidle
  cases hidle

theorem Within.pass (hret : S.returned inner' = S.returned inner) :
    Within limit inner' count phases where
  tickets := hs.tickets
  served := by
    rw [hret]
    exact hs.served
  asking := hs.step_asking hstep hstarts
  shutting := hs.step_shutting hstep hstarts hadds
  last := hs.step_last hstep hadds

theorem Within.serve {ctx : α} (hret : S.returned inner' = S.returned inner ++ [(worker, ctx)])
    (hasks : S.status inner worker = .calling ∨ S.starts inner action = some worker)
    (hout : S.status inner' worker = .outside) (hopen : ¬ S.Sealed inner worker) :
    Within limit inner' count (update phases worker .idle) := by
  have hasking : (phases worker).isAsking = true := hasks.elim (hs.asking worker) (hstarts worker)
  have hphase : phases worker = .asking false := by
    cases hp : phases worker with
    | asking last =>
      cases last with
      | false => rfl
      | true => exact absurd (hs.last worker hp) hopen
    | idle | shutting | past =>
      rw [hp] at hasking
      cases hasking
  have hlate := Runs.sum_update_add phases Phase.late worker .idle
  have hpend := Runs.sum_update_add phases Phase.pending worker .idle
  have hcnt := hs.tickets
  have hserved := hs.served
  rw [hphase] at hlate hpend
  refine ⟨?_, ?_, ?_, ?_, ?_⟩
  · have hsame : Phase.idle.late = (Phase.asking false).late := rfl
    omega
  · have hidle : Phase.idle.pending = 0 ∧ (Phase.asking false).pending = 1 := ⟨rfl, rfl⟩
    rw [hret, length_append, length_singleton]
    omega
  · refine Runs.forall_update
      (P := fun w (p : Phase) => S.status inner' w = .calling → p.isAsking = true)
      (fun w _ => hs.step_asking hstep hstarts w) fun hcalling => ?_
    rw [hout] at hcalling
    cases hcalling
  · exact Runs.forall_update (P := fun w p => p = Phase.shutting → S.status inner' w = .outside)
      (fun w _ => hs.step_shutting hstep hstarts hadds w) nofun
  · exact Runs.forall_update (P := fun w p => p = Phase.asking true → S.Sealed inner' w)
      (fun w _ => hs.step_last hstep hadds w) nofun

end Inner

end Steps

/-- The call that shuts the inner store down is made by a worker that is drained. -/
def DrainedAtLimit (s : State S) : Action S → Prop
  | .shutdown worker => S.Drained s.inner worker
  | .ticket _ | .inner _ => True

theorem Moves.within (hlim : limit + n < 2 ^ 64) (h : Moves limit s a s')
    (hdrained : DrainedAtLimit s a) (hs : Within limit s.inner s.count s.phases) :
    Within limit s'.inner s'.count s'.phases := by
  cases h with
  | ticket h hout => exact hs.ticket hlim h hout
  | shutdown h hstep => exact hs.shutdown h hstep hdrained
  | pass hstep hstarts hadds hret => exact hs.pass hstep hstarts hadds hret
  | serve hstep hstarts hadds hret hasks hout hopen =>
    exact hs.serve hstep hstarts hadds hret hasks hout hopen

/-- The stores that can be limited, by the names of the option `--store`. -/
inductive StoreType where
  | queue
  | threadQueue

def StoreType.store (α : Type) (n : Nat) : StoreType → ContextStore α n
  | .queue => QueueingContextStore.store α n
  | .threadQueue => ThreadQueueStore.store α n

/-- The limit is respected if the worker that shuts the store down has an empty queue. -/
theorem returned_le_limit (type : StoreType) (hlimit : limit + n < 2 ^ 64) (ctxs : List α)
    (actions : List (Action (type.store α n))) {s : State (type.store α n)}
    (hdrained : Runs.Along (step limit) DrainedAtLimit (initial _ ctxs) actions)
    (h : Runs.run (step limit) (initial _ ctxs) actions = some s) :
    ((type.store α n).returned s.inner).length ≤ limit := by
  have hs : Within limit s.inner s.count s.phases :=
    Runs.run_invariant (I := fun s => Within limit s.inner s.count s.phases)
      (fun _ _ _ hdrained hstep hs => (step_moves hstep).within hlimit hdrained hs) hdrained h
      (initial_within ctxs)
  have hserved := hs.served
  omega

instance [DecidableEq α] (s : State (StoreType.threadQueue.store α n)) :
    ∀ a, Decidable (DrainedAtLimit s a)
  | .shutdown worker =>
    inferInstanceAs (Decidable (ThreadQueueStore.State.queue
      (s.inner : ThreadQueueStore.State α n) (some worker) = []))
  | .ticket _ | .inner _ => .isTrue trivial

abbrev oneWorker : ContextStore Nat 1 := StoreType.threadQueue.store Nat 1

def innerSteps (actions : List (ThreadQueueStore.Action Nat 1)) : List (Action oneWorker) :=
  actions.map fun a => .inner (S := ThreadQueueStore.store Nat 1) a

/-- One worker steals the only context; its next call shuts the store down, without a result. -/
def drainedRun : List (Action oneWorker) :=
  .ticket 0 :: innerSteps [.next 0, .next 0, .next 0, .next 0, .steal 0 none, .next 0, .next 0] ++
    [.ticket 0, .shutdown 0] ++ innerSteps [.next 0, .next 0, .next 0, .next 0]

theorem returned_le_limit_drained :
    ∃ s, Runs.run (step 1) (initial oneWorker [7]) drainedRun = some s ∧
      (oneWorker.returned s.inner).length ≤ 1 := by
  obtain ⟨s, hs, -⟩ := Option.map_eq_some_iff.mp
    (show (Runs.run (step 1) (initial oneWorker [7]) drainedRun).map
      (fun _ => ()) = some () by decide +kernel)
  exact ⟨s, hs, returned_le_limit .threadQueue (by decide) [7] drainedRun (by decide +kernel) hs⟩

/-- One worker steals the only context and adds another, which its next call returns after shutting
the store down. -/
def overdrawnRun : List (Action oneWorker) :=
  .ticket 0 :: innerSteps [.next 0, .next 0, .next 0, .next 0, .steal 0 none, .next 0, .next 0,
      .create 0, .add 0 [8], .next 0] ++
    [.ticket 0, .shutdown 0] ++ innerSteps [.next 0, .next 0]

theorem returned_beyond_limit :
    ∃ s, Runs.run (step 1) (initial oneWorker [7]) overdrawnRun = some s ∧
      oneWorker.returned s.inner = [(0, 7), (0, 8)] := by
  exact Option.map_eq_some_iff.mp
    (show (Runs.run (step 1) (initial oneWorker [7]) overdrawnRun).map
      (fun s => oneWorker.returned s.inner) = some [(0, 7), (0, 8)] by decide +kernel)

end CountLimitedStore

end Caffeine
