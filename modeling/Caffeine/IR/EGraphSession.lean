import Caffeine.IR.EGraphSound
import Caffeine.IR.Value

/-!
# Sessions with an e-graph

A session is a sequence of calls to an initially empty e-graph. It keeps the expressions added, with
their ids, and the merges asked for.
-/

namespace Caffeine

open EGraph List Option

/-- Loops and recursions run under the step bound of their call. -/
inductive EGraphCall where
  | addNode (node : ENode)
  | add (op : Operation)
  | merge (id1 id2 : Nat)
  | rebuild (fuel : Nat)
  | extract (fuel id : Nat)

structure EGraphSession where
  graph : EGraph := {}
  expressions : List (Operation × Nat) := []
  merges : List (Nat × Nat) := []

namespace EGraphSession

variable (h : HashOrder) (createRaw : Constructor)

def exec (s : EGraphSession) : EGraphCall → Option EGraphSession
  | .addNode node => (s.graph.add node).map (fun r => { s with graph := r.2 })
  | .add op => (s.graph.addOperation op).map (fun r =>
      { s with graph := r.2, expressions := (op, r.1) :: s.expressions })
  | .merge id1 id2 => (s.graph.merge id1 id2).map (fun r =>
      { s with graph := r.2, merges := (id1, id2) :: s.merges })
  | .rebuild fuel => (s.graph.rebuild h fuel).map (fun g => { s with graph := g })
  | .extract fuel id => (s.graph.extract createRaw fuel id).map (fun r => { s with graph := r.2 })

def run (s : EGraphSession) (calls : List EGraphCall) : Option EGraphSession :=
  calls.foldlM (exec h createRaw) s

end EGraphSession

namespace EGraphSession

variable {h : HashOrder} {createRaw : Constructor}

/-- What a call can do. -/
inductive Executes (h : HashOrder) (createRaw : Constructor) (s : EGraphSession) :
    EGraphCall → EGraphSession → Prop
  | addNode {node r} (hr : s.graph.add node = some r) :
    Executes h createRaw s (.addNode node) { s with graph := r.2 }
  | add {op r} (hr : s.graph.addOperation op = some r) : Executes h createRaw s (.add op)
      { s with graph := r.2, expressions := (op, r.1) :: s.expressions }
  | merge {id1 id2 r} (hr : s.graph.merge id1 id2 = some r) :
    Executes h createRaw s (.merge id1 id2)
      { s with graph := r.2, merges := (id1, id2) :: s.merges }
  | rebuild {fuel g} (hr : s.graph.rebuild h fuel = some g) :
    Executes h createRaw s (.rebuild fuel) { s with graph := g }
  | extract {fuel id r}
    (hr : EGraphExtractor.extract createRaw fuel { graph := s.graph } id = some r) :
    Executes h createRaw s (.extract fuel id) { s with graph := r.2.graph }

variable {s s' : EGraphSession} {call : EGraphCall}

theorem exec_cases (he : exec h createRaw s call = some s') : Executes h createRaw s call s' := by
  cases call <;> obtain ⟨r, hr, rfl⟩ := map_eq_some_iff.mp he
  case addNode => exact .addNode hr
  case add => exact .add hr
  case merge => exact .merge hr
  case rebuild => exact .rebuild hr
  case extract =>
    obtain ⟨t, ht, rfl⟩ := map_eq_some_iff.mp hr
    exact .extract ht

theorem exec_extends (he : exec h createRaw s call = some s') :
    Extends s.graph s'.graph ∧ s.expressions ⊆ s'.expressions ∧ s.merges ⊆ s'.merges := by
  cases exec_cases he with
  | addNode hr => exact ⟨Extends.add hr, fun _ h => h, fun _ h => h⟩
  | add hr => exact ⟨Extends.addOperation hr, subset_cons_self _ _, fun _ h => h⟩
  | merge hr => exact ⟨Extends.merge hr, fun _ h => h, subset_cons_self _ _⟩
  | rebuild hr => exact ⟨Extends.rebuild hr, fun _ h => h, fun _ h => h⟩
  | extract hr =>
    exact ⟨(EGraphExtractor.extract_sameParents hr).toExtends, fun _ h => h, fun _ h => h⟩

section Sound

variable {α : Type*} {sem : OperationData → List α → α} {V : Nat → α}

structure SessionSound (sem : OperationData → List α → α) (V : Nat → α)
    (s : EGraphSession) : Prop where
  graph : Sound sem V s.graph
  expressions : ∀ p ∈ s.expressions, p.1.fold sem = V p.2

theorem exec_sound
    (hcr : ∀ d ops o, createRaw d ops = some o → o.fold sem = sem d (ops.map (Operation.fold sem)))
    (href : ∀ t i vs, sem (.egraphNode t i) vs = V i)
    (he : exec h createRaw s call = some s') (hs : SessionSound sem V s)
    (hv : IsValuation sem V s'.graph) (hmerges : ∀ p ∈ s'.merges, V p.1 = V p.2) :
    SessionSound sem V s' := by
  cases exec_cases he with
  | addNode hr => exact ⟨(hs.graph.add_of_isValuation hr hv).1, hs.expressions⟩
  | add hr =>
    obtain ⟨hg, hval⟩ := hs.graph.addOperation href hr hv
    refine ⟨hg, ?_⟩
    intro p hp
    rcases mem_cons.mp hp with rfl | hp
    · exact hval
    · exact hs.expressions p hp
  | merge hr => exact ⟨(hs.graph.merge (hmerges _ mem_cons_self) hr).1, hs.expressions⟩
  | rebuild hr => exact ⟨hs.graph.rebuild hr, hs.expressions⟩
  | extract hr =>
    have hx : EGraphExtractor.ExtractSound sem V { graph := s.graph } :=
      ⟨hs.graph, fun id e he => by simp at he⟩
    exact ⟨(EGraphExtractor.extract_sound hcr hx hr).1.graph, hs.expressions⟩

theorem run_sessionSound
    (hcr : ∀ d ops o, createRaw d ops = some o → o.fold sem = sem d (ops.map (Operation.fold sem)))
    (href : ∀ t i vs, sem (.egraphNode t i) vs = V i)
    {calls : List EGraphCall} {s : EGraphSession} (hrun : run h createRaw {} calls = some s)
    (hv : IsValuation sem V s.graph) (hmerges : ∀ p ∈ s.merges, V p.1 = V p.2) :
    SessionSound sem V s := by
  refine foldlM_invariant (fun s => IsValuation sem V s.graph →
    (∀ p ∈ s.merges, V p.1 = V p.2) → SessionSound sem V s) ?_ hrun
    (fun _ _ => ⟨sound_empty, fun p hp => nomatch hp⟩) hv hmerges
  intro t call t' _ ht ih hv' hm'
  obtain ⟨hext, -, hsub⟩ := exec_extends ht
  exact exec_sound hcr href ht
    (ih (hv'.of_extends hext) (fun p hp => hm' p (hsub hp))) hv' hm'

/-- If the merges asked for join ids of equal value, what is extracted for an id has the value of
the id and of every expression added under it. -/
theorem run_sound (h : HashOrder) (createRaw : Constructor) (sem : OperationData → List α → α)
    (V : Nat → α) (hcreate : ∀ d ops o, createRaw d ops = some o →
      o.fold sem = sem d (ops.map (Operation.fold sem)))
    (href : ∀ t i vs, sem (.egraphNode t i) vs = V i)
    (calls : List EGraphCall) (s : EGraphSession) (hrun : run h createRaw {} calls = some s)
    (hv : IsValuation sem V s.graph) (hmerges : ∀ p ∈ s.merges, V p.1 = V p.2) :
    Sound sem V s.graph ∧ (∀ p ∈ s.expressions, p.1.fold sem = V p.2) ∧
      ∀ isConst fuel id e x,
        EGraphExtractor.extract createRaw fuel { graph := s.graph, isConst := isConst } id =
          some (e, x) →
        e.fold sem = V id ∧ ∀ o, (o, id) ∈ s.expressions → e.fold sem = o.fold sem := by
  have hs := run_sessionSound hcreate href hrun hv hmerges
  refine ⟨hs.graph, hs.expressions, ?_⟩
  intro isConst fuel id e x hx
  have hinit : EGraphExtractor.ExtractSound sem V { graph := s.graph, isConst := isConst } :=
    ⟨hs.graph, fun id e he => by simp at he⟩
  have hval := (EGraphExtractor.extract_sound hcreate hinit hx).2
  exact ⟨hval, fun o ho => hval.trans (hs.expressions (o, id) ho).symm⟩

end Sound

/-- Two symbols of equal value are merged, and their complements become congruent. -/
theorem run_sound_merged_symbols :
    let x := Operation.constant (.int 8) (.numbered 0)
    let y := Operation.constant (.int 8) (.numbered 1)
    let V : Nat → Val := fun i => .int ⟨8, if i < 2 then 5 else 250⟩
    let σ : Assignment := { int := fun _ w => BitVec.ofNat w 5, array := fun _ _ _ => 0, node := V }
    ∃ s, run .insertion (fun d ops => some (.mk d ops)) {}
        [.add x, .add y, .add (.mk (.unary .not (.int 8)) [x]),
          .add (.mk (.unary .not (.int 8)) [y]), .merge 0 1, .rebuild 9, .extract 9 3] = some s ∧
      s.merges = [(0, 1)] ∧ Sound (Semantics.apply σ) V s.graph := by
  intro x y V σ
  obtain ⟨s, hs⟩ := isSome_iff_exists.mp (show (run .insertion
    (fun d ops => some (.mk d ops)) {} [.add x, .add y, .add (.mk (.unary .not (.int 8)) [x]),
      .add (.mk (.unary .not (.int 8)) [y]), .merge 0 1, .rebuild 9, .extract 9 3]).isSome = true
    by decide +kernel)
  have hmerges : s.merges = [(0, 1)] := by
    refine some.inj ((congrArg (Option.map merges) hs).symm.trans ?_)
    decide +kernel
  have hadds : s.graph.trace.adds = [
      ⟨⟨.unary .not (.int 8), [1]⟩, 3, true⟩, ⟨⟨.constant (.int 8) (.numbered 1), []⟩, 1, false⟩,
      ⟨⟨.unary .not (.int 8), [0]⟩, 2, true⟩, ⟨⟨.constant (.int 8) (.numbered 0), []⟩, 0, false⟩,
      ⟨⟨.constant (.int 8) (.numbered 1), []⟩, 1, true⟩,
      ⟨⟨.constant (.int 8) (.numbered 0), []⟩, 0, true⟩] := by
    refine some.inj ((congrArg (Option.map fun t : EGraphSession => t.graph.trace.adds)
      hs).symm.trans ?_)
    decide +kernel
  refine ⟨s, hs, hmerges, (run_sound _ _ (Semantics.apply σ) V ?_ ?_ _ s hs ?_ ?_).1⟩
  · intro d ops o ho
    cases ho
    exact Operation.fold_mk _ d ops
  · exact fun _ _ _ => rfl
  · intro r hr _
    rw [hadds] at hr
    simp only [mem_cons, not_mem_nil, or_false] at hr
    rcases hr with rfl | rfl | rfl | rfl | rfl | rfl <;> rfl
  · intro p hp
    rw [hmerges, mem_singleton] at hp
    rw [hp]
    rfl

end EGraphSession

end Caffeine
