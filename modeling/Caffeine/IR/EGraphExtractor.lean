import Caffeine.IR.EGraphSteps

/-!
# Extraction

`EGraphExtractor` picks a cheapest node of every class and builds the expression bottom-up with
`Operation::CreateRaw`. Unless the graph is const it caches the costs and expressions in the
classes.
-/

namespace Caffeine

/-- `SIZE_MAX`, equal to `UINT64_MAX` on the supported targets. -/
def sizeMax : Nat := 2 ^ 64 - 1

structure EGraphExtractor where
  graph : EGraph
  isConst : Bool := false
  costs : Map Nat EClassCost := ∅
  expressions : Map Nat Operation := ∅
  visited : List Nat := []

def EClass.withCost (c : EClass) (cost : Option EClassCost) : EClass :=
  { c with cache := { expr := c.cache.expr, cost := cost } }

def EClass.withExpr (c : EClass) (expr : Option Operation) : EClass :=
  { c with cache := { expr := expr, cost := c.cache.cost } }

namespace EGraphExtractor

def opcodeCost : Opcode → Nat
  | .constantNamed => 2 ^ 16
  | .constantNumbered => 2 ^ 16
  | .constantArray => 2 ^ 16
  | _ => 1

/-- Writes to the class of an id, unless the extractor holds the graph as const. -/
def updateClass (x : EGraphExtractor) (id : Nat) (f : EClass → EClass) : EGraph :=
  if x.isConst then x.graph
  else
    match x.graph.get id with
    | none => x.graph
    | some c => x.graph.setClass (x.graph.root id) (f c)

def updateCachedCost (x : EGraphExtractor) (id : Nat) (cost : EClassCost) : EGraphExtractor :=
  { x with
    costs := x.costs.emplace id cost
    graph := x.updateClass id (fun c => c.withCost cost) }

def updateCachedExpr (x : EGraphExtractor) (id : Nat) (expr : Operation) : EGraphExtractor :=
  { x with
    expressions := x.expressions.emplace id expr
    graph := x.updateClass id (fun c => c.withExpr expr) }

section EvalCost

variable (evalClass : EGraphExtractor → Nat → Option (EClassCost × EGraphExtractor))

def evalNodeCost (x : EGraphExtractor) (node : ENode) : Option (Nat × EGraphExtractor) :=
  node.operands.foldlM (fun s operand => do
    let r ← evalClass s.2 operand
    some ((s.1 + r.1.cost) % 2 ^ 64, r.2)) (opcodeCost node.opcode, x)

def evalNodes (x : EGraphExtractor) (nodes : List ENode) : Option (EClassCost × EGraphExtractor) :=
  nodes.zipIdx.foldlM (fun s node => do
    let r ← evalNodeCost evalClass s.2 node.1
    some (if r.1 < s.1.cost then ⟨r.1, node.2⟩ else s.1, r.2)) (⟨sizeMax, sizeMax⟩, x)

end EvalCost

/-- A class met again before its cost is known closes a cycle, at a prohibitive cost. -/
def evalCost : Nat → EGraphExtractor → Nat → Option (EClassCost × EGraphExtractor)
  | 0, _, _ => none
  | fuel + 1, x, id => do
    let c ← x.graph.get id
    match c.cache.cost, x.costs.lookup (x.graph.root id) with
    | some cost, _ => some (cost, x)
    | none, some cost => some (cost, x)
    | none, none =>
      if x.graph.root id ∈ x.visited then some (⟨2 ^ 32 - 1, sizeMax⟩, x)
      else do
        let x' := { x with visited := x.graph.root id :: x.visited }
        let r ← evalNodes (evalCost fuel) x' c.nodes
        if r.1.index = sizeMax then none
        else some (r.1, r.2.updateCachedCost (x.graph.root id) r.1)

def updateCost (fuel : Nat) (g : EGraph) (id : Nat) : Option EGraph :=
  (evalCost fuel { graph := g } id).map (·.2.graph)

section Extract

variable (createRaw : Constructor)

/-- `extract(size_t)`, with `Operation::CreateRaw` as a parameter. -/
def extract : Nat → EGraphExtractor → Nat → Option (Operation × EGraphExtractor)
  | 0, _, _ => none
  | fuel + 1, x, id => do
    let id ← x.graph.find id
    let c ← x.graph.get id
    match c.cache.expr, x.expressions.lookup id with
    | some expr, _ => some (expr, x)
    | none, some expr => some (expr, x)
    | none, none => do
      let r ← evalCost fuel x id
      let node ← c.nodes[r.1.index]?
      let rs ← node.operands.foldlM (fun s operand => do
        let r ← extract fuel s.2 operand
        some (s.1 ++ [r.1], r.2)) ([], r.2)
      let expr ← createRaw node.data rs.1
      some (expr, rs.2.updateCachedExpr id expr)

end Extract

end EGraphExtractor

variable {id : Nat} {x : EGraphExtractor}

namespace EGraph

def extract (createRaw : Constructor) (fuel : Nat)
    (g : EGraph) (id : Nat) : Option (Operation × EGraph) :=
  (EGraphExtractor.extract createRaw fuel { graph := g } id).map (fun r => (r.1, r.2.graph))

structure Recosted (g g' : EGraph) : Prop where
  frame : ∃ cs, g' = { g with classes := cs }
  classes : ∀ k c', g'.classes.lookup k = some c' →
    ∃ c cost, g.classes.lookup k = some c ∧ c' = c.withCost cost
  keys : ∀ k, k ∈ g'.classes ↔ k ∈ g.classes

namespace Recosted

variable {g g' g'' : EGraph}

theorem refl (g : EGraph) : Recosted g g where
  frame := ⟨_, rfl⟩
  classes _ c hc := ⟨c, c.cache.cost, hc, rfl⟩
  keys _ := Iff.rfl

theorem trans (h : Recosted g g') (h' : Recosted g' g'') : Recosted g g'' where
  frame := by
    obtain ⟨cs, rfl⟩ := h.frame
    obtain ⟨cs', rfl⟩ := h'.frame
    exact ⟨cs', rfl⟩
  classes k c'' hc'' := by
    obtain ⟨c', cost', hc', rfl⟩ := h'.classes k c'' hc''
    obtain ⟨c, cost, hc, rfl⟩ := h.classes k c' hc'
    exact ⟨c, cost', hc, rfl⟩
  keys k := (h'.keys k).trans (h.keys k)

theorem root (h : Recosted g g') (k : Nat) : g'.root k = g.root k := by
  obtain ⟨cs, rfl⟩ := h.frame
  rfl

theorem size (h : Recosted g g') : g'.size = g.size := by
  obtain ⟨cs, rfl⟩ := h.frame
  rfl

theorem setClass {c : EClass} (hc : g.classes.lookup id = some c) (cost : Option EClassCost) :
    Recosted g (g.setClass id (c.withCost cost)) where
  frame := ⟨_, rfl⟩
  classes k c' hc' := by
    have hlook : (g.setClass id (c.withCost cost)).classes.lookup k =
      if k = id then some (c.withCost cost) else g.classes.lookup k :=
        Map.lookup_insert _ _ _ _
    rw [hlook] at hc'
    split_ifs at hc' with hk
    · cases hc'
      exact ⟨c, cost, hk ▸ hc, rfl⟩
    · exact ⟨c', c'.cache.cost, hc', rfl⟩
  keys k := by
    change k ∈ g.classes.insert id _ ↔ _
    rw [AList.mem_insert]
    constructor
    · rintro (rfl | hk)
      · exact Map.mem_of_lookup hc
      · exact hk
    · exact .inr

end Recosted

end EGraph

namespace EGraphExtractor

open EGraph

def CostStep (x x' : EGraphExtractor) : Prop :=
  Recosted x.graph x'.graph ∧ x'.expressions = x.expressions ∧ x'.isConst = x.isConst

theorem CostStep.refl (x : EGraphExtractor) : CostStep x x := ⟨Recosted.refl _, rfl, rfl⟩

theorem CostStep.trans {x' x'' : EGraphExtractor} (h : CostStep x x') (h' : CostStep x' x'') :
    CostStep x x'' :=
  ⟨h.1.trans h'.1, h'.2.1.trans h.2.1, h'.2.2.trans h.2.2⟩

theorem updateClass_cases (x : EGraphExtractor) (id : Nat) (f : EClass → EClass) :
    x.updateClass id f = x.graph ∨ ∃ c, x.graph.classes.lookup (x.graph.root id) = some c ∧
      x.updateClass id f = x.graph.setClass (x.graph.root id) (f c) := by
  unfold updateClass
  split_ifs with hconst
  · exact .inl rfl
  · cases hget : x.graph.get id with
    | none => exact .inl rfl
    | some c => exact .inr ⟨c, (get_eq_some.mp hget).2, rfl⟩

theorem updateClass_eq {f : EClass → EClass} {c : EClass} (hconst : x.isConst = false)
    (hc : x.graph.get id = some c) :
    x.updateClass id f = x.graph.setClass (x.graph.root id) (f c) := by
  simp [updateClass, hconst, hc]

theorem updateCachedCost_step (x : EGraphExtractor) (id : Nat) (cost : EClassCost) :
    CostStep x (x.updateCachedCost id cost) := by
  refine ⟨?_, rfl, rfl⟩
  change Recosted x.graph (x.updateClass id (fun c => c.withCost cost))
  rcases x.updateClass_cases id (fun c => c.withCost cost) with h | ⟨c, hc, h⟩
  · rw [h]
    exact Recosted.refl _
  · rw [h]
    exact Recosted.setClass hc _

section EvalCost

variable {evalClass : EGraphExtractor → Nat → Option (EClassCost × EGraphExtractor)}
  (heval : ∀ x id r, evalClass x id = some r → CostStep x r.2)

include heval

theorem evalNodeCost_step {node : ENode} {r : Nat × EGraphExtractor}
    (h : evalNodeCost evalClass x node = some r) : CostStep x r.2 := by
  refine foldlM_invariant (fun s => CostStep x s.2) ?_ h (CostStep.refl x)
  intro s o s' _ hs hx
  simp only [bind_eq_some, Option.some.injEq] at hs
  obtain ⟨t, ht, rfl⟩ := hs
  exact hx.trans (heval _ _ _ ht)

theorem evalNodes_step {nodes : List ENode} {r : EClassCost × EGraphExtractor}
    (h : evalNodes evalClass x nodes = some r) : CostStep x r.2 := by
  refine foldlM_invariant (fun s => CostStep x s.2) ?_ h (CostStep.refl x)
  intro s o s' _ hs hx
  simp only [bind_eq_some, Option.some.injEq] at hs
  obtain ⟨t, ht, rfl⟩ := hs
  exact hx.trans (evalNodeCost_step heval ht)

end EvalCost

theorem evalCost_step {fuel : Nat} {r : EClassCost × EGraphExtractor}
    (h : evalCost fuel x id = some r) : CostStep x r.2 := by
  induction fuel generalizing x id r with
  | zero => cases h
  | succ fuel ih =>
    simp only [evalCost, Option.bind_eq_bind, Option.bind_eq_some_iff] at h
    obtain ⟨c, hc, h⟩ := h
    split at h
    · cases h
      exact CostStep.refl x
    · cases h
      exact CostStep.refl x
    · split_ifs at h with hvisd
      · cases h
        exact CostStep.refl x
      · simp only [Option.bind_eq_some_iff] at h
        obtain ⟨s, hs, h⟩ := h
        split_ifs at h
        cases h
        have hnodes := evalNodes_step (fun _ _ _ hr => ih hr) hs
        exact CostStep.trans ⟨hnodes.1, hnodes.2.1, hnodes.2.2⟩ (updateCachedCost_step _ _ _)

end EGraphExtractor

end Caffeine
