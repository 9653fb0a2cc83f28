import Caffeine.IR.EGraphConstprop
import Caffeine.IR.EMatching
import Caffeine.IR.OperationSimplifier
import Mathlib.Data.List.Sort

/-!
# Equality saturation

`EGraphMatcher::equality_saturation` with the update functions of the default matcher. Potential
matches are recorded as pairs of a class id and a node index and are refreshed only for updated
classes, so that the index of a class that has been absorbed can later point at another node.
Unchecked accesses out of bounds, failed assertions and null pointers are `none`.

`MatchEvent` logs the occasions on which an update function works on data that do not say what
its pattern asked for.
-/

namespace Caffeine

/-- A captured node has another opcode, or a matched `Select` not two different literals. -/
inductive MatchEvent where
  | wrongOpcode
  | equalConstants
  deriving DecidableEq

abbrev MatchData := List (Map Nat (List Nat))

namespace MatchData

def nodes (data : MatchData) (subclause eclass : Nat) : List Nat :=
  ((data[subclause]?).bind (·.lookup eclass)).getD []

end MatchData

abbrev CapturesMap := Map Nat (List ENode)

namespace CapturesMap

def push (captures : CapturesMap) (subclause : Nat) (node : ENode) : CapturesMap :=
  captures.insert subclause ((captures.lookup subclause).getD [] ++ [node])

def capture (captures : CapturesMap) (subclause : Nat) : Option ENode :=
  match captures.lookup subclause with
  | some [node] => some node
  | _ => none

end CapturesMap

/-- The graph with the merges that are put off to the end of a round. -/
structure GraphAccessor where
  graph : EGraph
  merges : List (Nat × Nat) := []
  events : List MatchEvent := []

namespace GraphAccessor

def add (a : GraphAccessor) (node : ENode) : Option (Nat × GraphAccessor) :=
  (a.graph.add node).map (fun r => (r.1, { a with graph := r.2 }))

def addOperation (a : GraphAccessor) (op : Operation) : Option (Nat × GraphAccessor) :=
  (a.graph.addOperation op).map (fun r => (r.1, { a with graph := r.2 }))

def merge (a : GraphAccessor) (id1 id2 : Nat) : GraphAccessor :=
  if id1 = id2 then a else { a with merges := a.merges ++ [(id1, id2)] }

def addMerge (a : GraphAccessor) (eclass : Nat) (node : ENode) : Option GraphAccessor :=
  (a.add node).map (fun r => r.2.merge eclass r.1)

def addMergeOperation (a : GraphAccessor) (eclass : Nat) (op : Operation) : Option GraphAccessor :=
  (a.addOperation op).map (fun r => r.2.merge eclass r.1)

def node (a : GraphAccessor) (eclass index : Nat) : Option ENode := do
  let c ← a.graph.get eclass
  c.nodes[index]?

def type (a : GraphAccessor) (eclass : Nat) : Option Ty := do
  let c ← a.graph.get eclass
  c.type?

def getOp (a : GraphAccessor) (eclass : Nat) : Option Operation :=
  (a.type eclass).map (fun t => .mk (.egraphNode t eclass) [])

def note (a : GraphAccessor) (e : MatchEvent) : GraphAccessor := { a with events := e :: a.events }

def observe (a : GraphAccessor) (opcode : Option Opcode) (node : ENode) : GraphAccessor :=
  if opcode = none ∨ opcode = some node.opcode then a else a.note .wrongOpcode

def constantInt (a : GraphAccessor) (eclass : Nat) : Option APInt := do
  let c ← a.graph.get eclass
  let constant ← c.constant?
  match constant.data with
  | .constantInt v => some v
  | _ => none

/-- Logs a `Select` whose values do not lie in classes with different literals. -/
def observeConstants (a : GraphAccessor) (id1 id2 : Nat) : GraphAccessor :=
  match a.constantInt id1, a.constantInt id2 with
  | some v1, some v2 => if v1 = v2 then a.note .equalConstants else a
  | _, _ => a.note .equalConstants

def persist (a : GraphAccessor) : Option EGraph :=
  a.merges.foldlM (fun g p => (g.merge p.1 p.2).map Prod.snd) a.graph

end GraphAccessor

namespace AssociativityRewriter

/-- `rewrite(size_t)`: the leaves of a tree of one opcode, through the cheapest node of each
class. -/
def leaves (g : EGraph) (opcode : BinaryOpcode) : Nat → Nat → Option (List Nat)
  | 0, _ => none
  | fuel + 1, eclass => do
    let c ← g.get eclass
    let cost ← c.cache.cost
    let node ← c.nodes[cost.index]?
    if node.opcode = .binary opcode then do
      let lhs ← node.operands[0]?
      let rhs ← node.operands[1]?
      let left ← leaves g opcode fuel lhs
      let right ← leaves g opcode fuel rhs
      some (left ++ right)
    else some [eclass]

/-- `compare`: constants first, then by id. -/
def before (a b : Bool × Nat) : Bool :=
  if a.1 != b.1 then a.1 else decide (a.2 ≤ b.2)

def sort (g : EGraph) (items : List Nat) : Option (List Nat) := do
  let keyed ← items.mapM (fun id => (g.get id).map (fun c => (c.isConstant, id)))
  some ((keyed.insertionSort (fun a b => before a b = true)).map Prod.snd)

def emit (a : GraphAccessor) (opcode : BinaryOpcode) (original : Nat) (items : List Nat) :
    Option GraphAccessor := do
  let sorted ← sort a.graph items
  match sorted with
  | [] => none
  | first :: rest => do
    let t ← a.type first
    let r ← rest.foldlM (fun (s : Nat × GraphAccessor) item =>
      s.2.add ⟨.binary opcode t, [s.1, item]⟩) (first, a)
    some (r.2.merge original r.1)

def rewrite (fuel : Nat) (a : GraphAccessor) (opcode : BinaryOpcode) (eclass enode : Nat) :
    Option GraphAccessor := do
  let g ← EGraphExtractor.updateCost fuel a.graph eclass
  let a' := { a with graph := g }
  let node ← a'.node eclass enode
  let lhs ← node.operands[0]?
  let rhs ← node.operands[1]?
  let left ← leaves g opcode fuel lhs
  let right ← leaves g opcode fuel rhs
  emit a' opcode eclass (left ++ right)

end AssociativityRewriter

namespace Rewrite

/-- `icmpeq_select_elimination`. -/
def icmpeqSelectUpdate (cache : OperationCache) (inode snode : ENode) (eclass : Nat)
    (a : GraphAccessor) : Option GraphAccessor := do
  let condition ← snode.operands[0]?
  let trueValue ← snode.operands[1]?
  let falseValue ← snode.operands[2]?
  let compared ← inode.operands[1]?
  if trueValue = falseValue then some a
  else if trueValue = compared then
    some ((a.observeConstants trueValue falseValue).merge eclass condition)
  else if falseValue = compared then do
    let operand ← a.getOp condition
    let op ← Operation.create cache (.unary .not operand.type) [operand]
    (a.observeConstants trueValue falseValue).addMergeOperation eclass op
  else some a

def loadStoreUpdate (load : ENode) (eclass : Nat) (c : EClass) (a : GraphAccessor) (index : Nat) :
    Option GraphAccessor := do
  let store ← c.nodes[index]?
  let array ← store.operands[0]?
  let offset ← store.operands[1]?
  let value ← store.operands[2]?
  let loaded ← load.operands[1]?
  let cond ← (a.observe (some .store) store).add ⟨.icmp .eq, [offset, loaded]⟩
  let rest ← cond.2.add ⟨load.data, [array, loaded]⟩
  rest.2.addMerge eclass ⟨.select load.type, [cond.1, value, rest.1]⟩

def apply (cache : OperationCache) (fuel : Nat) (data : MatchData) (captures : CapturesMap)
    (eclass enode : Nat) (a : GraphAccessor) : Rewrite → Option GraphAccessor
  | .commutativity => do
    let node ← a.node eclass enode
    let lhs ← node.operands[0]?
    let rhs ← node.operands[1]?
    a.addMerge eclass ⟨node.data, [rhs, lhs]⟩
  | .associativity opcode => AssociativityRewriter.rewrite fuel a opcode eclass enode
  | .eliminateToZero => do
    let t ← a.type eclass
    a.addMerge eclass ⟨.constantInt (APInt.ofNat t.bitwidth 0), []⟩
  | .eliminateToOperand => do
    let node ← a.node eclass enode
    let operand ← node.operands[0]?
    some (a.merge eclass operand)
  | .eliminateToBool value => a.addMerge eclass ⟨.constantInt (APInt.ofBool value), []⟩
  | .icmpeqSelect icmpeq select => do
    let inode ← captures.capture icmpeq
    let snode ← captures.capture select
    icmpeqSelectUpdate cache inode snode eclass a
  | .andZero => do
    let node ← a.node eclass enode
    let operand ← node.operands[1]?
    some (a.merge eclass operand)
  | .zextTrunc trunc zext => do
    let tnode ← captures.capture trunc
    let znode ← captures.capture zext
    let inner ← tnode.operands[0]?
    let operand ← a.getOp inner
    let resized ← Operation.createTruncOrZExt cache znode.type operand
    let op ← Operation.create cache (.binary .and resized.type) [resized,
      .constantInt (APInt.getLowBitsSet znode.type.bitwidth tnode.type.bitwidth)]
    a.addMergeOperation eclass op
  | .truncZext zext trunc => do
    let znode ← captures.capture zext
    let tnode ← captures.capture trunc
    let inner ← znode.operands[0]?
    let operand ← a.getOp inner
    let op ← Operation.createTruncOrZExt cache tnode.type operand
    a.addMergeOperation eclass op
  | .selectConstprop => do
    let node ← a.node eclass enode
    let condition ← node.operands[0]?
    let trueValue ← node.operands[1]?
    let falseValue ← node.operands[2]?
    let v ← a.constantInt condition
    some (a.merge eclass (if v.isNullValue then falseValue else trueValue))
  | .loadStore store => do
    let node ← a.node eclass enode
    let array ← node.operands[0]?
    let c ← a.graph.get array
    (data.nodes store array).foldlM (loadStoreUpdate node eclass c) a

end Rewrite

structure WorkItem where
  clause : Nat
  eclass : Nat
  enode : Nat

/-- `potentials`: sub-clause, then class id and node index. `reversed`: the sub-clauses recorded for
a class id. -/
structure EGraphMatcher where
  graph : EGraph
  potentials : Map Nat (List (Nat × Nat)) := ∅
  reversed : Map Nat (List Nat) := ∅
  events : List MatchEvent := []

namespace EGraphMatcher

variable (h : HashOrder) (m : EMatcher)

def erasePotential (eclass : Nat) (s : EGraphMatcher) (clause : Nat) : EGraphMatcher :=
  { s with
    potentials := s.potentials.insert clause
      (((s.potentials.lookup clause).getD []).filter (·.1 ≠ eclass)) }

def addPotential (eclass index : Nat) (node : ENode) (s : EGraphMatcher) (clause : Nat) :
    EGraphMatcher :=
  match m.subclauses[clause]? with
  | none => s
  | some c =>
    if c.isPotentialMatch node then
      { s with
        potentials := s.potentials.insert clause
          ((s.potentials.lookup clause).getD [] ++ [(eclass, index)])
        reversed := s.reversed.insert eclass ((s.reversed.lookup eclass).getD [] ++ [clause]) }
    else s

def addPotentials (eclass : Nat) (s : EGraphMatcher) (p : ENode × Nat) : EGraphMatcher :=
  (m.matchingClauses none ++ m.matchingClauses (some p.1.opcode)).foldl
    (addPotential m eclass p.2 p.1) s

def updateEClassPotentialMatches (s : EGraphMatcher) (eclass : Nat) : Option EGraphMatcher := do
  let c ← s.graph.get eclass
  let s' := ((s.reversed.lookup eclass).getD []).foldl (erasePotential eclass) s
  if s.graph.root eclass ≠ eclass then some s'
  else some (c.nodes.zipIdx.foldl (addPotentials m eclass) s')

def updatePotentialMatches (s : EGraphMatcher) : Option EGraphMatcher :=
  let ids := if s.potentials.keys = [] then s.graph.classes.keys else s.graph.updated
  (h.order s.graph.trace.clock ids).foldlM (updateEClassPotentialMatches m)
    { s with graph := s.graph.tick }

def submatch (data : MatchData) (c : SubClause) (node : ENode) : Bool :=
  c.submatchers = [] ||
    c.submatchers.length = node.operands.length &&
      (c.submatchers.zip node.operands).all (fun p =>
        (data[p.1]?).any (fun matched => (matched.lookup p.2).isSome))

def matchPotential (g : EGraph) (data : MatchData) (c : SubClause) (matched : Map Nat (List Nat))
    (p : Nat × Nat) : Option (Map Nat (List Nat)) := do
  let eclass ← g.get p.1
  let node ← eclass.nodes[p.2]?
  if submatch data c node then
    some (matched.insert p.1 ((matched.lookup p.1).getD [] ++ [p.2]))
  else some matched

def matchClause (r : MatchData × EGraphMatcher) (c : SubClause) :
    Option (MatchData × EGraphMatcher) := do
  let ps := h.order r.2.graph.trace.clock ((r.2.potentials.lookup r.1.length).getD [])
  let matched ← ps.foldlM (matchPotential r.2.graph r.1 c) ∅
  some (r.1 ++ [matched], { r.2 with graph := r.2.graph.tick })

def findMatches (s : EGraphMatcher) : Option (MatchData × EGraphMatcher) :=
  m.subclauses.foldlM (matchClause h) ([], s)

def classItems (g : EGraph) (c : SubClause) (clause : Nat) (p : Nat × List Nat) :
    Option (List WorkItem) := do
  let root ← g.find p.1
  if root ≠ p.1 ∨ p.1 ∉ g.updated then some []
  else p.2.mapM (fun enode => do
    let eclass ← g.get p.1
    let node ← eclass.nodes[enode]?
    if c.opcode = none ∨ c.opcode = some node.opcode then some ⟨clause, p.1, enode⟩ else none)

def clauseItems (data : MatchData) (r : List WorkItem × EGraphMatcher) (p : Clause × Nat) :
    Option (List WorkItem × EGraphMatcher) := do
  let c ← m.subclauses[p.1.matcher]?
  let matched ← data[p.1.matcher]?
  let items ← (h.order r.2.graph.trace.clock matched.pairs).mapM (classItems r.2.graph c p.2)
  some (r.1 ++ items.flatten, { r.2 with graph := r.2.graph.tick })

def matchingWorkItems (data : MatchData) (s : EGraphMatcher) :
    Option (List WorkItem × EGraphMatcher) :=
  m.clauses.zipIdx.foldlM (clauseItems h m data) ([], s)

section Captures

abbrev Callback := CapturesMap → GraphAccessor → Option GraphAccessor

/-- The nested loop over the sub-matchers of a node. -/
def iterate (impl : Nat → Nat → Callback → Callback) :
    List Nat → List Nat → Callback → Callback
  | [], _, func => func
  | submatcher :: submatchers, operand :: operands, func =>
    impl submatcher operand (iterate impl submatchers operands func)
  | _ :: _, [], _ => fun _ _ => none

def allCapturesImpl (data : MatchData) : Nat → Nat → Nat → Callback → Callback
  | 0, _, _, _ => fun _ _ => none
  | fuel + 1, subclause, eclass, func => fun captures a => do
    let captured ← m.captures[subclause]?
    if captured then do
      let c ← m.subclauses[subclause]?
      let cls ← a.graph.get eclass
      (data.nodes subclause eclass).foldlM (fun a index => do
        let node ← cls.nodes[index]?
        let captures' := if c.isCapture then captures.push subclause node else captures
        iterate (allCapturesImpl data fuel) c.submatchers node.operands func captures'
          (a.observe c.opcode node)) a
    else func captures a

def allCaptures (data : MatchData) (subclause eclass enode : Nat) (func : Callback)
    (a : GraphAccessor) : Option GraphAccessor := do
  let node ← a.node eclass enode
  let c ← m.subclauses[subclause]?
  let captured ← m.captures[subclause]?
  let captures : CapturesMap := CapturesMap.push ∅ subclause node
  if captured then
    iterate (allCapturesImpl m data m.subclauses.length) c.submatchers node.operands func
      captures a
  else func captures a

end Captures

variable (cache : OperationCache)

def workOn (fuel : Nat) (data : MatchData) (a : GraphAccessor) (w : WorkItem) :
    Option GraphAccessor := do
  let clause ← m.clauses[w.clause]?
  allCaptures m data clause.matcher w.eclass w.enode
    (fun captures a => clause.update.apply cache fuel data captures w.eclass w.enode a) a

def round (fuel : Nat) (s : EGraphMatcher) : Option EGraphMatcher := do
  let s ← s.updatePotentialMatches h m
  let (data, s) ← s.findMatches h m
  let (work, s) ← matchingWorkItems h m data s
  let a ← work.foldlM (workOn m cache fuel data)
    { graph := { s.graph with updated := [] }, events := s.events }
  let g ← a.persist
  let p ← g.constprop h
  let g ← p.graph.rebuild h fuel
  some { s with graph := g, events := a.events }

def saturate (roundFuel : Nat) : Nat → EGraphMatcher → Option EGraphMatcher
  | 0, _ => none
  | fuel + 1, s =>
    if s.graph.updated = [] then some s
    else do
      let s' ← s.round h m cache roundFuel
      saturate roundFuel fuel s'

end EGraphMatcher

/-- `EGraph::simplify`, with a bound on the rounds and on the loops within a round. -/
def EGraph.simplify (h : HashOrder) (m : EMatcher) (cache : OperationCache) (fuel : Nat)
    (g : EGraph) : Option EGraphMatcher := do
  let p ← g.constprop h
  let g ← p.graph.rebuild h fuel
  EGraphMatcher.saturate h m cache fuel fuel { graph := g }

end Caffeine
