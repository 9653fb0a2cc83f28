import Caffeine.ADT.UnionFind
import Caffeine.IR.Operation
import Caffeine.Util.Containers

/-!
# The e-graph

`EGraph::add`, `merge`, `rebuild`, `repair` and `unparent` of `IR/EGraph.cpp` as functions on an
explicit state. A failed lookup (`at`, a null `get`), a failed assertion and an access through a
dangling reference are `none`. The loops of `rebuild` and `repair` take a step bound.

The field `trace` is bookkeeping: a clock that numbers traversals of hash containers, the log of
all calls to `add`, and the occasions on which `repair` can lose parent entries.
-/

namespace Caffeine

structure ENode where
  data : OperationData
  operands : List Nat
  deriving DecidableEq

namespace ENode

def type (n : ENode) : Ty := n.data.type

def opcode (n : ENode) : Opcode := n.data.opcode

def isConstant (n : ENode) : Bool := n.data.isConstant

end ENode

structure EClassCost where
  cost : Nat
  index : Nat

structure EClassCache where
  expr : Option Operation := none
  cost : Option EClassCost := none

structure EClass where
  nodes : List ENode
  parents : Map ENode Nat := ∅
  cache : EClassCache := {}
  constantIndex : Option Nat

namespace EClass

def ofNodes (nodes : List ENode) : EClass where
  nodes := nodes
  constantIndex := nodes.findIdx? ENode.isConstant

def isConstant (c : EClass) : Bool := c.constantIndex.isSome

def type? (c : EClass) : Option Ty := c.nodes.head?.map ENode.type

def constant? (c : EClass) : Option ENode := c.constantIndex.bind (c.nodes[·]?)

/-- The source compares the own cost with itself, so the own cost and the other expression stay. -/
def mergeCache (c other : EClass) : EClassCache :=
  match other.constantIndex, c.constantIndex with
  | some _, none => other.cache
  | some _, some _ => c.cache
  | none, _ =>
    match c.cache.cost, other.cache.cost with
    | some cost, some _ => { expr := other.cache.expr, cost := some cost }
    | _, _ => {}

def merge (c other : EClass) : Option EClass :=
  if c.type?.isSome ∧ c.type? = other.type? then
    some {
      nodes := c.nodes ++ other.nodes
      parents := c.parents ∪ other.parents
      cache := c.mergeCache other
      constantIndex := c.constantIndex <|> other.constantIndex.map (c.nodes.length + ·) }
  else none

end EClass

/-- Occasions on which `repair` loses an entry of a parent map. -/
inductive RepairEvent where
  | parentErased
  deriving DecidableEq

/-- A call `add(node)` that returned `id`; `fresh` when the id was created by this call. -/
structure AddRecord where
  node : ENode
  id : Nat
  fresh : Bool
  deriving DecidableEq

structure Trace where
  clock : Nat := 0
  adds : List AddRecord := []
  events : List RepairEvent := []

structure EGraph where
  unionFind : UnionFind := .empty
  hashcons : Map ENode Nat := ∅
  classes : Map Nat EClass := ∅
  updated : List Nat := []
  worklist : List Nat := []
  trace : Trace := {}

namespace EGraph

def size (g : EGraph) : Nat := g.unionFind.size

def root (g : EGraph) (id : Nat) : Nat := g.unionFind.find id

def find (g : EGraph) (id : Nat) : Option Nat := if id < g.size then some (g.root id) else none

def get (g : EGraph) (id : Nat) : Option EClass := (g.find id).bind g.classes.lookup

def setClass (g : EGraph) (id : Nat) (c : EClass) : EGraph :=
  { g with classes := g.classes.insert id c }

def tick (g : EGraph) : EGraph := { g with trace.clock := g.trace.clock + 1 }

def note (g : EGraph) (e : RepairEvent) : EGraph := { g with trace.events := e :: g.trace.events }

def recordAdd (g : EGraph) (r : AddRecord) : EGraph :=
  { g with trace.adds := r :: g.trace.adds }

def merge (g : EGraph) (id1 id2 : Nat) : Option (Nat × EGraph) :=
  if h1 : id1 < g.size then
    if h2 : id2 < g.size then
      if g.root id1 = g.root id2 then some (g.root id1, g)
      else do
        let unionFind := g.unionFind.doUnion (g.root id1) (g.root id2)
          (g.unionFind.isRoot_find h1) (g.unionFind.isRoot_find h2)
        let c1 ← g.classes.lookup (g.root id1)
        let c2 ← g.classes.lookup (g.root id2)
        let c ← c1.merge c2
        some (g.root id1, { g with
          unionFind := unionFind
          classes := (g.classes.insert (g.root id1) c).erase (g.root id2)
          worklist := g.worklist ++ [g.root id1]
          updated := g.updated.insert (g.root id1) })
    else none
  else none

def canonicalize (g : EGraph) (node : ENode) : Option ENode := do
  let operands ← node.operands.mapM g.find
  some { node with operands := operands }

def createEClass (g : EGraph) (node : ENode) : Nat × EGraph :=
  let id := g.unionFind.makeSet.1
  (id, { g with
    unionFind := g.unionFind.makeSet.2
    classes := g.classes.emplace id (EClass.ofNodes [node])
    hashcons := g.hashcons.emplace node id
    worklist := g.worklist ++ [id] })

def addParent (node : ENode) (id : Nat) (g : EGraph) (child : Nat) : Option EGraph := do
  let c ← g.classes.lookup child
  some (g.setClass child { c with parents := c.parents.emplace node id })

def add (g : EGraph) (node : ENode) : Option (Nat × EGraph) := do
  let canonical ← g.canonicalize node
  match g.hashcons.lookup canonical with
  | some id => some (id, g.recordAdd ⟨node, id, false⟩)
  | none =>
    let created := g.createEClass canonical
    let g' ← canonical.operands.foldlM (addParent canonical created.1) created.2
    some (created.1, { g' with
      hashcons := g'.hashcons.emplace canonical created.1
      updated := g'.updated.insert created.1 }.recordAdd ⟨node, created.1, true⟩)

mutual

/-- `EGraph::add(const Operation&)`. -/
def addOperation (g : EGraph) : Operation → Option (Nat × EGraph)
  | .mk (.egraphNode _ id) _ => some (id, g)
  | .mk data operands => do
    let r ← g.addOperands operands
    r.2.add { data := data, operands := r.1 }

def addOperands (g : EGraph) : List Operation → Option (List Nat × EGraph)
  | [] => some ([], g)
  | o :: os => do
    let r ← g.addOperation o
    let rs ← r.2.addOperands os
    some (r.1 :: rs.1, rs.2)

end

def eraseParent (node : ENode) (g : EGraph) (operand : Nat) : Option EGraph := do
  let c ← g.get operand
  let g' := if node ∈ c.parents then g.note .parentErased else g
  some (g'.setClass (g.root operand) { c with parents := c.parents.erase node })

/-- The node vector that `swap` with the front and `resize(1)` leave is the constant alone. -/
def unparent (g : EGraph) (id : Nat) : Option EGraph := do
  let c ← g.classes.lookup id
  let index ← c.constantIndex
  if c.nodes.length = 1 then some g
  else do
    let g' ← c.nodes.foldlM (fun g node => node.operands.foldlM (eraseParent node) g) g
    let c' ← g'.classes.lookup id
    let node ← c'.nodes[index]?
    some (g'.setClass id { c' with nodes := [node], constantIndex := some 0 })

def rehash (g : EGraph) (p : ENode × Nat) : Option EGraph := do
  let canonical ← g.canonicalize p.1
  let parent ← g.find p.2
  some { g with hashcons := (g.hashcons.erase p.1).insert canonical parent }

/-- The second loop of `repair`. When the class `id` under repair is absorbed, the reference
`repair` holds dangles; when it absorbs a class with a parent that it does not have, the insertion
into its parents invalidates the iterator of the loop. -/
def repairParents (id : Nat) :
    Nat → EGraph → Map ENode Nat → List (ENode × Nat) → Option (EGraph × Map ENode Nat)
  | _, g, newParents, [] => some (g, newParents)
  | 0, _, _, _ :: _ => none
  | fuel + 1, g, newParents, p :: rest => do
    let canonical ← g.canonicalize p.1
    match newParents.lookup canonical with
    | none => do
      let parent ← g.find p.2
      repairParents id fuel g (newParents.insert canonical parent) rest
    | some other => do
      let r ← g.merge p.2 other
      let newParents' := newParents.insert canonical r.1
      if g.root p.2 = g.root other then repairParents id fuel r.2 newParents' rest
      else if g.root other = id then none
      else if g.root p.2 = id then do
        let c ← g.classes.lookup id
        let absorbed ← g.classes.lookup (g.root other)
        if absorbed.parents.keys ⊆ c.parents.keys then
          repairParents id fuel r.2 newParents' rest
        else none
      else repairParents id fuel r.2 newParents' rest

def repair (h : HashOrder) (fuel : Nat) (g : EGraph) (id : Nat) : Option EGraph := do
  let c ← g.classes.lookup id
  let g1 ← (if c.isConstant then g.unparent id else some g)
  let c1 ← g1.classes.lookup id
  let parents := h.order g1.trace.clock c1.parents.pairs
  let g2 ← parents.foldlM rehash g1.tick
  let r ← repairParents id fuel g2 ∅ parents
  let c3 ← r.1.classes.lookup id
  let nodes ← c3.nodes.mapM r.1.canonicalize
  some (r.1.setClass id { c3 with nodes := nodes, parents := r.2 })

def rebuildStep (h : HashOrder) (fuel : Nat) (s : EGraph × List Nat) (eclass : Nat) :
    Option (EGraph × List Nat) := do
  let id ← s.1.find eclass
  let g ← s.1.repair h fuel id
  let c ← g.classes.lookup id
  some (g.tick, (h.order g.trace.clock (c.parents.pairs.map Prod.snd)).reverse ++ s.2)

def rebuildLoop (h : HashOrder) : Nat → EGraph × List Nat → Option (EGraph × List Nat)
  | 0, _ => none
  | fuel + 1, s =>
    if s.1.worklist = [] then some s
    else do
      let s' ← s.1.worklist.foldlM (rebuildStep h fuel) ({ s.1 with worklist := [] }, s.2)
      rebuildLoop h fuel s'

def clearCache (g : EGraph) (id : Nat) (c : EClass) : EGraph :=
  { g.setClass (g.root id) { c with cache := {} } with updated := g.updated.insert id }

def clearCaches (h : HashOrder) : Nat → EGraph → List Nat → List Nat → Option EGraph
  | _, g, _, [] => some g
  | 0, _, _, _ :: _ => none
  | fuel + 1, g, visited, id :: stack =>
    if id ∈ visited then clearCaches h fuel g visited stack
    else do
      let c ← g.get id
      let parents := (h.order g.trace.clock (c.parents.pairs.map Prod.snd)).filter
        (· ∉ id :: visited)
      clearCaches h fuel (g.clearCache id c).tick (id :: visited) (parents.reverse ++ stack)

def rebuild (h : HashOrder) (fuel : Nat) (g : EGraph) : Option EGraph := do
  let s ← rebuildLoop h fuel (g, [])
  clearCaches h fuel s.1 [] s.2

end EGraph

end Caffeine
