import Caffeine.IR.EGraphExtractor
import Caffeine.IR.EGraphMatcher
import Caffeine.IR.OperationSimplifierArrays
import Caffeine.Model.GraphAssertionList
import Caffeine.Model.PathGraph

/-!
# The e-graph of a context

The operations of a path condition on the modelled e-graph, with the hash order, the matcher and the
cache of a run and a bound on the steps of its loops. A failed assertion of the source is `none`,
from which no operation returns.
-/

namespace Caffeine

structure EGraphContext where
  egraph : EGraph := {}
  assertions : GraphAssertionList := ∅

namespace EGraphContext

variable (order : HashOrder) (matcher : EMatcher) (cache : OperationCache) (fuel : Nat)

def add (s : EGraphContext) (a : Assertion) : Option EGraphContext := do
  let (id, g) ← s.egraph.addOperation a.value
  some ⟨g, s.assertions.insert id⟩

def simplify (s : EGraphContext) : Option EGraphContext := do
  some { s with egraph := (← s.egraph.simplify order matcher cache fuel).graph }

def canonicalize (s : EGraphContext) : Option EGraphContext := do
  let g ← s.egraph.rebuild order fuel
  some ⟨g, ← s.assertions.canonicalize g fuel⟩

def extractClass (s : EGraphContext) (id : Nat) : Option Assertion := do
  Assertion.ofValue (← s.egraph.extract (OperationSimplifier.createRaw cache) fuel id).1

/-- Registers refer to classes of the graph, so that an expression is extracted from its class. -/
def extract (s : EGraphContext) (a : Assertion) : Option Assertion := do
  let (id, g) ← s.egraph.addOperation a.value
  extractClass cache fuel { s with egraph := g } id

end EGraphContext

/-- The state of a context's e-graph in a run. -/
def EGraphPath (_order : HashOrder) (_matcher : EMatcher) (_cache : OperationCache) (_fuel : Nat) :
    Type := Option EGraphContext

instance (order : HashOrder) (matcher : EMatcher) (cache : OperationCache) (fuel : Nat) :
    PathGraph (EGraphPath order matcher cache fuel) where
  add (g : Option EGraphContext) a := g.bind (·.add a)
  simplify (g : Option EGraphContext) := g.bind (·.simplify order matcher cache fuel)
  canonicalize (g : Option EGraphContext) := g.bind (·.canonicalize order fuel)
  assertions (g : Option EGraphContext) :=
    g.elim [] fun s => s.assertions.list.filterMap (s.extractClass cache fuel)
  extract (g : Option EGraphContext) a := (g.bind (·.extract cache fuel a)).getD a

end Caffeine
