import Caffeine.IR.EGraph
import Caffeine.IR.Value

/-!
# Matchers

The clauses of `IR/EGraphMatching.h` and the default matcher. A sub-clause is a pattern for one node
whose operands are described by other sub-clauses. The update functions are an enumeration; what
they do is defined with the matcher.
-/

namespace Caffeine

namespace Opcode

def isFloat : Opcode → Bool
  | .binary op => op ∈ [.fadd, .fsub, .fmul, .fdiv, .frem]
  | .fcmp _ => true
  | _ => false

end Opcode

inductive SubClauseFilter where
  | identicalOperands
  | constantOperand (value : APInt)
  deriving DecidableEq

namespace SubClauseFilter

def accepts (node : ENode) : SubClauseFilter → Bool
  | .identicalOperands => node.operands.all (fun operand => some operand = node.operands.head?)
  | .constantOperand value =>
    match node.data with
    | .constantInt v => v.val == (value.sextOrTrunc v.width).val
    | _ => false

end SubClauseFilter

/-- The opcode `none` is `Operation::Invalid`, which stands for any opcode. -/
structure SubClause where
  opcode : Option Opcode
  submatchers : List Nat := []
  filter : Option SubClauseFilter := none
  isCapture : Bool := false
  deriving DecidableEq

namespace SubClause

def isPotentialMatch (c : SubClause) (node : ENode) : Bool :=
  (c.opcode = none || c.opcode = some node.opcode) &&
    c.filter.all (SubClauseFilter.accepts node)

/-- `operator==`; filters are compared by address, so that two filters are never equal. -/
def same (a b : SubClause) : Bool :=
  a.opcode = b.opcode && a.submatchers = b.submatchers && a.filter.isNone && b.filter.isNone

end SubClause

/-- The update functions, with the sub-clauses they refer to. -/
inductive Rewrite where
  | commutativity
  | associativity (opcode : BinaryOpcode)
  | eliminateToZero
  | eliminateToOperand
  | eliminateToBool (value : Bool)
  | icmpeqSelect (icmpeq select : Nat)
  | andZero
  | zextTrunc (trunc zext : Nat)
  | truncZext (zext trunc : Nat)
  | selectConstprop
  | loadStore (store : Nat)
  deriving DecidableEq

/-- A clause; the optional filter function is not used by the default matcher. -/
structure Clause where
  matcher : Nat
  update : Rewrite
  deriving DecidableEq

structure EMatcher where
  clauses : List Clause
  subclauses : List SubClause
  captures : List Bool

namespace EMatcher

/-- `subindex`: the sub-clauses with an opcode, in the order of their ids. -/
def matchingClauses (m : EMatcher) (opcode : Option Opcode) : List Nat :=
  (m.subclauses.zipIdx.filter (·.1.opcode = opcode)).map Prod.snd

end EMatcher

/-- The id of a sub-clause is its position. -/
structure EMatcherBuilder where
  clauses : List Clause := []
  subclauses : List SubClause := []

namespace EMatcherBuilder

def addClause (c : SubClause) : StateM EMatcherBuilder Nat := do
  let b ← get
  match b.subclauses.findIdx? (SubClause.same c) with
  | some id => return id
  | none =>
    set { b with subclauses := b.subclauses ++ [c] }
    return b.subclauses.length

def addAny : StateM EMatcherBuilder Nat := addClause { opcode := none }

def addMatcher (clause : Nat) (update : Rewrite) : StateM EMatcherBuilder Unit :=
  modify (fun b => { b with clauses := b.clauses ++ [⟨clause, update⟩] })

/-- `build`: a sub-clause holds captures if it or one of its sub-matchers is one. -/
def build (b : EMatcherBuilder) : EMatcher where
  clauses := b.clauses
  subclauses := b.subclauses
  captures := b.subclauses.foldl (fun captures c =>
    captures ++ [c.isCapture || c.submatchers.any (fun s => captures.getD s false)]) []

def commutativity (opcode : Opcode) : StateM EMatcherBuilder Unit := do
  let clause ← addClause { opcode := opcode }
  addMatcher clause .commutativity

def associativity (opcode : BinaryOpcode) : StateM EMatcherBuilder Unit := do
  let clause ← addClause { opcode := some (.binary opcode) }
  addMatcher clause (.associativity opcode)

def eliminateIdentical (opcode : Opcode) (update : Rewrite) : StateM EMatcherBuilder Unit := do
  let clause ← addClause { opcode := opcode, filter := some .identicalOperands }
  addMatcher clause update

def subElimination : StateM EMatcherBuilder Unit :=
  eliminateIdentical (.binary .sub) .eliminateToZero

def andElimination : StateM EMatcherBuilder Unit :=
  eliminateIdentical (.binary .and) .eliminateToOperand

def xorElimination : StateM EMatcherBuilder Unit :=
  eliminateIdentical (.binary .xor) .eliminateToZero

def orElimination : StateM EMatcherBuilder Unit :=
  eliminateIdentical (.binary .or) .eliminateToOperand

def icmpeqSelectElimination : StateM EMatcherBuilder Unit := do
  let any ← addAny
  let iconst ← addClause { opcode := some .constantInt }
  let select ← addClause
    { opcode := some .select, submatchers := [any, iconst, iconst], isCapture := true }
  let icmpeq ← addClause
    { opcode := some (.icmp .eq), submatchers := [select, iconst], isCapture := true }
  addMatcher icmpeq (.icmpeqSelect icmpeq select)

def icmpEliminations : StateM EMatcherBuilder Unit := do
  eliminateIdentical (.icmp .eq) (.eliminateToBool true)
  eliminateIdentical (.icmp .ne) (.eliminateToBool false)
  eliminateIdentical (.icmp .ugt) (.eliminateToBool false)
  eliminateIdentical (.icmp .uge) (.eliminateToBool true)
  eliminateIdentical (.icmp .ult) (.eliminateToBool false)
  eliminateIdentical (.icmp .ule) (.eliminateToBool true)
  eliminateIdentical (.icmp .sgt) (.eliminateToBool false)
  eliminateIdentical (.icmp .sge) (.eliminateToBool true)
  eliminateIdentical (.icmp .slt) (.eliminateToBool false)
  eliminateIdentical (.icmp .sle) (.eliminateToBool true)
  icmpeqSelectElimination

def andZeroElimination : StateM EMatcherBuilder Unit := do
  let lhs ← addAny
  let rhs ← addClause
    { opcode := some .constantInt, filter := some (.constantOperand (APInt.ofBool false)) }
  let clause ← addClause { opcode := some (.binary .and), submatchers := [lhs, rhs] }
  addMatcher clause .andZero

def zextTruncElimination : StateM EMatcherBuilder Unit := do
  let trunc ← addClause { opcode := some (.unary .trunc), isCapture := true }
  let zext ← addClause
    { opcode := some (.unary .zext), submatchers := [trunc], isCapture := true }
  addMatcher zext (.zextTrunc trunc zext)

def truncZextElimination : StateM EMatcherBuilder Unit := do
  let zext ← addClause { opcode := some (.unary .zext), isCapture := true }
  let trunc ← addClause
    { opcode := some (.unary .trunc), submatchers := [zext], isCapture := true }
  addMatcher trunc (.truncZext zext trunc)

def selectConstprop : StateM EMatcherBuilder Unit := do
  let any ← addAny
  let constant ← addClause { opcode := some .constantInt }
  let select ← addClause { opcode := some .select, submatchers := [constant, any, any] }
  addMatcher select .selectConstprop

def loadStoreElimination : StateM EMatcherBuilder Unit := do
  let any ← addAny
  let store ← addClause { opcode := some .store }
  let load ← addClause { opcode := some .load, submatchers := [store, any] }
  addMatcher load (.loadStore store)

def commutativeOpcodes : List Opcode :=
  [.binary .add, .binary .mul, .binary .and, .binary .or, .binary .xor, .binary .fadd,
    .binary .fsub, .binary .fmul, .icmp .eq, .icmp .ne, .fcmp .eq, .fcmp .ne]

def associativeOpcodes : List BinaryOpcode :=
  [.add, .mul, .and, .or, .xor, .fadd, .fsub, .fmul]

/-- `add_defaults`, for the instances of commutativity and associativity that are kept. -/
def addDefaults (keep : Opcode → Bool) : StateM EMatcherBuilder Unit := do
  (commutativeOpcodes.filter keep).forM commutativity
  (associativeOpcodes.filter (fun op => keep (.binary op))).forM associativity
  subElimination
  andElimination
  xorElimination
  orElimination
  icmpEliminations
  andZeroElimination
  zextTruncElimination
  truncZextElimination
  selectConstprop
  loadStoreElimination

end EMatcherBuilder

/-- The default matcher without its float instances. -/
def EMatcher.integerDefaults : EMatcher :=
  ((EMatcherBuilder.addDefaults (fun opcode => !opcode.isFloat)).run {}).2.build

end Caffeine
