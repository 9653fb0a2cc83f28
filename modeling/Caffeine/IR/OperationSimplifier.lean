import Caffeine.IR.Typing

/-!
# The folding constructors

`OperationSimplifier` runs inside every constructor. Here are the visitors of the integer opcodes,
`Select` and `ICmp`; those of floats and `Bitcast` are not modelled. A failed assertion is `none`.
The constructors a visitor calls are a parameter; `create` ties the knot with a bound on the
nesting.
-/

namespace Caffeine

/-- Which operations are one object. One object is equal to itself; the rest depends on the cache
and the caller. -/
structure OperationCache where
  same : Operation → Operation → Bool
  eq_of_same : ∀ a b, same a b = true → a = b

def OperationCache.full : OperationCache where
  same a b := decide (a = b)
  eq_of_same _ _ h := of_decide_eq_true h

namespace OperationSimplifier

open Operation

def constantInt? (op : Operation) : Option APInt :=
  match op.data with
  | .constantInt v => some v
  | _ => none

def isConstantInt (op : Operation) (value : Nat) : Bool :=
  (constantInt? op).any (·.eqNat value)

def isConstantOnes (op : Operation) : Bool := (constantInt? op).any (·.isAllOnesValue)

def isUndef (op : Operation) : Bool :=
  match op.data with
  | .undef _ => true
  | _ => false

def tryConstInt (lhs rhs : Operation) (fold : APInt → APInt → APInt)
    (otherwise : Option Operation) : Option Operation :=
  match constantInt? lhs, constantInt? rhs with
  | some a, some b => some (constantInt (fold a b))
  | _, _ => otherwise

def matchBinary (opcode : BinaryOpcode) : Operation → Option (Operation × Operation)
  | .mk (.binary op _) [lhs, rhs] => if op = opcode then some (lhs, rhs) else none
  | _ => none

def matchByConst (opcode : BinaryOpcode) (op : Operation) : Option (Operation × Operation) :=
  (matchBinary opcode op).filter (fun p => (constantInt? p.2).isSome)

/-- `And` with a literal on either side: the literal and the other operand. -/
def matchMask (op : Operation) : Option (Operation × Operation) :=
  ((matchBinary .and op).filter (fun p => (constantInt? p.1).isSome)) <|>
    (matchByConst .and op).map Prod.swap

/-- A literal with a logical shift by a literal, on either side: mask, value and shift. -/
def matchShiftedMask (lhs rhs : Operation) : Option (Operation × Operation × Operation) :=
  (if (constantInt? lhs).isSome then (matchByConst .lshr rhs).map (Prod.mk lhs) else none) <|>
    if (constantInt? rhs).isSome then (matchByConst .lshr lhs).map (Prod.mk rhs) else none

/-- A literal with a masked value, on either side: both masks and the value. -/
def matchTwoMasks (lhs rhs : Operation) : Option (Operation × Operation × Operation) :=
  if (constantInt? lhs).isSome then (matchMask rhs).map (Prod.mk lhs)
  else if (constantInt? rhs).isSome then (matchMask lhs).map (Prod.mk rhs)
  else none

def visitBinaryOp (op : BinaryOpcode) (t : Ty) (lhs rhs : Operation) : Option Operation :=
  some (.mk (.binary op t) [lhs, rhs])

section Visitors

variable (cache : OperationCache)
  (create : BinaryConstructor)

def visitAdd (t : Ty) (lhs rhs : Operation) : Option Operation :=
  if isUndef lhs || isUndef rhs then some (.mk (.undef t) [])
  else if isConstantInt lhs 0 then some rhs
  else if isConstantInt rhs 0 then some lhs
  else tryConstInt lhs rhs APInt.add (visitBinaryOp .add t lhs rhs)

def visitSub (t : Ty) (lhs rhs : Operation) : Option Operation :=
  if isUndef lhs || isUndef rhs then some (.mk (.undef t) [])
  else if isConstantInt rhs 0 then some lhs
  else if cache.same rhs lhs then some (constantInt (APInt.ofNat t.bitwidth 0))
  else tryConstInt lhs rhs APInt.sub (visitBinaryOp .sub t lhs rhs)

def visitMul (t : Ty) (lhs rhs : Operation) : Option Operation :=
  if isConstantInt lhs 0 then some lhs
  else if isConstantInt rhs 0 then some rhs
  else tryConstInt lhs rhs APInt.mul (visitBinaryOp .mul t lhs rhs)

def visitUDiv (t : Ty) (lhs rhs : Operation) : Option Operation :=
  if isConstantInt lhs 0 || isConstantInt rhs 1 then some lhs
  else tryConstInt lhs rhs Value.bvudiv (visitBinaryOp .udiv t lhs rhs)

def visitSDiv (t : Ty) (lhs rhs : Operation) : Option Operation :=
  if isConstantInt lhs 0 then some lhs
  else if isConstantInt rhs 1 && decide (1 < t.bitwidth) then some lhs
  else tryConstInt lhs rhs Value.bvsdiv (visitBinaryOp .sdiv t lhs rhs)

def visitURem (t : Ty) (lhs rhs : Operation) : Option Operation :=
  if isConstantInt lhs 0 then some lhs
  else if isConstantInt rhs 1 then some (constantInt (APInt.ofNat t.bitwidth 0))
  else tryConstInt lhs rhs Value.bvurem (visitBinaryOp .urem t lhs rhs)

def visitSRem (t : Ty) (lhs rhs : Operation) : Option Operation :=
  if isConstantInt lhs 0 then some lhs
  else if isConstantInt rhs 1 && decide (1 < t.bitwidth) then
    some (constantInt (APInt.ofNat t.bitwidth 0))
  else tryConstInt lhs rhs Value.bvsrem (visitBinaryOp .srem t lhs rhs)

/-- `(and (lshr x s) m)` becomes `(lshr (and x (shl m s)) s)`, and two masks become one. -/
def visitAnd (t : Ty) (lhs rhs : Operation) : Option Operation :=
  if isConstantInt lhs 0 then some lhs
  else if isConstantInt rhs 0 then some rhs
  else if isConstantOnes lhs then some rhs
  else if isConstantOnes rhs then some lhs
  else tryConstInt lhs rhs APInt.and
    (match matchShiftedMask lhs rhs with
    | some (mask, value, shift) => do
      let mask ← create .shl mask shift
      let value ← create .and value mask
      create .lshr value shift
    | none =>
      match matchTwoMasks lhs rhs with
      | some (mask1, mask2, value) => do
        let mask ← create .and mask1 mask2
        create .and value mask
      | none => visitBinaryOp .and t lhs rhs)

def visitOr (t : Ty) (lhs rhs : Operation) : Option Operation :=
  if isConstantInt lhs 0 then some rhs
  else if isConstantInt rhs 0 then some lhs
  else if isConstantOnes lhs then some lhs
  else if isConstantOnes rhs then some rhs
  else tryConstInt lhs rhs APInt.or
    (match matchByConst .and lhs, matchByConst .and rhs with
    | some (value1, mask1), some (value2, mask2) =>
      if cache.same value1 value2 then do
        let mask ← create .or mask1 mask2
        create .and value1 mask
      else visitBinaryOp .or t lhs rhs
    | _, _ => visitBinaryOp .or t lhs rhs)

def visitXor (t : Ty) (lhs rhs : Operation) : Option Operation :=
  if isUndef lhs || isUndef rhs then some (.mk (.undef t) [])
  else if isConstantInt lhs 0 then some rhs
  else if isConstantInt rhs 0 then some lhs
  else tryConstInt lhs rhs APInt.xor (visitBinaryOp .xor t lhs rhs)

/-- A left shift that undoes a right shift by the same literal becomes a mask. -/
def visitShl (t : Ty) (lhs rhs : Operation) : Option Operation :=
  if isConstantInt lhs 0 || isConstantInt rhs 0 then some lhs
  else tryConstInt lhs rhs APInt.shl
    (match matchByConst .lshr lhs, constantInt? rhs with
    | some (value, rshift), some lv =>
      let shift := lv.getLimitedValue t.bitwidth
      if (constantInt? rshift).any lv.eq && decide (shift ≠ t.bitwidth) then
        create .and value (constantInt (APInt.getBitsSetFrom t.bitwidth shift))
      else visitBinaryOp .shl t lhs rhs
    | _, _ => visitBinaryOp .shl t lhs rhs)

def visitLShr (t : Ty) (lhs rhs : Operation) : Option Operation :=
  if isConstantInt lhs 0 || isConstantInt rhs 0 then some lhs
  else tryConstInt lhs rhs APInt.lshr (visitBinaryOp .lshr t lhs rhs)

def visitAShr (t : Ty) (lhs rhs : Operation) : Option Operation :=
  if isConstantInt lhs 0 || isConstantInt rhs 0 then some lhs
  else tryConstInt lhs rhs APInt.ashr (visitBinaryOp .ashr t lhs rhs)

/-- The visitor of a binary opcode; `none` for the float opcodes. -/
def visitBinary : BinaryOpcode → Ty → Operation → Operation → Option Operation
  | .add => visitAdd
  | .sub => visitSub cache
  | .mul => visitMul
  | .udiv => visitUDiv
  | .sdiv => visitSDiv
  | .urem => visitURem
  | .srem => visitSRem
  | .and => visitAnd create
  | .or => visitOr cache create
  | .xor => visitXor
  | .shl => visitShl create
  | .lshr => visitLShr
  | .ashr => visitAShr
  | _ => fun _ _ _ => none

def visitNot (t : Ty) (operand : Operation) : Option Operation :=
  match operand with
  | .mk (.constantInt v) _ => some (constantInt v.not)
  | .mk (.unary .not _) [value] => some value
  | _ => some (.mk (.unary .not t) [operand])

/-- `APInt::trunc` asserts that the width gets smaller, `zext` and `sext` that it gets larger. -/
def visitTrunc (t : Ty) (operand : Operation) : Option Operation :=
  match constantInt? operand with
  | some v => if t.bitwidth < v.width then some (constantInt (v.trunc t.bitwidth)) else none
  | none => if t = operand.type then some operand else some (.mk (.unary .trunc t) [operand])

/-- An extension of a truncation to the width before it becomes a mask. -/
def visitZExt (t : Ty) (operand : Operation) : Option Operation :=
  match constantInt? operand with
  | some v => if v.width < t.bitwidth then some (constantInt (v.zext t.bitwidth)) else none
  | none =>
    if t = operand.type then some operand
    else
      match operand with
      | .mk (.unary .trunc tt) [inner] =>
        if t.bitwidth = inner.type.bitwidth then
          create .and inner (constantInt (APInt.getLowBitsSet t.bitwidth tt.bitwidth))
        else some (.mk (.unary .zext t) [operand])
      | _ => some (.mk (.unary .zext t) [operand])

def visitSExt (t : Ty) (operand : Operation) : Option Operation :=
  match constantInt? operand with
  | some v => if v.width < t.bitwidth then some (constantInt (v.sext t.bitwidth)) else none
  | none => if t = operand.type then some operand else some (.mk (.unary .sext t) [operand])

/-- The visitor of a unary opcode; `none` for the float opcodes and `Bitcast`. -/
def visitUnary : UnaryOpcode → Ty → Operation → Option Operation
  | .not => visitNot
  | .trunc => visitTrunc
  | .zext => visitZExt create
  | .sext => visitSExt
  | _ => fun _ _ => none

def visitSelectOp (t : Ty) (condition trueValue falseValue : Operation) : Option Operation :=
  match constantInt? condition with
  | some v => some (if v.eqNat 1 then trueValue else falseValue)
  | none =>
    if cache.same trueValue falseValue then some trueValue
    else some (.mk (.select t) [condition, trueValue, falseValue])

def visitICmp (cmp : ICmpOpcode) (lhs rhs : Operation) : Option Operation :=
  tryConstInt lhs rhs (fun a b => APInt.ofBool (APInt.constantIntCompare cmp a b))
    (if cache.same lhs rhs then
      if isUndef lhs then some (.mk (.undef .bool) [])
      else some (constantInt (APInt.ofBool (cmp ∈ [.eq, .ule, .sle, .uge, .sge] : Bool)))
    else some (.mk (.icmp cmp) [lhs, rhs]))

end Visitors

/-- The constructors of binary operations, with at most `fuel` nested constructor calls. -/
def create (cache : OperationCache) :
    Nat → BinaryOpcode → Operation → Operation → Option Operation
  | 0, _, _, _ => none
  | fuel + 1, op, lhs, rhs =>
    if (OperationData.binary op lhs.type).accepts [lhs.type, rhs.type] then
      visitBinary cache (create cache fuel) op lhs.type lhs rhs
    else none

/-- `OperationSimplifier::visit`, with a bound on nested constructor calls that suffices. -/
def visit (cache : OperationCache) (op : Operation) : Option Operation :=
  let nested := create cache op.size
  match op with
  | .mk (.binary opcode t) [lhs, rhs] => visitBinary cache nested opcode t lhs rhs
  | .mk (.icmp cmp) [lhs, rhs] => visitICmp cache cmp lhs rhs
  | .mk (.unary opcode t) [operand] => visitUnary nested opcode t operand
  | .mk (.select t) [condition, trueValue, falseValue] =>
    visitSelectOp cache t condition trueValue falseValue
  | _ => none

end OperationSimplifier

/-- The constructors: the assertions on the operand types, then the simplifier. -/
def Operation.create (cache : OperationCache) (d : OperationData) (ops : List Operation) :
    Option Operation :=
  if d.accepts (ops.map Operation.type) then OperationSimplifier.visit cache (.mk d ops) else none

def Operation.createTruncOrZExt (cache : OperationCache) (t : Ty) (operand : Operation) :
    Option Operation :=
  if operand.type.isInt && t.isInt then
    if t.bitwidth < operand.type.bitwidth then Operation.create cache (.unary .trunc t) [operand]
    else if operand.type.bitwidth < t.bitwidth then
      Operation.create cache (.unary .zext t) [operand]
    else some operand
  else none

end Caffeine
