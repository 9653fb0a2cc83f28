import Caffeine.IR.OperationSimplifier
import Caffeine.Util.SMT

/-!
# Translation of expressions to Z3

`Z3OpVisitor` translates expressions to terms. A boolean expression becomes a term of sort `Bool` or
a bitvector of width one, as its operation prefers, and operands are brought to the sort needed. An
array of given bytes becomes a fresh constant with constraints on its elements. Floating-point
operations are not translated.
-/

namespace Caffeine

namespace Z3

open SMT

/-- `normalize_to_bool`: a bitvector of width one becomes its comparison with one. -/
def normalizeToBool : Expr → Expr
  | ⟨.bv 1, a⟩ => ⟨.bool, .pred .eq a (.bvVal 1)⟩
  | e => e

def normalizeToBv : Expr → Expr
  | ⟨.bool, a⟩ => ⟨.bv 1, .ite a (.bvVal 1) (.bvVal 0)⟩
  | e => e

/-- `op_name` and `name_to_symbol`, with the assertion that a number is an `int`. -/
def symbolName : Symbol → Option Name
  | .named name => some (.str name)
  | .numbered number => if number < 2 ^ 31 then some (.int number) else none

def typeToSort : Ty → Option Srt
  | .int w => some (.bv w)
  | .array w => some (.array w 8)
  | _ => none

/-- The operations of `CAFFEINE_BINOP_IMPL` on bitvectors. The operator `%` is `bvsmod`. -/
def binOp : BinaryOpcode → Option BinOp
  | .add => some .bvadd
  | .sub => some .bvsub
  | .mul => some .bvmul
  | .udiv => some .bvudiv
  | .sdiv => some .bvsdiv
  | .urem => some .bvurem
  | .srem => some .bvsmod
  | .xor => some .bvxor
  | .shl => some .bvshl
  | .lshr => some .bvlshr
  | .ashr => some .bvashr
  | _ => none

def comparison : ICmpOpcode → Pred
  | .eq => .eq
  | .ne => .distinct
  | .ugt => .bvugt
  | .uge => .bvuge
  | .ult => .bvult
  | .ule => .bvule
  | .sgt => .bvsgt
  | .sge => .bvsge
  | .slt => .bvslt
  | .sle => .bvsle

def visitAnd (lhs rhs : Expr) : Option Expr :=
  let lhs := normalizeToBool lhs
  let rhs := normalizeToBool rhs
  if lhs.isBool then lhs.and rhs else lhs.binary .bvand rhs

def visitOr (lhs rhs : Expr) : Option Expr :=
  let lhs := normalizeToBool lhs
  let rhs := normalizeToBool rhs
  if lhs.isBool then lhs.or rhs else lhs.binary .bvor rhs

def visitBinary (op : BinaryOpcode) (lhs rhs : Expr) : Option Expr :=
  match op with
  | .and => visitAnd lhs rhs
  | .or => visitOr lhs rhs
  | op => do (normalizeToBv lhs).binary (← binOp op) (normalizeToBv rhs)

def visitICmp (cmp : ICmpOpcode) (lhs rhs : Expr) : Option Expr :=
  (normalizeToBv lhs).pred (comparison cmp) (normalizeToBv rhs)

def visitNot (operand : Expr) : Option Expr :=
  let e := normalizeToBool operand
  if e.isBool then e.not else e.bvnot

def visitTrunc (type : Ty) (operand : Expr) : Option Expr :=
  (normalizeToBv operand).extract (type.bitwidth - 1) 0

def visitZExt (type : Ty) (operand : Expr) : Option Expr := do
  let src := normalizeToBv operand
  src.zeroExtend (type.bitwidth - (← src.bvSize?))

def visitSExt (type : Ty) (operand : Expr) : Option Expr := do
  let src := normalizeToBv operand
  src.signExtend (type.bitwidth - (← src.bvSize?))

def visitUnary (op : UnaryOpcode) (type : Ty) (operand : Expr) : Option Expr :=
  match op with
  | .not => visitNot operand
  | .trunc => visitTrunc type operand
  | .zext => visitZExt type operand
  | .sext => visitSExt type operand
  | _ => none

def visitSelect (cond trueValue falseValue : Expr) : Option Expr :=
  (normalizeToBool cond).ite (normalizeToBv trueValue) (normalizeToBv falseValue)

/-- The term for an operation from the terms for the operands that are visited. -/
def combine : OperationData → List Expr → Option Expr
  | .constantInt v, _ => some (.bvVal v.val)
  | .undef (.int w), _ => some (.bvVal (0#w))
  | .binary op _, [lhs, rhs] => visitBinary op lhs rhs
  | .icmp cmp, [lhs, rhs] => visitICmp cmp lhs rhs
  | .unary op t, [operand] => visitUnary op t operand
  | .select _, [cond, trueValue, falseValue] => visitSelect cond trueValue falseValue
  | .load, [array, index] => array.select index
  | .store _, [array, index, value] => array.store index value
  | .alloc w, [value] => value.constArray w
  | _, _ => none

section CombineEq

variable (lhs rhs operand array index value : Expr)

@[simp] theorem combine_binary_eq (op : BinaryOpcode) (t : Ty) :
    combine (.binary op t) [lhs, rhs] = visitBinary op lhs rhs := rfl

@[simp] theorem combine_icmp_eq (cmp : ICmpOpcode) :
    combine (.icmp cmp) [lhs, rhs] = visitICmp cmp lhs rhs := rfl

@[simp] theorem combine_unary_eq (op : UnaryOpcode) (t : Ty) :
    combine (.unary op t) [operand] = visitUnary op t operand := rfl

@[simp] theorem combine_select_eq (t : Ty) :
    combine (.select t) [operand, lhs, rhs] = visitSelect operand lhs rhs := rfl

@[simp] theorem combine_load_eq : combine .load [array, index] = array.select index := rfl

@[simp] theorem combine_store_eq (t : Ty) :
    combine (.store t) [array, index, value] = array.store index value := rfl

end CombineEq

/-- Why a visit ends without a term: an exception, an unsupported operation, or no temporary
constants left. -/
inductive Abort where
  | invalid
  | constants
deriving DecidableEq, Repr

/-- The memory of a translation is keyed by addresses: `pick t terms` is the term found at visit `t`
among those of equal operations. -/
structure Sharing where
  pick : Nat → List Expr → Option Expr
  mem_of_pick : ∀ {t terms e}, pick t terms = some e → e ∈ terms

def Sharing.full : Sharing := ⟨fun _ terms => terms.head?, List.mem_of_head?⟩

structure Visitor where
  constraints : List (Term .bool)
  constMap : Map Symbol Expr
  cache : List (Operation × Expr)
  tmpConstNum : Nat
  visits : Nat

namespace Visitor

/-- The first temporary name, above the numbers of symbols, and the one after the last. -/
def tmpConstMin : Nat := 2 ^ 29

def tmpConstMax : Nat := 2 ^ 30 - 1

def initial : Visitor := ⟨[], ∅, [], tmpConstMin, 0⟩

def nextConst (v : Visitor) (sort : Srt) : Except Abort (Expr × Visitor) :=
  if v.tmpConstNum = tmpConstMax then .error .constants
  else .ok (.constant (.int v.tmpConstNum) sort, { v with tmpConstNum := v.tmpConstNum + 1 })

def add (v : Visitor) (constraints : List (Term .bool)) : Visitor :=
  { v with constraints := v.constraints ++ constraints }

def visitConstant (v : Visitor) (type : Ty) (symbol : Symbol) : Except Abort (Expr × Visitor) :=
  match v.constMap.lookup symbol with
  | some e => .ok (e, v)
  | none =>
    match symbolName symbol, typeToSort type with
    | some name, some sort =>
      let e := Expr.constant name sort
      .ok (e, { v with constMap := v.constMap.insert symbol e })
    | _, _ => .error .invalid

def prepare (v : Visitor) : OperationData → Except Abort (Option Expr × Visitor)
  | .fixedArray w => do
    let (array, v) ← v.nextConst (.array w 8)
    .ok (some array, v)
  | _ => .ok (none, v)

def skips : OperationData → Nat → Bool
  | .constant _ _, _ => true
  | .alloc _, i => i = 0
  | _, _ => false

def elementConstraint (array : Expr) (w i : Nat) (value : Expr) : Option (Term .bool) := do
  match (← (← array.select (.bvVal (BitVec.ofNat w i))).pred .eq value) with
  | ⟨.bool, t⟩ => some t
  | _ => none

def emitted (d : OperationData) (array : Option Expr) (i : Nat) (value : Expr) :
    Option (List (Term .bool)) :=
  match d, array with
  | .fixedArray w, some array => (elementConstraint array w i value).map ([·])
  | _, _ => some []

def finish (v : Visitor) (d : OperationData) (array : Option Expr) (args : List Expr) :
    Except Abort (Expr × Visitor) :=
  match d with
  | .constant type symbol => v.visitConstant type symbol
  | .fixedArray _ =>
    match array with
    | some array => .ok (array, v)
    | none => .error .invalid
  | d =>
    match combine d args with
    | some e => .ok (e, v)
    | none => .error .invalid

def cached (v : Visitor) (o : Operation) : List Expr :=
  (v.cache.filter fun entry => entry.1 = o).map Prod.snd

variable (sharing : Sharing)

mutual

def visit : Operation → Visitor → Except Abort (Expr × Visitor)
  | .mk d ops, v =>
    match sharing.pick v.visits (v.cached (.mk d ops)) with
    | some e => .ok (e, { v with visits := v.visits + 1 })
    | none => do
      let (array, v) ← prepare { v with visits := v.visits + 1 } d
      let (args, v) ← visitOperands d array 0 ops v
      let (e, v) ← v.finish d array args
      .ok (e, { v with cache := (.mk d ops, e) :: v.cache })

def visitOperands (d : OperationData) (array : Option Expr) :
    Nat → List Operation → Visitor → Except Abort (List Expr × Visitor)
  | _, [], v => .ok ([], v)
  | i, o :: ops, v =>
    if skips d i then visitOperands d array (i + 1) ops v
    else do
      let (e, v) ← visit o v
      match emitted d array i e with
      | none => .error .invalid
      | some constraints =>
        let (es, v) ← visitOperands d array (i + 1) ops (v.add constraints)
        .ok (e :: es, v)

end

end Visitor

end Z3

end Caffeine
