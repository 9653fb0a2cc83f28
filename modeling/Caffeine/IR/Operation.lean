import Mathlib.Algebra.Order.BigOperators.Group.List
import Mathlib.Algebra.Order.Ring.Nat

/-!
# Expressions

The expression trees of `IR/OperationBase.h`: a payload (`OperationData`) with a list of operands.
The payload determines opcode, result type and the number of operands. Operations are compared by
structure; there are no shared pointers.
-/

namespace Caffeine

/-- `caffeine::Type`, without the pointer to the LLVM type. -/
inductive Ty where
  | void
  | int (bitwidth : Nat)
  | float (exponent mantissa : Nat)
  | pointer
  | function
  | array (bitwidth : Nat)
  | vector
  deriving DecidableEq, Repr

namespace Ty

def bool : Ty := .int 1

def isInt : Ty → Bool
  | .int _ => true
  | _ => false

def isArray : Ty → Bool
  | .array _ => true
  | _ => false

/-- `bitwidth`; the C++ accessor asserts that the type is an integer or an array. -/
def bitwidth : Ty → Nat
  | .int w => w
  | .array w => w
  | _ => 0

end Ty

inductive Symbol where
  | named (name : String)
  | numbered (number : Nat)
  deriving DecidableEq, Repr

/-- A bitvector together with its width, as `llvm::APInt`. -/
structure APInt where
  width : Nat
  val : BitVec width
  deriving DecidableEq

inductive BinaryOpcode where
  | add | sub | mul | udiv | sdiv | urem | srem
  | and | or | xor | shl | lshr | ashr
  | fadd | fsub | fmul | fdiv | frem
  deriving DecidableEq, Repr

inductive ICmpOpcode where
  | eq | ne | ugt | uge | ult | ule | sgt | sge | slt | sle
  deriving DecidableEq, Repr

inductive FCmpOpcode where
  | eq | gt | ge | lt | le | ne
  deriving DecidableEq, Repr

inductive UnaryOpcode where
  | not | fneg | fisnan
  | trunc | sext | zext | fpTrunc | fpExt | fpToUI | fpToSI | uiToFp | siToFp | bitcast
  deriving DecidableEq, Repr

inductive Opcode where
  | constantNamed | constantNumbered | constantInt | constantFloat | constantArray
  | functionObject | egraphNode | undef
  | binary (op : BinaryOpcode)
  | icmp (cmp : ICmpOpcode)
  | fcmp (cmp : FCmpOpcode)
  | unary (op : UnaryOpcode)
  | select | fixedArray | alloc | store | load
  deriving DecidableEq, Repr

/-- `OperationData` and its derived classes, with floats as bit patterns and function objects as
numbers. -/
inductive OperationData where
  | constant (type : Ty) (symbol : Symbol)
  | constantInt (value : APInt)
  | constantFloat (exponent mantissa bits : Nat)
  | functionObject (function : Nat)
  | egraphNode (type : Ty) (id : Nat)
  | undef (type : Ty)
  | binary (op : BinaryOpcode) (type : Ty)
  | icmp (cmp : ICmpOpcode)
  | fcmp (cmp : FCmpOpcode)
  | unary (op : UnaryOpcode) (type : Ty)
  | select (type : Ty)
  | fixedArray (bitwidth : Nat)
  | alloc (bitwidth : Nat)
  | store (type : Ty)
  | load
  deriving DecidableEq

namespace OperationData

def opcode : OperationData → Opcode
  | constant (.array _) _ => .constantArray
  | constant _ (.named _) => .constantNamed
  | constant _ (.numbered _) => .constantNumbered
  | constantInt _ => .constantInt
  | constantFloat _ _ _ => .constantFloat
  | functionObject _ => .functionObject
  | egraphNode _ _ => .egraphNode
  | undef _ => .undef
  | binary op _ => .binary op
  | icmp cmp => .icmp cmp
  | fcmp cmp => .fcmp cmp
  | unary op _ => .unary op
  | select _ => .select
  | fixedArray _ => .fixedArray
  | alloc _ => .alloc
  | store _ => .store
  | load => .load

def type : OperationData → Ty
  | constant t _ => t
  | constantInt v => .int v.width
  | constantFloat e m _ => .float e m
  | functionObject _ => .pointer
  | egraphNode t _ => t
  | undef t => t
  | binary _ t => t
  | icmp _ => .bool
  | fcmp _ => .bool
  | unary _ t => t
  | select t => t
  | fixedArray w => .array w
  | alloc w => .array w
  | store t => t
  | load => .int 8

def isConstant : OperationData → Bool
  | constantInt _ => true
  | constantFloat _ _ _ => true
  | _ => false

end OperationData

inductive Operation where
  | mk (data : OperationData) (operands : List Operation)

abbrev Constructor := OperationData → List Operation → Option Operation

abbrev BinaryConstructor := BinaryOpcode → Operation → Operation → Option Operation

abbrev NodeCondition := OperationData → List Operation → Prop

namespace Operation

def data : Operation → OperationData
  | mk d _ => d

def operands : Operation → List Operation
  | mk _ ops => ops

def opcode (o : Operation) : Opcode := o.data.opcode

def type (o : Operation) : Ty := o.data.type

@[simp] theorem data_mk (d : OperationData) (ops : List Operation) : (mk d ops).data = d := rfl

@[simp] theorem operands_mk (d : OperationData) (ops : List Operation) :
    (mk d ops).operands = ops := rfl

@[simp] theorem type_mk (d : OperationData) (ops : List Operation) : (mk d ops).type = d.type :=
  rfl

def constant (t : Ty) (s : Symbol) : Operation := mk (.constant t s) []

def constantInt (v : APInt) : Operation := mk (.constantInt v) []

mutual

def decEq : (a b : Operation) → Decidable (a = b)
  | mk d ops, mk d' ops' =>
    match (inferInstance : Decidable (d = d')), decEqList ops ops' with
    | isTrue hd, isTrue ho => isTrue (by rw [hd, ho])
    | isFalse hd, _ => isFalse (fun h => hd (Operation.mk.inj h).1)
    | _, isFalse ho => isFalse (fun h => ho (Operation.mk.inj h).2)

def decEqList : (as bs : List Operation) → Decidable (as = bs)
  | [], [] => isTrue rfl
  | [], _ :: _ => isFalse (fun h => nomatch h)
  | _ :: _, [] => isFalse (fun h => nomatch h)
  | a :: as, b :: bs =>
    match decEq a b, decEqList as bs with
    | isTrue ha, isTrue hs => isTrue (by rw [ha, hs])
    | isFalse ha, _ => isFalse (fun h => ha (List.cons.inj h).1)
    | _, isFalse hs => isFalse (fun h => hs (List.cons.inj h).2)

end

instance : DecidableEq Operation := decEq

section Fold

variable {α : Type*} (f : OperationData → List α → α)

mutual

/-- Bottom-up evaluation of an expression by a function on payloads. -/
def fold : Operation → α
  | mk d ops => f d (foldList ops)

def foldList : List Operation → List α
  | [] => []
  | o :: ops => fold o :: foldList ops

end

theorem foldList_eq_map (ops : List Operation) : foldList f ops = ops.map (fold f) := by
  induction ops with
  | nil => rfl
  | cons o ops ih => rw [foldList, ih, List.map_cons]

theorem fold_mk (d : OperationData) (ops : List Operation) :
    fold f (mk d ops) = f d (ops.map (fold f)) := by
  rw [fold, foldList_eq_map]

end Fold

theorem induct {P : Operation → Prop} (mk : ∀ d ops, (∀ o ∈ ops, P o) → P (Operation.mk d ops))
    (o : Operation) : P o := by
  refine @Operation.rec P (fun ops => ∀ o ∈ ops, P o) ?_ ?_ ?_ o
  · exact fun d ops ih => mk d ops ih
  · exact fun o ho => nomatch ho
  · intro head tail hhead htail o ho
    rcases List.mem_cons.mp ho with rfl | ho
    · exact hhead
    · exact htail o ho

def size (o : Operation) : Nat := fold (fun _ sizes => sizes.sum + 1) o

theorem size_mk (d : OperationData) (ops : List Operation) :
    (mk d ops).size = (ops.map size).sum + 1 := fold_mk _ d ops

/-- A property of an operation and of all below it reached through operands `reach` selects. -/
inductive AllReached (reach : OperationData → List Operation → List Operation)
    (P : NodeCondition) : Operation → Prop
  | mk {d : OperationData} {ops : List Operation} (here : P d ops)
    (below : ∀ o ∈ reach d ops, AllReached reach P o) : AllReached reach P (.mk d ops)

end Operation

end Caffeine
