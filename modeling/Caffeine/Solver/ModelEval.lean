import Caffeine.IR.Typing

/-!
# Evaluation in a model

`ModelEvaluator` computes the value of an expression from the values a model gives to the symbols. A
failed assertion, also one inside `llvm::APInt`, is `none`. Floats, vectors and references to
e-graph nodes are not modelled.
-/

namespace Caffeine

/-- The constructor `APInt(numBits, val)`, which asserts a width. -/
def APInt.create (numBits val : Nat) : Option APInt :=
  if numBits = 0 then none else some (APInt.ofNat numBits val)

/-- `caffeine::Value`: nothing, an integer, or bytes with the width of their indices. -/
inductive Value where
  | empty
  | int (value : APInt)
  | array (bytes : List (BitVec 8)) (indexBitwidth : Nat)
deriving DecidableEq

namespace Value

def apint : Value → Option APInt
  | int v => some v
  | _ => none

/-- `Value(bool)`. The constructor of `APInt` takes the width first. -/
def ofBool (ival : Bool) : Option Value := (APInt.create ival.toNat 1).map int

/-- `operator==`. Integers of different widths may not be compared. -/
def equals : Value → Value → Option Bool
  | empty, empty => some true
  | int a, int b => if a.width = b.width then some (a.eq b) else none
  | array a _, array b _ => some (a == b)
  | _, _ => some false

def binop (op : BinaryOpcode) (lhs rhs : Value) : Option Value := do
  let a ← lhs.apint
  let b ← rhs.apint
  if a.width = b.width then (binary op).map fun f => int (f a b) else none

def trunc (v : Value) (bitwidth : Nat) : Option Value := do
  let a ← v.apint
  if bitwidth < a.width then some (int (a.trunc bitwidth)) else none

def zext (v : Value) (bitwidth : Nat) : Option Value := do
  let a ← v.apint
  if a.width < bitwidth then some (int (a.zext bitwidth)) else none

def sext (v : Value) (bitwidth : Nat) : Option Value := do
  let a ← v.apint
  if a.width < bitwidth then some (int (a.sext bitwidth)) else none

def unary (op : UnaryOpcode) (type : Ty) (v : Value) : Option Value :=
  match op with
  | .not => v.apint.map fun a => int (bvnot a)
  | .trunc => v.trunc type.bitwidth
  | .zext => v.zext type.bitwidth
  | .sext => v.sext type.bitwidth
  | _ => none

def load : Value → Value → Option Value
  | array bytes w, int index =>
    if index.width = w then bytes[index.val.toNat]?.map fun byte => int ⟨8, byte⟩ else none
  | _, _ => none

def store : Value → Value → Value → Option Value
  | array bytes w, int index, int byte =>
    if index.width = w ∧ byte.width = 8 ∧ index.val.toNat < bytes.length then
      some (array (bytes.set index.val.toNat (byte.resize 8)) index.width)
    else none
  | _, _, _ => none

end Value

namespace ModelEvaluator

/-- `Model`: a value for every symbol it contains, for arrays the bytes up to a size. -/
structure Model where
  lookup : Symbol → Option Nat → Value

/-- A symbol that is not in the model is zero. -/
def visitConstant (m : Model) (w : Nat) (symbol : Symbol) : Value :=
  match m.lookup symbol none with
  | .empty => .int ⟨w, 0⟩
  | value => value

def visitConstantArray (m : Model) (symbol : Symbol) (size : Value) : Option Value := do
  match m.lookup symbol (some ((← size.apint).getLimitedValue APInt.uint64Max)) with
  | .empty => none
  | value => some value

/-- The number of elements is read back at the width of the indices. -/
def visitFixedArray (w : Nat) (data : List (Option Value)) : Option Value := do
  let size := (APInt.ofNat w data.length).getLimitedValue APInt.uint64Max
  let bytes ← (data.take size).mapM fun value => do
    let val ← (← value).apint
    if val.width = 8 then some (val.resize 8) else none
  some (.array bytes w)

def visitAlloc (w : Nat) (size : Value) : Option Value := do
  some (.array (List.replicate ((← size.apint).getLimitedValue APInt.uint64Max) 0) w)

def visitICmp (cmp : ICmpOpcode) (lhs rhs : Value) : Option Value := do
  match cmp with
  | .eq => Value.ofBool (← lhs.equals rhs)
  | .ne => Value.ofBool (!(← lhs.equals rhs))
  | _ => none

/-- The value of an operation from those operands that it evaluates; the others may fail. -/
def visitOperation (m : Model) : OperationData → List (Option Value) → Option Value
  | .constant (.int w) symbol, _ => some (visitConstant m w symbol)
  | .constant (.array _) symbol, [size] => do visitConstantArray m symbol (← size)
  | .constantInt v, _ => some (.int v)
  | .fixedArray w, data => visitFixedArray w data
  | .binary op _, [lhs, rhs] => do Value.binop op (← lhs) (← rhs)
  | .unary op type, [operand] => do Value.unary op type (← operand)
  | .icmp cmp, [lhs, rhs] => do visitICmp cmp (← lhs) (← rhs)
  | .select _, [cond, trueValue, falseValue] => do
    if (← (← cond).apint).eqNat 1 then trueValue else falseValue
  | .alloc w, [size, _] => do visitAlloc w (← size)
  | .load, [data, index] => do Value.load (← data) (← index)
  | .store _, [data, index, byte] => do Value.store (← data) (← index) (← byte)
  | _, _ => none

def visit (m : Model) (o : Operation) : Option Value := o.fold (visitOperation m)

theorem visit_mk (m : Model) (d : OperationData) (ops : List Operation) :
    visit m (.mk d ops) = visitOperation m d (ops.map (visit m)) :=
  Operation.fold_mk _ d ops

def evaluated (σ : Assignment) : OperationData → List Operation → List Operation
  | .select _, [cond, trueValue, falseValue] =>
    [cond, if (cond.eval σ).toInt?.any (·.eqNat 1) then trueValue else falseValue]
  | .alloc _, [size, _] => [size]
  | _, ops => ops

abbrev AllEvaluated (σ : Assignment) (P : NodeCondition) :
    Operation → Prop :=
  Operation.AllReached (evaluated σ) P

/-- The model gives the symbol of an operation the value of the assignment. -/
def Model.Gives (m : Model) (σ : Assignment) : OperationData → Prop
  | .constant (.int w) s => m.lookup s none = .int ⟨w, σ.int s w⟩ ∨
    m.lookup s none = .empty ∧ σ.int s w = 0
  | .constant (.array w) s => ∀ n, m.lookup s (some n) =
    .array (List.ofFn fun i : Fin n => σ.array s w (BitVec.ofNat w i)) w
  | _ => True

end ModelEvaluator

end Caffeine
