import Caffeine.IR.Operation
import Caffeine.Util.BitVec

/-!
# Values and the meaning of expressions

`APInt` carries the operations of `llvm::APInt` the source uses, `Value` the operations of
`IR/Value.cpp` on integers. The meaning of an expression is its SMT-LIB value: bitvectors wrap,
shifts by the width or more give zero or sign bits, an array is a total function from indices to
bytes. Floating-point values are not interpreted.
-/

namespace Caffeine

namespace APInt

def ofNat (width n : Nat) : APInt := ⟨width, BitVec.ofNat width n⟩

def ofBool (b : Bool) : APInt := ⟨1, BitVec.ofBool b⟩

def resize (a : APInt) (width : Nat) : BitVec width := a.val.setWidth width

@[simp] theorem resize_width {w : Nat} (x : BitVec w) : (APInt.mk w x).resize w = x :=
  BitVec.setWidth_eq x

def map (f : {w : Nat} → BitVec w → BitVec w) (a : APInt) : APInt := ⟨a.width, f a.val⟩

def zipWith (f : {w : Nat} → BitVec w → BitVec w → BitVec w) (a b : APInt) : APInt :=
  ⟨a.width, f a.val (b.resize a.width)⟩

def add : APInt → APInt → APInt := zipWith (· + ·)

def sub : APInt → APInt → APInt := zipWith (· - ·)

def mul : APInt → APInt → APInt := zipWith (· * ·)

def udiv : APInt → APInt → APInt := zipWith BitVec.udiv

def sdiv : APInt → APInt → APInt := zipWith BitVec.sdiv

def urem : APInt → APInt → APInt := zipWith BitVec.umod

def srem : APInt → APInt → APInt := zipWith BitVec.srem

def and : APInt → APInt → APInt := zipWith (· &&& ·)

def or : APInt → APInt → APInt := zipWith (· ||| ·)

def xor : APInt → APInt → APInt := zipWith (· ^^^ ·)

def shl : APInt → APInt → APInt := zipWith (fun x y => x <<< y)

def lshr : APInt → APInt → APInt := zipWith (fun x y => x >>> y)

def ashr : APInt → APInt → APInt := zipWith (fun x y => x.sshiftRight' y)

def not : APInt → APInt := map (fun x => ~~~x)

def trunc (a : APInt) (width : Nat) : APInt := ⟨width, a.val.setWidth width⟩

def zext (a : APInt) (width : Nat) : APInt := ⟨width, a.val.setWidth width⟩

def sext (a : APInt) (width : Nat) : APInt := ⟨width, a.val.signExtend width⟩

def sextOrTrunc (a : APInt) (width : Nat) : APInt := ⟨width, a.val.signExtend width⟩

def eq (a b : APInt) : Bool := a.val == b.resize a.width

def ult (a b : APInt) : Bool := a.val.ult (b.resize a.width)

def ule (a b : APInt) : Bool := a.val.ule (b.resize a.width)

def ugt (a b : APInt) : Bool := !a.ule b

def uge (a b : APInt) : Bool := !a.ult b

def slt (a b : APInt) : Bool := a.val.slt (b.resize a.width)

def sle (a b : APInt) : Bool := a.val.sle (b.resize a.width)

def sgt (a b : APInt) : Bool := !a.sle b

def sge (a b : APInt) : Bool := !a.slt b

def isNullValue (a : APInt) : Bool := a.val == 0

def isAllOnesValue (a : APInt) : Bool := a.val == BitVec.allOnes a.width

def isMinSignedValue (a : APInt) : Bool := a.val == BitVec.intMin a.width

def getMaxValue (width : Nat) : APInt := ⟨width, BitVec.allOnes width⟩

def getSignedMaxValue (width : Nat) : APInt := ⟨width, BitVec.intMax width⟩

/-- Comparison with a `uint64_t`, on the zero-extended value. -/
def eqNat (a : APInt) (n : Nat) : Bool := a.val.toNat == n

def getLimitedValue (a : APInt) (limit : Nat) : Nat := min a.val.toNat limit

def uint64Max : Nat := 2 ^ 64 - 1

def getBitsSetFrom (width low : Nat) : APInt := ⟨width, BitVec.allOnes width <<< low⟩

def getLowBitsSet (width count : Nat) : APInt :=
  ⟨width, (BitVec.allOnes count).setWidth width⟩

/-- The comparison of two literals: `constant_int_compare` and the `BOOL_FOLD` entries. -/
def constantIntCompare : ICmpOpcode → APInt → APInt → Bool
  | .eq, a, b => a.eq b
  | .ne, a, b => !a.eq b
  | .sge, a, b => a.sge b
  | .sgt, a, b => a.sgt b
  | .sle, a, b => a.sle b
  | .slt, a, b => a.slt b
  | .uge, a, b => a.uge b
  | .ugt, a, b => a.ugt b
  | .ule, a, b => a.ule b
  | .ult, a, b => a.ult b

end APInt

namespace Value

def bvadd (lhs rhs : APInt) : APInt := lhs.add rhs

def bvsub (lhs rhs : APInt) : APInt := lhs.sub rhs

def bvmul (lhs rhs : APInt) : APInt := lhs.mul rhs

def bvudiv (lhs rhs : APInt) : APInt :=
  if rhs.isNullValue then APInt.getMaxValue lhs.width else lhs.udiv rhs

def bvsdiv (lhs rhs : APInt) : APInt :=
  if rhs.isNullValue then APInt.getSignedMaxValue lhs.width
  else if lhs.isMinSignedValue && rhs.isAllOnesValue then APInt.getSignedMaxValue lhs.width
  else lhs.sdiv rhs

def bvurem (lhs rhs : APInt) : APInt := if rhs.isNullValue then lhs else lhs.urem rhs

def bvsrem (lhs rhs : APInt) : APInt := if rhs.isNullValue then lhs else lhs.srem rhs

def bvand (lhs rhs : APInt) : APInt := lhs.and rhs

def bvor (lhs rhs : APInt) : APInt := lhs.or rhs

def bvxor (lhs rhs : APInt) : APInt := lhs.xor rhs

def bvshl (lhs rhs : APInt) : APInt := lhs.shl rhs

def bvlshr (lhs rhs : APInt) : APInt := lhs.lshr rhs

def bvashr (lhs rhs : APInt) : APInt := lhs.ashr rhs

def bvnot (v : APInt) : APInt := v.not

def binary : BinaryOpcode → Option (APInt → APInt → APInt)
  | .add => some bvadd
  | .sub => some bvsub
  | .mul => some bvmul
  | .udiv => some bvudiv
  | .sdiv => some bvsdiv
  | .urem => some bvurem
  | .srem => some bvsrem
  | .and => some bvand
  | .or => some bvor
  | .xor => some bvxor
  | .shl => some bvshl
  | .lshr => some bvlshr
  | .ashr => some bvashr
  | _ => none

end Value

/-- Values of expressions. What the semantics does not interpret is `poison`. -/
inductive Val where
  | int (value : APInt)
  | array (bitwidth : Nat) (bytes : BitVec bitwidth → BitVec 8)
  | poison

namespace Val

def toInt? : Val → Option APInt
  | int v => some v
  | _ => none

def type? : Val → Option Ty
  | int v => some (.int v.width)
  | array w _ => some (.array w)
  | poison => none

/-- The value is of the type: integers and arrays of their width. -/
def HasType (v : Val) (t : Ty) : Prop := v.type? = some t

end Val

/-- Values for the symbols, at each type they may be used at, and for references to e-graph
nodes. -/
structure Assignment where
  int : Symbol → (width : Nat) → BitVec width
  array : Symbol → (width : Nat) → BitVec width → BitVec 8
  node : Nat → Val := fun _ => .poison

instance : Inhabited Assignment := ⟨⟨fun _ _ => 0, fun _ _ _ => 0, fun _ => .poison⟩⟩

namespace Semantics

/-- SMT-LIB meaning of the integer operations at one width. -/
def bitvec : BinaryOpcode → {w : Nat} → BitVec w → BitVec w → Option (BitVec w)
  | .add, _, x, y => some (x + y)
  | .sub, _, x, y => some (x - y)
  | .mul, _, x, y => some (x * y)
  | .udiv, _, x, y => some (x.smtUDiv y)
  | .sdiv, _, x, y => some (x.smtSDiv y)
  | .urem, _, x, y => some (x % y)
  | .srem, _, x, y => some (x.srem y)
  | .and, _, x, y => some (x &&& y)
  | .or, _, x, y => some (x ||| y)
  | .xor, _, x, y => some (x ^^^ y)
  | .shl, _, x, y => some (x <<< y)
  | .lshr, _, x, y => some (x >>> y)
  | .ashr, _, x, y => some (x.sshiftRight' y)
  | _, _, _, _ => none

def binary (op : BinaryOpcode) (a b : APInt) : Val :=
  match bitvec op a.val (b.resize a.width) with
  | some x => .int ⟨a.width, x⟩
  | none => .poison

def compare : ICmpOpcode → {w : Nat} → BitVec w → BitVec w → Bool
  | .eq, _, x, y => x == y
  | .ne, _, x, y => x != y
  | .ugt, _, x, y => y.ult x
  | .uge, _, x, y => y.ule x
  | .ult, _, x, y => x.ult y
  | .ule, _, x, y => x.ule y
  | .sgt, _, x, y => y.slt x
  | .sge, _, x, y => y.sle x
  | .slt, _, x, y => x.slt y
  | .sle, _, x, y => x.sle y

theorem constantIntCompare_eq (cmp : ICmpOpcode) (a b : APInt) :
    APInt.constantIntCompare cmp a b = compare cmp a.val (b.resize a.width) := by
  cases cmp with
  | eq | ne | ult | ule | slt | sle => rfl
  | ugt =>
    simp only [APInt.constantIntCompare, APInt.ugt, APInt.ule, compare, BitVec.ule_eq_not_ult,
      Bool.not_not]
  | uge => simp only [APInt.constantIntCompare, APInt.uge, APInt.ult, compare,
      BitVec.ule_eq_not_ult]
  | sgt =>
    simp only [APInt.constantIntCompare, APInt.sgt, APInt.sle, compare, BitVec.sle_eq_not_slt,
      Bool.not_not]
  | sge => simp only [APInt.constantIntCompare, APInt.sge, APInt.slt, compare,
      BitVec.sle_eq_not_slt]

def icmp (cmp : ICmpOpcode) (a b : APInt) : Val :=
  .int (APInt.ofBool (compare cmp a.val (b.resize a.width)))

def unary (op : UnaryOpcode) (type : Ty) (a : APInt) : Val :=
  match op with
  | .not => .int a.not
  | .trunc => .int (a.trunc type.bitwidth)
  | .zext => .int (a.zext type.bitwidth)
  | .sext => .int (a.sext type.bitwidth)
  | _ => .poison

def byte : Val → BitVec 8
  | .int a => a.resize 8
  | _ => 0

def apply (σ : Assignment) : OperationData → List Val → Val
  | .constant (.int w) s, _ => .int ⟨w, σ.int s w⟩
  | .constant (.array w) s, _ => .array w (σ.array s w)
  | .constantInt v, _ => .int v
  | .egraphNode _ id, _ => σ.node id
  | .undef (.int w), _ => .int ⟨w, 0⟩
  | .binary op _, [.int a, .int b] => binary op a b
  | .icmp cmp, [.int a, .int b] => icmp cmp a b
  | .unary op t, [.int a] => unary op t a
  | .select _, [.int c, a, b] => if c.eqNat 1 then a else b
  | .fixedArray w, bytes => .array w (fun i => byte (bytes.getD i.toNat .poison))
  | .alloc w, [.int _, v] => .array w (fun _ => byte v)
  | .store _, [.array w f, .int i, v] => .array w (Function.update f (i.resize w) (byte v))
  | .load, [.array w f, .int i] => .int ⟨8, f (i.resize w)⟩
  | _, _ => .poison

/-- No division by zero, and no signed division or remainder of the least number by -1. -/
def DivisionDefined : OperationData → List Val → Prop
  | .binary .udiv _, [.int _, .int b] => b.isNullValue = false
  | .binary .urem _, [.int _, .int b] => b.isNullValue = false
  | .binary .sdiv _, [.int a, .int b] => b.isNullValue = false ∧
    ¬ (a.isMinSignedValue = true ∧ b.isAllOnesValue = true)
  | .binary .srem _, [.int a, .int b] => b.isNullValue = false ∧
    ¬ (a.isMinSignedValue = true ∧ b.isAllOnesValue = true)
  | _, _ => True

theorem binary_eq_value {op : BinaryOpcode} {w : Nat} {x y : BitVec w} {f : APInt → APInt → APInt}
    (hf : Value.binary op = some f)
    (hdef : op = .sdiv → y ≠ 0#w ∧ ¬ (x = BitVec.intMin w ∧ y = BitVec.allOnes w)) :
    binary op ⟨w, x⟩ ⟨w, y⟩ = .int (f ⟨w, x⟩ ⟨w, y⟩) := by
  have hnull : (APInt.mk w y).isNullValue = decide (y = 0#w) := rfl
  cases op with
  | udiv =>
    cases hf
    rw [Value.bvudiv, hnull, binary, bitvec, APInt.resize_width]
    by_cases hy : y = 0#w
    · simp [hy, APInt.getMaxValue, BitVec.smtUDiv_zero]
    · simp [hy, APInt.udiv, APInt.zipWith, BitVecFacts.smtUDiv_of_ne_zero hy]
  | sdiv =>
    cases hf
    obtain ⟨hy, hover⟩ := hdef rfl
    have hmin : ((APInt.mk w x).isMinSignedValue && (APInt.mk w y).isAllOnesValue) = false := by
      simpa [APInt.isMinSignedValue, APInt.isAllOnesValue] using hover
    rw [Value.bvsdiv, hnull, hmin, binary, bitvec, APInt.resize_width,
      BitVecFacts.smtSDiv_of_ne_zero hy]
    simp [hy, APInt.sdiv, APInt.zipWith]
  | urem =>
    cases hf
    rw [Value.bvurem, hnull, binary, bitvec, APInt.resize_width]
    by_cases hy : y = 0#w
    · simp [hy]
    · simp [hy, APInt.urem, APInt.zipWith]
  | srem =>
    cases hf
    rw [Value.bvsrem, hnull, binary, bitvec, APInt.resize_width]
    by_cases hy : y = 0#w
    · simp [hy]
    · simp [hy, APInt.srem, APInt.zipWith]
  | add | sub | mul | and | or | xor | shl | lshr | ashr =>
    cases hf
    rfl
  | fadd | fsub | fmul | fdiv | frem => cases hf

end Semantics

def Operation.eval (σ : Assignment) (o : Operation) : Val := o.fold (Semantics.apply σ)

theorem Operation.eval_mk (σ : Assignment) (d : OperationData) (ops : List Operation) :
    (Operation.mk d ops).eval σ = Semantics.apply σ d (ops.map (Operation.eval σ)) :=
  Operation.fold_mk _ d ops

/-- The number of bytes of an array expression, as `ArrayBase::size` and for a selection. -/
def Operation.arraySize (σ : Assignment) : Operation → Nat
  | .mk (.constant _ _) [size] => ((size.eval σ).toInt?.map (·.val.toNat)).getD 0
  | .mk (.alloc _) [size, _] => ((size.eval σ).toInt?.map (·.val.toNat)).getD 0
  | .mk (.store _) [array, _, _] => array.arraySize σ
  | .mk (.select _) [cond, a, b] =>
    if (cond.eval σ).toInt?.any (·.eqNat 1) then a.arraySize σ else b.arraySize σ
  | .mk (.fixedArray _) bytes => bytes.length
  | _ => 0

namespace OperationData

/-- The operand types an operation takes, as its constructor asserts them. -/
def accepts : OperationData → List Ty → Bool
  | .constant (.array w) _, [.int w'] => w = w'
  | .constant (.int _) _, [] => true
  | .constantInt _, [] => true
  | .constantFloat _ _ _, [] => true
  | .functionObject _, [] => true
  | .egraphNode _ _, [] => true
  | .undef _, [] => true
  | .binary op (.int w), [a, b] => a = .int w && b = .int w &&
    op ∉ [.fadd, .fsub, .fmul, .fdiv, .frem]
  | .binary op (.float e m), [a, b] => a = .float e m && b = .float e m &&
    op ∈ [.fadd, .fsub, .fmul, .fdiv, .frem]
  | .icmp _, [.int w, b] => b = .int w
  | .fcmp _, [.float e m, b] => b = .float e m
  | .unary .not (.int w), [a] => a = .int w
  | .unary .trunc (.int w), [.int w'] => w ≤ w'
  | .unary .zext (.int w), [.int w'] => w' ≤ w
  | .unary .sext (.int w), [.int w'] => w' ≤ w
  | .select t, [c, a, b] => c = .bool && a = t && b = t
  | .fixedArray _, bytes => bytes.all (· = .int 8)
  | .alloc w, [s, v] => s = .int w && v = .int 8
  | .store (.array w), [a, i, v] => a = .array w && i = .int w && v = .int 8
  | .load, [.array w, i] => i = .int w
  | _, _ => false

end OperationData

end Caffeine
