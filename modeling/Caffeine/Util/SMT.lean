import Mathlib.Logic.Function.Basic

/-!
# Terms over bitvectors and arrays

The part of SMT-LIB with booleans, bitvectors and arrays, as terms indexed by their sort, and its
meaning in a model of the constants. An `Expr` is a term of any sort; its constructors fail when the
sorts do not fit, as those of a solver interface do.
-/

namespace SMT

inductive Srt where
  | bool
  | bv (width : Nat)
  | array (index element : Nat)
deriving DecidableEq, Repr

@[reducible] def Srt.Carrier : Srt → Type
  | .bool => Bool
  | .bv w => BitVec w
  | .array i e => BitVec i → BitVec e

/-- Names of constants. A text and a number are never the same name. -/
inductive Name where
  | str (text : String)
  | int (number : Nat)
deriving DecidableEq, Repr

inductive BinOp where
  | bvadd | bvsub | bvmul | bvudiv | bvsdiv | bvurem | bvsmod
  | bvand | bvor | bvxor | bvshl | bvlshr | bvashr
deriving DecidableEq, Repr

def BinOp.eval {w : Nat} : BinOp → BitVec w → BitVec w → BitVec w
  | .bvadd, x, y => x + y
  | .bvsub, x, y => x - y
  | .bvmul, x, y => x * y
  | .bvudiv, x, y => x.smtUDiv y
  | .bvsdiv, x, y => x.smtSDiv y
  | .bvurem, x, y => x % y
  | .bvsmod, x, y => x.smod y
  | .bvand, x, y => x &&& y
  | .bvor, x, y => x ||| y
  | .bvxor, x, y => x ^^^ y
  | .bvshl, x, y => x <<< y
  | .bvlshr, x, y => x >>> y
  | .bvashr, x, y => x.sshiftRight' y

inductive Pred where
  | eq | distinct | bvugt | bvuge | bvult | bvule | bvsgt | bvsge | bvslt | bvsle
deriving DecidableEq, Repr

def Pred.eval {w : Nat} : Pred → BitVec w → BitVec w → Bool
  | .eq, x, y => x == y
  | .distinct, x, y => x != y
  | .bvugt, x, y => y.ult x
  | .bvuge, x, y => y.ule x
  | .bvult, x, y => x.ult y
  | .bvule, x, y => x.ule y
  | .bvsgt, x, y => y.slt x
  | .bvsge, x, y => y.sle x
  | .bvslt, x, y => x.slt y
  | .bvsle, x, y => x.sle y

inductive Term : Srt → Type where
  | const (name : Name) (s : Srt) : Term s
  | bvVal {w : Nat} (value : BitVec w) : Term (.bv w)
  | not (a : Term .bool) : Term .bool
  | and (a b : Term .bool) : Term .bool
  | or (a b : Term .bool) : Term .bool
  | ite {s : Srt} (c : Term .bool) (a b : Term s) : Term s
  | bvnot {w : Nat} (a : Term (.bv w)) : Term (.bv w)
  | binary {w : Nat} (op : BinOp) (a b : Term (.bv w)) : Term (.bv w)
  | pred {w : Nat} (p : Pred) (a b : Term (.bv w)) : Term .bool
  | extract {w : Nat} (hi lo : Nat) (a : Term (.bv w)) : Term (.bv (hi - lo + 1))
  | zeroExtend {w : Nat} (k : Nat) (a : Term (.bv w)) : Term (.bv (w + k))
  | signExtend {w : Nat} (k : Nat) (a : Term (.bv w)) : Term (.bv (w + k))
  | select {i e : Nat} (a : Term (.array i e)) (j : Term (.bv i)) : Term (.bv e)
  | store {i e : Nat} (a : Term (.array i e)) (j : Term (.bv i)) (v : Term (.bv e)) :
    Term (.array i e)
  | constArray {e : Nat} (i : Nat) (v : Term (.bv e)) : Term (.array i e)

/-- Values for the constants; constants of one name and different sorts are different. -/
structure Model where
  const : Name → (s : Srt) → s.Carrier

namespace Term

def eval (M : Model) : {s : Srt} → Term s → s.Carrier
  | _, const name s => M.const name s
  | _, bvVal v => v
  | _, not a => !a.eval M
  | _, and a b => a.eval M && b.eval M
  | _, or a b => a.eval M || b.eval M
  | _, ite c a b => bif c.eval M then a.eval M else b.eval M
  | _, bvnot a => ~~~a.eval M
  | _, binary op a b => op.eval (a.eval M) (b.eval M)
  | _, pred p a b => p.eval (a.eval M) (b.eval M)
  | _, extract hi lo a => (a.eval M).extractLsb hi lo
  | _, @zeroExtend w k a => (a.eval M).setWidth (w + k)
  | _, @signExtend w k a => (a.eval M).signExtend (w + k)
  | _, select a j => a.eval M (j.eval M)
  | _, store a j v => Function.update (a.eval M) (j.eval M) (v.eval M)
  | _, constArray _ v => fun _ => v.eval M

section EvalEq

variable (M : Model) {s : Srt} {w i : Nat}

@[simp] theorem eval_const (name : Name) : (const name s).eval M = M.const name s := rfl

@[simp] theorem eval_bvVal (v : BitVec w) : (bvVal v).eval M = v := rfl

@[simp] theorem eval_not (a : Term .bool) : a.not.eval M = !a.eval M := rfl

@[simp] theorem eval_and (a b : Term .bool) : (a.and b).eval M = (a.eval M && b.eval M) := rfl

@[simp] theorem eval_or (a b : Term .bool) : (a.or b).eval M = (a.eval M || b.eval M) := rfl

@[simp] theorem eval_ite (c : Term .bool) (a b : Term s) :
    (ite c a b).eval M = bif c.eval M then a.eval M else b.eval M := rfl

@[simp] theorem eval_bvnot (a : Term (.bv w)) : a.bvnot.eval M = ~~~a.eval M := rfl

@[simp] theorem eval_binary (op : BinOp) (a b : Term (.bv w)) :
    (binary op a b).eval M = op.eval (a.eval M) (b.eval M) := rfl

@[simp] theorem eval_pred (p : Pred) (a b : Term (.bv w)) :
    (pred p a b).eval M = p.eval (a.eval M) (b.eval M) := rfl

@[simp] theorem eval_extract (hi lo : Nat) (a : Term (.bv w)) :
    (a.extract hi lo).eval M = (a.eval M).extractLsb hi lo := rfl

@[simp] theorem eval_select (a : Term (.array i w)) (j : Term (.bv i)) :
    (a.select j).eval M = a.eval M (j.eval M) := rfl

@[simp] theorem eval_store (a : Term (.array i w)) (j : Term (.bv i)) (v : Term (.bv w)) :
    (a.store j v).eval M = Function.update (a.eval M) (j.eval M) (v.eval M) := rfl

end EvalEq

end Term

abbrev Expr := Σ s : Srt, Term s

namespace Expr

def constant (name : Name) (s : Srt) : Expr := ⟨s, .const name s⟩

def bvVal {w : Nat} (value : BitVec w) : Expr := ⟨.bv w, .bvVal value⟩

def not : Expr → Option Expr
  | ⟨.bool, a⟩ => some ⟨.bool, .not a⟩
  | _ => none

def and : Expr → Expr → Option Expr
  | ⟨.bool, a⟩, ⟨.bool, b⟩ => some ⟨.bool, .and a b⟩
  | _, _ => none

def or : Expr → Expr → Option Expr
  | ⟨.bool, a⟩, ⟨.bool, b⟩ => some ⟨.bool, .or a b⟩
  | _, _ => none

def ite : Expr → Expr → Expr → Option Expr
  | ⟨.bool, c⟩, ⟨s, a⟩, ⟨s', b⟩ => if h : s' = s then some ⟨s, .ite c a (h ▸ b)⟩ else none
  | _, _, _ => none

def bvnot : Expr → Option Expr
  | ⟨.bv w, a⟩ => some ⟨.bv w, .bvnot a⟩
  | _ => none

def binary (op : BinOp) : Expr → Expr → Option Expr
  | ⟨.bv w, a⟩, ⟨.bv w', b⟩ =>
    if h : w' = w then some ⟨.bv w, .binary op a (h ▸ b)⟩ else none
  | _, _ => none

def pred (p : Pred) : Expr → Expr → Option Expr
  | ⟨.bv w, a⟩, ⟨.bv w', b⟩ => if h : w' = w then some ⟨.bool, .pred p a (h ▸ b)⟩ else none
  | _, _ => none

def extract (hi lo : Nat) : Expr → Option Expr
  | ⟨.bv w, a⟩ => if lo ≤ hi ∧ hi < w then some ⟨_, .extract hi lo a⟩ else none
  | _ => none

def zeroExtend (k : Nat) : Expr → Option Expr
  | ⟨.bv _, a⟩ => some ⟨_, .zeroExtend k a⟩
  | _ => none

def signExtend (k : Nat) : Expr → Option Expr
  | ⟨.bv _, a⟩ => some ⟨_, .signExtend k a⟩
  | _ => none

def select : Expr → Expr → Option Expr
  | ⟨.array i e, a⟩, ⟨.bv i', j⟩ =>
    if h : i' = i then some ⟨.bv e, .select a (h ▸ j)⟩ else none
  | _, _ => none

def store : Expr → Expr → Expr → Option Expr
  | ⟨.array i e, a⟩, ⟨.bv i', j⟩, ⟨.bv e', v⟩ =>
    if h : i' = i ∧ e' = e then some ⟨.array i e, .store a (h.1 ▸ j) (h.2 ▸ v)⟩ else none
  | _, _, _ => none

def constArray (i : Nat) : Expr → Option Expr
  | ⟨.bv _, v⟩ => some ⟨_, .constArray i v⟩
  | _ => none

def isBool (e : Expr) : Bool := e.1 = .bool

def bvSize? : Expr → Option Nat
  | ⟨.bv w, _⟩ => some w
  | _ => none

end Expr

end SMT
