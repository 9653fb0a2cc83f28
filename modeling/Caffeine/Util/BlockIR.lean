import Mathlib.Data.BitVec
import Mathlib.Logic.Function.Basic

/-!
# Programs of basic blocks

Functions in static single assignment form over a memory of bytes: blocks with phi nodes, a body and
a terminator. Words have the width of an address; comparisons give single bits and loads give bytes.
-/

namespace Caffeine

open Option

namespace BlockIR

section Programs

variable (R B : Type) (w : Nat)

inductive Value where
  | reg (r : R)
  | const (v : BitVec w)

inductive Predicate where
  | ne
  | ult
  | ule

inductive Instr where
  | add (r : R) (lhs rhs : Value R w)
  | sub (r : R) (lhs rhs : Value R w)
  | icmp (r : R) (pred : Predicate) (lhs rhs : Value R w)
  | or (r lhs rhs : R)
  | gep (r : R) (base index : Value R w)
  | ptrToInt (r : R) (pointer : Value R w)
  | call (r : R) (function : List (BitVec w) → Option (BitVec w)) (args : List (Value R w))
  | load (r : R) (pointer : Value R w)
  | store (value : R) (pointer : Value R w)

inductive Terminator where
  | br (target : B)
  | condBr (cond : R) (ifTrue ifFalse : B)
  | ret

structure Block where
  phis : List (R × List (B × Value R w))
  body : List (Instr R w)
  terminator : Terminator R B

end Programs

inductive Content (w : Nat) where
  | word (v : BitVec w)
  | bit (b : Bool)
  | byte (b : BitVec 8)

structure State (R : Type) (w : Nat) where
  regs : R → Content w
  mem : BitVec w → BitVec 8

variable {R B : Type} [DecidableEq R] [DecidableEq B] {w : Nat}

def Predicate.eval (p : Predicate) (x y : BitVec w) : Bool :=
  match p with
  | .ne => x != y
  | .ult => x.ult y
  | .ule => x.ule y

namespace State

def set (s : State R w) (r : R) (v : Content w) : State R w :=
  { s with regs := Function.update s.regs r v }

def word (s : State R w) : Value R w → Option (BitVec w)
  | .const v => some v
  | .reg r =>
    match s.regs r with
    | .word v => some v
    | _ => none

def bit (s : State R w) (r : R) : Option Bool :=
  match s.regs r with
  | .bit b => some b
  | _ => none

def byte (s : State R w) (r : R) : Option (BitVec 8) :=
  match s.regs r with
  | .byte b => some b
  | _ => none

end State

def Instr.exec (s : State R w) : Instr R w → Option (State R w)
  | .add r lhs rhs => do some (s.set r (.word ((← s.word lhs) + (← s.word rhs))))
  | .sub r lhs rhs => do some (s.set r (.word ((← s.word lhs) - (← s.word rhs))))
  | .icmp r pred lhs rhs => do some (s.set r (.bit (pred.eval (← s.word lhs) (← s.word rhs))))
  | .or r lhs rhs => do some (s.set r (.bit ((← s.bit lhs) || (← s.bit rhs))))
  | .gep r base index => do some (s.set r (.word ((← s.word base) + (← s.word index))))
  | .ptrToInt r pointer => do some (s.set r (.word (← s.word pointer)))
  | .call r function args => do some (s.set r (.word (← function (← args.mapM s.word))))
  | .load r pointer => do some (s.set r (.byte (s.mem (← s.word pointer))))
  | .store value pointer => do
    let b ← s.byte value
    let a ← s.word pointer
    some { s with mem := Function.update s.mem a b }

/-- The values of the phi nodes on the edge from `prev`, read before any of them is assigned. -/
def Block.incoming (block : Block R B w) (prev : B) (s : State R w) :
    Option (List (R × BitVec w)) :=
  block.phis.mapM fun phi => do
    let edge ← phi.2.find? fun edge => edge.1 = prev
    some (phi.1, ← s.word edge.2)

def State.assign (s : State R w) (values : List (R × BitVec w)) : State R w :=
  values.foldl (fun s v => s.set v.1 (.word v.2)) s

/-- A run from the block `b`, entered from `prev` with the phi nodes assigned, to a return. -/
def run (program : B → Block R B w) : Nat → B → State R w → Option (State R w)
  | 0, _, _ => none
  | fuel + 1, b, s => do
    let s ← (program b).body.foldlM Instr.exec s
    let goTo (target : B) : Option (State R w) := do
      run program fuel target (s.assign (← (program target).incoming b s))
    match (program b).terminator with
    | .ret => some s
    | .br target => goTo target
    | .condBr cond ifTrue ifFalse => do goTo (if ← s.bit cond then ifTrue else ifFalse)

section Rules

variable {program : B → Block R B w} {fuel : Nat} {b target : B} {s s1 : State R w}
variable {values : List (R × BitVec w)}

theorem run_ret (hbody : (program b).body.foldlM Instr.exec s = some s1)
    (hret : (program b).terminator = .ret) : run program (fuel + 1) b s = some s1 := by
  rw [run, hbody, bind_eq_bind, bind_some, hret]

theorem run_br (hbody : (program b).body.foldlM Instr.exec s = some s1)
    (hbr : (program b).terminator = .br target)
    (hphis : (program target).incoming b s1 = some values) :
    run program (fuel + 1) b s = run program fuel target (s1.assign values) := by
  rw [run, hbody, bind_eq_bind, bind_some, hbr]
  simp only [hphis, bind_eq_bind, bind_some]

theorem run_condBr {cond : R} {ifTrue ifFalse : B} {c : Bool}
    (hbody : (program b).body.foldlM Instr.exec s = some s1)
    (hbr : (program b).terminator = .condBr cond ifTrue ifFalse) (hcond : s1.bit cond = some c)
    (htgt : (if c then ifTrue else ifFalse) = target)
    (hphis : (program target).incoming b s1 = some values) :
    run program (fuel + 1) b s = run program fuel target (s1.assign values) := by
  rw [run, hbody, bind_eq_bind, bind_some, hbr]
  simp only [hcond, htgt, hphis, bind_eq_bind, bind_some]

end Rules

end BlockIR

end Caffeine
