import Caffeine.Interpreter.InterpreterContext

/-!
# `setjmp` and `longjmp`

`setjmp` writes the id of the calling frame and the place of the call into the buffer. `longjmp`
looks for the frame with this id, cuts the stack there and goes on after the call in the frame that
is then on top. The frame that called `setjmp` is cut off as well.
-/

namespace Caffeine

open List

namespace JmpBuf

/-- Instructions, as far as returning to them needs: calls with the width of an integer result. -/
inductive Inst where
  | call (width : Option Nat)
  | invoke (width : Option Nat) (normalDest unwindDest : Nat)
  | callBr (width : Option Nat)
  | other

abbrev Code := List (List (List Inst))

structure BlockPtr where
  func : Nat
  index : Nat
deriving DecidableEq

structure InstPtr where
  block : BlockPtr
  index : Nat
deriving DecidableEq

structure IRStackFrame where
  vars : Map InstPtr LLVMValue
  currentBlock : BlockPtr
  prevBlock : Option BlockPtr
  current : Nat
  func : Nat

structure ExternalStackFrame where
  result : Option LLVMValue
  args : List LLVMValue
  func : Nat

inductive FrameValue where
  | regular (frame : IRStackFrame)
  | external (frame : ExternalStackFrame)

structure StackFrame where
  value : FrameValue
  frameId : BitVec 64

/-- A failed path with its message, or an assertion failure or exception of the interpreter. -/
inductive Stop where
  | fail (message : String)
  | abort

def Code.block (code : Code) (block : BlockPtr) : List Inst :=
  (code.getD block.func []).getD block.index []

def Code.inst? (code : Code) (inst : InstPtr) : Option Inst := (code.block inst.block)[inst.index]?

def Inst.callWidth? : Inst → Option Nat
  | .call width => width
  | .invoke width _ _ => width
  | .callBr width => width
  | .other => none

namespace IRStackFrame

def jumpTo (frame : IRStackFrame) (block : BlockPtr) : IRStackFrame :=
  { frame with prevBlock := some frame.currentBlock, currentBlock := block, current := 0 }

def insert (frame : IRStackFrame) (inst : InstPtr) (value : LLVMValue) : IRStackFrame :=
  { frame with vars := frame.vars.insert inst value }

def getCurrentInstruction (code : Code) (frame : IRStackFrame) : Option InstPtr :=
  if frame.current = 0 then
    frame.prevBlock.map fun block => ⟨block, (code.block block).length - 1⟩
  else some ⟨frame.currentBlock, frame.current - 1⟩

/-- `set_result` with a result and no value to resume with. -/
def setResult (code : Code) (frame : IRStackFrame) (result : LLVMValue) : IRStackFrame :=
  let caller : InstPtr := ⟨frame.currentBlock, frame.current - 1⟩
  let frame := frame.insert caller result
  match code.inst? caller with
  | some (.invoke _ normalDest _) => frame.jumpTo ⟨frame.currentBlock.func, normalDest⟩
  | _ => frame

end IRStackFrame

def StackFrame.getRegular (frame : StackFrame) : Except Stop IRStackFrame :=
  match frame.value with
  | .regular frame => .ok frame
  | .external _ => .error .abort

def StackFrame.jumpReturn (code : Code) (frame : StackFrame) (value : LLVMValue) :
    Except Stop StackFrame :=
  match frame.value with
  | .regular regular =>
    match (regular.getCurrentInstruction code).bind code.inst? with
    | some (.callBr _) | some .other => .error .abort
    | _ => .ok { frame with value := .regular (regular.setResult code value) }
  | .external external =>
    .ok { frame with value := .external { external with result := some value } }

def replaceTop (stack : List StackFrame) (frame : StackFrame) : List StackFrame :=
  stack.dropLast ++ [frame]

/-- The contents of a buffer: the id of the frame and the place of the call, its block in the upper
half of the word. -/
def getJmpBuf (stackId : BitVec 64) (inst : InstPtr) : BitVec 64 × BitVec 64 :=
  (stackId, (BitVec.ofNat 32 inst.block.index).setWidth 64 <<< 32 |||
    (BitVec.ofNat 32 inst.index).setWidth 64)

/-- The buffer written by `setjmp` and the stack after its return with zero. -/
def setJmp (code : Code) (stack : List StackFrame) (width : Nat) :
    Except Stop ((BitVec 64 × BitVec 64) × List StackFrame) :=
  match stack.getLast? with
  | none => .error .abort
  | some top =>
    match top.value with
    | .external _ => .error .abort
    | .regular frame =>
      match frame.getCurrentInstruction code with
      | none => .error .abort
      | some inst => do
        let top' ← top.jumpReturn code (.scalar (.expr (.constantInt ⟨width, 0⟩)))
        .ok (getJmpBuf top.frameId inst, replaceTop stack top')

def findFrom (stack : List StackFrame) (frameId : BitVec 64) : Nat → Option Nat
  | 0 => none
  | i + 1 =>
    if stack[i]?.any (fun frame => frame.frameId = frameId) then some i
    else findFrom stack frameId i

def findJumpTargetFrame (stack : List StackFrame) (frameId : BitVec 64) : Option Nat :=
  findFrom stack frameId stack.length

/-- The frame on top goes on after the call at `inst`, which returns `value`. -/
def resumeAt (code : Code) (stack : List StackFrame) (inst : InstPtr) (value : Operation) :
    Except Stop (List StackFrame) :=
  match stack.getLast? with
  | none => .error .abort
  | some top => do
    let frame ← top.getRegular
    -- the loop that advances `current` stops at the instruction, which is in the block
    let frame := { frame.jumpTo inst.block with current := inst.index + 1 }
    let top' ← StackFrame.jumpReturn code { top with value := .regular frame }
      (.scalar (.expr value))
    .ok (replaceTop stack top')

def longJmp (code : Code) (cache : OperationCache) (stack : List StackFrame)
    (jmpbuf : BitVec 64 × BitVec 64) (value : Operation) : Except Stop (List StackFrame) :=
  let blockIdx := ((jmpbuf.2 >>> 32).setWidth 32).toNat
  let instIdx := (jmpbuf.2.setWidth 32).toNat
  match findJumpTargetFrame stack jmpbuf.1 with
  | none => .error (.fail "longjmp was unable to find target setjmp call")
  | some frameIdx =>
    match stack[frameIdx]? with
    | none => .error .abort
    | some target => do
      let target ← target.getRegular
      let func := target.currentBlock.func
      if (code.getD func []).length ≤ blockIdx then
        .error (.fail "jmp_buf contained invalid target")
      else
        match code.inst? ⟨⟨func, blockIdx⟩, instIdx⟩ with
        | none => .error (.fail "jmp_buf contained invalid target")
        | some inst =>
          match inst.callWidth? with
          | none => .error (.fail "jmp_buf target was not a valid instruction")
          | some width =>
            match Operation.createTruncOrZExt cache (.int width) value with
            | none => .error .abort
            | some value => resumeAt code (stack.take frameIdx) ⟨⟨func, blockIdx⟩, instIdx⟩ value

/-! ### The frames that are left -/

variable {code : Code} {cache : OperationCache} {stack stack' below above : List StackFrame}
variable {target : IRStackFrame} {frameId : BitVec 64} {value : Operation}

theorem findFrom_eq_some {i n : Nat} (hi : i < n) (hfound : stack[i]?.any (·.frameId = frameId))
    (hlater : ∀ j, i < j → j < n → ¬ stack[j]?.any (·.frameId = frameId)) :
    findFrom stack frameId n = some i := by
  induction n with
  | zero => exact absurd hi (Nat.not_lt_zero i)
  | succ n ih =>
    rw [findFrom]
    rcases Nat.lt_succ_iff_lt_or_eq.mp hi with hlt | rfl
    · rw [if_neg (hlater n hlt n.lt_succ_self)]
      exact ih hlt fun j hij hj => hlater j hij (Nat.lt_succ_of_lt hj)
    · rw [if_pos hfound]

theorem findJumpTargetFrame_eq {frame : StackFrame}
    (hids : ((below ++ frame :: above).map StackFrame.frameId).Nodup) :
    findJumpTargetFrame (below ++ frame :: above) frame.frameId = some below.length := by
  refine findFrom_eq_some (by simp) (by simp) fun j hj hlt hfound => ?_
  rw [map_append, map_cons, nodup_append] at hids
  have hnot := (nodup_cons.mp hids.2.1).1
  obtain ⟨k, rfl⟩ := Nat.exists_eq_add_of_lt hj
  rw [List.getElem?_append_right (by omega),
    show below.length + k + 1 - below.length = k + 1 by omega,
    List.getElem?_cons_succ] at hfound
  cases hother : above[k]? with
  | none =>
    rw [hother] at hfound
    cases hfound
  | some other =>
    rw [hother, Option.any_some, decide_eq_true_iff] at hfound
    exact hnot (hfound ▸ List.mem_map_of_mem (mem_of_getElem? hother))

theorem StackFrame.jumpReturn_frameId {frame frame' : StackFrame} {v : LLVMValue}
    (h : frame.jumpReturn code v = .ok frame') : frame'.frameId = frame.frameId := by
  unfold StackFrame.jumpReturn at h
  split at h
  · split at h
    · cases h
    · cases h
    · cases h
      rfl
  · cases h
    rfl

theorem except_bind_eq_ok {α β : Type} {x : Except Stop α} {f : α → Except Stop β} {b : β} :
    x >>= f = .ok b ↔ ∃ a, x = .ok a ∧ f a = .ok b := by
  cases x with
  | error e => exact iff_of_false (fun h => by cases h) (fun ⟨a, ha, _⟩ => by cases ha)
  | ok a => exact ⟨fun h => ⟨a, rfl, h⟩, fun ⟨_, ha, h⟩ => by cases ha; exact h⟩

theorem resumeAt_ids {inst : InstPtr} (h : resumeAt code stack inst value = .ok stack') :
    stack'.map StackFrame.frameId = stack.map StackFrame.frameId := by
  unfold resumeAt at h
  split at h
  · cases h
  · rename_i top htop
    obtain ⟨frame, -, h⟩ := except_bind_eq_ok.mp h
    obtain ⟨top', hreturn, h⟩ := except_bind_eq_ok.mp h
    cases h
    have hid := StackFrame.jumpReturn_frameId hreturn
    have hstk := dropLast_append_getLast? top htop
    rw [replaceTop, map_append, map_singleton, hid]
    conv_rhs => rw [← hstk, map_append, map_singleton]

theorem longJmp_cases {jmpbuf : BitVec 64 × BitVec 64}
    (h : longJmp code cache stack jmpbuf value = .ok stack') :
    ∃ frameIdx inst value, findJumpTargetFrame stack jmpbuf.1 = some frameIdx ∧
      resumeAt code (stack.take frameIdx) inst value = .ok stack' := by
  unfold longJmp at h
  dsimp only at h
  split at h
  · cases h
  · rename_i frameIdx hfind
    split at h
    · cases h
    · obtain ⟨target, -, h⟩ := except_bind_eq_ok.mp h
      split_ifs at h
      split at h
      · cases h
      · split at h
        · cases h
        · split at h
          · cases h
          · exact ⟨frameIdx, _, _, hfind, h⟩

theorem setJmp_buf {saved saved' : List StackFrame} {width : Nat} {jmpbuf : BitVec 64 × BitVec 64}
    (h : setJmp code saved width = .ok (jmpbuf, saved')) {top : StackFrame}
    (htop : saved.getLast? = some top) : jmpbuf.1 = top.frameId := by
  unfold setJmp at h
  rw [htop] at h
  dsimp only at h
  split at h
  · cases h
  · split at h
    · cases h
    · obtain ⟨top', -, h⟩ := except_bind_eq_ok.mp h
      cases h
      rfl

/-- What `longjmp` is for: the frame of `setjmp` is on top and goes on after the call, with the
value as its result. -/
def Unwound (code : Code) (cache : OperationCache) (below : List StackFrame) (frameId : BitVec 64)
    (target : IRStackFrame) (call : InstPtr) (value : Operation) (stack' : List StackFrame) :
    Prop :=
  ∃ frame inst width result, stack' = below ++ [⟨.regular frame, frameId⟩] ∧
    frame.func = target.func ∧ code.inst? call = some inst ∧ inst.callWidth? = some width ∧
    Operation.createTruncOrZExt cache (.int width) value = some result ∧
    frame.vars = target.vars.insert call (.scalar (.expr result)) ∧
    match inst with
    | .invoke _ normalDest _ => frame.currentBlock = ⟨call.block.func, normalDest⟩ ∧
      frame.prevBlock = some call.block ∧ frame.current = 0
    | _ => frame.currentBlock = call.block ∧ frame.current = call.index + 1

/-- `longjmp` leaves at most the frames below the one that called `setjmp`. -/
theorem longJmp_never_unwinds (code : Code) (cache : OperationCache)
    (saved saved' : List StackFrame) (width : Nat) (jmpbuf : BitVec 64 × BitVec 64)
    (hset : setJmp code saved width = .ok (jmpbuf, saved')) (top : StackFrame)
    (htop : saved.getLast? = some top) (below above : List StackFrame) (target : IRStackFrame)
    (value : Operation)
    (hids : ((below ++ ⟨.regular target, top.frameId⟩ :: above).map StackFrame.frameId).Nodup) :
    let stack := below ++ ⟨.regular target, top.frameId⟩ :: above
    (∀ stack', longJmp code cache stack jmpbuf value = .ok stack' →
      stack'.map StackFrame.frameId = below.map StackFrame.frameId) ∧
    ¬ ∃ caller call stack', top.value = .regular caller ∧
      caller.getCurrentInstruction code = some call ∧
      longJmp code cache stack jmpbuf value = .ok stack' ∧
      Unwound code cache below top.frameId target call value stack' := by
  intro stack
  have hleft : ∀ stack', longJmp code cache stack jmpbuf value = .ok stack' →
      stack'.map StackFrame.frameId = below.map StackFrame.frameId := by
    intro stack' h
    obtain ⟨frameIdx, inst, result, hfind, hresume⟩ := longJmp_cases h
    rw [setJmp_buf hset htop] at hfind
    cases (findJumpTargetFrame_eq hids).symm.trans hfind
    rw [resumeAt_ids hresume, take_left]
  refine ⟨hleft, ?_⟩
  rintro ⟨caller, call, stack', -, -, h, frame, inst, width, result, rfl, -⟩
  have hlen := congrArg List.length (hleft _ h)
  simp at hlen

/-- `main` calls `test`, which calls `setjmp` and `inner`, which calls `longjmp`. -/
def sampleCode : Code :=
  [[[.call none, .other]], [[.call (some 32), .call none, .other]], [[.call none, .other]]]

def sampleFrame (func current : Nat) : StackFrame :=
  ⟨.regular ⟨∅, ⟨func, 0⟩, none, current, func⟩, BitVec.ofNat 64 func⟩

def sampleValue : Operation := .constantInt ⟨32, 11⟩

/-- With `main` below, and for the frame of `longjmp` itself on top. -/
theorem longJmp_never_unwinds_sample :
    let stack := [sampleFrame 0 1, sampleFrame 1 2, sampleFrame 2 1,
      ⟨.external ⟨none, [.scalar (.expr sampleValue)], 3⟩, 3⟩]
    ¬ ∃ caller call stack', (sampleFrame 1 1).value = .regular caller ∧
      caller.getCurrentInstruction sampleCode = some call ∧
      longJmp sampleCode .full stack (getJmpBuf 1 ⟨⟨1, 0⟩, 0⟩) sampleValue = .ok stack' ∧
      Unwound sampleCode .full [sampleFrame 0 1] 1 ⟨∅, ⟨1, 0⟩, none, 2, 1⟩ call sampleValue
        stack' :=
  (longJmp_never_unwinds sampleCode .full [sampleFrame 0 1, sampleFrame 1 1] _ 32
    (getJmpBuf 1 ⟨⟨1, 0⟩, 0⟩) rfl (sampleFrame 1 1) rfl [sampleFrame 0 1]
    [sampleFrame 2 1, ⟨.external ⟨none, [.scalar (.expr sampleValue)], 3⟩, 3⟩]
    ⟨∅, ⟨1, 0⟩, none, 2, 1⟩ sampleValue (by decide)).2

/-- The frame of `test` is gone: `main` goes on in its code. Without `main` no frame is left. -/
theorem longJmp_resumes_in_caller :
    let above := [sampleFrame 2 1, ⟨.external ⟨none, [.scalar (.expr sampleValue)], 3⟩, 3⟩]
    (∃ saved', setJmp sampleCode [sampleFrame 0 1, sampleFrame 1 1] 32 =
      .ok (getJmpBuf 1 ⟨⟨1, 0⟩, 0⟩, saved')) ∧
    (∃ frame, longJmp sampleCode .full (sampleFrame 0 1 :: sampleFrame 1 2 :: above)
        (getJmpBuf 1 ⟨⟨1, 0⟩, 0⟩) sampleValue = .ok [⟨.regular frame, 0⟩] ∧
      frame.func = 0 ∧ frame.currentBlock = ⟨1, 0⟩ ∧ frame.current = 1) ∧
    longJmp sampleCode .full (sampleFrame 1 2 :: above) (getJmpBuf 1 ⟨⟨1, 0⟩, 0⟩) sampleValue =
      .error .abort :=
  ⟨⟨_, rfl⟩, ⟨_, rfl, rfl, rfl, rfl⟩, rfl⟩

end JmpBuf

end Caffeine
