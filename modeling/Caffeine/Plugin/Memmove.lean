import Caffeine.Util.BlockIR
import Caffeine.Util.CopyLoops

/-!
# The generated `memmove`

`generateMemmove` emits a function that compares the two ranges and then copies byte by byte, from
the end if the ranges are found to be disjoint or the source is below the destination, and from the
start otherwise.
-/

namespace Caffeine

open BitVec

namespace Memmove

open BlockIR CopyLoops

inductive Label where
  | entry
  | exit
  | fwdHead
  | fwdBody
  | bwdHead
  | bwdBody
deriving DecidableEq

inductive Reg where
  | argDst
  | argSrc
  | argLen
  | resSrc
  | resDst
  | intSrc
  | intDst
  | addrLt
  | srcEnd
  | overlap1
  | dstEnd
  | overlap2
  | eitherOverlap
  | cond
  | fwdDst
  | fwdSrc
  | fwdLen
  | fwdCond
  | fwdVal
  | fwdNextDst
  | fwdNextSrc
  | fwdNextLen
  | bwdLen
  | bwdCond
  | bwdNextLen
  | bwdDst
  | bwdSrc
  | bwdVal
deriving DecidableEq

section Generator

variable {w : Nat}

def buildForward (before after : Label) (resDst resSrc argLen : BlockIR.Value Reg w) :
    Block Reg Label w × Block Reg Label w :=
  ({ phis := [(.fwdDst, [(before, resDst), (.fwdBody, .reg .fwdNextDst)]),
       (.fwdSrc, [(before, resSrc), (.fwdBody, .reg .fwdNextSrc)]),
       (.fwdLen, [(before, argLen), (.fwdBody, .reg .fwdNextLen)])]
     body := [.icmp .fwdCond .ne (.reg .fwdLen) (.const 0)]
     terminator := .condBr .fwdCond .fwdBody after },
   { phis := []
     body := [.load .fwdVal (.reg .fwdSrc), .store .fwdVal (.reg .fwdDst),
       .gep .fwdNextDst (.reg .fwdDst) (.const 1), .gep .fwdNextSrc (.reg .fwdSrc) (.const 1),
       .sub .fwdNextLen (.reg .fwdLen) (.const 1)]
     terminator := .br .fwdHead })

def buildBackwards (before after : Label) (resDst resSrc argLen : BlockIR.Value Reg w) :
    Block Reg Label w × Block Reg Label w :=
  ({ phis := [(.bwdLen, [(before, argLen), (.bwdBody, .reg .bwdNextLen)])]
     body := [.icmp .bwdCond .ne (.reg .bwdLen) (.const 0)]
     terminator := .condBr .bwdCond .bwdBody after },
   { phis := []
     body := [.sub .bwdNextLen (.reg .bwdLen) (.const 1),
       .gep .bwdDst resDst (.reg .bwdNextLen), .gep .bwdSrc resSrc (.reg .bwdNextLen),
       .load .bwdVal (.reg .bwdSrc), .store .bwdVal (.reg .bwdDst)]
     terminator := .br .bwdHead })

def resolve : List (BitVec w) → Option (BitVec w)
  | [pointer, _] => some pointer
  | _ => none

/-- The function for a length as wide as a pointer, which `CreateZExtOrTrunc` gives back. -/
def generateMemmove (w : Nat) : Label → Block Reg Label w
  | .entry =>
    { phis := []
      body := [.call .resSrc resolve [.reg .argSrc, .reg .argLen],
        .call .resDst resolve [.reg .argDst, .reg .argLen],
        .ptrToInt .intSrc (.reg .resSrc), .ptrToInt .intDst (.reg .resDst),
        .icmp .addrLt .ult (.reg .intSrc) (.reg .intDst),
        .add .srcEnd (.reg .intSrc) (.reg .argLen),
        .icmp .overlap1 .ule (.reg .srcEnd) (.reg .intDst),
        .add .dstEnd (.reg .intDst) (.reg .argLen),
        .icmp .overlap2 .ule (.reg .dstEnd) (.reg .intSrc),
        .or .eitherOverlap .overlap1 .overlap2, .or .cond .eitherOverlap .addrLt]
      terminator := .condBr .cond .bwdHead .fwdHead }
  | .fwdHead => (buildForward .entry .exit (.reg .resDst) (.reg .resSrc) (.reg .argLen)).1
  | .fwdBody => (buildForward .entry .exit (.reg .resDst) (.reg .resSrc) (.reg .argLen)).2
  | .bwdHead => (buildBackwards .entry .exit (.reg .resDst) (.reg .resSrc) (.reg .argLen)).1
  | .bwdBody => (buildBackwards .entry .exit (.reg .resDst) (.reg .resSrc) (.reg .argLen)).2
  | .exit => { phis := [], body := [], terminator := .ret }

end Generator

/-! ### The loops -/

variable {w : Nat} {s : State Reg w} {dst src len : BitVec w}

structure Forward (dst src len : BitVec w) (s : State Reg w) : Prop where
  dst : s.regs .fwdDst = .word dst
  src : s.regs .fwdSrc = .word src
  len : s.regs .fwdLen = .word len

theorem Forward.head (h : Forward dst src len s) : ∃ s1 : State Reg w,
    (generateMemmove w .fwdHead).body.foldlM Instr.exec s = some s1 ∧
      s1.bit .fwdCond = some (len != 0) ∧ Forward dst src len s1 ∧ s1.mem = s.mem := by
  simp only [generateMemmove, buildForward, List.foldlM_cons, List.foldlM_nil, Instr.exec,
    State.word, h.len, Option.bind_eq_bind, Option.bind_some, Option.pure_def, Option.some.injEq,
    exists_eq_left']
  exact ⟨rfl, ⟨h.dst, h.src, h.len⟩, rfl⟩

theorem Forward.body (h : Forward dst src len s) : ∃ s1 : State Reg w,
    (generateMemmove w .fwdBody).body.foldlM Instr.exec s = some s1 ∧
      (generateMemmove w .fwdHead).incoming .fwdBody s1 =
        some [(.fwdDst, dst + 1), (.fwdSrc, src + 1), (.fwdLen, len - 1)] ∧
      s1.mem = Function.update s.mem dst (s.mem src) := by
  simp [generateMemmove, buildForward, Instr.exec, Block.incoming, State.word, State.set,
    State.byte, h.len, h.dst, h.src]

theorem forward_assign (s : State Reg w) (dst src len : BitVec w) :
    Forward dst src len (s.assign [(.fwdDst, dst), (.fwdSrc, src), (.fwdLen, len)]) :=
  ⟨rfl, rfl, rfl⟩

theorem toNat_sub_one {n : Nat} (hn : len.toNat = n + 1) :
    (len != 0) = true ∧ (len - 1).toNat = n := by
  have hlt := len.isLt
  have hone : (1 : BitVec w).toNat = 1 := by
    rw [show (1 : BitVec w) = BitVec.ofNat w 1 from rfl, toNat_ofNat]
    exact Nat.mod_eq_of_lt (by omega)
  refine ⟨bne_iff_ne.mpr fun hzero => ?_, ?_⟩
  · rw [hzero] at hn
    simp at hn
  · rw [toNat_sub_of_le (le_def.mpr (by omega)), hn, hone, Nat.add_sub_cancel]

theorem run_exit (s : State Reg w) : run (generateMemmove w) 1 .exit s = some s :=
  run_ret rfl rfl

theorem Forward.run (h : Forward dst src len s) :
    ∃ fuel s', run (generateMemmove w) fuel .fwdHead s = some s' ∧
      s'.mem = copyUp len.toNat dst src s.mem := by
  generalize hn : len.toNat = n
  induction n generalizing s dst src len with
  | zero =>
    have hzero : len = 0 := eq_of_toNat_eq (by simpa using hn)
    obtain ⟨s1, hs1, hcond, -, hmem⟩ := h.head
    rw [hzero, bne_self_eq_false] at hcond
    refine ⟨2, s1, ?_, hmem⟩
    rw [run_condBr hs1 rfl hcond rfl rfl]
    exact run_exit s1
  | succ n ih =>
    obtain ⟨hne, hpred⟩ := toNat_sub_one hn
    obtain ⟨s1, hs1, hcond, h1, hmem1⟩ := h.head
    obtain ⟨s2, hs2, hphis, hmem2⟩ := h1.body
    obtain ⟨fuel, s', hrun, hmem⟩ := ih (forward_assign s2 (dst + 1) (src + 1) (len - 1)) hpred
    rw [hne] at hcond
    refine ⟨fuel + 2, s', ?_, ?_⟩
    · have hbranch : BlockIR.run (generateMemmove w) (fuel + 2) .fwdHead s =
          BlockIR.run (generateMemmove w) (fuel + 1) .fwdBody s1 :=
        run_condBr hs1 rfl hcond rfl rfl
      rw [hbranch, run_br hs2 rfl hphis, hrun]
    · rw [hmem, copyUp, ← hmem1, ← hmem2]
      rfl

structure Backward (dst src len : BitVec w) (s : State Reg w) : Prop where
  dst : s.regs .resDst = .word dst
  src : s.regs .resSrc = .word src
  len : s.regs .bwdLen = .word len

theorem Backward.head (h : Backward dst src len s) : ∃ s1 : State Reg w,
    (generateMemmove w .bwdHead).body.foldlM Instr.exec s = some s1 ∧
      s1.bit .bwdCond = some (len != 0) ∧ Backward dst src len s1 ∧ s1.mem = s.mem := by
  simp only [generateMemmove, buildBackwards, List.foldlM_cons, List.foldlM_nil, Instr.exec,
    State.word, h.len, Option.bind_eq_bind, Option.bind_some, Option.pure_def, Option.some.injEq,
    exists_eq_left']
  exact ⟨rfl, ⟨h.dst, h.src, h.len⟩, rfl⟩

theorem Backward.body (h : Backward dst src len s) : ∃ s1 : State Reg w,
    (generateMemmove w .bwdBody).body.foldlM Instr.exec s = some s1 ∧
      (generateMemmove w .bwdHead).incoming .bwdBody s1 = some [(.bwdLen, len - 1)] ∧
      s1.regs .resDst = .word dst ∧ s1.regs .resSrc = .word src ∧
      s1.mem = Function.update s.mem (dst + (len - 1)) (s.mem (src + (len - 1))) := by
  simp [generateMemmove, buildBackwards, Instr.exec, Block.incoming, State.word, State.set,
    State.byte, h.len, h.dst, h.src]

theorem Backward.run (h : Backward dst src len s) :
    ∃ fuel s', run (generateMemmove w) fuel .bwdHead s = some s' ∧
      s'.mem = copyDown len.toNat dst src s.mem := by
  generalize hn : len.toNat = n
  induction n generalizing s len with
  | zero =>
    have hzero : len = 0 := eq_of_toNat_eq (by simpa using hn)
    obtain ⟨s1, hs1, hcond, -, hmem⟩ := h.head
    rw [hzero, bne_self_eq_false] at hcond
    refine ⟨2, s1, ?_, hmem⟩
    rw [run_condBr hs1 rfl hcond rfl rfl]
    exact run_exit s1
  | succ n ih =>
    obtain ⟨hne, hpred⟩ := toNat_sub_one hn
    obtain ⟨s1, hs1, hcond, h1, hmem1⟩ := h.head
    obtain ⟨s2, hs2, hphis, hdst, hsrc, hmem2⟩ := h1.body
    have h2 : Backward dst src (len - 1) (s2.assign [(.bwdLen, len - 1)]) := ⟨hdst, hsrc, rfl⟩
    obtain ⟨fuel, s', hrun, hmem⟩ := ih h2 hpred
    have hcell : len - 1 = BitVec.ofNat w n := by
      rw [← hpred, ofNat_toNat, setWidth_eq]
    rw [hne] at hcond
    refine ⟨fuel + 2, s', ?_, ?_⟩
    · have hbranch : BlockIR.run (generateMemmove w) (fuel + 2) .bwdHead s =
          BlockIR.run (generateMemmove w) (fuel + 1) .bwdBody s1 :=
        run_condBr hs1 rfl hcond rfl rfl
      rw [hbranch, run_br hs2 rfl hphis, hrun]
    · rw [hmem, copyDown, cell, cell, ← hcell, ← hmem1, ← hmem2]
      rfl

/-! ### The choice of the loop -/

theorem run_entry (hdst : s.regs .argDst = .word dst) (hsrc : s.regs .argSrc = .word src)
    (hlen : s.regs .argLen = .word len) :
    ∃ fuel s', run (generateMemmove w) fuel .entry s = some s' ∧
      s'.mem = if (src + len).ule dst || (dst + len).ule src || src.ult dst then
        copyDown len.toNat dst src s.mem else copyUp len.toNat dst src s.mem := by
  obtain ⟨s1, hs1, hcond, hbwd, hfwd, hresDst, hresSrc, hmem⟩ : ∃ s1 : State Reg w,
      (generateMemmove w .entry).body.foldlM Instr.exec s = some s1 ∧
      s1.bit .cond = some ((src + len).ule dst || (dst + len).ule src || src.ult dst) ∧
      (generateMemmove w .bwdHead).incoming .entry s1 = some [(.bwdLen, len)] ∧
      (generateMemmove w .fwdHead).incoming .entry s1 =
        some [(.fwdDst, dst), (.fwdSrc, src), (.fwdLen, len)] ∧
      s1.regs .resDst = .word dst ∧ s1.regs .resSrc = .word src ∧ s1.mem = s.mem := by
    simp [generateMemmove, buildForward, buildBackwards, Instr.exec, Block.incoming, State.word,
      State.set, State.bit, resolve, Predicate.eval, hdst, hsrc, hlen]
  cases hchoice : (src + len).ule dst || (dst + len).ule src || src.ult dst with
  | true =>
    have hloop : Backward dst src len (s1.assign [(.bwdLen, len)]) := ⟨hresDst, hresSrc, rfl⟩
    obtain ⟨fuel, s', hrun, hmem'⟩ := hloop.run
    refine ⟨fuel + 1, s', ?_, ?_⟩
    · exact (run_condBr hs1 rfl (hcond.trans (congrArg some hchoice)) rfl hbwd).trans hrun
    · rw [hmem', if_pos rfl, ← hmem]
      rfl
  | false =>
    obtain ⟨fuel, s', hrun, hmem'⟩ := (forward_assign s1 dst src len).run
    refine ⟨fuel + 1, s', ?_, ?_⟩
    · exact (run_condBr hs1 rfl (hcond.trans (congrArg some hchoice)) rfl hfwd).trans hrun
    · rw [hmem', if_neg Bool.false_ne_true, ← hmem]
      rfl

theorem toNat_end {a : BitVec w} (h : a ≤ a + len) : a.toNat + len.toNat < 2 ^ w := by
  have hle := le_def.mp h
  have hlt := len.isLt
  have ha := a.isLt
  by_contra hfits
  rw [toNat_add, Nat.mod_eq_sub_mod (Nat.not_lt.mp hfits), Nat.mod_eq_of_lt (by omega)] at hle
  omega

/-- A range may end with the address space, where the sum that should be its end is address zero and
is found below everything. The copy is then made from the end, which is wrong only for a source of
this kind that the destination reaches into from below. -/
theorem run_entry_moved (hsrcFits : src.toNat + len.toNat ≤ 2 ^ w)
    (hdstFits : dst.toNat + len.toNat ≤ 2 ^ w)
    (hend : src.toNat + len.toNat < 2 ^ w ∨ src.toNat ≤ dst.toNat ∨
      dst.toNat + len.toNat ≤ src.toNat)
    (hargDst : s.regs .argDst = .word dst) (hargSrc : s.regs .argSrc = .word src)
    (hargLen : s.regs .argLen = .word len) :
    ∃ fuel s', run (generateMemmove w) fuel .entry s = some s' ∧
      Moved len.toNat dst src s.mem s'.mem := by
  obtain ⟨fuel, s', hrun, hmem⟩ := run_entry hargDst hargSrc hargLen
  refine ⟨fuel, s', hrun, ?_⟩
  have hcell : ∀ i < len.toNat, (cell dst i).toNat = dst.toNat + i ∧
      (cell src i).toNat = src.toNat + i := fun i hi =>
    ⟨toNat_cell (by omega), toNat_cell (by omega)⟩
  have hdistinct : ∀ i j, i < j → j < len.toNat → cell dst i ≠ cell dst j := by
    intro i j hij hj heq
    have := congrArg BitVec.toNat heq
    rw [(hcell i (hij.trans hj)).1, (hcell j hj).1] at this
    omega
  rw [hmem]
  split_ifs with hchoice
  · refine copyDown_moved hdistinct fun i j hij hj heq => ?_
    have heq := congrArg BitVec.toNat heq
    rw [(hcell j hj).1, (hcell i (hij.trans hj)).2] at heq
    simp only [BitVec.ule, BitVec.ult, Bool.or_eq_true, decide_eq_true_eq] at hchoice
    -- the source starts inside the destination, so its end is an address and the test is exact
    have hsrcEnd : (src + len).toNat = src.toNat + len.toNat := by
      rw [toNat_add, Nat.mod_eq_of_lt (by omega)]
    have hdstEnd : (dst + len).toNat = dst.toNat + len.toNat := by
      rw [toNat_add, Nat.mod_eq_of_lt (by omega)]
    rw [hsrcEnd, hdstEnd] at hchoice
    omega
  · refine copyUp_moved hdistinct fun i j hij hj heq => ?_
    have heq := congrArg BitVec.toNat heq
    rw [(hcell i (hij.trans hj)).1, (hcell j hj).2] at heq
    simp only [BitVec.ule, BitVec.ult, Bool.or_eq_true, decide_eq_true_eq] at hchoice
    omega

/-- The last two bytes of the address space are not moved down by one: the last byte arrives
twice. -/
theorem run_entry_end_clobbered :
    let s : State Reg 3 :=
      ⟨fun r => match r with
        | .argDst => .word 5
        | .argSrc => .word 6
        | _ => .word 2, fun a => a.setWidth 8⟩
    ∃ fuel s', run (generateMemmove 3) fuel .entry s = some s' ∧ s'.mem 5 = 7 ∧ s'.mem 6 = 7 := by
  intro s
  obtain ⟨fuel, s', hrun, hmem⟩ := @run_entry 3 s 5 6 2 rfl rfl rfl
  exact ⟨fuel, s', hrun, by rw [hmem]; decide, by rw [hmem]; decide⟩

/-- The generated function returns with the range moved, wherever the ranges are. -/
theorem generateMemmove_moves (w : Nat) (dst src len : BitVec w) (hsrc : src ≤ src + len)
    (hdst : dst ≤ dst + len) (s : State Reg w) (hargDst : s.regs .argDst = .word dst)
    (hargSrc : s.regs .argSrc = .word src) (hargLen : s.regs .argLen = .word len) :
    ∃ fuel s', run (generateMemmove w) fuel .entry s = some s' ∧
      Moved len.toNat dst src s.mem s'.mem :=
  run_entry_moved (toNat_end hsrc).le (toNat_end hdst).le (.inl (toNat_end hsrc)) hargDst hargSrc
    hargLen

/-- Two bytes moved down by one. -/
theorem generateMemmove_moves_overlap :
    let s : State Reg 16 :=
      ⟨fun r => match r with
        | .argDst => .word 10
        | .argSrc => .word 11
        | _ => .word 2, fun a => a.setWidth 8⟩
    ∃ fuel s', run (generateMemmove 16) fuel .entry s = some s' ∧ Moved 2 10 11 s.mem s'.mem :=
  generateMemmove_moves 16 10 11 2 (by decide) (by decide) _ rfl rfl rfl

end Memmove

end Caffeine
