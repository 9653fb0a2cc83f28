import Caffeine.Interpreter.PathCondition
import Caffeine.Util.ParallelMove

/-!
# PHI nodes

On entry to a block its PHI nodes are moves from their incoming operands to the variables they
define, and LLVM executes these moves in parallel. The interpreter executes them one after the
other.
-/

namespace Caffeine

open ParallelMove List Option

variable {G : Type}

structure PHINode where
  id : ValueId
  incoming : List (BlockId × Operand)

def Context.env (ctx : Context G) : Env ValueId LLVMValue :=
  fun id => ctx.load (.ident id)

def Operand.source : Operand → ValueId ⊕ LLVMValue
  | ident id => .inl id
  | constant value => .inr value

theorem Context.load_eq (ctx : Context G) (operand : Operand) :
    ctx.load operand = eval ctx.env operand.source := by
  cases operand <;> rfl

namespace PHINode

def instruction (phi : PHINode) : Instruction := .phi phi.id phi.incoming

def incomingValue (phi : PHINode) (prev : BlockId) (ctx : Context G) : Option LLVMValue := do
  ctx.load (← phi.incoming.lookup prev)

def move (prev : BlockId) (phi : PHINode) : Move ValueId LLVMValue where
  dst := phi.id
  src := ((phi.incoming.lookup prev).map Operand.source).getD (.inl phi.id)

variable {phi : PHINode} {prev : BlockId} {ctx : Context G}

theorem move_src {operand : Operand} (h : phi.incoming.lookup prev = some operand) :
    (phi.move prev).src = operand.source := by
  simp [move, h]

theorem move_src_eq_inl (h : (phi.incomingValue prev ctx).isSome) {x : ValueId} :
    (phi.move prev).src = .inl x ↔ phi.incoming.lookup prev = some (.ident x) := by
  cases hop : phi.incoming.lookup prev with
  | none => simp [incomingValue, hop] at h
  | some operand =>
    rw [move_src hop]
    cases operand <;> simp [Operand.source]

theorem incomingValue_eq (h : (phi.incomingValue prev ctx).isSome) :
    phi.incomingValue prev ctx = eval ctx.env (phi.move prev).src := by
  cases hop : phi.incoming.lookup prev with
  | none => simp [incomingValue, hop] at h
  | some operand =>
    rw [move_src hop, ← Context.load_eq]
    simp [incomingValue, hop]

end PHINode

namespace Interpreter

variable [PathGraph G] {interp : InterpreterContext G} {prev : BlockId}

/-- The executing context is at some PHI nodes of its block, which was entered from `prev`. -/
def AtPHINodes (prev : BlockId) (phis : List PHINode) (ctx : Context G) : Prop :=
  ∃ frame before rest, ctx.stackTop = some frame ∧ frame.prevBlock = some prev ∧
    frame.current = before.length ∧
    frame.func.blocks[frame.currentBlock]? = some (before ++ phis.map PHINode.instruction ++ rest)

theorem execute_phi (shared : CaffeineContext) {phi : PHINode} {phis : List PHINode}
    {value : LLVMValue} (hat : AtPHINodes prev (phi :: phis) interp.context)
    (hval : phi.incomingValue prev interp.context = some value) :
    ∃ interp', execute shared interp = some interp' ∧ AtPHINodes prev phis interp'.context ∧
      interp'.context.env = Function.update interp.context.env phi.id (some value) := by
  obtain ⟨frame, before, rest, htop, hprev, hcur, hblk⟩ := hat
  obtain ⟨stack, hstk⟩ := Context.stack_eq_cons htop
  obtain ⟨operand, hopd, hload⟩ := bind_eq_some_iff.mp hval
  let after : IRStackFrame := { frame with current := frame.current + 1 }
  let advanced : Context G := { interp.context with stack := after :: stack }
  have hfetch : fetch frame = some (phi.instruction, after) := by
    simp [fetch, hblk, hcur, after]
  have henv : advanced.env = interp.context.env := by
    funext id
    rw [Context.env, Context.env, Context.load, Context.load, htop]
    rfl
  have hload' : advanced.load operand = some value := by
    rw [Context.load_eq, henv, ← Context.load_eq, hload]
  let stored : Context G := { interp.context with stack := after.insert phi.id value :: stack }
  refine ⟨interp.setContext stored, ?_, ⟨after.insert phi.id value, before ++ [phi.instruction],
    rest, rfl, hprev, ?_, ?_⟩, ?_⟩
  · rw [execute_eq hstk hfetch]
    change visitPHINode phi.id phi.incoming (interp.setContext advanced) = _
    have hprev' : after.prevBlock = some prev := hprev
    have htop' : advanced.stackTop = some after := rfl
    have hsto : advanced.store phi.id value = some stored := rfl
    simp only [visitPHINode, InterpreterContext.context, InterpreterContext.setContext, htop',
      hprev', hopd, hload', hsto, some_bind]
  · simp [IRStackFrame.insert, after, hcur]
  · simpa [IRStackFrame.insert, after] using hblk
  · rw [← henv]
    funext id
    exact (Map.lookup_insert _ _ _ _).trans (Function.update_apply advanced.env phi.id _ id).symm

theorem executeSteps_phis (shared : CaffeineContext) {phis : List PHINode}
    {env' : Env ValueId LLVMValue} (hat : AtPHINodes prev phis interp.context)
    (havailable : ∀ phi ∈ phis, (phi.incomingValue prev interp.context).isSome)
    (hseq : sequential (phis.map (PHINode.move prev)) interp.context.env = some env') :
    ∃ interp', executeSteps shared phis.length interp = some interp' ∧
      interp'.context.env = env' := by
  induction phis generalizing interp with
  | nil => exact ⟨interp, rfl, some.inj hseq⟩
  | cons phi phis ih =>
    obtain ⟨hphi, hphis⟩ := forall_mem_cons.mp havailable
    obtain ⟨value, hmove, hrest⟩ := bind_eq_some_iff.mp hseq
    have hval : phi.incomingValue prev interp.context = some value := by
      rw [PHINode.incomingValue_eq hphi, hmove]
    obtain ⟨next, hstep, hnext, henv⟩ := execute_phi shared hat hval
    have hdefined : ∀ k ∈ phis, (k.incomingValue prev next.context).isSome := fun k hk => by
      have hk := hphis k hk
      obtain ⟨operand, hopd, -⟩ := bind_eq_some_iff.mp
        (some_get hk).symm
      rw [PHINode.incomingValue_eq hk, PHINode.move_src hopd] at hk
      rw [PHINode.incomingValue, hopd]
      change (next.context.load operand).isSome
      rw [Context.load_eq, henv]
      exact eval_update_isSome hk value
    obtain ⟨final, hfnl, hout⟩ := ih hnext hdefined (henv ▸ hrest)
    exact ⟨final, bind_eq_some_iff.mpr ⟨next, hstep, hfnl⟩, hout⟩

end Interpreter

/-- PHI nodes are evaluated in parallel exactly if none reads an earlier one of the block whose
value on entry differs from its incoming one. -/
theorem Interpreter.phis_parallel_iff [PathGraph G] (shared : CaffeineContext)
    (interp : InterpreterContext G) (pred frame : IRStackFrame) (stack : List IRStackFrame)
    (block : BlockId) (phis : List PHINode) (rest : List Instruction)
    (hstack : interp.context.stack = frame :: stack) (hjump : pred.jumpTo block = some frame)
    (hblock : pred.func.blocks[block]? = some (phis.map PHINode.instruction ++ rest))
    (hnodup : (phis.map PHINode.id).Nodup)
    (havailable : ∀ phi ∈ phis, (phi.incomingValue pred.currentBlock interp.context).isSome) :
    (∃ final, executeSteps shared phis.length interp = some final ∧
      ∀ phi ∈ phis, final.context.load (.ident phi.id) =
        phi.incomingValue pred.currentBlock interp.context) ↔
    phis.Pairwise fun earlier later =>
      later.incoming.lookup pred.currentBlock = some (.ident earlier.id) →
        interp.context.load (.ident earlier.id) =
          earlier.incomingValue pred.currentBlock interp.context := by
  let prev := pred.currentBlock
  let env := interp.context.env
  have hat : AtPHINodes prev phis interp.context := by
    simp only [IRStackFrame.jumpTo, bind_eq_some, some.injEq] at hjump
    obtain ⟨-, -, rfl⟩ := hjump
    exact ⟨_, [], rest, by rw [Context.stackTop, hstack]; rfl, rfl, rfl, hblock⟩
  have hdefined : ParallelMove.Defined (phis.map (PHINode.move prev)) env :=
    List.forall_mem_map.mpr fun phi hphi => by
      rw [← PHINode.incomingValue_eq (havailable phi hphi)]
      exact havailable phi hphi
  obtain ⟨env', hseq⟩ := exists_sequential hdefined
  obtain ⟨final, hrun, rfl⟩ := executeSteps_phis shared hat havailable hseq
  have hdst : ((phis.map (PHINode.move prev)).map Move.dst).Nodup := by
    rwa [List.map_map]
  have hparallel : Parallel (phis.map (PHINode.move prev)) env final.context.env ↔
      ∀ phi ∈ phis, final.context.load (.ident phi.id) =
        phi.incomingValue prev interp.context := by
    rw [Parallel, List.forall_mem_map]
    exact forall₂_congr fun phi hphi => by
      rw [PHINode.incomingValue_eq (havailable phi hphi)]
      rfl
  have hindependent : Independent (phis.map (PHINode.move prev)) env ↔
      phis.Pairwise fun earlier later => later.incoming.lookup prev = some (.ident earlier.id) →
        interp.context.load (.ident earlier.id) = earlier.incomingValue prev interp.context := by
    rw [Independent, pairwise_map]
    refine Pairwise.iff_of_mem fun {a b} ha hb => ?_
    rw [PHINode.incomingValue_eq (havailable a ha)]
    exact imp_congr (PHINode.move_src_eq_inl (havailable b hb)) Iff.rfl
  rw [← hindependent, ← parallel_iff_independent hdst hseq, hparallel]
  constructor
  · rintro ⟨final', hrun', h⟩
    cases hrun.symm.trans hrun'
    exact h
  · exact fun h => ⟨final, hrun, h⟩

namespace Sample

def loopFrame (phis : List PHINode) (values : Map ValueId LLVMValue) : IRStackFrame :=
  ⟨⟨[[], phis.map PHINode.instruction ++ [.br 1]]⟩, values, 1, some 1, 0⟩

def loop (phis : List PHINode) (values : Map ValueId LLVMValue) :
    InterpreterContext (List Assertion) :=
  ⟨{ context := ⟨[loopFrame phis values], ∅, []⟩ }, [], 0, []⟩

def integer (v : Nat) : LLVMValue := .scalar (.expr (.constantInt (APInt.ofNat 32 v)))

def onEntry : Map ValueId LLVMValue := (AList.singleton 0 (integer 1)).insert 1 (integer 2)

def shift : List PHINode :=
  [⟨0, [(0, .constant (integer 0)), (1, .ident 1)]⟩,
    ⟨1, [(0, .constant (integer 0)), (1, .constant (integer 7))]⟩]

def swap : List PHINode :=
  [⟨0, [(0, .constant (integer 0)), (1, .ident 1)]⟩,
    ⟨1, [(0, .constant (integer 1)), (1, .ident 0)]⟩]

end Sample

open Sample

theorem Interpreter.phis_parallel_shift :
    ∃ final, executeSteps undecided 2 (loop Sample.shift onEntry) = some final ∧
      ∀ phi ∈ Sample.shift, final.context.load (.ident phi.id) =
        phi.incomingValue 1 (loop Sample.shift onEntry).context := by
  let frame := loopFrame Sample.shift onEntry
  refine (phis_parallel_iff undecided (loop Sample.shift onEntry) frame frame [] 1 _ [.br 1] rfl rfl
    rfl (by decide) ?_).mpr ?_
  · exact forall_mem_cons.mpr ⟨rfl, forall_mem_singleton.mpr rfl⟩
  · refine pairwise_pair.mpr fun h => ?_
    cases h

/-- After the exchange both PHI nodes hold the value of the second. -/
theorem Interpreter.phis_swap_sequential :
    ¬ ∃ final, executeSteps undecided 2 (loop Sample.swap onEntry) = some final ∧
      ∀ phi ∈ Sample.swap, final.context.load (.ident phi.id) =
        phi.incomingValue 1 (loop Sample.swap onEntry).context := by
  rintro ⟨final, hrun, h⟩
  have hsecond : final.context.load (.ident 1) = some (integer 1) :=
    h ⟨1, [(0, .constant (integer 1)), (1, .ident 0)]⟩ (mem_cons_of_mem _ mem_cons_self)
  obtain rfl := some.inj hrun
  cases hsecond

end Caffeine
