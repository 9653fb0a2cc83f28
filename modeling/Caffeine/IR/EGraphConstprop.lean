import Caffeine.IR.EGraphSession

/-!
# Constant propagation

`EGraph::constprop` merges a class with a literal when one of its nodes has literal operands only;
every merge is logged with the node it folds. The folds of the four division opcodes test their
divisor the wrong way round: for a divisor other than zero they yield the divisor.
-/

namespace Caffeine

open List Option
open Semantics (apply bitvec)

namespace APInt

/-- Division and remainder of `llvm::APInt`, undefined for the divisor zero. -/
def checked (f : APInt → APInt → APInt) (a b : APInt) : Option APInt :=
  if b.isNullValue then none else some (f a b)

end APInt

namespace Constprop

open APInt

def foldBinary : BinaryOpcode → APInt → APInt → Option APInt
  | .add, a, b => some (a.add b)
  | .sub, a, b => some (a.sub b)
  | .mul, a, b => some (a.mul b)
  | .udiv, a, b => if b.eqNat 0 then checked udiv a b else some b
  | .sdiv, a, b => if b.eqNat 0 then checked sdiv a b else some b
  | .urem, a, b => if b.eqNat 0 then checked urem a b else some b
  | .srem, a, b => if b.eqNat 0 then checked srem a b else some b
  | .and, a, b => some (a.and b)
  | .or, a, b => some (a.or b)
  | .xor, a, b => some (a.xor b)
  | .shl, a, b => some (a.shl b)
  | .lshr, a, b => some (a.lshr b)
  | .ashr, a, b => some (a.ashr b)
  | _, _, _ => none

def foldUnary : UnaryOpcode → Ty → APInt → Option APInt
  | .not, _, a => some a.not
  | .zext, t, a => some (a.zext t.bitwidth)
  | .sext, t, a => some (a.sext t.bitwidth)
  | .trunc, t, a => some (a.trunc t.bitwidth)
  | _, _, _ => none

def handled : OperationData → Bool
  | .binary op _ => op ∉ [.fadd, .fsub, .fmul, .fdiv, .frem]
  | .icmp _ => true
  | .unary op _ => op ∈ [.not, .zext, .sext, .trunc]
  | _ => false

/-- The literal `tryFoldNode` computes from literal operands, as many as the opcode has. -/
def foldArgs : OperationData → List APInt → Option APInt
  | .binary op _, [a, b] => foldBinary op a b
  | .icmp cmp, [a, b] => some (ofBool (constantIntCompare cmp a b))
  | .unary op t, [a] => foldUnary op t a
  | _, _ => none

end Constprop

/-- The class, the folded node, its literal operands and the result. -/
structure ConstpropMerge where
  id : Nat
  node : ENode
  args : List APInt
  value : APInt
  deriving DecidableEq

structure EGraphConstantPropagator where
  graph : EGraph
  constants : List Nat := []
  merges : List ConstpropMerge := []

namespace EGraphConstantPropagator

open EGraph Constprop

def operandsConstant (p : EGraphConstantPropagator) : List Nat → Option Bool
  | [] => some true
  | operand :: operands => do
    let id ← p.graph.find operand
    if id ∈ p.constants then p.operandsConstant operands else some false

/-- The literal of an operand: its class must be constant and start with a `ConstantInt`. -/
def literal (g : EGraph) (operand : Nat) : Option APInt := do
  let c ← g.get operand
  let node ← c.nodes[0]?
  match c.isConstant, node.data with
  | true, .constantInt v => some v
  | _, _ => none

/-- `tryFoldNode` up to the call of `add`: the operand literals and the folded one. -/
def tryFold (p : EGraphConstantPropagator) (node : ENode) : Option (Option (List APInt × APInt)) :=
  if handled node.data then do
    let constant ← p.operandsConstant node.operands
    if constant then do
      let args ← node.operands.mapM (literal p.graph)
      let value ← foldArgs node.data args
      some (some (args, value))
    else some none
  else some none

def visitNodes (p : EGraphConstantPropagator) (id : Nat) :
    List ENode → Option EGraphConstantPropagator
  | [] => some p
  | node :: nodes => do
    match ← p.tryFold node with
    | none => p.visitNodes id nodes
    | some (args, value) => do
      let added ← p.graph.add { data := .constantInt value, operands := [] }
      let merged ← added.2.merge added.1 id
      some {
        graph := { merged.2 with worklist := merged.2.worklist ++ [merged.1] }
        constants := p.constants.insert merged.1
        merges := ⟨id, node, args, value⟩ :: p.merges }

def visit (p : EGraphConstantPropagator) (id : Nat) : Option EGraphConstantPropagator := do
  let root ← p.graph.find id
  if id ≠ root then some p
  else if id ∈ p.constants then some p
  else do
    let c ← p.graph.get id
    p.visitNodes id c.nodes

end EGraphConstantPropagator

namespace EGraph

open EGraphConstantPropagator

/-- `EGraph::constprop`. The classes are met in the order of the hash map. -/
def constprop (h : HashOrder) (g : EGraph) : Option EGraphConstantPropagator :=
  let classes := h.order g.trace.clock g.classes.pairs
  let constants := (classes.filter (·.2.isConstant)).map Prod.fst
  let queue := (classes.filter (!·.2.isConstant)).map Prod.fst
  queue.foldlM visit { graph := g.tick, constants := constants }

end EGraph

namespace Value

/-- The value of a node with literal operands, for opcodes with an operation in `Value`. -/
def ofNode : OperationData → List APInt → Option APInt
  | .binary op _, [a, b] => (binary op).map (fun f => f a b)
  | .unary .not _, [a] => some (bvnot a)
  | .unary .trunc t, [a] => if t.bitwidth < a.width then some (a.trunc t.bitwidth) else none
  | .unary .zext t, [a] => if a.width < t.bitwidth then some (a.zext t.bitwidth) else none
  | .unary .sext t, [a] => if a.width < t.bitwidth then some (a.sext t.bitwidth) else none
  | _, _ => none

end Value

variable {a b v : APInt} {op : BinaryOpcode} {args : List APInt} {id : Nat} {g : EGraph}

namespace Constprop

open APInt BitVecFacts

/-- Operands of one width, and no signed division of the least number by -1. -/
def WellDefined : OperationData → List APInt → Prop
  | .binary .sdiv _, [a, b] =>
    a.width = b.width ∧ ¬ (a.isMinSignedValue = true ∧ b.isAllOnesValue = true)
  | .binary _ _, [a, b] => a.width = b.width
  | _, _ => True

/-- When the literal is the value of the node: a division by `b` needs a dividend in `[b * b, b * b
+ |b|)`; a remainder never is. -/
def FoldsRight : OperationData → List APInt → Prop
  | .binary .udiv _, [a, b] =>
    b.val.toNat * b.val.toNat ≤ a.val.toNat ∧
      a.val.toNat < b.val.toNat * b.val.toNat + b.val.toNat
  | .binary .sdiv _, [a, b] =>
    b.val.toInt * b.val.toInt ≤ a.val.toInt ∧
      a.val.toInt < b.val.toInt * b.val.toInt + b.val.toInt.natAbs
  | .binary .urem _, _ => False
  | .binary .srem _, _ => False
  | _, _ => True

theorem guarded_fold {f : APInt → APInt → APInt}
    (h : (if b.eqNat 0 then checked f a b else some b) = some v) : v = b ∧ b.val ≠ 0 := by
  split_ifs at h with hb
  · have hzero : b.isNullValue = true := by
      simp only [eqNat, beq_iff_eq] at hb
      exact beq_iff_eq.mpr (BitVec.eq_of_toNat_eq (by simpa using hb))
    simp [checked, hzero] at h
  · refine ⟨(some.inj h).symm, fun hz => hb ?_⟩
    simp [eqNat, hz]

theorem int_mk_inj {w : Nat} {x y : BitVec w} : Val.int ⟨w, x⟩ = Val.int ⟨w, y⟩ ↔ x = y := by
  rw [Val.int.injEq, APInt.mk.injEq]
  simp

theorem foldBinary_eq_iff {t : Ty} (h : foldBinary op a b = some v)
    (hdef : WellDefined (.binary op t) [a, b]) :
    Semantics.binary op a b = .int v ↔ FoldsRight (.binary op t) [a, b] := by
  obtain ⟨w, x⟩ := a
  obtain ⟨w', y⟩ := b
  cases op with
  | udiv =>
    obtain rfl : w = w' := hdef
    obtain ⟨rfl, hy⟩ := guarded_fold h
    simp only [Semantics.binary, bitvec, resize_width, int_mk_inj, smtUDiv_of_ne_zero hy]
    exact udiv_eq_right_iff hy
  | sdiv =>
    obtain ⟨rfl, hover⟩ : w = w' ∧ _ := hdef
    obtain ⟨rfl, hy⟩ := guarded_fold h
    have hover' : x ≠ BitVec.intMin w ∨ y ≠ -1#w := by
      rw [BitVec.neg_one_eq_allOnes, ← not_and_or]
      exact fun hxy => hover ⟨beq_iff_eq.mpr hxy.1, beq_iff_eq.mpr hxy.2⟩
    simp only [Semantics.binary, bitvec, resize_width, int_mk_inj, smtSDiv_of_ne_zero hy]
    exact sdiv_eq_right_iff hy hover'
  | urem =>
    obtain rfl : w = w' := hdef
    obtain ⟨rfl, hy⟩ := guarded_fold h
    simp only [Semantics.binary, bitvec, resize_width, int_mk_inj]
    exact iff_of_false (umod_ne_right hy) id
  | srem =>
    obtain rfl : w = w' := hdef
    obtain ⟨rfl, hy⟩ := guarded_fold h
    simp only [Semantics.binary, bitvec, resize_width, int_mk_inj]
    exact iff_of_false (srem_ne_right hy) id
  | add | sub | mul | and | or | xor | shl | lshr | ashr =>
    cases h
    exact iff_of_true rfl trivial
  | fadd | fsub | fmul | fdiv | frem => cases h

theorem foldArgs_eq_iff {σ : Assignment} {d : OperationData} (h : foldArgs d args = some v)
    (hdef : WellDefined d args) :
    apply σ d (args.map .int) = .int v ↔ FoldsRight d args := by
  unfold foldArgs at h
  split at h
  · exact foldBinary_eq_iff h hdef
  · rename_i cmp a b
    cases h
    refine iff_of_true ?_ trivial
    rw [Semantics.constantIntCompare_eq]
    rfl
  · rename_i op t a
    cases op <;> cases h <;> exact iff_of_true rfl trivial
  · cases h

theorem value_eq_binary {t : Ty} {f : APInt → APInt → APInt} (h : foldBinary op a b = some v)
    (hf : Value.binary op = some f) (hdef : WellDefined (.binary op t) [a, b]) :
    Semantics.binary op a b = .int (f a b) := by
  obtain ⟨w, x⟩ := a
  obtain ⟨w', y⟩ := b
  obtain rfl : w = w' := by
    cases op with
    | sdiv => exact hdef.1
    | _ => exact hdef
  refine Semantics.binary_eq_value hf ?_
  rintro rfl
  obtain ⟨-, hy⟩ := guarded_fold h
  exact ⟨hy, fun hxy => hdef.2 ⟨beq_iff_eq.mpr hxy.1, beq_iff_eq.mpr hxy.2⟩⟩

theorem ofNode_eq_iff {d : OperationData} {u : APInt} (h : foldArgs d args = some v)
    (hu : Value.ofNode d args = some u) (hdef : WellDefined d args) :
    u = v ↔ FoldsRight d args := by
  unfold Value.ofNode at hu
  split at hu
  · rename_i op t a b
    obtain ⟨f, hf, rfl⟩ := map_eq_some_iff.mp hu
    rw [← foldBinary_eq_iff h hdef, value_eq_binary h hf hdef, Val.int.injEq]
  · cases hu
    cases h
    exact iff_of_true rfl trivial
  iterate 3
    split_ifs at hu
    cases hu
    cases h
    exact iff_of_true rfl trivial
  · cases hu

end Constprop

namespace EGraphConstantPropagator

open EGraph Constprop

variable {p p' : EGraphConstantPropagator} {σ : Assignment} {V : Nat → Val}

theorem tryFold_cases {node : ENode} {value : APInt}
    (h : p.tryFold node = some (some (args, value))) :
    node.operands.mapM (literal p.graph) = some args ∧ foldArgs node.data args = some value := by
  unfold tryFold at h
  split_ifs at h with hh
  · simp only [bind_eq_bind, bind_eq_some_iff] at h
    obtain ⟨b, -, h⟩ := h
    split_ifs at h
    · simp only [bind_eq_some_iff, some.injEq, Prod.mk.injEq] at h
      obtain ⟨args', hargs, value', hval, rfl, rfl⟩ := h
      exact ⟨hargs, hval⟩
    · cases h
  · cases h

/-- A visit changes nothing or merges the class with the literal of one of its nodes. -/
structure Folded (p : EGraphConstantPropagator) (m : ConstpropMerge) (nodes : List ENode)
    (p' : EGraphConstantPropagator) : Prop where
  node : m.node ∈ nodes
  args : m.node.operands.mapM (literal p.graph) = some m.args
  value : foldArgs m.node.data m.args = some m.value
  merges : p'.merges = m :: p.merges
  graph : ∃ k g1 r g2, p.graph.add ⟨.constantInt m.value, []⟩ = some (k, g1) ∧
    g1.merge k m.id = some (r, g2) ∧ p'.constants = p.constants.insert r ∧
    p'.graph = { g2 with worklist := g2.worklist ++ [r] }

theorem visitNodes_cases {nodes : List ENode} (h : p.visitNodes id nodes = some p') :
    p' = p ∨ ∃ m, m.id = id ∧ Folded p m nodes p' := by
  induction nodes with
  | nil =>
    cases h
    exact .inl rfl
  | cons node nodes ih =>
    simp only [visitNodes, bind_eq_bind, bind_eq_some_iff] at h
    obtain ⟨fold, hfold, h⟩ := h
    cases fold with
    | none =>
      rcases ih h with rfl | ⟨m, hm, hf⟩
      · exact .inl rfl
      · exact .inr ⟨m, hm, mem_cons_of_mem _ hf.node, hf.args, hf.value, hf.merges, hf.graph⟩
    | some r =>
      obtain ⟨args, value⟩ := r
      simp only [bind_eq_some_iff, some.injEq] at h
      obtain ⟨added, hadd, merged, hmrg, rfl⟩ := h
      obtain ⟨hargs, hval⟩ := tryFold_cases hfold
      exact .inr ⟨⟨id, node, args, value⟩, rfl, mem_cons_self, hargs, hval, rfl,
        added.1, added.2, merged.1, merged.2, hadd, hmrg, rfl, rfl⟩

theorem visit_cases (h : p.visit id = some p') :
    p' = p ∨ (p.graph.root id = id ∧ id ∉ p.constants) ∧ ∃ c m,
      p.graph.classes.lookup id = some c ∧ m.id = id ∧ Folded p m c.nodes p' := by
  simp only [visit, bind_eq_bind, bind_eq_some_iff, find_eq_some] at h
  obtain ⟨root, ⟨-, rfl⟩, h⟩ := h
  split_ifs at h with hne hmem
  · cases h
    exact .inl rfl
  · cases h
    exact .inl rfl
  · have hroot : p.graph.root id = id := (not_not.mp hne).symm
    simp only [bind_eq_some_iff, get_eq_some] at h
    obtain ⟨c, ⟨-, hc⟩, h⟩ := h
    rw [hroot] at hc
    rcases visitNodes_cases h with rfl | ⟨m, hm, hf⟩
    · exact .inl rfl
    · exact .inr ⟨⟨hroot, hmem⟩, c, m, hc, hm, hf⟩

theorem visit_extends (h : p.visit id = some p') :
    Extends p.graph p'.graph ∧ p.merges ⊆ p'.merges := by
  rcases visit_cases h with rfl | ⟨-, c, m, -, -, hf⟩
  · exact ⟨Extends.refl _, fun _ h => h⟩
  · obtain ⟨k, g1, r, g2, hadd, hmrg, -, hg⟩ := hf.graph
    rw [hg, hf.merges]
    exact ⟨(Extends.add hadd).trans ((Extends.merge hmrg).trans (Extends.of_eq rfl rfl rfl)),
      subset_cons_self _ _⟩

theorem literal_sound (hs : Sound (apply σ) V g) {o : Nat} (h : literal g o = some v) :
    V o = .int v := by
  simp only [literal, bind_eq_some, get_eq_some] at h
  obtain ⟨c, ⟨-, hc⟩, node, hnode, h⟩ := h
  split at h
  · rename_i hdata
    cases h
    have hval := (hs.classes _ c hc).nodes node (mem_of_getElem? hnode)
    rw [hs.root] at hval
    rw [← hval, nodeValue, hdata]
    rfl
  · cases h

theorem mapM_literal_sound (hs : Sound (apply σ) V g) {ops : List Nat}
    (h : ops.mapM (literal g) = some args) : ops.map V = args.map .int := by
  induction ops generalizing args with
  | nil =>
    cases h
    rfl
  | cons o ops ih =>
    simp only [mapM_cons, bind_eq_some, Option.pure_def, some.injEq] at h
    obtain ⟨v, hv, vs, hvs, rfl⟩ := h
    rw [map_cons, map_cons, literal_sound hs hv, ih hvs]

theorem Folded.right_iff (hs : Sound (apply σ) V p.graph) {c : EClass}
    {m : ConstpropMerge} (hc : p.graph.classes.lookup m.id = some c) (hf : Folded p m c.nodes p')
    (hdef : WellDefined m.node.data m.args) :
    V m.id = .int m.value ↔ FoldsRight m.node.data m.args := by
  rw [← (hs.classes _ c hc).nodes _ hf.node, nodeValue, mapM_literal_sound hs hf.args]
  exact foldArgs_eq_iff hf.value hdef

theorem Folded.sound (hs : Sound (apply σ) V p.graph) {nodes : List ENode}
    {m : ConstpropMerge} (hf : Folded p m nodes p')
    (hv : IsValuation (apply σ) V p'.graph) (hright : V m.id = .int m.value) :
    Sound (apply σ) V p'.graph := by
  obtain ⟨k, g1, r, g2, hadd, hmrg, -, hg⟩ := hf.graph
  have hv1 : IsValuation (apply σ) V g1 := by
    rw [hg] at hv
    exact IsValuation.of_extends hv ((Extends.merge hmrg).trans (Extends.of_eq rfl rfl rfl))
  obtain ⟨hs1, hk⟩ := hs.add_of_isValuation hadd hv1
  have hkid : V k = V m.id := hk.symm.trans hright.symm
  rw [hg]
  exact (hs1.merge hkid hmrg).1.of_eq rfl rfl rfl rfl

end EGraphConstantPropagator

namespace EGraph

open EGraphConstantPropagator Constprop

theorem constprop_extends {h : HashOrder} {p : EGraphConstantPropagator}
    (hrun : g.constprop h = some p) : Extends g p.graph := by
  have htick : Extends g g.tick := Extends.of_eq rfl rfl rfl
  exact foldlM_invariant (fun p => Extends g p.graph)
    (fun _ _ _ _ hvis hext => hext.trans (visit_extends hvis).1) hrun htick

/-- The folded literal is that of the model evaluator exactly if the node folds right, and so for
all merges of a run. -/
theorem constprop_right_iff (h : HashOrder) (σ : Assignment) (V : Nat → Val) (g : EGraph)
    (hs : Sound (apply σ) V g) (p : EGraphConstantPropagator) (hrun : g.constprop h = some p)
    (hv : IsValuation (apply σ) V p.graph) (hdef : ∀ m ∈ p.merges, WellDefined m.node.data m.args) :
    (∀ d args v u, foldArgs d args = some v → Value.ofNode d args = some u →
      WellDefined d args → (u = v ↔ FoldsRight d args)) ∧
    ((∀ m ∈ p.merges, V m.id = .int m.value) ↔ ∀ m ∈ p.merges, FoldsRight m.node.data m.args) := by
  refine ⟨fun d args v u h1 h2 h3 => ofNode_eq_iff h1 h2 h3, ?_⟩
  have hinv : IsValuation (apply σ) V p.graph →
      (∀ m ∈ p.merges, WellDefined m.node.data m.args) →
      ((∀ m ∈ p.merges, V m.id = .int m.value) ↔ ∀ m ∈ p.merges, FoldsRight m.node.data m.args) ∧
      ((∀ m ∈ p.merges, V m.id = .int m.value) → Sound (apply σ) V p.graph) := by
    refine foldlM_invariant (fun p => IsValuation (apply σ) V p.graph →
      (∀ m ∈ p.merges, WellDefined m.node.data m.args) →
      ((∀ m ∈ p.merges, V m.id = .int m.value) ↔ ∀ m ∈ p.merges, FoldsRight m.node.data m.args) ∧
      ((∀ m ∈ p.merges, V m.id = .int m.value) → Sound (apply σ) V p.graph))
      ?_ hrun (fun _ _ => ⟨by simp, fun _ => hs.of_eq rfl rfl rfl rfl⟩)
    intro q id q' _ hvis ih hv' hdef'
    obtain ⟨hext, hsub⟩ := visit_extends hvis
    obtain ⟨hiff, hsnd⟩ := ih (hv'.of_extends hext) (fun m hm => hdef' m (hsub hm))
    rcases visit_cases hvis with rfl | ⟨-, c, m, hc, rfl, hf⟩
    · exact ⟨hiff, hsnd⟩
    · have hm : m ∈ q'.merges := hf.merges ▸ mem_cons_self
      by_cases hall : ∀ n ∈ q.merges, V n.id = .int n.value
      · have hright := hf.right_iff (hsnd hall) hc (hdef' m hm)
        rw [hf.merges]
        simp only [forall_mem_cons]
        refine ⟨and_congr hright hiff, fun hboth => hf.sound (hsnd hall) hv' hboth.1⟩
      · have hff : ¬ ∀ n ∈ q'.merges, V n.id = .int n.value :=
          fun h => hall (fun n hn => h n (hsub hn))
        refine ⟨iff_of_false hff ?_, fun h => absurd h hff⟩
        exact fun h => hall (hiff.mpr (fun n hn => h n (hsub hn)))
  exact (hinv hv hdef).1

/-- Constant propagation on the rebuilt graph of one operation on the literals 6 and 2. -/
def constpropLiterals (op : BinaryOpcode) : Option (EGraphSession × EGraphConstantPropagator) := do
  let s ← EGraphSession.run .insertion (fun d ops => some (.mk d ops)) {}
    [.add (.mk (.binary op (.int 8)) [.constantInt ⟨8, 6⟩, .constantInt ⟨8, 2⟩]), .rebuild 9]
  let p ← s.graph.constprop .insertion
  some (s, p)

theorem constpropLiterals_sound {s : EGraphSession} {p : EGraphConstantPropagator} {σ : Assignment}
    {V : Nat → Val} (hrun : constpropLiterals op = some (s, p)) (hmerges : s.merges = [])
    (href : ∀ i, σ.node i = V i) (hv : IsValuation (apply σ) V p.graph) :
    s.graph.constprop .insertion = some p ∧ Sound (apply σ) V s.graph := by
  simp only [constpropLiterals, bind_eq_some, some.injEq, Prod.mk.injEq] at hrun
  obtain ⟨t, ht, q, hq, rfl, rfl⟩ := hrun
  have hv' := hv.of_extends (constprop_extends hq)
  refine ⟨hq, (EGraphSession.run_sessionSound ?_ (fun _ i _ => href i) ht hv' ?_).graph⟩
  · intro d ops o ho
    cases ho
    exact Operation.fold_mk _ d ops
  · intro m hm
    rw [hmerges] at hm
    cases hm

/-- The sum of two literals is folded to its value. -/
theorem constprop_right_add :
    let V : Nat → Val := fun i => .int ⟨8, if i = 0 then 6 else if i = 1 then 2 else 8⟩
    ∃ s p, constpropLiterals .add = some (s, p) ∧
      p.merges = [⟨2, ⟨.binary .add (.int 8), [0, 1]⟩, [⟨8, 6⟩, ⟨8, 2⟩], ⟨8, 8⟩⟩] ∧
      ∀ m ∈ p.merges, V m.id = .int m.value := by
  intro V
  obtain ⟨⟨s, p⟩, hrun⟩ := isSome_iff_exists.mp
    (show (constpropLiterals .add).isSome = true by decide +kernel)
  have hmerges : p.merges = [⟨2, ⟨.binary .add (.int 8), [0, 1]⟩, [⟨8, 6⟩, ⟨8, 2⟩], ⟨8, 8⟩⟩] :=
    map_result_eq (fun r => r.2.merges) hrun (by decide +kernel)
  have hadds : p.graph.trace.adds = [⟨⟨.constantInt ⟨8, 8⟩, []⟩, 3, true⟩,
      ⟨⟨.binary .add (.int 8), [0, 1]⟩, 2, true⟩, ⟨⟨.constantInt ⟨8, 2⟩, []⟩, 1, true⟩,
      ⟨⟨.constantInt ⟨8, 6⟩, []⟩, 0, true⟩] :=
    map_result_eq (fun r => r.2.graph.trace.adds) hrun (by decide +kernel)
  have hnone : s.merges = [] := map_result_eq (fun r => r.1.merges) hrun (by decide +kernel)
  let σ : Assignment := { int := fun _ _ => 0, array := fun _ _ _ => 0, node := V }
  have hv : IsValuation (apply σ) V p.graph := by
    intro r hr _
    rw [hadds] at hr
    simp only [mem_cons, not_mem_nil, or_false] at hr
    rcases hr with rfl | rfl | rfl | rfl <;> rfl
  obtain ⟨hfold, hs⟩ := constpropLiterals_sound hrun hnone (fun _ => rfl) hv
  refine ⟨s, p, hrun, hmerges, (constprop_right_iff _ σ V _ hs p hfold hv ?_).2.mpr ?_⟩
  · simp only [hmerges, forall_mem_singleton]
    rfl
  · simp only [hmerges, forall_mem_singleton]
    trivial

/-- The quotient of 6 by 2 is folded to 2, although the class and `Value::bvudiv` have the value
3. -/
theorem constprop_udiv_wrong :
    let V : Nat → Val := fun i => .int ⟨8, if i = 0 then 6 else if i = 1 then 2 else 3⟩
    let σ : Assignment := { int := fun _ _ => 0, array := fun _ _ _ => 0, node := V }
    ∃ s p, constpropLiterals .udiv = some (s, p) ∧ Sound (apply σ) V s.graph ∧
      p.merges = [⟨2, ⟨.binary .udiv (.int 8), [0, 1]⟩, [⟨8, 6⟩, ⟨8, 2⟩], ⟨8, 2⟩⟩] ∧
      Value.ofNode (.binary .udiv (.int 8)) [⟨8, 6⟩, ⟨8, 2⟩] = some ⟨8, 3⟩ ∧
      V 2 = .int ⟨8, 3⟩ ∧ p.graph.find 2 = p.graph.find 1 := by
  intro V σ
  obtain ⟨⟨s, p⟩, hrun⟩ := isSome_iff_exists.mp
    (show (constpropLiterals .udiv).isSome = true by decide +kernel)
  have hmerges : p.merges = [⟨2, ⟨.binary .udiv (.int 8), [0, 1]⟩, [⟨8, 6⟩, ⟨8, 2⟩], ⟨8, 2⟩⟩] :=
    map_result_eq (fun r => r.2.merges) hrun (by decide +kernel)
  have hadds : p.graph.trace.adds = [⟨⟨.constantInt ⟨8, 2⟩, []⟩, 1, false⟩,
      ⟨⟨.binary .udiv (.int 8), [0, 1]⟩, 2, true⟩, ⟨⟨.constantInt ⟨8, 2⟩, []⟩, 1, true⟩,
      ⟨⟨.constantInt ⟨8, 6⟩, []⟩, 0, true⟩] :=
    map_result_eq (fun r => r.2.graph.trace.adds) hrun (by decide +kernel)
  have hnone : s.merges = [] := map_result_eq (fun r => r.1.merges) hrun (by decide +kernel)
  have hfind : decide (p.graph.find 2 = p.graph.find 1) = true :=
    map_result_eq (fun r => decide (r.2.graph.find 2 = r.2.graph.find 1)) hrun (by decide +kernel)
  have hv : IsValuation (apply σ) V p.graph := by
    intro r hr hfr
    rw [hadds] at hr
    simp only [mem_cons, not_mem_nil, or_false] at hr
    rcases hr with rfl | rfl | rfl | rfl
    · cases hfr
    all_goals rfl
  exact ⟨s, p, hrun, (constpropLiterals_sound hrun hnone (fun _ => rfl) hv).2, hmerges, rfl, rfl,
    of_decide_eq_true hfind⟩

end EGraph

end Caffeine
