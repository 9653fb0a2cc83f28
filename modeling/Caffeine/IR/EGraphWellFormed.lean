import Caffeine.IR.EGraphRepair

/-!
# The shape of reachable e-graphs

Classes are stored at the representatives, all ids are in bounds, `constant_index` points to a
literal if the class has one, and the parents of a class use it as an operand. Every operation keeps
this, whatever is merged.
-/

namespace Caffeine

open List Option

def EClass.uncached (c : EClass) : EClass := { c with cache := {} }

variable {r : Nat} {ps : Map ENode Nat} {s s' : EGraph × List Nat}

namespace EGraph

def ConstantAt (g : EGraph) (i : Nat) : Prop :=
  ∃ c, g.classes.lookup (g.root i) = some c ∧ c.isConstant = true

def typeAt (g : EGraph) (i : Nat) : Option Ty := (g.classes.lookup (g.root i)).bind EClass.type?

structure EntryOk (g : EGraph) (n : ENode) (i : Nat) : Prop where
  operands : ∀ o ∈ n.operands, o < g.size
  lt : i < g.size
  constant : n.isConstant = true → g.ConstantAt i
  type : g.typeAt i = some n.type

def ParentOk (g : EGraph) (k : Nat) (n : ENode) (i : Nat) : Prop :=
  g.EntryOk n i ∧ ∃ o ∈ n.operands, g.root o = k

structure ClassOk (g : EGraph) (k : Nat) (c : EClass) : Prop where
  nonempty : c.nodes ≠ []
  types : ∀ n ∈ c.nodes, c.type? = some n.type
  operands : ∀ n ∈ c.nodes, ∀ o ∈ n.operands, o < g.size
  constantIndex : ∀ i, c.constantIndex = some i → ∃ n, c.nodes[i]? = some n ∧ n.isConstant = true
  constant : c.constantIndex = none → ∀ n ∈ c.nodes, n.isConstant = false
  parents : ∀ n i, c.parents.lookup n = some i → g.ParentOk k n i

structure WellFormed (g : EGraph) : Prop where
  live : ∀ k, k ∈ g.classes ↔ k < g.size ∧ g.root k = k
  classes : ∀ k c, g.classes.lookup k = some c → g.ClassOk k c
  hashcons : ∀ n i, g.hashcons.lookup n = some i → g.EntryOk n i
  worklist : ∀ i ∈ g.worklist, i < g.size
  updated : ∀ i ∈ g.updated, i < g.size

structure Grown (g g' : EGraph) : Prop where
  size : g.size ≤ g'.size
  root : ∀ i j, g.root i = g.root j → g'.root i = g'.root j
  constant : ∀ i < g.size, g.ConstantAt i → g'.ConstantAt i
  type : ∀ i < g.size, g'.typeAt i = g.typeAt i

section Basic

variable {g g' g'' : EGraph} {n : ENode} {i k : Nat} {c : EClass}

theorem Grown.refl (g : EGraph) : Grown g g :=
  ⟨le_rfl, fun _ _ h => h, fun _ _ h => h, fun _ _ => rfl⟩

theorem Grown.of_eq (hu : g'.unionFind = g.unionFind) (hc : g'.classes = g.classes) :
    Grown g g' := by
  have hroot : ∀ i, g'.root i = g.root i := fun i => by rw [EGraph.root, hu, EGraph.root]
  have hsize : g.size = g'.size := by rw [EGraph.size, EGraph.size, hu]
  refine ⟨hsize.le, fun i j h => by rw [hroot, hroot, h], fun i _ h => ?_, fun i _ => ?_⟩
  · obtain ⟨c, hlook, hconst⟩ := h
    exact ⟨c, by rw [hc, hroot, hlook], hconst⟩
  · rw [typeAt, typeAt, hc, hroot]

theorem Grown.trans (h : Grown g g') (h' : Grown g' g'') : Grown g g'' where
  size := h.size.trans h'.size
  root i j hij := h'.root i j (h.root i j hij)
  constant i hi hc := h'.constant i (lt_of_lt_of_le hi h.size) (h.constant i hi hc)
  type i hi := (h'.type i (lt_of_lt_of_le hi h.size)).trans (h.type i hi)

theorem EntryOk.grown (he : g.EntryOk n i) (h : Grown g g') : g'.EntryOk n i where
  operands o ho := lt_of_lt_of_le (he.operands o ho) h.size
  lt := lt_of_lt_of_le he.lt h.size
  constant hn := h.constant i he.lt (he.constant hn)
  type := (h.type i he.lt).trans he.type

theorem ParentOk.grown (hp : g.ParentOk k n i) (h : Grown g g') (hk : g.root k = k)
    (hk' : g'.root k = k) : g'.ParentOk k n i := by
  obtain ⟨he, o, ho, hroot⟩ := hp
  exact ⟨he.grown h, o, ho, (h.root o k (hroot.trans hk.symm)).trans hk'⟩

theorem ClassOk.grown (hc : g.ClassOk k c) (h : Grown g g') (hk : g.root k = k)
    (hk' : g'.root k = k) : g'.ClassOk k c where
  nonempty := hc.nonempty
  types := hc.types
  operands n hn o ho := lt_of_lt_of_le (hc.operands n hn o ho) h.size
  constantIndex := hc.constantIndex
  constant := hc.constant
  parents n i hn := (hc.parents n i hn).grown h hk hk'

theorem WellFormed.root_eq (hg : g.WellFormed) (hc : g.classes.lookup k = some c) :
    g.root k = k := ((hg.live k).mp (Map.mem_of_lookup hc)).2

theorem WellFormed.lt (hg : g.WellFormed) (hc : g.classes.lookup k = some c) : k < g.size :=
  ((hg.live k).mp (Map.mem_of_lookup hc)).1

theorem WellFormed.exists_class (hg : g.WellFormed) (hi : i < g.size) :
    ∃ c, g.classes.lookup (g.root i) = some c := by
  have hmem : g.root i ∈ g.classes := (hg.live _).mpr ⟨g.root_lt hi, g.root_root i⟩
  exact Map.exists_lookup hmem

theorem WellFormed.exists_get (hg : g.WellFormed) (hi : i < g.size) : ∃ c, g.get i = some c := by
  obtain ⟨c, hc⟩ := hg.exists_class hi
  exact ⟨c, get_eq_some.mpr ⟨hi, hc⟩⟩

theorem wellFormed_empty : WellFormed {} where
  live k := by
    constructor
    · exact fun hk => absurd hk (AList.notMem_empty k)
    · exact fun hk => absurd hk.1 (Nat.not_lt_zero k)
  classes k c hc := by cases hc
  hashcons n i hn := by cases hn
  worklist i hi := absurd hi not_mem_nil
  updated i hi := absurd hi not_mem_nil

theorem WellFormed.of_eq (hg : g.WellFormed) (hu : g'.unionFind = g.unionFind)
    (hc : g'.classes = g.classes) (hh : g'.hashcons = g.hashcons)
    (hw : ∀ i ∈ g'.worklist, i < g.size) (hup : ∀ i ∈ g'.updated, i < g.size) : g'.WellFormed := by
  obtain ⟨u, hcons, cs, up, w, t⟩ := g
  obtain ⟨u', hcons', cs', up', w', t'⟩ := g'
  obtain rfl : u' = u := hu
  obtain rfl : cs' = cs := hc
  obtain rfl : hcons' = hcons := hh
  have hgrown : Grown ⟨u', hcons', cs', up, w, t⟩ ⟨u', hcons', cs', up', w', t'⟩ :=
    Grown.of_eq rfl rfl
  refine ⟨hg.live, fun k c hk => ?_, fun n i hn => (hg.hashcons n i hn).grown hgrown, hw, hup⟩
  exact (hg.classes k c hk).grown hgrown (hg.root_eq hk) (hg.root_eq hk)

theorem WellFormed.tick (hg : g.WellFormed) : g.tick.WellFormed :=
  hg.of_eq rfl rfl rfl hg.worklist hg.updated

theorem grown_setClass {id : Nat} {c' : EClass} (hc : g.classes.lookup id = some c)
    (hconst : c.isConstant = true → c'.isConstant = true) (htype : c'.type? = c.type?) :
    Grown g (g.setClass id c') where
  size := le_rfl
  root _ _ h := h
  constant i _ := by
    rintro ⟨d, hd, hdc⟩
    have hlook := lookup_setClass g id c' (g.root i)
    by_cases hi : g.root i = id
    · rw [hi, hc] at hd
      cases hd
      rw [if_pos hi] at hlook
      exact ⟨c', hlook, hconst hdc⟩
    · rw [if_neg hi] at hlook
      exact ⟨d, hlook.trans hd, hdc⟩
  type i _ := by
    have hlook := lookup_setClass g id c' (g.root i)
    change ((g.setClass id c').classes.lookup (g.root i)).bind EClass.type? = _
    rw [hlook, typeAt]
    split_ifs with hi
    · rw [hi, hc, bind_some, bind_some, htype]
    · rfl

theorem WellFormed.setClass (hg : g.WellFormed) {id : Nat} {c' : EClass}
    (hc : g.classes.lookup id = some c) (hok : g.ClassOk id c')
    (hconst : c.isConstant = true → c'.isConstant = true) (htype : c'.type? = c.type?) :
    (g.setClass id c').WellFormed := by
  have hgrown : Grown g (g.setClass id c') := grown_setClass hc hconst htype
  refine ⟨?_, ?_, fun n i hn => (hg.hashcons n i hn).grown hgrown, hg.worklist, hg.updated⟩
  · intro k
    have hmem : k ∈ (g.setClass id c').classes ↔ k ∈ g.classes := by
      rw [← AList.lookup_isSome, ← AList.lookup_isSome, lookup_setClass]
      split_ifs with hk
      · rw [hk, hc]
        rfl
      · rfl
    exact hmem.trans (hg.live k)
  · intro k d hd
    rw [lookup_setClass] at hd
    split_ifs at hd with hk
    · cases hd
      exact hk ▸ hok.grown hgrown (hg.root_eq hc) (hg.root_eq hc)
    · exact (hg.classes k d hd).grown hgrown (hg.root_eq hd) (hg.root_eq hd)

end Basic

/-! ### Merging -/

section Merge

variable {g g' : EGraph} {i j k : Nat} {c d e : EClass}

theorem merge_nodes (h : c.merge d = some e) : e.nodes = c.nodes ++ d.nodes ∧
    e.constantIndex = (c.constantIndex <|> d.constantIndex.map (c.nodes.length + ·)) := by
  unfold EClass.merge at h
  split_ifs at h
  cases h
  exact ⟨rfl, rfl⟩

theorem merge_type (h : c.merge d = some e) : e.type? = c.type? ∧ e.type? = d.type? := by
  have hnodes := (merge_nodes h).1
  unfold EClass.merge at h
  split_ifs at h with hty
  have heq : e.type? = c.type? := by
    obtain ⟨t, ht⟩ := isSome_iff_exists.mp hty.1
    obtain ⟨n, hn, rfl⟩ := map_eq_some_iff.mp ht
    rw [EClass.type?, EClass.type?, hnodes, List.head?_append, hn]
    rfl
  exact ⟨heq, heq.trans hty.2⟩

theorem merge_isConstant (h : c.merge d = some e) :
    e.isConstant = true ↔ c.isConstant = true ∨ d.isConstant = true := by
  obtain ⟨-, hidx⟩ := merge_nodes h
  rw [EClass.isConstant, EClass.isConstant, EClass.isConstant, hidx]
  cases c.constantIndex <;> cases d.constantIndex <;> simp

theorem Merged.grown (hm : Merged g i j g') : Grown g g' where
  size := hm.size.ge
  root k l hkl := by rw [hm.root, hm.root, hkl]
  constant k _ := by
    rintro ⟨d, hd, hdc⟩
    obtain ⟨c1, c2, c, h1, h2, hc, hlook⟩ := hm.classes
    have hroot := hm.root k
    by_cases hkj : g.root k = g.root j
    · rw [if_pos hkj] at hroot
      rw [hkj, h2] at hd
      cases hd
      refine ⟨c, ?_, (merge_isConstant hc).mpr (.inr hdc)⟩
      rw [hroot, hlook, if_neg hm.ne, if_pos rfl]
    · rw [if_neg hkj] at hroot
      by_cases hki : g.root k = g.root i
      · rw [hki, h1] at hd
        cases hd
        refine ⟨c, ?_, (merge_isConstant hc).mpr (.inl hdc)⟩
        rw [hroot, hlook, if_neg hkj, if_pos hki]
      · refine ⟨d, ?_, hdc⟩
        rw [hroot, hlook, if_neg hkj, if_neg hki, hd]
  type k _ := by
    obtain ⟨c1, c2, c, h1, h2, hc, hlook⟩ := hm.classes
    obtain ⟨hty1, hty2⟩ := merge_type hc
    rw [typeAt, typeAt, hm.root]
    by_cases hkj : g.root k = g.root j
    · rw [if_pos hkj, hlook, if_neg hm.ne, if_pos rfl, hkj, h2, bind_some, bind_some, hty2]
    · rw [if_neg hkj, hlook, if_neg hkj]
      split_ifs with hki
      · rw [hki, h1, bind_some, bind_some, hty1]
      · rfl

theorem ClassOk.merge (hm : c.merge d = some e) (hc : g.ClassOk k c) (hd : g.ClassOk k d) :
    g.ClassOk k e := by
  obtain ⟨hnodes, hidx⟩ := merge_nodes hm
  obtain ⟨hty1, hty2⟩ := merge_type hm
  refine ⟨?_, ?_, ?_, ?_, ?_, ?_⟩
  · rw [hnodes]
    exact append_ne_nil_of_left_ne_nil hc.nonempty _
  · intro n hn
    rw [hnodes] at hn
    rcases mem_append.mp hn with hn | hn
    · exact hty1.trans (hc.types n hn)
    · exact hty2.trans (hd.types n hn)
  · intro n hn
    rw [hnodes] at hn
    rcases mem_append.mp hn with hn | hn
    · exact hc.operands n hn
    · exact hd.operands n hn
  · intro l hl
    rw [hidx] at hl
    cases hci : c.constantIndex with
    | some m =>
      rw [hci] at hl
      cases hl
      obtain ⟨n, hn, hconst⟩ := hc.constantIndex _ hci
      refine ⟨n, ?_, hconst⟩
      rw [hnodes, List.getElem?_append_left (List.getElem?_eq_some_iff.mp hn).1, hn]
    | none =>
      rw [hci] at hl
      change d.constantIndex.map (c.nodes.length + ·) = some l at hl
      obtain ⟨m, hdi, rfl⟩ := map_eq_some_iff.mp hl
      obtain ⟨n, hn, hconst⟩ := hd.constantIndex m hdi
      refine ⟨n, ?_, hconst⟩
      rw [hnodes, List.getElem?_append_right (Nat.le_add_right _ _), Nat.add_sub_cancel_left, hn]
  · intro hnone n hn
    rw [hidx] at hnone
    rw [hnodes] at hn
    cases hci : c.constantIndex with
    | some m =>
      rw [hci] at hnone
      cases hnone
    | none =>
      rw [hci] at hnone
      rcases mem_append.mp hn with hn | hn
      · exact hc.constant hci n hn
      · exact hd.constant (map_eq_none_iff.mp hnone) n hn
  · intro n l hl
    rw [merge_parents hm] at hl
    rcases AList.lookup_union_eq_some.mp hl with hl | ⟨-, hl⟩
    · exact hc.parents n l hl
    · exact hd.parents n l hl

theorem ClassOk.merged (hm : Merged g i j g') (hc : g.ClassOk (g.root j) c) :
    g'.ClassOk (g.root i) c := by
  have hgrown := hm.grown
  refine ⟨hc.nonempty, hc.types, fun n hn o ho => lt_of_lt_of_le (hc.operands n hn o ho)
    hgrown.size, hc.constantIndex, hc.constant, fun n l hl => ?_⟩
  obtain ⟨he, o, ho, hroot⟩ := hc.parents n l hl
  exact ⟨he.grown hgrown, o, ho, by rw [hm.root, if_pos hroot]⟩

theorem Merged.root_left (hm : Merged g i j g') : g'.root (g.root i) = g.root i := by
  rw [hm.root, root_root, if_neg hm.ne]

theorem WellFormed.merged (hg : g.WellFormed) (hm : Merged g i j g') (hi : i < g.size) :
    g'.WellFormed := by
  have hgrown := hm.grown
  obtain ⟨c1, c2, c, h1, h2, hc, hlook⟩ := hm.classes
  have hri : g.root i < g.size := g.root_lt hi
  refine ⟨?_, ?_, ?_, ?_, ?_⟩
  · intro k
    rw [← AList.lookup_isSome, hlook, hm.size, hm.root]
    by_cases hkj : k = g.root j
    · subst hkj
      rw [if_pos rfl, root_root, if_pos rfl]
      exact iff_of_false Bool.false_ne_true fun hk => hm.ne hk.2
    · rw [if_neg hkj]
      by_cases hki : k = g.root i
      · subst hki
        rw [if_pos rfl, root_root, if_neg hm.ne]
        exact iff_of_true rfl ⟨hri, rfl⟩
      · rw [if_neg hki, AList.lookup_isSome, hg.live]
        refine and_congr_right fun hk => ?_
        split_ifs with hroot
        · refine iff_of_false (fun hself => hkj (hself.symm.trans hroot)) fun hself =>
            hki hself.symm
        · rfl
  · intro k d hd
    rw [hlook] at hd
    split_ifs at hd with hkj hki
    · cases hd
      subst hki
      exact ((hg.classes _ _ h1).grown hgrown (g.root_root i) hm.root_left).merge hc
        ((hg.classes _ _ h2).merged hm)
    · have hroot := hg.root_eq hd
      refine (hg.classes k d hd).grown hgrown hroot ?_
      rw [hm.root, if_neg (by rwa [hroot]), hroot]
  · rw [hm.hashcons]
    exact fun n l hl => (hg.hashcons n l hl).grown hgrown
  · rw [hm.worklist, hm.size]
    intro l hl
    rcases mem_append.mp hl with hl | hl
    · exact hg.worklist l hl
    · exact mem_singleton.mp hl ▸ hri
  · rw [hm.updated, hm.size]
    intro l hl
    rcases mem_insert_iff.mp hl with rfl | hl
    · exact hri
    · exact hg.updated l hl

theorem WellFormed.merge (hg : g.WellFormed) (h : g.merge i j = some (r, g')) :
    g'.WellFormed ∧ Grown g g' ∧ r < g'.size := by
  obtain ⟨hi, hj, rfl, ⟨-, rfl⟩ | hm⟩ := merge_cases h
  · exact ⟨hg, Grown.refl _, g'.root_lt hi⟩
  · exact ⟨hg.merged hm hi, hm.grown, hm.size ▸ g.root_lt hi⟩

end Merge

/-! ### Adding -/

section Add

variable {g g' : EGraph} {n : ENode} {i : Nat}

theorem classOk_ofNodes (hn : ∀ o ∈ n.operands, o < g.size) (k : Nat) :
    g.ClassOk k (EClass.ofNodes [n]) where
  nonempty := cons_ne_nil _ _
  types m hm := mem_singleton.mp hm ▸ rfl
  operands m hm := mem_singleton.mp hm ▸ hn
  constantIndex l hl := by
    simp only [EClass.ofNodes, List.findIdx?_singleton, ite_none_right_eq_some, some.injEq] at hl
    obtain ⟨hconst, rfl⟩ := hl
    exact ⟨n, rfl, hconst⟩
  constant hnone m hm := by
    simp only [EClass.ofNodes, List.findIdx?_singleton, ite_eq_right_iff, reduceCtorEq,
      imp_false, Bool.not_eq_true] at hnone
    exact mem_singleton.mp hm ▸ hnone
  parents m l hl := by cases hl

theorem Added.lookup_cases (ha : Added g n g') {k : Nat} {c' : EClass}
    (hc' : g'.classes.lookup k = some c') :
    ∃ c ps, c' = { c with parents := ps } ∧
      (k = g.size ∧ c = EClass.ofNodes [g.canon n] ∨ g.classes.lookup k = some c) ∧
      ps = if k ∈ (g.canon n).operands then c.parents.emplace (g.canon n) g.size
        else c.parents := by
  rw [ha.classes, map_eq_some_iff] at hc'
  obtain ⟨c, hc, rfl⟩ := hc'
  rw [Map.lookup_emplace] at hc
  refine ⟨c, _, ?_, ?_, rfl⟩
  · split_ifs <;> rfl
  · split_ifs at hc with hk
    · exact .inl ⟨hk.1, (some.inj hc).symm⟩
    · exact .inr hc

theorem WellFormed.notMem_size (hg : g.WellFormed) : g.size ∉ g.classes :=
  fun h => Nat.lt_irrefl _ ((hg.live _).mp h).1

theorem Added.grown (ha : Added g n g') : Grown g g' where
  size := by
    rw [ha.size]
    omega
  root k l hkl := by rw [ha.root, ha.root, hkl]
  constant k hk := by
    rintro ⟨c, hc, hconst⟩
    have hlook := ha.classes (g.root k)
    have hne : g.root k ≠ g.size := (g.root_lt hk).ne
    rw [Map.lookup_emplace, if_neg (fun hand => hne hand.1), hc, map_some] at hlook
    refine ⟨_, (ha.root k).symm ▸ hlook, ?_⟩
    split_ifs <;> exact hconst
  type k hk := by
    have hne : g.root k ≠ g.size := (g.root_lt hk).ne
    rw [typeAt, typeAt, ha.root, ha.classes, Map.lookup_emplace, if_neg (fun hand => hne hand.1)]
    cases g.classes.lookup (g.root k) with
    | none => rfl
    | some c =>
      rw [map_some, bind_some, bind_some]
      split_ifs <;> rfl

theorem Added.typeAt (ha : Added g n g') (hg : g.WellFormed) : g'.typeAt g.size = some n.type := by
  have hroot : g.root g.size = g.size := g.unionFind.find_of_size_le le_rfl
  rw [EGraph.typeAt, ha.root, hroot, ha.classes, Map.lookup_emplace, if_pos ⟨rfl, hg.notMem_size⟩,
    map_some, bind_some]
  split_ifs <;> rfl

theorem Added.constantAt (ha : Added g n g') (hg : g.WellFormed) (hn : n.isConstant = true) :
    g'.ConstantAt g.size := by
  have hroot : g.root g.size = g.size := g.unionFind.find_of_size_le le_rfl
  have hlook := ha.classes g.size
  rw [Map.lookup_emplace, if_pos ⟨rfl, hg.notMem_size⟩, map_some] at hlook
  have hconst : (EClass.ofNodes [g.canon n]).isConstant = true := by
    simp only [EClass.isConstant, EClass.ofNodes, List.findIdx?_singleton]
    rw [if_pos (show (g.canon n).isConstant = true from hn)]
    rfl
  rw [ConstantAt, ha.root, hroot]
  refine ⟨_, hlook, ?_⟩
  split_ifs <;> exact hconst

theorem WellFormed.added (hg : g.WellFormed) (ha : Added g n g')
    (hn : ∀ o ∈ n.operands, o < g.size) : g'.WellFormed := by
  have hgrown := ha.grown
  have hself : g.root g.size = g.size := g.unionFind.find_of_size_le le_rfl
  have hcan : ∀ o ∈ (g.canon n).operands, o < g.size ∧ g.root o = o := by
    intro o ho
    obtain ⟨o', ho', rfl⟩ := List.mem_map.mp ho
    exact ⟨g.root_lt (hn o' ho'), g.root_root o'⟩
  have hent : g'.EntryOk (g.canon n) g.size :=
    ⟨fun o ho => lt_of_lt_of_le (hcan o ho).1 hgrown.size, by rw [ha.size]; omega,
      ha.constantAt hg, ha.typeAt hg⟩
  refine ⟨?_, ?_, ?_, ?_, ?_⟩
  · intro k
    rw [← AList.lookup_isSome, ha.classes, isSome_map, Map.lookup_emplace, ha.size, ha.root]
    by_cases hk : k = g.size
    · subst hk
      rw [if_pos ⟨rfl, hg.notMem_size⟩]
      exact iff_of_true rfl ⟨Nat.lt_succ_self _, hself⟩
    · rw [if_neg (fun hand => hk hand.1), AList.lookup_isSome, hg.live]
      refine and_congr_left fun _ => ?_
      omega
  · intro k c' hc'
    obtain ⟨c, ps, rfl, hold, rfl⟩ := ha.lookup_cases hc'
    have hok : g'.ClassOk k c ∧ g'.root k = k := by
      rcases hold with ⟨rfl, rfl⟩ | hc
      · exact ⟨classOk_ofNodes (fun o ho => lt_of_lt_of_le (hcan o ho).1 hgrown.size) _,
          (ha.root _).trans hself⟩
      · have hroot := hg.root_eq hc
        exact ⟨(hg.classes k c hc).grown hgrown hroot ((ha.root k).trans hroot),
          (ha.root k).trans hroot⟩
    refine ⟨hok.1.nonempty, hok.1.types, hok.1.operands, hok.1.constantIndex, hok.1.constant, ?_⟩
    intro m l hl
    split_ifs at hl with hk
    · rw [Map.lookup_emplace] at hl
      split_ifs at hl with hm
      · obtain ⟨rfl, -⟩ := hm
        cases hl
        exact ⟨hent, k, hk, hok.2⟩
      · exact hok.1.parents m l hl
    · exact hok.1.parents m l hl
  · intro m l hl
    rw [ha.hashcons] at hl
    split_ifs at hl with hm
    · cases hl
      exact hm ▸ hent
    · exact (hg.hashcons m l hl).grown hgrown
  · rw [ha.worklist, ha.size]
    intro l hl
    rcases mem_append.mp hl with hl | hl
    · exact Nat.lt_succ_of_lt (hg.worklist l hl)
    · exact mem_singleton.mp hl ▸ Nat.lt_succ_self _
  · rw [ha.updated, ha.size]
    intro l hl
    rcases mem_insert_iff.mp hl with rfl | hl
    · exact Nat.lt_succ_self _
    · exact Nat.lt_succ_of_lt (hg.updated l hl)

theorem WellFormed.add (hg : g.WellFormed) (h : g.add n = some (i, g')) :
    g'.WellFormed ∧ Grown g g' ∧ i < g'.size ∧ (n.isConstant = true → g'.ConstantAt i) := by
  obtain ⟨hn, ⟨hlook, rfl⟩ | ⟨rfl, ha⟩⟩ := add_cases h
  · have he := hg.hashcons _ _ hlook
    exact ⟨hg.of_eq rfl rfl rfl hg.worklist hg.updated, Grown.of_eq rfl rfl, he.lt, he.constant⟩
  · refine ⟨hg.added ha hn, ha.grown, ?_, ha.constantAt hg⟩
    rw [ha.size]
    omega

theorem WellFormed.addOperation {o : Operation} (hg : g.WellFormed)
    (h : g.addOperation o = some (i, g')) : g'.WellFormed ∧ Grown g g' := by
  refine addOperation_stays (fun g' => g'.WellFormed ∧ Grown g g') ?_ ⟨hg, Grown.refl g⟩ h
  rintro g1 g2 n id ⟨hg1, hgrown1⟩ h
  obtain ⟨hg2, hgrown2, -, -⟩ := hg1.add h
  exact ⟨hg2, hgrown1.trans hgrown2⟩

end Add

/-! ### Rebuilding -/

section Rebuild

variable {g g' : EGraph} {k id fuel : Nat} {c : EClass} {h : HashOrder}

theorem ClassOk.withParents (hc : g.ClassOk k c)
    (hps : ∀ n i, ps.lookup n = some i → g.ParentOk k n i) : g.ClassOk k { c with parents := ps } :=
  ⟨hc.nonempty, hc.types, hc.operands, hc.constantIndex, hc.constant, hps⟩

theorem Pruned.grown (hp : Pruned g g') : Grown g g' where
  size := hp.size.ge
  root i j hij := by rw [hp.root, hp.root, hij]
  constant i _ := by
    rintro ⟨d, hd, hdc⟩
    have hmem : g.root i ∈ g'.classes := (hp.keys _).mpr (Map.mem_of_lookup hd)
    obtain ⟨d', hd'⟩ := Map.exists_lookup hmem
    obtain ⟨c, ps, hc, rfl, -, -⟩ := hp.classes _ d' hd'
    rw [hd] at hc
    cases hc
    rw [ConstantAt, hp.root]
    exact ⟨_, hd', hdc⟩
  type i _ := by
    rw [typeAt, typeAt, hp.root]
    cases hd' : g'.classes.lookup (g.root i) with
    | none =>
      have hnot : g.root i ∉ g.classes := (hp.keys _).not.mp (AList.lookup_eq_none.mp hd')
      rw [AList.lookup_eq_none.mpr hnot]
    | some d' =>
      obtain ⟨c, ps, hc, rfl, -, -⟩ := hp.classes _ d' hd'
      rw [hc]
      rfl

theorem WellFormed.pruned (hg : g.WellFormed) (hp : Pruned g g') : g'.WellFormed := by
  have hgrown := hp.grown
  have hclasses : ∀ k c, g'.classes.lookup k = some c → g'.ClassOk k c := by
    intro k c' hc'
    obtain ⟨c, ps, hc, rfl, hsub, -⟩ := hp.classes k c' hc'
    have hroot := hg.root_eq hc
    have hok := (hg.classes k c hc).grown hgrown hroot ((hp.root k).trans hroot)
    exact hok.withParents fun n i hn => hok.parents n i (hsub n i hn)
  have hlive : ∀ k, k ∈ g'.classes ↔ k < g'.size ∧ g'.root k = k := by
    intro k
    rw [hp.keys, hp.size, hp.root]
    exact hg.live k
  have hhash : ∀ n i, g.hashcons.lookup n = some i → g'.EntryOk n i :=
    fun n i hn => (hg.hashcons n i hn).grown hgrown
  obtain ⟨cs, ev, rfl⟩ := hp.frame
  exact ⟨hlive, hclasses, hhash, hg.worklist, hg.updated⟩

theorem WellFormed.unparent (hg : g.WellFormed) (hu : g.unparent id = some g') :
    g'.WellFormed ∧ Grown g g' := by
  obtain ⟨c, index, hc, hidx, ⟨-, rfl⟩ | ⟨g1, c1, node, hp, hc1, hnodes, hnode, rfl⟩⟩ :=
    unparent_cases hu
  · exact ⟨hg, Grown.refl _⟩
  · have hg1 := hg.pruned hp
    have hok := hg1.classes id c1 hc1
    obtain ⟨n, hn, hconst⟩ := (hg.classes id c hc).constantIndex index hidx
    cases hnode.symm.trans hn
    have hmem : node ∈ c1.nodes := hnodes ▸ mem_of_getElem? hnode
    have hok' : g1.ClassOk id { c1 with nodes := [node], constantIndex := some 0 } := by
      refine ⟨cons_ne_nil _ _, ?_, ?_, ?_, ?_, hok.parents⟩
      · exact fun m hm => mem_singleton.mp hm ▸ rfl
      · exact fun m hm => mem_singleton.mp hm ▸ hok.operands node hmem
      · rintro i ⟨⟩
        exact ⟨node, rfl, hconst⟩
      · rintro ⟨⟩
    have htype : some node.type = c1.type? := (hok.types node hmem).symm
    exact ⟨hg1.setClass hc1 hok' (fun _ => rfl) htype,
      hp.grown.trans (grown_setClass hc1 (fun _ => rfl) htype)⟩

variable {n : ENode} {i : Nat}

theorem EntryOk.canon (he : g.EntryOk n i) : g.EntryOk (g.canon n) (g.root i) where
  operands o ho := by
    obtain ⟨o', ho', rfl⟩ := List.mem_map.mp ho
    exact g.root_lt (he.operands o' ho')
  lt := g.root_lt he.lt
  constant hn := by
    obtain ⟨c, hc, hconst⟩ := he.constant hn
    exact ⟨c, (g.root_root i).symm ▸ hc, hconst⟩
  type := by
    rw [typeAt, root_root]
    exact he.type

theorem WellFormed.rehash (hg : g.WellFormed) {p : ENode × Nat} (hp : g.EntryOk p.1 p.2)
    (hr : g.rehash p = some g') : g'.WellFormed ∧ Grown g g' := by
  obtain ⟨-, -, rfl⟩ := rehash_cases hr
  have hgrown : Grown g { g with
      hashcons := (g.hashcons.erase p.1).insert (g.canon p.1) (g.root p.2) } :=
    Grown.of_eq rfl rfl
  refine ⟨⟨hg.live, fun k c hc => ?_, fun n i hn => ?_, hg.worklist, hg.updated⟩, hgrown⟩
  · exact (hg.classes k c hc).grown hgrown (hg.root_eq hc) (hg.root_eq hc)
  · rw [Map.lookup_insert] at hn
    split_ifs at hn with heq
    · cases hn
      exact heq ▸ hp.canon.grown hgrown
    · rw [Map.lookup_erase] at hn
      split_ifs at hn
      exact (hg.hashcons n i hn).grown hgrown

theorem WellFormed.foldlM_rehash (hg : g.WellFormed) {ps : List (ENode × Nat)}
    (hps : ∀ p ∈ ps, g.EntryOk p.1 p.2) (hr : ps.foldlM EGraph.rehash g = some g') :
    g'.WellFormed ∧ Grown g g' := by
  refine foldlM_invariant (fun s => s.WellFormed ∧ Grown g s) ?_ hr ⟨hg, Grown.refl g⟩
  rintro s p s' hp hs ⟨hws, hgs⟩
  obtain ⟨hws', hgs'⟩ := hws.rehash ((hps p hp).grown hgs) hs
  exact ⟨hws', hgs.trans hgs'⟩

theorem ParentOk.canon (hp : g.ParentOk id n i) (hid : g.root id = id) :
    g.ParentOk id (g.canon n) (g.root i) := by
  obtain ⟨he, o, ho, rfl⟩ := hp
  exact ⟨he.canon, g.root o, List.mem_map_of_mem ho, hid⟩

/-- The class under repair stays, as `repair` fails when it is absorbed. -/
theorem WellFormed.merge_other {other : Nat} (hg : g.WellFormed) (hid : g.root id = id)
    (hm : g.merge i other = some (r, g')) (hne : g.root i = g.root other ∨ g.root other ≠ id) :
    g'.root id = id := by
  obtain ⟨-, -, -, ⟨-, rfl⟩ | hmgd⟩ := merge_cases hm
  · exact hid
  · have hother : g.root other ≠ id := hne.resolve_left hmgd.ne
    rw [hmgd.root, hid, if_neg hother.symm]

theorem EntryOk.root_right (he : g.EntryOk n i) (hr : g.root r = g.root i) (hlt : r < g.size) :
    g.EntryOk n r where
  operands := he.operands
  lt := hlt
  constant hn := by
    obtain ⟨c, hc, hconst⟩ := he.constant hn
    exact ⟨c, hr.symm ▸ hc, hconst⟩
  type := by
    rw [typeAt, hr]
    exact he.type

theorem root_merge {j : Nat} (hm : g.merge i j = some (r, g')) : g'.root r = g'.root i := by
  obtain ⟨-, -, rfl, ⟨-, rfl⟩ | hmgd⟩ := merge_cases hm
  · exact root_root _ _
  · rw [hmgd.root_left, hmgd.root, if_neg hmgd.ne]

structure RepairOk (id : Nat) (s : RepairState) : Prop where
  graph : s.graph.WellFormed
  root : s.graph.root id = id
  newParents : ∀ n i, s.newParents.lookup n = some i → s.graph.ParentOk id n i
  rest : ∀ p ∈ s.rest, s.graph.ParentOk id p.1 p.2

theorem RepairOk.turn {s s' : RepairState} (hs : RepairOk id s) (ht : s.turn id = some s') :
    RepairOk id s' ∧ Grown s.graph s'.graph := by
  obtain ⟨g, ps, rest⟩ := s
  obtain ⟨hg, hid, hps, hrest⟩ := hs
  obtain ⟨p, rest, rfl, -, hcases⟩ := RepairState.turn_cases ht
  obtain ⟨hp, hrest⟩ := forall_mem_cons.mp hrest
  obtain ⟨-, -, rfl⟩ | ⟨other, r, g1, -, hm, rfl, hside⟩ := hcases
  · refine ⟨⟨hg, hid, fun n i hn => ?_, hrest⟩, Grown.refl g⟩
    rw [Map.lookup_insert] at hn
    split_ifs at hn with heq
    · cases hn
      exact heq ▸ hp.canon hid
    · exact hps n i hn
  · obtain ⟨hg1, hgrown, hlt⟩ := hg.merge hm
    have hroot := root_merge hm
    -- the entries made so far and the merged one, after the merge
    have hid1 := hg.merge_other hid hm (hside.imp_right And.left)
    have hstep : ∀ n i, (ps.insert (g.canon p.1) r).lookup n = some i → g1.ParentOk id n i := by
      intro n i hn
      rw [Map.lookup_insert] at hn
      split_ifs at hn with heq
      · cases hn
        subst heq
        obtain ⟨he, ho⟩ := (hp.canon hid).grown hgrown hid hid1
        refine ⟨he.root_right ?_ hlt, ho⟩
        rw [hroot]
        exact (hgrown.root _ _ (g.root_root p.2)).symm
      · exact (hps n i hn).grown hgrown hid hid1
    exact ⟨⟨hg1, hid1, hstep, fun q hq => (hrest q hq).grown hgrown hid hid1⟩, hgrown⟩

theorem RepairOk.repairParents {ps' : Map ENode Nat} {rest : List (ENode × Nat)}
    (hs : RepairOk id ⟨g, ps, rest⟩)
    (hr : EGraph.repairParents id fuel g ps rest = some (g', ps')) :
    RepairOk id ⟨g', ps', []⟩ ∧ Grown g g' := by
  refine repairParents_invariant (fun s => RepairOk id s ∧ Grown g s.graph) ?_ hr
    ⟨hs, Grown.refl g⟩
  rintro s s' ⟨hok, hgrown⟩ ht
  obtain ⟨hok', hgrown'⟩ := hok.turn ht
  exact ⟨hok', hgrown.trans hgrown'⟩

theorem RepairOk.start {s : RepairState} (hg : g.WellFormed) (hs : repairStart h g id = some s) :
    RepairOk id s ∧ Grown g s.graph := by
  obtain ⟨c, g1, c1, g2, -, hun, hc1, hrehash, rfl⟩ := repairStart_cases hs
  obtain ⟨hg1, hgrown1⟩ : g1.WellFormed ∧ Grown g g1 := by
    rcases hun with ⟨-, hun⟩ | ⟨-, rfl⟩
    · exact hg.unparent hun
    · exact ⟨hg, Grown.refl _⟩
  have hid1 := hg1.root_eq hc1
  have htick : Grown g1 g1.tick := Grown.of_eq rfl rfl
  have hpar : ∀ p ∈ h.order g1.trace.clock c1.parents.pairs, g1.ParentOk id p.1 p.2 :=
    fun p hp => (hg1.classes id c1 hc1).parents p.1 p.2 (Map.mem_pairs.mp (h.mem_order.mp hp))
  obtain ⟨hg2, hgrown2⟩ := hg1.tick.foldlM_rehash
    (fun p hp => (hpar p hp).1.grown htick) hrehash
  have hgrown12 := htick.trans hgrown2
  have hid2 : g2.root id = id := by
    have hsame : ∀ i, g2.root i = g1.root i := by
      refine foldlM_invariant (fun s => ∀ i, s.root i = g1.root i) ?_ hrehash fun _ => rfl
      intro s p s' _ hs hroot
      obtain ⟨-, -, rfl⟩ := rehash_cases hs
      exact hroot
    rw [hsame, hid1]
  exact ⟨⟨hg2, hid2, (fun n i hn => by cases hn),
    fun p hp => (hpar p hp).grown hgrown12 hid1 hid2⟩, hgrown1.trans hgrown12⟩

theorem RepairOk.finish (hs : RepairOk id ⟨g, ps, []⟩) (hr : repairFinish id (g, ps) = some g') :
    g'.WellFormed ∧ Grown g g' ∧ g'.root id = id := by
  obtain ⟨hg, hid, hps, -⟩ := hs
  obtain ⟨c, hc, hops, rfl⟩ := repairFinish_cases hr
  have hok := hg.classes id c hc
  have htype : EClass.type? { c with nodes := c.nodes.map g.canon, parents := ps } =
      c.type? := by
    rw [EClass.type?, EClass.type?, List.head?_map, Option.map_map]
    rfl
  have hok' : g.ClassOk id { c with nodes := c.nodes.map g.canon, parents := ps } := by
    refine ⟨?_, ?_, ?_, ?_, ?_, hps⟩
    · exact fun hnil => hok.nonempty (map_eq_nil_iff.mp hnil)
    · intro n hn
      obtain ⟨m, hm, rfl⟩ := List.mem_map.mp hn
      exact htype.trans (hok.types m hm)
    · intro n hn o ho
      obtain ⟨m, hm, rfl⟩ := List.mem_map.mp hn
      obtain ⟨o', ho', rfl⟩ := List.mem_map.mp ho
      exact g.root_lt (hops m hm o' ho')
    · intro i hi
      obtain ⟨n, hn, hconst⟩ := hok.constantIndex i hi
      exact ⟨g.canon n, by rw [List.getElem?_map, hn]; rfl, hconst⟩
    · intro hnone n hn
      obtain ⟨m, hm, rfl⟩ := List.mem_map.mp hn
      exact hok.constant hnone m hm
  exact ⟨hg.setClass hc hok' (fun hconst => hconst) htype,
    grown_setClass hc (fun hconst => hconst) htype, hid⟩

theorem WellFormed.repair (hg : g.WellFormed) (hr : g.repair h fuel id = some g') :
    g'.WellFormed ∧ Grown g g' ∧ g'.root id = id := by
  rw [repair_eq] at hr
  obtain ⟨s, hs, hr⟩ := bind_eq_some_iff.mp hr
  obtain ⟨⟨g1, ps⟩, hloop, hr⟩ := bind_eq_some_iff.mp hr
  obtain ⟨hok, hgrown⟩ := RepairOk.start hg hs
  obtain ⟨hok1, hgrown1⟩ := hok.repairParents hloop
  obtain ⟨hg', hgrown', hid⟩ := hok1.finish hr
  exact ⟨hg', hgrown.trans (hgrown1.trans hgrown'), hid⟩

structure Rebuilding (s : EGraph × List Nat) : Prop where
  graph : s.1.WellFormed
  stack : ∀ i ∈ s.2, i < s.1.size

theorem WellFormed.rebuilding (hg : g.WellFormed) : Rebuilding (g, []) :=
  ⟨hg, fun _ hi => absurd hi not_mem_nil⟩

theorem Rebuilding.clearWorklist (hs : Rebuilding s) :
    Rebuilding ({ s.1 with worklist := [] }, s.2) :=
  ⟨hs.graph.of_eq rfl rfl rfl (fun _ hi => absurd hi not_mem_nil) hs.graph.updated, hs.stack⟩

theorem Rebuilding.rebuildStep {eclass : Nat} (hs : Rebuilding s)
    (hr : EGraph.rebuildStep h fuel s eclass = some s') : Rebuilding s' ∧ Grown s.1 s'.1 := by
  obtain ⟨-, g1, c, hg1, hc, rfl⟩ := rebuildStep_cases hr
  obtain ⟨hw, hgrown, -⟩ := hs.graph.repair hg1
  refine ⟨⟨hw.tick, fun i hi => ?_⟩, hgrown.trans (Grown.of_eq rfl rfl)⟩
  rcases mem_append.mp hi with hi | hi
  · rw [mem_reverse, h.mem_order] at hi
    obtain ⟨p, hp, rfl⟩ := List.mem_map.mp hi
    exact ((hw.classes _ c hc).parents p.1 p.2 (Map.mem_pairs.mp hp)).1.lt
  · exact lt_of_lt_of_le (hs.stack i hi) hgrown.size

theorem Rebuilding.foldlM {todo : List Nat} (hs : Rebuilding s)
    (hr : todo.foldlM (EGraph.rebuildStep h fuel) s = some s') :
    Rebuilding s' ∧ Grown s.1 s'.1 := by
  refine foldlM_invariant (fun t => Rebuilding t ∧ Grown s.1 t.1) ?_ hr ⟨hs, Grown.refl _⟩
  rintro t e t' _ ht ⟨hok, hgrown⟩
  obtain ⟨hok', hgrown'⟩ := hok.rebuildStep ht
  exact ⟨hok', hgrown.trans hgrown'⟩

theorem Rebuilding.rebuildLoop (hs : Rebuilding s) (hr : EGraph.rebuildLoop h fuel s = some s') :
    (Rebuilding s' ∧ Grown s.1 s'.1) ∧ s'.1.worklist = [] := by
  refine rebuildLoop_invariant (fun t => Rebuilding t ∧ Grown s.1 t.1) ?_ ?_ hr ⟨hs, Grown.refl _⟩
  · rintro g1 stack ⟨hok, hgrown⟩
    exact ⟨hok.clearWorklist, hgrown.trans (Grown.of_eq rfl rfl)⟩
  · rintro fuel t e t' ⟨hok, hgrown⟩ ht
    obtain ⟨hok', hgrown'⟩ := hok.rebuildStep ht
    exact ⟨hok', hgrown.trans hgrown'⟩

end Rebuild

/-! ### Caches -/

structure SameShape (g g' : EGraph) : Prop where
  frame : ∃ cs, g' = { g with classes := cs }
  classes : ∀ k, (g'.classes.lookup k).map EClass.uncached =
    (g.classes.lookup k).map EClass.uncached

section Caches

variable {g g' g'' : EGraph} {k : Nat} {c c' : EClass}

theorem SameShape.refl (g : EGraph) : SameShape g g := ⟨⟨_, rfl⟩, fun _ => rfl⟩

theorem SameShape.trans (h : SameShape g g') (h' : SameShape g' g'') : SameShape g g'' where
  frame := by
    obtain ⟨cs, rfl⟩ := h.frame
    obtain ⟨cs', rfl⟩ := h'.frame
    exact ⟨cs', rfl⟩
  classes k := (h'.classes k).trans (h.classes k)

theorem sameShape_setClass (hc : g.classes.lookup k = some c) (heq : c'.uncached = c.uncached) :
    SameShape g (g.setClass k c') where
  frame := ⟨_, rfl⟩
  classes l := by
    rw [lookup_setClass]
    split_ifs with hl
    · rw [hl, hc, map_some, map_some, heq]
    · rfl

theorem Recosted.sameShape (h : Recosted g g') : SameShape g g' where
  frame := h.frame
  classes k := by
    cases hk : g'.classes.lookup k with
    | none =>
      have hnot : k ∉ g.classes := (h.keys k).not.mp (AList.lookup_eq_none.mp hk)
      rw [AList.lookup_eq_none.mpr hnot]
    | some c' =>
      obtain ⟨c, cost, hc, rfl⟩ := h.classes k c' hk
      rw [hc]
      rfl

theorem SameShape.exists_class (h : SameShape g g') (hc' : g'.classes.lookup k = some c') :
    ∃ c cache, g.classes.lookup k = some c ∧ c' = { c with cache := cache } := by
  have heq := h.classes k
  rw [hc', map_some] at heq
  obtain ⟨c, hc, hcc⟩ := map_eq_some_iff.mp heq.symm
  refine ⟨c, c'.cache, hc, ?_⟩
  obtain ⟨nodes, parents, cache, index⟩ := c
  obtain ⟨nodes', parents', cache', index'⟩ := c'
  simp only [EClass.uncached, EClass.mk.injEq, true_and] at hcc
  obtain ⟨rfl, rfl, rfl⟩ := hcc
  rfl

theorem SameShape.symm_class (h : SameShape g g') (hc : g.classes.lookup k = some c) :
    ∃ cache, g'.classes.lookup k = some { c with cache := cache } := by
  have heq := h.classes k
  rw [hc, map_some] at heq
  obtain ⟨c', hc', -⟩ := map_eq_some_iff.mp heq
  obtain ⟨d, cache, hd, rfl⟩ := h.exists_class hc'
  rw [hc] at hd
  cases hd
  exact ⟨cache, hc'⟩

theorem Cleared.sameShape (h : Cleared g g') :
    ∃ g1, SameShape g g1 ∧ g'.unionFind = g1.unionFind ∧ g'.classes = g1.classes ∧
      g'.hashcons = g1.hashcons ∧ g'.worklist = g1.worklist := by
  refine ⟨{ g with classes := g'.classes }, ⟨⟨_, rfl⟩, fun k => ?_⟩, ?_⟩
  · rcases h.classes k with heq | ⟨c, hc, heq⟩
    · exact congrArg _ heq
    · change (g'.classes.lookup k).map EClass.uncached = _
      rw [heq, hc]
      rfl
  · obtain ⟨cs, up, clock, rfl⟩ := h.frame
    exact ⟨rfl, rfl, rfl, rfl⟩

theorem SameShape.grown (h : SameShape g g') : Grown g g' := by
  have hconst : ∀ k c, g.classes.lookup k = some c → c.isConstant = true →
      ∃ c', g'.classes.lookup k = some c' ∧ c'.isConstant = true := by
    intro k c hc hcc
    obtain ⟨cache, hc'⟩ := h.symm_class hc
    exact ⟨_, hc', hcc⟩
  have htype : ∀ k, (g'.classes.lookup k).bind EClass.type? =
      (g.classes.lookup k).bind EClass.type? := by
    intro k
    have hmap := congrArg (fun o : Option EClass => o.bind EClass.type?) (h.classes k)
    simp only [bind_map] at hmap
    exact hmap
  obtain ⟨cs, rfl⟩ := h.frame
  exact ⟨le_rfl, fun _ _ h => h, fun i _ ⟨c, hc, hcc⟩ => hconst _ c hc hcc, fun i _ => htype _⟩

theorem WellFormed.sameShape (hg : g.WellFormed) (h : SameShape g g') : g'.WellFormed := by
  have hgrown := h.grown
  have hroot : ∀ i, g'.root i = g.root i := by
    obtain ⟨cs, rfl⟩ := h.frame
    exact fun _ => rfl
  have hsize : g'.size = g.size := by
    obtain ⟨cs, rfl⟩ := h.frame
    rfl
  have hclasses : ∀ k c', g'.classes.lookup k = some c' → g'.ClassOk k c' := by
    intro k c' hc'
    obtain ⟨c, cache, hc, rfl⟩ := h.exists_class hc'
    have hk := hg.root_eq hc
    have hok := (hg.classes k c hc).grown hgrown hk ((hroot k).trans hk)
    exact ⟨hok.nonempty, hok.types, hok.operands, hok.constantIndex, hok.constant, hok.parents⟩
  have hlive : ∀ k, k ∈ g'.classes ↔ k < g'.size ∧ g'.root k = k := by
    intro k
    have hmap := congrArg Option.isSome (h.classes k)
    rw [isSome_map, isSome_map] at hmap
    rw [← AList.lookup_isSome, hmap, AList.lookup_isSome, hg.live, hsize, hroot]
  have hhash : ∀ n i, g.hashcons.lookup n = some i → g'.EntryOk n i :=
    fun n i hn => (hg.hashcons n i hn).grown hgrown
  obtain ⟨cs, rfl⟩ := h.frame
  exact ⟨hlive, hclasses, hhash, hg.worklist, hg.updated⟩

theorem WellFormed.cleared (hg : g.WellFormed) (h : Cleared g g') :
    g'.WellFormed ∧ Grown g g' ∧ g'.worklist = g.worklist := by
  obtain ⟨g1, hshape, hu, hc, hh, hw⟩ := h.sameShape
  have hg1 := hg.sameShape hshape
  have hsize : g1.size = g.size := by rw [← h.size, EGraph.size, EGraph.size, hu]
  have hworklist : g'.worklist = g.worklist := by
    obtain ⟨cs, up, clock, rfl⟩ := h.frame
    rfl
  refine ⟨hg1.of_eq hu hc hh (hw ▸ hg1.worklist) fun i hi => ?_,
    hshape.grown.trans (Grown.of_eq hu hc), hworklist⟩
  rw [hsize]
  exact (h.bounds i hi).elim (hg.updated i) id

theorem WellFormed.rebuild {h : HashOrder} {fuel : Nat} (hg : g.WellFormed)
    (hs : g.rebuild h fuel = some g') : g'.WellFormed ∧ Grown g g' ∧ g'.worklist = [] := by
  simp only [EGraph.rebuild, bind_eq_some] at hs
  obtain ⟨s, hloop, hclear⟩ := hs
  obtain ⟨⟨hok, hgrown1⟩, hw1⟩ := hg.rebuilding.rebuildLoop hloop
  obtain ⟨hg2, hgrown2, hw⟩ := hok.graph.cleared (clearCaches_cases hclear)
  exact ⟨hg2, hgrown1.trans hgrown2, hw.trans hw1⟩

end Caches

end EGraph

namespace EGraphExtractor

open EGraph

theorem extract_sameShape {createRaw : Constructor}
    {fuel : Nat} {x : EGraphExtractor} {id : Nat} {r : Operation × EGraphExtractor}
    (h : extract createRaw fuel x id = some r) : SameShape x.graph r.2.graph := by
  induction fuel generalizing x id r with
  | zero => cases h
  | succ fuel ih =>
    simp only [extract, bind_eq_bind, bind_eq_some_iff] at h
    obtain ⟨root, -, c, -, h⟩ := h
    split at h
    · cases h
      exact SameShape.refl _
    · cases h
      exact SameShape.refl _
    · simp only [bind_eq_some_iff, some.injEq] at h
      obtain ⟨cost, hcost, node, -, rs, hrs, e, -, rfl⟩ := h
      have hloop : SameShape cost.2.graph rs.2.graph := by
        refine foldlM_invariant (fun s => SameShape cost.2.graph s.2.graph) ?_ hrs
          (SameShape.refl _)
        intro s o s' _ hs hframe
        simp only [bind_eq_some_iff, some.injEq] at hs
        obtain ⟨t, ht, rfl⟩ := hs
        exact hframe.trans (ih ht)
      have hwrite : SameShape rs.2.graph (rs.2.updateCachedExpr root e).graph := by
        change SameShape rs.2.graph (rs.2.updateClass root (fun c => c.withExpr e))
        rcases rs.2.updateClass_cases root (fun c => c.withExpr e) with h | ⟨c, hc, h⟩
        · rw [h]
          exact SameShape.refl _
        · rw [h]
          exact sameShape_setClass hc rfl
      exact ((evalCost_step hcost).1.sameShape.trans hloop).trans hwrite

end EGraphExtractor

end Caffeine
