import Caffeine.IR.EGraphReachable

/-!
# Canonical graphs

A node is stored in its class, in the parent maps of its operands and in the hashcons. As long as
every merge absorbs a class that is no operand, all copies are canonical and agree. A merge that
absorbs an operand class leaves copies behind that `repair` does not reach.
-/

namespace Caffeine

open List Option

namespace EGraph

def Stores (g : EGraph) (k : Nat) (n : ENode) : Prop :=
  ∃ c, g.classes.lookup k = some c ∧ n ∈ c.nodes

instance (g : EGraph) (k : Nat) (n : ENode) : Decidable (g.Stores k n) :=
  inferInstanceAs (Decidable (∃ c ∈ g.classes.lookup k, n ∈ c.nodes))

def Lists (g : EGraph) (k : Nat) (n : ENode) (j : Nat) : Prop :=
  ∃ c i, g.classes.lookup k = some c ∧ c.parents.lookup n = some i ∧ g.root i = j

theorem stores_iff {g : EGraph} {k : Nat} {n : ENode} :
    g.Stores k n ↔ ∃ nodes, (g.classes.lookup k).map EClass.nodes = some nodes ∧ n ∈ nodes := by
  constructor
  · rintro ⟨c, hc, hn⟩
    exact ⟨c.nodes, by rw [hc, map_some], hn⟩
  · rintro ⟨nodes, hmap, hn⟩
    obtain ⟨c, hc, rfl⟩ := map_eq_some_iff.mp hmap
    exact ⟨c, hc, hn⟩

/-- All copies of nodes are canonical and agree, but for those dropped for a literal. -/
structure CanonicalGraph (g : EGraph) : Prop where
  nodes : ∀ k n, g.Stores k n → ∀ o ∈ n.operands, g.root o = o
  hashcons : ∀ n ∈ g.hashcons, ∀ o ∈ n.operands, g.root o = o
  parents : ∀ k n j, g.Lists k n j ↔ k ∈ n.operands ∧ g.Stores j n
  dropped : ∀ n i, g.hashcons.lookup n = some i → g.Stores (g.root i) n ∨ g.ConstantAt i

def Unused (g : EGraph) (j : Nat) : Prop :=
  ∀ n ∈ g.hashcons.keys, ∀ o ∈ n.operands, g.root o ≠ g.root j

instance (g : EGraph) (j : Nat) : Decidable (g.Unused j) :=
  inferInstanceAs (Decidable (∀ n ∈ g.hashcons.keys, ∀ o ∈ n.operands, g.root o ≠ g.root j))

structure Tidy (g : EGraph) : Prop extends CanonicalGraph g where
  stored : ∀ k n, g.Stores k n → ∃ i, g.hashcons.lookup n = some i ∧ g.root i = k
  leaves : ∀ n ∈ g.hashcons, n.isConstant = true → n.operands = []

namespace Tidy

variable {g g' : EGraph} {n : ENode} {i j k : Nat} {c : EClass}

theorem empty : Tidy {} where
  nodes := by rintro k n ⟨c, hc, -⟩; cases hc
  hashcons n hn := absurd hn (AList.notMem_empty n)
  parents k n j := by
    constructor
    · rintro ⟨c, i, hc, -⟩
      cases hc
    · rintro ⟨-, c, hc, -⟩
      cases hc
  dropped n i hn := by cases hn
  stored := by rintro k n ⟨c, hc, -⟩; cases hc
  leaves n hn := absurd hn (AList.notMem_empty n)

theorem of_eq (ht : Tidy g) (hu : g'.unionFind = g.unionFind) (hh : g'.hashcons = g.hashcons)
    (hc : g'.classes = g.classes) : Tidy g' := by
  obtain ⟨u, m, cs, up, w, t⟩ := g
  obtain ⟨u', m', cs', up', w', t'⟩ := g'
  cases hu
  cases hh
  cases hc
  exact ⟨⟨ht.nodes, ht.hashcons, ht.parents, ht.dropped⟩, ht.stored, ht.leaves⟩

theorem of_same (ht : Tidy g) (hroot : ∀ o, g'.root o = g.root o) (hhash : g'.hashcons = g.hashcons)
    (hstores : ∀ k n, g'.Stores k n ↔ g.Stores k n)
    (hlists : ∀ k n j, g'.Lists k n j ↔ g.Lists k n j)
    (hconst : ∀ i, g.ConstantAt i → g'.ConstantAt i) : Tidy g' where
  nodes k n hs := by
    simp only [hroot]
    exact ht.nodes k n ((hstores k n).mp hs)
  hashcons := by
    simp only [hroot, hhash]
    exact ht.hashcons
  parents k n j := by rw [hlists, hstores, ht.parents]
  dropped n i hn := by
    rw [hhash] at hn
    rw [hroot, hstores]
    exact (ht.dropped n i hn).imp_right (hconst i)
  stored k n hs := by
    simp only [hroot, hhash]
    exact ht.stored k n ((hstores k n).mp hs)
  leaves := by
    rw [hhash]
    exact ht.leaves

theorem mem_hashcons (ht : Tidy g) (hs : g.Stores k n) : n ∈ g.hashcons := by
  obtain ⟨i, hi, -⟩ := ht.stored k n hs
  exact Map.mem_of_lookup hi

theorem canon_eq (ht : Tidy g) (hs : g.Stores k n) : g.canon n = n := by
  rw [canon, map_congr_left (ht.nodes k n hs), List.map_id']

theorem class_unique (ht : Tidy g) (hk : g.Stores k n) (hj : g.Stores j n) : k = j := by
  obtain ⟨i, hi, rfl⟩ := ht.stored k n hk
  obtain ⟨i', hi', rfl⟩ := ht.stored j n hj
  rw [Map.lookup_unique hi hi']

/-! ### Adding -/

theorem added (hw : g.WellFormed) (ht : Tidy g) (ha : Added g n g')
    (hlt : ∀ o ∈ n.operands, o < g.size) (hleaf : n.isConstant = true → n.operands = []) :
    Tidy g' := by
  have hops : ∀ o ∈ (g.canon n).operands, o < g.size ∧ g.root o = o := by
    intro o ho
    obtain ⟨p, hp, rfl⟩ := List.mem_map.mp ho
    exact ⟨g.root_lt (hlt p hp), g.root_root p⟩
  have habs : ∀ k, ¬ g.Stores k (g.canon n) := fun k hs =>
    AList.lookup_eq_none.mp ha.absent (ht.mem_hashcons hs)
  have hfr : g.classes.lookup g.size = none := AList.lookup_eq_none.mpr hw.notMem_size
  have hroot : g.root g.size = g.size := g.unionFind.find_of_size_le le_rfl
  -- the nodes and the parents before and after
  have hlook : ∀ k, g'.classes.lookup k = (if k = g.size then some (EClass.ofNodes [g.canon n])
      else g.classes.lookup k).map (fun c => if k ∈ (g.canon n).operands then
        { c with parents := c.parents.emplace (g.canon n) g.size } else c) := by
    intro k
    rw [ha.classes, Map.lookup_emplace]
    simp only [hw.notMem_size, not_false_eq_true, and_true]
  have hstores : ∀ k m, g'.Stores k m ↔ g.Stores k m ∨ k = g.size ∧ m = g.canon n := by
    intro k m
    rw [stores_iff, stores_iff, hlook]
    by_cases hk : k = g.size
    · rw [if_pos hk, hk, hfr]
      split_ifs <;> simp [EClass.ofNodes]
    · rw [if_neg hk]
      split_ifs <;> simp [hk]
  have hlists : ∀ k m j, g'.Lists k m j ↔
      g.Lists k m j ∨ k ∈ (g.canon n).operands ∧ m = g.canon n ∧ j = g.size := by
    intro k m j
    constructor
    · rintro ⟨c', i, hc', hi, rfl⟩
      obtain ⟨c, ps, rfl, hcases, rfl⟩ := ha.lookup_cases hc'
      rw [ha.root]
      rcases hcases with ⟨rfl, rfl⟩ | hc
      · rw [if_neg fun hmem => (hops _ hmem).1.false] at hi
        cases hi
      · split_ifs at hi with hmem
        · rw [Map.lookup_emplace] at hi
          split_ifs at hi with heq
          · cases hi
            exact .inr ⟨hmem, heq.1, hroot⟩
          · exact .inl ⟨c, i, hc, hi, rfl⟩
        · exact .inl ⟨c, i, hc, hi, rfl⟩
    · rintro (⟨c, i, hc, hi, rfl⟩ | ⟨hmem, rfl, rfl⟩)
      · have hk : k ≠ g.size := fun hk => hw.notMem_size (hk ▸ Map.mem_of_lookup hc)
        have hm : ¬ (m = g.canon n ∧ g.canon n ∉ c.parents) := by
          rintro ⟨rfl, hnot⟩
          exact hnot (Map.mem_of_lookup hi)
        refine ⟨_, i, by rw [hlook, if_neg hk, hc, map_some], ?_, ha.root i⟩
        split_ifs
        · rw [Map.lookup_emplace, if_neg hm, hi]
        · exact hi
      · obtain ⟨hk, hroot'⟩ := hops k hmem
        obtain ⟨c, hc⟩ := hw.exists_class hk
        rw [hroot'] at hc
        have hnot : g.canon n ∉ c.parents := by
          intro hin
          obtain ⟨i, hi⟩ := Map.exists_lookup hin
          exact habs _ ((ht.parents k _ _).mp ⟨c, i, hc, hi, rfl⟩).2
        refine ⟨_, g.size, by rw [hlook, if_neg hk.ne, hc, map_some], ?_, ?_⟩
        · rw [if_pos hmem, Map.lookup_emplace, if_pos ⟨rfl, hnot⟩]
        · rw [ha.root, hroot]
  have hhash : ∀ m ∈ g'.hashcons, m ∈ g.hashcons ∨ m = g.canon n := by
    intro m hm
    by_cases heq : m = g.canon n
    · exact .inr heq
    · rw [← AList.lookup_isSome, ha.hashcons, if_neg heq, AList.lookup_isSome] at hm
      exact .inl hm
  have hcanonical : ∀ m ∈ g'.hashcons, ∀ o ∈ m.operands, g'.root o = o := by
    intro m hm o ho
    rw [ha.root]
    rcases hhash m hm with hm | rfl
    · exact ht.hashcons m hm o ho
    · exact (hops o ho).2
  have hstored : ∀ k m, g'.Stores k m → ∃ i, g'.hashcons.lookup m = some i ∧ g'.root i = k := by
    intro k m hs
    rcases (hstores k m).mp hs with hs | ⟨rfl, rfl⟩
    · obtain ⟨i, hi, hik⟩ := ht.stored k m hs
      refine ⟨i, ?_, (ha.root i).trans hik⟩
      rw [ha.hashcons, if_neg, hi]
      rintro rfl
      exact habs k hs
    · exact ⟨g.size, by rw [ha.hashcons, if_pos rfl], (ha.root _).trans hroot⟩
  refine ⟨⟨fun k m hs => ?_, hcanonical, fun k m j => ?_, fun m i hm => ?_⟩, hstored,
    fun m hm => ?_⟩
  · obtain ⟨i, hi, -⟩ := hstored k m hs
    exact hcanonical m (Map.mem_of_lookup hi)
  · rw [hlists, hstores, ht.parents]
    by_cases hm : m = g.canon n
    · simp [hm, and_or_left]
    · simp [hm]
  · rw [ha.hashcons] at hm
    rw [ha.root, hstores]
    split_ifs at hm with heq
    · cases hm
      exact .inl (.inr ⟨hroot, heq⟩)
    · rcases ht.dropped m i hm with hs | hconst
      · exact .inl (.inl hs)
      · exact .inr (ha.grown.constant i (hw.hashcons m i hm).lt hconst)
  · rcases hhash m hm with hm | rfl
    · exact ht.leaves m hm
    · intro hconst
      rw [canon, hleaf hconst]
      rfl

theorem add (hw : g.WellFormed) (ht : Tidy g) (hleaf : n.isConstant = true → n.operands = [])
    (h : g.add n = some (i, g')) : Tidy g' := by
  obtain ⟨hlt, ⟨-, rfl⟩ | ⟨-, ha⟩⟩ := add_cases h
  · exact ht.of_eq rfl rfl rfl
  · exact ht.added hw ha hlt hleaf

/-! ### Merging -/

theorem merged (hw : g.WellFormed) (ht : Tidy g) (hm : Merged g i j g') (hunused : g.Unused j) :
    Tidy g' := by
  obtain ⟨c1, c2, cm, h1, h2, hmrg, hlook⟩ := hm.classes
  have hkept : ∀ n ∈ g.hashcons, ∀ o ∈ n.operands, g'.root o = g.root o := by
    intro n hn o ho
    rw [hm.root, if_neg (hunused n hn o ho)]
  have hroot : ∀ o, g'.root (g.root o) = g'.root o := by
    intro o
    rw [hm.root, hm.root, root_root]
  have hleft : g'.root (g.root i) = g.root i := hm.root_left
  have hright : g'.root (g.root j) = g.root i := by rw [hroot, hm.root, if_pos rfl]
  have hother : ∀ {k c}, g.classes.lookup k = some c → k ≠ g.root j → g'.root k = k := by
    intro k c hc hk
    rw [hm.root, hw.root_eq hc, if_neg hk]
  -- the absorbed class has no parents
  have hemp : ∀ n, c2.parents.lookup n = none := by
    intro n
    cases hn : c2.parents.lookup n with
    | none => rfl
    | some l =>
      obtain ⟨hmem, hs⟩ := (ht.parents _ n _).mp ⟨c2, l, h2, hn, rfl⟩
      exact absurd (g.root_root j) (hunused n (ht.mem_hashcons hs) _ hmem)
  have hstores : ∀ k n, g'.Stores k n ↔ ∃ l, g.Stores l n ∧ g'.root l = k := by
    intro k n
    constructor
    · rintro ⟨c, hc, hn⟩
      rw [hlook] at hc
      split_ifs at hc with hkj hki
      · cases hc
        rw [(merge_nodes hmrg).1, mem_append] at hn
        rcases hn with hn | hn
        · exact ⟨_, ⟨c1, h1, hn⟩, hki ▸ hleft⟩
        · exact ⟨_, ⟨c2, h2, hn⟩, hki ▸ hright⟩
      · exact ⟨k, ⟨c, hc, hn⟩, hother hc hkj⟩
    · rintro ⟨l, ⟨c, hc, hn⟩, rfl⟩
      have hcm : g'.classes.lookup (g.root i) = some cm := by
        rw [hlook, if_neg hm.ne, if_pos rfl]
      by_cases hlj : l = g.root j
      · subst hlj
        cases hc.symm.trans h2
        rw [hright]
        refine ⟨cm, hcm, ?_⟩
        rw [(merge_nodes hmrg).1]
        exact mem_append_right _ hn
      · rw [hother hc hlj]
        by_cases hli : l = g.root i
        · subst hli
          cases hc.symm.trans h1
          refine ⟨cm, hcm, ?_⟩
          rw [(merge_nodes hmrg).1]
          exact mem_append_left _ hn
        · exact ⟨c, by rw [hlook, if_neg hlj, if_neg hli, hc], hn⟩
  have hlists : ∀ k n l, g'.Lists k n l ↔ ∃ l', g.Lists k n l' ∧ g'.root l' = l := by
    intro k n l
    constructor
    · rintro ⟨c, x, hc, hx, rfl⟩
      rw [hlook] at hc
      split_ifs at hc with hkj hki
      · cases hc
        rw [merge_parents hmrg] at hx
        rcases AList.lookup_union_eq_some.mp hx with hx | ⟨-, hx⟩
        · exact ⟨g.root x, ⟨c1, x, hki ▸ h1, hx, rfl⟩, hroot x⟩
        · rw [hemp] at hx
          cases hx
      · exact ⟨g.root x, ⟨c, x, hc, hx, rfl⟩, hroot x⟩
    · rintro ⟨_, ⟨c, x, hc, hx, rfl⟩, rfl⟩
      have hkj : k ≠ g.root j := by
        rintro rfl
        cases hc.symm.trans h2
        rw [hemp] at hx
        cases hx
      by_cases hki : k = g.root i
      · subst hki
        cases hc.symm.trans h1
        refine ⟨cm, x, by rw [hlook, if_neg hkj, if_pos rfl], ?_, (hroot x).symm⟩
        rw [merge_parents hmrg]
        exact AList.lookup_union_eq_some.mpr (.inl hx)
      · exact ⟨c, x, by rw [hlook, if_neg hkj, if_neg hki, hc], hx, (hroot x).symm⟩
  have hcanonical : ∀ n ∈ g.hashcons, ∀ o ∈ n.operands, g'.root o = o := by
    intro n hn o ho
    rw [hkept n hn o ho, ht.hashcons n hn o ho]
  refine ⟨⟨fun k n hs => ?_, ?_, fun k n l => ?_, fun n x hn => ?_⟩, fun k n hs => ?_, ?_⟩
  · obtain ⟨l, hs, -⟩ := (hstores k n).mp hs
    exact hcanonical n (ht.mem_hashcons hs)
  · rw [hm.hashcons]
    exact hcanonical
  · simp only [hlists, hstores, ht.parents, and_assoc, exists_and_left]
  · rw [hm.hashcons] at hn
    rcases ht.dropped n x hn with hs | hconst
    · exact .inl ((hstores _ n).mpr ⟨_, hs, hroot x⟩)
    · exact .inr (hm.grown.constant x (hw.hashcons n x hn).lt hconst)
  · obtain ⟨l, hl, rfl⟩ := (hstores k n).mp hs
    obtain ⟨x, hx, rfl⟩ := ht.stored l n hl
    exact ⟨x, hm.hashcons ▸ hx, (hroot x).symm⟩
  · rw [hm.hashcons]
    exact ht.leaves

theorem merge {r : Nat} (hw : g.WellFormed) (ht : Tidy g)
    (hunused : g.root i = g.root j ∨ g.Unused j) (h : g.merge i j = some (r, g')) : Tidy g' := by
  obtain ⟨-, -, -, ⟨-, rfl⟩ | hm⟩ := merge_cases h
  · exact ht
  · exact ht.merged hw hm (hunused.resolve_left hm.ne)

end Tidy

/-! ### Repair -/

structure Erased (g : EGraph) (S : Nat → ENode → Prop) (g' : EGraph) : Prop where
  frame : ∃ cs ev, g' = { g with classes := cs, trace.events := ev }
  nodes : ∀ k, (g'.classes.lookup k).map EClass.nodes = (g.classes.lookup k).map EClass.nodes
  lists : ∀ k n j, g'.Lists k n j ↔ g.Lists k n j ∧ ¬ S k n

namespace Erased

variable {g g' g'' : EGraph} {S T : Nat → ENode → Prop}

theorem root (h : Erased g S g') (k : Nat) : g'.root k = g.root k := by
  obtain ⟨cs, ev, rfl⟩ := h.frame
  rfl

theorem trans (h : Erased g S g') (h' : Erased g' T g'') :
    Erased g (fun k n => S k n ∨ T k n) g'' where
  frame := by
    obtain ⟨cs, ev, rfl⟩ := h.frame
    obtain ⟨cs', ev', rfl⟩ := h'.frame
    exact ⟨cs', ev', rfl⟩
  nodes k := (h'.nodes k).trans (h.nodes k)
  lists k n j := by
    rw [h'.lists, h.lists, not_or, and_assoc]

theorem congr (h : Erased g S g') (hST : ∀ k n, S k n ↔ T k n) : Erased g T g' := by
  have heq : S = T := funext fun k => funext fun n => propext (hST k n)
  exact heq ▸ h

theorem eraseParent {n : ENode} {o : Nat} (h : eraseParent n g o = some g') :
    Erased g (fun k m => m = n ∧ g.root o = k) g' := by
  simp only [EGraph.eraseParent, bind_eq_some, get_eq_some, some.injEq] at h
  obtain ⟨c, ⟨-, hc⟩, rfl⟩ := h
  have hers : ∀ g1 : EGraph, (∃ ev, g1 = { g with trace.events := ev }) →
      Erased g (fun k m => m = n ∧ g.root o = k)
        (g1.setClass (g.root o) { c with parents := c.parents.erase n }) := by
    rintro _ ⟨ev, rfl⟩
    have hlook : ∀ k, (setClass { g with trace.events := ev } (g.root o)
        { c with parents := c.parents.erase n }).classes.lookup k =
          if k = g.root o then some { c with parents := c.parents.erase n }
          else g.classes.lookup k := fun k => Map.lookup_insert _ _ _ _
    refine ⟨⟨_, _, rfl⟩, fun k => ?_, fun k m j => ?_⟩
    · rw [hlook]
      split_ifs with hk
      · rw [hk, hc]
        rfl
      · rfl
    · constructor
      · rintro ⟨d, i, hd, hi, rfl⟩
        rw [hlook] at hd
        split_ifs at hd with hk
        · cases hd
          rw [Map.lookup_erase] at hi
          split_ifs at hi with hm
          exact ⟨⟨c, i, hk ▸ hc, hi, rfl⟩, fun h => hm h.1⟩
        · exact ⟨⟨d, i, hd, hi, rfl⟩, fun h => hk h.2.symm⟩
      · rintro ⟨⟨d, i, hd, hi, rfl⟩, hnot⟩
        by_cases hk : k = g.root o
        · subst hk
          cases hd.symm.trans hc
          refine ⟨_, i, by rw [hlook, if_pos rfl], ?_, rfl⟩
          rw [Map.lookup_erase, if_neg fun hm => hnot ⟨hm, rfl⟩, hi]
        · exact ⟨d, i, by rw [hlook, if_neg hk, hd], hi, rfl⟩
  split_ifs
  · exact hers (g.note .parentErased) ⟨_, rfl⟩
  · exact hers g ⟨_, rfl⟩

theorem refl (g : EGraph) (hS : ∀ k n, ¬ S k n) : Erased g S g where
  frame := ⟨_, _, rfl⟩
  nodes _ := rfl
  lists k n _ := ⟨fun h => ⟨h, hS k n⟩, And.left⟩

theorem foldlM_operands {n : ENode} {os : List Nat}
    (h : os.foldlM (EGraph.eraseParent n) g = some g') :
    Erased g (fun k m => m = n ∧ ∃ o ∈ os, g.root o = k) g' := by
  induction os generalizing g with
  | nil =>
    cases h
    exact Erased.refl _ fun k m hS => by simp at hS
  | cons o os ih =>
    obtain ⟨g1, h1, h⟩ := foldlM_cons_eq_some.mp h
    have hers := Erased.eraseParent h1
    refine (hers.trans (ih h)).congr fun k m => ?_
    simp only [hers.root, mem_cons, exists_eq_or_imp, and_or_left]

theorem foldlM_nodes {nodes : List ENode}
    (h : nodes.foldlM (fun g node => node.operands.foldlM (EGraph.eraseParent node) g) g =
      some g') :
    Erased g (fun k m => m ∈ nodes ∧ ∃ o ∈ m.operands, g.root o = k) g' := by
  induction nodes generalizing g with
  | nil =>
    cases h
    exact Erased.refl _ fun k m hS => by simp at hS
  | cons n nodes ih =>
    obtain ⟨g1, h1, h⟩ := foldlM_cons_eq_some.mp h
    have hers := foldlM_operands h1
    refine (hers.trans (ih h)).congr fun k m => ?_
    simp only [hers.root, mem_cons, or_and_right]
    refine or_congr_left (and_congr_right ?_)
    rintro rfl
    rfl

end Erased

theorem unparent_drops {g g' : EGraph} {id : Nat} (h : g.unparent id = some g') :
    g' = g ∨ ∃ c index node, g.classes.lookup id = some c ∧ c.constantIndex = some index ∧
      c.nodes[index]? = some node ∧ (∀ o, g'.root o = g.root o) ∧ g'.hashcons = g.hashcons ∧
      (∀ k n, g'.Stores k n ↔ g.Stores k n ∧ (k = id → n = node)) ∧
      ∀ k n j, g'.Lists k n j ↔
        g.Lists k n j ∧ ¬ (n ∈ c.nodes ∧ ∃ o ∈ n.operands, g.root o = k) := by
  simp only [unparent, bind_eq_bind, bind_eq_some_iff] at h
  obtain ⟨c, hc, index, hidx, h⟩ := h
  split_ifs at h with hlen
  · cases h
    exact .inl rfl
  simp only [bind_eq_some_iff, some.injEq] at h
  obtain ⟨g1, hfold, c1, hc1, node, hnode, rfl⟩ := h
  have hers := Erased.foldlM_nodes hfold
  have hnodes : c1.nodes = c.nodes := by
    have heq := hers.nodes id
    rw [hc, hc1] at heq
    exact some.inj heq
  rw [hnodes] at hnode
  have hhash : g1.hashcons = g.hashcons := by
    obtain ⟨cs, ev, rfl⟩ := hers.frame
    rfl
  generalize hc2 : ({ c1 with nodes := [node], constantIndex := some 0 } : EClass) = c2
  have hlook : ∀ k, (g1.setClass id c2).classes.lookup k =
      if k = id then some c2 else g1.classes.lookup k := fun k => Map.lookup_insert _ _ _ _
  refine .inr ⟨c, index, node, hc, hidx, hnode, hers.root, hhash, fun k n => ?_, fun k n j => ?_⟩
  · have hstores : g.Stores k n ↔ g1.Stores k n := by rw [stores_iff, stores_iff, hers.nodes]
    rw [hstores]
    constructor
    · rintro ⟨d, hd, hn⟩
      rw [hlook] at hd
      split_ifs at hd with hk
      · cases hd
        rw [← hc2] at hn
        cases mem_singleton.mp hn
        exact ⟨⟨c1, hk ▸ hc1, hnodes ▸ mem_of_getElem? hnode⟩, fun _ => rfl⟩
      · exact ⟨⟨d, hd, hn⟩, fun h => absurd h hk⟩
    · rintro ⟨⟨d, hd, hn⟩, himp⟩
      by_cases hk : k = id
      · cases himp hk
        refine ⟨c2, by rw [hlook, if_pos hk], ?_⟩
        rw [← hc2]
        exact mem_singleton_self _
      · exact ⟨d, by rw [hlook, if_neg hk, hd], hn⟩
  · rw [← hers.lists]
    constructor
    · rintro ⟨d, i, hd, hi, rfl⟩
      rw [hlook] at hd
      split_ifs at hd with hk
      · cases hd
        rw [← hc2] at hi
        exact ⟨c1, i, hk ▸ hc1, hi, rfl⟩
      · exact ⟨d, i, hd, hi, rfl⟩
    · rintro ⟨d, i, hd, hi, rfl⟩
      by_cases hk : k = id
      · subst hk
        cases hd.symm.trans hc1
        refine ⟨c2, i, by rw [hlook, if_pos rfl], ?_, rfl⟩
        rw [← hc2]
        exact hi
      · exact ⟨d, i, by rw [hlook, if_neg hk, hd], hi, rfl⟩

variable {h : HashOrder} {s : RepairState}

namespace Tidy

variable {g g' : EGraph} {id : Nat}

theorem unparent (hw : g.WellFormed) (ht : Tidy g) (h : g.unparent id = some g') : Tidy g' := by
  rcases unparent_drops h with rfl | ⟨c, index, node, hc, hidx, hnode, hroot, hhash, hstores,
    hlists⟩
  · exact ht
  obtain ⟨literal, hlit, hconst⟩ := (hw.classes id c hc).constantIndex index hidx
  cases hnode.symm.trans hlit
  have hin : g.Stores id node := ⟨c, hc, mem_of_getElem? hnode⟩
  have hleaf : node.operands = [] := ht.leaves node (ht.mem_hashcons hin) hconst
  refine ⟨⟨fun k n hs => ?_, ?_, fun k n j => ?_, fun n i hn => ?_⟩, fun k n hs => ?_, ?_⟩
  · simp only [hroot]
    exact ht.nodes k n ((hstores k n).mp hs).1
  · simp only [hroot, hhash]
    exact ht.hashcons
  · rw [hlists, hstores, ht.parents]
    constructor
    · rintro ⟨⟨hk, hs⟩, hnot⟩
      refine ⟨hk, hs, ?_⟩
      rintro rfl
      obtain ⟨d, hd, hn⟩ := hs
      cases hd.symm.trans hc
      exact absurd ⟨hn, k, hk, ht.nodes _ n ⟨_, hc, hn⟩ k hk⟩ hnot
    · rintro ⟨hk, hs, himp⟩
      refine ⟨⟨hk, hs⟩, ?_⟩
      rintro ⟨hn, -⟩
      cases himp (ht.class_unique hs ⟨c, hc, hn⟩)
      rw [hleaf] at hk
      cases hk
  · rw [hhash] at hn
    rw [hroot, hstores]
    have hgrown := (hw.unparent h).2
    rcases ht.dropped n i hn with hs | hcon
    · by_cases hid : g.root i = id
      · refine .inr (hgrown.constant i (hw.hashcons n i hn).lt ⟨c, hid.symm ▸ hc, ?_⟩)
        rw [EClass.isConstant, hidx]
        rfl
      · exact .inl ⟨hs, fun heq => absurd heq hid⟩
    · exact .inr (hgrown.constant i (hw.hashcons n i hn).lt hcon)
  · rw [hhash]
    simp only [hroot]
    exact ht.stored k n ((hstores k n).mp hs).1
  · rw [hhash]
    exact ht.leaves

theorem rehash (ht : Tidy g) {k : Nat} {p : ENode × Nat} (hp : g.Lists k p.1 (g.root p.2))
    (h : g.rehash p = some g') : Tidy g' ∧ ∃ m, g' = { g with hashcons := m } := by
  obtain ⟨-, -, rfl⟩ := rehash_cases h
  refine ⟨?_, _, rfl⟩
  have hs := ((ht.parents _ _ _).mp hp).2
  obtain ⟨i, hi, hroot⟩ := ht.stored _ _ hs
  rw [ht.canon_eq hs]
  have hlook : ∀ m, ((g.hashcons.erase p.1).insert p.1 (g.root p.2)).lookup m =
      if m = p.1 then some (g.root p.2) else g.hashcons.lookup m := by
    intro m
    rw [Map.lookup_insert, Map.lookup_erase]
    split_ifs <;> rfl
  have hmem : ∀ m, m ∈ (g.hashcons.erase p.1).insert p.1 (g.root p.2) → m ∈ g.hashcons := by
    intro m hm
    rw [← AList.lookup_isSome, hlook] at hm
    split_ifs at hm with heq
    · exact heq ▸ Map.mem_of_lookup hi
    · exact AList.lookup_isSome.mp hm
  refine ⟨⟨ht.nodes, fun m hm => ht.hashcons m (hmem m hm), ht.parents, fun m x hm => ?_⟩,
    fun k m hs => ?_, fun m hm => ht.leaves m (hmem m hm)⟩
  · rw [hlook] at hm
    split_ifs at hm with heq
    · cases hm
      left
      change g.Stores (g.root (g.root p.2)) m
      rw [root_root, heq]
      exact hs
    · exact ht.dropped m x hm
  · obtain ⟨x, hx, rfl⟩ := ht.stored k m hs
    by_cases heq : m = p.1
    · subst heq
      refine ⟨g.root p.2, by rw [hlook, if_pos rfl], ?_⟩
      change g.root (g.root p.2) = g.root x
      rw [root_root, Map.lookup_unique hx hi, hroot]
    · exact ⟨x, by rw [hlook, if_neg heq, hx], rfl⟩

theorem repairStart (hw : g.WellFormed) (ht : Tidy g) (hs : repairStart h g id = some s) :
    Tidy s.graph ∧ s.newParents = ∅ ∧ (∀ p ∈ s.rest, s.graph.Lists id p.1 (s.graph.root p.2)) ∧
      ∀ n j, s.graph.Lists id n j → ∃ i, (n, i) ∈ s.rest := by
  obtain ⟨c, g1, c1, g2, -, hun, hc1, hrehash, rfl⟩ := repairStart_cases hs
  have ht1 : Tidy g1 := by
    rcases hun with ⟨-, hun⟩ | ⟨-, rfl⟩
    · exact ht.unparent hw hun
    · exact ht
  have hrest : ∀ p ∈ h.order g1.trace.clock c1.parents.pairs,
      g1.Lists id p.1 (g1.root p.2) := by
    intro p hp
    rw [h.mem_order] at hp
    exact ⟨c1, p.2, hc1, Map.mem_pairs.mp hp, rfl⟩
  have h2 : Tidy g2 ∧ ∃ m, g2 = { g1.tick with hashcons := m } := by
    refine foldlM_invariant (fun t => Tidy t ∧ ∃ m, t = { g1.tick with hashcons := m }) ?_ hrehash
      ⟨ht1.of_eq rfl rfl rfl, _, rfl⟩
    rintro _ p t' hp hp' ⟨htidy, m, rfl⟩
    obtain ⟨htidy', m', rfl⟩ := htidy.rehash (k := id) (hrest p hp) hp'
    exact ⟨htidy', m', rfl⟩
  obtain ⟨ht2, m, rfl⟩ := h2
  refine ⟨ht2, rfl, hrest, ?_⟩
  rintro n j ⟨d, i, hd, hi, -⟩
  cases hd.symm.trans hc1
  exact ⟨i, h.mem_order.mpr (Map.mem_pairs.mpr hi)⟩

structure Collecting (g : EGraph) (id : Nat) (s : RepairState) : Prop where
  graph : s.graph = g
  rest : ∀ p ∈ s.rest, g.Lists id p.1 (g.root p.2)
  newParents : ∀ n i, s.newParents.lookup n = some i → g.Lists id n (g.root i)
  covered : ∀ n j, g.Lists id n j → n ∈ s.newParents ∨ ∃ i, (n, i) ∈ s.rest

theorem Collecting.collect {p : ENode × Nat} {rest : List (ENode × Nat)} (hs : Collecting g id s)
    (hrest : s.rest = p :: rest) :
    Collecting g id ⟨g, s.newParents.insert p.1 (g.root p.2), rest⟩ where
  graph := rfl
  rest q hq := hs.rest q (hrest ▸ mem_cons_of_mem p hq)
  newParents n i hi := by
    rw [Map.lookup_insert] at hi
    split_ifs at hi with heq
    · cases hi
      rw [root_root, heq]
      exact hs.rest p (hrest ▸ mem_cons_self)
    · exact hs.newParents n i hi
  covered n j hn := by
    simp only [AList.mem_insert]
    rcases hs.covered n j hn with hmem | ⟨i, hi⟩
    · exact .inl (.inr hmem)
    · rcases mem_cons.mp (hrest ▸ hi) with rfl | hi
      · exact .inl (.inl rfl)
      · exact .inr ⟨i, hi⟩

theorem Collecting.turn {s' : RepairState} (ht : Tidy g) (hs : Collecting g id s)
    (hturn : s.turn id = some s') : Collecting g id s' := by
  obtain ⟨p, rest, hrest, -, hcases⟩ := RepairState.turn_cases hturn
  rw [hs.graph] at hcases
  have hp := ((ht.parents _ _ _).mp (hs.rest p (hrest ▸ mem_cons_self))).2
  rw [ht.canon_eq hp] at hcases
  rcases hcases with ⟨-, -, rfl⟩ | ⟨other, r, g1, hother, hmrg, rfl, -⟩
  · exact hs.collect hrest
  · have hroot : g.root p.2 = g.root other :=
      ht.class_unique hp ((ht.parents _ _ _).mp (hs.newParents p.1 other hother)).2
    obtain ⟨-, -, rfl, ⟨-, rfl⟩ | hm⟩ := merge_cases hmrg
    · exact hs.collect hrest
    · exact absurd hroot hm.ne

theorem repair {fuel : Nat} (hw : g.WellFormed) (ht : Tidy g) (hr : g.repair h fuel id = some g') :
    Tidy g' := by
  rw [repair_eq] at hr
  obtain ⟨s, hs, hr⟩ := bind_eq_some_iff.mp hr
  obtain ⟨⟨g1, ps⟩, hloop, hfin⟩ := bind_eq_some_iff.mp hr
  obtain ⟨hts, hnew, hrest, hlists⟩ := ht.repairStart hw hs
  have hstart : Collecting s.graph id s := by
    refine ⟨rfl, hrest, fun n i hi => ?_, fun n j hn => .inr (hlists n j hn)⟩
    rw [hnew] at hi
    cases hi
  obtain ⟨hg1, -, hps, hcovered⟩ :=
    repairParents_invariant _ (fun _ _ hs hturn => hs.turn hts hturn) hloop hstart
  cases hg1
  obtain ⟨c, hc, -, rfl⟩ := repairFinish_cases hfin
  have hnodes : c.nodes.map s.graph.canon = c.nodes := by
    rw [map_congr_left fun n hn => hts.canon_eq ⟨c, hc, hn⟩, List.map_id']
  rw [hnodes]
  have hlook : ∀ k, (s.graph.setClass id { c with parents := ps }).classes.lookup k =
      if k = id then some { c with parents := ps } else s.graph.classes.lookup k :=
    fun k => Map.lookup_insert _ _ _ _
  refine hts.of_same (fun _ => rfl) rfl (fun k n => ?_) (fun k n j => ?_) ?_
  · have hmap : ((s.graph.setClass id { c with parents := ps }).classes.lookup k).map
        EClass.nodes = (s.graph.classes.lookup k).map EClass.nodes := by
      rw [hlook]
      split_ifs with hk
      · rw [hk, hc]
        rfl
      · rfl
    rw [stores_iff, stores_iff, hmap]
  · constructor
    · rintro ⟨d, i, hd, hi, rfl⟩
      rw [hlook] at hd
      split_ifs at hd with hk
      · cases hd
        exact hk ▸ hps n i hi
      · exact ⟨d, i, hd, hi, rfl⟩
    · rintro hn
      by_cases hk : k = id
      · subst hk
        rcases hcovered n j hn with hmem | ⟨i, hi⟩
        · obtain ⟨i, hi⟩ := Map.exists_lookup hmem
          refine ⟨_, i, by rw [hlook, if_pos rfl], hi, ?_⟩
          exact hts.class_unique ((hts.parents _ _ _).mp (hps n i hi)).2
            ((hts.parents _ _ _).mp hn).2
        · cases hi
      · obtain ⟨d, i, hd, hi, rfl⟩ := hn
        exact ⟨d, i, by rw [hlook, if_neg hk, hd], hi, rfl⟩
  · rintro i ⟨d, hd, hconst⟩
    by_cases hk : s.graph.root i = id
    · rw [hk] at hd
      cases hd.symm.trans hc
      exact ⟨_, (hlook _).trans (if_pos hk), hconst⟩
    · exact ⟨d, ((hlook _).trans (if_neg hk)).trans hd, hconst⟩

theorem sameShape (ht : Tidy g) (h : SameShape g g') : Tidy g' := by
  obtain ⟨cs, rfl⟩ := h.frame
  refine ht.of_same (fun _ => rfl) rfl (fun k n => ⟨?_, ?_⟩) (fun k n j => ⟨?_, ?_⟩) ?_
  · rintro ⟨c', hc', hn⟩
    obtain ⟨c, cache, hc, rfl⟩ := h.exists_class hc'
    exact ⟨c, hc, hn⟩
  · rintro ⟨c, hc, hn⟩
    obtain ⟨cache, hc'⟩ := h.symm_class hc
    exact ⟨_, hc', hn⟩
  · rintro ⟨c', i, hc', hi, rfl⟩
    obtain ⟨c, cache, hc, rfl⟩ := h.exists_class hc'
    exact ⟨c, i, hc, hi, rfl⟩
  · rintro ⟨c, i, hc, hi, rfl⟩
    obtain ⟨cache, hc'⟩ := h.symm_class hc
    exact ⟨_, i, hc', hi, rfl⟩
  · rintro i ⟨c, hc, hconst⟩
    obtain ⟨cache, hc'⟩ := h.symm_class hc
    exact ⟨_, hc', hconst⟩

theorem rebuild {fuel : Nat} (hw : g.WellFormed) (ht : Tidy g) (hr : g.rebuild h fuel = some g') :
    Tidy g' := by
  simp only [EGraph.rebuild, bind_eq_some] at hr
  obtain ⟨s, hloop, hclear⟩ := hr
  have hs : Rebuilding s ∧ Tidy s.1 := by
    refine (rebuildLoop_invariant (fun t => Rebuilding t ∧ Tidy t.1) ?_ ?_ hloop
      ⟨hw.rebuilding, ht⟩).1
    · rintro g1 stack ⟨hok, htidy⟩
      exact ⟨hok.clearWorklist, htidy.of_eq rfl rfl rfl⟩
    · rintro fuel t e t' ⟨hok, htidy⟩ hstep
      refine ⟨(hok.rebuildStep hstep).1, ?_⟩
      obtain ⟨-, g1, c, hg1, -, rfl⟩ := rebuildStep_cases hstep
      exact (htidy.repair hok.graph hg1).of_eq rfl rfl rfl
  obtain ⟨g1, hshape, hu, hc, hh, -⟩ := (clearCaches_cases hclear).sameShape
  exact (hs.2.sameShape hshape).of_eq hu hh hc

end Tidy

end EGraph

/-! ### Sessions -/

def Operation.leafLiterals (o : Operation) : Bool :=
  o.fold fun d bs => (!d.isConstant || bs.isEmpty) && bs.all id

theorem Operation.leafLiterals_mk {d : OperationData} {ops : List Operation} :
    (Operation.mk d ops).leafLiterals = true ↔
      (d.isConstant = true → ops = []) ∧ ∀ o ∈ ops, o.leafLiterals = true := by
  rw [leafLiterals, fold_mk]
  simp only [Bool.and_eq_true, Bool.or_eq_true, Bool.not_eq_true', isEmpty_map,
    List.isEmpty_iff, List.all_map, List.all_eq_true, Function.comp_apply, id_eq, leafLiterals]
  cases d.isConstant <;> simp

theorem EGraph.Tidy.addOperation {g g' : EGraph} {o : Operation} {i : Nat} (hw : g.WellFormed)
    (ht : g.Tidy) (ho : o.leafLiterals = true) (h : g.addOperation o = some (i, g')) : g'.Tidy := by
  refine (addOperation_invariant (fun g => g.WellFormed ∧ g.Tidy) (fun o => o.leafLiterals = true)
    (fun d ops ho => (Operation.leafLiterals_mk.mp ho).2) ?_ ho ⟨hw, ht⟩ h).2
  rintro d ops ids ho hlen g1 g2 id ⟨hw1, ht1⟩ hadd
  refine ⟨(hw1.add hadd).1, ht1.add hw1 (fun hconst => ?_) hadd⟩
  have hops : ops = [] := (Operation.leafLiterals_mk.mp ho).1 hconst
  rw [hops] at hlen
  exact length_eq_zero_iff.mp hlen

/-- Added literals have no operands, and a merge absorbs a class that no node has as an operand. -/
def EGraphCall.Gentle (g : EGraph) : EGraphCall → Prop
  | addNode node => node.isConstant = true → node.operands = []
  | add op => op.leafLiterals = true
  | merge id1 id2 => g.root id1 = g.root id2 ∨ g.Unused id2
  | _ => True

instance (g : EGraph) : (call : EGraphCall) → Decidable (call.Gentle g)
  | .addNode node => inferInstanceAs (Decidable (node.isConstant = true → node.operands = []))
  | .add op => inferInstanceAs (Decidable (op.leafLiterals = true))
  | .merge id1 id2 => inferInstanceAs (Decidable (g.root id1 = g.root id2 ∨ g.Unused id2))
  | .rebuild _ => inferInstanceAs (Decidable True)
  | .extract _ _ => inferInstanceAs (Decidable True)

namespace EGraphSession

open EGraph

section

variable (h : HashOrder) (createRaw : Constructor)

def Gentle : EGraphSession → List EGraphCall → Prop
  | _, [] => True
  | s, call :: calls => call.Gentle s.graph ∧ ∀ t ∈ exec h createRaw s call, Gentle t calls

instance decidableGentle : (s : EGraphSession) → (calls : List EGraphCall) →
    Decidable (Gentle h createRaw s calls)
  | _, [] => inferInstanceAs (Decidable True)
  | s, call :: calls =>
    have (t : EGraphSession) := decidableGentle t calls
    inferInstanceAs (Decidable (call.Gentle s.graph ∧
      ∀ t ∈ exec h createRaw s call, Gentle h createRaw t calls))

end

variable {h : HashOrder} {createRaw : Constructor}
variable {s s' : EGraphSession}

theorem exec_tidy {call : EGraphCall} (hs : s.graph.WellFormed) (ht : s.graph.Tidy)
    (hcall : call.Gentle s.graph) (he : exec h createRaw s call = some s') : s'.graph.Tidy := by
  cases exec_cases he with
  | addNode hr => exact ht.add hs hcall hr
  | add hr => exact ht.addOperation hs hcall hr
  | merge hr => exact ht.merge hs hcall hr
  | rebuild hr => exact ht.rebuild hs hr
  | extract hr => exact ht.sameShape (EGraphExtractor.extract_sameShape hr)

theorem run_tidy {calls : List EGraphCall} (hs : s.graph.Reachable) (ht : s.graph.Tidy)
    (hcalls : Gentle h createRaw s calls) (hr : run h createRaw s calls = some s') :
    s'.graph.Tidy := by
  induction calls generalizing s with
  | nil =>
    cases hr
    exact ht
  | cons call calls ih =>
    obtain ⟨t, he, hr⟩ := foldlM_cons_eq_some.mp hr
    exact ih (exec_reachable hs he) (exec_tidy hs.wellFormed ht hcalls.1 he) (hcalls.2 t he) hr

/-- The rule for `x - x` in `~(x - x)`: the difference absorbs zero, and the rebuild drops it. -/
def differenceDropped : List EGraphCall :=
  let x := Operation.constant (.int 8) (.numbered 0)
  [.add (.mk (.unary .not (.int 8)) [.mk (.binary .sub (.int 8)) [x, x]]),
    .addNode ⟨.constantInt ⟨8, 0⟩, []⟩, .merge 1 3, .rebuild 9]

/-- `x + y`, and merges of `x` and `y` into other symbols after a rebuild. -/
def renamedOperands : List EGraphCall :=
  let symbol (i : Nat) := Operation.constant (.int 8) (.numbered i)
  [.add (.mk (.binary .add (.int 8)) [symbol 0, symbol 1]), .add (symbol 2), .add (symbol 3),
    .rebuild 9, .merge 3 0, .rebuild 9, .merge 4 1, .rebuild 9]

end EGraphSession

end Caffeine
