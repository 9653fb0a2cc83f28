import Caffeine.Solver.Solver

/-!
# Path conditions in e-graphs

A context keeps its path condition as classes of an e-graph. For a query the graph is simplified and
rebuilt, the list of classes canonicalised, and an expression extracted for every class. What the
interpreter needs of these operations is that they keep the models.
-/

namespace Caffeine

open Assertion List Relation

/-- The e-graph of a context with the list of its assertions. `canonicalize` includes `rebuild`. -/
class PathGraph (G : Type) where
  add : G → Assertion → G
  simplify : G → G
  canonicalize : G → G
  assertions : G → List Assertion
  extract : G → Assertion → Assertion

namespace PathGraph

variable {G : Type} [PathGraph G] {allowed : Assertion → Prop} {g g' : G} {a : Assertion}
  {σ : Assignment}

/-- What becomes of a graph to which only some assertions are added. -/
inductive Step (allowed : Assertion → Prop) : G → G → Prop
  | add (g : G) {a : Assertion} (h : allowed a) : Step allowed g (add g a)
  | simplify (g : G) : Step allowed g (simplify g)
  | canonicalize (g : G) : Step allowed g (canonicalize g)

structure Faithful (allowed : Assertion → Prop) (g : G) : Prop where
  add : ∀ a, allowed a → ∀ σ,
    Models σ (assertions (add g a)) ↔ Models σ (assertions g) ∧ a.Holds σ
  simplify : ∀ σ, Models σ (assertions (simplify g)) ↔ Models σ (assertions g)
  canonicalize : ∀ σ, Models σ (assertions (canonicalize g)) ↔ Models σ (assertions g)
  extract : ∀ a σ, (extract g a).Holds σ ↔ a.Holds σ

/-- From the graph on, simplification, canonicalisation and extraction keep the models, and an
insertion adds what is inserted. -/
def Keeps (allowed : Assertion → Prop) (g : G) : Prop :=
  ∀ g', ReflTransGen (Step allowed) g g' → Faithful allowed g'

theorem Keeps.faithful (h : Keeps allowed g) : Faithful allowed g := h g .refl

theorem Keeps.step (h : Keeps allowed g) (hstep : Step allowed g g') : Keeps allowed g' :=
  fun _ hr => h _ (hr.head hstep)

/-- The plain list of assertions, without an e-graph. -/
instance : PathGraph (List Assertion) where
  add as a := if a ∈ as then as else as ++ [a]
  simplify := id
  canonicalize := id
  assertions := id
  extract _ a := a

theorem keeps_list (allowed : Assertion → Prop) (as : List Assertion) : Keeps allowed as :=
  fun as _ => {
    add := fun a _ σ => by
      change Models σ (if a ∈ as then as else as ++ [a]) ↔ Models σ as ∧ a.Holds σ
      split_ifs with h
      · exact ⟨fun hm => ⟨hm, hm a h⟩, And.left⟩
      · rw [models_append, models_singleton]
    simplify := fun _ => Iff.rfl
    canonicalize := fun _ => Iff.rfl
    extract := fun _ _ => Iff.rfl }

end PathGraph

end Caffeine
