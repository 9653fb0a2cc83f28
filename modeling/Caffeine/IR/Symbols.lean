import Caffeine.IR.Typing
import Caffeine.Util.DependsOn

/-!
# The symbols of an expression

The value of an expression without references to e-graph nodes depends on the values of the
symbols that occur in it.
-/

namespace Caffeine

/-- The symbol a payload names, for constants and constant arrays. -/
def OperationData.symbols : OperationData → List Symbol
  | .constant _ s => [s]
  | _ => []

namespace Operation

/-- `calc_contained_constants`: the symbols of the constants and constant arrays. -/
def symbols (o : Operation) : List Symbol :=
  o.fold fun d operands => d.symbols ++ operands.flatten

theorem symbols_mk (d : OperationData) (ops : List Operation) :
    (mk d ops).symbols = d.symbols ++ (ops.map symbols).flatten := fold_mk _ d ops

theorem mem_symbols_mk {d : OperationData} {ops : List Operation} {s : Symbol} :
    s ∈ (mk d ops).symbols ↔ s ∈ d.symbols ∨ ∃ o ∈ ops, s ∈ o.symbols := by
  simp [symbols_mk]

end Operation

abbrev SymbolValue := (∀ w, BitVec w) × (∀ w, BitVec w → BitVec 8)

namespace Assignment

def env (σ : Assignment) (s : Symbol) : SymbolValue := (σ.int s, σ.array s)

def ofEnv (env : Symbol → SymbolValue) : Assignment where
  int s := (env s).1
  array s := (env s).2

end Assignment

theorem Semantics.apply_congr {σ τ : Assignment} {d : OperationData} (hd : d.interpreted = true)
    (h : ∀ s ∈ d.symbols, σ.env s = τ.env s) (vs : List Val) : apply σ d vs = apply τ d vs := by
  have hsym : ∀ {t s}, d = .constant t s → σ.env s = τ.env s := by
    rintro t s rfl
    exact h s List.mem_cons_self
  unfold apply
  split
  case h_1 _ w s =>
    have hint : σ.int s = τ.int s := congrArg Prod.fst (hsym rfl)
    rw [hint]
  case h_2 _ w s =>
    have harr : σ.array s = τ.array s := congrArg Prod.snd (hsym rfl)
    rw [harr]
  case h_4 => cases hd
  all_goals rfl

theorem Operation.WellTyped.eval_congr {σ τ : Assignment} {o : Operation}
    (ho : o.Interpreted) (h : ∀ s ∈ o.symbols, σ.env s = τ.env s) :
    o.eval σ = o.eval τ := by
  induction o using Operation.induct with
  | mk d ops ih =>
    obtain ⟨hd, -, hops⟩ := wellTyped_mk.mp ho
    have hvals : ops.map (eval σ) = ops.map (eval τ) := List.map_congr_left fun o hmem =>
      ih o hmem (hops o hmem) fun s hs => h s (mem_symbols_mk.mpr (.inr ⟨o, hmem, hs⟩))
    rw [eval_mk, eval_mk, hvals]
    exact Semantics.apply_congr hd (fun s hs => h s (mem_symbols_mk.mpr (.inl hs))) _

end Caffeine
