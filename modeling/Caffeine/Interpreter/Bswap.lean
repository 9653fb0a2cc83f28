import Caffeine.Memory.AllocationSound

/-!
# Byte swaps

`llvm.bswap` takes an integer apart into its bytes and puts them together again in reverse order.
-/

namespace Caffeine

open Operation OperationSimplifier LittleEndian List

variable {n k : Nat}

/-- `swap_single`; the loop that puts the bytes together is that of `Allocation::read`. -/
def swapSingle (cache : OperationCache) (value : Operation) (bitwidth : Nat) :
    Option Operation := do
  let bytes ← (List.range (bitwidth / 8)).mapM fun i => do
    createTrunc cache (.int 8) (← createBinaryLiteral cache .lshr value (i * 8))
  Allocation.assemble cache bitwidth bytes.reverse

theorem eq_of_bytes {x y : BitVec n} (hn : n ≤ 8 * k) (h : ∀ i < k, byte x i = byte y i) :
    x = y := by
  rw [← combine_byte x hn (Nat.le_refl n), ← combine_byte y hn (Nat.le_refl n)]
  refine congrArg _ (BitVec.eq_of_getLsbD_eq fun j hj => ?_)
  rw [getLsbD_combine _ _ hj, getLsbD_combine _ _ hj, h (j / 8) (by omega)]

theorem swapSingle_returns (cache : OperationCache) {σ : Assignment} {value : Operation}
    {x : BitVec n} (hx : Denotes σ value x) (hk : 1 < k) (hn : n = 8 * k) :
    Returns σ (swapSingle cache value n) (combine n (fun i => byte x (k - 1 - i)) k) := by
  obtain ⟨ops, hops, hall⟩ : ∃ ops, (List.range k).mapM (fun i => do
      createTrunc cache (.int 8) (← createBinaryLiteral cache .lshr value (i * 8))) = some ops ∧
      Forall₂ (fun i op => Denotes σ op (byte x i)) (List.range k) ops := by
    refine mapM_exists fun i hi => ?_
    have hlt := mem_range.mp hi
    obtain ⟨shifted, op, hshd, hop, hd⟩ :=
      Allocation.createByte_returns cache (m := n) (v := x) (by rwa [BitVec.setWidth_eq])
        (fun h => absurd h (by omega)) (show 8 * (i + 1) ≤ n by omega)
    exact ⟨op, by rw [hshd, some_bind, hop], hd⟩
  have hrev : Forall₂ (fun i op => Denotes σ op (byte x (k - 1 - i))) (List.range k)
      ops.reverse := by
    rw [← forall₂_reverse_iff, range_eq_range', reverse_range', forall₂_map_left_iff] at hall
    simpa using hall
  rw [swapSingle, show n / 8 = k by omega, hops, some_bind]
  exact Allocation.assemble_returns hrev (by omega) hn.ge fun h => absurd h (by omega)

/-- At every positive multiple of 16 the swap reverses the bytes, and swapping twice gives the
integer back. -/
theorem swapSingle_reverses (cache : OperationCache) (σ : Assignment) (n : Nat) (hn : 0 < n)
    (h16 : 16 ∣ n) (value : Operation) (x : BitVec n) (hx : Denotes σ value x) :
    ∃ o, ∃ y : BitVec n, swapSingle cache value n = some o ∧ Denotes σ o y ∧
      (∀ i < n / 8, byte y i = byte x (n / 8 - 1 - i)) ∧
      ∃ o', swapSingle cache o n = some o' ∧ Denotes σ o' x := by
  have hbytes : ∀ (z : BitVec n) i, i < n / 8 →
      byte (combine n (fun i => byte z (n / 8 - 1 - i)) (n / 8)) i = byte z (n / 8 - 1 - i) :=
    fun z i hi => byte_combine _ hi (by omega)
  obtain ⟨o, ho, hd⟩ := swapSingle_returns cache hx (k := n / 8) (by omega) (by omega)
  obtain ⟨o', ho', hd'⟩ := swapSingle_returns cache hd (k := n / 8) (by omega) (by omega)
  have htwice : combine n (fun i => byte (combine n (fun i => byte x (n / 8 - 1 - i)) (n / 8))
      (n / 8 - 1 - i)) (n / 8) = x := by
    refine eq_of_bytes (k := n / 8) (by omega) fun i hi => ?_
    rw [hbytes _ i hi, hbytes x _ (by omega), show n / 8 - 1 - (n / 8 - 1 - i) = i by omega]
  exact ⟨o, _, ho, hd, hbytes x, o', ho', htwice ▸ hd'⟩

theorem swapSingle_reverses_short : ∃ o, ∃ y : BitVec 16,
    swapSingle .full (constantInt ⟨16, 0x1234#16⟩) 16 = some o ∧ Denotes default o y ∧
      byte y 0 = 0x12#8 := by
  obtain ⟨o, y, ho, hd, hbytes, -⟩ := swapSingle_reverses .full default 16 (by decide) (by decide)
    (constantInt ⟨16, 0x1234#16⟩) _ (denotes_constantInt _)
  exact ⟨o, y, ho, hd, hbytes 0 (by decide)⟩

end Caffeine
