import Caffeine.Memory.BumpAllocator
import Caffeine.Util.BitVec
import Caffeine.Util.Runs

/-!
# Blocks of the concrete allocator

The cursor of a `BumpAllocator` moves from the start of its range to the end, and wraps to zero at
the end, from where no request succeeds. So the blocks of a run lie one after the other, unless
adding eight bytes makes a size wrap.
-/

namespace Caffeine

open List
open Option hiding guard_false guard_true

namespace BumpAllocator

structure Block (n : Nat) where
  address : BitVec n
  size : BitVec n
  align : BitVec n
deriving DecidableEq

/-- An allocator with the blocks it has returned and the addresses of those not deallocated. -/
structure Run (n : Nat) where
  allocator : BumpAllocator n
  blocks : List (Block n)
  live : List (BitVec n)

inductive Call (n : Nat) where
  | allocate (size align : BitVec n)
  | deallocate (addr : BitVec n)

variable {n : Nat}

def start (n : Nat) : Run n := ⟨create (BitVec.intMin n) (BitVec.intMin n), [], []⟩

def step (r : Run n) : Call n → Option (Run n)
  | .allocate size align => (r.allocator.allocate size align).map fun result =>
    match result with
    | (some addr, allocator) =>
      ⟨allocator, r.blocks ++ [⟨addr, size, align⟩], r.live ++ [addr]⟩
    | (none, allocator) => { r with allocator := allocator }
  | .deallocate addr => (r.allocator.deallocate addr).map fun allocator =>
    { r with allocator := allocator, live := r.live.erase addr }

def ValidAlign (align : BitVec n) : Prop := align = 0 ∨ isPowerOf2 align = true

/-- The size and the eight bytes after the block are a number of the width. -/
def Call.Fits : Call n → Prop
  | .allocate size _ => size.toNat + 8 < 2 ^ n
  | .deallocate _ => True

structure Block.Placed (b : Block n) : Prop where
  aligned : b.align ≠ 0 → b.align.toNat ∣ b.address.toNat
  eight : 8 ∣ b.address.toNat
  base_le : (BitVec.intMin n).toNat ≤ b.address.toNat
  le_end : b.address.toNat + b.size.toNat ≤ (BitVec.intMin n).toNat + (BitVec.intMin n).toNat

def Block.stop (b : Block n) : Nat := b.address.toNat + b.size.toNat + 8

/-! ### Alignments -/

theorem toNat_twoPow {k : Nat} (hk : k < n) : (BitVec.twoPow n k).toNat = 2 ^ k := by
  rw [BitVec.toNat_twoPow, Nat.mod_eq_of_lt (Nat.pow_lt_pow_right (by decide) hk)]

theorem toNat_eight (hn : 8 ≤ n) : (8 : BitVec n).toNat = 8 := by
  have hpow : 2 ^ 8 ≤ 2 ^ n := Nat.pow_le_pow_right (by decide) hn
  exact Nat.mod_eq_of_lt (lt_of_lt_of_le (by decide) hpow)

theorem raise_eq (hn : 8 ≤ n) {align : BitVec n} (h : ValidAlign align) :
    ∃ k, 3 ≤ k ∧ k < n ∧ raise align = some (BitVec.twoPow n k) ∧
      (align ≠ 0 → align.toNat ∣ 2 ^ k) := by
  have height : (8 : BitVec n) = BitVec.twoPow n 3 := by
    apply BitVec.eq_of_toNat_eq
    rw [toNat_twoPow (by omega), toNat_eight hn]
    rfl
  have hsmall : align.toNat < 8 → raise align = some (BitVec.twoPow n 3) := fun hlt => by
    rw [raise, if_pos hlt, if_pos (by omega), height]
  rcases h with rfl | h
  · exact ⟨3, le_rfl, by omega, hsmall (by simp), fun hne => absurd rfl hne⟩
  · obtain ⟨k, hk, heq⟩ := List.any_eq_true.mp h
    obtain rfl := of_decide_eq_true heq
    have hk := mem_range.mp hk
    by_cases hlt : k < 3
    · refine ⟨3, le_rfl, by omega, hsmall ?_, fun _ => ?_⟩
      · rw [toNat_twoPow hk]
        exact Nat.pow_lt_pow_right (by decide) hlt
      · rw [toNat_twoPow hk]
        exact pow_dvd_pow 2 hlt.le
    · refine ⟨k, by omega, hk, ?_, fun _ => by rw [toNat_twoPow hk]⟩
      have hpow : 2 ^ 3 ≤ 2 ^ k := Nat.pow_le_pow_right (by decide) (Nat.le_of_not_lt hlt)
      rw [raise, if_neg]
      rw [toNat_twoPow hk]
      omega

theorem toNat_intMin (hn : 0 < n) : (BitVec.intMin n).toNat = 2 ^ (n - 1) := by
  rw [BitVec.toNat_intMin, Nat.mod_eq_of_lt (Nat.pow_lt_pow_right (by decide) (by omega))]

theorem two_mul_base (hn : 0 < n) : 2 ^ (n - 1) + 2 ^ (n - 1) = 2 ^ n := by
  rw [← Nat.two_mul, ← Nat.pow_succ', Nat.succ_eq_add_one, Nat.sub_add_cancel hn]

/-! ### One request -/

/-- The cursor, as a number up to the end of the range, which is represented by zero. -/
structure At (b : BumpAllocator n) (c : Nat) : Prop where
  base : b.base = BitVec.intMin n
  size : b.size = BitVec.intMin n
  current : b.current.toNat = c % 2 ^ n
  base_le : 2 ^ (n - 1) ≤ c
  le_end : c ≤ 2 ^ n

def roundUp (c k : Nat) : Nat := (c + (2 ^ k - 1)) / 2 ^ k * 2 ^ k

theorem le_roundUp (c k : Nat) : c ≤ roundUp c k := by
  have hpos : 0 < 2 ^ k := Nat.two_pow_pos k
  have hdiv := Nat.div_add_mod (c + (2 ^ k - 1)) (2 ^ k)
  have hmod := Nat.mod_lt (c + (2 ^ k - 1)) hpos
  rw [roundUp, Nat.mul_comm]
  omega

theorem roundUp_le {c k : Nat} (hk : k < n) (hc : c ≤ 2 ^ n) : roundUp c k ≤ 2 ^ n := by
  obtain ⟨m, hm⟩ : 2 ^ k ∣ 2 ^ n := pow_dvd_pow 2 hk.le
  have hpos : 0 < 2 ^ k := Nat.two_pow_pos k
  have hle : (c + (2 ^ k - 1)) / 2 ^ k ≤ m := by
    rw [Nat.div_le_iff_le_mul_add_pred hpos]
    rw [hm] at hc
    omega
  rw [roundUp, hm, Nat.mul_comm (2 ^ k)]
  exact Nat.mul_le_mul_right _ hle

theorem toNat_room (hn : 0 < n) {p : Nat} {pos : BitVec n} (hpos : pos.toNat = p % 2 ^ n)
    (hbase : 2 ^ (n - 1) ≤ p) (hend : p ≤ 2 ^ n) :
    (BitVec.intMin n - (pos - BitVec.intMin n)).toNat = 2 ^ n - p := by
  have hmin := toNat_intMin hn
  have htwo := two_mul_base hn
  rcases Nat.lt_or_eq_of_le hend with hlt | rfl
  · rw [Nat.mod_eq_of_lt hlt] at hpos
    have hdiff : (pos - BitVec.intMin n).toNat = p - 2 ^ (n - 1) := by
      rw [BitVec.toNat_sub_of_le (by rw [BitVec.le_def]; omega), hpos, hmin]
    rw [BitVec.toNat_sub_of_le (by rw [BitVec.le_def]; omega), hdiff, hmin]
    omega
  · have hzero : pos = 0 := BitVec.eq_of_toNat_eq (by rw [hpos, Nat.mod_self]; rfl)
    rw [hzero, BitVec.ofNat_eq_ofNat, BitVec.zero_sub, BitVec.neg_intMin, BitVec.sub_self,
      BitVec.toNat_zero, Nat.sub_self]

theorem allocate_cases (hn : 8 ≤ n) {b : BumpAllocator n} {c : Nat} (hb : At b c)
    {size align : BitVec n} (hsize : size.toNat + 8 < 2 ^ n) (halign : ValidAlign align) :
    ∃ k, 3 ≤ k ∧ (align ≠ 0 → align.toNat ∣ 2 ^ k) ∧
      ((∃ b', b.allocate size align = some (none, b') ∧ At b' (roundUp c k) ∧
        b'.allocations = b.allocations) ∨
      ∃ addr b', b.allocate size align = some (some addr, b') ∧ addr.toNat = roundUp c k ∧
        roundUp c k + size.toNat + 8 ≤ 2 ^ n ∧ At b' (roundUp c k + size.toNat + 8) ∧
        b'.allocations = insert addr b.allocations) := by
  obtain ⟨k, hk3, hk, hraise, hdvd⟩ := raise_eq hn halign
  refine ⟨k, hk3, hdvd, ?_⟩
  have hle := le_roundUp c k
  have hend := roundUp_le hk hb.le_end
  have hbase := hb.base_le
  set pos := (b.current + (BitVec.twoPow n k - 1)) &&& ~~~(BitVec.twoPow n k - 1) with hposdef
  have hpos : pos.toNat = roundUp c k % 2 ^ n := BitVecFacts.toNat_roundUp hk hb.current
  have hroom : (b.size - (pos - b.base)).toNat = 2 ^ n - roundUp c k := by
    rw [hb.size, hb.base]
    exact toNat_room (by omega) hpos (by omega) hend
  have height : (size + 8).toNat = size.toNat + 8 := by
    rw [BitVec.toNat_add, toNat_eight hn, Nat.mod_eq_of_lt hsize]
  have hgd : align = 0 ∨ isPowerOf2 align = true := halign
  by_cases hfull : b.size - (pos - b.base) < size + 8
  · refine .inl ⟨{ b with current := pos }, ?_, ⟨hb.base, hb.size, hpos, by omega, hend⟩, rfl⟩
    simp only [allocate, hgd, hraise, guard_true, some_bind, ← hposdef, if_pos hfull]
    rfl
  · have hfits : roundUp c k + size.toNat + 8 ≤ 2 ^ n := by
      rw [BitVec.lt_def, hroom, height] at hfull
      omega
    have haddr : pos.toNat = roundUp c k := by rw [hpos, Nat.mod_eq_of_lt (by omega)]
    refine .inr ⟨pos, ⟨insert pos b.allocations, pos + (size + 8), b.base, b.size⟩, ?_, haddr,
      hfits, ⟨hb.base, hb.size, ?_, by omega, hfits⟩, rfl⟩
    · simp only [allocate, hgd, hraise, guard_true, some_bind, ← hposdef, if_neg hfull]
      rfl
    · change (pos + (size + 8)).toNat = _
      rw [BitVec.toNat_add, height, haddr, Nat.add_assoc]

/-! ### Runs -/

structure Sound (r : Run n) : Prop where
  cursor : ∃ c, At r.allocator c ∧ ∀ b ∈ r.blocks, b.stop ≤ c
  placed : ∀ b ∈ r.blocks, b.Placed
  apart : r.blocks.Pairwise fun b b' => b.stop ≤ b'.address.toNat
  returned : ∀ addr ∈ r.live, ∃ b ∈ r.blocks, b.address = addr
  live : ∀ addr ∈ r.live, addr ∈ r.allocator.allocations
  nodup : r.live.Nodup

theorem start_sound (hn : 8 ≤ n) : Sound (start n) where
  cursor := by
    have htwo := two_mul_base (n := n) (by omega)
    have hpos := Nat.two_pow_pos (n - 1)
    refine ⟨2 ^ (n - 1), ⟨rfl, rfl, ?_, le_rfl, by omega⟩, nofun⟩
    rw [Nat.mod_eq_of_lt (by omega)]
    exact toNat_intMin (by omega)
  placed := nofun
  apart := Pairwise.nil
  returned := nofun
  live := nofun
  nodup := nodup_nil

theorem eight_dvd_roundUp {c k : Nat} (hk : 3 ≤ k) : 8 ∣ roundUp c k :=
  (pow_dvd_pow 2 hk).trans (Nat.dvd_mul_left _ _)

theorem Sound.allocate (hn : 8 ≤ n) {r r' : Run n} {size align : BitVec n} (hr : Sound r)
    (hfits : size.toNat + 8 < 2 ^ n) (h : step r (.allocate size align) = some r') : Sound r' := by
  obtain ⟨result, hres, rfl⟩ := map_eq_some_iff.mp h
  have halign : ValidAlign align := by
    by_contra hinvalid
    have hgd : ¬ (align = 0 ∨ isPowerOf2 align = true) := hinvalid
    simp only [BumpAllocator.allocate, hgd, guard_false, bind_eq_bind] at hres
    cases hres
  obtain ⟨c, hc, hstop⟩ := hr.cursor
  have hle := le_roundUp c
  obtain ⟨k, hk, hdvd, ⟨b', hb', hat, hallocs⟩ | ⟨addr, b', hb', haddr, hend, hat, hallocs⟩⟩ :=
    allocate_cases hn hc hfits halign
  · cases hb'.symm.trans hres
    refine ⟨⟨_, hat, fun b hb => (hstop b hb).trans (hle k)⟩, hr.placed, hr.apart, hr.returned,
      ?_, hr.nodup⟩
    rw [hallocs]
    exact hr.live
  · cases hb'.symm.trans hres
    have hmin := toNat_intMin (n := n) (by omega)
    have htwo := two_mul_base (n := n) (by omega)
    have hbase := hc.base_le
    have hlek := hle k
    refine ⟨⟨_, hat, ?_⟩, ?_, ?_, ?_, ?_, ?_⟩
    · intro b hb
      rcases mem_append.mp hb with hb | hb
      · have := hstop b hb
        omega
      · obtain rfl := mem_singleton.mp hb
        rw [Block.stop, haddr]
    · intro b hb
      rcases mem_append.mp hb with hb | hb
      · exact hr.placed b hb
      · obtain rfl := mem_singleton.mp hb
        refine ⟨fun hne => ?_, ?_, ?_, ?_⟩ <;> rw [haddr]
        · exact (hdvd hne).trans (Nat.dvd_mul_left _ _)
        · exact eight_dvd_roundUp hk
        · omega
        · change roundUp c k + size.toNat ≤ _
          omega
    · rw [pairwise_append]
      refine ⟨hr.apart, pairwise_singleton _ _, fun b hb b' hb' => ?_⟩
      obtain rfl := mem_singleton.mp hb'
      rw [haddr]
      exact (hstop b hb).trans hlek
    · intro a ha
      rcases mem_append.mp ha with ha | ha
      · obtain ⟨b, hb, rfl⟩ := hr.returned a ha
        exact ⟨b, mem_append_left _ hb, rfl⟩
      · obtain rfl := mem_singleton.mp ha
        exact ⟨_, mem_append_right _ (mem_singleton_self _), rfl⟩
    · intro a ha
      rw [hallocs]
      rcases mem_append.mp ha with ha | ha
      · exact Finset.mem_insert_of_mem (hr.live a ha)
      · obtain rfl := mem_singleton.mp ha
        exact Finset.mem_insert_self _ _
    · -- the new block starts after the end of every earlier one, so its address is new
      rw [nodup_append]
      refine ⟨hr.nodup, nodup_singleton _, fun a ha a' ha' => ?_⟩
      obtain rfl := mem_singleton.mp ha'
      rintro rfl
      obtain ⟨b, hb, rfl⟩ := hr.returned a ha
      have := hstop b hb
      rw [Block.stop] at this
      omega

theorem Sound.deallocate {r r' : Run n} {addr : BitVec n} (hr : Sound r)
    (h : step r (.deallocate addr) = some r') : Sound r' := by
  obtain ⟨allocator, hdealloc, rfl⟩ := map_eq_some_iff.mp h
  unfold BumpAllocator.deallocate at hdealloc
  split_ifs at hdealloc
  cases hdealloc
  obtain ⟨c, hc, hstop⟩ := hr.cursor
  refine ⟨⟨c, ⟨hc.base, hc.size, hc.current, hc.base_le, hc.le_end⟩, hstop⟩, hr.placed, hr.apart,
    fun a ha => hr.returned a (mem_of_mem_erase ha), fun a ha => ?_, hr.nodup.erase addr⟩
  obtain ⟨hne, ha⟩ := hr.nodup.mem_erase_iff.mp ha
  exact Finset.mem_erase_of_ne_of_mem hne (hr.live a ha)

theorem run_fits (hn : 8 ≤ n) {calls : List (Call n)} {r : Run n}
    (hfits : ∀ call ∈ calls, call.Fits) (h : Runs.run step (start n) calls = some r) : Sound r := by
  refine Runs.run_invariant (P := fun _ call => call.Fits) (fun r call r' hfit hstep hr => ?_)
    (Runs.along_of_forall hfits) h (start_sound hn)
  cases call with
  | allocate size align => exact hr.allocate hn hfit hstep
  | deallocate addr => exact hr.deallocate hstep

/-- The blocks of a run are aligned, in range and apart, and no call fails an assertion. -/
theorem blocks_separate (hn : 8 ≤ n) (calls : List (Call n)) (r : Run n)
    (hfits : ∀ call ∈ calls, call.Fits) (h : Runs.run step (start n) calls = some r) :
    (∀ b ∈ r.blocks, b.Placed) ∧
    (r.blocks.Pairwise fun b b' => b.address.toNat + b.size.toNat ≤ b'.address.toNat) ∧
    (∀ addr ∈ r.live, ∃ r', step r (.deallocate addr) = some r') ∧
    ∀ size align, ValidAlign align → ∃ r', step r (.allocate size align) = some r' := by
  have hr := run_fits hn hfits h
  refine ⟨hr.placed, hr.apart.imp fun hle => ?_, fun addr haddr => ?_, fun size align halign => ?_⟩
  · rw [Block.stop] at hle
    omega
  · exact ⟨_, by rw [step, BumpAllocator.deallocate, if_pos (hr.live addr haddr)]; rfl⟩
  · obtain ⟨k, -, -, hraise, -⟩ := raise_eq hn halign
    have hgd : align = 0 ∨ isPowerOf2 align = true := halign
    simp only [step, BumpAllocator.allocate, hgd, hraise, guard_true, some_bind]
    split_ifs
    · exact ⟨_, rfl⟩
    · exact ⟨_, rfl⟩

def sampleCalls : List (Call 64) :=
  [.allocate 20 16, .deallocate (BitVec.intMin 64), .allocate 0 0]

theorem blocks_separate_two : ∃ r, Runs.run step (start 64) sampleCalls = some r ∧
    r.blocks.length = 2 ∧ (∀ b ∈ r.blocks, b.Placed) ∧
    r.blocks.Pairwise fun b b' => b.address.toNat + b.size.toNat ≤ b'.address.toNat := by
  obtain ⟨r, hr, hlen⟩ := map_eq_some_iff.mp
    (show (Runs.run step (start 64) sampleCalls).map (fun r => r.blocks.length) = some 2 by
      decide +kernel)
  have hfits : ∀ call ∈ sampleCalls, call.Fits := by
    simp only [sampleCalls, forall_mem_cons, Call.Fits]
    exact ⟨by decide, trivial, by decide, nofun⟩
  obtain ⟨hplaced, hapart, -, -⟩ := blocks_separate (by decide) sampleCalls r hfits hr
  exact ⟨r, hr, hlen, hplaced, hapart⟩

/-- A request for `2 ^ 64 - 1` bytes is taken for one of seven, and the next block lies within the
first. -/
theorem huge_block_overlaps : ∃ r,
    Runs.run step (start 64) [.allocate (-1) 8, .allocate 8 8] = some r ∧
      r.blocks = [⟨0x8000000000000000, -1, 8⟩, ⟨0x8000000000000008, 8, 8⟩] ∧
      ¬ (∀ b ∈ r.blocks, b.Placed) ∧
      ¬ r.blocks.Pairwise fun b b' => b.address.toNat + b.size.toNat ≤ b'.address.toNat := by
  obtain ⟨r, hr, hblks⟩ := map_eq_some_iff.mp
    (show (Runs.run step (start 64) [.allocate (-1) 8, .allocate 8 8]).map (fun r => r.blocks) =
      some [⟨0x8000000000000000, -1, 8⟩, ⟨0x8000000000000008, 8, 8⟩] by decide +kernel)
  refine ⟨r, hr, hblks, fun hplaced => ?_, fun hapart => ?_⟩
  · have hend := (hplaced ⟨0x8000000000000000, -1, 8⟩ (by rw [hblks]; exact mem_cons_self)).le_end
    exact absurd hend (by decide +kernel)
  · rw [hblks] at hapart
    exact absurd (rel_of_pairwise_cons hapart mem_cons_self) (by decide +kernel)

end BumpAllocator

end Caffeine
