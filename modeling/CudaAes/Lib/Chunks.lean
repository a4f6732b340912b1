import CudaAes.Lib.Run

/-!
# Cutting a range into chunks

The rounding operations on `usize`, and the chunks of equal size, but for the last, that
`par_chunks` and a grid of threads cut `0 .. n` into. However the chunks are ordered, their indices
are those of the whole range, each once (`perm_flatMap_chunkRange`).
-/

namespace Rust

def divCeil (n m : ℕ) : Except Fault ℕ :=
  if m = 0 then .error .divideByZero else .ok (n / m + if n % m = 0 then 0 else 1)

def nextMultipleOf (n m : ℕ) : Except Fault ℕ :=
  if m = 0 then .error .divideByZero else .ok (if n % m = 0 then n else n + (m - n % m))

/-- The indices of chunk `c`, when `0 .. n` is cut into chunks of `size`. -/
def chunkRange (n size c : ℕ) : List ℕ := List.range' (c * size) (min size (n - c * size))

/-! ## Rounding up -/

theorem divCeil_eq {m : ℕ} (hm : 0 < m) (n : ℕ) : divCeil n m = .ok (n ⌈/⌉ m) := by
  have hdiv := Nat.div_add_mod n m
  have hmod := Nat.mod_lt n hm
  unfold divCeil
  rw [if_neg hm.ne']
  refine congrArg Except.ok (le_antisymm ?_ ?_)
  · split
    · exact (Nat.div_le_div_right (by omega)).trans_eq (Nat.ceilDiv_eq_add_pred_div n m).symm
    · rw [Nat.ceilDiv_eq_add_pred_div, Nat.le_div_iff_mul_le hm, Nat.succ_mul, Nat.mul_comm (n / m) m]
      omega
  · rw [ceilDiv_le_iff_le_mul hm, Nat.mul_add]
    split
    · omega
    · omega

/-- `next_multiple_of` is positive on positive numbers and rounds up. -/
theorem nextMultipleOf_ok {n m : ℕ} (hm : 0 < m) :
    ∃ k, nextMultipleOf n m = .ok k ∧ n ≤ k ∧ k < n + m ∧ m ∣ k := by
  have hmod := Nat.mod_lt n hm
  unfold nextMultipleOf
  rw [if_neg hm.ne']
  refine ⟨_, rfl, ?_⟩
  split
  · exact ⟨le_rfl, by omega, Nat.dvd_of_mod_eq_zero (by assumption)⟩
  · refine ⟨by omega, by omega, n / m + 1, ?_⟩
    have hdiv := Nat.div_add_mod n m
    rw [Nat.mul_succ]
    omega

/-! ## The chunks -/

theorem range_append_range' (i n : ℕ) : List.range i ++ List.range' i n = List.range (i + n) := by
  rw [List.range_eq_range', List.range_eq_range', ← List.range'_append_1, Nat.zero_add]

/-- Consecutive ranges of equal length are one range. -/
theorem flatMap_range' (a m n : ℕ) :
    (List.range m).flatMap (fun k => List.range' (a + k * n) n) = List.range' a (m * n) := by
  induction m with
  | zero => simp
  | succ m ih => rw [List.range_succ, List.flatMap_append, ih, List.flatMap_singleton, List.range'_append_1, Nat.succ_mul]

theorem lt_of_lt_ceilDiv {n size c : ℕ} (hsize : 0 < size) (h : c < n ⌈/⌉ size) : c * size < n := by
  by_contra hle
  have := (ceilDiv_le_iff_le_mul (c := c) hsize).mpr ((not_lt.mp hle).trans_eq (Nat.mul_comm c size))
  omega

theorem mem_chunkRange {n size c i : ℕ} (hsize : 0 < size) : i ∈ chunkRange n size c ↔ i < n ∧ i / size = c := by
  unfold chunkRange
  rw [List.mem_range'_1, Nat.div_eq_iff hsize]
  omega

/-- The first `m` chunks are the first `m * size` indices. -/
theorem flatMap_chunkRange (n size m : ℕ) :
    (List.range m).flatMap (chunkRange n size) = List.range (min n (m * size)) := by
  induction m with
  | zero => simp
  | succ m ih =>
    rw [List.range_succ, List.flatMap_append, ih, List.flatMap_singleton, chunkRange, Nat.succ_mul]
    rcases Nat.le_total n (m * size) with h | h
    · rw [show n - m * size = 0 by omega, Nat.min_zero, List.range'_zero, List.append_nil]
      congr 1
      omega
    · rw [Nat.min_eq_right h, range_append_range']
      congr 1
      omega

/-- However the chunks are ordered, they hold every index once. -/
theorem perm_flatMap_chunkRange {n size m : ℕ} {order : List ℕ} (horder : order.Perm (List.range m))
    (hm : n ≤ m * size) : (order.flatMap (chunkRange n size)).Perm (List.range n) := by
  have := horder.flatMap_right (chunkRange n size)
  rwa [flatMap_chunkRange, Nat.min_eq_left hm] at this

/-! ## Full chunks -/

theorem length_chunkRange (n size c : ℕ) : (chunkRange n size c).length = min size (n - c * size) := by
  rw [chunkRange, List.length_range']

/-- A chunk is its own indices, shifted to where it starts. -/
theorem map_range_chunkRange (n size c : ℕ) :
    (List.range (chunkRange n size c).length).map (c * size + ·) = chunkRange n size c := by
  rw [length_chunkRange, ← List.range'_eq_map_range, chunkRange]

/-- Every chunk but the last is full. -/
theorem length_chunkRange_of_lt {n size c : ℕ} (hsize : 0 < size) (h : c + 1 < n ⌈/⌉ size) :
    (chunkRange n size c).length = size := by
  have hnext := lt_of_lt_ceilDiv hsize h
  rw [Nat.succ_mul] at hnext
  rw [length_chunkRange]
  omega

/-- Chunks of at least the share of a thread are no more than the threads. -/
theorem ceilDiv_le_of_ceilDiv_le {n size threads : ℕ} (hsize : 0 < size) (hthreads : 0 < threads)
    (h : n ⌈/⌉ threads ≤ size) : n ⌈/⌉ size ≤ threads := by
  rw [ceilDiv_le_iff_le_mul hthreads] at h
  rwa [ceilDiv_le_iff_le_mul hsize, Nat.mul_comm]

theorem sum_chunkRange_mod {size g : ℕ} (hg : g ∣ size) (n m : ℕ) :
    ((List.range m).map fun c => (chunkRange n size c).length % g).sum = min n (m * size) % g := by
  induction m with
  | zero => simp
  | succ m ih =>
    rw [List.range_succ, List.map_append, List.sum_append, ih, List.map_singleton, List.sum_singleton, length_chunkRange,
      Nat.succ_mul]
    rcases Nat.le_total n (m * size) with h | h
    · rw [Nat.min_eq_left h, Nat.min_eq_left (show n ≤ m * size + size by omega), Nat.sub_eq_zero_of_le h, Nat.min_zero,
        Nat.zero_mod, Nat.add_zero]
    · obtain ⟨d, hd⟩ : g ∣ m * size := hg.mul_left m
      rw [Nat.min_eq_right h, show min n (m * size + size) = m * size + min size (n - m * size) by omega, hd,
        Nat.mul_mod_right, Nat.zero_add, Nat.mul_add_mod]

/-- The remainders of the chunks add up to the remainder of the whole, if a full chunk leaves none. -/
theorem sum_chunkRange_mod_eq {n size g : ℕ} (hsize : 0 < size) (hg : g ∣ size) :
    ((List.range (n ⌈/⌉ size)).map fun c => (chunkRange n size c).length % g).sum = n % g := by
  have hcover : n ≤ n ⌈/⌉ size * size := by
    rw [Nat.mul_comm]
    exact le_smul_ceilDiv hsize
  rw [sum_chunkRange_mod hg, Nat.min_eq_left hcover]

end Rust
