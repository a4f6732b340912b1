import Mathlib

/-!
# Counter blocks

Two ways to number the blocks of a message from an initial counter block of `u + m` bits: the
incrementing function of SP 800-38A on the low `m` bits (`inc`), and addition on the whole block. They
agree up to the block at which the low bits wrap around for the first time, and differ there. The values
that the low bits take are a run on a circle (`values`), and two runs are disjoint if and only if neither
reaches the start of the other (`disjoint_values`).
-/

namespace Counter

variable {u m : ℕ}

/-- Add one to the low `m` bits, modulo `2 ^ m`; the upper bits stay. -/
def inc (u m : ℕ) (x : BitVec (u + m)) : BitVec (u + m) := x.extractLsb' m u ++ (x.extractLsb' 0 m + 1#m)

theorem iterate_inc (x : BitVec (u + m)) (i : ℕ) :
    (inc u m)^[i] x = x.extractLsb' m u ++ (x.extractLsb' 0 m + BitVec.ofNat m i) := by
  induction i with
  | zero => rw [BitVec.add_zero, BitVec.extractLsb'_append_extractLsb', Function.iterate_zero_apply]
  | succ i ih =>
    rw [Function.iterate_succ_apply', ih, inc, BitVec.extractLsb'_append_eq_left, BitVec.extractLsb'_append_eq_right,
      BitVec.add_assoc, ← BitVec.ofNat_add]

theorem toNat_append (a : BitVec u) (b : BitVec m) : (a ++ b).toNat = a.toNat * 2 ^ m + b.toNat := by
  rw [BitVec.toNat_append, ← Nat.shiftLeft_add_eq_or_of_lt b.isLt, Nat.shiftLeft_eq]

theorem append_add_ofNat (a : BitVec u) (b : BitVec m) (i : ℕ) :
    (a ++ b + BitVec.ofNat (u + m) i).toNat = (a.toNat * 2 ^ m + (b.toNat + i)) % 2 ^ (u + m) := by
  rw [BitVec.toNat_add, BitVec.toNat_ofNat, Nat.add_mod_mod, toNat_append, Nat.add_assoc]

/-- Before the low bits wrap around, incrementing them is addition on the whole block. -/
theorem iterate_inc_eq_add (x : BitVec (u + m)) {i : ℕ} (h : (x.extractLsb' 0 m).toNat + i < 2 ^ m) :
    (inc u m)^[i] x = x + BitVec.ofNat (u + m) i := by
  have hhigh := (x.extractLsb' m u).isLt
  have hfit : (x.extractLsb' m u).toNat * 2 ^ m + ((x.extractLsb' 0 m).toNat + i) < 2 ^ (u + m) := by
    rw [Nat.pow_add]
    calc (x.extractLsb' m u).toNat * 2 ^ m + ((x.extractLsb' 0 m).toNat + i)
        < ((x.extractLsb' m u).toNat + 1) * 2 ^ m := by rw [Nat.succ_mul]; omega
      _ ≤ 2 ^ u * 2 ^ m := Nat.mul_le_mul_right _ hhigh
  apply BitVec.eq_of_toNat_eq
  nth_rewrite 2 [← BitVec.extractLsb'_append_extractLsb' (x := x)]
  rw [iterate_inc, append_add_ofNat, toNat_append, BitVec.toNat_add, BitVec.toNat_ofNat, Nat.add_mod_mod,
    Nat.mod_eq_of_lt h, Nat.mod_eq_of_lt hfit]

/-- At the first block past the wrap the addition carries into the upper bits. -/
theorem iterate_inc_ne_add (hu : 0 < u) (x : BitVec (u + m)) {i : ℕ}
    (h : (x.extractLsb' 0 m).toNat + i = 2 ^ m) : (inc u m)^[i] x ≠ x + BitVec.ofNat (u + m) i := by
  have hhigh := (x.extractLsb' m u).isLt
  have htwo : 2 ≤ 2 ^ u := Nat.le_self_pow hu.ne' 2
  intro heq
  have hnat := congrArg BitVec.toNat heq
  nth_rewrite 2 [← BitVec.extractLsb'_append_extractLsb' (x := x)] at hnat
  rw [iterate_inc, append_add_ofNat, toNat_append, BitVec.toNat_add, BitVec.toNat_ofNat, Nat.add_mod_mod, h,
    Nat.mod_self, Nat.add_zero, ← Nat.succ_mul, Nat.pow_add, Nat.mul_mod_mul_right] at hnat
  have hcarry : (x.extractLsb' m u).toNat = ((x.extractLsb' m u).toNat + 1) % 2 ^ u :=
    Nat.eq_of_mul_eq_mul_right (Nat.two_pow_pos m) hnat
  rcases Nat.lt_or_ge ((x.extractLsb' m u).toNat + 1) (2 ^ u) with hlt | hge
  · rw [Nat.mod_eq_of_lt hlt] at hcarry
    omega
  · rw [show (x.extractLsb' m u).toNat + 1 = 2 ^ u by omega, Nat.mod_self] at hcarry
    omega

/-! ## Runs of a counter -/

/-- The values of an `m`-bit counter over `n` blocks from `c`. -/
def values (c : BitVec m) (n : ℕ) : List (BitVec m) := (List.range n).map fun i => c + BitVec.ofNat m i

theorem mem_values {c x : BitVec m} {n : ℕ} : x ∈ values c n ↔ (x - c).toNat < n := by
  unfold values
  rw [List.mem_map]
  constructor
  · intro ⟨i, hi, hx⟩
    rw [← hx, BitVec.add_comm, BitVec.add_sub_cancel, BitVec.toNat_ofNat]
    exact (Nat.mod_le i _).trans_lt (List.mem_range.mp hi)
  · intro hlt
    refine ⟨(x - c).toNat, List.mem_range.mpr hlt, ?_⟩
    rw [BitVec.ofNat_toNat, BitVec.setWidth_eq, BitVec.add_comm, BitVec.sub_add_cancel]

/-- A counter comes back to a value after `2 ^ m` blocks, and no earlier. -/
theorem nodup_values (c : BitVec m) (n : ℕ) : (values c n).Nodup ↔ n ≤ 2 ^ m := by
  have heq : ∀ i j, c + BitVec.ofNat m i = c + BitVec.ofNat m j ↔ i % 2 ^ m = j % 2 ^ m := by
    intro i j
    rw [BitVec.add_right_inj, ← BitVec.toNat_inj, BitVec.toNat_ofNat, BitVec.toNat_ofNat]
  unfold values
  rw [List.nodup_map_iff_inj_on List.nodup_range]
  constructor
  · intro hinj
    by_contra hlong
    have hsame := hinj 0 (List.mem_range.mpr (Nat.zero_lt_of_lt (not_le.mp hlong))) (2 ^ m) (List.mem_range.mpr (not_le.mp hlong))
      ((heq _ _).mpr (by rw [Nat.zero_mod, Nat.mod_self]))
    exact absurd hsame.symm (Nat.two_pow_pos m).ne'
  · intro hn i hi j hj hij
    have hmod := (heq i j).mp hij
    rwa [Nat.mod_eq_of_lt ((List.mem_range.mp hi).trans_le hn),
      Nat.mod_eq_of_lt ((List.mem_range.mp hj).trans_le hn)] at hmod

/-- **Two runs of a counter are disjoint** if and only if neither reaches the start of the other. -/
theorem disjoint_values (c c' : BitVec m) (n n' : ℕ) :
    (values c n).Disjoint (values c' n') ↔ n = 0 ∨ n' = 0 ∨ n ≤ (c' - c).toNat ∧ n' ≤ (c - c').toNat := by
  have hstart : ∀ {c : BitVec m} {n : ℕ}, 0 < n → c ∈ values c n := by
    intro c n hn
    rw [mem_values, BitVec.sub_self]
    exact hn
  constructor
  · intro hdisj
    rcases Nat.eq_zero_or_pos n with hn | hn
    · exact Or.inl hn
    rcases Nat.eq_zero_or_pos n' with hn' | hn'
    · exact Or.inr (Or.inl hn')
    refine Or.inr (Or.inr ⟨not_lt.mp fun hlt => ?_, not_lt.mp fun hlt => ?_⟩)
    · exact hdisj (mem_values.mpr hlt) (hstart hn')
    · exact hdisj (hstart hn) (mem_values.mpr hlt)
  · intro hcases x hx hx'
    rw [mem_values] at hx hx'
    rcases hcases with rfl | rfl | ⟨hle, hle'⟩
    · exact Nat.not_lt_zero _ hx
    · exact Nat.not_lt_zero _ hx'
    · -- `x` lies past `c'` on its way round to `c`, hence past the end of the run from `c`
      have hsum : c' - c + (x - c') = x - c := sub_add_sub_cancel' c' c x
      have hround : (c - c').toNat ≤ 2 ^ m - (c' - c).toNat := by
        rw [← neg_sub, BitVec.toNat_neg]
        exact Nat.mod_le _ _
      have hreach := congrArg BitVec.toNat hsum
      rw [BitVec.toNat_add, Nat.mod_eq_of_lt (by omega)] at hreach
      omega

theorem length_le_of_nodup {l : List (BitVec m)} (h : l.Nodup) : l.length ≤ 2 ^ m := by
  rw [← FinEnum.card_bitVec m, FinEnum.card_eq_fintypeCard]
  exact h.length_le_card

end Counter
