import Mathlib

/-!
# Binary extension rings on bit vectors

A `w`-bit vector is a polynomial over `GF(2)` of degree below `w` (`toPoly`), hence a residue modulo
the monic polynomial `X ^ w + r` whose lower coefficients are the bits of `r` (`toExt`, and
`extEquiv` for the bijection). Exclusive or is addition (`toExt_xor`) and the shift-and-add product
is multiplication (`toExt_mul`); `toExt_shiftAdd` is the invariant of the right-to-left form of that
product. If every nonzero vector has an inverse, the modulus is irreducible and the ring is a field
(`irreducible_of_inverses`).
-/

namespace BinaryField

open Polynomial

variable {w : ℕ}

/-! ## Bit vectors as polynomials -/

/-- The polynomial over `GF(2)` whose coefficient of `X ^ i` is bit `i`. -/
noncomputable def toPoly (b : BitVec w) : (ZMod 2)[X] :=
  ∑ i ∈ Finset.range w, if b.getLsbD i then X ^ i else 0

theorem coeff_toPoly (b : BitVec w) (i : ℕ) :
    (toPoly b).coeff i = if b.getLsbD i then 1 else 0 := by
  have hterm : ∀ j, (if b.getLsbD j then (X : (ZMod 2)[X]) ^ j else 0).coeff i =
      if j = i then (if b.getLsbD i then 1 else 0) else 0 := by
    intro j
    by_cases hj : j = i
    · subst hj
      rw [if_pos rfl]
      split_ifs <;> simp
    · rw [if_neg hj]
      split_ifs <;> simp [coeff_X_pow, Ne.symm hj]
  rw [toPoly, finsetSum_coeff, Finset.sum_congr rfl fun j _ => hterm j, Finset.sum_ite_eq']
  by_cases hi : i < w
  · simp [hi]
  · simp [hi, BitVec.getLsbD_of_ge b i (by omega)]

theorem toPoly_injective : Function.Injective (toPoly (w := w)) := by
  intro a b h
  apply BitVec.eq_of_getLsbD_eq
  intro i _
  have hi := congrArg (fun p => p.coeff i) h
  simp only [coeff_toPoly] at hi
  cases ha : a.getLsbD i <;> cases hb : b.getLsbD i <;> simp_all

@[simp] theorem toPoly_zero : toPoly (0#w) = 0 := by
  ext i
  simp [coeff_toPoly]

theorem toPoly_xor (a b : BitVec w) : toPoly (a ^^^ b) = toPoly a + toPoly b := by
  ext i
  rw [coeff_add, coeff_toPoly, coeff_toPoly, coeff_toPoly, BitVec.getLsbD_xor]
  cases a.getLsbD i <;> cases b.getLsbD i <;> simp
  decide

theorem degree_toPoly_lt (b : BitVec w) : (toPoly b).degree < w := by
  rw [degree_lt_iff_coeff_zero]
  intro i hi
  rw [coeff_toPoly, BitVec.getLsbD_of_ge b i hi]
  rfl

/-- Every polynomial of degree below `w` is the polynomial of a bit vector. -/
theorem exists_toPoly (p : (ZMod 2)[X]) (hp : p.degree < w) : ∃ b : BitVec w, toPoly b = p := by
  refine ⟨BitVec.ofFnLE fun i : Fin w => decide (p.coeff i = 1), ?_⟩
  ext i
  rw [coeff_toPoly]
  by_cases hi : i < w
  · rw [BitVec.getLsbD_ofFnLE, dif_pos hi]
    have hbit : ∀ c : ZMod 2, (if decide (c = 1) = true then (1 : ZMod 2) else 0) = c := by decide
    exact hbit _
  · rw [BitVec.getLsbD_of_ge _ i (by omega), (degree_lt_iff_coeff_zero p w).mp hp i (by omega)]
    rfl

/-- A bit vector is its low bit plus `X` times the rest. -/
theorem toPoly_shiftRight (b : BitVec w) :
    toPoly b = (if b.getLsbD 0 then (1 : (ZMod 2)[X]) else 0) + X * toPoly (b >>> 1) := by
  ext i
  cases i with
  | zero => rw [coeff_add, coeff_toPoly, mul_comm, coeff_mul_X_zero]; split_ifs <;> simp
  | succ i =>
    rw [coeff_add, mul_comm, coeff_mul_X, coeff_toPoly, coeff_toPoly, BitVec.getLsbD_ushiftRight,
      Nat.add_comm 1 i]
    have hconst : (if b.getLsbD 0 then (1 : (ZMod 2)[X]) else 0).coeff (i + 1) = 0 := by
      split_ifs <;> simp [coeff_one]
    rw [hconst, zero_add]

theorem toPoly_shiftLeft (b : BitVec w) :
    X * toPoly b = toPoly (b <<< 1) + if b.msb then X ^ w else 0 := by
  ext i
  cases i with
  | zero =>
    rw [mul_comm, coeff_mul_X_zero, coeff_add, coeff_toPoly, BitVec.getLsbD_shiftLeft]
    by_cases hw : w = 0
    · subst hw
      simp [BitVec.of_length_zero]
    · split_ifs <;> simp_all [coeff_X_pow, Ne.symm hw]
  | succ i =>
    rw [mul_comm, coeff_mul_X, coeff_add, coeff_toPoly, coeff_toPoly, BitVec.getLsbD_shiftLeft]
    rcases Nat.lt_trichotomy (i + 1) w with hi | hi | hi
    · have hout : (if b.msb then (X : (ZMod 2)[X]) ^ w else 0).coeff (i + 1) = 0 := by
        split_ifs <;> simp [coeff_X_pow]; omega
      rw [hout, add_zero]
      simp [hi]
    · subst hi
      rw [BitVec.msb_eq_getLsbD_last]
      split_ifs <;> simp_all
    · have hout : (if b.msb then (X : (ZMod 2)[X]) ^ w else 0).coeff (i + 1) = 0 := by
        split_ifs <;> simp [coeff_X_pow]; omega
      rw [hout, add_zero, BitVec.getLsbD_of_ge b i (by omega)]
      simp [show ¬ i + 1 < w by omega]

/-! ## The quotient ring -/

/-- The monic polynomial of degree `w` whose lower coefficients are the bits of `r`. -/
noncomputable def modulus (r : BitVec w) : (ZMod 2)[X] := X ^ w + toPoly r

theorem modulus_monic (r : BitVec w) : (modulus r).Monic :=
  monic_X_pow_add (degree_toPoly_lt r)

theorem degree_modulus (r : BitVec w) : (modulus r).degree = w := by
  rw [modulus, degree_add_eq_left_of_degree_lt] <;> rw [degree_X_pow]
  exact degree_toPoly_lt r

/-- `GF(2)[X]` modulo `X ^ w + r`. -/
abbrev Ext (r : BitVec w) : Type := AdjoinRoot (modulus r)

/-- The residue class of a bit vector. -/
noncomputable def toExt (r b : BitVec w) : Ext r := AdjoinRoot.mk (modulus r) (toPoly b)

section ring
variable (r : BitVec w)

@[simp] theorem toExt_zero : toExt r (0#w) = 0 := by simp [toExt]

theorem toExt_xor (a b : BitVec w) : toExt r (a ^^^ b) = toExt r a + toExt r b := by
  rw [toExt, toPoly_xor, map_add]
  rfl

theorem add_self (x : Ext r) : x + x = 0 := by
  obtain ⟨p, rfl⟩ := AdjoinRoot.mk_surjective x
  rw [← map_add, CharTwo.add_self_eq_zero, map_zero]

theorem neg_eq (x : Ext r) : -x = x :=
  neg_eq_of_add_eq_zero_left (add_self r x)

theorem toExt_injective : Function.Injective (toExt r) := by
  intro a b h
  rw [toExt, toExt, AdjoinRoot.mk_eq_mk] at h
  apply toPoly_injective
  have hdeg : (toPoly a - toPoly b).degree < (modulus r).degree := by
    rw [degree_modulus]
    exact lt_of_le_of_lt (degree_sub_le _ _) (max_lt (degree_toPoly_lt a) (degree_toPoly_lt b))
  exact sub_eq_zero.mp (eq_zero_of_dvd_of_degree_lt h hdeg)

theorem toExt_surjective : Function.Surjective (toExt r) := by
  intro x
  obtain ⟨p, rfl⟩ := AdjoinRoot.mk_surjective x
  have hdeg : (p %ₘ modulus r).degree < w := by
    rw [← degree_modulus r]
    exact degree_modByMonic_lt p (modulus_monic r)
  obtain ⟨b, hb⟩ := exists_toPoly _ hdeg
  refine ⟨b, ?_⟩
  rw [toExt, hb]
  refine AdjoinRoot.mk_eq_mk.mpr ?_
  rw [modByMonic_eq_sub_mul_div, sub_sub_cancel_left, dvd_neg]
  exact dvd_mul_right _ _

/-- Bit vectors are the residues modulo `X ^ w + r`. -/
noncomputable def extEquiv : BitVec w ≃ Ext r :=
  Equiv.ofBijective (toExt r) ⟨toExt_injective r, toExt_surjective r⟩

theorem X_pow_eq : AdjoinRoot.mk (modulus r) (X ^ w) = toExt r r := by
  have h : AdjoinRoot.mk (modulus r) (X ^ w) + toExt r r = 0 := by
    rw [toExt, ← map_add]
    exact AdjoinRoot.mk_self
  rw [eq_neg_of_add_eq_zero_left h, neg_eq]

end ring

/-! ## Shift-and-add arithmetic -/

/-- Multiply by `X`: shift left, and reduce by `r` if a bit is shifted out. -/
def xtimes (r a : BitVec w) : BitVec w := if a.msb then (a <<< 1) ^^^ r else a <<< 1

/-- Horner's rule over the low `k` bits of `b`, from `acc`. -/
def mulFrom (r a b : BitVec w) : ℕ → BitVec w → BitVec w
  | 0, acc => acc
  | k + 1, acc => mulFrom r a b k (xtimes r acc ^^^ if b.getLsbD k then a else 0#w)

/-- The product of two residues modulo `X ^ w + r`. -/
def mul (r a b : BitVec w) : BitVec w := mulFrom r a b w 0#w

section arithmetic
variable (r : BitVec w)

theorem toExt_xtimes (a : BitVec w) :
    toExt r (xtimes r a) = AdjoinRoot.root (modulus r) * toExt r a := by
  have hshift : AdjoinRoot.root (modulus r) * toExt r a =
      toExt r (a <<< 1) + if a.msb then toExt r r else 0 := by
    rw [← X_pow_eq, toExt, toExt, ← AdjoinRoot.mk_X, ← map_mul, toPoly_shiftLeft, map_add]
    split_ifs <;> simp
  rw [hshift, xtimes]
  split_ifs
  · exact toExt_xor r _ _
  · exact (add_zero _).symm

theorem toExt_shiftRight (b : BitVec w) :
    toExt r b = (if b.getLsbD 0 then 1 else 0) + AdjoinRoot.root (modulus r) * toExt r (b >>> 1) := by
  rw [toExt, toPoly_shiftRight, map_add, map_mul, AdjoinRoot.mk_X, toExt]
  split_ifs <;> simp

theorem toExt_one (hw : 0 < w) : toExt r 1#w = 1 := by
  have hshift : (1#w >>> 1 : BitVec w) = 0#w := by
    apply BitVec.eq_of_getLsbD_eq
    intro i _
    simp
  rw [toExt_shiftRight, hshift, toExt_zero, mul_zero, add_zero]
  simp [hw]

theorem toExt_eq_sum (b : BitVec w) :
    toExt r b = ∑ i ∈ Finset.range w, if b.getLsbD i then AdjoinRoot.root (modulus r) ^ i else 0 := by
  rw [toExt, toPoly, map_sum]
  refine Finset.sum_congr rfl fun i _ => ?_
  split_ifs <;> simp

theorem toExt_mulFrom (a b : BitVec w) (k : ℕ) (acc : BitVec w) :
    toExt r (mulFrom r a b k acc) = AdjoinRoot.root (modulus r) ^ k * toExt r acc +
      toExt r a * ∑ i ∈ Finset.range k, if b.getLsbD i then AdjoinRoot.root (modulus r) ^ i else 0 := by
  induction k generalizing acc with
  | zero => simp [mulFrom]
  | succ k ih =>
    rw [mulFrom, ih, toExt_xor, toExt_xtimes, Finset.sum_range_succ]
    split_ifs
    · ring
    · rw [toExt_zero]
      ring

/-- **Shift-and-add is multiplication in the quotient.** -/
theorem toExt_mul (a b : BitVec w) : toExt r (mul r a b) = toExt r a * toExt r b := by
  rw [mul, toExt_mulFrom, ← toExt_eq_sum, toExt_zero, mul_zero, zero_add]

/-- One round of right-to-left shift-and-add keeps `p + a b`. -/
theorem toExt_shiftAdd (p a b : BitVec w) :
    toExt r (if b.getLsbD 0 then p ^^^ a else p) + toExt r (xtimes r a) * toExt r (b >>> 1) =
      toExt r p + toExt r a * toExt r b := by
  rw [toExt_xtimes, toExt_shiftRight r b]
  split_ifs
  · rw [toExt_xor]
    ring
  · ring

/-- If every nonzero bit vector has an inverse, the modulus is irreducible. -/
theorem irreducible_of_inverses (hw : 0 < w) (h : ∀ a : BitVec w, a ≠ 0#w → ∃ b, mul r a b = 1#w) :
    Irreducible (modulus r) := by
  have hne : modulus r ≠ 0 := (modulus_monic r).ne_zero
  have hnunit : ¬ IsUnit (modulus r) := by
    intro hu
    have := degree_eq_zero_of_isUnit hu
    rw [degree_modulus] at this
    exact hw.ne' (by exact_mod_cast this)
  refine ⟨hnunit, fun p q hpq => ?_⟩
  by_cases hp : AdjoinRoot.mk (modulus r) p = 0
  · -- `p` is a multiple of `p * q`, so `q` is a unit
    right
    have hdvd : p * q ∣ p := hpq ▸ AdjoinRoot.mk_eq_zero.mp hp
    have hp0 : p ≠ 0 := fun h0 => hne (by rw [hpq, h0, zero_mul])
    exact isUnit_of_dvd_one ((mul_dvd_mul_iff_left hp0).mp (by rwa [mul_one]))
  · -- `p` is invertible modulo `p * q`, so `q` vanishes there and `p` is a unit
    left
    obtain ⟨a, ha⟩ := toExt_surjective r (AdjoinRoot.mk (modulus r) p)
    obtain ⟨b, hb⟩ := h a (fun h0 => hp (by rw [← ha, h0, toExt_zero]))
    have hinv : AdjoinRoot.mk (modulus r) p * toExt r b = 1 := by rw [← ha, ← toExt_mul, hb, toExt_one r hw]
    have hpq0 : AdjoinRoot.mk (modulus r) p * AdjoinRoot.mk (modulus r) q = 0 := by
      rw [← map_mul, ← hpq, AdjoinRoot.mk_self]
    have hq : AdjoinRoot.mk (modulus r) q = 0 := by
      calc AdjoinRoot.mk (modulus r) q
          = AdjoinRoot.mk (modulus r) p * toExt r b * AdjoinRoot.mk (modulus r) q := by
            rw [hinv, one_mul]
        _ = toExt r b * (AdjoinRoot.mk (modulus r) p * AdjoinRoot.mk (modulus r) q) := by ring
        _ = 0 := by rw [hpq0, mul_zero]
    have hdvd : p * q ∣ q := hpq ▸ AdjoinRoot.mk_eq_zero.mp hq
    have hq0 : q ≠ 0 := fun h0 => hne (by rw [hpq, h0, mul_zero])
    exact isUnit_of_dvd_one ((mul_dvd_mul_iff_right hq0).mp (by rwa [one_mul]))

end arithmetic

end BinaryField
