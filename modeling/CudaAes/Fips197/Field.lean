import CudaAes.Lib.BinaryField
import CudaAes.Core.Words

/-!
# The field `GF(2^8)` of FIPS-197

Bytes are the residues modulo `x^8 + x^4 + x^3 + x + 1` (FIPS-197, Section 4). The modulus is
irreducible, since every nonzero byte has an inverse, so the residues form a field; the inverse of
a byte is its 254th power. A column is a polynomial of degree below four over this field, and
MixColumns multiplies it by a fixed polynomial modulo `x^4 + 1` (`mixColumn`), which is a matrix
product on the bytes (`mixColumn_eq`).
-/

namespace CudaAes.Fips197

open Polynomial BinaryField

/-! ## Bytes as field elements -/

theorem modulus_eq : modulus 0x1b#8 = X ^ 8 + X ^ 4 + X ^ 3 + X + 1 := by
  have hbits : toPoly 0x1b#8 = X ^ 4 + X ^ 3 + X + 1 := by
    rw [toPoly]
    simp only [Finset.sum_range_succ, Finset.sum_range_zero]
    simp
    ring
  rw [modulus, hbits]
  ring

/-- `{a} • {b}` -/
def mul (a b : U8) : U8 := BinaryField.mul 0x1b a b

/-- `a ^ 254`, by an addition chain. -/
def inv (a : U8) : U8 :=
  let a2 := mul a a
  let a3 := mul a2 a
  let a6 := mul a3 a3
  let a12 := mul a6 a6
  let a15 := mul a12 a3
  let a30 := mul a15 a15
  let a60 := mul a30 a30
  let a120 := mul a60 a60
  mul (mul (mul a120 a120) a12) a2

theorem mul_inv_cancel : ∀ a : U8, a ≠ 0 → mul a (inv a) = 1 := by decide +kernel

instance : Fact (Irreducible (modulus 0x1b#8)) :=
  ⟨irreducible_of_inverses _ (by decide) fun a ha => ⟨inv a, mul_inv_cancel a ha⟩⟩

abbrev GF : Type := Ext 0x1b#8

noncomputable def toGF : U8 ≃ GF := extEquiv 0x1b#8

theorem toGF_xor (a b : U8) : toGF (a ^^^ b) = toGF a + toGF b := toExt_xor _ a b

theorem toGF_mul (a b : U8) : toGF (mul a b) = toGF a * toGF b := toExt_mul _ a b

theorem toGF_zero : toGF 0 = 0 := toExt_zero _

theorem toGF_one : toGF 1 = 1 := toExt_one 0x1b#8 (Nat.zero_lt_succ 7)

/-- The inverse of a byte in the field, with `0 ↦ 0`. -/
noncomputable def fieldInv (b : U8) : U8 := toGF.symm (toGF b)⁻¹

theorem fieldInv_eq (b : U8) : fieldInv b = inv b := by
  rw [fieldInv, Equiv.symm_apply_eq]
  by_cases hb : b = 0
  · subst hb
    rw [toGF_zero, inv_zero, show inv 0 = 0 by decide +kernel, toGF_zero]
  · apply inv_eq_of_mul_eq_one_right
    rw [← toGF_mul, mul_inv_cancel b hb, toGF_one]

/-! ## Columns as polynomials -/

/-- A column of the state, row 0 first. -/
abbrev Column := Arr4 U8

noncomputable def colPoly (a : Column) : GF[X] :=
  C (toGF a.e0) + C (toGF a.e1) * X + C (toGF a.e2) * X ^ 2 + C (toGF a.e3) * X ^ 3

noncomputable def mixPoly : GF[X] :=
  C (toGF 0x03) * X ^ 3 + C (toGF 0x01) * X ^ 2 + C (toGF 0x01) * X + C (toGF 0x02)

/-- The column whose polynomial is the product with `mixPoly` modulo `x^4 + 1`. -/
noncomputable def mixColumn (a : Column) : Column :=
  let p := (mixPoly * colPoly a) %ₘ (X ^ 4 + 1)
  ⟨toGF.symm (p.coeff 0), toGF.symm (p.coeff 1), toGF.symm (p.coeff 2), toGF.symm (p.coeff 3)⟩

def mixColumnBytes (a : Column) : Column :=
  ⟨mul 2 a.e0 ^^^ mul 3 a.e1 ^^^ a.e2 ^^^ a.e3,
    a.e0 ^^^ mul 2 a.e1 ^^^ mul 3 a.e2 ^^^ a.e3,
    a.e0 ^^^ a.e1 ^^^ mul 2 a.e2 ^^^ mul 3 a.e3,
    mul 3 a.e0 ^^^ a.e1 ^^^ a.e2 ^^^ mul 2 a.e3⟩

/-- The product of two cubics modulo `X^4 + 1`. -/
theorem mul_modByMonic {R : Type} [CommRing R] [Nontrivial R] (a₀ a₁ a₂ a₃ b₀ b₁ b₂ b₃ : R) :
    ((C a₃ * X ^ 3 + C a₂ * X ^ 2 + C a₁ * X + C a₀) *
        (C b₀ + C b₁ * X + C b₂ * X ^ 2 + C b₃ * X ^ 3)) %ₘ (X ^ 4 + 1) =
      C (a₀ * b₀ - a₃ * b₁ - a₂ * b₂ - a₁ * b₃) +
        C (a₁ * b₀ + a₀ * b₁ - a₃ * b₂ - a₂ * b₃) * X +
        C (a₂ * b₀ + a₁ * b₁ + a₀ * b₂ - a₃ * b₃) * X ^ 2 +
        C (a₃ * b₀ + a₂ * b₁ + a₁ * b₂ + a₀ * b₃) * X ^ 3 := by
  have hmonic : (X ^ 4 + 1 : R[X]).Monic := monic_X_pow_add (by simp)
  refine (div_modByMonic_unique
    (C (a₃ * b₁ + a₂ * b₂ + a₁ * b₃) + C (a₃ * b₂ + a₂ * b₃) * X + C (a₃ * b₃) * X ^ 2) _ hmonic ⟨?_, ?_⟩).2
  · simp only [map_add, map_sub, map_mul]
    ring
  · rw [show (X ^ 4 + 1 : R[X]) = X ^ 4 + C 1 by simp, degree_X_pow_add_C (by norm_num)]
    refine lt_of_le_of_lt ?_ (show ((3 : ℕ) : WithBot ℕ) < ((4 : ℕ) : WithBot ℕ) by norm_num)
    compute_degree
    exact le_rfl

section cubic
variable {R : Type} [CommRing R] (c₀ c₁ c₂ c₃ : R)

theorem coeff_cubic_zero : (C c₀ + C c₁ * X + C c₂ * X ^ 2 + C c₃ * X ^ 3).coeff 0 = c₀ := by simp

theorem coeff_cubic_one : (C c₀ + C c₁ * X + C c₂ * X ^ 2 + C c₃ * X ^ 3).coeff 1 = c₁ := by
  simp [coeff_X_pow, coeff_C]

theorem coeff_cubic_two : (C c₀ + C c₁ * X + C c₂ * X ^ 2 + C c₃ * X ^ 3).coeff 2 = c₂ := by
  simp [coeff_X_pow]

theorem coeff_cubic_three : (C c₀ + C c₁ * X + C c₂ * X ^ 2 + C c₃ * X ^ 3).coeff 3 = c₃ := by
  simp [coeff_X_pow]

end cubic

theorem toGF_symm_eq {x : GF} {b : U8} (h : toGF b = x) : toGF.symm x = b := by
  rw [← h, Equiv.symm_apply_apply]

/-- **MixColumns is multiplication by `mixPoly`.** -/
theorem mixColumn_eq (a : Column) : mixColumn a = mixColumnBytes a := by
  have hcoeff := mul_modByMonic (toGF 0x02) (toGF 0x01) (toGF 0x01) (toGF 0x03)
    (toGF a.e0) (toGF a.e1) (toGF a.e2) (toGF a.e3)
  simp only [mixColumn, mixPoly, colPoly, hcoeff]
  simp only [mixColumnBytes, toGF_one, one_mul, sub_eq_add_neg, BinaryField.neg_eq]
  refine Arr4.ext ?_ ?_ ?_ ?_ <;> apply toGF_symm_eq <;>
    simp only [toGF_xor, toGF_mul, coeff_cubic_zero, coeff_cubic_one, coeff_cubic_two, coeff_cubic_three]

end CudaAes.Fips197
