import CudaAes.Lib.Reversible
import CudaAes.Fips197.Cipher

/-!
# The inverse cipher of FIPS-197

InvCipher undoes the transformations of the cipher in reverse order. What undoes SubBytes and
MixColumns is part of `ByteMaps.Inverse`, with the proofs that it does: `fieldInverse` is the
standard's, over the field, and `byteInverse` computes it on bytes. Whatever the round keys, InvCipher
and the cipher undo each other (`invCipher_cipher`, `cipher_invCipher`).
-/

namespace CudaAes.Fips197

open Polynomial BinaryField

/-! ## InvMixColumns -/

/-- The column of the coefficients of degree below four. -/
noncomputable def columnOf (p : GF[X]) : Column :=
  ⟨toGF.symm (p.coeff 0), toGF.symm (p.coeff 1), toGF.symm (p.coeff 2), toGF.symm (p.coeff 3)⟩

/-- The product with `p` modulo `x^4 + 1`. -/
noncomputable def mulColumn (p : GF[X]) (a : Column) : Column := columnOf ((p * colPoly a) %ₘ (X ^ 4 + 1))

theorem mixColumn_eq_mulColumn (a : Column) : mixColumn a = mulColumn mixPoly a := rfl

theorem monic_X_pow_four : (X ^ 4 + 1 : GF[X]).Monic := monic_X_pow_add (by simp)

theorem degree_X_pow_four : (X ^ 4 + 1 : GF[X]).degree = (4 : ℕ) := by
  rw [show (X ^ 4 + 1 : GF[X]) = X ^ 4 + C 1 by simp, degree_X_pow_add_C (by norm_num)]

theorem degree_colPoly (a : Column) : (colPoly a).degree < (X ^ 4 + 1 : GF[X]).degree := by
  rw [degree_X_pow_four]
  refine lt_of_le_of_lt ?_ (show ((3 : ℕ) : WithBot ℕ) < ((4 : ℕ) : WithBot ℕ) by norm_num)
  unfold colPoly
  compute_degree
  exact le_rfl

theorem columnOf_colPoly (a : Column) : columnOf (colPoly a) = a := by
  simp only [columnOf, colPoly, coeff_cubic_zero, coeff_cubic_one, coeff_cubic_two, coeff_cubic_three,
    Equiv.symm_apply_apply]

theorem colPoly_columnOf {p : GF[X]} (hp : p.degree < (4 : ℕ)) : colPoly (columnOf p) = p := by
  rw [degree_lt_iff_coeff_zero] at hp
  ext i
  simp only [colPoly, columnOf, Equiv.apply_symm_apply]
  rcases (by omega : i = 0 ∨ i = 1 ∨ i = 2 ∨ i = 3 ∨ 4 ≤ i) with rfl | rfl | rfl | rfl | hi
  · exact coeff_cubic_zero _ _ _ _
  · exact coeff_cubic_one _ _ _ _
  · exact coeff_cubic_two _ _ _ _
  · exact coeff_cubic_three _ _ _ _
  · rw [hp i hi]
    obtain ⟨j, rfl⟩ := Nat.exists_eq_add_of_le hi
    simp [coeff_X, coeff_C, coeff_X_pow, show 4 + j ≠ 2 by omega, show 4 + j ≠ 3 by omega, show 1 ≠ 4 + j by omega]

theorem colPoly_mulColumn (p : GF[X]) (a : Column) :
    colPoly (mulColumn p a) = (p * colPoly a) %ₘ (X ^ 4 + 1) := by
  refine colPoly_columnOf ?_
  rw [← degree_X_pow_four]
  exact degree_modByMonic_lt _ monic_X_pow_four

/-- Polynomials that are inverse modulo `x^4 + 1` undo each other. -/
theorem mulColumn_cancel {p q : GF[X]} (h : (p * q) %ₘ (X ^ 4 + 1) = 1) (a : Column) :
    mulColumn p (mulColumn q a) = a := by
  have hmod : ∀ r : GF[X], r %ₘ (X ^ 4 + 1) %ₘ (X ^ 4 + 1) = r %ₘ (X ^ 4 + 1) := fun r =>
    (modByMonic_eq_self_iff monic_X_pow_four).mpr (degree_modByMonic_lt r monic_X_pow_four)
  have hcol : colPoly a %ₘ (X ^ 4 + 1) = colPoly a := (modByMonic_eq_self_iff monic_X_pow_four).mpr (degree_colPoly a)
  have hprod : (p * colPoly (mulColumn q a)) %ₘ (X ^ 4 + 1) = colPoly a := by
    calc (p * colPoly (mulColumn q a)) %ₘ (X ^ 4 + 1)
        = (p * (q * colPoly a)) %ₘ (X ^ 4 + 1) := by
          rw [colPoly_mulColumn, Polynomial.mul_modByMonic, hmod, ← Polynomial.mul_modByMonic]
      _ = ((p * q) %ₘ (X ^ 4 + 1) * (colPoly a %ₘ (X ^ 4 + 1))) %ₘ (X ^ 4 + 1) := by
          rw [← mul_assoc, Polynomial.mul_modByMonic]
      _ = colPoly a := by rw [h, one_mul, hmod, hcol]
  rw [mulColumn, hprod, columnOf_colPoly]

noncomputable def invMixPoly : GF[X] :=
  C (toGF 0x0b) * X ^ 3 + C (toGF 0x0d) * X ^ 2 + C (toGF 0x09) * X + C (toGF 0x0e)

/-- The column whose polynomial is the product with `invMixPoly` modulo `x^4 + 1`. -/
noncomputable def invMixColumn (a : Column) : Column := mulColumn invMixPoly a

def invMixColumnBytes (a : Column) : Column :=
  ⟨mul 0x0e a.e0 ^^^ mul 0x0b a.e1 ^^^ mul 0x0d a.e2 ^^^ mul 0x09 a.e3,
    mul 0x09 a.e0 ^^^ mul 0x0e a.e1 ^^^ mul 0x0b a.e2 ^^^ mul 0x0d a.e3,
    mul 0x0d a.e0 ^^^ mul 0x09 a.e1 ^^^ mul 0x0e a.e2 ^^^ mul 0x0b a.e3,
    mul 0x0b a.e0 ^^^ mul 0x0d a.e1 ^^^ mul 0x09 a.e2 ^^^ mul 0x0e a.e3⟩

/-- **InvMixColumns is multiplication by `invMixPoly`.** -/
theorem invMixColumn_eq (a : Column) : invMixColumn a = invMixColumnBytes a := by
  have hcoeff := Fips197.mul_modByMonic (toGF 0x0e) (toGF 0x09) (toGF 0x0d) (toGF 0x0b)
    (toGF a.e0) (toGF a.e1) (toGF a.e2) (toGF a.e3)
  simp only [invMixColumn, mulColumn, columnOf, invMixPoly, colPoly, hcoeff]
  simp only [invMixColumnBytes, sub_eq_add_neg, BinaryField.neg_eq]
  refine Arr4.ext ?_ ?_ ?_ ?_ <;> apply toGF_symm_eq <;>
    simp only [toGF_xor, toGF_mul, coeff_cubic_zero, coeff_cubic_one, coeff_cubic_two, coeff_cubic_three]

/-- The two polynomials are inverse, by the product of `invMixPoly` with the column of `mixPoly`. -/
theorem invMixPoly_mul_mixPoly : (invMixPoly * mixPoly) %ₘ (X ^ 4 + 1) = 1 := by
  have hmix : mixPoly = colPoly ⟨2, 1, 1, 3⟩ := by
    unfold mixPoly colPoly
    ring
  have hbytes : invMixColumnBytes ⟨2, 1, 1, 3⟩ = ⟨1, 0, 0, 0⟩ := by decide +kernel
  have hone : colPoly ⟨1, 0, 0, 0⟩ = 1 := by
    simp only [colPoly, toGF_one, toGF_zero, map_one, map_zero, zero_mul, add_zero]
  rw [hmix, ← colPoly_mulColumn, ← invMixColumn, invMixColumn_eq, hbytes, hone]

/-! ## InvCipher -/

/-- The inverse affine map of the S-box, bit by bit, with `d = {05}`. -/
def invAffine (b : U8) : U8 :=
  BitVec.ofFnLE fun i : Fin 8 =>
    b.getLsbD ((i + 2) % 8) ^^ b.getLsbD ((i + 5) % 8) ^^ b.getLsbD ((i + 7) % 8) ^^ (0x05#8).getLsbD i

theorem invAffine_affine : ∀ b : U8, invAffine (affine b) = b := by decide +kernel

theorem affine_invAffine : ∀ b : U8, affine (invAffine b) = b := by decide +kernel

/-- What undoes SubBytes and MixColumns. -/
structure ByteMaps.Inverse (A : ByteMaps) where
  /-- InvSubBytes on one byte. -/
  invSubByte : U8 → U8
  /-- InvMixColumns on one column. -/
  invMixColumn : Column → Column
  invSubByte_subByte : ∀ b, invSubByte (A.subByte b) = b
  subByte_invSubByte : ∀ b, A.subByte (invSubByte b) = b
  invMixColumn_mixColumn : ∀ a, invMixColumn (A.mixColumn a) = a
  mixColumn_invMixColumn : ∀ a, A.mixColumn (invMixColumn a) = a

theorem fieldInv_fieldInv (b : U8) : fieldInv (fieldInv b) = b := by
  simp only [fieldInv, Equiv.apply_symm_apply, inv_inv, Equiv.symm_apply_apply]

noncomputable def fieldInverse : fieldMaps.Inverse where
  invSubByte b := fieldInv (invAffine b)
  invMixColumn := invMixColumn
  invSubByte_subByte b := by
    show fieldInv (invAffine (affine (fieldInv b))) = b
    rw [invAffine_affine, fieldInv_fieldInv]
  subByte_invSubByte b := by
    show affine (fieldInv (fieldInv (invAffine b))) = b
    rw [fieldInv_fieldInv, affine_invAffine]
  invMixColumn_mixColumn a := by
    show mulColumn invMixPoly (mixColumn a) = a
    rw [mixColumn_eq_mulColumn]
    exact mulColumn_cancel invMixPoly_mul_mixPoly a
  mixColumn_invMixColumn a := by
    show mixColumn (mulColumn invMixPoly a) = a
    rw [mixColumn_eq_mulColumn]
    exact mulColumn_cancel (by rw [mul_comm]; exact invMixPoly_mul_mixPoly) a

def byteInverse : byteMaps.Inverse where
  invSubByte b := inv (invAffine b)
  invMixColumn := invMixColumnBytes
  invSubByte_subByte b := by
    rw [← fieldInv_eq, ← fieldMaps_eq]
    exact fieldInverse.invSubByte_subByte b
  subByte_invSubByte b := by
    rw [← fieldInv_eq, ← fieldMaps_eq]
    exact fieldInverse.subByte_invSubByte b
  invMixColumn_mixColumn a := by
    rw [← invMixColumn_eq, ← fieldMaps_eq]
    exact fieldInverse.invMixColumn_mixColumn a
  mixColumn_invMixColumn a := by
    rw [← invMixColumn_eq, ← fieldMaps_eq]
    exact fieldInverse.mixColumn_invMixColumn a

def invShiftRows (s : State) : State :=
  ⟨⟨s.e0.e0, s.e3.e1, s.e2.e2, s.e1.e3⟩, ⟨s.e1.e0, s.e0.e1, s.e3.e2, s.e2.e3⟩,
    ⟨s.e2.e0, s.e1.e1, s.e0.e2, s.e3.e3⟩, ⟨s.e3.e0, s.e2.e1, s.e1.e2, s.e0.e3⟩⟩

theorem invShiftRows_shiftRows (s : State) : invShiftRows (shiftRows s) = s := rfl

theorem shiftRows_invShiftRows (s : State) : shiftRows (invShiftRows s) = s := rfl

theorem addRoundKey_addRoundKey (s k : State) : addRoundKey (addRoundKey s k) k = s := by
  simp [addRoundKey, xorColumn, Arr4.zipWith]

namespace ByteMaps.Inverse

variable {A : ByteMaps} (I : A.Inverse)

def invSubBytes (s : State) : State := s.map (·.map I.invSubByte)

def invMixColumns (s : State) : State := s.map I.invMixColumn

def invRound (s k : State) : State :=
  I.invMixColumns (addRoundKey (I.invSubBytes (invShiftRows s)) k)

/-- `InvCipher(in, 10, w)`, with the round keys as states. -/
def invCipher (k : Fin 11 → State) (s : State) : State :=
  addRoundKey (I.invSubBytes (invShiftRows
    (midRounds.reverse.foldl (fun s r => I.invRound s (k r)) (addRoundKey s (k 10))))) (k 0)

theorem invSubBytes_subBytes (s : State) : I.invSubBytes (A.subBytes s) = s := by
  simp only [invSubBytes, subBytes, Arr4.map, I.invSubByte_subByte]

theorem subBytes_invSubBytes (s : State) : A.subBytes (I.invSubBytes s) = s := by
  simp only [invSubBytes, subBytes, Arr4.map, I.subByte_invSubByte]

theorem invMixColumns_mixColumns (s : State) : I.invMixColumns (A.mixColumns s) = s := by
  simp only [invMixColumns, mixColumns, Arr4.map, I.invMixColumn_mixColumn]

theorem mixColumns_invMixColumns (s : State) : A.mixColumns (I.invMixColumns s) = s := by
  simp only [invMixColumns, mixColumns, Arr4.map, I.mixColumn_invMixColumn]

end ByteMaps.Inverse

/-- The step of the cipher that `invRound` takes back: a round that starts at its MixColumns. -/
def ByteMaps.mixRound (A : ByteMaps) (s k : State) : State :=
  shiftRows (A.subBytes (addRoundKey (A.mixColumns s) k))

theorem ByteMaps.cipher_eq (A : ByteMaps) (k : Fin 11 → State) (s : State) :
    A.cipher k s = addRoundKey (midRounds.foldl (fun s r => A.mixRound s (k r))
      (shiftRows (A.subBytes (addRoundKey s (k 0))))) (k 10) := by
  have hshift : midRounds.foldl (fun s r => A.mixRound s (k r)) (shiftRows (A.subBytes (addRoundKey s (k 0)))) =
      shiftRows (A.subBytes (midRounds.foldl (fun s r => A.round s (k r)) (addRoundKey s (k 0)))) :=
    List.foldl_hom (fun s => shiftRows (A.subBytes s)) fun _ _ => rfl
  rw [hshift]
  rfl

namespace ByteMaps.Inverse

variable {A : ByteMaps} (I : A.Inverse) (k : Fin 11 → State)

theorem undoes_mixRound : Reversible.Undoes (fun s r => I.invRound s (k r)) fun s r => A.mixRound s (k r) := by
  intro s r
  show I.invMixColumns (addRoundKey (I.invSubBytes (invShiftRows (A.mixRound s (k r)))) (k r)) = s
  rw [mixRound, invShiftRows_shiftRows, invSubBytes_subBytes, addRoundKey_addRoundKey, invMixColumns_mixColumns]

theorem undoes_invRound : Reversible.Undoes (fun s r => A.mixRound s (k r)) fun s r => I.invRound s (k r) := by
  intro s r
  show shiftRows (A.subBytes (addRoundKey (A.mixColumns (I.invRound s (k r))) (k r))) = s
  rw [invRound, mixColumns_invMixColumns, addRoundKey_addRoundKey, subBytes_invSubBytes, shiftRows_invShiftRows]

/-- **InvCipher undoes the cipher**, for any round keys. -/
theorem invCipher_cipher (s : State) : I.invCipher k (A.cipher k s) = s := by
  rw [A.cipher_eq, invCipher, addRoundKey_addRoundKey, (I.undoes_mixRound k).foldl, invShiftRows_shiftRows,
    invSubBytes_subBytes, addRoundKey_addRoundKey]

/-- **The cipher undoes InvCipher.** -/
theorem cipher_invCipher (s : State) : A.cipher k (I.invCipher k s) = s := by
  rw [A.cipher_eq, invCipher, addRoundKey_addRoundKey, subBytes_invSubBytes, shiftRows_invShiftRows,
    (I.undoes_invRound k).foldl_reverse, addRoundKey_addRoundKey]

end ByteMaps.Inverse

end CudaAes.Fips197
