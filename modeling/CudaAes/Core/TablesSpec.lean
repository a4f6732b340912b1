import CudaAes.Core.Aes
import CudaAes.Fips197.InvCipher

/-!
# What the tables hold

The source's field arithmetic is that of the standard's field (`gmul_eq`, `ginv_eq`), so the S-box
is SubBytes (`index_sbox`), and entry `b` of the table `T_k` is the column `{02}, {01}, {01}, {03}`
times `SubBytes(b)`, moved down by `k` rows (`index_t0` to `index_t3`). No byte is out of range.
`tables_arithmetic` says what the constant functions of the source are without the standard.
-/

namespace CudaAes

open Rust Fips197

/-! ## Field arithmetic -/

theorem gmulStep_eq (p a b : U8) :
    gmulStep (p, a, b) = (if b.getLsbD 0 then p ^^^ a else p, BinaryField.xtimes 0x1b a, b >>> 1) := by
  have hlow : ∀ b : U8, b &&& 1 ≠ 0 ↔ b.getLsbD 0 = true := by decide
  have hhigh : ∀ a : U8, a &&& 0x80 ≠ 0 ↔ a.msb = true := by decide
  simp only [gmulStep, BinaryField.xtimes, hlow, hhigh]

/-- The loop of `gmul` keeps `p + a b`, and shifts `b` out. -/
theorem gmulStep_iterate (n : ℕ) (p a b : U8) :
    ∃ p' a', gmulStep^[n] (p, a, b) = (p', a', b >>> n) ∧
      toGF p' + toGF a' * toGF (b >>> n) = toGF p + toGF a * toGF b := by
  induction n with
  | zero => exact ⟨p, a, by simp, by simp⟩
  | succ n ih =>
    obtain ⟨p', a', heq, hinv⟩ := ih
    rw [Function.iterate_succ_apply', heq, gmulStep_eq]
    refine ⟨_, _, by rw [← BitVec.shiftRight_add], ?_⟩
    rw [← hinv, BitVec.shiftRight_add]
    exact BinaryField.toExt_shiftAdd 0x1b#8 p' a' (b >>> n)

theorem gmul_eq (a b : U8) : gmul a b = mul a b := by
  obtain ⟨p, a', heq, hinv⟩ := gmulStep_iterate 8 0 a b
  have hout : b >>> 8 = 0 := by
    apply BitVec.eq_of_getLsbD_eq
    intro i _
    simp
  rw [hout, toGF_zero, mul_zero, add_zero, zero_add] at hinv
  unfold gmul
  rw [heq]
  apply toGF.injective
  rw [hinv, toGF_mul]

theorem mul_eq_one {a b : U8} (h : mul a b = 1) : b = inv a := by
  have hfield : toGF a * toGF b = 1 := by rw [← toGF_mul, h, toGF_one]
  apply toGF.injective
  rw [← fieldInv_eq, fieldInv, Equiv.apply_symm_apply]
  exact (inv_eq_of_mul_eq_one_right hfield).symm

theorem ginv_eq (a : U8) : ginv a = inv a := by
  rw [ginv]
  by_cases ha : a = 0
  · subst ha
    rw [if_pos rfl]
    decide +kernel
  rw [if_neg ha]
  split
  · rename_i b hb
    have hone := List.find?_some hb
    simp only [gmul_eq, decide_eq_true_eq] at hone
    exact mul_eq_one hone
  · -- the search cannot fail, since `inv a` is among the candidates
    rename_i hnone
    exfalso
    have hne : inv a ≠ 0 := by
      intro h0
      have h := mul_inv_cancel a ha
      rw [h0] at h
      have hz : toGF 1 = 0 := by rw [← h, toGF_mul, toGF_zero, mul_zero]
      rw [toGF_one] at hz
      exact one_ne_zero hz
    have hpos : 0 < (inv a).toNat := by
      rcases Nat.eq_zero_or_pos (inv a).toNat with h0 | h0
      · exact absurd (BitVec.eq_of_toNat_eq h0) hne
      · exact h0
    have hmem : (inv a).toNat ∈ List.range' 1 255 := by
      rw [List.mem_range'_1]
      have := (inv a).isLt
      omega
    have hfail := List.find?_eq_none.mp hnone _ hmem
    simp only [gmul_eq, BitVec.ofNat_toNat, BitVec.setWidth_eq, decide_eq_true_eq] at hfail
    exact hfail (mul_inv_cancel a ha)

theorem sboxEntry_eq (b : U8) : sboxEntry b.toNat = byteMaps.subByte b := by
  have haffine : ∀ b : U8, b ^^^ b.rotateLeft 1 ^^^ b.rotateLeft 2 ^^^ b.rotateLeft 3 ^^^
      b.rotateLeft 4 ^^^ 0x63 = affine b := by decide +kernel
  unfold sboxEntry
  rw [BitVec.ofNat_toNat, BitVec.setWidth_eq, ginv_eq]
  exact haffine (inv b)

/-! ## Words from bytes -/

/-- Four bytes shifted into place are the big-endian word. -/
theorem or_eq_fromBeBytes (a b c d : U8) :
    (a.setWidth 32 <<< 24) ||| (b.setWidth 32 <<< 16) ||| (c.setWidth 32 <<< 8) ||| d.setWidth 32 =
      fromBeBytes ⟨a, b, c, d⟩ := by
  apply BitVec.eq_of_getLsbD_eq
  intro i hi
  simp only [fromBeBytes, BitVec.getLsbD_or, BitVec.getLsbD_shiftLeft, BitVec.getLsbD_setWidth,
    BitVec.getLsbD_append]
  grind

theorem rotateRight_fromBeBytes (a b c d : U8) :
    (fromBeBytes ⟨a, b, c, d⟩).rotateRight 8 = fromBeBytes ⟨d, a, b, c⟩ := by
  apply BitVec.eq_of_getLsbD_eq
  intro i hi
  simp only [fromBeBytes, BitVec.getLsbD_rotateRight, BitVec.getLsbD_append]
  grind

theorem rotateRight_add (x : U32) (r : ℕ) (h : r < 32) : x.rotateRight (r + 8) = (x.rotateRight r).rotateRight 8 := by
  apply BitVec.eq_of_getLsbD_eq
  intro i hi
  simp only [BitVec.getLsbD_rotateRight]
  grind

/-! ## The tables -/

theorem mul_swap (a b : U8) : mul a b = mul b a := by
  apply toGF.injective
  rw [toGF_mul, toGF_mul, mul_comm]

theorem index_sbox (b : U8) : index sbox b.toNat = .ok (byteMaps.subByte b) := by
  have hb : b.toNat < 256 := b.isLt
  rw [← sboxEntry_eq, index_lt (by simpa [sbox, buildSbox] using hb)]
  simp [sbox, buildSbox]

theorem index_sboxU32 (b : U8) : index sboxU32 b.toNat = .ok ((byteMaps.subByte b).setWidth 32) :=
  index_map_ok _ (index_sbox b)

/-- The column of the source's `T0[x] = [2.S[x], S[x], S[x], 3.S[x]]`. -/
def tableColumn (s : U8) : Column := ⟨mul 2 s, s, s, mul 3 s⟩

theorem index_t0 (b : U8) :
    index t0 b.toNat = .ok (fromBeBytes (tableColumn (byteMaps.subByte b))) := by
  unfold t0
  rw [buildT0, index_map_ok _ (index_sbox b), or_eq_fromBeBytes, gmul_eq, gmul_eq, mul_swap _ 2, mul_swap _ 3]
  rfl

theorem index_t1 (b : U8) : index t1 b.toNat =
    .ok (fromBeBytes ⟨mul 3 (byteMaps.subByte b), mul 2 (byteMaps.subByte b), byteMaps.subByte b, byteMaps.subByte b⟩) := by
  unfold t1
  rw [rotrTable, index_map_ok _ (index_t0 b), tableColumn, rotateRight_fromBeBytes]

theorem index_t2 (b : U8) : index t2 b.toNat =
    .ok (fromBeBytes ⟨byteMaps.subByte b, mul 3 (byteMaps.subByte b), mul 2 (byteMaps.subByte b), byteMaps.subByte b⟩) := by
  unfold t2
  rw [rotrTable, index_map_ok _ (index_t0 b), tableColumn, rotateRight_add _ 8 (by decide),
    rotateRight_fromBeBytes, rotateRight_fromBeBytes]

theorem index_t3 (b : U8) : index t3 b.toNat =
    .ok (fromBeBytes ⟨byteMaps.subByte b, byteMaps.subByte b, mul 3 (byteMaps.subByte b), mul 2 (byteMaps.subByte b)⟩) := by
  unfold t3
  rw [rotrTable, index_map_ok _ (index_t0 b), tableColumn, rotateRight_add _ 16 (by decide),
    rotateRight_add _ 8 (by decide), rotateRight_fromBeBytes, rotateRight_fromBeBytes, rotateRight_fromBeBytes]

theorem index_rcon (j : ℕ) (h : j < 10) : index rcon j = .ok (byteMaps.rcon (j + 1)) := by
  have hall : ∀ j : Fin 10, index rcon j = .ok (byteMaps.rcon (j + 1)) := by decide +kernel
  exact hall ⟨j, h⟩

/-! ## The tables as a whole -/

theorem subByte_bijective : Function.Bijective byteMaps.subByte :=
  Function.bijective_iff_has_inverse.mpr ⟨_, byteInverse.invSubByte_subByte, byteInverse.subByte_invSubByte⟩

/-- Each byte is the entry of `SBOX` at one index. -/
theorem existsUnique_sbox (b : U8) : ∃! i, index sbox i = .ok b := by
  obtain ⟨a, rfl⟩ := subByte_bijective.surjective b
  refine ⟨a.toNat, index_sbox a, fun i (hi : index sbox i = .ok _) => ?_⟩
  have hlt : i < 256 := by
    by_contra hge
    rw [index_ge (by simpa [sbox, buildSbox] using hge)] at hi
    cases hi
  have hbyte : (BitVec.ofNat 8 i).toNat = i := Nat.mod_eq_of_lt hlt
  have hentry := index_sbox (BitVec.ofNat 8 i)
  rw [hbyte, hi] at hentry
  rw [subByte_bijective.injective (Except.ok.inj hentry), hbyte]

open Polynomial in
/-- **The arithmetic of the tables**: with `^` and `gmul` the bytes are the residues modulo an irreducible
polynomial, a field, in which `ginv` gives the inverses; the round constants are the first powers of `x`,
and the S-box takes each value once. -/
theorem tables_arithmetic :
    Irreducible (X ^ 8 + X ^ 4 + X ^ 3 + X + 1 : (ZMod 2)[X]) ∧
    ∃ e : U8 ≃ AdjoinRoot (X ^ 8 + X ^ 4 + X ^ 3 + X + 1 : (ZMod 2)[X]),
      (∀ a b, e (a ^^^ b) = e a + e b) ∧ (∀ a b, e (gmul a b) = e a * e b) ∧
      (∀ a, a ≠ 0 → e a * e (ginv a) = 1) ∧ ginv 0 = 0 ∧
      (∀ i < 10, index rcon i = .ok (e.symm (AdjoinRoot.root _ ^ i))) ∧
      ∀ b, ∃! i, index sbox i = .ok b := by
  rw [← modulus_eq]
  refine ⟨Fact.out, toGF, toGF_xor, fun a b => ?_, fun a ha => ?_, ?_, fun i hi => ?_, existsUnique_sbox⟩
  · rw [gmul_eq, toGF_mul]
  · rw [ginv_eq, ← toGF_mul, mul_inv_cancel a ha, toGF_one]
  · rw [ginv, if_pos rfl]
  · rw [index_rcon i hi, toGF_symm_eq (toGF_iterate_xtimes i)]
    rfl

end CudaAes
