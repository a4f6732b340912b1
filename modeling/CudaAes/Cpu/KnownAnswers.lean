import CudaAes.Core.KnownAnswers
import CudaAes.Cpu.Scalar

/-!
# The known answers as ciphertexts

With the plaintext of a FIPS-197 vector for its counter, a zero block encrypts to the vector's ciphertext,
and the message of the NIST vector encrypts to its ciphertext. A test of any backend on these messages is
decided by whether the backend leaves the ciphertext.
-/

namespace CudaAes

open Rust Fips197

theorem mapM_encryptCtrBlock {rk : List U32} (hrk : 44 ≤ rk.length) (counter0 : Block) (blocks : List Block) :
    (blocks.zipIdx.mapM fun (pt, i) =>
      encryptCtrBlock counter0 (BitVec.ofNat 32 i) pt rk t0 t1 t2 t3 sboxU32) = .ok (ctrText rk counter0 blocks) := by
  simp only [encryptCtrBlock_eq hrk]
  refine (List.mapM_pure).trans ?_
  unfold ctrText StreamCipher.apply
  rw [List.mapIdx_eq_zipIdx_map]
  rfl

theorem fips197_ctrText {kat : Block × Block × Block} (hkat : kat ∈ KAT_VECTORS) :
    ∃ rk, keyExpansion kat.2.1 = .ok rk ∧ ctrText rk.toList kat.1 [⟨0, 0, 0, 0⟩] = [kat.2.2] := by
  obtain ⟨rk, hkeys, hanswer⟩ := bind_eq_ok (fips197_answers kat hkat)
  have hrk : 44 ≤ rk.toList.length := by simp
  have hblock : xorBlock ⟨0, 0, 0, 0⟩ (keystream rk.toList kat.1 0) = kat.2.2 :=
    Except.ok.inj ((encryptCtrBlock_eq hrk kat.1 0 ⟨0, 0, 0, 0⟩).symm.trans hanswer)
  exact ⟨rk, hkeys, congrArg (fun b => [b]) hblock⟩

theorem nist_f51_ctrText : ∃ rk, keyExpansion CTR_KAT.key = .ok rk ∧
    ctrText rk.toList CTR_KAT.counter0 CTR_KAT.plaintext.toList = CTR_KAT.ciphertext.toList := by
  obtain ⟨rk, hkeys, hanswer⟩ := bind_eq_ok nist_f51_answers
  have hrk : 44 ≤ rk.toList.length := by simp
  exact ⟨rk, hkeys, Except.ok.inj ((mapM_encryptCtrBlock hrk _ _).symm.trans hanswer)⟩

end CudaAes
