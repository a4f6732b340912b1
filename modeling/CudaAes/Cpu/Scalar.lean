import CudaAes.Lib.Buffer
import CudaAes.Lib.StreamCipher
import CudaAes.Core.AesSpec

/-!
# The scalar backend (`aes-cpu/src/scalar.rs`)

`Scalar.encryptCtr` is the reference of every other backend. What it writes at block `i` is
`ctrBlock`: the plaintext block plus the cipher applied to the counter of block `i`.
-/

namespace CudaAes

open Rust Fips197

/-- `scalar::encrypt_ctr`: `out[i] = blocks[i] ⊕ E(rk, counter0 + i)`. -/
def Scalar.encryptCtr (rk : List U32) (counter0 : Block) (blocks : List Block) : Run (Buffer Block) Unit := do
  let out ← get
  forM ((List.range out.data.length).zip blocks) fun (i, pt) => do
    let ct ← encryptCtrBlock counter0 (BitVec.ofNat 32 i) pt rk t0 t1 t2 t3 sboxU32
    Buffer.set i ct

/-! ## The stream it writes -/

/-- The counter of block `i`: the low word advanced by `i` modulo `2 ^ 32`. -/
def counterAt (counter0 : Block) (i : ℕ) : Block :=
  ⟨counter0.e0, counter0.e1, counter0.e2, counter0.e3 + BitVec.ofNat 32 i⟩

def keystream (rk : List U32) (counter0 : Block) (i : ℕ) : Block := cipherBlock rk (counterAt counter0 i)

def ctrBlock (rk : List U32) (counter0 : Block) (blocks : List Block) (i : ℕ) : Block :=
  xorBlock (blocks.getD i default) (keystream rk counter0 i)

def ctrText (rk : List U32) (counter0 : Block) (blocks : List Block) : List Block :=
  StreamCipher.apply xorBlock (keystream rk counter0) blocks

theorem counterAt_add (counter0 : Block) (a b : ℕ) :
    counterAt (counterAt counter0 a) b = counterAt counter0 (a + b) := by
  simp only [counterAt, BitVec.ofNat_add, BitVec.add_assoc]

theorem counterAt_zero (counter0 : Block) : counterAt counter0 0 = counter0 := by
  simp [counterAt]

theorem ctrBlock_lt {rk : List U32} {counter0 : Block} {blocks : List Block} {i : ℕ} (h : i < blocks.length) :
    ctrBlock rk counter0 blocks i = xorBlock blocks[i] (keystream rk counter0 i) := by
  unfold ctrBlock
  rw [List.getD_eq_getElem _ _ h]

/-- A slice in which every block has been stored starts with the ciphertext. -/
theorem take_stored_ctrBlock {rk : List U32} {counter0 : Block} {blocks out : List Block} {stores : List ℕ}
    (hlen : blocks.length ≤ out.length) (hstores : ∀ i < blocks.length, i ∈ stores) :
    (Buffer.stored (ctrBlock rk counter0 blocks) out stores).data.take blocks.length = ctrText rk counter0 blocks := by
  apply List.ext_getElem
  · rw [List.length_take, Buffer.length_stored, ctrText, StreamCipher.length_apply, Nat.min_eq_left hlen]
  · intro i h1 h2
    unfold ctrText at h2
    rw [StreamCipher.length_apply] at h2
    rw [List.getElem_take, Buffer.getElem_stored _ _ _ _ (h2.trans_le hlen), if_pos (hstores i h2), ctrBlock_lt h2]
    simp [ctrText, StreamCipher.apply]

theorem stored_ctrBlock_data {rk : List U32} {counter0 : Block} {blocks out : List Block} {stores : List ℕ}
    (hlen : blocks.length = out.length) (hstores : ∀ i < blocks.length, i ∈ stores) :
    (Buffer.stored (ctrBlock rk counter0 blocks) out stores).data = ctrText rk counter0 blocks := by
  rw [← take_stored_ctrBlock hlen.le hstores, List.take_of_length_le]
  rw [Buffer.length_stored, hlen]

section
variable {rk : List U32} (hrk : 44 ≤ rk.length) (counter0 : Block)
include hrk

theorem encryptCtrBlock_eq (i : ℕ) (pt : Block) :
    encryptCtrBlock counter0 (BitVec.ofNat 32 i) pt rk t0 t1 t2 t3 sboxU32 =
      .ok (xorBlock pt (keystream rk counter0 i)) := by
  simp only [encryptCtrBlock, encryptBlock_eq hrk, ok_bind]
  rfl

/-- **What the scalar backend does**: it never faults, and stores `ctrBlock` at the indices both
slices have, in order. -/
theorem Scalar.run_encryptCtr (blocks out : List Block) :
    (Scalar.encryptCtr rk counter0 blocks).run (.ofList out) =
      .ok () (.stored (ctrBlock rk counter0 blocks) out (List.range (min out.length blocks.length))) := by
  have hzip : (List.range out.length).zip blocks =
      (List.range (min out.length blocks.length)).map fun i => (i, blocks.getD i default) := by
    apply List.ext_getElem
    · simp
    · intro i h1 h2
      simp at h1
      simp [h1]
  have hstep : ∀ i < min out.length blocks.length,
      (do let ct ← encryptCtrBlock counter0 (BitVec.ofNat 32 i) (blocks.getD i default) rk t0 t1 t2 t3 sboxU32
          Buffer.set i ct : Run (Buffer Block) Unit).run
        (.stored (ctrBlock rk counter0 blocks) out (List.range i)) =
        .ok () (.stored (ctrBlock rk counter0 blocks) out (List.range (i + 1))) := by
    intro i hi
    rw [encryptCtrBlock_eq hrk, run_bind_ok (run_liftM_ok _ _), List.range_succ]
    exact Buffer.run_set_stored _ _ (by omega)
  simp only [Scalar.encryptCtr, EStateM.run_bind, EStateM.run_get]
  rw [Buffer.ofList, hzip, List.forM_map]
  exact (congrArg _ (Buffer.stored_nil _ _).symm).trans (forM_range_seq _ _ _ hstep)

theorem Scalar.run_encryptCtr_data {blocks out : List Block} (hlen : blocks.length = out.length) :
    ∃ ref, (Scalar.encryptCtr rk counter0 blocks).run (.ofList out) = .ok () ref ∧
      ref.data = ctrText rk counter0 blocks := by
  refine ⟨_, Scalar.run_encryptCtr hrk counter0 blocks out, stored_ctrBlock_data hlen fun i hi => ?_⟩
  rw [hlen, Nat.min_self, List.mem_range, ← hlen]
  exact hi

end

end CudaAes
