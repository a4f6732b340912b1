import CudaAes.Lib.Counter
import CudaAes.Core.Reversal
import CudaAes.Cpu.Scalar

/-!
# The keystream of the scalar backend

The cipher is injective, so two blocks share their keystream only if they share their counter
(`keystream_eq_iff`). The counters are those that the standard's 32-bit increment gives
(`iterate_inc32`), and no longer those of a 128-bit counter once the low word wraps around.
-/

namespace CudaAes

open Rust Fips197

/-! ## Blocks that share their keystream -/

theorem counterAt_eq_iff (c c' : Block) (i i' : ℕ) :
    counterAt c i = counterAt c' i' ↔ c.e0 = c'.e0 ∧ c.e1 = c'.e1 ∧ c.e2 = c'.e2 ∧
      (c.e3.toNat + i) % 2 ^ 32 = (c'.e3.toNat + i') % 2 ^ 32 := by
  have hlow : ∀ (x : U32) (k : ℕ), (x + BitVec.ofNat 32 k).toNat = (x.toNat + k) % 2 ^ 32 := by
    intro x k
    rw [BitVec.toNat_add, BitVec.toNat_ofNat, Nat.add_mod_mod]
  simp only [counterAt, Arr4.mk.injEq, ← BitVec.toNat_inj (x := c.e3 + _), hlow]

theorem keystream_eq_iff (rk : List U32) (c c' : Block) (i i' : ℕ) :
    keystream rk c i = keystream rk c' i' ↔ c.e0 = c'.e0 ∧ c.e1 = c'.e1 ∧ c.e2 = c'.e2 ∧
      (c.e3.toNat + i) % 2 ^ 32 = (c'.e3.toNat + i') % 2 ^ 32 :=
  (cipherBlock_injective rk).eq_iff.trans (counterAt_eq_iff c c' i i')

/-- The keystream block that a ciphertext has at `i`: its block xor that of the plaintext. -/
def appliedKeystream (ct pt : List Block) (i : ℕ) : Block := xorBlock (ct.getD i default) (pt.getD i default)

theorem appliedKeystream_scalar (rk : List U32) (counter0 : Block) (blocks out : List Block) {i : ℕ}
    (hi : i < min out.length blocks.length) :
    appliedKeystream (Buffer.stored (ctrBlock rk counter0 blocks) out (List.range (min out.length blocks.length))).data
      blocks i = keystream rk counter0 i := by
  have hstored := Buffer.getElem?_stored_mem (ctrBlock rk counter0 blocks) out (List.mem_range.mpr hi) (by omega)
  unfold appliedKeystream
  rw [List.getD_eq_getElem?_getD (l := Buffer.data _), hstored, Option.getD_some, ctrBlock, xorBlock_cancel_left]

/-- **Exact uniqueness of the keystream**: it is the same at two counters and positions if and only if
the upper words of the counters agree and the low words do after the advance. So within a call two
positions share a block if and only if they are congruent modulo `2 ^ 32`, first at block `2 ^ 32`; and
messages whose counters differ in the upper words never share one. -/
theorem keystream_unique (rk : Vector U32 44) :
    (∀ (c c' : Block) (i i' : ℕ) (pt pt' : Block), ∃ ct ct',
      encryptCtrBlock c (BitVec.ofNat 32 i) pt rk.toList t0 t1 t2 t3 sboxU32 = .ok ct ∧
      encryptCtrBlock c' (BitVec.ofNat 32 i') pt' rk.toList t0 t1 t2 t3 sboxU32 = .ok ct' ∧
      (xorBlock ct pt = xorBlock ct' pt' ↔ c.e0 = c'.e0 ∧ c.e1 = c'.e1 ∧ c.e2 = c'.e2 ∧
        (c.e3.toNat + i) % 2 ^ 32 = (c'.e3.toNat + i') % 2 ^ 32)) ∧
    (∀ (counter0 : Block) (blocks out : List Block), ∃ ct,
      (Scalar.encryptCtr rk.toList counter0 blocks).run (.ofList out) = .ok () ct ∧
      (∀ i j, i < min out.length blocks.length → j < min out.length blocks.length →
        (appliedKeystream ct.data blocks i = appliedKeystream ct.data blocks j ↔ i % 2 ^ 32 = j % 2 ^ 32)) ∧
      (∀ i j, i < j → j < min out.length blocks.length →
        appliedKeystream ct.data blocks i = appliedKeystream ct.data blocks j → 2 ^ 32 ≤ j) ∧
      (2 ^ 32 < min out.length blocks.length →
        appliedKeystream ct.data blocks (2 ^ 32) = appliedKeystream ct.data blocks 0)) ∧
    ∀ (c c' : Block) (blocks out blocks' out' : List Block), (c.e0, c.e1, c.e2) ≠ (c'.e0, c'.e1, c'.e2) →
      ∃ ct ct', (Scalar.encryptCtr rk.toList c blocks).run (.ofList out) = .ok () ct ∧
        (Scalar.encryptCtr rk.toList c' blocks').run (.ofList out') = .ok () ct' ∧
        ∀ i j, i < min out.length blocks.length → j < min out'.length blocks'.length →
          appliedKeystream ct.data blocks i ≠ appliedKeystream ct'.data blocks' j := by
  have hrk : 44 ≤ rk.toList.length := by simp
  refine ⟨fun c c' i i' pt pt' => ?_, fun counter0 blocks out => ?_, fun c c' blocks out blocks' out' hne => ?_⟩
  · refine ⟨_, _, encryptCtrBlock_eq hrk c i pt, encryptCtrBlock_eq hrk c' i' pt', ?_⟩
    rw [xorBlock_cancel_left, xorBlock_cancel_left, keystream_eq_iff]
  · have hshare : ∀ i j, i < min out.length blocks.length → j < min out.length blocks.length →
        (appliedKeystream (Buffer.stored (ctrBlock rk.toList counter0 blocks) out
            (List.range (min out.length blocks.length))).data blocks i =
          appliedKeystream (Buffer.stored (ctrBlock rk.toList counter0 blocks) out
            (List.range (min out.length blocks.length))).data blocks j ↔ i % 2 ^ 32 = j % 2 ^ 32) := by
      intro i j hi hj
      rw [appliedKeystream_scalar _ _ _ _ hi, appliedKeystream_scalar _ _ _ _ hj, keystream_eq_iff]
      simp only [true_and]
      omega
    refine ⟨_, Scalar.run_encryptCtr hrk counter0 blocks out, hshare, fun i j hij hj heq => ?_, fun hlong => ?_⟩
    · have := (hshare i j (hij.trans hj) hj).mp heq
      omega
    · exact (hshare _ _ hlong (by omega)).mpr (Nat.mod_self _)
  · refine ⟨_, _, Scalar.run_encryptCtr hrk c blocks out, Scalar.run_encryptCtr hrk c' blocks' out',
      fun i j hi hj heq => ?_⟩
    rw [appliedKeystream_scalar _ _ _ _ hi, appliedKeystream_scalar _ _ _ _ hj, keystream_eq_iff] at heq
    obtain ⟨h0, h1, h2, -⟩ := heq
    exact hne (by rw [h0, h1, h2])

/-! ## Counter modes -/

/-- A counter block as a bit string, the first word on the left. -/
def counterBits (c : Block) : BitVec 128 := c.e0 ++ c.e1 ++ c.e2 ++ c.e3

def blockOfBits (x : BitVec 128) : Block :=
  ⟨x.extractLsb' 96 32, x.extractLsb' 64 32, x.extractLsb' 32 32, x.extractLsb' 0 32⟩

/-- The standard incrementing function on the low 32 bits. -/
def inc32 : BitVec 128 → BitVec 128 := Counter.inc 96 32

/-- CTR with the cipher of a schedule and the counter blocks `T 0, T 1, …` -/
def counterMode (rk : List U32) (T : ℕ → BitVec 128) (blocks : List Block) : List Block :=
  StreamCipher.apply xorBlock (fun i => cipherBlock rk (blockOfBits (T i))) blocks

theorem counterBits_blockOfBits (x : BitVec 128) : counterBits (blockOfBits x) = x := by
  show x.extractLsb' 96 32 ++ x.extractLsb' 64 32 ++ x.extractLsb' 32 32 ++ x.extractLsb' 0 32 = x
  rw [BitVec.extractLsb'_append_extractLsb'_eq_extractLsb' (show 96 = 64 + 32 from rfl),
    BitVec.extractLsb'_append_extractLsb'_eq_extractLsb' (show 64 = 32 + 32 from rfl),
    BitVec.extractLsb'_append_extractLsb'_eq_extractLsb' (show 32 = 0 + 32 from rfl)]
  exact BitVec.extractLsb'_eq_self

theorem blockOfBits_injective : Function.Injective blockOfBits :=
  Function.LeftInverse.injective counterBits_blockOfBits

theorem blockOfBits_counterBits (c : Block) : blockOfBits (counterBits c) = c := by
  have hbits : counterBits c = c.e0 ++ c.e1 ++ c.e2 ++ c.e3 := rfl
  refine Arr4.ext ?_ ?_ ?_ ?_ <;> simp only [blockOfBits, hbits]
  · rw [BitVec.extractLsb'_append_eq_of_le (by decide), BitVec.extractLsb'_append_eq_of_le (by decide)]
    exact BitVec.extractLsb'_append_eq_left
  · rw [BitVec.extractLsb'_append_eq_of_le (by decide), BitVec.extractLsb'_append_eq_of_le (by decide)]
    exact BitVec.extractLsb'_append_eq_right
  · rw [BitVec.extractLsb'_append_eq_of_le (by decide)]
    exact BitVec.extractLsb'_append_eq_right
  · exact BitVec.extractLsb'_append_eq_right

theorem counterBits_low (c : Block) : (counterBits c).extractLsb' 0 32 = c.e3 := BitVec.extractLsb'_append_eq_right

theorem counterBits_high (c : Block) : (counterBits c).extractLsb' 32 96 = c.e0 ++ c.e1 ++ c.e2 :=
  BitVec.extractLsb'_append_eq_left

theorem iterate_inc32 (c : Block) (i : ℕ) : inc32^[i] (counterBits c) = counterBits (counterAt c i) := by
  refine (Counter.iterate_inc (u := 96) (m := 32) (counterBits c) i).trans ?_
  rw [counterBits_low, counterBits_high]
  rfl

theorem ctrText_eq_counterMode (rk : List U32) (counter0 : Block) (blocks : List Block) :
    ctrText rk counter0 blocks = counterMode rk (fun i => inc32^[i] (counterBits counter0)) blocks := by
  unfold ctrText counterMode
  refine StreamCipher.apply_congr _ fun i _ => ?_
  show cipherBlock rk (counterAt counter0 i) = cipherBlock rk (blockOfBits (inc32^[i] (counterBits counter0)))
  rw [iterate_inc32, blockOfBits_counterBits]

/-- Below the wrap of the low word both numberings give the same counter block. -/
theorem iterate_inc32_eq_add {c : Block} {i : ℕ} (hi : c.e3.toNat + i < 2 ^ 32) :
    inc32^[i] (counterBits c) = counterBits c + BitVec.ofNat 128 i :=
  Counter.iterate_inc_eq_add (u := 96) (m := 32) (counterBits c) (by rwa [counterBits_low])

/-- At the wrap they give different counter blocks, hence different ciphertext. -/
theorem counterMode_wrap_ne (rk : List U32) {counter0 : Block} {blocks : List Block} {i : ℕ}
    (hi : counter0.e3.toNat + i = 2 ^ 32) (hlt : i < blocks.length) :
    (counterMode rk (fun i => inc32^[i] (counterBits counter0)) blocks)[i]? ≠
      (counterMode rk (fun i => counterBits counter0 + BitVec.ofNat 128 i) blocks)[i]? := by
  unfold counterMode
  rw [StreamCipher.getElem?_apply, StreamCipher.getElem?_apply, List.getElem?_eq_getElem hlt, Option.map_some,
    Option.map_some]
  intro heq
  have hks := congrArg (xorBlock · blocks[i]) (Option.some.inj heq)
  simp only [xorBlock_cancel_left] at hks
  refine Counter.iterate_inc_ne_add (u := 96) (m := 32) (by decide) (counterBits counter0) ?_
    (blockOfBits_injective (cipherBlock_injective rk hks))
  rwa [counterBits_low]

/-- **Which counter mode the backend computes**: the mode whose counters are iterated 32-bit increments,
for every length; that of a 128-bit counter if and only if no increment wraps the low word around. The two
agree in every block before the wrap and differ in the first block after it. -/
theorem Scalar.encryptCtr_counterMode (rk : List U32) (hrk : 44 ≤ rk.length) (counter0 : Block) (blocks out : List Block)
    (hlen : blocks.length ≤ out.length) :
    ∃ ct rest, (Scalar.encryptCtr rk counter0 blocks).run (.ofList out) = .ok () rest ∧
      rest.data = ct ++ out.drop blocks.length ∧
      ct = counterMode rk (fun i => inc32^[i] (counterBits counter0)) blocks ∧
      (ct = counterMode rk (fun i => counterBits counter0 + BitVec.ofNat 128 i) blocks ↔
        blocks.length = 0 ∨ counter0.e3.toNat + blocks.length ≤ 2 ^ 32) ∧
      (∀ i < 2 ^ 32 - counter0.e3.toNat,
        ct[i]? = (counterMode rk (fun i => counterBits counter0 + BitVec.ofNat 128 i) blocks)[i]?) ∧
      (2 ^ 32 - counter0.e3.toNat < blocks.length → ct[2 ^ 32 - counter0.e3.toNat]? ≠
        (counterMode rk (fun i => counterBits counter0 + BitVec.ofNat 128 i) blocks)[2 ^ 32 - counter0.e3.toNat]?) := by
  have hlow := counter0.e3.isLt
  have hwrap : 2 ^ 32 - counter0.e3.toNat < blocks.length → (ctrText rk counter0 blocks)[2 ^ 32 - counter0.e3.toNat]? ≠
      (counterMode rk (fun i => counterBits counter0 + BitVec.ofNat 128 i) blocks)[2 ^ 32 - counter0.e3.toNat]? := by
    intro hlt
    rw [ctrText_eq_counterMode]
    exact counterMode_wrap_ne rk (by omega) hlt
  refine ⟨ctrText rk counter0 blocks, _, Scalar.run_encryptCtr hrk counter0 blocks out, ?_,
    ctrText_eq_counterMode rk counter0 blocks, ⟨fun heq => ?_, fun hfit => ?_⟩, fun i hi => ?_, hwrap⟩
  · rw [Nat.min_eq_right hlen, ← take_stored_ctrBlock hlen fun i => List.mem_range.mpr, ←
      Buffer.drop_stored_range (ctrBlock rk counter0 blocks), List.take_append_drop]
  · by_contra hlong
    exact hwrap (by omega) (congrArg (·[2 ^ 32 - counter0.e3.toNat]?) heq)
  · rw [ctrText_eq_counterMode]
    refine StreamCipher.apply_congr _ fun i hi => ?_
    exact congrArg (fun x => cipherBlock rk (blockOfBits x)) (iterate_inc32_eq_add (by omega))
  · rw [ctrText_eq_counterMode, counterMode, counterMode, StreamCipher.getElem?_apply, StreamCipher.getElem?_apply,
      iterate_inc32_eq_add (by omega)]

/-- Two blocks from the last value of the low word. -/
theorem Scalar.encryptCtr_counterMode_two :
    ∃ ct rest, (Scalar.encryptCtr (List.replicate 44 0) ⟨0, 0, 0, 0xffffffff⟩ [default, default]).run
        (.ofList [default, default]) = .ok () rest ∧ rest.data = ct ++ [] ∧
      ct[1]? ≠ (counterMode (List.replicate 44 0)
        (fun i => counterBits ⟨0, 0, 0, 0xffffffff⟩ + BitVec.ofNat 128 i) [default, default])[1]? := by
  obtain ⟨ct, rest, hrun, hrest, -, -, -, hwrap⟩ := Scalar.encryptCtr_counterMode (List.replicate 44 0) (by decide)
    ⟨0, 0, 0, 0xffffffff⟩ [default, default] [default, default] (by decide)
  exact ⟨ct, rest, hrun, hrest, hwrap (by decide)⟩

end CudaAes
