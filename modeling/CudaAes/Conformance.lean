import CudaAes.Cpu.Keystream
import CudaAes.Cpu.Streaming
import CudaAes.Gpu.Session

/-!
# From the key to the ciphertext

`standardCtr` is counter mode with AES-128, with nothing of the program in it: the cipher and the key
expansion over the field, and 32-bit increments of the counter. With the schedule that `key_expansion` gives,
every CPU backend computes it on every message, and every client of the GPU handle does or reports an error of
the driver (`backends_conform`). It undoes itself, so what one of them encrypts any other decrypts.
-/

namespace CudaAes

open Rust Fips197 AesGpu

/-- AES-128 in counter mode, block by block. -/
noncomputable def standardCtr (key counter0 : Block) (blocks : List Block) : List Block :=
  StreamCipher.apply xorBlock (fun i =>
    blockOf (fieldMaps.cipher (fieldMaps.roundKey (stateOf key)) (stateOf (blockOfBits (inc32^[i] (counterBits counter0))))))
    blocks

theorem standardCtr_standardCtr (key counter0 : Block) (blocks : List Block) :
    standardCtr key counter0 (standardCtr key counter0 blocks) = blocks :=
  StreamCipher.apply_apply xorBlock xorBlock_cancel _ blocks

theorem ctrText_eq_standardCtr {key : Block} {rk : Vector U32 44}
    (hrk : ∀ i (hi : i < 44), toBeBytes rk[i] = byteMaps.keyWord (stateOf key) i) (counter0 : Block) (blocks : List Block) :
    ctrText rk.toList counter0 blocks = standardCtr key counter0 blocks := by
  have hkeys : scheduleKeys rk.toList = fieldMaps.roundKey (stateOf key) := by
    rw [fieldMaps_eq]
    exact funext (scheduleKeys_keyExpansion hrk)
  rw [ctrText_eq_counterMode]
  refine StreamCipher.apply_congr _ fun i _ => ?_
  rw [cipherBlock, hkeys, fieldMaps_eq]

/-- What a well-formed call under `key` returns and leaves in `out`. -/
def Conforms (driver : Driver) (key : Block) (c : CtrCall) (answer : Except DriverError Unit × List Block) : Prop :=
  answer = (.ok (), standardCtr key c.counter0 c.blocks) ∨ ∃ k e, driver.fails k = some e ∧ answer.1 = .error e

theorem conforms_of_answered {driver : Driver} {key : Block} {rk : Vector U32 44}
    (hrk : ∀ i (hi : i < 44), toBeBytes rk[i] = byteMaps.keyWord (stateOf key) i) {c : CtrCall}
    {answer : Except DriverError Unit × List Block} (hc : c.rk = rk.toList ∧ c.WellFormed) (h : c.Answered driver answer) :
    Conforms driver key c answer := by
  obtain ⟨hkey, hwf⟩ := hc
  obtain ⟨hok, herr⟩ := h hwf
  obtain ⟨result, out⟩ := answer
  cases result with
  | ok _ =>
    obtain ⟨ref, hrun, hout⟩ := hok rfl
    obtain ⟨ref', hrun', hdata⟩ := Scalar.run_encryptCtr_data hwf.rk c.counter0 hwf.out.symm
    obtain ⟨-, rfl⟩ := EStateM.Result.ok.inj (hrun.symm.trans hrun')
    refine Or.inl (Prod.ext rfl ?_)
    rw [hout, hdata, hkey]
    exact ctrText_eq_standardCtr hrk c.counter0 c.blocks
  | error e =>
    obtain ⟨⟨k, hk⟩, -⟩ := herr e rfl
    exact Or.inr ⟨k, e, hk, rfl⟩

/-- **From the key to the ciphertext.** For every key, the expanded schedule makes every CPU backend, on
every machine that supports it, compute `standardCtr` of the key on every message, and every GPU client whose
calls are well-formed get the same for each of them, or an error of the driver; and `standardCtr` undoes itself. -/
theorem backends_conform (key : Block) : ∃ rk, keyExpansion key = .ok rk ∧
    (∀ (counter0 : Block) (blocks : List Block),
      standardCtr key counter0 (standardCtr key counter0 blocks) = blocks) ∧
    (∀ (b : Backend) (cpu : CpuFeatures) (fuel : ℕ) (counter0 : Block) (blocks out : List Block),
      b.Valid cpu blocks.length → blocks.length = out.length → blocks.length < fuel →
      b.encrypt cpu fuel rk.toList counter0 blocks out = .ok (standardCtr key counter0 blocks)) ∧
    ∀ (driver : Driver) (calls : List CtrCall) (w : Gpu), w.Fresh → (∀ c ∈ calls, c.rk = rk.toList ∧ c.WellFormed) →
      (∃ answers w', (session driver calls).run.run w = .ok (.ok answers) w' ∧
        List.Forall₂ (Conforms driver key) calls answers) ∨
      ∃ e w' k, (session driver calls).run.run w = .ok (.error e) w' ∧ driver.fails k = some e := by
  obtain ⟨rk, hexp, hrk⟩ := keyExpansion_eq key
  refine ⟨rk, hexp, standardCtr_standardCtr key, fun b cpu fuel counter0 blocks out hb hlen hfuel => ?_,
    fun driver calls w hw hcalls => ?_⟩
  · rw [b.encrypt_eq (by simp) hb hlen hfuel, ctrText_eq_standardCtr hrk]
  · have hsession : Returns (session driver calls) w _ _ _ := returns_scope driver hw fun g w' hg => hg.meets_runCalls calls
    rcases hsession.elim with ⟨answers, w', hrun, -, hanswers⟩ | ⟨e, w', hrun, -, ⟨k, -, -, hk, -⟩, -⟩ |
      ⟨_, _, -, -, -, c, hc, hnot⟩
    · obtain ⟨hlen, hall⟩ := List.forall₂_iff_zip.mp hanswers
      refine Or.inl ⟨answers, w', hrun, List.forall₂_iff_zip.mpr ⟨hlen, fun {c answer} hmem => ?_⟩⟩
      exact conforms_of_answered hrk (hcalls c (List.of_mem_zip hmem).1) (hall hmem)
    · exact Or.inr ⟨e, w', k, hrun, hk⟩
    · exact absurd (hcalls c hc).2 hnot

end CudaAes
