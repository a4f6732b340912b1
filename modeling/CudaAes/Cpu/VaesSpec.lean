import CudaAes.Cpu.Kernels
import CudaAes.Cpu.Vaes

/-!
# The VAES kernels equal the scalar backend

A kernel on `L` lanes is followed by its counter registers: at every head of the main loop they are
`laneCounters`, lane `k` of register `j` being the counter of block `i + L * j + k`. That needs of
the kernel only where `off` and `step` put their numbers, which is all the two kernels differ in.
-/

namespace CudaAes

open Rust Fips197
open SliceState (hold onBuffer)

variable {σ : Type} [SliceState σ Block] {rk : List U32} {counter0 : Block} {blocks out : List Block}

/-- The counter registers with `i` blocks done. -/
def laneCounters (L W : ℕ) (counter0 : Block) (i : ℕ) : List (Wide L) :=
  (List.range W).map fun j k => native (counterAt counter0 (i + L * j + k))

/-- The heads of the main loop: its variables `i` and `ctr`, and `out`. -/
def VaesHead (L : ℕ) (off : ℕ → Wide L) (step : Wide L) (W : ℕ) (keys : Fin 11 → M128) (counter0 : Block)
    (blocks out : List Block) : ℕ × List (Wide L) → Buffer Block → Prop :=
  LoopHead (fun x => decide (x.1 + W * L ≤ blocks.length))
    (vaesGroup L W step (fun r => Wide.broadcast (keys r)) (Wide.broadcast bswapMask) blocks)
    (0, vaesCounters L W off counter0) (.ofList out)

/-! ## Kernels on `L` lanes -/

section
variable {L W : ℕ} {off : ℕ → Wide L} {step : Wide L}

theorem vaesCounters_eq (hoff : ∀ j k, off j k = mmSetEpi32 (BitVec.ofNat 32 (L * j + k)) 0 0 0) :
    vaesCounters L W off counter0 = laneCounters L W counter0 0 := by
  refine List.map_congr_left fun j _ => funext fun k => ?_
  rw [Wide.addEpi32, Wide.broadcast, hoff, counterSeed_eq, mmAddEpi32_counterAt, Nat.add_assoc]

/-- One turn advances every counter by the blocks it takes. -/
theorem laneCounters_step (hstep : ∀ k, step k = mmSetEpi32 (BitVec.ofNat 32 (L * W)) 0 0 0) (i : ℕ) :
    (laneCounters L W counter0 i).map (Wide.addEpi32 · step) = laneCounters L W counter0 (i + W * L) := by
  unfold laneCounters
  rw [List.map_map]
  refine List.map_congr_left fun j _ => funext fun k => ?_
  show mmAddEpi32 (native (counterAt counter0 (i + L * j + k))) (step k) = _
  rw [hstep, mmAddEpi32_counterAt, Nat.mul_comm L W]
  congr 2
  omega

/-- The registers of one turn after the rounds: the keystream from block `i` on, in state order. -/
theorem vaesGroup_registers (i : ℕ) :
    (rounds.foldl (fun s r => s.map (Wide.aesenc · (Wide.broadcast (scheduleKeys rk r))))
        ((laneCounters L W counter0 i).map fun cj =>
          Wide.xor (Wide.shuffleEpi8 cj (Wide.broadcast bswapMask)) (Wide.broadcast (scheduleKeys rk 0)))).map
      (Wide.aesenclast · (Wide.broadcast (scheduleKeys rk 10))) =
    (List.range W).map fun j => (fun k => stateOf (keystream rk counter0 (i + L * j + k)) : Wide L) := by
  rw [foldl_map_lockstep (fun r s => Wide.aesenc s (Wide.broadcast (scheduleKeys rk r))), laneCounters, List.map_map,
    List.map_map, List.map_map]
  refine List.map_congr_left fun j _ => funext fun k => ?_
  have hlane := aesenc_stateOf rk (counterAt counter0 (i + L * j + k))
  rw [← mmShuffleEpi8_native] at hlane
  exact hlane

theorem run_vaesGroup (hstep : ∀ k, step k = mmSetEpi32 (BitVec.ofNat 32 (L * W)) 0 0 0)
    (hlen : blocks.length ≤ out.length) {i : ℕ} (h : i + W * L ≤ blocks.length) (n : ℕ) :
    (vaesGroup L W step (fun r => Wide.broadcast (scheduleKeys rk r)) (Wide.broadcast bswapMask) blocks
        (i, laneCounters L W counter0 i) : Run σ (ℕ × List (Wide L))).run
        (hold (.stored (ctrBlock rk counter0 blocks) out (List.range i)) n) =
      .ok (i + W * L, laneCounters L W counter0 (i + W * L))
        (hold (.stored (ctrBlock rk counter0 blocks) out (List.range (i + W * L))) n) := by
  have hstore : ∀ j < W,
      (do let pt ← loadu L blocks (i + j * L)
          let ks := Wide.shuffleEpi8 (fun k => stateOf (keystream rk counter0 (i + L * j + k))) (Wide.broadcast bswapMask)
          onBuffer (storeu (i + j * L) (Wide.xor pt ks)) : Run σ Unit).run
        (hold (.stored (ctrBlock rk counter0 blocks) out (List.range (i + j * L))) n) =
        .ok () (hold (.stored (ctrBlock rk counter0 blocks) out (List.range (i + (j + 1) * L))) n) := by
    intro j hj
    have hle : j * L + L ≤ W * L := by
      rw [← Nat.succ_mul]
      exact Nat.mul_le_mul_right L hj
    rw [loadu_eq (by omega), run_bind_ok (run_liftM_ok _ _), Nat.succ_mul, ← Nat.add_assoc]
    refine SliceState.run_onBuffer n (run_storeu_ctrBlock (by omega) _ fun k => ?_)
    rw [Wide.xor, Wide.shuffleEpi8, Wide.broadcast, mmShuffleEpi8_stateOf, mmXorSi128_native, Nat.mul_comm L j]
    rfl
  have hloop := forM_range_seq _
    (fun j => hold (.stored (ctrBlock rk counter0 blocks) out (List.range (i + j * L))) n) W hstore
  rw [Nat.zero_mul] at hloop
  simp only [vaesGroup, vaesGroup_registers, zipIdx_map_range, List.forM_map, laneCounters_step hstep]
  exact run_bind_ok hloop

variable (rk counter0) in
theorem run_vaesLoop (hL : 1 ≤ L) (hW : 1 ≤ W) (hoff : ∀ j k, off j k = mmSetEpi32 (BitVec.ofNat 32 (L * j + k)) 0 0 0)
    (hstep : ∀ k, step k = mmSetEpi32 (BitVec.ofNat 32 (L * W)) 0 0 0) (hlen : blocks.length ≤ out.length) (n : ℕ) :
    (∀ fuel, blocks.length < fuel →
      (whileLoop (fun x => decide (x.1 + W * L ≤ blocks.length))
        (vaesGroup L W step (fun r => Wide.broadcast (scheduleKeys rk r)) (Wide.broadcast bswapMask) blocks) fuel
        (0, vaesCounters L W off counter0) : Run σ (ℕ × List (Wide L))).run (hold (.ofList out) n) =
      .ok (blocks.length - blocks.length % (W * L),
          laneCounters L W counter0 (blocks.length - blocks.length % (W * L)))
        (hold (.stored (ctrBlock rk counter0 blocks) out (List.range (blocks.length - blocks.length % (W * L)))) n)) ∧
    ∀ x (s : σ), LoopHead (fun x => decide (x.1 + W * L ≤ blocks.length))
        (vaesGroup L W step (fun r => Wide.broadcast (scheduleKeys rk r)) (Wide.broadcast bswapMask) blocks)
        (0, vaesCounters L W off counter0) (hold (.ofList out) n) x s →
      ∃ k, k * (W * L) ≤ blocks.length ∧ x = (k * (W * L), laneCounters L W counter0 (k * (W * L))) ∧
        s = hold (.stored (ctrBlock rk counter0 blocks) out (List.range (k * (W * L)))) n := by
  have hloop := run_wideLoop (σ := σ) rk counter0 blocks out (Nat.mul_pos hW hL) Prod.fst
    (fun k => (k * (W * L), laneCounters L W counter0 (k * (W * L)))) (fun _ => rfl)
    (vaesGroup L W step (fun r => Wide.broadcast (scheduleKeys rk r)) (Wide.broadcast bswapMask) blocks) n
    fun k hk => by rw [run_vaesGroup hstep hlen hk, Nat.succ_mul]
  have hentry : (0 * (W * L), laneCounters L W counter0 (0 * (W * L))) = (0, vaesCounters L W off counter0) := by
    rw [Nat.zero_mul, vaesCounters_eq hoff]
  rw [hentry, Nat.div_mul_self_eq_mod_sub_self] at hloop
  exact hloop

theorem run_vaesImpl (hL : 1 ≤ L) (hW : 1 ≤ W) (hoff : ∀ j k, off j k = mmSetEpi32 (BitVec.ofNat 32 (L * j + k)) 0 0 0)
    (hstep : ∀ k, step k = mmSetEpi32 (BitVec.ofNat 32 (L * W)) 0 0 0) (hrk : 44 ≤ rk.length)
    (hlen : blocks.length ≤ out.length) {fuel : ℕ} (hfuel : blocks.length < fuel) (n : ℕ) :
    (vaesImpl L off step fuel W rk counter0 blocks : Run σ Unit).run (hold (.ofList out) n) =
      .ok () (hold (.stored (ctrBlock rk counter0 blocks) out (List.range blocks.length))
        (n + blocks.length % (W * L))) := by
  unfold vaesImpl
  rw [roundKeys_eq hrk, run_bind_ok (run_liftM_ok _ _),
    run_bind_ok ((run_vaesLoop rk counter0 hL hW hoff hstep hlen n).1 fuel hfuel)]
  exact run_map_ok (run_tail hlen (Nat.mod_le _ _) ((Nat.mod_le _ _).trans_lt hfuel) n)

theorem vaesHead_lane (hL : 1 ≤ L) (hW : 1 ≤ W) (hoff : ∀ j k, off j k = mmSetEpi32 (BitVec.ofNat 32 (L * j + k)) 0 0 0)
    (hstep : ∀ k, step k = mmSetEpi32 (BitVec.ofNat 32 (L * W)) 0 0 0) (hlen : blocks.length ≤ out.length)
    {i : ℕ} {ctr : List (Wide L)} {s : Buffer Block}
    (h : VaesHead L off step W (scheduleKeys rk) counter0 blocks out (i, ctr) s) :
    i ≤ blocks.length ∧ s.stores = List.range i ∧ ctr.length = W ∧
      ∀ j (hj : j < ctr.length) (k : Fin L), ctr[j] k = native (counterAt counter0 (i + L * j + k)) := by
  obtain ⟨t, ht, hx, rfl⟩ := (run_vaesLoop (σ := Buffer Block) rk counter0 hL hW hoff hstep hlen 0).2 _ _ h
  obtain ⟨rfl, rfl⟩ := Prod.mk.inj hx
  refine ⟨ht, rfl, by simp [laneCounters], fun j hj k => ?_⟩
  refine (congrFun (List.getElem_map _) k).trans ?_
  rw [List.getElem_range]

end

/-! ## The 256-bit kernel -/

theorem off256_lane (j : ℕ) (k : Fin 2) : off256 j k = mmSetEpi32 (BitVec.ofNat 32 (2 * j + k)) 0 0 0 := by
  match k with
  | 0 => rfl
  | 1 => rfl

theorem step256_lane (W : ℕ) (k : Fin 2) : step256 W k = mmSetEpi32 (BitVec.ofNat 32 (2 * W)) 0 0 0 := by
  match k with
  | 0 => rfl
  | 1 => rfl

theorem run_encryptCtrVaes256Impl (hrk : 44 ≤ rk.length) {W : ℕ} (hW : 1 ≤ W) (hlen : blocks.length ≤ out.length)
    {fuel : ℕ} (hfuel : blocks.length < fuel) (n : ℕ) :
    (encryptCtrVaes256Impl fuel W rk counter0 blocks : Run σ Unit).run (hold (.ofList out) n) =
      .ok () (hold (.stored (ctrBlock rk counter0 blocks) out (List.range blocks.length))
        (n + blocks.length % (W * 2))) :=
  run_vaesImpl (by decide) hW off256_lane (step256_lane W) hrk hlen hfuel n

theorem run_encryptCtrVaes256 {cpu : CpuFeatures} (hcpu : (cpu.aes && cpu.vaes && cpu.avx2) = true)
    (hrk : 44 ≤ rk.length) {W : ℕ} (hW : 1 ≤ W) (hlen : blocks.length = out.length) {fuel : ℕ}
    (hfuel : blocks.length < fuel) (n : ℕ) :
    (encryptCtrVaes256 cpu fuel W rk counter0 blocks : Run σ Unit).run (hold (.ofList out) n) =
      .ok () (hold (.stored (ctrBlock rk counter0 blocks) out (List.range blocks.length))
        (n + blocks.length % (W * 2))) :=
  (run_checked hcpu hlen _ _ _ n).trans (run_encryptCtrVaes256Impl hrk hW hlen.le hfuel n)

/-- **The 256-bit kernel equals the scalar backend**: both return with the same contents of `out`, and
at every head of the main loop, with `i` blocks done, lane `k` of `ctr[j]` is the counter of block
`i + 2 * j + k`. -/
theorem encryptCtrVaes256_eq_scalar (cpu : CpuFeatures) (hcpu : cpu.aes = true ∧ cpu.vaes = true ∧ cpu.avx2 = true)
    (W : ℕ) (hW : 1 ≤ W) (rk : Vector U32 44) (counter0 : Block) (blocks out : List Block)
    (hlen : blocks.length = out.length) (fuel : ℕ) (hfuel : blocks.length < fuel) :
    (∃ out', (encryptCtrVaes256 cpu fuel W rk.toList counter0 blocks).run (.ofList out) = .ok () out' ∧
      (Scalar.encryptCtr rk.toList counter0 blocks).run (.ofList out) = .ok () out') ∧
    ∃ keys, roundKeys rk.toList = .ok keys ∧
      ∀ i ctr s, VaesHead 2 off256 (step256 W) W keys counter0 blocks out (i, ctr) s →
        i ≤ blocks.length ∧ s.stores = List.range i ∧ ctr.length = W ∧
        ∀ j (hj : j < ctr.length) (k : Fin 2), ctr[j] k = native (counterAt counter0 (i + 2 * j + k)) := by
  have hrk : 44 ≤ rk.toList.length := by simp
  refine ⟨⟨_, run_encryptCtrVaes256 (σ := Buffer Block) (by simp [hcpu]) hrk hW hlen hfuel 0, ?_⟩, scheduleKeys rk.toList, roundKeys_eq hrk,
    fun i ctr s h => vaesHead_lane (by decide) hW off256_lane (step256_lane W) hlen.le h⟩
  rw [Scalar.run_encryptCtr hrk, hlen, Nat.min_self]
  rfl

theorem encryptCtrVaes256_eq_scalar_three :
    ∃ out', (encryptCtrVaes256 ⟨true, true, true, true, true, true⟩ 4 1 (Vector.replicate 44 0).toList default
        [default, default, default]).run (.ofList [default, default, default]) = .ok () out' ∧
      (Scalar.encryptCtr (Vector.replicate 44 0).toList default [default, default, default]).run
        (.ofList [default, default, default]) = .ok () out' :=
  (encryptCtrVaes256_eq_scalar ⟨true, true, true, true, true, true⟩ ⟨rfl, rfl, rfl⟩ 1 (by decide) (Vector.replicate 44 0)
    default [default, default, default] [default, default, default] (by decide) 4 (by decide)).1

/-! ## The 512-bit kernel -/

theorem off512_lane (j : ℕ) (k : Fin 4) : off512 j k = mmSetEpi32 (BitVec.ofNat 32 (4 * j + k)) 0 0 0 := by
  match k with
  | 0 => rfl
  | 1 => rfl
  | 2 => rfl
  | 3 => rfl

theorem step512_lane (W : ℕ) (k : Fin 4) : step512 W k = mmSetEpi32 (BitVec.ofNat 32 (4 * W)) 0 0 0 := by
  match k with
  | 0 => rfl
  | 1 => rfl
  | 2 => rfl
  | 3 => rfl

theorem run_encryptCtrVaes512Impl (hrk : 44 ≤ rk.length) {W : ℕ} (hW : 1 ≤ W) (hlen : blocks.length ≤ out.length)
    {fuel : ℕ} (hfuel : blocks.length < fuel) (n : ℕ) :
    (encryptCtrVaes512Impl fuel W rk counter0 blocks : Run σ Unit).run (hold (.ofList out) n) =
      .ok () (hold (.stored (ctrBlock rk counter0 blocks) out (List.range blocks.length))
        (n + blocks.length % (W * 4))) :=
  run_vaesImpl (by decide) hW off512_lane (step512_lane W) hrk hlen hfuel n

theorem run_encryptCtrVaes512 {cpu : CpuFeatures} (hcpu : (cpu.aes && cpu.vaes && cpu.avx512f && cpu.avx512bw) = true)
    (hrk : 44 ≤ rk.length) {W : ℕ} (hW : 1 ≤ W) (hlen : blocks.length = out.length) {fuel : ℕ}
    (hfuel : blocks.length < fuel) (n : ℕ) :
    (encryptCtrVaes512 cpu fuel W rk counter0 blocks : Run σ Unit).run (hold (.ofList out) n) =
      .ok () (hold (.stored (ctrBlock rk counter0 blocks) out (List.range blocks.length))
        (n + blocks.length % (W * 4))) :=
  (run_checked hcpu hlen _ _ _ n).trans (run_encryptCtrVaes512Impl hrk hW hlen.le hfuel n)

/-- **The 512-bit kernel equals the scalar backend**: both return with the same contents of `out`, and
at every head of the main loop, with `i` blocks done, lane `k` of `ctr[j]` is the counter of block
`i + 4 * j + k`. -/
theorem encryptCtrVaes512_eq_scalar (cpu : CpuFeatures)
    (hcpu : cpu.aes = true ∧ cpu.vaes = true ∧ cpu.avx512f = true ∧ cpu.avx512bw = true) (W : ℕ) (hW : 1 ≤ W)
    (rk : Vector U32 44) (counter0 : Block) (blocks out : List Block) (hlen : blocks.length = out.length)
    (fuel : ℕ) (hfuel : blocks.length < fuel) :
    (∃ out', (encryptCtrVaes512 cpu fuel W rk.toList counter0 blocks).run (.ofList out) = .ok () out' ∧
      (Scalar.encryptCtr rk.toList counter0 blocks).run (.ofList out) = .ok () out' ∧
      ∀ i (hi : i < blocks.length), ∃ ks,
        encryptBlock (counterAt counter0 i) rk.toList t0 t1 t2 t3 sboxU32 = .ok ks ∧
        out'.data[i]? = some (xorBlock blocks[i] ks)) ∧
    ∃ keys, roundKeys rk.toList = .ok keys ∧
      ∀ i ctr s, VaesHead 4 off512 (step512 W) W keys counter0 blocks out (i, ctr) s →
        i ≤ blocks.length ∧ s.stores = List.range i ∧ ctr.length = W ∧
        ∀ j (hj : j < ctr.length) (k : Fin 4), ctr[j] k = native (counterAt counter0 (i + 4 * j + k)) := by
  have hrk : 44 ≤ rk.toList.length := by simp
  refine ⟨⟨_, run_encryptCtrVaes512 (σ := Buffer Block) (by simp [hcpu]) hrk hW hlen hfuel 0, ?_, fun i hi => ?_⟩, scheduleKeys rk.toList,
    roundKeys_eq hrk, fun i ctr s h => vaesHead_lane (by decide) hW off512_lane (step512_lane W) hlen.le h⟩
  · rw [Scalar.run_encryptCtr hrk, hlen, Nat.min_self]
    rfl
  · refine ⟨keystream rk.toList counter0 i, encryptBlock_eq hrk _, ?_⟩
    exact (Buffer.getElem?_stored_mem _ _ (List.mem_range.mpr hi) (hi.trans_le hlen.le)).trans
      (congrArg some (ctrBlock_lt hi))

theorem encryptCtrVaes512_eq_scalar_five :
    ∃ out', (encryptCtrVaes512 ⟨true, true, true, true, true, true⟩ 6 1 (Vector.replicate 44 0).toList default
        (List.replicate 5 default)).run (.ofList (List.replicate 5 default)) = .ok () out' ∧
      (Scalar.encryptCtr (Vector.replicate 44 0).toList default (List.replicate 5 default)).run
        (.ofList (List.replicate 5 default)) = .ok () out' := by
  obtain ⟨⟨out', hkernel, hscalar, -⟩, -⟩ := encryptCtrVaes512_eq_scalar ⟨true, true, true, true, true, true⟩
    ⟨rfl, rfl, rfl, rfl⟩ 1 (by decide) (Vector.replicate 44 0) default (List.replicate 5 default)
    (List.replicate 5 default) (by decide) 6 (by decide)
  exact ⟨out', hkernel, hscalar⟩

end CudaAes
