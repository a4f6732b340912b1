import CudaAes.Cpu.AesniSpec
import CudaAes.Cpu.VaesSpec

/-!
# The multi-core wrappers equal the scalar backend

The three wrappers cut the message the same way around their kernels (`WideKernel`). A chunk that
starts at block `start` is encrypted from the counter of that block, so its kernel writes the blocks
that the scalar backend writes there (`ctrBlock_chunk`); the chunks write disjoint parts of `out`, and
any order of them writes every block once (`run_parChunks`).
-/

namespace CudaAes

open Rust Fips197
open SliceState (hold onBuffer onSlice)

/-- The kernels that have a multi-core wrapper. -/
inductive WideKernel
  | pshufb
  | vaes256
  | vaes512
  deriving DecidableEq, Repr

variable {σ : Type} [SliceState σ Block]

namespace WideKernel

/-- Blocks for each register: `LANES`. -/
def lanes : WideKernel → ℕ
  | pshufb => 1
  | vaes256 => 2
  | vaes512 => 4

def supported (cpu : CpuFeatures) : WideKernel → Bool
  | pshufb => cpu.aes && cpu.ssse3
  | vaes256 => cpu.aes && cpu.vaes && cpu.avx2
  | vaes512 => cpu.aes && cpu.vaes && cpu.avx512f && cpu.avx512bw

def impl (fuel W : ℕ) (rk : List U32) (counter0 : Block) (blocks : List Block) :
    WideKernel → Run σ Unit
  | pshufb => encryptCtrPshufbImpl fuel W rk counter0 blocks
  | vaes256 => encryptCtrVaes256Impl fuel W rk counter0 blocks
  | vaes512 => encryptCtrVaes512Impl fuel W rk counter0 blocks

def encryptCtr (cpu : CpuFeatures) (fuel W : ℕ) (rk : List U32) (counter0 : Block) (blocks : List Block) :
    WideKernel → Run σ Unit
  | pshufb => encryptCtrPshufb cpu fuel W rk counter0 blocks
  | vaes256 => encryptCtrVaes256 cpu fuel W rk counter0 blocks
  | vaes512 => encryptCtrVaes512 cpu fuel W rk counter0 blocks

def encryptCtrParallel (cpu : CpuFeatures) (fuel W threads : ℕ) (order : List ℕ) (rk : List U32) (counter0 : Block)
    (blocks : List Block) : WideKernel → Run σ Unit
  | pshufb => encryptCtrPshufbParallel cpu fuel W threads order rk counter0 blocks
  | vaes256 => encryptCtrVaes256Parallel cpu fuel W threads order rk counter0 blocks
  | vaes512 => encryptCtrVaes512Parallel cpu fuel W threads order rk counter0 blocks

theorem lanes_pos (kernel : WideKernel) : 1 ≤ kernel.lanes := by
  cases kernel <;> decide

end WideKernel

def WideKernel.chunk (kernel : WideKernel) (W threads n : ℕ) : Except Fault ℕ := parChunk threads n (W * kernel.lanes)

/-- An order in which rayon can run the closures: each of the chunks once. -/
def IsSchedule (n : ℕ) (chunk : Except Fault ℕ) (order : List ℕ) : Prop :=
  ∀ size, chunk = .ok size → order.Perm (List.range (n ⌈/⌉ size))

variable {rk : List U32} {counter0 : Block} {blocks out : List Block}

/-! ## The kernels -/

section kernels
variable (kernel : WideKernel) {W fuel : ℕ}

/-- What a kernel writes, and how many blocks its scalar tail takes. -/
theorem WideKernel.run_impl_hold (hrk : 44 ≤ rk.length) (hW : 1 ≤ W) (hlen : blocks.length ≤ out.length)
    (hfuel : blocks.length < fuel) (n : ℕ) :
    (kernel.impl fuel W rk counter0 blocks : Run σ Unit).run (hold (.ofList out) n) =
      .ok () (hold (.stored (ctrBlock rk counter0 blocks) out (List.range blocks.length))
        (n + blocks.length % (W * kernel.lanes))) := by
  cases kernel with
  | pshufb =>
    unfold lanes
    rw [Nat.mul_one]
    exact run_encryptCtrPshufbImpl hrk hW hlen hfuel n
  | vaes256 => exact run_encryptCtrVaes256Impl hrk hW hlen hfuel n
  | vaes512 => exact run_encryptCtrVaes512Impl hrk hW hlen hfuel n

theorem WideKernel.run_encryptCtr_hold {cpu : CpuFeatures} (hcpu : kernel.supported cpu = true) (hrk : 44 ≤ rk.length)
    (hW : 1 ≤ W) (hlen : blocks.length = out.length) (hfuel : blocks.length < fuel) (n : ℕ) :
    (kernel.encryptCtr cpu fuel W rk counter0 blocks : Run σ Unit).run (hold (.ofList out) n) =
      .ok () (hold (.stored (ctrBlock rk counter0 blocks) out (List.range blocks.length))
        (n + blocks.length % (W * kernel.lanes))) := by
  cases kernel with
  | pshufb =>
    unfold lanes
    rw [Nat.mul_one]
    exact run_encryptCtrPshufb hcpu hrk hW hlen hfuel n
  | vaes256 => exact run_encryptCtrVaes256 hcpu hrk hW hlen hfuel n
  | vaes512 => exact run_encryptCtrVaes512 hcpu hrk hW hlen hfuel n

theorem WideKernel.run_impl (hrk : 44 ≤ rk.length) (hW : 1 ≤ W) (hlen : blocks.length ≤ out.length)
    (hfuel : blocks.length < fuel) :
    (kernel.impl fuel W rk counter0 blocks).run (.ofList out) =
      .ok () (.stored (ctrBlock rk counter0 blocks) out (List.range blocks.length)) :=
  kernel.run_impl_hold (σ := Buffer Block) hrk hW hlen hfuel 0

theorem WideKernel.run_encryptCtr {cpu : CpuFeatures} (hcpu : kernel.supported cpu = true) (hrk : 44 ≤ rk.length)
    (hW : 1 ≤ W) (hlen : blocks.length = out.length) (hfuel : blocks.length < fuel) :
    (kernel.encryptCtr cpu fuel W rk counter0 blocks).run (.ofList out) =
      .ok () (.stored (ctrBlock rk counter0 blocks) out (List.range blocks.length)) :=
  kernel.run_encryptCtr_hold (σ := Buffer Block) hcpu hrk hW hlen hfuel 0

end kernels

/-! ## Chunks -/

/-- **The counter homomorphism**: block `j` of the chunk that starts at `start`, encrypted from the
advanced counter, is block `start + j` of the message. -/
theorem ctrBlock_chunk {start size j : ℕ} (hj : j < size) :
    ctrBlock rk (counterBlock counter0 (BitVec.ofNat 32 start)) ((blocks.drop start).take size) j =
      ctrBlock rk counter0 blocks (start + j) := by
  rw [ctrBlock, ctrBlock, keystream, keystream, counterBlock_ofNat, counterAt_add, List.getD_eq_getElem?_getD,
    List.getD_eq_getElem?_getD, List.getElem?_take_of_lt hj, List.getElem?_drop]

/-- The arithmetic that finds the chunk size does not fault, and its result is a multiple of the group
size, positive, too small to overflow, and at least the share of a thread. -/
theorem parChunk_ok (threads : ℕ) {n group : ℕ} (hn : n ≠ 0) (hgroup : 0 < group) :
    ∃ chunk, parChunk threads n group = .ok chunk ∧ 0 < chunk ∧ chunk < n + group ∧ n ⌈/⌉ max threads 1 ≤ chunk ∧
      group ∣ chunk := by
  obtain ⟨chunk, hok, hle, hlt, hdvd⟩ := nextMultipleOf_ok hgroup (n := n ⌈/⌉ max threads 1)
  have hceil : n ⌈/⌉ max threads 1 ≤ n := by
    rw [ceilDiv_le_iff_le_mul (by omega)]
    exact Nat.le_mul_of_pos_left n (by omega)
  refine ⟨chunk, ?_, ?_, by omega, hle, hdvd⟩
  · unfold parChunk
    rw [divCeil_eq (by omega), ok_bind, hok]
  · by_contra hzero
    have hcount : n ⌈/⌉ max threads 1 ≤ 0 := by omega
    rw [ceilDiv_le_iff_le_mul (by omega), Nat.mul_zero] at hcount
    omega

theorem WideKernel.chunk_ok (kernel : WideKernel) (threads : ℕ) {W n : ℕ} (hW : 1 ≤ W) (hn : n ≠ 0) :
    ∃ chunk, kernel.chunk W threads n = .ok chunk ∧ 0 < chunk ∧ chunk < n + W * kernel.lanes := by
  obtain ⟨chunk, hok, hpos, hlt, -⟩ := parChunk_ok threads hn (Nat.mul_pos hW kernel.lanes_pos)
  exact ⟨chunk, hok, hpos, hlt⟩

variable (counter0) in
/-- **The parallel loop**, around a kernel that writes ciphertext at the indices `stores` of its chunk. -/
theorem run_parChunks {kernel : Block → List Block → Run σ Unit} (stores : ℕ → List ℕ) (calls : ℕ → ℕ)
    (hstores : ∀ m, ∀ j ∈ stores m, j < m)
    (hkernel : ∀ c0 blk sub n, blk.length = sub.length → blk.length ≤ blocks.length →
      (kernel c0 blk).run (hold (.ofList sub) n) =
        .ok () (hold (.stored (ctrBlock rk c0 blk) sub (stores blk.length)) (n + calls blk.length)))
    {chunk : ℕ} (hchunk : 0 < chunk) (hlen : blocks.length = out.length) {order : List ℕ}
    (horder : order.Perm (List.range (blocks.length ⌈/⌉ chunk))) (n : ℕ) :
    (parChunks kernel chunk counter0 blocks order).run (hold (.ofList out) n) =
      .ok () (hold (.stored (ctrBlock rk counter0 blocks) out
          (order.flatMap fun c => (stores (chunkRange blocks.length chunk c).length).map (c * chunk + ·)))
        (n + (order.map fun c => calls (chunkRange blocks.length chunk c).length).sum)) := by
  have hassert : (chunk != 0) = true := by simpa using hchunk.ne'
  unfold parChunks
  rw [hassert, run_bind_ok (run_assert_true _ _), ← Buffer.stored_nil (ctrBlock rk counter0 blocks)]
  refine forEach_ok _ (fun cs => hold (.stored (ctrBlock rk counter0 blocks) out
    (cs.flatMap fun c => (stores (chunkRange blocks.length chunk c).length).map (c * chunk + ·)))
      (n + (cs.map fun c => calls (chunkRange blocks.length chunk c).length).sum)) order fun before c after hcut => ?_
  have hc : c < blocks.length ⌈/⌉ chunk := by
    rw [← List.mem_range, ← horder.mem_iff, hcut]
    simp
  have hstart : c * chunk < blocks.length := lt_of_lt_ceilDiv hchunk hc
  have hblk : ((blocks.drop (c * chunk)).take chunk).length = min chunk (out.length - c * chunk) := by
    rw [List.length_take, List.length_drop, hlen]
  rw [run_bind_ok (SliceState.run_onBuffer _ (EStateM.run_get _)), Buffer.length_stored, List.flatMap_append,
    List.flatMap_singleton, List.map_append, List.sum_append, List.map_singleton, List.sum_singleton,
    length_chunkRange, hlen, ← Nat.add_assoc]
  refine SliceState.run_onSlice_stored _ (by omega) (hstores _) fun sub hsub => ?_
  rw [hkernel _ _ _ _ (hblk.trans hsub.symm) (by omega), hblk]
  refine congrArg _ (congrArg (hold · _) (Buffer.stored_congr _ fun j hj => ctrBlock_chunk ?_))
  have := hstores _ j hj
  omega

/-- Past its checks a multi-core wrapper finds its chunk size and runs the parallel loop. -/
theorem WideKernel.run_encryptCtrParallel_chunk (kernel : WideKernel) {cpu : CpuFeatures}
    (hcpu : kernel.supported cpu = true) (hlen : blocks.length = out.length) (hn : blocks.length ≠ 0)
    (fuel W threads : ℕ) (order : List ℕ) (n : ℕ) :
    (kernel.encryptCtrParallel cpu fuel W threads order rk counter0 blocks : Run σ Unit).run (hold (.ofList out) n) =
      (do let chunk ← kernel.chunk W threads blocks.length
          parChunks (fun c0 blk => kernel.impl fuel W rk c0 blk) chunk counter0 blocks order : Run σ Unit).run
        (hold (.ofList out) n) := by
  have hceil : divCeil blocks.length (max threads 1) = .ok (blocks.length ⌈/⌉ max threads 1) :=
    divCeil_eq (by omega) _
  cases kernel with
  | pshufb =>
    refine (run_checked hcpu hlen _ _ _ n).trans ?_
    rw [if_neg hn, hceil, run_bind_ok (run_liftM_ok _ _)]
    unfold chunk parChunk lanes
    rw [hceil, ok_bind, Nat.mul_one]
    rfl
  | vaes256 =>
    refine (run_checked hcpu hlen _ _ _ n).trans ?_
    rw [if_neg hn]
    rfl
  | vaes512 =>
    refine (run_checked hcpu hlen _ _ _ n).trans ?_
    rw [if_neg hn]
    rfl

theorem WideKernel.run_encryptCtrParallel_loop (kernel : WideKernel) {cpu : CpuFeatures}
    (hcpu : kernel.supported cpu = true) {W threads : ℕ} (hlen : blocks.length = out.length) (hn : blocks.length ≠ 0)
    {chunk : ℕ} (hchunk : kernel.chunk W threads blocks.length = .ok chunk) (order : List ℕ) (fuel n : ℕ) :
    (kernel.encryptCtrParallel cpu fuel W threads order rk counter0 blocks : Run σ Unit).run (hold (.ofList out) n) =
      (parChunks (fun c0 blk => kernel.impl fuel W rk c0 blk) chunk counter0 blocks order : Run σ Unit).run
        (hold (.ofList out) n) := by
  rw [kernel.run_encryptCtrParallel_chunk hcpu hlen hn, hchunk, run_bind_ok (run_liftM_ok _ _)]

/-- A multi-core wrapper returns at once from an empty message. -/
theorem WideKernel.run_encryptCtrParallel_nil (kernel : WideKernel) {cpu : CpuFeatures}
    (hcpu : kernel.supported cpu = true) (hlen : blocks.length = out.length) (hn : blocks.length = 0)
    (fuel W threads : ℕ) (order : List ℕ) (n : ℕ) :
    (kernel.encryptCtrParallel cpu fuel W threads order rk counter0 blocks : Run σ Unit).run (hold (.ofList out) n) =
      .ok () (hold (.ofList out) n) := by
  cases kernel with
  | pshufb => exact (run_checked hcpu hlen _ _ _ n).trans (by rw [if_pos hn]; rfl)
  | vaes256 => exact (run_checked hcpu hlen _ _ _ n).trans (by rw [if_pos hn]; rfl)
  | vaes512 => exact (run_checked hcpu hlen _ _ _ n).trans (by rw [if_pos hn]; rfl)

/-- What a multi-core wrapper writes, in every order of the chunks, and how many blocks the scalar tails of
all chunks take. -/
theorem WideKernel.run_encryptCtrParallel_hold (kernel : WideKernel) {cpu : CpuFeatures}
    (hcpu : kernel.supported cpu = true) (hrk : 44 ≤ rk.length) {W : ℕ} (hW : 1 ≤ W) {threads : ℕ}
    (hlen : blocks.length = out.length) (hn : blocks.length ≠ 0) {order : List ℕ} {size : ℕ}
    (hsize : kernel.chunk W threads blocks.length = .ok size)
    (horder : order.Perm (List.range (blocks.length ⌈/⌉ size))) {fuel : ℕ} (hfuel : blocks.length < fuel) (n : ℕ) :
    (kernel.encryptCtrParallel cpu fuel W threads order rk counter0 blocks : Run σ Unit).run (hold (.ofList out) n) =
      .ok () (hold (.stored (ctrBlock rk counter0 blocks) out (order.flatMap (chunkRange blocks.length size)))
        (n + blocks.length % (W * kernel.lanes))) := by
  obtain ⟨size', hok, hpos, -, -, hdvd⟩ := parChunk_ok threads hn (Nat.mul_pos hW kernel.lanes_pos)
  obtain rfl : size' = size := Except.ok.inj (hok.symm.trans hsize)
  have hloop := run_parChunks counter0 List.range (· % (W * kernel.lanes)) (fun _ _ => List.mem_range.mp)
    (fun c0 blk sub n hblk hle => kernel.run_impl_hold (σ := σ) hrk hW hblk.le (hle.trans_lt hfuel) n) hpos hlen horder n
  simp only [map_range_chunkRange] at hloop
  rw [kernel.run_encryptCtrParallel_loop hcpu hlen hn hsize, hloop, (horder.map _).sum_eq,
    sum_chunkRange_mod_eq hpos hdvd]

theorem WideKernel.run_encryptCtrParallel (kernel : WideKernel) {cpu : CpuFeatures}
    (hcpu : kernel.supported cpu = true) (hrk : 44 ≤ rk.length) {W : ℕ} (hW : 1 ≤ W) (threads : ℕ)
    (hlen : blocks.length = out.length) {order : List ℕ}
    (horder : IsSchedule blocks.length (kernel.chunk W threads blocks.length) order) {fuel : ℕ}
    (hfuel : blocks.length < fuel) :
    ∃ stores, stores.Perm (List.range blocks.length) ∧
      (kernel.encryptCtrParallel cpu fuel W threads order rk counter0 blocks).run (.ofList out) =
        .ok () (.stored (ctrBlock rk counter0 blocks) out stores) := by
  by_cases hn : blocks.length = 0
  · refine ⟨[], by rw [hn, List.range_zero], ?_⟩
    rw [Buffer.stored_nil]
    exact kernel.run_encryptCtrParallel_nil (σ := Buffer Block) hcpu hlen hn fuel W threads order 0
  · obtain ⟨size, hok, hpos, -⟩ := kernel.chunk_ok threads hW hn
    have hperm := horder size hok
    refine ⟨order.flatMap (chunkRange blocks.length size), perm_flatMap_chunkRange hperm ?_,
      kernel.run_encryptCtrParallel_hold (σ := Buffer Block) hcpu hrk hW hlen hn hok hperm hfuel 0⟩
    rw [Nat.mul_comm]
    exact le_smul_ceilDiv hpos

/-- **Multi-core equals single-core**: for every wrapper, every number of threads and every order of the
chunks, both return with the same contents of `out`, and every block is written once. The chunk size is
positive, each block lies in one chunk, a kernel gets slices of equal length, and the truncated start of
a chunk gives every block of it the counter of its position in the message. -/
theorem encryptCtrParallel_eq_scalar (kernel : WideKernel) (cpu : CpuFeatures) (hcpu : kernel.supported cpu = true)
    (W : ℕ) (hW : 1 ≤ W) (threads : ℕ) (rk : Vector U32 44) (counter0 : Block) (blocks out : List Block)
    (hlen : blocks.length = out.length) (order : List ℕ)
    (horder : IsSchedule blocks.length (kernel.chunk W threads blocks.length) order)
    (fuel : ℕ) (hfuel : blocks.length < fuel) :
    (∃ out' ref, (kernel.encryptCtrParallel cpu fuel W threads order rk.toList counter0 blocks).run (.ofList out) =
        .ok () out' ∧
      (Scalar.encryptCtr rk.toList counter0 blocks).run (.ofList out) = .ok () ref ∧
      out'.data = ref.data ∧ out'.stores.Perm (List.range blocks.length)) ∧
    (blocks.length ≠ 0 → ∃ chunk, kernel.chunk W threads blocks.length = .ok chunk ∧ chunk ≠ 0 ∧
      chunk < blocks.length + W * kernel.lanes ∧
      (∀ i < blocks.length, ∃! c, c ∈ order ∧ i ∈ chunkRange blocks.length chunk c) ∧
      (∀ c, ((blocks.drop (c * chunk)).take chunk).length = min chunk (out.length - c * chunk)) ∧
      ∀ c j, counterAt (counterBlock counter0 (BitVec.ofNat 32 (c * chunk))) j = counterAt counter0 (c * chunk + j)) := by
  have hrk : 44 ≤ rk.toList.length := by simp
  refine ⟨?_, fun hn => ?_⟩
  · obtain ⟨stores, hperm, hrun⟩ := kernel.run_encryptCtrParallel hcpu hrk hW threads hlen horder hfuel
    refine ⟨_, _, hrun, Scalar.run_encryptCtr hrk _ _ _, ?_, hperm⟩
    refine Buffer.stored_data_congr _ _ _ fun i hi => ?_
    rw [hperm.mem_iff, hlen, Nat.min_self]
  · obtain ⟨chunk, hok, hpos, hlt⟩ := kernel.chunk_ok threads hW hn
    refine ⟨chunk, hok, hpos.ne', hlt, fun i hi => ⟨i / chunk, ⟨?_, (mem_chunkRange hpos).mpr ⟨hi, rfl⟩⟩, ?_⟩, fun c => ?_,
      fun c j => ?_⟩
    · rw [(horder chunk hok).mem_iff, List.mem_range, Nat.div_lt_iff_lt_mul hpos, Nat.mul_comm]
      exact hi.trans_le (le_smul_ceilDiv hpos)
    · rintro c ⟨-, hc⟩
      exact ((mem_chunkRange hpos).mp hc).2.symm
    · rw [List.length_take, List.length_drop, hlen]
    · rw [counterBlock_ofNat, counterAt_add]

/-- Three blocks on two threads, the second chunk first. -/
theorem encryptCtrParallel_eq_scalar_three :
    ∃ out' ref, (WideKernel.pshufb.encryptCtrParallel ⟨true, true, true, true, true, true⟩ 4 2 2 [1, 0]
        (Vector.replicate 44 0).toList default [default, default, default]).run
          (.ofList [default, default, default]) = .ok () out' ∧
      (Scalar.encryptCtr (Vector.replicate 44 0).toList default [default, default, default]).run
        (.ofList [default, default, default]) = .ok () ref ∧ out'.data = ref.data := by
  have horder : IsSchedule 3 (WideKernel.pshufb.chunk 2 2 3) [1, 0] := by
    intro size hsize
    obtain rfl : 2 = size := Except.ok.inj hsize
    decide
  obtain ⟨⟨out', ref, hkernel, hscalar, hdata, -⟩, -⟩ := encryptCtrParallel_eq_scalar .pshufb
    ⟨true, true, true, true, true, true⟩ rfl 2 (by decide) 2 (Vector.replicate 44 0) default [default, default, default]
    [default, default, default] (by decide) [1, 0] horder 4 (by decide)
  exact ⟨out', ref, hkernel, hscalar, hdata⟩

end CudaAes
