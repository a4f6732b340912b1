import CudaAes.Cpu.Kernels

/-!
# The AES-NI kernels equal the scalar backend

For each kernel: what one turn of its wide loop does (`run_group`, `run_pshufbGroup`), from it what
the whole kernel writes, and the comparison with `scalar::encrypt_ctr`.
-/

namespace CudaAes

open Rust Fips197
open SliceState (hold onBuffer)

variable {σ : Type} [SliceState σ Block] {rk : List U32} {counter0 : Block} {blocks out : List Block}

/-! ## `encrypt_ctr` -/

/-- The registers of one turn after the rounds: the keystream from block `i` on, in state order. -/
theorem group_registers (W i : ℕ) :
    (rounds.foldl (fun s r => s.map (mmAesencSi128 · (scheduleKeys rk r)))
        ((List.range W).map fun j =>
          mmXorSi128 (stateOf (counterAt counter0 (i + j))) (scheduleKeys rk 0))).map
      (mmAesenclastSi128 · (scheduleKeys rk 10)) =
    (List.range W).map fun j => stateOf (keystream rk counter0 (i + j)) := by
  rw [foldl_map_lockstep (fun r s => mmAesencSi128 s (scheduleKeys rk r)), List.map_map, List.map_map]
  exact List.map_congr_left fun j _ => aesenc_stateOf rk _

/-- The last loop of a turn: entry `j` of the registers goes to block `i + j`. -/
def Aesni.storeEntry (s : List M128) (blocks : List Block) (i j : ℕ) : Run (Buffer Block) Unit := do
  let ks := storeWords (← index s j)
  let pt ← index blocks (i + j)
  Buffer.set (i + j) (xorBlock pt ks)

theorem Aesni.group_eq (W : ℕ) (blocks : List Block) (i : ℕ) :
    Aesni.group W (scheduleKeys rk) counter0 blocks i = do
      forM (List.range W) (Aesni.storeEntry ((List.range W).map fun j => stateOf (keystream rk counter0 (i + j))) blocks i)
      return i + W := by
  simp only [Aesni.group, loadWords_eq, counterBlock_ofNat, group_registers]
  rfl

theorem Aesni.storeEntry_eq {W i j : ℕ} (hj : j < W) (h : i + j < blocks.length) :
    Aesni.storeEntry ((List.range W).map fun j => stateOf (keystream rk counter0 (i + j))) blocks i j =
      Buffer.set (i + j) (ctrBlock rk counter0 blocks (i + j)) := by
  unfold Aesni.storeEntry
  rw [index_lt (by simpa using hj), index_lt h, List.getElem_map, List.getElem_range, ctrBlock_lt h]
  show Buffer.set (i + j) (xorBlock blocks[i + j] (storeWords (stateOf (keystream rk counter0 (i + j))))) = _
  rw [storeWords_eq, blockOf_stateOf]

theorem Aesni.run_group {W i : ℕ} (h : i + W ≤ blocks.length) (hout : i + W ≤ out.length) :
    (Aesni.group W (scheduleKeys rk) counter0 blocks i).run
        (.stored (ctrBlock rk counter0 blocks) out (List.range i)) =
      .ok (i + W) (.stored (ctrBlock rk counter0 blocks) out (List.range (i + W))) := by
  rw [Aesni.group_eq]
  refine run_bind_ok (forM_range_seq _ (fun j => Buffer.stored (ctrBlock rk counter0 blocks) out (List.range (i + j))) W ?_)
  intro j hj
  rw [Aesni.storeEntry_eq hj (by omega)]
  exact run_set_ctrBlock (by omega)

/-- A turn panics at the end of a short `out`, having stored the blocks before it. -/
theorem Aesni.run_group_short {W i : ℕ} (h : i + W ≤ blocks.length) (hi : i ≤ out.length) (hout : out.length < i + W) :
    (Aesni.group W (scheduleKeys rk) counter0 blocks i).run
        (.stored (ctrBlock rk counter0 blocks) out (List.range i)) =
      .error (.indexOutOfBounds out.length out.length)
        (.stored (ctrBlock rk counter0 blocks) out (List.range out.length)) := by
  obtain ⟨j, hj⟩ := Nat.exists_eq_add_of_le hi
  rw [Aesni.group_eq]
  refine run_bind_error (forM_range_fault _
    (fun j => Buffer.stored (ctrBlock rk counter0 blocks) out (List.range (i + j))) (m := j) (by omega) ?_ ?_)
  · intro j' hj'
    rw [Aesni.storeEntry_eq (by omega) (by omega)]
    exact run_set_ctrBlock (by omega)
  · rw [Aesni.storeEntry_eq (by omega) (by omega), ← hj]
    exact Buffer.run_set_stored_ge _ _ le_rfl _

theorem Aesni.run_encryptCtrImpl (hrk : 44 ≤ rk.length) {W : ℕ} (hW : 1 ≤ W) (hlen : blocks.length ≤ out.length)
    {fuel : ℕ} (hfuel : blocks.length < fuel) :
    (Aesni.encryptCtrImpl fuel W rk counter0 blocks).run (.ofList out) =
      .ok () (.stored (ctrBlock rk counter0 blocks) out (List.range blocks.length)) := by
  obtain ⟨hwide, -⟩ := run_wideLoop rk counter0 blocks out hW id (· * W) (fun _ => rfl)
    (Aesni.group W (scheduleKeys rk) counter0 blocks) 0
    fun k hk => by rw [Nat.succ_mul]; exact Aesni.run_group hk (hk.trans hlen)
  rw [Nat.zero_mul] at hwide
  unfold Aesni.encryptCtrImpl
  rw [roundKeys_eq hrk, run_bind_ok (run_liftM_ok _ _)]
  refine (run_bind_ok (hwide fuel hfuel)).trans ?_
  rw [Nat.div_mul_self_eq_mod_sub_self]
  exact run_map_ok (run_tail (σ := Buffer Block) hlen (Nat.mod_le _ _) ((Nat.mod_le _ _).trans_lt hfuel) 0)

theorem Aesni.run_encryptCtr {cpu : CpuFeatures} (hcpu : cpu.aes = true) (hrk : 44 ≤ rk.length) {W : ℕ} (hW : 1 ≤ W)
    (hlen : blocks.length ≤ out.length) {fuel : ℕ} (hfuel : blocks.length < fuel) :
    (Aesni.encryptCtr cpu fuel W rk counter0 blocks).run (.ofList out) =
      .ok () (.stored (ctrBlock rk counter0 blocks) out (List.range blocks.length)) := by
  unfold Aesni.encryptCtr
  rw [hcpu, run_bind_ok (run_assert_true _ _)]
  exact Aesni.run_encryptCtrImpl hrk hW hlen hfuel

/-- **The AES-NI kernel equals the scalar backend**: both return, with the same contents of `out`,
which are the CTR ciphertext in its first entries and untouched after them. -/
theorem Aesni.encryptCtr_eq_scalar (cpu : CpuFeatures) (hcpu : cpu.aes = true) (W : ℕ) (hW : 1 ≤ W)
    (rk : Vector U32 44) (counter0 : Block) (blocks out : List Block) (hlen : blocks.length ≤ out.length)
    (fuel : ℕ) (hfuel : blocks.length < fuel) :
    ∃ out', (Aesni.encryptCtr cpu fuel W rk.toList counter0 blocks).run (.ofList out) = .ok () out' ∧
      (Scalar.encryptCtr rk.toList counter0 blocks).run (.ofList out) = .ok () out' ∧
      out'.data.length = out.length ∧
      (∀ i (hi : i < blocks.length), ∃ ks,
        encryptBlock (counterAt counter0 i) rk.toList t0 t1 t2 t3 sboxU32 = .ok ks ∧
        out'.data[i]? = some (xorBlock blocks[i] ks)) ∧
      ∀ i, blocks.length ≤ i → out'.data[i]? = out[i]? := by
  have hrk : 44 ≤ rk.toList.length := by simp
  refine ⟨.stored (ctrBlock rk.toList counter0 blocks) out (List.range blocks.length), ?_, ?_, by simp, ?_, ?_⟩
  · exact Aesni.run_encryptCtr hcpu hrk hW hlen hfuel
  · rw [Scalar.run_encryptCtr hrk, Nat.min_eq_right hlen]
  · intro i hi
    refine ⟨keystream rk.toList counter0 i, encryptBlock_eq hrk _, ?_⟩
    rw [Buffer.getElem?_stored_mem _ _ (List.mem_range.mpr hi) (hi.trans_le hlen), ctrBlock_lt hi]
  · intro i hi
    exact Buffer.getElem?_stored_not_mem _ _ (by simpa using hi)

theorem Aesni.encryptCtr_eq_scalar_three :
    ∃ out', (Aesni.encryptCtr ⟨true, true, true, true, true, true⟩ 4 2 (Vector.replicate 44 0).toList default
        [default, default, default]).run (.ofList [default, default, default, default]) = .ok () out' ∧
      (Scalar.encryptCtr (Vector.replicate 44 0).toList default [default, default, default]).run
        (.ofList [default, default, default, default]) = .ok () out' := by
  obtain ⟨out', hkernel, hscalar, -⟩ := Aesni.encryptCtr_eq_scalar ⟨true, true, true, true, true, true⟩ rfl 2 (by decide)
    (Vector.replicate 44 0) default [default, default, default] [default, default, default, default] (by decide) 4
    (by decide)
  exact ⟨out', hkernel, hscalar⟩

/-! ## `encrypt_ctr_pshufb` -/

/-- The loop that fills the registers, after `j` of them: the registers hold blocks `i` to `i + j - 1`
and the counter register is that of block `i + j`. -/
theorem iterate_seedRegister (key0 : M128) (i j : ℕ) :
    (seedRegister key0)^[j] ([], native (counterAt counter0 i)) =
      ((List.range j).map fun j => mmXorSi128 (stateOf (counterAt counter0 (i + j))) key0,
        native (counterAt counter0 (i + j))) := by
  induction j with
  | zero => rfl
  | succ j ih =>
    rw [Function.iterate_succ_apply', ih, seedRegister, mmShuffleEpi8_native, List.range_succ, List.map_append]
    exact congrArg (Prod.mk _) (mmAddEpi32_counterAt counter0 (i + j) 1)

theorem run_pshufbGroup (hlen : blocks.length ≤ out.length) {W i : ℕ} (h : i + W ≤ blocks.length) (n : ℕ) :
    (pshufbGroup W (scheduleKeys rk) blocks (i, native (counterAt counter0 i)) : Run σ (ℕ × M128)).run
        (hold (.stored (ctrBlock rk counter0 blocks) out (List.range i)) n) =
      .ok (i + W, native (counterAt counter0 (i + W)))
        (hold (.stored (ctrBlock rk counter0 blocks) out (List.range (i + W))) n) := by
  have hstore : ∀ j < W,
      (do let pt ← loadu 1 blocks (i + j)
          let ks := mmShuffleEpi8 (stateOf (keystream rk counter0 (i + j))) bswapMask
          onBuffer (storeu (L := 1) (i + j) fun _ => mmXorSi128 (pt 0) ks) : Run σ Unit).run
        (hold (.stored (ctrBlock rk counter0 blocks) out (List.range (i + j))) n) =
        .ok () (hold (.stored (ctrBlock rk counter0 blocks) out (List.range (i + (j + 1)))) n) := by
    intro j hj
    rw [loadu_eq (by omega), run_bind_ok (run_liftM_ok _ _), mmShuffleEpi8_stateOf]
    refine SliceState.run_onBuffer n (run_storeu_ctrBlock (by omega) _ fun k => ?_)
    rw [mmXorSi128_native, Subsingleton.elim k 0]
    rfl
  have hloop := forM_range_seq _ (fun j => hold (.stored (ctrBlock rk counter0 blocks) out (List.range (i + j))) n) W
    hstore
  simp only [pshufbGroup, iterate_seedRegister, group_registers, zipIdx_map_range, List.forM_map]
  exact run_bind_ok hloop

/-- The heads of the main loop of `encrypt_ctr_pshufb_impl`: its variables `i` and `ctr`, and `out`. -/
def PshufbHead (W : ℕ) (keys : Fin 11 → M128) (counter0 : Block) (blocks out : List Block) :
    ℕ × M128 → Buffer Block → Prop :=
  LoopHead (fun x => decide (x.1 + W ≤ blocks.length)) (pshufbGroup W keys blocks) (0, counterSeed counter0)
    (.ofList out)

variable (rk counter0) in
theorem run_pshufbLoop (hlen : blocks.length ≤ out.length) {W : ℕ} (hW : 1 ≤ W) (n : ℕ) :
    (∀ fuel, blocks.length < fuel →
      (whileLoop (fun x => decide (x.1 + W ≤ blocks.length)) (pshufbGroup W (scheduleKeys rk) blocks) fuel
        (0, counterSeed counter0) : Run σ (ℕ × M128)).run (hold (.ofList out) n) =
      .ok (blocks.length - blocks.length % W, native (counterAt counter0 (blocks.length - blocks.length % W)))
        (hold (.stored (ctrBlock rk counter0 blocks) out (List.range (blocks.length - blocks.length % W))) n)) ∧
    ∀ x (s : σ), LoopHead (fun x => decide (x.1 + W ≤ blocks.length)) (pshufbGroup W (scheduleKeys rk) blocks)
        (0, counterSeed counter0) (hold (.ofList out) n) x s →
      ∃ k, k * W ≤ blocks.length ∧ x = (k * W, native (counterAt counter0 (k * W))) ∧
        s = hold (.stored (ctrBlock rk counter0 blocks) out (List.range (k * W))) n := by
  have hloop := run_wideLoop (σ := σ) rk counter0 blocks out hW Prod.fst
    (fun k => (k * W, native (counterAt counter0 (k * W)))) (fun _ => rfl) (pshufbGroup W (scheduleKeys rk) blocks) n
    fun k hk => by rw [run_pshufbGroup hlen hk, Nat.succ_mul]
  have hentry : (0 * W, native (counterAt counter0 (0 * W))) = (0, counterSeed counter0) := by
    rw [Nat.zero_mul, counterSeed_eq]
  rw [hentry, Nat.div_mul_self_eq_mod_sub_self] at hloop
  exact hloop

theorem run_encryptCtrPshufbImpl (hrk : 44 ≤ rk.length) {W : ℕ} (hW : 1 ≤ W) (hlen : blocks.length ≤ out.length)
    {fuel : ℕ} (hfuel : blocks.length < fuel) (n : ℕ) :
    (encryptCtrPshufbImpl fuel W rk counter0 blocks : Run σ Unit).run (hold (.ofList out) n) =
      .ok () (hold (.stored (ctrBlock rk counter0 blocks) out (List.range blocks.length))
        (n + blocks.length % W)) := by
  unfold encryptCtrPshufbImpl
  rw [roundKeys_eq hrk, run_bind_ok (run_liftM_ok _ _),
    run_bind_ok ((run_pshufbLoop rk counter0 hlen hW n).1 fuel hfuel)]
  exact run_map_ok (run_tail hlen (Nat.mod_le _ _) ((Nat.mod_le _ _).trans_lt hfuel) n)

theorem run_encryptCtrPshufb {cpu : CpuFeatures} (hcpu : (cpu.aes && cpu.ssse3) = true) (hrk : 44 ≤ rk.length) {W : ℕ}
    (hW : 1 ≤ W) (hlen : blocks.length = out.length) {fuel : ℕ} (hfuel : blocks.length < fuel) (n : ℕ) :
    (encryptCtrPshufb cpu fuel W rk counter0 blocks : Run σ Unit).run (hold (.ofList out) n) =
      .ok () (hold (.stored (ctrBlock rk counter0 blocks) out (List.range blocks.length))
        (n + blocks.length % W)) :=
  (run_checked hcpu hlen _ _ _ n).trans (run_encryptCtrPshufbImpl hrk hW hlen.le hfuel n)

/-- The way of one counter through the kernel: byte swap, first round key, rounds, byte swap. -/
def pshufbRegister (keys : Fin 11 → M128) (ctr : M128) : M128 :=
  mmShuffleEpi8 (mmAesenclastSi128 (rounds.foldl (fun s r => mmAesencSi128 s (keys r))
    (mmXorSi128 (mmShuffleEpi8 ctr bswapMask) (keys 0))) (keys 10)) bswapMask

/-- The byte swaps before and after the rounds cancel against the packing of the keys. -/
theorem pshufbRegister_native (rk : List U32) (b : Block) :
    pshufbRegister (scheduleKeys rk) (native b) = native (cipherBlock rk b) := by
  unfold pshufbRegister
  rw [mmShuffleEpi8_native, aesenc_stateOf, mmShuffleEpi8_stateOf]

/-- **The PSHUFB kernel equals the scalar backend**: both return with the same contents of `out`. At
every head of the main loop `i` blocks are done, and after `j` turns of the loop that fills the
registers the counter register is that of block `i + j`; a counter goes through the kernel to its
keystream block, and the remainder starts at `n - n % W`. -/
theorem encryptCtrPshufb_eq_scalar (cpu : CpuFeatures) (hcpu : cpu.aes = true ∧ cpu.ssse3 = true) (W : ℕ) (hW : 1 ≤ W)
    (rk : Vector U32 44) (counter0 : Block) (blocks out : List Block) (hlen : blocks.length = out.length)
    (fuel : ℕ) (hfuel : blocks.length < fuel) :
    (∃ out', (encryptCtrPshufb cpu fuel W rk.toList counter0 blocks).run (.ofList out) = .ok () out' ∧
      (Scalar.encryptCtr rk.toList counter0 blocks).run (.ofList out) = .ok () out') ∧
    ∃ keys, roundKeys rk.toList = .ok keys ∧
      (∀ i ctr s, PshufbHead W keys counter0 blocks out (i, ctr) s →
        W ∣ i ∧ i ≤ blocks.length ∧ s.stores = List.range i ∧
        ∀ j ≤ W, ((seedRegister (keys 0))^[j] ([], ctr)).2 = native (counterAt counter0 (i + j))) ∧
      (∀ b, ∃ ks, encryptBlock b rk.toList t0 t1 t2 t3 sboxU32 = .ok ks ∧
        pshufbRegister keys (native b) = native ks) ∧
      ∃ ctr s, (whileLoop (fun x => decide (x.1 + W ≤ blocks.length)) (pshufbGroup W keys blocks) fuel
          (0, counterSeed counter0)).run (.ofList out) = .ok (blocks.length - blocks.length % W, ctr) s ∧
        s.stores = List.range (blocks.length - blocks.length % W) := by
  have hrk : 44 ≤ rk.toList.length := by simp
  obtain ⟨hloop, hheads⟩ := run_pshufbLoop (σ := Buffer Block) rk.toList counter0 hlen.le hW 0
  refine ⟨⟨_, run_encryptCtrPshufb (σ := Buffer Block) (by simp [hcpu]) hrk hW hlen hfuel 0, ?_⟩, scheduleKeys rk.toList, roundKeys_eq hrk,
    ?_, ?_, _, _, hloop fuel hfuel, rfl⟩
  · rw [Scalar.run_encryptCtr hrk, hlen, Nat.min_self]
    rfl
  · intro i ctr s hhead
    obtain ⟨k, hk, hx, rfl⟩ := hheads _ _ hhead
    obtain ⟨rfl, rfl⟩ := Prod.mk.inj hx
    refine ⟨Nat.dvd_mul_left W k, hk, rfl, fun j _ => ?_⟩
    rw [iterate_seedRegister]
  · exact fun b => ⟨cipherBlock rk.toList b, encryptBlock_eq hrk b, pshufbRegister_native _ b⟩

theorem encryptCtrPshufb_eq_scalar_three :
    ∃ out', (encryptCtrPshufb ⟨true, true, true, true, true, true⟩ 4 2 (Vector.replicate 44 0).toList default
        [default, default, default]).run (.ofList [default, default, default]) = .ok () out' ∧
      (Scalar.encryptCtr (Vector.replicate 44 0).toList default [default, default, default]).run
        (.ofList [default, default, default]) = .ok () out' :=
  (encryptCtrPshufb_eq_scalar ⟨true, true, true, true, true, true⟩ ⟨rfl, rfl⟩ 2 (by decide) (Vector.replicate 44 0) default
    [default, default, default] [default, default, default] (by decide) 4 (by decide)).1

end CudaAes
