import CudaAes.Cpu.Aesni

/-!
# What every SIMD kernel does

The parts the kernels share: the packed round keys, the byte swap, one block through the AES
instructions, and the shape of a kernel, which is a wide loop that takes `G` blocks a turn and the
remainder loop that takes the blocks left over. A kernel whose turns write `ctrBlock` writes it
everywhere (`run_wideLoop`, `run_remainder`).
-/

namespace CudaAes

open Rust Fips197
open SliceState (hold onBuffer)

/-! ## Keys, byte swaps and one block -/

theorem loadWords_eq (b : Block) : loadWords b = stateOf b := rfl

theorem storeWords_eq (v : M128) : storeWords v = blockOf v := rfl

theorem foldl_update {ι β : Type} [DecidableEq ι] (f : ι → β) (xs : List ι) (k : ι → β) :
    xs.foldl (fun k r => Function.update k r (f r)) k = fun r => if r ∈ xs then f r else k r := by
  induction xs generalizing k with
  | nil => simp
  | cons x xs ih =>
    rw [List.foldl_cons, ih]
    funext r
    by_cases hx : r = x
    · subst hx
      simp
    · simp [hx]

/-- `round_keys` packs the schedule into the round keys of the standard. -/
theorem roundKeys_eq {rk : List U32} (hrk : 44 ≤ rk.length) : roundKeys rk = .ok (scheduleKeys rk) := by
  unfold roundKeys
  rw [foldlM_ok _ (fun k r => Function.update k r (scheduleKeys rk r)), foldl_update]
  · simp
  · intro k r _
    have hr := r.isLt
    rw [index_getD (by omega), index_getD (by omega), index_getD (by omega), index_getD (by omega)]
    rfl

/-- Both directions of the byte swap reverse the bytes of each element. -/
theorem mmShuffleEpi8_bswapMask (a : M128) :
    mmShuffleEpi8 a bswapMask = a.map fun x => ⟨x.e3, x.e2, x.e1, x.e0⟩ := rfl

/-- The byte swap takes native order to state order, the order `round_keys` packs the keys in. -/
theorem mmShuffleEpi8_native (b : Block) : mmShuffleEpi8 (native b) bswapMask = stateOf b := by
  rw [mmShuffleEpi8_bswapMask]
  rfl

/-- The same byte swap takes state order back. -/
theorem mmShuffleEpi8_stateOf (b : Block) : mmShuffleEpi8 (stateOf b) bswapMask = native b := by
  rw [mmShuffleEpi8_bswapMask]
  rfl

theorem counterBlock_ofNat (counter0 : Block) (i : ℕ) :
    counterBlock counter0 (BitVec.ofNat 32 i) = counterAt counter0 i := rfl

theorem counterSeed_eq (counter0 : Block) : counterSeed counter0 = native (counterAt counter0 0) := by
  rw [counterAt_zero]
  rfl

theorem mmAddEpi32_counterAt (counter0 : Block) (i x : ℕ) :
    mmAddEpi32 (native (counterAt counter0 i)) (mmSetEpi32 (BitVec.ofNat 32 x) 0 0 0) =
      native (counterAt counter0 (i + x)) := by
  rw [mmAddEpi32_native, ← counterAt_add]
  rfl

/-- One state through the AES instructions: the first round key, nine rounds and the last round. -/
theorem aesenc_stateOf (rk : List U32) (b : Block) :
    mmAesenclastSi128 (rounds.foldl (fun s r => mmAesencSi128 s (scheduleKeys rk r))
      (mmXorSi128 (stateOf b) (scheduleKeys rk 0))) (scheduleKeys rk 10) = stateOf (cipherBlock rk b) := by
  unfold cipherBlock
  rw [stateOf_blockOf, ByteMaps.cipher, mmAesenclastSi128_eq, mmXorSi128_eq,
    show rounds = midRounds from rfl]
  simp only [mmAesencSi128_eq]

/-- Chains that run in lockstep run like single chains. -/
theorem foldl_map_lockstep {ι α : Type} (g : ι → α → α) (rs : List ι) (xs : List α) :
    rs.foldl (fun s r => s.map (g r)) xs = xs.map fun x => rs.foldl (fun x r => g r x) x := by
  induction rs generalizing xs with
  | nil => simp
  | cons r rs ih =>
    rw [List.foldl_cons, ih, List.map_map]
    rfl

theorem zipIdx_map_range {α : Type} (g : ℕ → α) (W : ℕ) :
    ((List.range W).map g).zipIdx = (List.range W).map fun j => (g j, j) := by
  apply List.ext_getElem
  · simp
  · intro j h1 h2
    simp

/-! ## Writing the ciphertext in order -/

section
variable {σ : Type} [SliceState σ Block] {rk : List U32} {counter0 : Block} {blocks out : List Block}

theorem run_set_ctrBlock {i : ℕ} (h : i < out.length) :
    (Buffer.set i (ctrBlock rk counter0 blocks i)).run (.stored (ctrBlock rk counter0 blocks) out (List.range i)) =
      .ok () (.stored (ctrBlock rk counter0 blocks) out (List.range (i + 1))) := by
  rw [Buffer.run_set_stored _ _ h, List.range_succ]

theorem run_storeu_ctrBlock {L i : ℕ} (h : i + L ≤ out.length) (v : Wide L)
    (hv : ∀ k : Fin L, v k = native (ctrBlock rk counter0 blocks (i + k))) :
    (storeu i v).run (.stored (ctrBlock rk counter0 blocks) out (List.range i)) =
      .ok () (.stored (ctrBlock rk counter0 blocks) out (List.range (i + L))) := by
  unfold storeu
  rw [Buffer.run_storeRaw_stored _ _ (by simpa using h), List.length_ofFn, range_append_range']
  intro j hj
  rw [List.getElem_ofFn, hv, ofNative_native]

/-- `encrypt_one` gives the cipher, and is counted. -/
theorem run_encryptOne (rk : List U32) (b : Block) (s : Buffer Block) (n : ℕ) :
    (encryptOne (scheduleKeys rk) b : Run σ Block).run (hold s n) = .ok (cipherBlock rk b) (hold s (n + 1)) := by
  have hcipher : storeWords (mmAesenclastSi128 (rounds.foldl (fun s r => mmAesencSi128 s (scheduleKeys rk r))
      (mmXorSi128 (loadWords b) (scheduleKeys rk 0))) (scheduleKeys rk 10)) = cipherBlock rk b := by
    rw [loadWords_eq, storeWords_eq, aesenc_stateOf, blockOf_stateOf]
  unfold encryptOne
  rw [run_bind_ok (SliceState.run_call s n)]
  exact congrArg (EStateM.Result.ok · (hold s (n + 1))) hcipher

/-- One turn of the remainder loop, whatever has been stored. -/
theorem run_remainderBlock {i : ℕ} (h : i < blocks.length) (hout : i < out.length) (is : List ℕ) (n : ℕ) :
    (remainderBlock (scheduleKeys rk) counter0 blocks i : Run σ ℕ).run
        (hold (.stored (ctrBlock rk counter0 blocks) out is) n) =
      .ok (i + 1) (hold (.stored (ctrBlock rk counter0 blocks) out (is ++ [i])) (n + 1)) := by
  have hset := Buffer.run_set_stored (ctrBlock rk counter0 blocks) is hout
  unfold remainderBlock
  rw [run_bind_ok (run_encryptOne rk _ _ n), index_lt h, run_bind_ok (run_liftM_ok _ _), counterBlock_ofNat, ← keystream,
    ← ctrBlock_lt h, run_bind_ok (SliceState.run_onBuffer (n + 1) hset)]
  rfl

/-- The remainder panics at the end of a short `out`. -/
theorem run_remainderBlock_short (h : out.length < blocks.length) :
    (remainderBlock (scheduleKeys rk) counter0 blocks out.length).run
        (.stored (ctrBlock rk counter0 blocks) out (List.range out.length)) =
      .error (.indexOutOfBounds out.length out.length)
        (.stored (ctrBlock rk counter0 blocks) out (List.range out.length)) := by
  unfold remainderBlock
  refine (run_bind_ok (run_encryptOne (σ := Buffer Block) rk _ _ 0)).trans ?_
  rw [index_lt h, run_bind_ok (run_liftM_ok _ _)]
  exact run_bind_error (Buffer.run_set_stored_ge _ _ le_rfl _)

/-- **The remainder loop** stores the blocks left, one call of `encrypt_one` each. -/
theorem run_remainder (hlen : blocks.length ≤ out.length) {i fuel : ℕ} (hi : i ≤ blocks.length)
    (hfuel : blocks.length - i < fuel) (is : List ℕ) (n : ℕ) :
    (remainder (scheduleKeys rk) counter0 blocks fuel i : Run σ ℕ).run
        (hold (.stored (ctrBlock rk counter0 blocks) out is) n) =
      .ok blocks.length (hold (.stored (ctrBlock rk counter0 blocks) out (is ++ List.range' i (blocks.length - i)))
        (n + (blocks.length - i))) := by
  have hrun : (remainder (scheduleKeys rk) counter0 blocks fuel (i + 0) : Run σ ℕ).run
        (hold (.stored (ctrBlock rk counter0 blocks) out (is ++ List.range' i 0)) (n + 0)) =
      .ok (i + (blocks.length - i)) (hold (.stored (ctrBlock rk counter0 blocks) out
        (is ++ List.range' i (blocks.length - i))) (n + (blocks.length - i))) := by
    refine whileLoop_seq (i + ·)
      (fun k => hold (.stored (ctrBlock rk counter0 blocks) out (is ++ List.range' i k)) (n + k))
      (blocks.length - i) (fun k hk => ?_) (decide_eq_false (by omega)) hfuel
    have hlt : i + k < blocks.length := by omega
    rw [List.range'_1_concat, ← List.append_assoc]
    exact ⟨decide_eq_true hlt, run_remainderBlock hlt (hlt.trans_le hlen) _ _⟩
  rwa [Nat.add_sub_cancel' hi, List.range'_zero, List.append_nil] at hrun

/-- The last `m` blocks of a message, after the blocks before them. -/
theorem run_tail (hlen : blocks.length ≤ out.length) {m fuel : ℕ} (hm : m ≤ blocks.length) (hfuel : m < fuel) (n : ℕ) :
    (remainder (scheduleKeys rk) counter0 blocks fuel (blocks.length - m) : Run σ ℕ).run
        (hold (.stored (ctrBlock rk counter0 blocks) out (List.range (blocks.length - m))) n) =
      .ok blocks.length (hold (.stored (ctrBlock rk counter0 blocks) out (List.range blocks.length)) (n + m)) := by
  have hleft : blocks.length - (blocks.length - m) = m := Nat.sub_sub_self hm
  rw [run_remainder hlen (Nat.sub_le _ _) (by rwa [hleft]), range_append_range', hleft, Nat.sub_add_cancel hm]

variable (rk counter0 blocks out) in
/-- **The wide loop.** A loop that takes `G` blocks a turn, with `head k` as its variables after `k`
turns, stops before the remainder, and its heads are the `head k`. -/
theorem run_wideLoop {β : Type} {G : ℕ} (hG : 0 < G) (idx : β → ℕ) (head : ℕ → β)
    (hidx : ∀ k, idx (head k) = k * G) (body : β → Run σ β) (n : ℕ)
    (hbody : ∀ k, k * G + G ≤ blocks.length →
      (body (head k)).run (hold (.stored (ctrBlock rk counter0 blocks) out (List.range (k * G))) n) =
        .ok (head (k + 1)) (hold (.stored (ctrBlock rk counter0 blocks) out (List.range (k * G + G))) n)) :
    (∀ fuel, blocks.length < fuel →
      (whileLoop (fun x => decide (idx x + G ≤ blocks.length)) body fuel (head 0)).run (hold (.ofList out) n) =
        .ok (head (blocks.length / G))
          (hold (.stored (ctrBlock rk counter0 blocks) out (List.range (blocks.length - blocks.length % G))) n)) ∧
    ∀ x s, LoopHead (fun x => decide (idx x + G ≤ blocks.length)) body (head 0) (hold (.ofList out) n) x s →
      ∃ k, k * G ≤ blocks.length ∧ x = head k ∧
        s = hold (.stored (ctrBlock rk counter0 blocks) out (List.range (k * G))) n := by
  have hentry : Buffer.ofList out = .stored (ctrBlock rk counter0 blocks) out (List.range (0 * G)) := by
    rw [Nat.zero_mul, List.range_zero, Buffer.stored_nil]
  have hturn : ∀ k < blocks.length / G, decide (idx (head k) + G ≤ blocks.length) = true ∧
      (body (head k)).run (hold (.stored (ctrBlock rk counter0 blocks) out (List.range (k * G))) n) =
        .ok (head (k + 1)) (hold (.stored (ctrBlock rk counter0 blocks) out (List.range ((k + 1) * G))) n) := by
    intro k hk
    have hle : k * G + G ≤ blocks.length := by
      rw [← Nat.succ_mul]
      exact (Nat.le_div_iff_mul_le hG).mp hk
    refine ⟨by rw [hidx]; simpa using hle, ?_⟩
    rw [hbody k hle, Nat.succ_mul]
  have hstop : decide (idx (head (blocks.length / G)) + G ≤ blocks.length) = false := by
    have := Nat.lt_div_mul_add hG (a := blocks.length)
    rw [hidx]
    simpa using this
  rw [hentry, ← Nat.div_mul_self_eq_mod_sub_self]
  refine ⟨fun fuel hfuel => ?_, fun x s hx => ?_⟩
  · exact whileLoop_seq head (fun k => hold (.stored (ctrBlock rk counter0 blocks) out (List.range (k * G))) n)
      (blocks.length / G) hturn hstop ((Nat.div_le_self _ _).trans_lt hfuel)
  · obtain ⟨k, hk, hx, hs⟩ := LoopHead.seq head
      (fun k => hold (.stored (ctrBlock rk counter0 blocks) out (List.range (k * G))) n) (blocks.length / G) hturn hstop hx
    exact ⟨k, (Nat.mul_le_mul_right G hk).trans (Nat.div_mul_le_self _ _), hx, hs⟩

/-- The checks that a public wrapper makes before its kernel. -/
theorem run_checked {detected : Bool} (hcpu : detected = true) (hlen : blocks.length = out.length)
    (missing short : String) (kernel : Run σ Unit) (n : ℕ) :
    (do assert detected missing
        let out ← onBuffer get
        assert (blocks.length == out.data.length) short
        kernel : Run σ Unit).run (hold (.ofList out) n) = kernel.run (hold (.ofList out) n) := by
  have hassert : (blocks.length == (Buffer.ofList out).data.length) = true := by
    rw [hlen]
    exact beq_self_eq_true _
  rw [hcpu, run_bind_ok (run_assert_true _ _),
    run_bind_ok (SliceState.run_onBuffer n (EStateM.run_get (Buffer.ofList out))), hassert,
    run_bind_ok (run_assert_true _ _)]

end

end CudaAes
