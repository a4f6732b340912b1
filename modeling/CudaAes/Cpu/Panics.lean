import CudaAes.Cpu.Streaming
import CudaAes.Cpu.WideLoop

/-!
# Malformed lengths

What the CPU backends do on a schedule that is too short and on slices of different lengths. A short
schedule stops every SIMD kernel before its first store (`roundKeys_short`); of unequal slices the wide
kernels refuse all, and the AES-NI kernel, when `out` is the shorter, panics at its end with the blocks
before it in place (`Aesni.run_encryptCtr_short`).
-/

namespace CudaAes

open Rust Fips197

/-- The call panics and leaves `out` as it was. -/
def PanicsUnchanged (call : Run (Buffer Block) Unit) (out : List Block) : Prop :=
  ∃ e, e.IsPanic ∧ call.run (.ofList out) = .error e (.ofList out)

/-- The call panics, with `out` as it was, if `cond` holds, and returns if it does not. -/
def PanicsIff (call : Run (Buffer Block) Unit) (out : List Block) (cond : Prop) : Prop :=
  (cond → PanicsUnchanged call out) ∧ (¬ cond → ∃ out', call.run (.ofList out) = .ok () out')

variable {rk : List U32} {counter0 : Block} {blocks out : List Block}

/-! ## Short schedules -/

theorem onlyPanics_roundKeys (rk : List U32) : OnlyPanics (roundKeys rk) := by
  refine onlyPanics_foldlM (fun k r => ?_) _ _
  exact (onlyPanics_index _ _).bind fun _ => (onlyPanics_index _ _).bind fun _ => (onlyPanics_index _ _).bind fun _ =>
    (onlyPanics_index _ _).bind fun _ => onlyPanics_ok _

theorem roundKeys_short (h : rk.length < 44) : ∃ e, e.IsPanic ∧ roundKeys rk = .error e := by
  refine (onlyPanics_roundKeys rk).exists_panic fun keys hkeys => ?_
  obtain ⟨_, _, hlast⟩ := foldlM_mem_ok hkeys (List.mem_finRange 10)
  obtain ⟨_, -, hlast⟩ := bind_eq_ok hlast
  obtain ⟨_, -, hlast⟩ := bind_eq_ok hlast
  obtain ⟨_, -, hlast⟩ := bind_eq_ok hlast
  obtain ⟨_, hword, -⟩ := bind_eq_ok hlast
  have := lt_of_index_ok hword
  omega

theorem onlyPanics_tableWord (rk : List U32) (a b c d : U32) (k : ℕ) : OnlyPanics (tableWord t0 t1 t2 t3 rk a b c d k) :=
  (onlyPanics_index _ _).bind fun _ => (onlyPanics_index _ _).bind fun _ => (onlyPanics_index _ _).bind fun _ =>
    (onlyPanics_index _ _).bind fun _ => (onlyPanics_index _ _).bind fun _ => onlyPanics_ok _

theorem onlyPanics_tableRound (rk : List U32) (s : Block) (r : ℕ) : OnlyPanics (tableRound t0 t1 t2 t3 rk s r) :=
  (onlyPanics_tableWord _ _ _ _ _ _).bind fun _ => (onlyPanics_tableWord _ _ _ _ _ _).bind fun _ =>
    (onlyPanics_tableWord _ _ _ _ _ _).bind fun _ => (onlyPanics_tableWord _ _ _ _ _ _).bind fun _ => onlyPanics_ok _

theorem onlyPanics_sboxWord (a b c d : U32) : OnlyPanics (sboxWord sboxU32 a b c d) := by
  rw [sboxWord_eq]
  exact onlyPanics_ok _

theorem onlyPanics_encryptBlock (rk : List U32) (pt : Block) : OnlyPanics (encryptBlock pt rk t0 t1 t2 t3 sboxU32) :=
  (onlyPanics_index _ _).bind fun _ => (onlyPanics_index _ _).bind fun _ => (onlyPanics_index _ _).bind fun _ =>
    (onlyPanics_index _ _).bind fun _ => (onlyPanics_foldlM (onlyPanics_tableRound rk) _ _).bind fun _ =>
    (onlyPanics_sboxWord _ _ _ _).bind fun _ => (onlyPanics_sboxWord _ _ _ _).bind fun _ =>
    (onlyPanics_sboxWord _ _ _ _).bind fun _ => (onlyPanics_sboxWord _ _ _ _).bind fun _ =>
    (onlyPanics_index _ _).bind fun _ => (onlyPanics_index _ _).bind fun _ => (onlyPanics_index _ _).bind fun _ =>
    (onlyPanics_index _ _).bind fun _ => onlyPanics_ok _

theorem encryptBlock_short (h : rk.length < 44) (pt : Block) :
    ∃ e, e.IsPanic ∧ encryptBlock pt rk t0 t1 t2 t3 sboxU32 = .error e := by
  refine (onlyPanics_encryptBlock rk pt).exists_panic fun ct hct => ?_
  unfold encryptBlock at hct
  -- the reads before that of the last word of the schedule
  iterate 12 obtain ⟨_, -, hct⟩ := bind_eq_ok hct
  obtain ⟨_, hword, -⟩ := bind_eq_ok hct
  have := lt_of_index_ok hword
  omega

theorem encryptCtrBlock_short (h : rk.length < 44) (counter0 : Block) (i : U32) (pt : Block) :
    ∃ e, e.IsPanic ∧ encryptCtrBlock counter0 i pt rk t0 t1 t2 t3 sboxU32 = .error e := by
  obtain ⟨e, hpanic, hfault⟩ := encryptBlock_short h ⟨counter0.e0, counter0.e1, counter0.e2, counter0.e3 + i⟩
  refine ⟨e, hpanic, ?_⟩
  simp only [encryptCtrBlock, hfault]
  rfl

theorem Scalar.run_encryptCtr_nil (rk : List U32) (counter0 : Block) (h : blocks = [] ∨ out = []) :
    (Scalar.encryptCtr rk counter0 blocks).run (.ofList out) = .ok () (.ofList out) := by
  rcases h with rfl | rfl
  · simp [Scalar.encryptCtr]
  · rfl

theorem Scalar.panicsIff_short (h : rk.length < 44) :
    PanicsIff (Scalar.encryptCtr rk counter0 blocks) out (blocks ≠ [] ∧ out ≠ []) := by
  rcases blocks with _ | ⟨pt, blocks⟩
  · exact ⟨fun hne => absurd rfl hne.1, fun _ => ⟨_, Scalar.run_encryptCtr_nil rk counter0 (Or.inl rfl)⟩⟩
  rcases out with _ | ⟨x, out⟩
  · exact ⟨fun hne => absurd rfl hne.2, fun _ => ⟨_, Scalar.run_encryptCtr_nil rk counter0 (Or.inr rfl)⟩⟩
  refine ⟨fun _ => ?_, fun hne => absurd ⟨List.cons_ne_nil _ _, List.cons_ne_nil _ _⟩ hne⟩
  obtain ⟨e, hpanic, hfault⟩ := encryptCtrBlock_short h counter0 (BitVec.ofNat 32 0) pt
  refine ⟨e, hpanic, ?_⟩
  have hfirst : (do
      let ct ← encryptCtrBlock counter0 (BitVec.ofNat 32 0) pt rk t0 t1 t2 t3 sboxU32
      Buffer.set 0 ct : Run (Buffer Block) Unit).run (.ofList (x :: out)) = .error e (.ofList (x :: out)) := by
    rw [hfault]
    exact run_bind_error (run_liftM_error e _)
  unfold Scalar.encryptCtr
  rw [run_bind_ok (EStateM.run_get _), Buffer.ofList, List.length_cons, List.range_succ_eq_map, List.zip_cons_cons,
    List.forM_cons]
  exact run_bind_error hfirst

/-! ## The wide kernels -/

theorem WideKernel.impl_short (kernel : WideKernel) (h : rk.length < 44) (fuel W : ℕ) :
    ∃ e, e.IsPanic ∧ ∀ counter0 blocks s, (kernel.impl fuel W rk counter0 blocks).run s = .error e s := by
  obtain ⟨e, hpanic, hkeys⟩ := roundKeys_short h
  refine ⟨e, hpanic, fun counter0 blocks s => ?_⟩
  rw [kernel.impl_eq, hkeys]
  exact run_bind_error (run_liftM_error e s)

/-- A public wrapper refuses slices of different lengths. -/
theorem panics_of_length_ne {detected : Bool} (hcpu : detected = true) (hlen : blocks.length ≠ out.length)
    (missing short : String) (kernel : Run (Buffer Block) Unit) :
    PanicsUnchanged (do
      assert detected missing
      let out ← get
      assert (blocks.length == out.data.length) short
      kernel) out := by
  refine ⟨.assertion short, trivial, ?_⟩
  have hassert : (blocks.length == (Buffer.ofList out).data.length) = false := beq_false_of_ne hlen
  rw [hcpu, run_bind_ok (run_assert_true _ _)]
  refine (run_bind_ok (s := Buffer.ofList out) (EStateM.run_get _)).trans ?_
  rw [hassert]
  exact run_bind_error rfl

theorem WideKernel.encryptCtr_short (kernel : WideKernel) {cpu : CpuFeatures} (hcpu : kernel.supported cpu = true)
    (hlen : blocks.length = out.length) (h : rk.length < 44) (fuel W : ℕ) :
    PanicsUnchanged (kernel.encryptCtr cpu fuel W rk counter0 blocks) out := by
  obtain ⟨e, hpanic, hfault⟩ := kernel.impl_short h fuel W
  refine ⟨e, hpanic, ?_⟩
  rw [← hfault counter0 blocks (.ofList out)]
  cases kernel <;> exact run_checked hcpu hlen _ _ _ 0

theorem WideKernel.encryptCtr_panicsIff (kernel : WideKernel) {cpu : CpuFeatures} (hcpu : kernel.supported cpu = true)
    {W : ℕ} (hW : 1 ≤ W) {fuel : ℕ} (hfuel : blocks.length < fuel) :
    PanicsIff (kernel.encryptCtr cpu fuel W rk counter0 blocks) out (blocks.length ≠ out.length ∨ rk.length < 44) := by
  refine ⟨fun hbad => ?_, fun hgood => ?_⟩
  · by_cases hlen : blocks.length = out.length
    · exact kernel.encryptCtr_short hcpu hlen (hbad.resolve_left (not_not_intro hlen)) fuel W
    · cases kernel <;> exact panics_of_length_ne hcpu hlen _ _ _
  · obtain ⟨hlen, hrk⟩ := not_or.mp hgood
    exact ⟨_, kernel.run_encryptCtr hcpu (not_lt.mp hrk) hW (not_not.mp hlen) hfuel⟩

/-- With a short schedule every closure panics before its first store, so the loop does too, whichever of
the closures run. -/
theorem parChunks_short (kernel : WideKernel) (h : rk.length < 44) (fuel W : ℕ) {chunk : ℕ} (hchunk : 0 < chunk)
    {order : List ℕ} (hne : order ≠ []) :
    PanicsUnchanged (parChunks (fun c0 blk => kernel.impl fuel W rk c0 blk) chunk counter0 blocks order) out := by
  obtain ⟨e, hpanic, hfault⟩ := kernel.impl_short h fuel W
  have hassert : (chunk != 0) = true := by simpa using hchunk.ne'
  refine ⟨e, hpanic, ?_⟩
  unfold parChunks
  rw [hassert, run_bind_ok (run_assert_true _ _)]
  refine forEach_error hne fun c _ => ?_
  refine (run_bind_ok (s := Buffer.ofList out) (EStateM.run_get _)).trans ?_
  exact Buffer.run_onSlice_error (fun sub => hfault _ _ sub) _

theorem WideKernel.encryptCtrParallel_short (kernel : WideKernel) {cpu : CpuFeatures}
    (hcpu : kernel.supported cpu = true) {W : ℕ} (hW : 1 ≤ W) (fuel threads : ℕ) (hlen : blocks.length = out.length)
    (hn : blocks.length ≠ 0) (h : rk.length < 44) {order : List ℕ} (hne : order ≠ []) :
    PanicsUnchanged (kernel.encryptCtrParallel cpu fuel W threads order rk counter0 blocks) out := by
  obtain ⟨chunk, hok, hpos, -⟩ := kernel.chunk_ok threads hW hn
  unfold PanicsUnchanged
  obtain ⟨e, hpanic, hrun⟩ := parChunks_short kernel h fuel W hpos hne
  exact ⟨e, hpanic, (kernel.run_encryptCtrParallel_loop (σ := Buffer Block) hcpu hlen hn hok order fuel 0).trans hrun⟩

theorem WideKernel.encryptCtrParallel_panicsIff (kernel : WideKernel) {cpu : CpuFeatures}
    (hcpu : kernel.supported cpu = true) {W : ℕ} (hW : 1 ≤ W) (threads : ℕ) {order : List ℕ}
    (horder : IsSchedule blocks.length (kernel.chunk W threads blocks.length) order) {fuel : ℕ}
    (hfuel : blocks.length < fuel) :
    PanicsIff (kernel.encryptCtrParallel cpu fuel W threads order rk counter0 blocks) out
      (blocks.length ≠ out.length ∨ (1 ≤ blocks.length ∧ rk.length < 44)) := by
  refine ⟨fun hbad => ?_, fun hgood => ?_⟩
  · by_cases hlen : blocks.length = out.length
    · obtain ⟨hn, hrk⟩ := hbad.resolve_left (not_not_intro hlen)
      have hn0 : blocks.length ≠ 0 := by omega
      refine kernel.encryptCtrParallel_short hcpu hW fuel threads hlen hn0 hrk ?_
      rintro rfl
      obtain ⟨chunk, hok, hpos, -⟩ := kernel.chunk_ok threads hW hn0
      have hcount : blocks.length ⌈/⌉ chunk ≤ 0 := by simpa using (horder chunk hok).length_eq.ge
      rw [ceilDiv_le_iff_le_mul hpos] at hcount
      omega
    · cases kernel <;> exact panics_of_length_ne hcpu hlen _ _ _
  · obtain ⟨hlen, hrest⟩ := not_or.mp hgood
    have hlen := not_not.mp hlen
    by_cases hn : blocks.length = 0
    · exact ⟨_, kernel.run_encryptCtrParallel_nil (σ := Buffer Block) hcpu hlen hn fuel W threads order 0⟩
    · have hrk : 44 ≤ rk.length := by omega
      obtain ⟨stores, -, hrun⟩ := kernel.run_encryptCtrParallel hcpu hrk hW threads hlen horder hfuel
      exact ⟨_, hrun⟩

/-! ## A short `out` in the AES-NI kernel -/

theorem Aesni.panicsUnchanged_short {cpu : CpuFeatures} (hcpu : cpu.aes = true) (h : rk.length < 44) (fuel W : ℕ) :
    PanicsUnchanged (Aesni.encryptCtr cpu fuel W rk counter0 blocks) out := by
  obtain ⟨e, hpanic, hkeys⟩ := roundKeys_short h
  refine ⟨e, hpanic, ?_⟩
  unfold Aesni.encryptCtr Aesni.encryptCtrImpl
  rw [hcpu, run_bind_ok (run_assert_true _ _), hkeys]
  exact run_bind_error (run_liftM_error e _)

theorem run_remainder_short (hshort : out.length < blocks.length) {i fuel : ℕ} (hi : i ≤ out.length)
    (hfuel : out.length - i < fuel) :
    (remainder (scheduleKeys rk) counter0 blocks fuel i).run (.stored (ctrBlock rk counter0 blocks) out (List.range i)) =
      .error (.indexOutOfBounds out.length out.length)
        (.stored (ctrBlock rk counter0 blocks) out (List.range out.length)) := by
  have hend : i + (out.length - i) = out.length := Nat.add_sub_cancel' hi
  refine whileLoop_fault (i + ·) (fun k => Buffer.stored (ctrBlock rk counter0 blocks) out (List.range (i + k)))
    (out.length - i) (fun k hk => ?_) ?_ ?_ hfuel
  · have hlt : i + k < out.length := by omega
    refine ⟨decide_eq_true (hlt.trans hshort), ?_⟩
    rw [← Nat.add_assoc, List.range_succ]
    exact run_remainderBlock (hlt.trans hshort) hlt _ 0
  · simpa [hend] using hshort
  · simp only [hend]
    exact run_remainderBlock_short hshort

/-- **A short `out`**: the kernel stores the blocks that fit and panics at the next, in a turn of the wide
loop or in the remainder. -/
theorem Aesni.run_encryptCtr_short {cpu : CpuFeatures} (hcpu : cpu.aes = true) (hrk : 44 ≤ rk.length) {W : ℕ}
    (hW : 1 ≤ W) (hshort : out.length < blocks.length) {fuel : ℕ} (hfuel : blocks.length < fuel) :
    (Aesni.encryptCtr cpu fuel W rk counter0 blocks).run (.ofList out) =
      .error (.indexOutOfBounds out.length out.length)
        (.stored (ctrBlock rk counter0 blocks) out (List.range out.length)) := by
  have hfull : out.length / W * W ≤ out.length := Nat.div_mul_le_self _ _
  have hpast : out.length < out.length / W * W + W := Nat.lt_div_mul_add hW
  have hturns : out.length / W < fuel := (Nat.div_le_self _ _).trans_lt (by omega)
  have hround : ∀ k < out.length / W, decide (k * W + W ≤ blocks.length) = true ∧
      (Aesni.group W (scheduleKeys rk) counter0 blocks (k * W)).run
        (.stored (ctrBlock rk counter0 blocks) out (List.range (k * W))) =
      .ok ((k + 1) * W) (.stored (ctrBlock rk counter0 blocks) out (List.range ((k + 1) * W))) := by
    intro k hk
    have hle : k * W + W ≤ out.length := by
      rw [← Nat.succ_mul]
      exact (Nat.le_div_iff_mul_le hW).mp hk
    exact ⟨decide_eq_true (by omega), by rw [Aesni.run_group (by omega) hle, Nat.succ_mul]⟩
  unfold Aesni.encryptCtr Aesni.encryptCtrImpl
  rw [hcpu, run_bind_ok (run_assert_true _ _), roundKeys_eq hrk, run_bind_ok (run_liftM_ok _ _)]
  by_cases hgo : out.length / W * W + W ≤ blocks.length
  · have hwide : (whileLoop (fun i => decide (i + W ≤ blocks.length)) (Aesni.group W (scheduleKeys rk) counter0 blocks)
        fuel (0 * W)).run (.stored (ctrBlock rk counter0 blocks) out (List.range (0 * W))) =
        .error (.indexOutOfBounds out.length out.length)
          (.stored (ctrBlock rk counter0 blocks) out (List.range out.length)) :=
      whileLoop_fault (· * W) (fun k => Buffer.stored (ctrBlock rk counter0 blocks) out (List.range (k * W)))
        (out.length / W) hround (decide_eq_true hgo) (Aesni.run_group_short hgo hfull hpast) hturns
    rw [Nat.zero_mul, List.range_zero, Buffer.stored_nil] at hwide
    exact run_bind_error hwide
  · have hwide : (whileLoop (fun i => decide (i + W ≤ blocks.length)) (Aesni.group W (scheduleKeys rk) counter0 blocks)
        fuel (0 * W)).run (.stored (ctrBlock rk counter0 blocks) out (List.range (0 * W))) =
        .ok (out.length / W * W) (.stored (ctrBlock rk counter0 blocks) out (List.range (out.length / W * W))) :=
      whileLoop_seq (· * W) (fun k => Buffer.stored (ctrBlock rk counter0 blocks) out (List.range (k * W)))
        (out.length / W) hround (decide_eq_false hgo) hturns
    rw [Nat.zero_mul, List.range_zero, Buffer.stored_nil] at hwide
    rw [run_bind_ok hwide]
    exact run_bind_error (run_remainder_short hshort hfull (by omega))

/-! ## A long schedule -/

theorem scheduleKeys_take (rk : List U32) : scheduleKeys (rk.take 44) = scheduleKeys rk := by
  have hget : ∀ i < 44, (rk.take 44).getD i 0 = rk.getD i 0 := by
    intro i hi
    rw [List.getD_eq_getElem?_getD, List.getD_eq_getElem?_getD, List.getElem?_take_of_lt hi]
  funext r
  have hr := r.isLt
  simp only [scheduleKeys, scheduleBlock, hget _ (show 4 * r.val < 44 by omega),
    hget _ (show 4 * r.val + 1 < 44 by omega), hget _ (show 4 * r.val + 2 < 44 by omega),
    hget _ (show 4 * r.val + 3 < 44 by omega)]

theorem roundKeys_take (rk : List U32) : roundKeys (rk.take 44) = roundKeys rk := by
  rcases Nat.lt_or_ge rk.length 44 with h | h
  · rw [List.take_of_length_le h.le]
  · rw [roundKeys_eq h, roundKeys_eq (by rw [List.length_take]; omega), scheduleKeys_take]

theorem encryptCtrBlock_take (rk : List U32) (counter0 : Block) (i : U32) (pt : Block) :
    encryptCtrBlock counter0 i pt (rk.take 44) t0 t1 t2 t3 sboxU32 =
      encryptCtrBlock counter0 i pt rk t0 t1 t2 t3 sboxU32 := by
  rcases Nat.lt_or_ge rk.length 44 with h | h
  · rw [List.take_of_length_le h.le]
  · simp only [encryptCtrBlock, encryptBlock_eq h, encryptBlock_eq (show 44 ≤ (rk.take 44).length by rw [List.length_take]; omega),
      cipherBlock, scheduleKeys_take]

theorem encryptCtrPshufbImpl_take (fuel W : ℕ) (rk : List U32) :
    encryptCtrPshufbImpl fuel W (rk.take 44) = encryptCtrPshufbImpl fuel W rk := by
  funext counter0 blocks
  rw [encryptCtrPshufbImpl, roundKeys_take]
  rfl

theorem vaesImpl_take {L : ℕ} (off : ℕ → Wide L) (step : Wide L) (fuel W : ℕ) (rk : List U32) :
    vaesImpl L off step fuel W (rk.take 44) = vaesImpl L off step fuel W rk := by
  funext counter0 blocks
  rw [vaesImpl, roundKeys_take]
  rfl

theorem encryptCtrVaes256Impl_take (fuel W : ℕ) (rk : List U32) :
    encryptCtrVaes256Impl fuel W (rk.take 44) = encryptCtrVaes256Impl fuel W rk :=
  vaesImpl_take off256 (step256 W) fuel W rk

theorem encryptCtrVaes512Impl_take (fuel W : ℕ) (rk : List U32) :
    encryptCtrVaes512Impl fuel W (rk.take 44) = encryptCtrVaes512Impl fuel W rk :=
  vaesImpl_take off512 (step512 W) fuel W rk

/-- No backend reads a word past the 44th. -/
theorem Backend.encryptCtr_take (b : Backend) (cpu : CpuFeatures) (fuel : ℕ) (rk : List U32) (counter0 : Block)
    (blocks : List Block) :
    b.encryptCtr cpu fuel (rk.take 44) counter0 blocks = b.encryptCtr cpu fuel rk counter0 blocks := by
  cases b with
  | scalar => simp only [Backend.encryptCtr, Scalar.encryptCtr, encryptCtrBlock_take]
  | aesni W => simp only [Backend.encryptCtr, Aesni.encryptCtr, Aesni.encryptCtrImpl, roundKeys_take]
  | wide kernel W =>
    cases kernel with
    | pshufb =>
      simp only [Backend.encryptCtr, WideKernel.encryptCtr, encryptCtrPshufb, encryptCtrPshufbImpl_take]
    | vaes256 =>
      simp only [Backend.encryptCtr, WideKernel.encryptCtr, encryptCtrVaes256, encryptCtrVaes256Impl_take]
    | vaes512 =>
      simp only [Backend.encryptCtr, WideKernel.encryptCtr, encryptCtrVaes512, encryptCtrVaes512Impl_take]
  | parallel kernel W threads order =>
    cases kernel with
    | pshufb =>
      simp only [Backend.encryptCtr, WideKernel.encryptCtrParallel, encryptCtrPshufbParallel, encryptCtrPshufbImpl_take]
    | vaes256 =>
      simp only [Backend.encryptCtr, WideKernel.encryptCtrParallel, encryptCtrVaes256Parallel, encryptCtrVaes256Impl_take]
    | vaes512 =>
      simp only [Backend.encryptCtr, WideKernel.encryptCtrParallel, encryptCtrVaes512Parallel, encryptCtrVaes512Impl_take]

/-! ## All backends -/

/-- **Malformed lengths**, for a schedule and slices of any lengths. The wide kernels panic if and only if
the slices differ in length or the schedule is short, and their parallel wrappers likewise unless there is
nothing to encrypt, with `out` unchanged in every order of the closures, and also if a panic keeps some of
them from running. With a short schedule `aesni::encrypt_ctr` panics and `scalar::encrypt_ctr` does if it
has a block to write, with `out` unchanged. With a long enough one the scalar backend returns, and the
AES-NI kernel leaves what it leaves: it panics if and only if `out` is the shorter. Words past the 44th
are never read. -/
theorem malformed_lengths (cpu : CpuFeatures) (haes : cpu.aes = true) (W : ℕ) (hW : 1 ≤ W) (rk : List U32)
    (counter0 : Block) (blocks out : List Block) (fuel : ℕ) (hfuel : blocks.length < fuel) :
    (∀ kernel : WideKernel, kernel.supported cpu = true →
      PanicsIff (kernel.encryptCtr cpu fuel W rk counter0 blocks) out (blocks.length ≠ out.length ∨ rk.length < 44) ∧
      (∀ threads order, IsSchedule blocks.length (kernel.chunk W threads blocks.length) order →
        PanicsIff (kernel.encryptCtrParallel cpu fuel W threads order rk counter0 blocks) out
          (blocks.length ≠ out.length ∨ (1 ≤ blocks.length ∧ rk.length < 44))) ∧
      ∀ threads ran, ran ≠ [] → blocks.length = out.length → 1 ≤ blocks.length → rk.length < 44 →
        PanicsUnchanged (kernel.encryptCtrParallel cpu fuel W threads ran rk counter0 blocks) out) ∧
    (rk.length < 44 →
      PanicsUnchanged (Aesni.encryptCtr cpu fuel W rk counter0 blocks) out ∧
      PanicsIff (Scalar.encryptCtr rk counter0 blocks) out (blocks ≠ [] ∧ out ≠ []) ∧
      (blocks = [] ∨ out = [] → (Scalar.encryptCtr rk counter0 blocks).run (.ofList out) = .ok () (.ofList out))) ∧
    (44 ≤ rk.length → ∃ ref, (Scalar.encryptCtr rk counter0 blocks).run (.ofList out) = .ok () ref ∧
      (out.length < blocks.length →
        ∃ e, e.IsPanic ∧ (Aesni.encryptCtr cpu fuel W rk counter0 blocks).run (.ofList out) = .error e ref) ∧
      (blocks.length ≤ out.length → (Aesni.encryptCtr cpu fuel W rk counter0 blocks).run (.ofList out) = .ok () ref) ∧
      (∀ i (hi : i < blocks.length), i < out.length → ∃ ks,
        encryptBlock (counterAt counter0 i) rk t0 t1 t2 t3 sboxU32 = .ok ks ∧
        ref.data[i]? = some (xorBlock blocks[i] ks)) ∧
      ∀ i, min out.length blocks.length ≤ i → ref.data[i]? = out[i]?) ∧
    ∀ b : Backend, b.encryptCtr cpu fuel (rk.take 44) counter0 blocks = b.encryptCtr cpu fuel rk counter0 blocks := by
  refine ⟨fun kernel hcpu => ⟨kernel.encryptCtr_panicsIff hcpu hW hfuel, fun threads order horder =>
      kernel.encryptCtrParallel_panicsIff hcpu hW threads horder hfuel, fun threads ran hne hlen hn hrk =>
      kernel.encryptCtrParallel_short hcpu hW fuel threads hlen (Nat.one_le_iff_ne_zero.mp hn) hrk hne⟩,
    fun hrk => ⟨Aesni.panicsUnchanged_short haes hrk fuel W, Scalar.panicsIff_short hrk,
      Scalar.run_encryptCtr_nil rk counter0⟩, fun hrk => ?_,
    fun b => b.encryptCtr_take cpu fuel rk counter0 blocks⟩
  refine ⟨_, Scalar.run_encryptCtr hrk counter0 blocks out, fun hshort => ?_, fun hlen => ?_, fun i hi hout => ?_,
    fun i hi => ?_⟩
  · rw [Nat.min_eq_left hshort.le]
    exact ⟨.indexOutOfBounds _ _, trivial, Aesni.run_encryptCtr_short haes hrk hW hshort hfuel⟩
  · rw [Nat.min_eq_right hlen]
    exact Aesni.run_encryptCtr haes hrk hW hlen hfuel
  · refine ⟨keystream rk counter0 i, encryptBlock_eq hrk _, ?_⟩
    rw [Buffer.getElem?_stored_mem _ _ (List.mem_range.mpr (by omega)) hout, ctrBlock_lt hi]
  · exact Buffer.getElem?_stored_not_mem _ _ (by rw [List.mem_range]; omega)

/-- Two blocks for an `out` of one, and an empty schedule. -/
theorem malformed_lengths_two :
    (∃ e ref, (Aesni.encryptCtr ⟨true, true, true, true, true, true⟩ 3 1 (List.replicate 44 0) default
        [default, default]).run (.ofList [default]) = .error e ref ∧
      (Scalar.encryptCtr (List.replicate 44 0) default [default, default]).run (.ofList [default]) = .ok () ref) ∧
    PanicsUnchanged (WideKernel.vaes512.encryptCtr ⟨true, true, true, true, true, true⟩ 3 1 [] default
      [default, default]) [default, default] := by
  refine ⟨?_, ?_⟩
  · obtain ⟨-, -, hlong, -⟩ := malformed_lengths ⟨true, true, true, true, true, true⟩ rfl 1 (by decide)
      (List.replicate 44 0) default [default, default] [default] 3 (by decide)
    obtain ⟨ref, hscalar, hshort, -⟩ := hlong (by decide)
    obtain ⟨e, -, hrun⟩ := hshort (by decide)
    exact ⟨e, ref, hrun, hscalar⟩
  · exact ((malformed_lengths ⟨true, true, true, true, true, true⟩ rfl 1 (by decide) [] default [default, default]
      [default, default] 3 (by decide)).1 .vaes512 rfl).1.1 (Or.inr (by decide))

end CudaAes
