import CudaAes.Gpu.KernelSpec

/-!
# The launch geometry of the GPU wrapper

Within 32 bits the grid covers the message and every word of `ct` is stored once
(`grid_covers_every_block_once`). `encrypt_ctr` narrows `n` and `r` to 32 bits before it rounds, while
the kernel gets both in full, so beyond 32 bits the grid can be empty, too small, or not computable at
all: `encryptCtr_complete_iff` says exactly when the call still does what it should.
-/

namespace CudaAes

open Rust Fips197

variable {rk : List U32} {counter0 : Block} {blocks out : List Block}

/-! ## The grid -/

theorem ceilDiv_ceilDiv {b c : ℕ} (hb : 0 < b) (hc : 0 < c) (a : ℕ) : a ⌈/⌉ b ⌈/⌉ c = a ⌈/⌉ (b * c) := by
  refine eq_of_forall_ge_iff fun x => ?_
  rw [ceilDiv_le_iff_le_mul hc, ceilDiv_le_iff_le_mul hb, ceilDiv_le_iff_le_mul (Nat.mul_pos hb hc), Nat.mul_assoc]

theorem launchGrid_eq {r : ℕ} (hr : r % 2 ^ 32 ≠ 0) (n : ℕ) :
    launchGrid n r = .ok ((n % 2 ^ 32) ⌈/⌉ (r % 2 ^ 32 * BLOCK)) := by
  have hpos : 0 < r % 2 ^ 32 := Nat.pos_of_ne_zero hr
  unfold launchGrid
  rw [divCeil_eq hpos, ok_bind, divCeil_eq (by decide), ceilDiv_ceilDiv hpos (by decide)]

theorem launchGrid_zero {r : ℕ} (hr : r % 2 ^ 32 = 0) (n : ℕ) : launchGrid n r = .error .divideByZero := by
  unfold launchGrid
  rw [hr]
  rfl

/-- The threads of a grid have 32-bit indices. -/
theorem grid_threads_le {n r : ℕ} (hr : r % 2 ^ 32 ≠ 0) : (n % 2 ^ 32) ⌈/⌉ (r % 2 ^ 32 * BLOCK) * BLOCK ≤ 2 ^ 32 := by
  have hpos : 0 < r % 2 ^ 32 := Nat.pos_of_ne_zero hr
  have hn := Nat.mod_lt n (show 0 < 2 ^ 32 by decide)
  have hgrid : (n % 2 ^ 32) ⌈/⌉ (r % 2 ^ 32 * BLOCK) ≤ 2 ^ 24 := by
    rw [ceilDiv_le_iff_le_mul (Nat.mul_pos hpos (by decide))]
    calc n % 2 ^ 32 ≤ 1 * (256 * 2 ^ 24) := by omega
      _ ≤ r % 2 ^ 32 * (256 * 2 ^ 24) := Nat.mul_le_mul_right _ hpos
      _ = r % 2 ^ 32 * BLOCK * 2 ^ 24 := (Nat.mul_assoc _ _ _).symm
  calc (n % 2 ^ 32) ⌈/⌉ (r % 2 ^ 32 * BLOCK) * BLOCK ≤ 2 ^ 24 * BLOCK := Nat.mul_le_mul_right _ hgrid
    _ = 2 ^ 32 := rfl

/-- The blocks that the grid of a call of `n` blocks reaches: those below `r` times its threads. -/
def launchReach (n R : ℕ) : ℕ := (n % 2 ^ 32) ⌈/⌉ (max R 1 % 2 ^ 32 * BLOCK) * BLOCK * max R 1

theorem le_launchReach {n R : ℕ} (hn : n < 2 ^ 32) (hr : max R 1 % 2 ^ 32 ≠ 0) : n ≤ launchReach n R := by
  have hpos : 0 < max R 1 % 2 ^ 32 * BLOCK := Nat.mul_pos (Nat.pos_of_ne_zero hr) (by decide)
  unfold launchReach
  rw [Nat.mod_eq_of_lt hn]
  calc n ≤ max R 1 % 2 ^ 32 * BLOCK * (n ⌈/⌉ (max R 1 % 2 ^ 32 * BLOCK)) := le_smul_ceilDiv hpos
    _ ≤ max R 1 * BLOCK * (n ⌈/⌉ (max R 1 % 2 ^ 32 * BLOCK)) :=
      Nat.mul_le_mul_right _ (Nat.mul_le_mul_right _ (Nat.mod_le _ _))
    _ = n ⌈/⌉ (max R 1 % 2 ^ 32 * BLOCK) * BLOCK * max R 1 := by ring

theorem gridFaults_eq (hrk : 44 ≤ rk.length) (hn : blocks.length < 2 ^ 59) (r : ℕ) {threads : ℕ}
    (hthreads : threads ≤ 2 ^ 32) : gridFaults (kernelArgs rk counter0 blocks r) threads = false := by
  unfold gridFaults
  rw [List.any_eq_false]
  intro t ht
  rw [List.mem_range] at ht
  rw [run_aes128Ctr hrk r (by omega) hn]
  exact Bool.false_ne_true

theorem AesGpu.run_encryptCtr (hrk : 44 ≤ rk.length) (hn : blocks.length < 2 ^ 59) (hzero : blocks.length ≠ 0)
    (hlen : out.length = blocks.length) {R : ℕ} (hr : max R 1 % 2 ^ 32 ≠ 0) (order : List Store) :
    (AesGpu.encryptCtr order rk counter0 blocks R).run out =
      if (blocks.length % 2 ^ 32) ⌈/⌉ (max R 1 % 2 ^ 32 * BLOCK) = 0 then .ok (.error .invalidValue) out
      else .ok (.ok ())
        (ofFlattened (order.foldl (fun ct w => ct.set w.1 w.2) (List.replicate (blocks.length * 4) 0))) := by
  have hassert : (out.length == blocks.length) = true := by
    rw [hlen]
    exact beq_self_eq_true _
  unfold AesGpu.encryptCtr
  rw [if_neg hzero]
  refine (run_bind_ok (s := out) (EStateM.run_get _)).trans ?_
  rw [hassert, run_bind_ok (run_assert_true _ _)]
  dsimp only
  rw [launchGrid_eq hr, run_bind_ok (run_liftM_ok _ _), gridFaults_eq hrk hn _ (grid_threads_le hr)]
  split
  · rfl
  · rfl

/-! ## Within 32 bits -/

/-- **The grid covers every block exactly once**: no thread faults, index arithmetic does not wrap, each
word of `ct` is stored once, by one thread, and in whatever order the stores land the call leaves what
the scalar backend leaves. -/
theorem grid_covers_every_block_once (rk : Vector U32 44) (counter0 : Block) (blocks : List Block)
    (hn : 1 ≤ blocks.length) (hn' : blocks.length < 2 ^ 32) (R : ℕ) (hR : R < 2 ^ 32) :
    ∃ grid, launchGrid blocks.length (max R 1) = .ok grid ∧ 0 < grid ∧
      (∀ t < grid * BLOCK, (index1d t).toNat = t ∧
        (∃ stores, (aes128Ctr (kernelArgs rk.toList counter0 blocks (max R 1)) (index1d t)).run [] = .ok () stores) ∧
        t * max R 1 < 2 ^ 64 ∧ ∀ j < max R 1, t * max R 1 + j < 2 ^ 64 ∧
          (t * max R 1 + j < blocks.length → (t * max R 1 + j) * 4 + 3 < 2 ^ 64)) ∧
      (gridStores (kernelArgs rk.toList counter0 blocks (max R 1)) (grid * BLOCK)).map Prod.fst =
        List.range (blocks.length * 4) ∧
      (∀ a < blocks.length * 4, ∃! t, t < grid * BLOCK ∧
        a ∈ (threadStores (kernelArgs rk.toList counter0 blocks (max R 1)) t).map Prod.fst) ∧
      ∀ order, order.Perm (gridStores (kernelArgs rk.toList counter0 blocks (max R 1)) (grid * BLOCK)) →
        (∀ ct : List U32, ct.length = blocks.length * 4 → ∀ out : List Block, out.length = blocks.length →
          ∃ ref, (Scalar.encryptCtr rk.toList counter0 blocks).run (.ofList out) = .ok () ref ∧
            ofFlattened (order.foldl (fun ct w => ct.set w.1 w.2) ct) = ref.data ∧
            (AesGpu.encryptCtr order rk.toList counter0 blocks R).run out = .ok (.ok ()) ref.data) := by
  have hrk : 44 ≤ rk.toList.length := by simp
  have hn59 : blocks.length < 2 ^ 59 := by omega
  have hr : max R 1 % 2 ^ 32 = max R 1 := Nat.mod_eq_of_lt (by omega)
  have hr0 : max R 1 % 2 ^ 32 ≠ 0 := by omega
  have hmodn : blocks.length % 2 ^ 32 = blocks.length := Nat.mod_eq_of_lt hn'
  obtain ⟨grid, hgrid⟩ : ∃ grid, grid = blocks.length ⌈/⌉ (max R 1 * BLOCK) := ⟨_, rfl⟩
  have hthreads : grid * BLOCK ≤ 2 ^ 32 := by
    have := grid_threads_le (n := blocks.length) hr0
    rwa [hmodn, hr, ← hgrid] at this
  have hcover : blocks.length ≤ grid * BLOCK * max R 1 := by
    have := le_launchReach hn' hr0
    rwa [launchReach, hmodn, hr, ← hgrid] at this
  have hpos : 0 < grid := by
    by_contra hzero
    obtain rfl : grid = 0 := by omega
    omega
  have hwrap : ∀ t < grid * BLOCK, t * max R 1 + max R 1 ≤ 2 ^ 64 :=
    fun t ht => thread_end_le (by omega) (by omega)
  have hstores : gridStores (kernelArgs rk.toList counter0 blocks (max R 1)) (grid * BLOCK) =
      storesAt rk.toList counter0 blocks (List.range (blocks.length * 4)) := by
    rw [gridStores_eq hrk hthreads (fun t ht => by have := hwrap t ht; omega) hn59, Nat.min_eq_left hcover]
  refine ⟨grid, ?_, hpos, fun t ht => ⟨toNat_index1d (by omega), ⟨_, run_aes128Ctr hrk _ (by omega) hn59⟩, ?_⟩, ?_,
    fun a ha => ?_, fun order horder ct hct out hlen => ?_⟩
  · rw [launchGrid_eq hr0, hmodn, hr, ← hgrid]
  · have := hwrap t ht
    exact ⟨by omega, fun j hj => ⟨by omega, fun hlt => by omega⟩⟩
  · rw [hstores, map_fst_storesAt]
  · have hmem : ∀ t < grid * BLOCK,
        (a ∈ (threadStores (kernelArgs rk.toList counter0 blocks (max R 1)) t).map Prod.fst ↔
          a / 4 < blocks.length ∧ a / 4 / max R 1 = t) := by
      intro t ht
      have := hwrap t ht
      exact mem_threadStores hrk (by omega) (by omega) (by omega) hn59
    have ht : a / 4 / max R 1 < grid * BLOCK := (Nat.div_lt_iff_lt_mul (by omega)).mpr (by omega)
    exact ⟨_, ⟨ht, (hmem _ ht).mpr ⟨by omega, rfl⟩⟩, fun t' h => ((hmem t' h.1).mp h.2).2.symm⟩
  · obtain ⟨ref, hrun, hdata⟩ := Scalar.run_encryptCtr_data hrk counter0 hlen.symm
    have hright : ∀ w ∈ order, w.2 = ctWord rk.toList counter0 blocks w.1 := by
      intro w hw
      rw [horder.mem_iff, hstores] at hw
      obtain ⟨a, -, rfl⟩ := List.mem_map.mp hw
      rfl
    have hall : ∀ a < blocks.length * 4, a ∈ order.map Prod.fst := by
      intro a ha
      rw [(horder.map Prod.fst).mem_iff, hstores, map_fst_storesAt]
      exact List.mem_range.mpr ha
    refine ⟨ref, hrun, (ofFlattened_stores hright hall hct).trans hdata.symm, ?_⟩
    rw [AesGpu.run_encryptCtr hrk hn59 (by omega) hlen hr0, hmodn, hr, ← hgrid, if_neg hpos.ne',
      ofFlattened_stores hright hall List.length_replicate, hdata]

/-- Two CUDA blocks of threads for 515 blocks, two a thread, of which the last in use has one; the stores land
last to first. -/
theorem grid_covers_every_block_once_ragged :
    launchGrid 515 2 = .ok 2 ∧
    (gridStores (kernelArgs (Vector.replicate 44 0).toList default (List.replicate 515 default) 2) (2 * BLOCK)).map
      Prod.fst = List.range 2060 ∧
    ∃ ref, (Scalar.encryptCtr (Vector.replicate 44 0).toList default (List.replicate 515 default)).run
        (.ofList (List.replicate 515 default)) = .ok () ref ∧
      (AesGpu.encryptCtr (gridStores (kernelArgs (Vector.replicate 44 0).toList default (List.replicate 515 default) 2)
        (2 * BLOCK)).reverse (Vector.replicate 44 0).toList default (List.replicate 515 default) 2).run
          (List.replicate 515 default) = .ok (.ok ()) ref.data := by
  obtain ⟨blocks, hblocks⟩ : ∃ blocks, blocks = List.replicate 515 (default : Block) := ⟨_, rfl⟩
  have hlen : blocks.length = 515 := by rw [hblocks, List.length_replicate]
  have hgrid : launchGrid 515 2 = .ok 2 := rfl
  obtain ⟨grid, hlaunch, -, -, hwords, -, horder⟩ := grid_covers_every_block_once (Vector.replicate 44 0) default blocks
    (by omega) (by omega) 2 (by omega)
  rw [hlen] at hlaunch hwords horder
  obtain rfl : grid = 2 := Except.ok.inj (hlaunch.symm.trans hgrid)
  obtain ⟨ref, hscalar, -, hrun⟩ := horder _ (List.reverse_perm _) (List.replicate 2060 0) List.length_replicate blocks hlen
  rw [← hblocks]
  exact ⟨hgrid, hwords, ref, hscalar, hrun⟩

/-! ## Beyond 32 bits -/

/-- What a call should do: its geometry arithmetic does not panic and gives a grid that is not empty,
and if it returns `Ok`, in whatever order the stores land, `out` holds what the scalar backend leaves. -/
def AesGpu.EncryptsAll (rk : List U32) (counter0 : Block) (blocks out : List Block) (R : ℕ) : Prop :=
  (blocks.length ≠ 0 → ∃ grid, launchGrid blocks.length (max R 1) = .ok grid ∧ 0 < grid) ∧
  ∀ order, (∀ grid, launchGrid blocks.length (max R 1) = .ok grid →
      order.Perm (gridStores (kernelArgs rk counter0 blocks (max R 1)) (grid * BLOCK))) →
    ∀ out', (AesGpu.encryptCtr order rk counter0 blocks R).run out = .ok (.ok ()) out' →
      ∃ ref, (Scalar.encryptCtr rk counter0 blocks).run (.ofList out) = .ok () ref ∧ out' = ref.data

/-- The words of `ct` after the grid has run on a zeroed buffer: those of the blocks it does not reach
are still zero. -/
theorem getElem?_ct (hrk : 44 ≤ rk.length) (hn : blocks.length < 2 ^ 59) {R : ℕ} (hr : max R 1 % 2 ^ 32 ≠ 0)
    {order : List Store}
    (horder : order.Perm (gridStores (kernelArgs rk counter0 blocks (max R 1))
      ((blocks.length % 2 ^ 32) ⌈/⌉ (max R 1 % 2 ^ 32 * BLOCK) * BLOCK))) {a : ℕ} (ha : a < blocks.length * 4) :
    (order.foldl (fun ct w => ct.set w.1 w.2) (List.replicate (blocks.length * 4) 0))[a]? =
      some (if a / 4 < launchReach blocks.length R then ctWord rk counter0 blocks a else 0) := by
  have hmem : ∀ w, w ∈ order ↔ w.1 / 4 < blocks.length ∧ w.1 / 4 < launchReach blocks.length R ∧
      w.2 = ctWord rk counter0 blocks w.1 := by
    intro w
    rw [horder.mem_iff, mem_gridStores hrk (by omega) (grid_threads_le hr) hn, launchReach]
  have hfst : a ∈ order.map Prod.fst ↔ a / 4 < launchReach blocks.length R := by
    rw [List.mem_map]
    constructor
    · rintro ⟨w, hw, rfl⟩
      exact ((hmem w).mp hw).2.1
    · intro h
      exact ⟨(a, ctWord rk counter0 blocks a), (hmem _).mpr ⟨by show a / 4 < _; omega, h, rfl⟩, rfl⟩
  have hzero : (List.replicate (blocks.length * 4) (0 : U32))[a]? = some 0 := by
    rw [List.getElem?_replicate, if_pos ha]
  rw [Buffer.foldl_set _ _ _ fun w hw => ((hmem w).mp hw).2.2, Buffer.getElem?_stored, hzero, Option.map_some,
    if_congr hfst rfl rfl]

/-- The words are the ciphertext if the blocks that the grid does not reach encrypt to zero. -/
theorem ofFlattened_ct_iff (hrk : 44 ≤ rk.length) (hn : blocks.length < 2 ^ 59) {R : ℕ} (hr : max R 1 % 2 ^ 32 ≠ 0)
    {order : List Store}
    (horder : order.Perm (gridStores (kernelArgs rk counter0 blocks (max R 1))
      ((blocks.length % 2 ^ 32) ⌈/⌉ (max R 1 % 2 ^ 32 * BLOCK) * BLOCK))) :
    ofFlattened (order.foldl (fun ct w => ct.set w.1 w.2) (List.replicate (blocks.length * 4) 0)) =
        ctrText rk counter0 blocks ↔
      ∀ i < blocks.length, launchReach blocks.length R ≤ i → ctrBlock rk counter0 blocks i = ⟨0, 0, 0, 0⟩ := by
  obtain ⟨ct, hct⟩ : ∃ ct, ct = order.foldl (fun ct w => ct.set w.1 w.2) (List.replicate (blocks.length * 4) 0) :=
    ⟨_, rfl⟩
  have hword : ∀ a < blocks.length * 4,
      ct[a]? = some (if a / 4 < launchReach blocks.length R then ctWord rk counter0 blocks a else 0) :=
    fun a ha => hct ▸ getElem?_ct hrk hn hr horder ha
  have hlen : ct.length = blocks.length * 4 := by
    rw [hct, length_foldl_stores, List.length_replicate]
  rw [← hct]
  constructor
  · intro htext i hi hreach
    have hwords : ct = asFlattened (ctrText rk counter0 blocks) := by
      rw [← htext, asFlattened_ofFlattened hlen]
    have hzero : ∀ k : Fin 4, (ctrBlock rk counter0 blocks i).get k = 0 := by
      intro k
      have hk := k.isLt
      have h := hword (i * 4 + k) (by omega)
      rw [if_neg (by omega), hwords, getElem?_asFlattened_ctrText (by omega), ctWord_block] at h
      exact Option.some.inj h
    exact Arr4.ext (hzero 0) (hzero 1) (hzero 2) (hzero 3)
  · intro hzero
    have hwords : ct = asFlattened (ctrText rk counter0 blocks) := by
      refine eq_asFlattened_ctrText hlen fun a ha => ?_
      rw [hword a ha]
      by_cases hreach : a / 4 < launchReach blocks.length R
      · rw [if_pos hreach]
      · rw [if_neg hreach, ctWord, hzero (a / 4) (by omega) (by omega)]
        generalize (⟨a % 4, Nat.mod_lt a (by decide)⟩ : Fin 4) = k
        fin_cases k <;> rfl
    rw [hwords, ofFlattened_asFlattened]

theorem encryptsAll_iff (hrk : 44 ≤ rk.length) (hn : blocks.length < 2 ^ 59) (hlen : out.length = blocks.length)
    (R : ℕ) :
    AesGpu.EncryptsAll rk counter0 blocks out R ↔
      blocks.length = 0 ∨ (blocks.length % 2 ^ 32 ≠ 0 ∧ max R 1 % 2 ^ 32 ≠ 0 ∧
        ∀ i < blocks.length, launchReach blocks.length R ≤ i → ctrBlock rk counter0 blocks i = ⟨0, 0, 0, 0⟩) := by
  obtain ⟨ref, hscalar, hdata⟩ := Scalar.run_encryptCtr_data hrk counter0 hlen.symm
  by_cases hzero : blocks.length = 0
  · refine iff_of_true ⟨fun h => absurd hzero h, fun order _ out' hrun => ?_⟩ (Or.inl hzero)
    unfold AesGpu.encryptCtr at hrun
    rw [if_pos hzero] at hrun
    obtain rfl : out = out' := (EStateM.Result.ok.inj hrun).2
    refine ⟨ref, hscalar, ?_⟩
    rw [List.eq_nil_of_length_eq_zero (hlen.trans hzero), hdata, List.eq_nil_of_length_eq_zero hzero]
    rfl
  by_cases hr : max R 1 % 2 ^ 32 = 0
  · refine iff_of_false (fun h => ?_) (by tauto)
    obtain ⟨grid, hgrid, -⟩ := h.1 hzero
    rw [launchGrid_zero hr] at hgrid
    cases hgrid
  by_cases hn32 : blocks.length % 2 ^ 32 = 0
  · refine iff_of_false (fun h => ?_) (by tauto)
    obtain ⟨grid, hgrid, hpos⟩ := h.1 hzero
    rw [launchGrid_eq hr, hn32, zero_ceilDiv] at hgrid
    obtain rfl := Except.ok.inj hgrid
    exact Nat.lt_irrefl 0 hpos
  have hpos : 0 < (blocks.length % 2 ^ 32) ⌈/⌉ (max R 1 % 2 ^ 32 * BLOCK) := by
    by_contra h
    have hle : (blocks.length % 2 ^ 32) ⌈/⌉ (max R 1 % 2 ^ 32 * BLOCK) ≤ 0 := not_lt.mp h
    rw [ceilDiv_le_iff_le_mul (Nat.mul_pos (Nat.pos_of_ne_zero hr) (by decide)), Nat.mul_zero] at hle
    omega
  have hgrid := launchGrid_eq hr blocks.length
  have hrun : ∀ order, (AesGpu.encryptCtr order rk counter0 blocks R).run out = .ok (.ok ())
      (ofFlattened (order.foldl (fun ct w => ct.set w.1 w.2) (List.replicate (blocks.length * 4) 0))) := by
    intro order
    rw [AesGpu.run_encryptCtr hrk hn hzero hlen hr, if_neg hpos.ne']
  constructor
  · rintro ⟨-, hcall⟩
    obtain ⟨ref', hscalar', hout⟩ := hcall _ (fun grid h => by
      rw [← Except.ok.inj (hgrid.symm.trans h)]) _ (hrun _)
    obtain rfl : ref = ref' := (EStateM.Result.ok.inj (hscalar.symm.trans hscalar')).2
    exact Or.inr ⟨hn32, hr, (ofFlattened_ct_iff hrk hn hr (.refl _)).mp (hout.trans hdata)⟩
  · rintro (h | ⟨-, -, hdropped⟩)
    · exact absurd h hzero
    · refine ⟨fun _ => ⟨_, hgrid, hpos⟩, fun order horder out' hcall => ⟨ref, hscalar, ?_⟩⟩
      obtain rfl := (EStateM.Result.ok.inj ((hrun order).symm.trans hcall)).2
      exact ((ofFlattened_ct_iff hrk hn hr (horder _ hgrid)).mpr hdropped).trans hdata.symm

/-- Within 32 bits, a call whose stores land in some order leaves the ciphertext. -/
theorem AesGpu.run_encryptCtr_ctrText (hrk : 44 ≤ rk.length) (hn : blocks.length < 2 ^ 32)
    (hlen : out.length = blocks.length) {R : ℕ} (hr : max R 1 % 2 ^ 32 ≠ 0) {order : List Store}
    (horder : ∀ grid, launchGrid blocks.length (max R 1) = .ok grid →
      order.Perm (gridStores (kernelArgs rk counter0 blocks (max R 1)) (grid * BLOCK))) :
    (AesGpu.encryptCtr order rk counter0 blocks R).run out = .ok (.ok ()) (ctrText rk counter0 blocks) := by
  by_cases hzero : blocks.length = 0
  · obtain rfl : out = [] := List.eq_nil_of_length_eq_zero (hlen.trans hzero)
    rw [List.eq_nil_of_length_eq_zero hzero]
    rfl
  have hn59 : blocks.length < 2 ^ 59 := by omega
  have hreach := le_launchReach hn hr
  have hpos : (blocks.length % 2 ^ 32) ⌈/⌉ (max R 1 % 2 ^ 32 * BLOCK) ≠ 0 := by
    intro h
    rw [launchReach, h] at hreach
    omega
  rw [AesGpu.run_encryptCtr hrk hn59 hzero hlen hr, if_neg hpos,
    (ofFlattened_ct_iff hrk hn59 hr (horder _ (launchGrid_eq hr _))).mpr fun i hi hle => by omega]

/-- **Exactly when the GPU wrapper does what it should**, for messages of any length a slice can have:
on one input, when `n = 0`, or neither `n` nor `r` is a multiple of `2 ^ 32` and the blocks that the
grid does not reach encrypt to zero; on all inputs of that size, when it reaches them all. -/
theorem encryptCtr_complete_iff (n R : ℕ) (hn : n < 2 ^ 59) :
    (∀ (rk : Vector U32 44) (counter0 : Block) (blocks out : List Block), blocks.length = n → out.length = n →
      (AesGpu.EncryptsAll rk.toList counter0 blocks out R ↔
        n = 0 ∨ (n % 2 ^ 32 ≠ 0 ∧ max R 1 % 2 ^ 32 ≠ 0 ∧
          ∀ i < n, launchReach n R ≤ i → ctrBlock rk.toList counter0 blocks i = ⟨0, 0, 0, 0⟩))) ∧
    ((∀ (rk : Vector U32 44) (counter0 : Block) (blocks out : List Block), blocks.length = n → out.length = n →
      AesGpu.EncryptsAll rk.toList counter0 blocks out R) ↔
        n = 0 ∨ (n % 2 ^ 32 ≠ 0 ∧ max R 1 % 2 ^ 32 ≠ 0 ∧ n ≤ launchReach n R)) := by
  have hrk : ∀ rk : Vector U32 44, 44 ≤ rk.toList.length := fun rk => by simp
  have hinput : ∀ (rk : Vector U32 44) (counter0 : Block) (blocks out : List Block), blocks.length = n →
      out.length = n → (AesGpu.EncryptsAll rk.toList counter0 blocks out R ↔
        n = 0 ∨ (n % 2 ^ 32 ≠ 0 ∧ max R 1 % 2 ^ 32 ≠ 0 ∧
          ∀ i < n, launchReach n R ≤ i → ctrBlock rk.toList counter0 blocks i = ⟨0, 0, 0, 0⟩)) := by
    rintro rk counter0 blocks out rfl hlen
    exact encryptsAll_iff (hrk rk) hn hlen R
  refine ⟨hinput, fun hall => ?_, fun h rk counter0 blocks out hblocks hlen => ?_⟩
  · -- a message whose ciphertext has no zero block
    obtain ⟨rk, blocks, hblocks, hct⟩ : ∃ (rk : Vector U32 44) (blocks : List Block), blocks.length = n ∧
        ∀ i < n, ctrBlock rk.toList default blocks i = ⟨1, 0, 0, 0⟩ := by
      refine ⟨.replicate 44 0, (List.range n).map fun i =>
        xorBlock ⟨1, 0, 0, 0⟩ (keystream (Vector.replicate 44 0).toList default i), by simp, fun i hi => ?_⟩
      rw [ctrBlock_lt (by simpa using hi), List.getElem_map, List.getElem_range, xorBlock_cancel]
    have hall' := (hinput rk default blocks blocks hblocks hblocks).mp (hall _ _ _ _ hblocks hblocks)
    rcases hall' with h | ⟨hn32, hr, hdropped⟩
    · exact Or.inl h
    · refine Or.inr ⟨hn32, hr, ?_⟩
      by_contra hreach
      have hzero := (hct _ (not_le.mp hreach)).symm.trans (hdropped _ (not_le.mp hreach) le_rfl)
      exact absurd (congrArg Arr4.e0 hzero) (by decide)
  · rw [hinput rk counter0 blocks out hblocks hlen]
    rcases h with h | ⟨hn32, hr, hreach⟩
    · exact Or.inl h
    · exact Or.inr ⟨hn32, hr, fun i hi hle => by omega⟩

/-- Three blocks, one for each thread. -/
theorem encryptCtr_complete_iff_three :
    AesGpu.EncryptsAll (Vector.replicate 44 0).toList default [default, default, default] [default, default, default] 1 :=
  ((encryptCtr_complete_iff 3 1 (by decide)).1 (Vector.replicate 44 0) default [default, default, default]
    [default, default, default] rfl rfl).mpr (Or.inr ⟨by decide, by decide, fun i hi hle => by
      have : launchReach 3 1 = 256 := by decide
      omega⟩)

/-- The three ways to fail: with `r = 2 ^ 32` the first division panics, on `2 ^ 32` blocks the grid is
empty, and on one block more it reaches 256 blocks and the call returns `Ok` without the rest. -/
theorem encryptCtr_narrowing_fails :
    ¬ AesGpu.EncryptsAll (List.replicate 44 0) default [default] [default] (2 ^ 32) ∧
    ¬ AesGpu.EncryptsAll (List.replicate 44 0) default (List.replicate (2 ^ 32) default)
      (List.replicate (2 ^ 32) default) 1 ∧
    ¬ AesGpu.EncryptsAll (List.replicate 44 0) default (List.replicate (2 ^ 32 + 1) default)
      (List.replicate (2 ^ 32 + 1) default) 1 := by
  have hrk : 44 ≤ (List.replicate 44 (0 : U32)).length := by rw [List.length_replicate]
  refine ⟨fun h => ?_, fun h => ?_, fun h => ?_⟩
  · rw [encryptsAll_iff hrk (by decide) rfl] at h
    exact absurd h (by decide)
  · rw [encryptsAll_iff hrk (by rw [List.length_replicate]; decide) rfl, List.length_replicate] at h
    rcases h with h | ⟨h, -⟩
    · exact absurd h (by decide)
    · exact h rfl
  · rw [encryptsAll_iff hrk (by rw [List.length_replicate]; decide) rfl, List.length_replicate] at h
    rcases h with h | ⟨-, -, h⟩
    · exact absurd h (by decide)
    · have hreach : launchReach (2 ^ 32 + 1) 1 = 256 := by decide
      have hzero := congrArg Arr4.e0 (h 256 (by decide) hreach.le)
      have hks : (keystream (List.replicate 44 0) default 256).e0 ≠ 0 := by decide +kernel
      rw [ctrBlock_lt (by rw [List.length_replicate]; decide), List.getElem_replicate] at hzero
      exact hks (BitVec.zero_xor.symm.trans hzero)

end CudaAes
