import CudaAes.Lib.Outcomes
import CudaAes.Gpu.HostSpec

/-!
# The contract of the kernel

`aes128_ctr` is unsafe: it stores through a raw pointer, of whose buffer it knows only that it holds
`n_blocks` blocks. That is all it needs: whatever the other parameters are, no thread stores anywhere else,
and no two threads store to one word (`kernel_memory_safe`). Since the plaintext is another buffer than the
ciphertext, launches of any shape can be repeated and mixed (`launches_compose`).
-/

namespace CudaAes

open Rust Fips197

/-! ## Any parameters -/

section tables
variable (t0 t1 t2 t3 sbox rk : List U32)

theorem onlyPanics_tableWord_of (a b c d : U32) (k : ℕ) : OnlyPanics (tableWord t0 t1 t2 t3 rk a b c d k) :=
  (onlyPanics_index _ _).bind fun _ => (onlyPanics_index _ _).bind fun _ => (onlyPanics_index _ _).bind fun _ =>
    (onlyPanics_index _ _).bind fun _ => (onlyPanics_index _ _).bind fun _ => onlyPanics_ok _

theorem onlyPanics_tableRound_of (s : Block) (r : ℕ) : OnlyPanics (tableRound t0 t1 t2 t3 rk s r) :=
  (onlyPanics_tableWord_of _ _ _ _ _ _ _ _ _ _).bind fun _ => (onlyPanics_tableWord_of _ _ _ _ _ _ _ _ _ _).bind fun _ =>
    (onlyPanics_tableWord_of _ _ _ _ _ _ _ _ _ _).bind fun _ =>
    (onlyPanics_tableWord_of _ _ _ _ _ _ _ _ _ _).bind fun _ => onlyPanics_ok _

theorem onlyPanics_sboxWord_of (a b c d : U32) : OnlyPanics (sboxWord sbox a b c d) :=
  (onlyPanics_index _ _).bind fun _ => (onlyPanics_index _ _).bind fun _ => (onlyPanics_index _ _).bind fun _ =>
    (onlyPanics_index _ _).bind fun _ => onlyPanics_ok _

theorem onlyPanics_encryptBlock_of (pt : Block) : OnlyPanics (encryptBlock pt rk t0 t1 t2 t3 sbox) :=
  (onlyPanics_index _ _).bind fun _ => (onlyPanics_index _ _).bind fun _ => (onlyPanics_index _ _).bind fun _ =>
    (onlyPanics_index _ _).bind fun _ =>
    (onlyPanics_foldlM (onlyPanics_tableRound_of t0 t1 t2 t3 rk) _ _).bind fun _ =>
    (onlyPanics_sboxWord_of _ _ _ _ _).bind fun _ => (onlyPanics_sboxWord_of _ _ _ _ _).bind fun _ =>
    (onlyPanics_sboxWord_of _ _ _ _ _).bind fun _ => (onlyPanics_sboxWord_of _ _ _ _ _).bind fun _ =>
    (onlyPanics_index _ _).bind fun _ => (onlyPanics_index _ _).bind fun _ => (onlyPanics_index _ _).bind fun _ =>
    (onlyPanics_index _ _).bind fun _ => onlyPanics_ok _

end tables

variable (args : KernelArgs)

theorem onlyPanics_blockStores (counter0 : Block) (i : ℕ) : OnlyPanics (blockStores args counter0 i) :=
  (onlyPanics_index _ _).bind fun _ => (onlyPanics_index _ _).bind fun _ => (onlyPanics_index _ _).bind fun _ =>
    (onlyPanics_index _ _).bind fun _ =>
    ((onlyPanics_encryptBlock_of _ _ _ _ _ _ _).bind fun _ => onlyPanics_ok _).bind fun _ => onlyPanics_ok _

theorem onlyPanics_readCounter (counter0 : List U32) : OnlyPanics (readCounter counter0) :=
  (onlyPanics_index _ _).bind fun _ => (onlyPanics_index _ _).bind fun _ => (onlyPanics_index _ _).bind fun _ =>
    (onlyPanics_index _ _).bind fun _ => onlyPanics_ok _

/-- The words of block `i`, without a wrap. -/
theorem blockStores_fst {counter0 : Block} {i : ℕ} {stores : List Store} (hi : i * 4 + 4 ≤ 2 ^ 64)
    (h : blockStores args counter0 i = .ok stores) : stores.map Prod.fst = blockWords i := by
  have hbase : usizeMul i 4 = i * 4 := Nat.mod_eq_of_lt (by omega)
  have hadd : ∀ k < 4, usizeAdd (i * 4) k = i * 4 + k := fun k hk => Nat.mod_eq_of_lt (by omega)
  unfold blockStores at h
  obtain ⟨_, -, h⟩ := bind_eq_ok h
  obtain ⟨_, -, h⟩ := bind_eq_ok h
  obtain ⟨_, -, h⟩ := bind_eq_ok h
  obtain ⟨_, -, h⟩ := bind_eq_ok h
  obtain ⟨_, -, h⟩ := bind_eq_ok h
  obtain rfl := Except.ok.inj h
  rw [hbase, hadd 1 (by omega), hadd 2 (by omega), hadd 3 (by omega)]
  rfl

/-- The stores of a thread: to `ct`, and each to one of the thread's blocks. -/
def Owned (args : KernelArgs) (start : ℕ) (stores : List Store) : Prop :=
  ∀ w ∈ stores, w.1 < args.nBlocks * 4 ∧ ∃ j < args.blocksPerThread, w.1 / 4 = usizeAdd start j

section safe
variable {args}

theorem Owned.append {start : ℕ} {stores : List Store} {w : Store} (hstores : Owned args start stores)
    (hw : w.1 < args.nBlocks * 4 ∧ ∃ j < args.blocksPerThread, w.1 / 4 = usizeAdd start j) :
    Owned args start (stores ++ [w]) := by
  intro v hv
  rcases List.mem_append.mp hv with hv | hv
  · exact hstores v hv
  · rwa [List.mem_singleton.mp hv]

theorem meets_threadBlock (hct : args.nBlocks * 4 ≤ args.ctLen) (hlen : args.ctLen < 2 ^ 64) (counter0 : Block)
    {start j : ℕ} (hj : j < args.blocksPerThread) {stores : List Store} (hstores : Owned args start stores) :
    Meets (threadBlock args counter0 start j) stores (fun _ => Owned args start) fun _ => Owned args start := by
  unfold threadBlock
  dsimp only
  split
  · exact meets_pure hstores
  · rename_i hi
    have hread : Meets (liftM (blockStores args counter0 (usizeAdd start j)) : Run (List Store) (List Store)) stores
        (fun ws s => ws.map Prod.fst = blockWords (usizeAdd start j) ∧ Owned args start s) fun _ => Owned args start :=
      meets_liftM (onlyPanics_blockStores args counter0 _)
        (fun ws hws => ⟨blockStores_fst args (by omega) hws, hstores⟩) fun _ _ => hstores
    refine hread.bind fun ws s ⟨hwords, hs⟩ => ?_
    have hword : ∀ w ∈ ws, w.1 / 4 = usizeAdd start j :=
      fun w hw => mem_blockWords.mp (hwords ▸ List.mem_map_of_mem hw)
    refine (meets_forM ws (fun w hw t ht => ?_) hs).bind fun _ _ ht => meets_pure ht
    have := hword w hw
    exact meets_of_ok (if_pos (by omega)) (ht.append ⟨by omega, j, hj, hword w hw⟩)

/-- **One thread, whatever its parameters hold**, if `ct` has room for the blocks. -/
theorem meets_aes128Ctr (hct : args.nBlocks * 4 ≤ args.ctLen) (hlen : args.ctLen < 2 ^ 64) (index : U32) :
    Meets (aes128Ctr args index) [] (fun _ => Owned args (usizeMul index.toNat args.blocksPerThread))
      fun _ => Owned args (usizeMul index.toNat args.blocksPerThread) := by
  have hnone : Owned args (usizeMul index.toNat args.blocksPerThread) [] := fun w hw => absurd hw List.not_mem_nil
  have hread : Meets (liftM (readCounter args.counter0) : Run (List Store) Block) []
      (fun _ => Owned args (usizeMul index.toNat args.blocksPerThread))
      fun _ => Owned args (usizeMul index.toNat args.blocksPerThread) :=
    meets_liftM (onlyPanics_readCounter _) (fun _ _ => hnone) fun _ _ => hnone
  exact hread.bind fun counter0 s hs => meets_forReturn 0 args.blocksPerThread
    (fun j hj _ t ht => meets_threadBlock hct hlen counter0 (by omega) ht) hs

theorem owned_threadStores (hct : args.nBlocks * 4 ≤ args.ctLen) (hlen : args.ctLen < 2 ^ 64) {t : ℕ} (ht : t < 2 ^ 32) :
    Owned args (usizeMul t args.blocksPerThread) (threadStores args t) := by
  have hmeets := meets_aes128Ctr hct hlen (index1d t)
  rw [toNat_index1d ht] at hmeets
  unfold threadStores
  rcases hmeets.elim with ⟨_, stores, hrun, hstores⟩ | ⟨e, stores, hrun, -, hstores⟩
  · rw [hrun]
    exact hstores
  · rw [hrun]
    exact hstores

end safe

/-- **The contract of the kernel.** If `ct` has room for `n_blocks` blocks, then whatever the parameters
hold, a thread of any index ends or panics, without undefined behaviour; it stores only to words of `ct`,
and only of its own blocks; and no word is stored by two threads whose indices do not wrap. -/
theorem kernel_memory_safe (args : KernelArgs) (hct : args.nBlocks * 4 ≤ args.ctLen) (hlen : args.ctLen < 2 ^ 64) :
    (∀ index : U32, ∃ stores,
      ((aes128Ctr args index).run [] = .ok () stores ∨
        ∃ e, e.IsPanic ∧ (aes128Ctr args index).run [] = .error e stores) ∧
      ∀ w ∈ stores, w.1 < args.ctLen ∧ w.1 < args.nBlocks * 4 ∧
        ∃ j < args.blocksPerThread, w.1 / 4 = usizeAdd (usizeMul index.toNat args.blocksPerThread) j) ∧
    ∀ t t', t < 2 ^ 32 → t' < 2 ^ 32 → t ≠ t' →
      t * args.blocksPerThread + args.blocksPerThread ≤ 2 ^ 64 →
      t' * args.blocksPerThread + args.blocksPerThread ≤ 2 ^ 64 →
      ((threadStores args t).map Prod.fst).Disjoint ((threadStores args t').map Prod.fst) := by
  refine ⟨fun index => ?_, fun t t' ht ht' hne hwrap hwrap' a ha ha' => hne ?_⟩
  · have hbound : ∀ w : Store, w.1 < args.nBlocks * 4 → w.1 < args.ctLen := fun w hw => hw.trans_le hct
    rcases (meets_aes128Ctr hct hlen index).elim with ⟨_, stores, hrun, hstores⟩ | ⟨e, stores, hrun, he, hstores⟩
    · exact ⟨stores, Or.inl hrun, fun w hw => ⟨hbound w (hstores w hw).1, hstores w hw⟩⟩
    · exact ⟨stores, Or.inr ⟨e, he, hrun⟩, fun w hw => ⟨hbound w (hstores w hw).1, hstores w hw⟩⟩
  · -- without a wrap, the block of a word names the thread
    have hthread : ∀ t < 2 ^ 32, t * args.blocksPerThread + args.blocksPerThread ≤ 2 ^ 64 →
        a ∈ (threadStores args t).map Prod.fst → a / 4 / args.blocksPerThread = t := by
      intro t ht hwrap ha
      obtain ⟨w, hw, rfl⟩ := List.mem_map.mp ha
      obtain ⟨-, j, hj, hblock⟩ := owned_threadStores hct hlen ht w hw
      have hmul : usizeMul t args.blocksPerThread = t * args.blocksPerThread := Nat.mod_eq_of_lt (by omega)
      have hadd : usizeAdd (t * args.blocksPerThread) j = t * args.blocksPerThread + j := Nat.mod_eq_of_lt (by omega)
      rw [hblock, hmul, hadd]
      exact (Nat.div_eq_iff (by omega)).mpr (by omega)
    exact (hthread t ht hwrap ha).symm.trans (hthread t' ht' hwrap' ha')

/-- Two threads with a block each: the second stores words four to seven, and the first no word of these. -/
theorem kernel_memory_safe_two :
    (∃ stores, (aes128Ctr (kernelArgs (List.replicate 44 0) default [default, default] 1) (index1d 1)).run [] =
      .ok () stores ∧ stores.map Prod.fst = [4, 5, 6, 7] ∧ ∀ w ∈ stores, w.1 < 8 ∧ w.1 / 4 = 1) ∧
    (threadStores (kernelArgs (List.replicate 44 0) default [default, default] 1) 0).map Prod.fst = [0, 1, 2, 3] ∧
    ((threadStores (kernelArgs (List.replicate 44 0) default [default, default] 1) 0).map Prod.fst).Disjoint
      ((threadStores (kernelArgs (List.replicate 44 0) default [default, default] 1) 1).map Prod.fst) := by
  have hrk : 44 ≤ (List.replicate 44 (0 : U32)).length := List.length_replicate.ge
  have hn : [(default : Block), default].length < 2 ^ 59 := show 2 < 2 ^ 59 by omega
  have hwords : ∀ t < 2, (aes128Ctr (kernelArgs (List.replicate 44 0) default [default, default] 1) (index1d t)).run [] =
      .ok () (storesAt (List.replicate 44 0) default [default, default]
        ((List.range' (usizeMul t 1) (min 1 (2 - usizeMul t 1))).flatMap blockWords)) :=
    fun t ht => run_aes128Ctr hrk 1 (by omega) hn
  obtain ⟨hthread, hdisjoint⟩ := kernel_memory_safe (kernelArgs (List.replicate 44 0) default [default, default] 1) le_rfl
    (show 8 < 2 ^ 64 by omega)
  obtain ⟨stores, hrun, howned⟩ := hthread (index1d 1)
  rw [hwords 1 (by omega)] at hrun
  obtain hrun | ⟨e, -, hrun⟩ := hrun
  · obtain ⟨-, rfl⟩ := EStateM.Result.ok.inj hrun
    refine ⟨⟨_, hwords 1 (by omega), map_fst_storesAt _, fun w hw => ?_⟩, ?_,
      hdisjoint 0 1 (by omega) (by omega) Nat.zero_ne_one (show 0 * 1 + 1 ≤ 2 ^ 64 by omega)
        (show 1 * 1 + 1 ≤ 2 ^ 64 by omega)⟩
    · obtain ⟨hlt, -, j, hj, hblock⟩ := howned w hw
      obtain rfl : j = 0 := Nat.lt_one_iff.mp hj
      exact ⟨hlt, hblock⟩
    · rw [threadStores_eq hrk 1 (by omega) hn]
      exact map_fst_storesAt _
  · cases hrun

/-! ## Launches of any shapes -/

section launches
variable {rk : List U32} {counter0 : Block} {blocks : List Block}

/-- The stores of a grid, also of threads without a block. -/
theorem mem_gridStores_iff (hrk : 44 ≤ rk.length) {r threads : ℕ} (hthreads : threads ≤ 2 ^ 32)
    (hn : blocks.length < 2 ^ 59) {w : Store} :
    w ∈ gridStores (kernelArgs rk counter0 blocks r) threads ↔
      w.1 / 4 < blocks.length ∧ w.1 / 4 < threads * r ∧ w.2 = ctWord rk counter0 blocks w.1 := by
  rcases Nat.eq_zero_or_pos r with rfl | hr
  · rw [Nat.mul_zero]
    refine iff_of_false (fun hw => ?_) fun h => Nat.not_lt_zero _ h.2.1
    obtain ⟨t, ht, hw⟩ := List.mem_flatMap.mp hw
    have := List.mem_range.mp ht
    rw [threadStores_eq hrk 0 (by omega) hn, Nat.zero_min] at hw
    exact absurd hw List.not_mem_nil
  · exact mem_gridStores hrk hr hthreads hn

/-- The stores of several launches: of the right words, for the blocks that one of them reaches. -/
theorem mem_launchesStores (hrk : 44 ≤ rk.length) (hn : blocks.length < 2 ^ 59) {launches : List (ℕ × ℕ)}
    (hthreads : ∀ l ∈ launches, l.1 ≤ 2 ^ 32) {w : Store} :
    w ∈ launches.flatMap (fun l => gridStores (kernelArgs rk counter0 blocks l.2) l.1) ↔
      w.1 / 4 < blocks.length ∧ (∃ l ∈ launches, w.1 / 4 < l.1 * l.2) ∧ w.2 = ctWord rk counter0 blocks w.1 := by
  rw [List.mem_flatMap]
  constructor
  · intro ⟨l, hl, hw⟩
    obtain ⟨hlt, hreach, hval⟩ := (mem_gridStores_iff hrk (hthreads l hl) hn).mp hw
    exact ⟨hlt, ⟨l, hl, hreach⟩, hval⟩
  · intro ⟨hlt, ⟨l, hl, hreach⟩, hval⟩
    exact ⟨l, hl, (mem_gridStores_iff hrk (hthreads l hl) hn).mpr ⟨hlt, hreach, hval⟩⟩

/-- A buffer of words whose blocks are stored whole or not at all. -/
theorem stored_ctWord {ct : List Block} (hct : ct.length = blocks.length) {as is : List ℕ}
    (h : ∀ a < blocks.length * 4, a ∈ as ↔ a / 4 ∈ is) :
    (Buffer.stored (ctWord rk counter0 blocks) (asFlattened ct) as).data =
      asFlattened (Buffer.stored (ctrBlock rk counter0 blocks) ct is).data := by
  apply List.ext_getElem?
  intro a
  rw [Buffer.getElem?_stored]
  rcases Nat.lt_or_ge a (blocks.length * 4) with ha | ha
  · have hi : a / 4 < ct.length := by omega
    have hsplit : a / 4 * 4 + (⟨a % 4, Nat.mod_lt a (by omega)⟩ : Fin 4) = a := Nat.div_add_mod' a 4
    have hold := getElem?_asFlattened ct hi ⟨a % 4, Nat.mod_lt a (by omega)⟩
    have hnew := getElem?_asFlattened (Buffer.stored (ctrBlock rk counter0 blocks) ct is).data
      (by rwa [Buffer.length_stored]) ⟨a % 4, Nat.mod_lt a (by omega)⟩
    rw [hsplit] at hold hnew
    rw [hold, hnew, Buffer.getElem_stored _ _ _ _ hi, Option.map_some, if_congr (h a ha) rfl rfl]
    split
    · rfl
    · rfl
  · have hlen : (asFlattened ct).length ≤ a := by
      rw [length_asFlattened]
      omega
    have hlen' : (asFlattened (Buffer.stored (ctrBlock rk counter0 blocks) ct is).data).length ≤ a := by
      rw [length_asFlattened, Buffer.length_stored]
      omega
    rw [List.getElem?_eq_none hlen, List.getElem?_eq_none hlen', Option.map_none]

/-- **Launches compose.** Any number of launches on one message, of any shapes, whose stores land in any
order on any contents of `ct`: no thread faults, each block that one of them reaches is the ciphertext, and
the others are as they were. -/
theorem launches_compose (rk : List U32) (hrk : 44 ≤ rk.length) (counter0 : Block) (blocks : List Block)
    (hn : blocks.length < 2 ^ 59) (launches : List (ℕ × ℕ)) (hthreads : ∀ l ∈ launches, l.1 ≤ 2 ^ 32) (order : List Store)
    (horder : order.Perm (launches.flatMap fun l => gridStores (kernelArgs rk counter0 blocks l.2) l.1))
    (ct : List Block) (hct : ct.length = blocks.length) :
    (∀ l ∈ launches, gridFaults (kernelArgs rk counter0 blocks l.2) l.1 = false) ∧
    ∀ i < blocks.length, (ofFlattened (order.foldl (fun ct w => ct.set w.1 w.2) (asFlattened ct)))[i]? =
      if ∃ l ∈ launches, i < l.1 * l.2 then some (ctrBlock rk counter0 blocks i) else ct[i]? := by
  refine ⟨fun l hl => gridFaults_eq hrk hn l.2 (hthreads l hl), fun i hi => ?_⟩
  have hmem : ∀ {w : Store}, w ∈ order ↔ w.1 / 4 < blocks.length ∧ (∃ l ∈ launches, w.1 / 4 < l.1 * l.2) ∧
      w.2 = ctWord rk counter0 blocks w.1 := horder.mem_iff.trans (mem_launchesStores hrk hn hthreads)
  obtain ⟨is, his⟩ : ∃ is, is = (List.range blocks.length).filter fun i => ∃ l ∈ launches, i < l.1 * l.2 := ⟨_, rfl⟩
  have hmemis : ∀ i < blocks.length, i ∈ is ↔ ∃ l ∈ launches, i < l.1 * l.2 := by
    intro i hi
    rw [his, List.mem_filter, decide_eq_true_iff]
    exact and_iff_right (List.mem_range.mpr hi)
  have hwhole : ∀ a < blocks.length * 4, a ∈ order.map Prod.fst ↔ a / 4 ∈ is := by
    intro a ha
    rw [hmemis _ (by omega), List.mem_map]
    constructor
    · rintro ⟨w, hw, rfl⟩
      exact (hmem.mp hw).2.1
    · intro hreach
      exact ⟨(a, ctWord rk counter0 blocks a), hmem.mpr ⟨by omega, hreach, rfl⟩, rfl⟩
  rw [Buffer.foldl_set (ctWord rk counter0 blocks) _ order fun w hw => (hmem.mp hw).2.2, stored_ctWord hct hwhole,
    ofFlattened_asFlattened, Buffer.getElem?_stored, List.getElem?_eq_getElem (by omega), Option.map_some,
    if_congr (hmemis i hi) rfl rfl]
  split
  · rfl
  · rfl

/-- Two launches of one thread each, for the first block and for the first two; the third is as it was. -/
theorem launches_compose_two : (ofFlattened (([(1, 1), (1, 2)].flatMap fun l =>
      gridStores (kernelArgs (List.replicate 44 0) default [default, default, default] l.2) l.1).foldl
        (fun ct w => ct.set w.1 w.2) (asFlattened [default, default, ⟨1, 2, 3, 4⟩])))[2]? = some ⟨1, 2, 3, 4⟩ :=
  ((launches_compose (List.replicate 44 0) List.length_replicate.ge default [default, default, default]
    (show 3 < 2 ^ 59 by omega) [(1, 1), (1, 2)] (by simp) _ (.refl _) [default, default, ⟨1, 2, 3, 4⟩] rfl).2 2
    (show 2 < 3 by omega)).trans (if_neg (by simp))

end launches

end CudaAes
