import CudaAes.Gpu.Host
import CudaAes.Cpu.Scalar

/-!
# What a grid of threads stores

The words of the ciphertext are `ctWord`. A thread stores the words of its blocks
(`run_aes128Ctr`), a grid those of the blocks its threads cover, and stores of the right words leave
the ciphertext, in whatever order they land (`ofFlattened_stores`).
-/

namespace CudaAes

open Rust Fips197

/-! ## Words and blocks -/

theorem length_asFlattened (blocks : List Block) : (asFlattened blocks).length = blocks.length * 4 := by
  induction blocks with
  | nil => rfl
  | cons b bs ih =>
    unfold asFlattened
    rw [List.flatMap_cons, List.length_append, ← asFlattened, ih, List.length_cons]
    simp only [Arr4.toList, List.length_cons, List.length_nil]
    omega

theorem getElem?_asFlattened (blocks : List Block) {i : ℕ} (h : i < blocks.length) (k : Fin 4) :
    (asFlattened blocks)[i * 4 + k]? = some (blocks[i].get k) := by
  induction blocks generalizing i with
  | nil => simp at h
  | cons b bs ih =>
    unfold asFlattened
    rw [List.flatMap_cons, ← asFlattened]
    cases i with
    | zero =>
      rw [Nat.zero_mul, Nat.zero_add, List.getElem?_append_left (by simp [Arr4.toList])]
      fin_cases k <;> rfl
    | succ i =>
      have hi : i < bs.length := by simpa using h
      have hlen : b.toList.length = 4 := rfl
      rw [List.getElem?_append_right (by omega), hlen, show (i + 1) * 4 + k - 4 = i * 4 + k by omega, ih hi]
      rfl

theorem asFlattened_replicate (n : ℕ) (x : U32) :
    asFlattened (List.replicate n ⟨x, x, x, x⟩) = List.replicate (n * 4) x := by
  induction n with
  | zero => rfl
  | succ n ih =>
    unfold asFlattened at ih ⊢
    rw [List.replicate_succ, List.flatMap_cons, ih, Nat.succ_mul, Nat.add_comm, List.replicate_add]
    rfl

theorem ofFlattened_asFlattened (blocks : List Block) : ofFlattened (asFlattened blocks) = blocks := by
  induction blocks with
  | nil => rfl
  | cons b bs ih =>
    show b :: ofFlattened (asFlattened bs) = b :: bs
    rw [ih]

theorem asFlattened_ofFlattened {n : ℕ} {words : List U32} (h : words.length = n * 4) :
    asFlattened (ofFlattened words) = words := by
  induction n generalizing words with
  | zero =>
    obtain rfl : words = [] := List.eq_nil_of_length_eq_zero (by omega)
    rfl
  | succ n ih =>
    match words, h with
    | [], h | [_], h | [_, _], h | [_, _, _], h =>
      simp only [List.length_nil, List.length_cons] at h
      omega
    | e0 :: e1 :: e2 :: e3 :: rest, h =>
      have hrest : rest.length = n * 4 := by
        simp only [List.length_cons] at h
        omega
      show e0 :: e1 :: e2 :: e3 :: asFlattened (ofFlattened rest) = _
      rw [ih hrest]

def ctWord (rk : List U32) (counter0 : Block) (blocks : List Block) (a : ℕ) : U32 :=
  (ctrBlock rk counter0 blocks (a / 4)).get ⟨a % 4, Nat.mod_lt a (by decide)⟩

def blockWords (i : ℕ) : List ℕ := List.range' (i * 4) 4

theorem flatMap_blockWords (n : ℕ) : (List.range n).flatMap blockWords = List.range (n * 4) := by
  have h := flatMap_chunkRange (n * 4) 4 n
  rw [Nat.min_self] at h
  rw [← h, List.flatMap_def, List.flatMap_def]
  refine congrArg List.flatten (List.map_congr_left fun i hi => ?_)
  rw [List.mem_range] at hi
  unfold blockWords
  rw [chunkRange, Nat.min_eq_left (by omega)]

theorem mem_blockWords {i a : ℕ} : a ∈ blockWords i ↔ a / 4 = i := by
  unfold blockWords
  rw [List.mem_range'_1]
  omega

variable {rk : List U32} {counter0 : Block} {blocks : List Block}

theorem ctWord_block (i : ℕ) (k : Fin 4) :
    ctWord rk counter0 blocks (i * 4 + k) = (ctrBlock rk counter0 blocks i).get k := by
  have hk := k.isLt
  have hdiv : (i * 4 + k) / 4 = i := by omega
  have hmod : (⟨(i * 4 + k) % 4, Nat.mod_lt _ (by decide)⟩ : Fin 4) = k := Fin.ext (by simp only; omega)
  unfold ctWord
  rw [hdiv, hmod]

theorem getElem?_asFlattened_ctrText {a : ℕ} (h : a < blocks.length * 4) :
    (asFlattened (ctrText rk counter0 blocks))[a]? = some (ctWord rk counter0 blocks a) := by
  have hi : a / 4 < blocks.length := by omega
  have hlen : (ctrText rk counter0 blocks).length = blocks.length := StreamCipher.length_apply _ _ _
  have hword := getElem?_asFlattened (ctrText rk counter0 blocks) (hlen ▸ hi) ⟨a % 4, Nat.mod_lt a (by decide)⟩
  rw [show a / 4 * 4 + a % 4 = a by omega] at hword
  rw [hword, ctWord, ctrBlock_lt hi]
  simp [ctrText, StreamCipher.apply]

/-- A buffer is the ciphertext if each of its words is. -/
theorem eq_asFlattened_ctrText {ct : List U32} (hlen : ct.length = blocks.length * 4)
    (hword : ∀ a < blocks.length * 4, ct[a]? = some (ctWord rk counter0 blocks a)) :
    ct = asFlattened (ctrText rk counter0 blocks) := by
  apply List.ext_getElem?
  intro a
  rcases Nat.lt_or_ge a (blocks.length * 4) with ha | ha
  · rw [hword a ha, getElem?_asFlattened_ctrText ha]
  · have hlen' : (asFlattened (ctrText rk counter0 blocks)).length = blocks.length * 4 := by
      rw [length_asFlattened, ctrText, StreamCipher.length_apply]
    rw [List.getElem?_eq_none (by omega), List.getElem?_eq_none (by omega)]

/-! ## One thread -/

theorem index1d_eq (t : ℕ) : index1d t = BitVec.ofNat 32 t := by
  have h := congrArg (BitVec.ofNat 32) (Nat.div_add_mod' t 256)
  rwa [BitVec.ofNat_add, BitVec.ofNat_mul] at h

theorem toNat_index1d {t : ℕ} (h : t < 2 ^ 32) : (index1d t).toNat = t := by
  rw [index1d_eq, BitVec.toNat_ofNat, Nat.mod_eq_of_lt h]

theorem readCounter_toList (b : Block) : readCounter b.toList = .ok b := rfl

/-- The stores of the right words at the indices `as`. -/
def storesAt (rk : List U32) (counter0 : Block) (blocks : List Block) (as : List ℕ) : List Store :=
  as.map fun a => (a, ctWord rk counter0 blocks a)

theorem blockStores_eq (hrk : 44 ≤ rk.length) {r i : ℕ} (hi : i < blocks.length) (hn : blocks.length < 2 ^ 59) :
    blockStores (kernelArgs rk counter0 blocks r) counter0 i = .ok (storesAt rk counter0 blocks (blockWords i)) := by
  have hbase : usizeMul i 4 = i * 4 := Nat.mod_eq_of_lt (by omega)
  have hadd : ∀ k < 4, usizeAdd (i * 4) k = i * 4 + k := fun k hk => Nat.mod_eq_of_lt (by omega)
  have hread : ∀ k : Fin 4, index (asFlattened blocks) (i * 4 + k) = .ok (blocks[i].get k) := by
    intro k
    unfold index
    rw [getElem?_asFlattened blocks hi k]
  have h0 : index (asFlattened blocks) (i * 4) = .ok blocks[i].e0 := hread 0
  have h1 : index (asFlattened blocks) (i * 4 + 1) = .ok blocks[i].e1 := hread 1
  have h2 : index (asFlattened blocks) (i * 4 + 2) = .ok blocks[i].e2 := hread 2
  have h3 : index (asFlattened blocks) (i * 4 + 3) = .ok blocks[i].e3 := hread 3
  have hword : ∀ k : Fin 4, ctWord rk counter0 blocks (i * 4 + k) =
      (xorBlock blocks[i] (keystream rk counter0 i)).get k := by
    intro k
    rw [ctWord_block, ctrBlock_lt hi]
  have hstores : storesAt rk counter0 blocks (blockWords i) =
      [(i * 4, (xorBlock blocks[i] (keystream rk counter0 i)).e0),
        (i * 4 + 1, (xorBlock blocks[i] (keystream rk counter0 i)).e1),
        (i * 4 + 2, (xorBlock blocks[i] (keystream rk counter0 i)).e2),
        (i * 4 + 3, (xorBlock blocks[i] (keystream rk counter0 i)).e3)] := by
    rw [← show _ = (xorBlock blocks[i] (keystream rk counter0 i)).e0 from hword 0,
      ← show _ = (xorBlock blocks[i] (keystream rk counter0 i)).e1 from hword 1,
      ← show _ = (xorBlock blocks[i] (keystream rk counter0 i)).e2 from hword 2,
      ← show _ = (xorBlock blocks[i] (keystream rk counter0 i)).e3 from hword 3]
    rfl
  rw [blockStores, hbase, hadd 1 (by decide), hadd 2 (by decide), hadd 3 (by decide), hstores]
  simp only [kernelArgs, h0, h1, h2, h3, ok_bind, encryptCtrBlock_eq hrk]
  rfl

theorem run_forM_storeWord {len : ℕ} (ws : List Store) (h : ∀ w ∈ ws, w.1 < len) (stores : List Store) :
    (forM ws (storeWord len)).run stores = .ok () (stores ++ ws) := by
  induction ws generalizing stores with
  | nil => rw [List.append_nil]; rfl
  | cons w ws ih =>
    have hw : (storeWord len w).run stores = .ok () (stores ++ [w]) := if_pos (h w List.mem_cons_self)
    rw [List.forM_cons, run_bind_ok hw, ih fun v hv => h v (List.mem_cons_of_mem w hv), List.append_assoc]
    rfl

/-- The words that a thread has stored when it comes to block `i`, having started at block `start`. -/
def threadWords (start i : ℕ) : List ℕ := (List.range' start (i - start)).flatMap blockWords

/-- A turn of a thread's loop on a block of the message. -/
theorem run_threadBlock (hrk : 44 ≤ rk.length) {r start j : ℕ} (hn : blocks.length < 2 ^ 59)
    (hj : start + j < blocks.length) :
    (threadBlock (kernelArgs rk counter0 blocks r) counter0 start j).run
        (storesAt rk counter0 blocks (threadWords start (start + j))) =
      .ok true (storesAt rk counter0 blocks (threadWords start (start + j + 1))) := by
  have hadd : usizeAdd start j = start + j := Nat.mod_eq_of_lt (by omega)
  have hbound : ∀ w ∈ storesAt rk counter0 blocks (blockWords (start + j)), w.1 < blocks.length * 4 := by
    intro w hw
    obtain ⟨a, ha, rfl⟩ := List.mem_map.mp hw
    have := mem_blockWords.mp ha
    show a < blocks.length * 4
    omega
  have hwords : threadWords start (start + j + 1) = threadWords start (start + j) ++ blockWords (start + j) := by
    rw [threadWords, threadWords, show start + j + 1 - start = j + 1 by omega, show start + j - start = j by omega,
      List.range'_1_concat, List.flatMap_append, List.flatMap_singleton]
  have hgo : ¬ (kernelArgs rk counter0 blocks r).nBlocks ≤ start + j := not_le.mpr hj
  unfold threadBlock
  rw [hadd, if_neg hgo, blockStores_eq hrk hj hn, run_bind_ok (run_liftM_ok _ _)]
  refine (run_bind_ok (run_forM_storeWord _ hbound _)).trans ?_
  rw [hwords, storesAt, storesAt, storesAt, List.map_append]
  rfl

theorem run_threadBlock_return {r start j : ℕ} (hj : blocks.length ≤ usizeAdd start j) (stores : List Store) :
    (threadBlock (kernelArgs rk counter0 blocks r) counter0 start j).run stores = .ok false stores := by
  unfold threadBlock
  rw [if_pos (show (kernelArgs rk counter0 blocks r).nBlocks ≤ usizeAdd start j from hj)]
  rfl

/-- **One thread** stores the words of the blocks of the message from its first block on, at most `r`
of them, without a fault. -/
theorem run_aes128Ctr (hrk : 44 ≤ rk.length) (r : ℕ) {t : ℕ} (ht : t < 2 ^ 32) (hn : blocks.length < 2 ^ 59) :
    (aes128Ctr (kernelArgs rk counter0 blocks r) (index1d t)).run [] =
      .ok () (storesAt rk counter0 blocks
        ((List.range' (usizeMul t r) (min r (blocks.length - usizeMul t r))).flatMap blockWords)) := by
  have hstart : usizeMul t r < 2 ^ 64 := Nat.mod_lt _ (by decide)
  have hloop := forReturn_seq (threadBlock (kernelArgs rk counter0 blocks r) counter0 (usizeMul t r))
    (fun j => storesAt rk counter0 blocks (threadWords (usizeMul t r) (usizeMul t r + j)))
    (min r (blocks.length - usizeMul t r)) 0 r (Nat.min_le_left _ _)
    (fun j _ hj => run_threadBlock hrk hn (by omega)) fun hlt => run_threadBlock_return ?_ _
  · unfold aes128Ctr
    rw [toNat_index1d ht]
    simp only [kernelArgs, readCounter_toList]
    refine (run_bind_ok (run_liftM_ok _ _)).trans ?_
    have hentry : threadWords (usizeMul t r) (usizeMul t r + 0) = [] := by simp [threadWords]
    rw [hentry, threadWords, Nat.zero_add, show ∀ m, usizeMul t r + m - usizeMul t r = m by omega] at hloop
    exact hloop
  · unfold usizeAdd
    rw [Nat.zero_add]
    rcases Nat.le_total (usizeMul t r) blocks.length with h | h
    · rw [Nat.mod_eq_of_lt (by omega)]
      omega
    · rw [show min r (blocks.length - usizeMul t r) = 0 by omega, Nat.add_zero, Nat.mod_eq_of_lt hstart]
      exact h

theorem threadStores_eq (hrk : 44 ≤ rk.length) (r : ℕ) {t : ℕ} (ht : t < 2 ^ 32) (hn : blocks.length < 2 ^ 59) :
    threadStores (kernelArgs rk counter0 blocks r) t = storesAt rk counter0 blocks
      ((List.range' (usizeMul t r) (min r (blocks.length - usizeMul t r))).flatMap blockWords) := by
  unfold threadStores
  rw [run_aes128Ctr hrk r ht hn]

/-! ## The grid -/

theorem storesAt_flatMap {α : Type} (f : α → List ℕ) (xs : List α) :
    xs.flatMap (fun x => storesAt rk counter0 blocks (f x)) = storesAt rk counter0 blocks (xs.flatMap f) :=
  List.map_flatMap.symm

/-- Of a thread with a 32-bit index and a 32-bit number of blocks, no block index wraps. -/
theorem thread_end_le {t r : ℕ} (ht : t < 2 ^ 32) (hr : r ≤ 2 ^ 32) : t * r + r ≤ 2 ^ 64 := by
  calc t * r + r = (t + 1) * r := (Nat.succ_mul t r).symm
    _ ≤ 2 ^ 32 * 2 ^ 32 := Nat.mul_le_mul ht hr
    _ = 2 ^ 64 := rfl

/-- Without a wrap, a thread stores the words of its chunk of blocks. -/
theorem threadStores_chunk (hrk : 44 ≤ rk.length) {r t : ℕ} (ht : t < 2 ^ 32) (hwrap : t * r < 2 ^ 64)
    (hn : blocks.length < 2 ^ 59) :
    threadStores (kernelArgs rk counter0 blocks r) t =
      storesAt rk counter0 blocks ((chunkRange blocks.length r t).flatMap blockWords) := by
  rw [threadStores_eq hrk r ht hn, usizeMul, Nat.mod_eq_of_lt hwrap]
  rfl

theorem map_fst_storesAt (as : List ℕ) : (storesAt rk counter0 blocks as).map Prod.fst = as := by
  unfold storesAt
  rw [List.map_map]
  exact List.map_id as

/-- Without a wrap, a word is stored by the thread of its block. -/
theorem mem_threadStores (hrk : 44 ≤ rk.length) {r t a : ℕ} (hr : 0 < r) (ht : t < 2 ^ 32) (hwrap : t * r < 2 ^ 64)
    (hn : blocks.length < 2 ^ 59) :
    a ∈ (threadStores (kernelArgs rk counter0 blocks r) t).map Prod.fst ↔ a / 4 < blocks.length ∧ a / 4 / r = t := by
  rw [threadStores_chunk hrk ht hwrap hn, map_fst_storesAt, List.mem_flatMap]
  constructor
  · rintro ⟨i, hi, ha⟩
    rw [mem_blockWords.mp ha]
    exact (mem_chunkRange hr).mp hi
  · intro h
    exact ⟨a / 4, (mem_chunkRange hr).mpr h, mem_blockWords.mpr rfl⟩

/-- Without a wrap, the grid stores the words of the blocks it reaches, thread by thread in order. -/
theorem gridStores_eq (hrk : 44 ≤ rk.length) {r threads : ℕ} (hthreads : threads ≤ 2 ^ 32)
    (hwrap : ∀ t < threads, t * r < 2 ^ 64) (hn : blocks.length < 2 ^ 59) :
    gridStores (kernelArgs rk counter0 blocks r) threads =
      storesAt rk counter0 blocks (List.range (min blocks.length (threads * r) * 4)) := by
  have hthread : ∀ t ∈ List.range threads, threadStores (kernelArgs rk counter0 blocks r) t =
      storesAt rk counter0 blocks ((chunkRange blocks.length r t).flatMap blockWords) := by
    intro t ht
    rw [List.mem_range] at ht
    exact threadStores_chunk hrk (by omega) (hwrap t ht) hn
  unfold gridStores
  rw [List.flatMap_def, List.map_congr_left hthread, ← List.flatMap_def, storesAt_flatMap,
    ← List.flatMap_assoc, flatMap_chunkRange, flatMap_blockWords]

/-- With or without a wrap, the grid stores the words of the blocks it reaches, and only the right values. -/
theorem mem_gridStores (hrk : 44 ≤ rk.length) {r threads : ℕ} (hr : 0 < r) (hthreads : threads ≤ 2 ^ 32)
    (hn : blocks.length < 2 ^ 59) {w : Store} :
    w ∈ gridStores (kernelArgs rk counter0 blocks r) threads ↔
      w.1 / 4 < blocks.length ∧ w.1 / 4 < threads * r ∧ w.2 = ctWord rk counter0 blocks w.1 := by
  have hthread : ∀ t < threads, (w ∈ threadStores (kernelArgs rk counter0 blocks r) t ↔
      (usizeMul t r ≤ w.1 / 4 ∧ w.1 / 4 < usizeMul t r + min r (blocks.length - usizeMul t r)) ∧
        w.2 = ctWord rk counter0 blocks w.1) := by
    intro t ht
    rw [threadStores_eq hrk r (by omega) hn, storesAt, List.mem_map]
    constructor
    · rintro ⟨a, ha, rfl⟩
      obtain ⟨i, hi, ha⟩ := List.mem_flatMap.mp ha
      rw [mem_blockWords.mp ha]
      exact ⟨List.mem_range'_1.mp hi, rfl⟩
    · rintro ⟨hi, hw⟩
      exact ⟨w.1, List.mem_flatMap.mpr ⟨_, List.mem_range'_1.mpr hi, mem_blockWords.mpr rfl⟩, by rw [← hw]⟩
  unfold gridStores
  rw [List.mem_flatMap]
  constructor
  · rintro ⟨t, ht, hw⟩
    rw [List.mem_range] at ht
    obtain ⟨hi, hw⟩ := (hthread t ht).mp hw
    have hlast : t * r + r ≤ threads * r := by
      rw [← Nat.succ_mul]
      exact Nat.mul_le_mul_right r ht
    have hmod : usizeMul t r ≤ t * r := Nat.mod_le _ _
    exact ⟨by omega, by omega, hw⟩
  · rintro ⟨hlt, hcover, hw⟩
    have ht : w.1 / 4 / r < threads := (Nat.div_lt_iff_lt_mul hr).mpr hcover
    have hdiv : w.1 / 4 / r * r ≤ w.1 / 4 := Nat.div_mul_le_self _ _
    have hmul : usizeMul (w.1 / 4 / r) r = w.1 / 4 / r * r := Nat.mod_eq_of_lt (by omega)
    have hrem : w.1 / 4 < w.1 / 4 / r * r + r := Nat.lt_div_mul_add hr
    exact ⟨_, List.mem_range.mpr ht, (hthread _ ht).mpr ⟨by rw [hmul]; omega, hw⟩⟩

theorem length_foldl_stores (order : List Store) (ct : List U32) :
    (order.foldl (fun ct w => ct.set w.1 w.2) ct).length = ct.length := by
  induction order generalizing ct with
  | nil => rfl
  | cons w order ih => rw [List.foldl_cons, ih, List.length_set]

/-- **Stores that reach every word leave the ciphertext**, whatever `ct` held before. -/
theorem ofFlattened_stores {order : List Store} (horder : ∀ w ∈ order, w.2 = ctWord rk counter0 blocks w.1)
    (hall : ∀ a < blocks.length * 4, a ∈ order.map Prod.fst) {ct : List U32} (hct : ct.length = blocks.length * 4) :
    ofFlattened (order.foldl (fun ct w => ct.set w.1 w.2) ct) = ctrText rk counter0 blocks := by
  have hlen : (order.foldl (fun ct w => ct.set w.1 w.2) ct).length = blocks.length * 4 := by
    rw [length_foldl_stores, hct]
  rw [eq_asFlattened_ctrText hlen fun a ha => ?_, ofFlattened_asFlattened]
  rw [Buffer.foldl_set _ _ _ horder, Buffer.getElem?_stored_mem _ _ (hall a ha) (hct ▸ ha)]

end CudaAes
