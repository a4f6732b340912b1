import CudaAes.Cpu.Accesses
import CudaAes.Cpu.Closures

/-!
# Every interleaving of the closures

A closure follows a script: the stores of its chunk, each of the right blocks (`closure_writes`). So
whatever turns the closures take, `out` holds the ciphertext in a first part of every chunk and its old
contents in the rest (`WideKernel.interleaving_safe`), and when no closure can go on, it holds what any
order of the closures, one after another, leaves (`WideKernel.interleaving_ends`).
-/

namespace CudaAes

open Rust Fips197

variable {rk : List U32} {counter0 : Block} {blocks out : List Block}

namespace WideKernel

/-! ## One closure -/

/-- `ctr` with `i` blocks done. -/
def countersAt (W : ℕ) (counter0 : Block) (i : ℕ) : (kernel : WideKernel) → kernel.Counters
  | pshufb => native (counterAt counter0 i)
  | vaes256 => laneCounters 2 W counter0 i
  | vaes512 => laneCounters 4 W counter0 i

theorem seed_eq (kernel : WideKernel) (W : ℕ) : kernel.seed W counter0 = kernel.countersAt W counter0 0 := by
  cases kernel with
  | pshufb => exact counterSeed_eq counter0
  | vaes256 => exact vaesCounters_eq off256_lane
  | vaes512 => exact vaesCounters_eq off512_lane

theorem advance_eq (kernel : WideKernel) (W i : ℕ) :
    kernel.advance W (scheduleKeys rk) (kernel.countersAt W counter0 i) =
      kernel.countersAt W counter0 (i + W * kernel.lanes) := by
  cases kernel with
  | pshufb =>
    unfold lanes
    rw [Nat.mul_one]
    exact congrArg Prod.snd (iterate_seedRegister (scheduleKeys rk 0) i W)
  | vaes256 => exact laneCounters_step (step256_lane W) i
  | vaes512 => exact laneCounters_step (step512_lane W) i

/-- The registers of a turn after the rounds: the keystream from block `i` on, in state order. -/
theorem registers_eq (kernel : WideKernel) (W i : ℕ) :
    kernel.registers W (scheduleKeys rk) (kernel.countersAt W counter0 i) =
      (List.range W).map fun j =>
        (fun k => stateOf (keystream rk counter0 (i + kernel.lanes * j + k)) : Wide kernel.lanes) := by
  cases kernel with
  | pshufb =>
    show pshufbRegisters W (scheduleKeys rk) (native (counterAt counter0 i)) = _
    unfold pshufbRegisters lanes
    rw [iterate_seedRegister]
    dsimp only
    rw [group_registers, List.map_map]
    refine List.map_congr_left fun j _ => funext fun k => ?_
    rw [Nat.one_mul, Subsingleton.elim k 0]
    rfl
  | vaes256 => exact vaesGroup_registers i
  | vaes512 => exact vaesGroup_registers i

end WideKernel

theorem run_storeu_ofList {f : ℕ → Block} {sub : List Block} {L i : ℕ} (h : i + L ≤ sub.length) (v : Wide L)
    (hv : ∀ k : Fin L, v k = native (f (i + k))) :
    (storeu i v).run (.ofList sub) = .ok () (.stored f sub (List.range' i L)) := by
  unfold storeu
  rw [← Buffer.stored_nil f, Buffer.run_storeRaw_stored _ _ (by rwa [List.length_ofFn]), List.length_ofFn,
    List.nil_append]
  intro k hk
  rw [List.getElem_ofFn, hv, ofNative_native]

theorem run_storeRegister {L i j : ℕ} (h : i + j * L + L ≤ blocks.length) {sub : List Block}
    (hsub : sub.length = blocks.length) :
    (storeRegister blocks i ((fun k => stateOf (keystream rk counter0 (i + L * j + k)) : Wide L), j)).run (.ofList sub) =
      .ok () (.stored (ctrBlock rk counter0 blocks) sub (List.range' (i + j * L) L)) := by
  unfold storeRegister
  dsimp only
  rw [loadu_eq h, run_bind_ok (run_liftM_ok _ _)]
  refine run_storeu_ofList (by omega) _ fun k => ?_
  rw [Wide.xor, Wide.shuffleEpi8, Wide.broadcast, mmShuffleEpi8_stateOf, mmXorSi128_native, Nat.mul_comm L j]
  rfl

/-! ## The script of a closure -/

namespace WideKernel

/-- The stores of a turn of the wide loop at block `i`: none at its head and at its end. -/
def turnScript (kernel : WideKernel) (W i : ℕ) : List (List ℕ) :=
  [] :: ((List.range W).map fun j => List.range' (i + j * kernel.lanes) kernel.lanes) ++ [[]]

/-- The stores of a closure on a chunk of `n` blocks, turn by turn. -/
def script (kernel : WideKernel) (W n : ℕ) : List (List ℕ) :=
  [] :: ((List.range (n / (W * kernel.lanes))).flatMap fun k => kernel.turnScript W (k * (W * kernel.lanes))) ++
    ([] :: kernel.tailStores W n ++ [[]])

theorem flatten_turnScript (kernel : WideKernel) (W i : ℕ) :
    (kernel.turnScript W i).flatten =
      ((List.range W).map fun j => List.range' (i + j * kernel.lanes) kernel.lanes).flatten := by
  simp [turnScript]

/-- The script stores every block of the chunk once, in order. -/
theorem flatten_script (kernel : WideKernel) (W n : ℕ) : (kernel.script W n).flatten = List.range n := by
  have hturns : ∀ f : ℕ → List (List ℕ), ((List.range (n / (W * kernel.lanes))).flatMap f).flatten =
      (List.range (n / (W * kernel.lanes))).flatMap fun k => (f k).flatten := by
    intro f
    rw [← List.flatMap_id, List.flatMap_assoc]
    simp only [List.flatMap_id]
  rw [← kernel.flatten_stores W n, script, wideStores]
  simp only [List.cons_append, List.flatten_cons, List.nil_append, List.flatten_append, hturns, flatten_turnScript,
    List.flatten_nil, List.append_nil]

theorem length_script (kernel : WideKernel) (W n : ℕ) :
    (kernel.script W n).length = 3 + n / (W * kernel.lanes) * (W + 2) + n % (W * kernel.lanes) := by
  simp only [script, turnScript, tailStores, List.length_cons, List.length_append, List.length_flatMap, List.length_map,
    List.length_range, List.length_range', List.length_nil, List.map_const', List.sum_replicate, smul_eq_mul]
  ring

end WideKernel

section writes
variable (kernel : WideKernel) (W : ℕ)

theorem writes_tail {i : ℕ} (hi : i ≤ blocks.length) :
    Writes (closureAction kernel W rk counter0 blocks) (ctrBlock rk counter0 blocks) blocks.length
      (.tail (scheduleKeys rk) i) ((List.range' i (blocks.length - i)).map (fun i => [i]) ++ [[]]) := by
  obtain ⟨m, hm⟩ : ∃ m, m = blocks.length - i := ⟨_, rfl⟩
  rw [← hm]
  induction m generalizing i with
  | zero =>
    refine .silent rfl (fun sub => ?_) (show closureAction kernel W rk counter0 blocks .done = none from rfl)
    rw [if_neg (by omega)]
    rfl
  | succ m ih =>
    have hlt : i < blocks.length := by omega
    rw [List.range'_succ, List.map_cons, List.cons_append]
    refine ⟨fun x hx => ?_, _, .tail (scheduleKeys rk) (i + 1), rfl, fun sub hsub => ?_, ih (by omega) (by omega)⟩
    · rwa [List.mem_singleton.mp hx]
    · rw [if_pos hlt, ← Buffer.stored_nil (ctrBlock rk counter0 blocks)]
      exact run_bind_ok (run_remainderBlock hlt (hlt.trans_eq hsub.symm) [] 0)

/-- The registers of a turn, stored one by one. -/
theorem writes_storing {i : ℕ} (js : List ℕ) (hjs : ∀ j ∈ js, i + j * kernel.lanes + kernel.lanes ≤ blocks.length)
    (ctr : kernel.Counters) {rest : List (List ℕ)}
    (hrest : Writes (closureAction kernel W rk counter0 blocks) (ctrBlock rk counter0 blocks) blocks.length
      (.storing (scheduleKeys rk) i [] ctr) rest) :
    Writes (closureAction kernel W rk counter0 blocks) (ctrBlock rk counter0 blocks) blocks.length
      (.storing (scheduleKeys rk) i
        (js.map fun j => (fun k => stateOf (keystream rk counter0 (i + kernel.lanes * j + k)), j)) ctr)
      (js.map (fun j => List.range' (i + j * kernel.lanes) kernel.lanes) ++ rest) := by
  induction js with
  | nil => exact hrest
  | cons j js ih =>
    have hj := hjs j List.mem_cons_self
    refine ⟨fun x hx => ?_, _, .storing (scheduleKeys rk) i _ ctr, rfl, fun sub hsub => ?_,
      ih fun j hj => hjs j (List.mem_cons_of_mem _ hj)⟩
    · rw [List.mem_range'_1] at hx
      omega
    · rw [run_bind_ok (run_storeRegister hj hsub)]
      rfl

variable (rk counter0 blocks) in
theorem writes_wide (m : ℕ) : ∀ i, i + m * (W * kernel.lanes) ≤ blocks.length →
    blocks.length < i + m * (W * kernel.lanes) + W * kernel.lanes →
    Writes (closureAction kernel W rk counter0 blocks) (ctrBlock rk counter0 blocks) blocks.length
      (.wide (scheduleKeys rk) i (kernel.countersAt W counter0 i))
      (((List.range m).flatMap fun k => kernel.turnScript W (i + k * (W * kernel.lanes))) ++
        ([] :: (List.range' (i + m * (W * kernel.lanes)) (blocks.length - (i + m * (W * kernel.lanes)))).map
          (fun i => [i]) ++ [[]])) := by
  induction m with
  | zero =>
    intro i hi hend
    rw [Nat.zero_mul, Nat.add_zero] at hi hend ⊢
    refine .silent rfl (fun sub => ?_) (writes_tail kernel W hi)
    rw [if_neg (by omega)]
    rfl
  | succ m ih =>
    intro i hi hend
    rw [Nat.succ_mul] at hi hend
    have hstep : ∀ k, i + (k + 1) * (W * kernel.lanes) = i + W * kernel.lanes + k * (W * kernel.lanes) := by
      intro k
      rw [Nat.succ_mul]
      omega
    have hnext := ih (i + W * kernel.lanes) (by omega) (by omega)
    rw [← hstep m] at hnext
    rw [List.range_succ_eq_map, List.flatMap_cons, List.flatMap_map, Nat.zero_mul, Nat.add_zero, List.append_assoc]
    simp only [Nat.succ_eq_add_one, hstep] at hnext ⊢
    show Writes _ _ _ _ ([] :: ((List.range W).map fun j => List.range' (i + j * kernel.lanes) kernel.lanes) ++ [[]] ++ _)
    rw [List.cons_append, List.cons_append, List.append_assoc]
    refine .silent rfl (fun sub => ?_) (writes_storing kernel W (List.range W) (fun j hj => ?_)
      (kernel.countersAt W counter0 (i + W * kernel.lanes)) (.silent rfl (fun sub => rfl) hnext))
    · rw [if_pos (by omega), kernel.registers_eq, kernel.advance_eq, zipIdx_map_range]
      rfl
    · have hle : j * kernel.lanes + kernel.lanes ≤ W * kernel.lanes := by
        rw [← Nat.succ_mul]
        exact Nat.mul_le_mul_right _ (List.mem_range.mp hj)
      omega

variable (rk counter0 blocks) in
/-- **A closure stores the ciphertext of its chunk.** -/
theorem closure_writes (hrk : 44 ≤ rk.length) (hW : 1 ≤ W) :
    Writes (closureAction kernel W rk counter0 blocks) (ctrBlock rk counter0 blocks) blocks.length .start
      (kernel.script W blocks.length) := by
  have hG : 0 < W * kernel.lanes := Nat.mul_pos hW kernel.lanes_pos
  have hdiv := Nat.div_mul_le_self blocks.length (W * kernel.lanes)
  have hmod := Nat.lt_div_mul_add hG (a := blocks.length)
  have hwide := writes_wide rk counter0 blocks kernel W (blocks.length / (W * kernel.lanes)) 0 (by omega) (by omega)
  simp only [Nat.zero_add] at hwide
  rw [Nat.div_mul_self_eq_mod_sub_self, Nat.sub_sub_self (Nat.mod_le _ _)] at hwide
  refine .silent rfl (fun sub => ?_) hwide
  rw [roundKeys_eq hrk, run_bind_ok (run_liftM_ok _ _), kernel.seed_eq]
  rfl

end writes

/-! ## The closures of a call -/

theorem closureAction_eq_none {kernel : WideKernel} {W : ℕ} {t : ClosureState kernel}
    (h : closureAction kernel W rk counter0 blocks t = none) : t = .done := by
  match t, h with
  | .start, h => cases h
  | .wide _ _ _, h => cases h
  | .storing _ _ [] _, h => cases h
  | .storing _ _ (_ :: _) _, h => cases h
  | .tail _ _, h => cases h
  | .done, _ => rfl

section pool
variable (kernel : WideKernel) {W chunk : ℕ}

/-- What closure `c` stores, turn by turn. -/
def chunkScript (kernel : WideKernel) (W chunk n c : ℕ) : List (List ℕ) :=
  (kernel.script W (min chunk (n - c * chunk))).map (List.map (c * chunk + ·))

theorem chunk_follows (hrk : 44 ≤ rk.length) (hW : 1 ≤ W) (hlen : blocks.length = out.length) {c : ℕ}
    (hc : c * chunk ≤ blocks.length) :
    Follows (chunkAction kernel W rk chunk counter0 blocks out.length c) (Buffer.stored (ctrBlock rk counter0 blocks) out)
      .start (chunkScript kernel W chunk blocks.length c) := by
  have hsize : ((blocks.drop (c * chunk)).take chunk).length = min chunk (blocks.length - c * chunk) := by
    rw [List.length_take, List.length_drop]
  have hwrites := closure_writes rk (counterBlock counter0 (BitVec.ofNat 32 (c * chunk)))
    ((blocks.drop (c * chunk)).take chunk) kernel W hrk hW
  rw [hsize] at hwrites
  have hglobal : Writes _ (fun j => ctrBlock rk counter0 blocks (c * chunk + j)) _ _ _ :=
    hwrites.congr fun j hj => ctrBlock_chunk (by omega)
  unfold chunkAction
  rw [← hlen]
  exact hglobal.follows (by omega)

variable (counter0) in
theorem chunk_start (hrk : 44 ≤ rk.length) (hW : 1 ≤ W) (hlen : blocks.length = out.length) (hchunk : 0 < chunk) :
    ∀ c < blocks.length ⌈/⌉ chunk, ∃ t, (chunkPool kernel out).task c = .ok t ∧
      Follows (chunkAction kernel W rk chunk counter0 blocks out.length c)
        (Buffer.stored (ctrBlock rk counter0 blocks) out) t (chunkScript kernel W chunk blocks.length c) :=
  fun _ hc => ⟨.start, rfl, chunk_follows kernel hrk hW hlen (lt_of_lt_ceilDiv hchunk hc).le⟩

variable (rk counter0 blocks out) in
theorem chunk_shared : (chunkPool kernel out).shared = Buffer.stored (ctrBlock rk counter0 blocks) out [] :=
  (Buffer.stored_nil _ _).symm

/-- A part of a script stores the first blocks of the chunk. -/
theorem take_chunkScript (W chunk n c k : ℕ) : ∃ m ≤ min chunk (n - c * chunk),
    ((chunkScript kernel W chunk n c).take k).flatten = List.range' (c * chunk) m := by
  obtain ⟨size, hsize⟩ : ∃ size, size = min chunk (n - c * chunk) := ⟨_, rfl⟩
  have hsplit := kernel.flatten_script W size
  rw [← List.take_append_drop k (kernel.script W size), List.flatten_append] at hsplit
  have hprefix := congrArg (List.take ((kernel.script W size).take k).flatten.length) hsplit
  rw [List.take_left, List.take_range] at hprefix
  obtain ⟨m, hm, hprefix⟩ : ∃ m ≤ size, ((kernel.script W size).take k).flatten = List.range m :=
    ⟨_, Nat.min_le_right _ _, hprefix⟩
  refine ⟨m, hm.trans hsize.le, ?_⟩
  unfold chunkScript
  rw [← hsize, ← List.map_take, ← List.map_flatten, hprefix, List.range'_eq_map_range]

theorem flatten_chunkScript (W chunk n c : ℕ) : (chunkScript kernel W chunk n c).flatten = chunkRange n chunk c := by
  unfold chunkScript
  rw [← List.map_flatten, kernel.flatten_script, chunkRange, List.range'_eq_map_range]

/-- The blocks that a first part of every chunk makes up. -/
theorem mem_chunkPrefixes {m : ℕ → ℕ} {n i : ℕ} (hchunk : 0 < chunk) (hm : ∀ c, m c ≤ min chunk (n - c * chunk)) :
    i ∈ (List.range (n ⌈/⌉ chunk)).flatMap (fun c => List.range' (c * chunk) (m c)) ↔ i % chunk < m (i / chunk) := by
  have hdiv := Nat.div_add_mod' i chunk
  rw [List.mem_flatMap]
  constructor
  · rintro ⟨c, -, hi⟩
    have hle := hm c
    rw [List.mem_range'_1] at hi
    obtain rfl : i / chunk = c := (Nat.div_eq_iff hchunk).mpr (by omega)
    omega
  · intro hi
    have hle := hm (i / chunk)
    refine ⟨i / chunk, ?_, List.mem_range'_1.mpr (by omega)⟩
    rw [List.mem_range, Nat.div_lt_iff_lt_mul hchunk, Nat.mul_comm]
    exact lt_of_lt_of_le (show i < n by omega) (le_smul_ceilDiv hchunk)

theorem nodup_chunkPrefixes {m : ℕ → ℕ} {n : ℕ} (hm : ∀ c, m c ≤ min chunk (n - c * chunk)) (k : ℕ) :
    ((List.range k).flatMap fun c => List.range' (c * chunk) (m c)).Nodup := by
  rw [List.nodup_flatMap]
  refine ⟨fun c _ => List.nodup_range', List.pairwise_lt_range.imp fun {c d} hcd i hi hj => ?_⟩
  have hle := hm c
  have hmul : (c + 1) * chunk ≤ d * chunk := Nat.mul_le_mul_right chunk hcd
  rw [Nat.succ_mul] at hmul
  rw [List.mem_range'_1] at hi hj
  omega

end pool

/-! ## Every order of turns -/

theorem WideKernel.run_interleaving (kernel : WideKernel) {W chunk : ℕ} (hrk : 44 ≤ rk.length) (hW : 1 ≤ W)
    (hlen : blocks.length = out.length) (hchunk : 0 < chunk) {cs : List ℕ} {p : Pool (ClosureState kernel) (Buffer Block)}
    (h : Turns (chunkAction kernel W rk chunk counter0 blocks out.length) (blocks.length ⌈/⌉ chunk)
      (chunkPool kernel out) cs p) :
    ∃ stores, p.shared = .stored (ctrBlock rk counter0 blocks) out stores ∧ ∃ m : ℕ → ℕ,
      (∀ c, m c ≤ min chunk (blocks.length - c * chunk)) ∧
      stores.Perm ((List.range (blocks.length ⌈/⌉ chunk)).flatMap fun c => List.range' (c * chunk) (m c)) := by
  obtain ⟨-, hprogress⟩ := h.progress (chunk_start counter0 kernel hrk hW hlen hchunk)
    (chunk_shared rk counter0 blocks out kernel)
  obtain ⟨stores, hshared, hperm⟩ := hprogress.marks
  choose m hm hstored using fun c => take_chunkScript kernel W chunk blocks.length c (cs.count c)
  simp only [hstored] at hperm
  exact ⟨stores, hshared, m, hm, hperm⟩

/-- With a short schedule a closure panics in its first turn. -/
theorem WideKernel.interleaving_short (kernel : WideKernel) (hrk : rk.length < 44) {W chunk n : ℕ} {cs : List ℕ}
    {p : Pool (ClosureState kernel) (Buffer Block)}
    (h : Turns (chunkAction kernel W rk chunk counter0 blocks out.length) n (chunkPool kernel out) cs p) :
    p.shared = .ofList out ∧ ∀ c, p.task c = .ok .start ∨ ∃ e, e.IsPanic ∧ p.task c = .error e := by
  obtain ⟨e, hpanic, hkeys⟩ := roundKeys_short hrk
  refine Turns.inv (fun p => p.shared = .ofList out ∧ ∀ c, p.task c = .ok .start ∨ ∃ e, e.IsPanic ∧ p.task c = .error e)
    ⟨rfl, fun c => Or.inl rfl⟩ (fun p c p' hinv hturn => ?_) h
  obtain ⟨hshared, htask⟩ := hinv
  have hfault : ∀ {t x}, p.task c = .ok t → chunkAction kernel W rk chunk counter0 blocks out.length c t = some x →
      x.run p.shared = .error e (.ofList out) := by
    intro t x ht hx
    rcases htask c with hstart | ⟨_, -, herror⟩
    · obtain rfl : t = .start := Except.ok.inj (ht.symm.trans hstart)
      obtain rfl := Option.some.inj hx
      rw [hshared]
      refine Buffer.run_withSlice_error (fun sub => ?_) _
      rw [hkeys]
      exact run_bind_error (run_liftM_error e sub)
    · cases ht.symm.trans herror
  cases hturn with
  | step _ ht hx hstep => cases (hfault ht hx).symm.trans hstep
  | panic _ ht hx hstep =>
    obtain ⟨rfl, rfl⟩ := EStateM.Result.error.inj ((hfault ht hx).symm.trans hstep)
    refine ⟨rfl, fun d => ?_⟩
    dsimp only
    by_cases hdc : d = c
    · subst hdc
      rw [Function.update_self]
      exact Or.inr ⟨_, hpanic, rfl⟩
    · rw [Function.update_of_ne hdc]
      exact htask d

/-- **Safety of every interleaving**, of the closures of a call on chunks of any size and kernels that store
register by register, at any point of any order of their turns. No closure has panicked or left its
slices, no block has been stored twice, and each chunk holds the ciphertext of the scalar backend in its
first blocks, those that are stored, and its old contents in the rest. With a short schedule nothing is
ever stored, and a closure that has begun has panicked. -/
theorem WideKernel.interleaving_safe (kernel : WideKernel) (W : ℕ) (hW : 1 ≤ W) (rk : List U32) (counter0 : Block)
    (blocks out : List Block) (hlen : blocks.length = out.length) (chunk : ℕ) (hchunk : 0 < chunk) (cs : List ℕ)
    (p : Pool (ClosureState kernel) (Buffer Block))
    (h : Turns (chunkAction kernel W rk chunk counter0 blocks out.length) (blocks.length ⌈/⌉ chunk)
      (chunkPool kernel out) cs p) :
    (44 ≤ rk.length →
      (∀ c < blocks.length ⌈/⌉ chunk, ∃ t, p.task c = .ok t) ∧ p.shared.stores.Nodup ∧
      p.shared.data.length = out.length ∧
      ∃ ref, (Scalar.encryptCtr rk counter0 blocks).run (.ofList out) = .ok () ref ∧
        ∃ m : ℕ → ℕ, ∀ i < blocks.length, (i ∈ p.shared.stores ↔ i % chunk < m (i / chunk)) ∧
          p.shared.data[i]? = if i % chunk < m (i / chunk) then ref.data[i]? else out[i]?) ∧
    (rk.length < 44 → p.shared = .ofList out ∧
      ∀ c, p.task c = .ok .start ∨ ∃ e, e.IsPanic ∧ p.task c = .error e) := by
  refine ⟨fun hrk => ?_, fun hrk => kernel.interleaving_short hrk h⟩
  obtain ⟨-, hprogress⟩ := h.progress (chunk_start counter0 kernel hrk hW hlen hchunk)
    (chunk_shared rk counter0 blocks out kernel)
  obtain ⟨stores, hshared, m, hm, hperm⟩ := kernel.run_interleaving hrk hW hlen hchunk h
  have hstored : ∀ i, i ∈ stores ↔ i % chunk < m (i / chunk) := by
    intro i
    rw [hperm.mem_iff, mem_chunkPrefixes hchunk hm]
  refine ⟨fun c hc => ?_, ?_, ?_, _, Scalar.run_encryptCtr hrk counter0 blocks out, m, fun i hi => ?_⟩
  · obtain ⟨t, ht, -⟩ := hprogress.task c hc
    exact ⟨t, ht⟩
  · rw [hshared, Buffer.stores_stored, hperm.nodup_iff]
    exact nodup_chunkPrefixes hm _
  · rw [hshared, Buffer.length_stored]
  · rw [hshared, Buffer.stores_stored, Buffer.getElem?_stored, hlen, Nat.min_self,
      Buffer.getElem?_stored_mem _ _ (List.mem_range.mpr (hlen ▸ hi)) (hlen ▸ hi),
      List.getElem?_eq_getElem (hlen ▸ hi), Option.map_some, if_congr (hstored i) rfl rfl]
    refine ⟨hstored i, ?_⟩
    split <;> rfl

/-- Seven blocks in two chunks, both in the middle of a turn of the wide loop or between two. -/
theorem WideKernel.interleaving_safe_two : ∃ p : Pool (ClosureState .pshufb) (Buffer Block),
    Turns (chunkAction .pshufb 2 (List.replicate 44 0) 4 default (List.replicate 7 default) 7) 2
      (chunkPool .pshufb (List.replicate 7 default)) [0, 1, 0, 0, 1, 1, 0, 0, 0, 1, 0] p ∧
    p.shared.stores.Perm [0, 1, 2, 4, 5] ∧
    ∃ ref, (Scalar.encryptCtr (List.replicate 44 0) default (List.replicate 7 default)).run
        (.ofList (List.replicate 7 default)) = .ok () ref ∧
      (∀ i ∈ [0, 1, 2, 4, 5], p.shared.data[i]? = ref.data[i]?) ∧ ∀ i ∈ [3, 6], p.shared.data[i]? = some default := by
  have hrk : 44 ≤ (List.replicate 44 (0 : U32)).length := List.length_replicate.ge
  have hstart := chunk_start default .pshufb hrk (show 1 ≤ 2 by omega)
    (show (List.replicate 7 (default : Block)).length = (List.replicate 7 (default : Block)).length from rfl)
    (show 0 < 4 by omega)
  have hshared := chunk_shared (List.replicate 44 0) default (List.replicate 7 default) (List.replicate 7 default) .pshufb
  obtain ⟨p, hrun⟩ : ∃ p, Turns (chunkAction .pshufb 2 (List.replicate 44 0) 4 default (List.replicate 7 default) 7) 2
      (chunkPool .pshufb (List.replicate 7 default)) [0, 1, 0, 0, 1, 1, 0, 0, 0, 1, 0] p :=
    Turns.exists_run hstart hshared (by decide) (by decide)
  obtain ⟨-, -, -, marks, hmarks, hperm⟩ := hrun.progress hstart hshared
  have hstores : p.shared.stores.Perm [0, 1, 2, 4, 5] := by
    rw [hmarks, Buffer.stores_stored]
    exact hperm
  obtain ⟨hsafe, -⟩ := WideKernel.interleaving_safe .pshufb 2 (by omega) (List.replicate 44 0) default
    (List.replicate 7 default) (List.replicate 7 default) rfl 4 (by omega) _ p hrun
  obtain ⟨-, -, -, ref, hscalar, m, hdata⟩ := hsafe hrk
  have hstored : ∀ i < 7, p.shared.data[i]? =
      if i ∈ [0, 1, 2, 4, 5] then ref.data[i]? else (List.replicate 7 (default : Block))[i]? := by
    intro i hi
    obtain ⟨hiff, hvalue⟩ := hdata i hi
    rw [hvalue, ← if_congr hiff rfl rfl, if_congr hstores.mem_iff rfl rfl]
  refine ⟨p, hrun, hstores, ref, hscalar, fun i hi => ?_, fun i hi => ?_⟩
  · rw [hstored i (by simp at hi; omega), if_pos hi]
  · rw [hstored i (by simp at hi; omega), if_neg (by simp at hi ⊢; omega)]
    exact List.getElem?_replicate_of_lt (by simp at hi; omega)

/-- **Every interleaving ends, as the calls one after another do.** No order of the turns goes on for ever:
it takes as many as the closures have to take, and it can go on until then. At that point all closures have
ended, every block has been stored once, and `out` holds what the scalar backend leaves and what the
multi-core wrapper leaves in any order of its closures. -/
theorem WideKernel.interleaving_ends (kernel : WideKernel) (W : ℕ) (hW : 1 ≤ W) (rk : List U32) (hrk : 44 ≤ rk.length)
    (counter0 : Block) (blocks out : List Block) (hlen : blocks.length = out.length) (chunk : ℕ) (hchunk : 0 < chunk)
    (cs : List ℕ) (p : Pool (ClosureState kernel) (Buffer Block))
    (h : Turns (chunkAction kernel W rk chunk counter0 blocks out.length) (blocks.length ⌈/⌉ chunk)
      (chunkPool kernel out) cs p) :
    (cs.length ≤ ∑ c ∈ Finset.range (blocks.length ⌈/⌉ chunk), (3 +
        min chunk (blocks.length - c * chunk) / (W * kernel.lanes) * (W + 2) +
        min chunk (blocks.length - c * chunk) % (W * kernel.lanes))) ∧
    (∃ cs' p', Turns (chunkAction kernel W rk chunk counter0 blocks out.length) (blocks.length ⌈/⌉ chunk)
        (chunkPool kernel out) (cs ++ cs') p' ∧
      ∀ c p'', ¬ Turn (chunkAction kernel W rk chunk counter0 blocks out.length) (blocks.length ⌈/⌉ chunk) p' c p'') ∧
    ((∀ c p', ¬ Turn (chunkAction kernel W rk chunk counter0 blocks out.length) (blocks.length ⌈/⌉ chunk) p c p') →
      (∀ c < blocks.length ⌈/⌉ chunk, p.task c = .ok .done) ∧ p.shared.stores.Perm (List.range blocks.length) ∧
      ∃ ref, (Scalar.encryptCtr rk counter0 blocks).run (.ofList out) = .ok () ref ∧ p.shared.data = ref.data ∧
        ∀ cpu threads order fuel, kernel.supported cpu = true →
          IsSchedule blocks.length (kernel.chunk W threads blocks.length) order → blocks.length < fuel →
          ∃ out', (kernel.encryptCtrParallel cpu fuel W threads order rk counter0 blocks).run (.ofList out) =
            .ok () out' ∧ p.shared.data = out'.data) := by
  have hstart := chunk_start counter0 kernel hrk hW hlen hchunk
  have hshared := chunk_shared rk counter0 blocks out kernel
  refine ⟨?_, h.completes hstart hshared, fun hend => ?_⟩
  · have hle := h.length_le hstart hshared
    simp only [chunkScript, List.length_map, kernel.length_script] at hle
    exact hle
  · obtain ⟨htask, stores, hstores, hperm⟩ := h.ended hstart hshared hend
    simp only [flatten_chunkScript] at hperm
    have hall : stores.Perm (List.range blocks.length) := by
      refine hperm.trans (perm_flatMap_chunkRange (.refl _) ?_)
      rw [Nat.mul_comm]
      exact le_smul_ceilDiv hchunk
    have hdata : p.shared.data = ctrText rk counter0 blocks := by
      rw [hstores, stored_ctrBlock_data hlen fun i hi => hall.mem_iff.mpr (List.mem_range.mpr hi)]
    obtain ⟨ref, hscalar, href⟩ := Scalar.run_encryptCtr_data hrk counter0 hlen
    refine ⟨fun c hc => ?_, by rwa [hstores], ref, hscalar, hdata.trans href.symm, fun cpu threads order fuel hcpu horder
      hfuel => ?_⟩
    · obtain ⟨t, ht, hnone⟩ := htask c hc
      rw [ht, closureAction_eq_none (Option.map_eq_none_iff.mp hnone)]
    · obtain ⟨stores', hperm', hrun⟩ := kernel.run_encryptCtrParallel hcpu hrk hW threads hlen horder hfuel
      refine ⟨_, hrun, hdata.trans (stored_ctrBlock_data hlen fun i hi => ?_).symm⟩
      exact hperm'.mem_iff.mpr (List.mem_range.mpr hi)

/-- Two blocks in two chunks, to the end of some order of the turns. -/
theorem WideKernel.interleaving_ends_two : ∃ cs, ∃ p : Pool (ClosureState .vaes256) (Buffer Block),
    Turns (chunkAction .vaes256 1 (List.replicate 44 0) 1 default [default, default] 2) 2
      (chunkPool .vaes256 [default, default]) cs p ∧ cs.length ≤ 8 ∧ p.shared.stores.Perm [0, 1] := by
  obtain ⟨-, ⟨cs, p, hrun, hend⟩, -⟩ := WideKernel.interleaving_ends .vaes256 1 le_rfl (List.replicate 44 0) (by decide)
    default [default, default] [default, default] rfl 1 Nat.one_pos [] _ .start
  obtain ⟨hle, -, hdone⟩ := WideKernel.interleaving_ends .vaes256 1 le_rfl (List.replicate 44 0) (by decide)
    default [default, default] [default, default] rfl 1 Nat.one_pos ([] ++ cs) p hrun
  exact ⟨cs, p, hrun, hle, (hdone hend).2.1⟩

end CudaAes
