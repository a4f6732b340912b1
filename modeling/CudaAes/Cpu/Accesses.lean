import CudaAes.Cpu.Panics

/-!
# Raw accesses and scalar tails

The loads and stores of a wide loop have no bounds check. They stay inside the slices, and the stores of
the loop and of the tail partition the message (`WideKernel.accesses`), in a serial call and in each
chunk of a parallel one. Cutting a message into chunks adds no block to the tails: a parallel call calls
`encrypt_one` as often as a serial one (`chunks_keep_wide`).
-/

namespace CudaAes

open Rust Fips197

variable {rk : List U32} {counter0 : Block} {blocks out : List Block}

/-! ## Stores -/

section stores
variable (kernel : WideKernel) (W n : ℕ)

/-- The blocks that each store of the wide loop writes, in program order. -/
def WideKernel.wideStores : List (List ℕ) :=
  (List.range (n / (W * kernel.lanes))).flatMap fun k => (List.range W).map fun j =>
    List.range' (k * (W * kernel.lanes) + j * kernel.lanes) kernel.lanes

/-- The blocks that each store of the scalar tail writes. -/
def WideKernel.tailStores : List (List ℕ) :=
  (List.range' (n - n % (W * kernel.lanes)) (n % (W * kernel.lanes))).map fun i => [i]

theorem WideKernel.flatten_wideStores :
    (kernel.wideStores W n).flatten = List.range (n - n % (W * kernel.lanes)) := by
  have hturn : ∀ k, ((List.range W).map fun j =>
      List.range' (k * (W * kernel.lanes) + j * kernel.lanes) kernel.lanes).flatMap id =
        List.range' (0 + k * (W * kernel.lanes)) (W * kernel.lanes) := by
    intro k
    rw [List.flatMap_id, ← List.flatMap_def, flatMap_range', Nat.zero_add]
  unfold wideStores
  rw [← List.flatMap_id, List.flatMap_assoc]
  simp only [hturn]
  rw [flatMap_range', Nat.div_mul_self_eq_mod_sub_self, List.range_eq_range']

theorem WideKernel.flatten_stores :
    (kernel.wideStores W n ++ kernel.tailStores W n).flatten = List.range n := by
  have htail : (kernel.tailStores W n).flatten =
      List.range' (n - n % (W * kernel.lanes)) (n % (W * kernel.lanes)) := by
    unfold tailStores
    rw [← List.flatMap_def, List.flatMap_singleton']
  rw [List.flatten_append, flatten_wideStores, htail, range_append_range', Nat.sub_add_cancel (Nat.mod_le _ _)]

/-- No two stores write a block in common. -/
theorem WideKernel.stores_disjoint : (kernel.wideStores W n ++ kernel.tailStores W n).Pairwise List.Disjoint := by
  have hnodup : (kernel.wideStores W n ++ kernel.tailStores W n).flatten.Nodup := by
    rw [flatten_stores]
    exact List.nodup_range
  exact (List.nodup_flatten.mp hnodup).2

end stores

/-! ## Accesses -/

/-- The raw accesses of the turn that starts at block `i` lie inside the slices: register `j` is loaded
from and stored to the `LANES` blocks from `i + j * LANES` on. -/
def WideKernel.TurnInBounds (kernel : WideKernel) (W : ℕ) (blocks out : List Block) (i : ℕ) : Prop :=
  ∀ j < W, i + j * kernel.lanes + kernel.lanes ≤ blocks.length ∧
    (∃ pt, loadu kernel.lanes blocks (i + j * kernel.lanes) = .ok pt) ∧
    ∀ (v : Wide kernel.lanes) (t : Buffer Block), t.data.length = out.length →
      ∃ t', (storeu (i + j * kernel.lanes) v).run t = .ok () t' ∧
        t'.stores = t.stores ++ List.range' (i + j * kernel.lanes) kernel.lanes

theorem run_storeu_ok {L i : ℕ} (v : Wide L) {s : Buffer Block} (h : i + L ≤ s.data.length) :
    ∃ s', (storeu i v).run s = .ok () s' ∧ s'.stores = s.stores ++ List.range' i L := by
  refine ⟨_, if_pos (by rwa [List.length_ofFn]), ?_⟩
  rw [List.length_ofFn]

theorem WideKernel.turnInBounds (kernel : WideKernel) {W i : ℕ} (hlen : blocks.length = out.length)
    (hgo : i + W * kernel.lanes ≤ blocks.length) : kernel.TurnInBounds W blocks out i := by
  intro j hj
  have hle : j * kernel.lanes + kernel.lanes ≤ W * kernel.lanes := by
    rw [← Nat.succ_mul]
    exact Nat.mul_le_mul_right _ hj
  exact ⟨by omega, ⟨_, loadu_eq (by omega)⟩, fun v t ht => run_storeu_ok v (by omega)⟩

theorem PanicsIff.no_undefinedBehaviour {call : Run (Buffer Block) Unit} {cond : Prop} (h : PanicsIff call out cond)
    (s : Buffer Block) : call.run (.ofList out) ≠ .error .undefinedBehaviour s := by
  intro hub
  by_cases hcond : cond
  · obtain ⟨e, hpanic, hrun⟩ := h.1 hcond
    obtain rfl : e = .undefinedBehaviour := (EStateM.Result.error.inj (hrun.symm.trans hub)).1
    exact hpanic
  · obtain ⟨out', hrun⟩ := h.2 hcond
    cases hrun.symm.trans hub

theorem WideKernel.impl_panicsIff (kernel : WideKernel) {W : ℕ} (hW : 1 ≤ W) (hlen : blocks.length ≤ out.length)
    {fuel : ℕ} (hfuel : blocks.length < fuel) :
    PanicsIff (kernel.impl fuel W rk counter0 blocks) out (rk.length < 44) := by
  refine ⟨fun hshort => ?_, fun hrk => ⟨_, kernel.run_impl (not_lt.mp hrk) hW hlen hfuel⟩⟩
  obtain ⟨e, hpanic, hfault⟩ := kernel.impl_short hshort fuel W
  exact ⟨e, hpanic, hfault counter0 blocks _⟩

theorem length_of_roundKeys_ok {keys : Fin 11 → M128} (h : roundKeys rk = .ok keys) : 44 ≤ rk.length := by
  by_contra hshort
  obtain ⟨e, -, hfault⟩ := roundKeys_short (not_le.mp hshort)
  cases hfault.symm.trans h

/-- **The raw accesses stay in bounds and the stores partition the message.** No call of a kernel, serial or
in a chunk of a parallel one, makes an access outside its slices. At every head of the wide loop the blocks
before it are stored, and if it goes on, the `W` loads and the `W` stores of the turn lie inside the slices;
the loop hands over at `n - n % (W * LANES)`; and the stores of the loop and of the tail are disjoint and
write exactly the blocks below `n`. A parallel wrapper hands its kernel slices of equal length. -/
theorem WideKernel.accesses (kernel : WideKernel) (W : ℕ) (hW : 1 ≤ W) (rk : List U32) (counter0 : Block)
    (blocks out : List Block) (hlen : blocks.length = out.length) (fuel : ℕ) (hfuel : blocks.length < fuel) :
    (∀ s, (kernel.impl fuel W rk counter0 blocks).run (.ofList out) ≠ .error .undefinedBehaviour s) ∧
    (∀ keys, roundKeys rk = .ok keys →
      (∀ i s, kernel.Head W keys counter0 blocks out i s → W * kernel.lanes ∣ i ∧ s.stores = List.range i ∧
        (i + W * kernel.lanes ≤ blocks.length → kernel.TurnInBounds W blocks out i)) ∧
      ∃ s out', (kernel.wideLoop fuel W keys counter0 blocks).run (.ofList out) =
          .ok (blocks.length - blocks.length % (W * kernel.lanes)) s ∧
        (remainder keys counter0 blocks fuel (blocks.length - blocks.length % (W * kernel.lanes))).run s =
          .ok blocks.length out' ∧
        (kernel.impl fuel W rk counter0 blocks).run (.ofList out) = .ok () out' ∧
        s.stores = (kernel.wideStores W blocks.length).flatten ∧
        out'.stores = (kernel.wideStores W blocks.length ++ kernel.tailStores W blocks.length).flatten ∧
        (kernel.wideStores W blocks.length ++ kernel.tailStores W blocks.length).Pairwise List.Disjoint ∧
        out'.stores = List.range blocks.length) ∧
    ∀ cpu threads order, kernel.supported cpu = true →
      IsSchedule blocks.length (kernel.chunk W threads blocks.length) order →
      (∀ s, (kernel.encryptCtrParallel cpu fuel W threads order rk counter0 blocks).run (.ofList out) ≠
        .error .undefinedBehaviour s) ∧
      (44 ≤ rk.length → ∃ out', (kernel.encryptCtrParallel cpu fuel W threads order rk counter0 blocks).run
        (.ofList out) = .ok () out' ∧ out'.stores.Perm (List.range blocks.length)) ∧
      (blocks.length ≠ 0 → ∃ size, kernel.chunk W threads blocks.length = .ok size ∧ ∀ c ∈ order,
        c * size + ((blocks.drop (c * size)).take size).length ≤ blocks.length ∧
        ((blocks.drop (c * size)).take size).length = ((out.drop (c * size)).take size).length) := by
  refine ⟨(kernel.impl_panicsIff hW hlen.le hfuel).no_undefinedBehaviour, fun keys hkeys => ?_,
    fun cpu threads order hcpu horder => ⟨(kernel.encryptCtrParallel_panicsIff hcpu hW threads horder
      hfuel).no_undefinedBehaviour, fun hrk => ?_, fun hn => ?_⟩⟩
  · have hrk := length_of_roundKeys_ok hkeys
    obtain rfl : keys = scheduleKeys rk := Except.ok.inj (hkeys.symm.trans (roundKeys_eq hrk))
    refine ⟨fun i s hhead => ?_, _, .stored (ctrBlock rk counter0 blocks) out (List.range blocks.length),
      kernel.run_wideLoop hW hlen.le hfuel,
      run_tail hlen.le (Nat.mod_le _ _) ((Nat.mod_le _ _).trans_lt hfuel) 0, kernel.run_impl hrk hW hlen.le hfuel, ?_, ?_,
      kernel.stores_disjoint W _, rfl⟩
    · obtain ⟨-, hdvd, rfl⟩ := kernel.head_stores hW hlen.le hhead
      exact ⟨hdvd, rfl, kernel.turnInBounds hlen⟩
    · rw [kernel.flatten_wideStores, Buffer.stores_stored]
    · rw [kernel.flatten_stores, Buffer.stores_stored]
  · obtain ⟨stores, hperm, hrun⟩ := kernel.run_encryptCtrParallel hcpu hrk hW threads hlen horder hfuel
    exact ⟨_, hrun, hperm⟩
  · obtain ⟨size, hok, hpos, -⟩ := kernel.chunk_ok threads hW hn
    refine ⟨size, hok, fun c hc => ?_⟩
    have hstart := lt_of_lt_ceilDiv hpos (List.mem_range.mp ((horder size hok).mem_iff.mp hc))
    simp only [List.length_take, List.length_drop, hlen, and_true]
    omega

theorem WideKernel.accesses_three : ∃ keys s out', roundKeys (List.replicate 44 0) = .ok keys ∧
    (WideKernel.vaes256.wideLoop 4 1 keys default [default, default, default]).run (.ofList [default, default, default]) =
      .ok 2 s ∧
    (WideKernel.vaes256.impl 4 1 (List.replicate 44 0) default [default, default, default]).run
      (.ofList [default, default, default]) = .ok () out' ∧ out'.stores = List.range 3 := by
  obtain ⟨-, hserial, -⟩ := WideKernel.accesses .vaes256 1 (by decide) (List.replicate 44 0) default
    [default, default, default] [default, default, default] rfl 4 (by decide)
  have hkeys : roundKeys (List.replicate 44 0) = .ok (scheduleKeys (List.replicate 44 0)) := roundKeys_eq (by decide)
  obtain ⟨-, s, out', hwide, -, hrun, -, -, -, hstores⟩ := hserial _ hkeys
  exact ⟨_, s, out', hkeys, hwide, hrun, hstores⟩

/-! ## Chunks and tails -/

/-- **Chunking keeps the wide path full**: a message is cut into one to `threads` chunks, all but the last a
positive multiple of the group size long. Every multi-core wrapper works on chunks of this size, and over its
whole run it calls `encrypt_one` as often as one serial call does, `n % g` times, whatever the number of
threads and the order of the closures. -/
theorem chunks_keep_wide (n threads g : ℕ) (hn : 1 ≤ n) (hthreads : 1 ≤ threads) (hg : 1 ≤ g) :
    ∃ size, parChunk threads n g = .ok size ∧ 1 ≤ n ⌈/⌉ size ∧ n ⌈/⌉ size ≤ threads ∧
      (∀ c, c + 1 < n ⌈/⌉ size → 0 < (chunkRange n size c).length ∧ g ∣ (chunkRange n size c).length) ∧
      ∀ (kernel : WideKernel) (W : ℕ), W * kernel.lanes = g → kernel.chunk W threads n = .ok size ∧
        ∀ (cpu : CpuFeatures) (rk : List U32) (counter0 : Block) (blocks out : List Block) (order : List ℕ) (fuel : ℕ),
          kernel.supported cpu = true → 44 ≤ rk.length → blocks.length = n → out.length = n →
          IsSchedule n (kernel.chunk W threads n) order → n < fuel →
          (kernel.encryptCtrParallel cpu fuel W threads order rk counter0 blocks).run (Counted.ofList out) =
            (parChunks (fun c0 blk => kernel.impl fuel W rk c0 blk) size counter0 blocks order).run
              (Counted.ofList out) ∧
          ∃ out' serial, (kernel.encryptCtrParallel cpu fuel W threads order rk counter0 blocks).run (.ofList out) =
              .ok () out' ∧
            (kernel.encryptCtrParallel cpu fuel W threads order rk counter0 blocks).run (Counted.ofList out) =
              .ok () ⟨out', n % g⟩ ∧
            (kernel.encryptCtr cpu fuel W rk counter0 blocks).run (.ofList out) = .ok () serial ∧
            (kernel.encryptCtr cpu fuel W rk counter0 blocks).run (Counted.ofList out) = .ok () ⟨serial, n % g⟩ := by
  have hn0 : n ≠ 0 := by omega
  obtain ⟨size, hok, hpos, -, hle, hdvd⟩ := parChunk_ok threads hn0 hg
  refine ⟨size, hok, ?_, ?_, fun c hc => ?_, fun kernel W hgroup =>
    ⟨by rw [WideKernel.chunk, hgroup, hok], ?_⟩⟩
  · by_contra hzero
    have hcount : n ⌈/⌉ size ≤ 0 := by omega
    rw [ceilDiv_le_iff_le_mul hpos] at hcount
    omega
  · refine ceilDiv_le_of_ceilDiv_le hpos hthreads ?_
    rwa [Nat.max_eq_left hthreads] at hle
  · rw [length_chunkRange_of_lt hpos hc]
    exact ⟨hpos, hdvd⟩
  · intro cpu rk counter0 blocks out order fuel hcpu hrk hblocks hout horder hfuel
    subst hgroup hblocks
    have hW : 1 ≤ W := Nat.pos_of_mul_pos_right hg
    have hperm := horder size hok
    refine ⟨kernel.run_encryptCtrParallel_loop (σ := Counted Block) hcpu hout.symm hn0 hok order fuel 0, _, _,
      kernel.run_encryptCtrParallel_hold (σ := Buffer Block) hcpu hrk hW hout.symm hn0 hok hperm hfuel 0, ?_,
      kernel.run_encryptCtr hcpu hrk hW hout.symm hfuel, ?_⟩
    · refine (kernel.run_encryptCtrParallel_hold (σ := Counted Block) hcpu hrk hW hout.symm hn0 hok hperm hfuel 0).trans ?_
      rw [Nat.zero_add]
      rfl
    · refine (kernel.run_encryptCtr_hold (σ := Counted Block) hcpu hrk hW hout.symm hfuel 0).trans ?_
      rw [Nat.zero_add]
      rfl

/-- Seven blocks on three threads, in groups of two: three chunks, the last first, and one call of
`encrypt_one`. -/
theorem chunks_keep_wide_seven : ∃ size, parChunk 3 7 2 = .ok size ∧ 7 ⌈/⌉ size ≤ 3 ∧
    ∃ out', (WideKernel.vaes256.encryptCtrParallel ⟨true, true, true, true, true, true⟩ 8 1 3
      (List.range (7 ⌈/⌉ size)).reverse (List.replicate 44 0) default (List.replicate 7 default)).run
        (Counted.ofList (List.replicate 7 default)) = .ok () ⟨out', 1⟩ := by
  obtain ⟨size, hok, -, hle, -, hkernels⟩ := chunks_keep_wide 7 3 2 (by decide) (by decide) (by decide)
  obtain ⟨hchunk, hruns⟩ := hkernels .vaes256 1 rfl
  have horder : IsSchedule 7 (WideKernel.vaes256.chunk 1 3 7) (List.range (7 ⌈/⌉ size)).reverse := by
    intro size' hsize'
    obtain rfl : size = size' := Except.ok.inj (hchunk.symm.trans hsize')
    exact List.reverse_perm _
  obtain ⟨-, out', _, -, hcount, -⟩ := hruns ⟨true, true, true, true, true, true⟩ (List.replicate 44 0) default
    (List.replicate 7 default) (List.replicate 7 default) _ 8 rfl List.length_replicate.ge List.length_replicate
    List.length_replicate horder (by decide)
  exact ⟨size, hok, hle, out', hcount⟩

end CudaAes
