import CudaAes.Gpu.LateSteps

/-!
# Runs of the GPU wrapper

From the state before its launch every call can be run to its end, whatever device memory holds and
with the default stream at rest (`reach_kernel`). If that stream is empty such a run is in order and
returns the ciphertext; if the zero fill of `ct` is still to come it wipes the kernel's stores, and
the call returns zeros (`zero_fill_last`). `callOk_exactly_inOrder` separates the two.
-/

namespace CudaAes

open Rust Fips197

variable {c : GpuCall} {G : GpuState → List GpuEvent → Prop} {s s' : GpuState}

theorem reach_step (hstep : ∃ events, GpuStep c s events s' ∧ G s events) : GpuReachable c G s s' :=
  Relation.ReflTransGen.single hstep

/-! ## The default stream -/

/-- The oldest transfer can be run to its end. -/
theorem reach_transfer (hG : ∀ s, G s [] ∧ ∀ b i, G s [.write b i]) {b : Buf} {rest : List Transfer}
    (pending : List Store) (hstream : s.stream = ⟨b, pending⟩ :: rest) :
    ∃ s', GpuReachable c G s s' ∧ s'.pc = s.pc ∧ s'.stream = rest ∧
      (∀ b', (s'.mem b').length = (s.mem b').length) ∧
      s'.mem b = pending.foldl (fun words w => words.set w.1 w.2) (s.mem b) := by
  induction pending generalizing s with
  | nil => exact ⟨_, reach_step ⟨_, .complete hstream, (hG s).1⟩, rfl, rfl, fun _ => rfl, rfl⟩
  | cons w pending ih =>
    obtain ⟨s', hreach, hpc, hrest, hlen, hmem⟩ := ih (s := { s with
      stream := ⟨b, [] ++ pending⟩ :: rest
      mem := Function.update s.mem b ((s.mem b).set w.1 w.2)
      history := s.history ++ [.write b w.1] }) rfl
    have hwrite : s.stream = ⟨b, [] ++ w :: pending⟩ :: rest := hstream
    refine ⟨s', (reach_step ⟨_, .write hwrite, (hG s).2 b w.1⟩).trans hreach, hpc, hrest, fun b' => ?_, ?_⟩
    · rw [hlen]
      exact length_update_set s.mem b b' w
    · dsimp only at hmem
      rw [hmem, Function.update_self, List.foldl_cons]

/-! ## The kernel -/

structure ThreadFrame (t : ℕ) (s s' : GpuState) : Prop where
  pc : s'.pc = s.pc
  stream : s'.stream = s.stream
  len : ∀ b, (s'.mem b).length = (s.mem b).length
  thread : ∀ t' ≠ t, s'.thread t' = s.thread t'

theorem ThreadFrame.trans {t : ℕ} {s s' s'' : GpuState} (h : ThreadFrame t s s') (h' : ThreadFrame t s' s'') :
    ThreadFrame t s s'' where
  pc := h'.pc.trans h.pc
  stream := h'.stream.trans h.stream
  len := fun b => (h'.len b).trans (h.len b)
  thread := fun t' ht => (h'.thread t' ht).trans (h.thread t' ht)

theorem threadFrame_update (t : ℕ) (st : ThreadState) (s : GpuState) (history : List GpuEvent) :
    ThreadFrame t s { s with thread := Function.update s.thread t st, history := history } where
  pc := rfl
  stream := rfl
  len := fun _ => rfl
  thread := fun _ ht => Function.update_of_ne ht _ _

theorem threadFrame_store (t : ℕ) (st : ThreadState) (s : GpuState) (history : List GpuEvent) (w : Store) :
    ThreadFrame t s { s with
      mem := Function.update s.mem .ct ((s.mem .ct).set w.1 w.2)
      thread := Function.update s.thread t st
      history := history } where
  pc := rfl
  stream := rfl
  len := fun b => length_update_set s.mem .ct b w
  thread := fun _ ht => Function.update_of_ne ht _ _

theorem reach_stores (hG : ∀ s' events, s'.stream = s.stream → G s' events) {t j : ℕ} {counter0 : Block}
    (stores : List Store) (hstoring : s.thread t = .storing counter0 j stores) :
    ∃ s', GpuReachable c G s s' ∧ ThreadFrame t s s' ∧ s'.thread t = .storing counter0 j [] := by
  induction stores generalizing s with
  | nil => exact ⟨s, .refl, ⟨rfl, rfl, fun _ => rfl, fun _ _ => rfl⟩, hstoring⟩
  | cons w stores ih =>
    obtain ⟨s', hreach, hframe, hthread⟩ := ih (s := { s with
      mem := Function.update s.mem .ct ((s.mem .ct).set w.1 w.2)
      thread := Function.update s.thread t (.storing counter0 j stores)
      history := s.history ++ [.store w.1] }) hG (Function.update_self _ _ _)
    refine ⟨s', (reach_step ⟨_, .store hstoring, hG s _ rfl⟩).trans hreach, ?_, hthread⟩
    exact (threadFrame_store t _ s _ w).trans hframe

/-- The stores of a block do not depend on memory for their existence. -/
theorem exists_blockStores (hrk : 44 ≤ c.rk.length) (hn : c.blocks.length < 2 ^ 32)
    (hlen : ∀ b, (s.mem b).length = (c.source b).length) (counter0 : Block) {i : ℕ} (hi : i < c.blocks.length) :
    ∃ stores, blockStores (c.args s.mem) counter0 i = .ok stores := by
  have hpt : (s.mem .pt).length = c.blocks.length * 4 := by
    rw [hlen, GpuCall.source, length_asFlattened]
  have hrk' : 44 ≤ (s.mem .rk).length := by
    rw [hlen]
    exact hrk
  have hread : ∀ k < 4, index (s.mem .pt) (i * 4 + k) = .ok ((s.mem .pt).getD (i * 4 + k) 0) :=
    fun k hk => index_getD (by omega)
  have hbase : usizeMul i 4 = i * 4 + 0 := Nat.mod_eq_of_lt (by omega)
  have hadd : ∀ k < 4, usizeAdd (i * 4 + 0) k = i * 4 + k := fun k hk => Nat.mod_eq_of_lt (by omega)
  unfold blockStores
  simp only [GpuCall.args, kernelArgs, hbase, hadd 1 (by decide), hadd 2 (by decide), hadd 3 (by decide),
    hread 0 (by decide), hread 1 (by decide), hread 2 (by decide), hread 3 (by decide), ok_bind,
    encryptCtrBlock_eq hrk']
  exact ⟨_, rfl⟩

theorem reach_loop (hrk : 44 ≤ c.rk.length) (hn : c.blocks.length < 2 ^ 32) {t : ℕ} (k : ℕ) :
    ∀ (s : GpuState) (j : ℕ) (counter0 : Block), (∀ s' events, s'.stream = s.stream → G s' events) →
      (∀ b, (s.mem b).length = (c.source b).length) → s.thread t = .loop counter0 j → j + k = c.r →
      ∃ s', GpuReachable c G s s' ∧ ThreadFrame t s s' ∧ s'.thread t = .done := by
  induction k with
  | zero =>
    intro s j counter0 hG _ hloop hj
    exact ⟨_, reach_step ⟨_, .exit hloop (Or.inl (by omega)), hG s _ rfl⟩, threadFrame_update t .done s s.history,
      Function.update_self _ _ _⟩
  | succ k ih =>
    intro s j counter0 hG hlen hloop hj
    rcases Nat.lt_or_ge (threadIndex c t j) c.blocks.length with hlt | hge
    · obtain ⟨stores, hstores⟩ := exists_blockStores hrk hn hlen counter0 hlt
      -- read the block, store it, and go round
      have hread := GpuStep.read hloop (by omega) hlt hstores
      obtain ⟨s₁, hreach₁, hframe₁, hthread₁⟩ := reach_stores (c := c) (G := G) (s := { s with
        thread := Function.update s.thread t (.storing counter0 j stores)
        history := s.history ++ [.read .pt (s.mem .pt), .read .rk (s.mem .rk)] }) hG stores (Function.update_self _ _ _)
      have hframe := (threadFrame_update t (.storing counter0 j stores) s _).trans hframe₁
      have hnext := GpuStep.next (c := c) hthread₁
      obtain ⟨s₂, hreach₂, hframe₂, hdone⟩ := ih { s₁ with thread := Function.update s₁.thread t (.loop counter0 (j + 1)) }
        (j + 1) counter0 (fun s' events hs' => hG s' events (hs'.trans hframe.stream))
        (fun b => (hframe.len b).trans (hlen b)) (Function.update_self _ _ _) (by omega)
      refine ⟨s₂, ?_, (hframe.trans (threadFrame_update t _ s₁ s₁.history)).trans hframe₂, hdone⟩
      exact ((reach_step ⟨_, hread, hG s _ rfl⟩).trans hreach₁).trans
        ((reach_step ⟨_, hnext, hG s₁ _ hframe.stream⟩).trans hreach₂)
    · exact ⟨_, reach_step ⟨_, .exit hloop (Or.inr hge), hG s _ rfl⟩, threadFrame_update t .done s s.history,
        Function.update_self _ _ _⟩

theorem reach_thread (hrk : 44 ≤ c.rk.length) (hn : c.blocks.length < 2 ^ 32)
    (hG : ∀ s' events, s'.stream = s.stream → G s' events) (hlen : ∀ b, (s.mem b).length = (c.source b).length)
    {t : ℕ} (ht : s.thread t = .ready ∨ s.thread t = .done) :
    ∃ s', GpuReachable c G s s' ∧ ThreadFrame t s s' ∧ s'.thread t = .done := by
  rcases ht with hready | hdone
  · have hfour : (s.mem .counter0).length = 4 := hlen .counter0
    have hindex : ∀ k < 4, index (s.mem .counter0) k = .ok ((s.mem .counter0).getD k 0) :=
      fun k hk => index_getD (by omega)
    obtain ⟨counter0, hread⟩ : ∃ counter0, readCounter (s.mem .counter0) = .ok counter0 := by
      unfold readCounter
      rw [hindex 0 (by decide), hindex 1 (by decide), hindex 2 (by decide), hindex 3 (by decide)]
      exact ⟨_, rfl⟩
    obtain ⟨s', hreach, hframe, hdone⟩ := reach_loop (G := G) hrk hn c.r { s with
      thread := Function.update s.thread t (.loop counter0 0)
      history := s.history ++ [.read .counter0 (s.mem .counter0)] } 0 counter0 hG hlen (Function.update_self _ _ _)
      (Nat.zero_add _)
    exact ⟨s', (reach_step ⟨_, .start hready hread, hG s _ rfl⟩).trans hreach,
      (threadFrame_update t _ s _).trans hframe, hdone⟩
  · exact ⟨s, .refl, ⟨rfl, rfl, fun _ => rfl, fun _ _ => rfl⟩, hdone⟩

/-- The threads of a grid can run to their ends, one by one. -/
theorem reach_threads (hrk : 44 ≤ c.rk.length) (hn : c.blocks.length < 2 ^ 32) (threads : ℕ) :
    ∀ s : GpuState, (∀ s' events, s'.stream = s.stream → G s' events) →
      (∀ b, (s.mem b).length = (c.source b).length) → (∀ t, s.thread t = .ready ∨ s.thread t = .done) →
      (∀ t ≥ threads, s.thread t = .done) →
      ∃ s', GpuReachable c G s s' ∧ s'.pc = s.pc ∧ s'.stream = s.stream ∧
        (∀ b, (s'.mem b).length = (s.mem b).length) ∧ ∀ t, s'.thread t = .done := by
  induction threads with
  | zero => exact fun s _ _ _ hdone => ⟨s, .refl, rfl, rfl, fun _ => rfl, fun t => hdone t (Nat.zero_le t)⟩
  | succ threads ih =>
    intro s hG hlen hthread hdone
    obtain ⟨s₁, hreach₁, hframe, hlast⟩ := reach_thread hrk hn hG hlen (hthread threads)
    obtain ⟨s₂, hreach₂, hpc, hstream, hlen₂, hall⟩ := ih s₁ (fun s' events hs' => hG s' events (hs'.trans hframe.stream))
      (fun b => (hframe.len b).trans (hlen b))
      (fun t => by
        by_cases ht : t = threads
        · exact Or.inr (ht ▸ hlast)
        · rw [hframe.thread t ht]
          exact hthread t)
      (fun t ht => by
        rcases Nat.eq_or_lt_of_le ht with rfl | ht
        · exact hlast
        · rw [hframe.thread t (by omega)]
          exact hdone t ht)
    exact ⟨s₂, hreach₁.trans hreach₂, hpc.trans hframe.pc, hstream.trans hframe.stream,
      fun b => (hlen₂ b).trans (hframe.len b), hall⟩

/-- A call can be run from its launch to its `synchronize`. -/
theorem reach_kernel (hrk : 44 ≤ c.rk.length) (hpos : 1 ≤ c.blocks.length) (hn : c.blocks.length < 2 ^ 32)
    (hR : c.blocksPerThread < 2 ^ 32) (hG : ∀ s' events, s'.stream = s.stream → G s' events)
    (hlen : ∀ b, (s.mem b).length = (c.source b).length) (hpc : s.pc = .launch) :
    ∃ s', GpuReachable c G s s' ∧ s'.pc = .download ∧ s'.stream = s.stream ∧
      ∀ b, (s'.mem b).length = (c.source b).length := by
  have hr : c.r % 2 ^ 32 ≠ 0 := by
    have hr := c.r_pos
    have hr' : c.r < 2 ^ 32 := max_lt hR (by decide)
    omega
  have hgrid := launchGrid_eq hr c.blocks.length
  have hreach := le_launchReach hn hr
  have hne : (c.blocks.length % 2 ^ 32) ⌈/⌉ (c.r % 2 ^ 32 * BLOCK) ≠ 0 := by
    intro hzero
    unfold launchReach at hreach
    rw [show max c.blocksPerThread 1 = c.r from rfl, hzero] at hreach
    omega
  obtain ⟨grid, hgrid'⟩ : ∃ grid, grid = (c.blocks.length % 2 ^ 32) ⌈/⌉ (c.r % 2 ^ 32 * BLOCK) := ⟨_, rfl⟩
  rw [← hgrid'] at hgrid hne
  obtain ⟨s₁, hreach₁, hpc₁, hstream₁, hlen₁, hdone⟩ := reach_threads (c := c) (G := G) hrk hn (grid * BLOCK) { s with
    pc := .synchronize, thread := fun t => if t < grid * BLOCK then .ready else .done } hG hlen
    (fun t => by
      by_cases ht : t < grid * BLOCK
      · exact Or.inl (if_pos ht)
      · exact Or.inr (if_neg ht))
    (fun t ht => if_neg (not_lt.mpr ht))
  refine ⟨{ s₁ with pc := .download }, ?_, rfl, hstream₁, fun b => (hlen₁ b).trans (hlen b)⟩
  exact ((reach_step ⟨_, .launch hpc hgrid hne, hG s _ rfl⟩).trans hreach₁).trans
    (reach_step ⟨_, .synchronize hpc₁ hdone, hG s₁ _ hstream₁⟩)

/-! ## Whole calls -/

/-- A transfer leaves the words it brings. -/
theorem transferred_eq {words mem : List U32} (hlen : mem.length = words.length) :
    (transferWords words).foldl (fun mem w => mem.set w.1 w.2) mem = words := by
  have hright : ∀ w ∈ transferWords words, w.2 = words.getD w.1 0 := by
    intro w hw
    rw [List.getD_eq_getElem?_getD, mem_transferWords.mp hw]
    rfl
  rw [Buffer.foldl_set (words.getD · 0) mem _ hright]
  apply List.ext_getElem?
  intro i
  rcases Nat.lt_or_ge i words.length with hi | hi
  · have hmem : i ∈ (transferWords words).map Prod.fst :=
      List.mem_map.mpr ⟨(i, words[i]), mem_transferWords.mpr (List.getElem?_eq_getElem hi), rfl⟩
    rw [Buffer.getElem?_stored_mem _ _ hmem (hlen ▸ hi), List.getElem?_eq_getElem hi, List.getD_eq_getElem _ _ hi]
  · rw [List.getElem?_eq_none (by rw [Buffer.length_stored]; omega), List.getElem?_eq_none hi]

/-- The transfers of a call, as the host issues them. -/
def GpuCall.transfers (c : GpuCall) : List Transfer :=
  [Buf.counter0, .pt, .rk, .ct].map fun b => ⟨b, transferWords (c.source b)⟩

theorem reach_issued (hG : ∀ s, G s []) (h₀ : s.Initial c) :
    GpuReachable c G s { s with pc := .launch, stream := c.transfers } := by
  have hissue : ∀ {s : GpuState} {b : Buf}, s.pc = .issue b → GpuReachable c G s
      { s with pc := afterIssue b, stream := s.stream ++ [⟨b, transferWords (c.source b)⟩] } :=
    fun hpc => reach_step ⟨_, .issue hpc, hG _⟩
  have hall := (((hissue h₀.pc).trans (hissue rfl)).trans (hissue rfl)).trans (hissue rfl)
  dsimp only [afterIssue] at hall
  rw [h₀.stream] at hall
  exact hall

/-- A call can be brought to its launch with the zero fill of `ct` alone in flight. -/
theorem reach_launch (hG : ∀ s, G s [] ∧ ∀ b i, G s [.write b i]) (h₀ : s.Initial c) :
    ∃ s', GpuReachable c G s s' ∧ s'.pc = .launch ∧ s'.stream = [⟨.ct, transferWords (c.source .ct)⟩] ∧
      ∀ b, (s'.mem b).length = (c.source b).length := by
  have h₁ := reach_issued (fun s => (hG s).1) h₀
  obtain ⟨s₂, h₂, hpc₂, hstream₂, hlen₂, -⟩ :=
    reach_transfer hG (s := { s with pc := .launch, stream := c.transfers }) _ rfl
  obtain ⟨s₃, h₃, hpc₃, hstream₃, hlen₃, -⟩ := reach_transfer hG _ hstream₂
  obtain ⟨s₄, h₄, hpc₄, hstream₄, hlen₄, -⟩ := reach_transfer hG _ hstream₃
  refine ⟨s₄, ((h₁.trans h₂).trans h₃).trans h₄, ?_, hstream₄, fun b => ?_⟩
  · rw [hpc₄, hpc₃, hpc₂]
  · rw [hlen₄, hlen₃, hlen₂]
    exact h₀.mem b

/-- A call whose operations take place one after another returns, whatever its buffers held before. -/
theorem exists_inOrder_run (hrk : 44 ≤ c.rk.length) (hpos : 1 ≤ c.blocks.length) (hn : c.blocks.length < 2 ^ 32)
    (hR : c.blocksPerThread < 2 ^ 32) (h₀ : s.Initial c) : ∃ s', GpuReachable c InOrder s s' ∧ s'.pc = .returned := by
  have hG : ∀ s : GpuState, InOrder s [] ∧ ∀ b i, InOrder s [.write b i] := fun s => by simp [InOrder]
  obtain ⟨s₁, h₁, hpc₁, hstream₁, hlen₁⟩ := reach_launch hG h₀
  obtain ⟨s₂, h₂, hpc₂, hstream₂, hlen₂, -⟩ := reach_transfer hG _ hstream₁
  have hkernel : ∀ (s' : GpuState) (events : List GpuEvent), s'.stream = s₂.stream → InOrder s' events := by
    intro s' events hs'
    simp [InOrder, hs'.trans hstream₂]
  obtain ⟨s₃, h₃, hpc₃, hstream₃, -⟩ :=
    reach_kernel hrk hpos hn hR hkernel (fun b => (hlen₂ b).trans (hlen₁ b)) (hpc₂.trans hpc₁)
  have h₄ := reach_step ⟨_, GpuStep.download (c := c) hpc₃ (hstream₃.trans hstream₂), hkernel s₃ _ hstream₃⟩
  exact ⟨_, ((h₁.trans h₂).trans h₃).trans h₄, rfl⟩

/-- **Every call has a run that returns zeros**: its zero fill takes place after the kernel, which the
streams admit. -/
theorem zero_fill_last (hrk : 44 ≤ c.rk.length) (hpos : 1 ≤ c.blocks.length) (hn : c.blocks.length < 2 ^ 32)
    (hR : c.blocksPerThread < 2 ^ 32) (h₀ : s.Initial c) :
    ∃ s', GpuReachable c AnyOrder s s' ∧ s'.pc = .returned ∧
      s'.out = List.replicate c.blocks.length ⟨0, 0, 0, 0⟩ := by
  have hG : ∀ s : GpuState, AnyOrder s [] ∧ ∀ b i, AnyOrder s [.write b i] := fun _ => ⟨trivial, fun _ _ => trivial⟩
  obtain ⟨s₁, h₁, hpc₁, hstream₁, hlen₁⟩ := reach_launch hG h₀
  obtain ⟨s₂, h₂, hpc₂, hstream₂, hlen₂⟩ := reach_kernel hrk hpos hn hR (fun _ _ _ => trivial) hlen₁ hpc₁
  obtain ⟨s₃, h₃, hpc₃, hstream₃, -, hmem₃⟩ := reach_transfer hG _ (hstream₂.trans hstream₁)
  have h₄ := reach_step (G := AnyOrder) ⟨_, GpuStep.download (c := c) (hpc₃.trans hpc₂) hstream₃, trivial⟩
  refine ⟨_, ((h₁.trans h₂).trans h₃).trans h₄, rfl, ?_⟩
  dsimp only
  rw [hmem₃, transferred_eq (hlen₂ .ct), GpuCall.source, ← asFlattened_replicate, ofFlattened_asFlattened]

/-- **Exactly the runs whose kernel does not overtake the default stream are right**: in each state of such
a run the kernel has read fully uploaded inputs, nothing has overwritten `ct` after its stores, and a call
that returned left the ciphertext; and after a step out of order no call that returns did all this. -/
theorem callOk_exactly_inOrder (rk : Vector U32 44) (counter0 : Block) (blocks : List Block)
    (hn : blocks.length < 2 ^ 32) (R : ℕ) (hR : R < 2 ^ 32) (s₀ : GpuState)
    (h₀ : s₀.Initial ⟨rk.toList, counter0, blocks, R⟩) :
    (∀ s, GpuReachable ⟨rk.toList, counter0, blocks, R⟩ InOrder s₀ s → CallOk ⟨rk.toList, counter0, blocks, R⟩ s) ∧
    ∀ s events s' s'', GpuReachable ⟨rk.toList, counter0, blocks, R⟩ AnyOrder s₀ s →
      GpuStep ⟨rk.toList, counter0, blocks, R⟩ s events s' → ¬ InOrder s events →
      GpuReachable ⟨rk.toList, counter0, blocks, R⟩ AnyOrder s' s'' → s''.pc = .returned →
      ¬ CallOk ⟨rk.toList, counter0, blocks, R⟩ s'' := by
  have hrk : 44 ≤ rk.toList.length := by simp
  refine ⟨fun s h => (callInv_reachable hrk hn hR h₀ h).callOk hrk, ?_⟩
  intro s events s' s'' h hstep hlate hrest hpc
  exact not_callOk_of_late h₀ h hstep hlate hrest hpc

theorem callOk_exactly_inOrder_three :
    ∃ s, GpuReachable ⟨(Vector.replicate 44 0).toList, default, [default, default, default], 1⟩ InOrder
        (.zeroed ⟨(Vector.replicate 44 0).toList, default, [default, default, default], 1⟩) s ∧
      s.pc = .returned ∧ CallOk ⟨(Vector.replicate 44 0).toList, default, [default, default, default], 1⟩ s := by
  have hexact := callOk_exactly_inOrder (Vector.replicate 44 0) default [default, default, default] (by decide) 1
    (by decide) _ (initial_zeroed _)
  obtain ⟨s, h, hpc⟩ := exists_inOrder_run (by simp) (by decide) (by decide) (by decide)
    (initial_zeroed ⟨(Vector.replicate 44 0).toList, default, [default, default, default], 1⟩)
  exact ⟨s, h, hpc, hexact.1 s h⟩

/-- A run of a call on one block that returns a zero block for its ciphertext. -/
theorem zero_fill_overwrites :
    ∃ s, GpuReachable ⟨List.replicate 44 0, default, [default], 1⟩ AnyOrder
        (.zeroed ⟨List.replicate 44 0, default, [default], 1⟩) s ∧
      s.pc = .returned ∧ s.out = [⟨0, 0, 0, 0⟩] ∧ ¬ CallOk ⟨List.replicate 44 0, default, [default], 1⟩ s := by
  have hrk : 44 ≤ (List.replicate 44 (0 : U32)).length := by rw [List.length_replicate]
  obtain ⟨s, h, hpc, hout⟩ := zero_fill_last (c := ⟨List.replicate 44 0, default, [default], 1⟩) hrk (by decide)
    (by decide) (by decide) (initial_zeroed _)
  refine ⟨s, h, hpc, hout, fun hok => ?_⟩
  obtain ⟨ref, hscalar, hresult⟩ := hok.result hpc [default] rfl
  have hlen : [(default : Block)].length = [(default : Block)].length := rfl
  obtain ⟨ref', hscalar', hdata⟩ := Scalar.run_encryptCtr_data hrk default hlen
  obtain rfl : ref = ref' := (EStateM.Result.ok.inj (hscalar.symm.trans hscalar')).2
  have htext : [(⟨0, 0, 0, 0⟩ : Block)] = ctrText (List.replicate 44 0) default [default] :=
    hout.symm.trans (hresult.trans hdata)
  have hne : (keystream (List.replicate 44 0) default 0).e0 ≠ 0 := by decide +kernel
  have hzero := congrArg (fun text => (text.getD 0 default).e0) htext
  exact hne (BitVec.zero_xor.symm.trans hzero.symm)

end CudaAes
