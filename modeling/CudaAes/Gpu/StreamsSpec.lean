import CudaAes.Gpu.Streams
import CudaAes.Gpu.HostSpec

/-!
# Stream ordering of the GPU wrapper

In a run whose kernel never overtakes the default stream, the kernel reads what the host uploaded,
nothing overwrites what it stores, and the call returns the ciphertext: `CallInv` is kept by every such
step (`CallInv.step`) and says so of the last state.
-/

namespace CudaAes

open Rust Fips197

/-- What a call should keep in every state of every run. -/
structure CallOk (c : GpuCall) (s : GpuState) : Prop where
  /-- The kernel reads fully uploaded inputs. -/
  reads : ∀ b words, .read b words ∈ s.history → words = c.source b
  /-- Nothing overwrites `ct` after the kernel's stores. -/
  overwrites : s.history.Pairwise fun e e' => ∀ a, e = .store a → e' ≠ .write .ct a
  /-- A call that returns leaves what the scalar backend leaves. -/
  result : s.pc = .returned → ∀ out : List Block, out.length = c.blocks.length →
    ∃ ref, (Scalar.encryptCtr c.rk c.counter0 c.blocks).run (.ofList out) = .ok () ref ∧ s.out = ref.data

/-- The host has not launched. -/
def HostPc.Issuing : HostPc → Prop
  | .issue _ => True
  | .launch => True
  | _ => False

/-- The host has issued the transfer to a buffer. -/
def HostPc.Issued (b : Buf) : HostPc → Prop
  | .issue .counter0 => False
  | .issue .pt => b = .counter0
  | .issue .rk => b = .counter0 ∨ b = .pt
  | .issue .ct => b ≠ .ct
  | _ => True

theorem issued_afterIssue {b b' : Buf} (h : (afterIssue b).Issued b') : (HostPc.issue b).Issued b' ∨ b' = b := by
  cases b <;> cases b' <;> simp_all [afterIssue, HostPc.Issued]

theorem issued_of_not_issuing {pc : HostPc} (h : ¬ pc.Issuing) (b : Buf) : pc.Issued b := by
  cases pc with
  | issue _ => exact absurd trivial h
  | launch => exact absurd trivial h
  | synchronize => trivial
  | download => trivial
  | returned => trivial

/-- Where a thread stands, when the words that satisfy `S` have been stored: it has stored the blocks
before its current one, and what it has still to store is right. -/
def ThreadOk (c : GpuCall) (S : ℕ → Prop) (t : ℕ) : ThreadState → Prop
  | .idle => True
  | .ready => t < 2 ^ 32
  | .loop counter0 j => t < 2 ^ 32 ∧ counter0 = c.counter0 ∧ j ≤ c.r ∧
      ∀ a, a / 4 < c.blocks.length → t * c.r ≤ a / 4 → a / 4 < t * c.r + j → S a
  | .storing counter0 j stores => t < 2 ^ 32 ∧ counter0 = c.counter0 ∧ j < c.r ∧ t * c.r + j < c.blocks.length ∧
      (∀ a, a / 4 < c.blocks.length → t * c.r ≤ a / 4 → a / 4 < t * c.r + j → S a) ∧
      (∀ w ∈ stores, w.1 / 4 = t * c.r + j ∧ w.2 = ctWord c.rk c.counter0 c.blocks w.1) ∧
      ∀ a, a / 4 = t * c.r + j → S a ∨ a ∈ stores.map Prod.fst
  | .done => ∀ a, a / 4 < c.blocks.length → a / 4 / c.r = t → S a

theorem ThreadOk.mono {c : GpuCall} {S S' : ℕ → Prop} (hS : ∀ a, S a → S' a) {t : ℕ} {st : ThreadState}
    (h : ThreadOk c S t st) : ThreadOk c S' t st := by
  cases st with
  | idle => trivial
  | ready => exact h
  | loop counter0 j => exact ⟨h.1, h.2.1, h.2.2.1, fun a h1 h2 h3 => hS a (h.2.2.2 a h1 h2 h3)⟩
  | storing counter0 j stores =>
    obtain ⟨ht, hc, hj, hn, hbefore, hright, hblock⟩ := h
    exact ⟨ht, hc, hj, hn, fun a h1 h2 h3 => hS a (hbefore a h1 h2 h3), hright,
      fun a ha => (hblock a ha).imp (hS a) id⟩
  | done => exact fun a h1 h2 => hS a (h a h1 h2)

/-- The invariant of the default stream, in any order. -/
structure StreamInv (c : GpuCall) (s : GpuState) : Prop where
  pending : ∀ x ∈ s.stream, ∀ w ∈ x.pending, (c.source x.buf)[w.1]? = some w.2
  drained : s.pc = .returned → s.stream = []

/-- **The invariant** of the runs in order. -/
structure CallInv (c : GpuCall) (s : GpuState) : Prop where
  len : ∀ b, (s.mem b).length = (c.source b).length
  input : ∀ b, b ≠ .ct → s.pc.Issued b → ∀ i, (s.mem b)[i]? = (c.source b)[i]? ∨
    ∃ x ∈ s.stream, x.buf = b ∧ i ∈ x.pending.map Prod.fst
  fresh : s.pc.Issuing → (∀ t, s.thread t = .idle) ∧ ∀ a, .store a ∉ s.history
  thread : ∀ t, ThreadOk c (.store · ∈ s.history) t (s.thread t)
  ct : ∀ a, .store a ∈ s.history → (s.mem .ct)[a]? = some (ctWord c.rk c.counter0 c.blocks a) ∧
    ∀ x ∈ s.stream, x.buf = .ct → a ∉ x.pending.map Prod.fst
  reads : ∀ b words, .read b words ∈ s.history → words = c.source b
  overwrites : s.history.Pairwise fun e e' => ∀ a, e = .store a → e' ≠ .write .ct a
  waited : s.pc = .download ∨ s.pc = .returned → ∀ t, s.thread t = .done
  result : s.pc = .returned → s.out = ctrText c.rk c.counter0 c.blocks

/-! ## The default stream and the host -/

section
variable {c : GpuCall} {s : GpuState}

theorem GpuCall.r_pos (c : GpuCall) : 0 < c.r := by
  unfold GpuCall.r
  omega

theorem mem_transferWords {words : List U32} {w : Store} : w ∈ transferWords words ↔ words[w.1]? = some w.2 := by
  unfold transferWords
  rw [List.mem_map]
  constructor
  · rintro ⟨⟨v, i⟩, hv, rfl⟩
    exact List.mem_zipIdx_iff_getElem?.mp hv
  · intro h
    exact ⟨(w.2, w.1), List.mem_zipIdx_iff_getElem?.mpr h, rfl⟩

theorem callInv_initial (h : s.Initial c) : CallInv c s where
  len := h.mem
  input := by simp [h.pc, HostPc.Issued]
  fresh := fun _ => ⟨h.thread, by simp [h.history]⟩
  thread := fun t => by rw [h.thread t]; trivial
  ct := by simp [h.history]
  reads := by simp [h.history]
  overwrites := by simp [h.history]
  waited := by simp [h.pc]
  result := by simp [h.pc]

theorem CallInv.issue (h : CallInv c s) {b : Buf} (hpc : s.pc = .issue b) :
    CallInv c { s with pc := afterIssue b, stream := s.stream ++ [⟨b, transferWords (c.source b)⟩] } := by
  have hfresh := h.fresh (by rw [hpc]; trivial)
  refine { h with input := ?_, fresh := fun _ => hfresh, ct := fun a ha => absurd ha (hfresh.2 a),
                  waited := by cases b <;> simp [afterIssue], result := by cases b <;> simp [afterIssue] }
  intro b' hb' hissued i
  rcases issued_afterIssue hissued with hold | rfl
  · refine (h.input b' hb' (hpc ▸ hold) i).imp id ?_
    rintro ⟨x, hx, hxb⟩
    exact ⟨x, List.mem_append_left _ hx, hxb⟩
  · rcases Nat.lt_or_ge i (c.source b').length with hi | hi
    · refine Or.inr ⟨_, List.mem_append_right _ (List.mem_singleton.mpr rfl), rfl, List.mem_map.mpr ?_⟩
      exact ⟨(i, (c.source b')[i]), mem_transferWords.mpr (List.getElem?_eq_getElem hi), rfl⟩
    · left
      show (s.mem b')[i]? = _
      rw [List.getElem?_eq_none hi, List.getElem?_eq_none (by rw [h.len]; exact hi)]

theorem length_update_set (mem : Buf → List U32) (b b' : Buf) (w : Store) :
    (Function.update mem b ((mem b).set w.1 w.2) b').length = (mem b').length := by
  by_cases hb : b' = b
  · subst hb
    rw [Function.update_self, List.length_set]
  · rw [Function.update_of_ne hb]

theorem getElem?_update_set (mem : Buf → List U32) {b b' : Buf} {w : Store} {i : ℕ} (hne : ¬ (b' = b ∧ i = w.1)) :
    (Function.update mem b ((mem b).set w.1 w.2) b')[i]? = (mem b')[i]? := by
  by_cases hb : b' = b
  · subst hb
    have hi : w.1 ≠ i := fun hwi => hne ⟨rfl, hwi.symm⟩
    rw [Function.update_self, List.getElem?_set_ne hi]
  · rw [Function.update_of_ne hb]

section pending
variable {b b' : Buf} {before after : List Store} {w : Store} {rest : List Transfer} {i : ℕ}

/-- What is pending after a write was pending before it. -/
theorem pending_of_write
    (h : ∃ x ∈ (⟨b, before ++ after⟩ : Transfer) :: rest, x.buf = b' ∧ i ∈ x.pending.map Prod.fst) :
    ∃ x ∈ (⟨b, before ++ w :: after⟩ : Transfer) :: rest, x.buf = b' ∧ i ∈ x.pending.map Prod.fst := by
  obtain ⟨x, hx, hxb, hxi⟩ := h
  rcases List.mem_cons.mp hx with rfl | hx
  · refine ⟨_, List.mem_cons_self, hxb, ?_⟩
    rw [List.map_append, List.mem_append] at hxi ⊢
    exact hxi.imp id (List.mem_cons_of_mem _)
  · exact ⟨x, List.mem_cons_of_mem _ hx, hxb, hxi⟩

/-- A write leaves every other pending word pending. -/
theorem pending_write (hne : ¬ (b' = b ∧ i = w.1))
    (h : ∃ x ∈ (⟨b, before ++ w :: after⟩ : Transfer) :: rest, x.buf = b' ∧ i ∈ x.pending.map Prod.fst) :
    ∃ x ∈ (⟨b, before ++ after⟩ : Transfer) :: rest, x.buf = b' ∧ i ∈ x.pending.map Prod.fst := by
  obtain ⟨x, hx, hxb, hxi⟩ := h
  rcases List.mem_cons.mp hx with rfl | hx
  · refine ⟨_, List.mem_cons_self, hxb, ?_⟩
    rw [List.map_append, List.mem_append] at hxi ⊢
    refine hxi.imp id fun hi => (List.mem_cons.mp hi).resolve_left ?_
    exact fun hi => hne ⟨hxb.symm, hi⟩
  · exact ⟨x, List.mem_cons_of_mem _ hx, hxb, hxi⟩

theorem pending_complete (h : ∃ x ∈ (⟨b, []⟩ : Transfer) :: rest, x.buf = b' ∧ i ∈ x.pending.map Prod.fst) :
    ∃ x ∈ rest, x.buf = b' ∧ i ∈ x.pending.map Prod.fst := by
  obtain ⟨x, hx, hxb, hxi⟩ := h
  rcases List.mem_cons.mp hx with rfl | hx
  · cases hxi
  · exact ⟨x, hx, hxb, hxi⟩

end pending

theorem CallInv.write (h : CallInv c s) (hs : StreamInv c s) {b : Buf} {before after : List Store} {w : Store} {rest : List Transfer}
    (hstream : s.stream = ⟨b, before ++ w :: after⟩ :: rest) :
    CallInv c { s with
      stream := ⟨b, before ++ after⟩ :: rest
      mem := Function.update s.mem b ((s.mem b).set w.1 w.2)
      history := s.history ++ [.write b w.1] } := by
  have hhead : (⟨b, before ++ w :: after⟩ : Transfer) ∈ s.stream := by simp [hstream]
  have hpending : w.1 ∈ (before ++ w :: after).map Prod.fst := List.mem_map.mpr ⟨w, by simp, rfl⟩
  have hstored : ∀ a, .store a ∈ s.history ++ [GpuEvent.write b w.1] → .store a ∈ s.history := by simp
  refine { len := ?_, input := ?_, fresh := ?_, thread := ?_, ct := ?_, reads := ?_, overwrites := ?_,
           waited := h.waited, result := h.result }
  · exact fun b' => (length_update_set s.mem b b' w).trans (h.len b')
  · intro b' hb' hissued i
    by_cases hwi : b' = b ∧ i = w.1
    · -- the word has arrived
      obtain ⟨rfl, rfl⟩ := hwi
      have hright := hs.pending _ hhead w (by simp)
      have hlt : w.1 < (s.mem b').length := by
        rw [h.len]
        exact (List.getElem?_eq_some_iff.mp hright).1
      left
      simp only [Function.update_self]
      rw [List.getElem?_set_self hlt]
      exact hright.symm
    · have hold := h.input b' hb' hissued i
      rw [hstream] at hold
      exact hold.imp (getElem?_update_set s.mem hwi).trans (pending_write hwi)
  · exact fun hpc => ⟨(h.fresh hpc).1, fun a ha => (h.fresh hpc).2 a (hstored a ha)⟩
  · exact fun t => (h.thread t).mono fun a ha => List.mem_append_left _ ha
  · intro a ha
    obtain ⟨hmem, hfree⟩ := h.ct a (hstored a ha)
    have hne : ¬ (Buf.ct = b ∧ a = w.1) := by
      rintro ⟨rfl, rfl⟩
      exact hfree _ hhead rfl hpending
    refine ⟨(getElem?_update_set s.mem hne).trans hmem, fun x hx hxb hxa => ?_⟩
    obtain ⟨y, hy, hyb, hya⟩ := pending_of_write ⟨x, hx, hxb, hxa⟩
    exact hfree y (hstream ▸ hy) hyb hya
  · exact fun b' words hr => h.reads b' words (by simpa using hr)
  · refine List.pairwise_append.mpr ⟨h.overwrites, List.pairwise_singleton _ _, ?_⟩
    rintro e he _ (_ | ⟨_, ⟨⟩⟩) a rfl heq
    obtain ⟨rfl, rfl⟩ := GpuEvent.write.inj heq
    exact (h.ct _ he).2 _ hhead rfl hpending

theorem CallInv.complete (h : CallInv c s) {b : Buf} {rest : List Transfer} (hstream : s.stream = ⟨b, []⟩ :: rest) :
    CallInv c { s with stream := rest } := by
  have hsub : ∀ x ∈ rest, x ∈ s.stream := fun x hx => by simp [hstream, hx]
  refine { h with input := ?_,
                  ct := fun a ha => ⟨(h.ct a ha).1, fun x hx => (h.ct a ha).2 x (hsub x hx)⟩ }
  intro b' hb' hissued i
  have hold := h.input b' hb' hissued i
  rw [hstream] at hold
  exact hold.imp id pending_complete

/-- A grid that covers the message gives every word a thread. -/
theorem CallInv.launch (h : CallInv c s) (hn : c.blocks.length < 2 ^ 32) (hR : c.blocksPerThread < 2 ^ 32)
    (hpc : s.pc = .launch) {grid : ℕ} (hgrid : launchGrid c.blocks.length c.r = .ok grid) :
    CallInv c { s with pc := .synchronize, thread := fun t => if t < grid * BLOCK then .ready else .done } := by
  have hr : max c.blocksPerThread 1 % 2 ^ 32 ≠ 0 := by
    rw [Nat.mod_eq_of_lt (by omega)]
    omega
  have hgrid' := Except.ok.inj (hgrid.symm.trans (launchGrid_eq hr c.blocks.length))
  have hcover := le_launchReach hn hr
  have hthreads := grid_threads_le (n := c.blocks.length) hr
  unfold launchReach at hcover
  rw [← hgrid'] at hcover
  rw [← hgrid'] at hthreads
  have hfresh := h.fresh (by rw [hpc]; trivial)
  refine { h with input := fun b hb _ => h.input b hb (by rw [hpc]; trivial), fresh := fun hf => hf.elim,
                  thread := fun t => ?_, waited := fun hw => by simp at hw, result := fun hw => by simp at hw }
  show ThreadOk c _ t (if t < grid * BLOCK then .ready else .done)
  by_cases ht : t < grid * BLOCK
  · rw [if_pos ht]
    exact ht.trans_le hthreads
  · rw [if_neg ht]
    rintro a ha rfl
    exact absurd ((Nat.div_lt_iff_lt_mul c.r_pos).mpr (ha.trans_le hcover)) ht

theorem CallInv.synchronize (h : CallInv c s) (hpc : s.pc = .synchronize) (hdone : ∀ t, s.thread t = .done) :
    CallInv c { s with pc := .download } :=
  { h with input := fun b hb _ => h.input b hb (by rw [hpc]; trivial), fresh := fun hf => hf.elim,
           waited := fun _ => hdone, result := fun hw => by simp at hw }

theorem CallInv.download (h : CallInv c s) (hpc : s.pc = .download) :
    CallInv c { s with pc := .returned, out := ofFlattened (s.mem .ct) } := by
  refine { h with input := fun b hb _ => h.input b hb (by rw [hpc]; trivial), fresh := fun hf => hf.elim,
                  waited := fun _ => h.waited (Or.inl hpc), result := fun _ => ?_ }
  have hlen : (s.mem .ct).length = c.blocks.length * 4 := by
    rw [h.len, GpuCall.source, List.length_replicate]
  have hwords : s.mem .ct = asFlattened (ctrText c.rk c.counter0 c.blocks) := by
    refine eq_asFlattened_ctrText hlen fun a ha => ?_
    -- the thread of the word's block is done
    have hthread := h.thread (a / 4 / c.r)
    rw [h.waited (Or.inl hpc)] at hthread
    exact (h.ct a (hthread a (by omega) rfl)).1
  show ofFlattened (s.mem .ct) = _
  rw [hwords, ofFlattened_asFlattened]

/-! ## The kernel -/

/-- A thread that is not idle has been launched, so every transfer has been issued. -/
theorem CallInv.launched (h : CallInv c s) {t : ℕ} (ht : s.thread t ≠ .idle) : ¬ s.pc.Issuing :=
  fun hpc => ht ((h.fresh hpc).1 t)

/-- An input that no pending write changes is what the host uploaded. -/
theorem CallInv.mem_eq (h : CallInv c s) (hs : StreamInv c s) {t : ℕ} (ht : s.thread t ≠ .idle) {b : Buf}
    (hb : b ≠ .ct) (hflight : ∀ x ∈ s.stream, x.buf = b → ∀ w ∈ x.pending, (s.mem b)[w.1]? = some w.2) :
    s.mem b = c.source b := by
  apply List.ext_getElem?
  intro i
  rcases h.input b hb (issued_of_not_issuing (h.launched ht) b) i with hi | ⟨x, hx, rfl, hxi⟩
  · exact hi
  · obtain ⟨w, hw, rfl⟩ := List.mem_map.mp hxi
    rw [hflight x hx rfl w hw, hs.pending x hx w hw]

/-- A step of a thread that stores nothing. -/
theorem CallInv.advance (h : CallInv c s) {t : ℕ} (hidle : s.thread t ≠ .idle) (hdone : s.thread t ≠ .done)
    {st : ThreadState} (hst : ThreadOk c (.store · ∈ s.history) t st) (events : List GpuEvent)
    (hevents : ∀ e ∈ events, ∃ b, e = .read b (c.source b)) :
    CallInv c { s with thread := Function.update s.thread t st, history := s.history ++ events } := by
  have hstored : ∀ a, .store a ∈ s.history ++ events → .store a ∈ s.history := by
    intro a ha
    rcases List.mem_append.mp ha with ha | ha
    · exact ha
    · obtain ⟨b, hb⟩ := hevents _ ha
      cases hb
  refine { h with fresh := fun hpc => absurd hpc (h.launched hidle), thread := fun t' => ?_,
                  ct := fun a ha => h.ct a (hstored a ha), reads := ?_, overwrites := ?_,
                  waited := fun hpc => absurd (h.waited hpc t) hdone }
  · by_cases ht : t' = t
    · subst ht
      simp only [Function.update_self]
      exact hst.mono fun a ha => List.mem_append_left _ ha
    · simp only [Function.update_of_ne ht]
      exact (h.thread t').mono fun a ha => List.mem_append_left _ ha
  · intro b words hr
    rcases List.mem_append.mp hr with hr | hr
    · exact h.reads b words hr
    · obtain ⟨b', hb'⟩ := hevents _ hr
      obtain ⟨rfl, rfl⟩ := GpuEvent.read.inj hb'
      rfl
  · have hread : ∀ e ∈ events, ∀ a, e ≠ .write .ct a := by
      rintro e he a rfl
      obtain ⟨b, hb⟩ := hevents _ he
      cases hb
    refine List.pairwise_append.mpr ⟨h.overwrites, ?_, fun e _ e' he' a _ => hread e' he' a⟩
    exact List.pairwise_of_forall_mem_list fun e _ e' he' a _ => hread e' he' a

theorem threadIndex_eq (hR : c.blocksPerThread < 2 ^ 32) {t j : ℕ} (ht : t < 2 ^ 32) (hj : j < c.r) :
    threadIndex c t j = t * c.r + j := by
  have hr : c.r ≤ 2 ^ 32 := by
    unfold GpuCall.r
    omega
  have hlt : t * c.r + j < 2 ^ 64 := by
    have := thread_end_le ht hr
    omega
  unfold threadIndex
  rw [toNat_index1d ht, usizeMul, Nat.mod_eq_of_lt (by omega), usizeAdd, Nat.mod_eq_of_lt hlt]

theorem CallInv.start (h : CallInv c s) (hs : StreamInv c s) {t : ℕ} {counter0 : Block} (hready : s.thread t = .ready)
    (hread : readCounter (s.mem .counter0) = .ok counter0)
    (hflight : ∀ x ∈ s.stream, x.buf = .counter0 → ∀ w ∈ x.pending, (s.mem .counter0)[w.1]? = some w.2) :
    CallInv c { s with
      thread := Function.update s.thread t (.loop counter0 0)
      history := s.history ++ [.read .counter0 (s.mem .counter0)] } := by
  have hmem := h.mem_eq hs (t := t) (by simp [hready]) (by simp) hflight
  have ht := h.thread t
  rw [hready] at ht
  rw [hmem] at hread ⊢
  have hcounter := Except.ok.inj (hread.symm.trans (readCounter_toList c.counter0))
  have hst : ThreadOk c (.store · ∈ s.history) t (.loop counter0 0) :=
    ⟨ht, hcounter, Nat.zero_le _, fun a _ h1 h2 => by omega⟩
  exact h.advance (by simp [hready]) (by simp [hready]) hst _ (by simp)

theorem CallInv.read (h : CallInv c s) (hs : StreamInv c s) (hrk : 44 ≤ c.rk.length) (hn : c.blocks.length < 2 ^ 32)
    (hR : c.blocksPerThread < 2 ^ 32) {t j : ℕ} {counter0 : Block} {stores : List Store}
    (hloop : s.thread t = .loop counter0 j) (hj : j < c.r) (hlt : threadIndex c t j < c.blocks.length)
    (hread : blockStores (c.args s.mem) counter0 (threadIndex c t j) = .ok stores)
    (hpt : ∀ x ∈ s.stream, x.buf = .pt → ∀ w ∈ x.pending, (s.mem .pt)[w.1]? = some w.2)
    (hrkey : ∀ x ∈ s.stream, x.buf = .rk → ∀ w ∈ x.pending, (s.mem .rk)[w.1]? = some w.2) :
    CallInv c { s with
      thread := Function.update s.thread t (.storing counter0 j stores)
      history := s.history ++ [.read .pt (s.mem .pt), .read .rk (s.mem .rk)] } := by
  have hmempt := h.mem_eq hs (t := t) (by simp [hloop]) (by simp) hpt
  have hmemrk := h.mem_eq hs (t := t) (by simp [hloop]) (by simp) hrkey
  have ht := h.thread t
  rw [hloop] at ht
  obtain ⟨ht, rfl, -, hbefore⟩ := ht
  rw [threadIndex_eq hR ht hj] at hlt hread
  have hargs : blockStores (c.args s.mem) c.counter0 (t * c.r + j) =
      blockStores (kernelArgs c.rk c.counter0 c.blocks c.r) c.counter0 (t * c.r + j) := by
    unfold blockStores GpuCall.args
    simp only [hmempt, hmemrk]
    rfl
  rw [hargs, blockStores_eq hrk hlt (by omega)] at hread
  obtain rfl := Except.ok.inj hread
  have hst : ThreadOk c (.store · ∈ s.history) t
      (.storing c.counter0 j (storesAt c.rk c.counter0 c.blocks (blockWords (t * c.r + j)))) := by
    refine ⟨ht, rfl, hj, hlt, hbefore, fun w hw => ?_, fun a ha => ?_⟩
    · obtain ⟨a, ha, rfl⟩ := List.mem_map.mp hw
      exact ⟨mem_blockWords.mp ha, rfl⟩
    · rw [map_fst_storesAt]
      exact Or.inr (mem_blockWords.mpr ha)
  rw [hmempt, hmemrk]
  exact h.advance (by simp [hloop]) (by simp [hloop]) hst _ (by simp)

theorem CallInv.next (h : CallInv c s) {t j : ℕ} {counter0 : Block} (hstoring : s.thread t = .storing counter0 j []) :
    CallInv c { s with thread := Function.update s.thread t (.loop counter0 (j + 1)) } := by
  have ht := h.thread t
  rw [hstoring] at ht
  obtain ⟨ht, hcounter, hj, -, hbefore, -, hblock⟩ := ht
  have hst : ThreadOk c (.store · ∈ s.history) t (.loop counter0 (j + 1)) := by
    refine ⟨ht, hcounter, hj, fun a hlt h1 h2 => ?_⟩
    rcases Nat.lt_or_ge (a / 4) (t * c.r + j) with hlow | hhigh
    · exact hbefore a hlt h1 hlow
    · exact (hblock a (by omega)).resolve_right (by simp)
  have hadv := h.advance (by simp [hstoring]) (by simp [hstoring]) hst [] (by simp)
  rwa [List.append_nil] at hadv

theorem CallInv.exit (h : CallInv c s) (hR : c.blocksPerThread < 2 ^ 32) {t j : ℕ} {counter0 : Block}
    (hloop : s.thread t = .loop counter0 j) (hexit : j = c.r ∨ c.blocks.length ≤ threadIndex c t j) :
    CallInv c { s with thread := Function.update s.thread t .done } := by
  have ht := h.thread t
  rw [hloop] at ht
  obtain ⟨ht, -, hj, hbefore⟩ := ht
  have hst : ThreadOk c (.store · ∈ s.history) t .done := by
    rintro a hlt rfl
    have hdiv : a / 4 / c.r * c.r ≤ a / 4 := Nat.div_mul_le_self _ _
    have hrem : a / 4 < a / 4 / c.r * c.r + c.r := Nat.lt_div_mul_add c.r_pos
    refine hbefore a hlt hdiv ?_
    rcases Nat.lt_or_ge j c.r with hj' | hj'
    · rw [threadIndex_eq hR ht hj'] at hexit
      omega
    · omega
  have hadv := h.advance (by simp [hloop]) (by simp [hloop]) hst [] (by simp)
  rwa [List.append_nil] at hadv

theorem CallInv.store (h : CallInv c s) {t j : ℕ} {counter0 : Block} {w : Store} {stores : List Store}
    (hstoring : s.thread t = .storing counter0 j (w :: stores))
    (hflight : ∀ x ∈ s.stream, x.buf = .ct → w.1 ∉ x.pending.map Prod.fst) :
    CallInv c { s with
      mem := Function.update s.mem .ct ((s.mem .ct).set w.1 w.2)
      thread := Function.update s.thread t (.storing counter0 j stores)
      history := s.history ++ [.store w.1] } := by
  have ht := h.thread t
  rw [hstoring] at ht
  obtain ⟨ht, hcounter, hj, hlt, hbefore, hright, hblock⟩ := ht
  obtain ⟨hw, hval⟩ := hright w List.mem_cons_self
  have hlen : (s.mem .ct).length = c.blocks.length * 4 := by
    rw [h.len, GpuCall.source, List.length_replicate]
  refine { h with len := ?_, input := ?_, fresh := ?_, thread := ?_, ct := ?_, reads := ?_, overwrites := ?_,
                  waited := ?_ }
  · exact fun b => (length_update_set s.mem .ct b w).trans (h.len b)
  · intro b hb hissued i
    simp only [Function.update_of_ne hb]
    exact h.input b hb hissued i
  · exact fun hpc => absurd hpc (h.launched (t := t) (by simp [hstoring]))
  · intro t'
    by_cases htt : t' = t
    · subst htt
      simp only [Function.update_self]
      refine ⟨ht, hcounter, hj, hlt, fun a h1 h2 h3 => List.mem_append_left _ (hbefore a h1 h2 h3),
        fun v hv => hright v (List.mem_cons_of_mem w hv), fun a ha => ?_⟩
      rcases hblock a ha with hold | hnew
      · exact Or.inl (List.mem_append_left _ hold)
      · rcases List.mem_cons.mp hnew with rfl | hnew
        · exact Or.inl (by simp)
        · exact Or.inr hnew
    · simp only [Function.update_of_ne htt]
      exact (h.thread t').mono fun a ha => List.mem_append_left _ ha
  · intro a ha
    by_cases haw : a = w.1
    · subst haw
      refine ⟨?_, hflight⟩
      simp only [Function.update_self]
      rw [List.getElem?_set_self (by omega), hval]
    · obtain ⟨hmem, hpending⟩ := h.ct a (by simpa [haw] using ha)
      have hne : ¬ (Buf.ct = .ct ∧ a = w.1) := fun hne => haw hne.2
      exact ⟨(getElem?_update_set s.mem hne).trans hmem, hpending⟩
  · exact fun b words hr => h.reads b words (by simpa using hr)
  · refine List.pairwise_append.mpr ⟨h.overwrites, List.pairwise_singleton _ _, ?_⟩
    rintro e _ _ (_ | ⟨_, ⟨⟩⟩) a _
    simp
  · exact fun hpc => absurd (h.waited hpc t) (by simp [hstoring])

/-! ## Runs -/

theorem StreamInv.step (h : StreamInv c s) {events : List GpuEvent} {s' : GpuState} (hstep : GpuStep c s events s') :
    StreamInv c s' := by
  cases hstep with
  | @issue b _ =>
    refine ⟨fun x hx => ?_, by cases b <;> simp [afterIssue]⟩
    rcases List.mem_append.mp hx with hx | hx
    · exact h.pending x hx
    · obtain rfl := List.mem_singleton.mp hx
      exact fun w hw => mem_transferWords.mp hw
  | @write b before after w rest hstream =>
    refine ⟨fun x hx v hv => ?_, fun hpc => by simpa [hstream] using h.drained hpc⟩
    rcases List.mem_cons.mp hx with rfl | hx
    · refine h.pending ⟨b, before ++ w :: after⟩ (by simp [hstream]) v ?_
      rcases List.mem_append.mp hv with hv | hv <;> simp [hv]
    · exact h.pending x (hstream ▸ List.mem_cons_of_mem _ hx) v hv
  | complete hstream =>
    refine ⟨fun x hx => ?_, fun hpc => by simpa [hstream] using h.drained hpc⟩
    exact h.pending x (hstream ▸ List.mem_cons_of_mem _ hx)
  | launch _ _ _ => exact ⟨h.pending, fun hpc => by simp at hpc⟩
  | start _ _ => exact ⟨h.pending, h.drained⟩
  | read _ _ _ _ => exact ⟨h.pending, h.drained⟩
  | store _ => exact ⟨h.pending, h.drained⟩
  | next _ => exact ⟨h.pending, h.drained⟩
  | exit _ _ => exact ⟨h.pending, h.drained⟩
  | synchronize _ _ => exact ⟨h.pending, fun hpc => by simp at hpc⟩
  | download _ hstream => exact ⟨h.pending, fun _ => hstream⟩

variable {G : GpuState → List GpuEvent → Prop}

theorem streamInv_initial (h : s.Initial c) : StreamInv c s := ⟨by simp [h.stream], fun _ => h.stream⟩

theorem StreamInv.reachable (h : StreamInv c s) {s' : GpuState} (hreach : GpuReachable c G s s') : StreamInv c s' := by
  induction hreach with
  | refl => exact h
  | tail _ hstep ih =>
    obtain ⟨events, hstep, -⟩ := hstep
    exact ih.step hstep

/-- **Every step in order keeps the invariant.** -/
theorem CallInv.step (h : CallInv c s) (hs : StreamInv c s) (hrk : 44 ≤ c.rk.length) (hn : c.blocks.length < 2 ^ 32)
    (hR : c.blocksPerThread < 2 ^ 32) {events : List GpuEvent} {s' : GpuState} (hstep : GpuStep c s events s')
    (horder : InOrder s events) : CallInv c s' := by
  obtain ⟨hreads, hstores⟩ := horder
  cases hstep with
  | issue hpc => exact h.issue hpc
  | write hstream => exact h.write hs hstream
  | complete hstream => exact h.complete hstream
  | launch hpc hgrid _ => exact h.launch hn hR hpc hgrid
  | start hready hread => exact h.start hs hready hread (hreads _ (s.mem .counter0) (by simp))
  | read hloop hj hlt hread =>
    have hpt := hreads .pt (s.mem .pt) (by simp)
    have hrkey := hreads .rk (s.mem .rk) (by simp)
    exact h.read hs hrk hn hR hloop hj hlt hread hpt hrkey
  | store hstoring => exact h.store hstoring (hstores _ (by simp))
  | next hstoring => exact h.next hstoring
  | exit hloop hexit => exact h.exit hR hloop hexit
  | synchronize hpc hdone => exact h.synchronize hpc hdone
  | download hpc _ => exact h.download hpc

theorem callInv_reachable (hrk : 44 ≤ c.rk.length) (hn : c.blocks.length < 2 ^ 32) (hR : c.blocksPerThread < 2 ^ 32)
    (h₀ : s.Initial c) {s' : GpuState} (h : GpuReachable c InOrder s s') : CallInv c s' := by
  induction h with
  | refl => exact callInv_initial h₀
  | tail h hstep ih =>
    obtain ⟨events, hstep, horder⟩ := hstep
    exact ih.step ((streamInv_initial h₀).reachable h) hrk hn hR hstep horder

theorem CallInv.callOk (h : CallInv c s) (hrk : 44 ≤ c.rk.length) : CallOk c s where
  reads := h.reads
  overwrites := h.overwrites
  result := by
    intro hpc out hlen
    obtain ⟨ref, hscalar, hdata⟩ := Scalar.run_encryptCtr_data hrk c.counter0 hlen.symm
    exact ⟨ref, hscalar, (h.result hpc).trans hdata.symm⟩

end

end CudaAes
