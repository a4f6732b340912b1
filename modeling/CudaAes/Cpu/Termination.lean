import CudaAes.Cpu.Panics

/-!
# Which widths terminate

The width `W` is a const generic that nothing restricts. At `W = 0` the guard `i + W * LANES <= n` of a wide
loop always holds and its body leaves `i` where it is, so the loop never ends, and `next_multiple_of` has
nothing to round to. At every other width the kernels and the chunk computation end
(`width_terminates_iff`).
-/

namespace CudaAes

open Rust Fips197

/-- With enough fuel the call ends, by a return or a panic. -/
def Ends (call : ℕ → Run (Buffer Block) Unit) (out : List Block) : Prop :=
  ∃ enough, ∀ fuel, enough ≤ fuel → ∀ s, (call fuel).run (.ofList out) ≠ .error .outOfFuel s

variable {rk : List U32} {counter0 : Block} {blocks out : List Block}

theorem ends_of_panicsUnchanged {call : ℕ → Run (Buffer Block) Unit} (h : ∀ fuel, PanicsUnchanged (call fuel) out) :
    Ends call out := by
  refine ⟨0, fun fuel _ s hs => ?_⟩
  obtain ⟨e, hpanic, hrun⟩ := h fuel
  obtain rfl : e = .outOfFuel := (EStateM.Result.error.inj (hrun.symm.trans hs)).1
  exact hpanic

theorem ends_of_returns {call : ℕ → Run (Buffer Block) Unit} (enough : ℕ)
    (h : ∀ fuel, enough ≤ fuel → ∃ out', (call fuel).run (.ofList out) = .ok () out') : Ends call out := by
  refine ⟨enough, fun fuel hfuel s hs => ?_⟩
  obtain ⟨out', hrun⟩ := h fuel hfuel
  cases hrun.symm.trans hs

theorem not_ends {call : ℕ → Run (Buffer Block) Unit}
    (h : ∀ fuel, (call fuel).run (.ofList out) = .error .outOfFuel (.ofList out)) : ¬ Ends call out :=
  fun ⟨enough, hends⟩ => hends enough le_rfl _ (h enough)

/-! ## Width zero -/

theorem Aesni.run_encryptCtrImpl_zero (hrk : 44 ≤ rk.length) (fuel : ℕ) (s : Buffer Block) :
    (Aesni.encryptCtrImpl fuel 0 rk counter0 blocks).run s = .error .outOfFuel s := by
  have hloop : (whileLoop (fun i => decide (i + 0 ≤ blocks.length)) (Aesni.group 0 (scheduleKeys rk) counter0 blocks)
      fuel 0).run s = .error .outOfFuel s := whileLoop_diverges (by simp) rfl fuel
  unfold Aesni.encryptCtrImpl
  rw [roundKeys_eq hrk, run_bind_ok (run_liftM_ok _ _)]
  exact run_bind_error hloop

theorem run_vaesLoop_zero {L : ℕ} (step : Wide L) (keys : Fin 11 → Wide L) (bswap : Wide L) (fuel : ℕ)
    (s : Buffer Block) :
    (whileLoop (fun x => decide (x.1 + 0 * L ≤ blocks.length)) (vaesGroup L 0 step keys bswap blocks) fuel
      (0, [])).run s = .error .outOfFuel s := by
  refine whileLoop_diverges (by simp) ?_ fuel
  unfold vaesGroup
  rw [Nat.zero_mul]
  rfl

/-- At width zero a turn of the wide loop changes nothing. -/
theorem WideKernel.run_wideLoop_zero (kernel : WideKernel) (keys : Fin 11 → M128) (fuel : ℕ) (s : Buffer Block) :
    (kernel.wideLoop fuel 0 keys counter0 blocks).run s = .error .outOfFuel s := by
  cases kernel with
  | pshufb =>
    have hloop : (whileLoop (fun x => decide (x.1 + 0 ≤ blocks.length)) (pshufbGroup 0 keys blocks) fuel
        (0, counterSeed counter0)).run s = .error .outOfFuel s := whileLoop_diverges (by simp) rfl fuel
    unfold wideLoop
    rw [EStateM.run_map, hloop]
    rfl
  | vaes256 =>
    unfold wideLoop
    rw [EStateM.run_map]
    exact congrArg _ (run_vaesLoop_zero _ _ _ fuel s)
  | vaes512 =>
    unfold wideLoop
    rw [EStateM.run_map]
    exact congrArg _ (run_vaesLoop_zero _ _ _ fuel s)

theorem WideKernel.run_impl_zero (kernel : WideKernel) (hrk : 44 ≤ rk.length) (fuel : ℕ) (counter0 : Block)
    (blocks : List Block) (s : Buffer Block) :
    (kernel.impl fuel 0 rk counter0 blocks).run s = .error .outOfFuel s := by
  rw [kernel.impl_eq, roundKeys_eq hrk, run_bind_ok (run_liftM_ok _ _)]
  exact run_bind_error (kernel.run_wideLoop_zero _ fuel s)

theorem WideKernel.chunk_zero (kernel : WideKernel) (threads n : ℕ) : kernel.chunk 0 threads n = .error .divideByZero := by
  unfold chunk parChunk
  rw [divCeil_eq (by omega), ok_bind, Nat.zero_mul]
  rfl

theorem Aesni.not_ends_zero {cpu : CpuFeatures} (hcpu : cpu.aes = true) (hrk : 44 ≤ rk.length) :
    ¬ Ends (fun fuel => Aesni.encryptCtr cpu fuel 0 rk counter0 blocks) out := by
  refine not_ends fun fuel => ?_
  unfold Aesni.encryptCtr
  rw [hcpu, run_bind_ok (run_assert_true _ _)]
  exact Aesni.run_encryptCtrImpl_zero hrk fuel _

theorem WideKernel.not_ends_zero (kernel : WideKernel) {cpu : CpuFeatures} (hcpu : kernel.supported cpu = true)
    (hlen : blocks.length = out.length) (hrk : 44 ≤ rk.length) :
    ¬ Ends (fun fuel => kernel.encryptCtr cpu fuel 0 rk counter0 blocks) out := by
  refine not_ends fun fuel => ?_
  rw [← kernel.run_impl_zero hrk fuel counter0 blocks (.ofList out)]
  cases kernel <;> exact run_checked hcpu hlen _ _ _ 0

/-- A multi-core wrapper does not get as far as its kernel: rounding up to a multiple of zero panics. -/
theorem WideKernel.encryptCtrParallel_zero (kernel : WideKernel) {cpu : CpuFeatures}
    (hcpu : kernel.supported cpu = true) (hlen : blocks.length = out.length) (hn : blocks.length ≠ 0)
    (fuel threads : ℕ) (order : List ℕ) :
    PanicsUnchanged (kernel.encryptCtrParallel cpu fuel 0 threads order rk counter0 blocks) out := by
  refine ⟨.divideByZero, trivial, ?_⟩
  refine (kernel.run_encryptCtrParallel_chunk hcpu hlen hn fuel 0 threads order 0).trans ?_
  rw [kernel.chunk_zero]
  exact run_bind_error (run_liftM_error _ _)

/-! ## The other widths -/

theorem Aesni.ends_iff {cpu : CpuFeatures} (hcpu : cpu.aes = true) (W : ℕ) (hlen : blocks.length = out.length) :
    Ends (fun fuel => Aesni.encryptCtr cpu fuel W rk counter0 blocks) out ↔ 1 ≤ W ∨ rk.length < 44 := by
  rcases Nat.lt_or_ge rk.length 44 with hrk | hrk
  · exact iff_of_true (ends_of_panicsUnchanged fun fuel => Aesni.panicsUnchanged_short hcpu hrk fuel W) (Or.inr hrk)
  rcases Nat.eq_zero_or_pos W with rfl | hW
  · exact iff_of_false (Aesni.not_ends_zero hcpu hrk) (by omega)
  · exact iff_of_true (ends_of_returns (blocks.length + 1) fun fuel hfuel =>
      ⟨_, Aesni.run_encryptCtr hcpu hrk hW hlen.le hfuel⟩) (Or.inl hW)

theorem WideKernel.ends_iff (kernel : WideKernel) {cpu : CpuFeatures} (hcpu : kernel.supported cpu = true) (W : ℕ)
    (hlen : blocks.length = out.length) :
    Ends (fun fuel => kernel.encryptCtr cpu fuel W rk counter0 blocks) out ↔ 1 ≤ W ∨ rk.length < 44 := by
  rcases Nat.lt_or_ge rk.length 44 with hrk | hrk
  · exact iff_of_true (ends_of_panicsUnchanged fun fuel => kernel.encryptCtr_short hcpu hlen hrk fuel W) (Or.inr hrk)
  rcases Nat.eq_zero_or_pos W with rfl | hW
  · exact iff_of_false (kernel.not_ends_zero hcpu hlen hrk) (by omega)
  · exact iff_of_true (ends_of_returns (blocks.length + 1) fun fuel hfuel =>
      ⟨_, kernel.run_encryptCtr hcpu hrk hW hlen hfuel⟩) (Or.inl hW)

theorem WideKernel.chunk_ok_iff (kernel : WideKernel) (W threads : ℕ) {n : ℕ} (hn : 1 ≤ n) :
    (∃ size, kernel.chunk W threads n = .ok size) ↔ 1 ≤ W := by
  refine ⟨?_, fun hW => ?_⟩
  · rintro ⟨size, hok⟩
    by_contra hzero
    obtain rfl : W = 0 := by omega
    cases (kernel.chunk_zero threads n).symm.trans hok
  · obtain ⟨size, hok, -⟩ := kernel.chunk_ok threads hW (Nat.one_le_iff_ne_zero.mp hn)
    exact ⟨size, hok⟩

/-! ## The guards in `usize` -/

/-- An array of `W` registers of `lanes` blocks, of 16 bytes each, is no larger than a type may be. -/
def Instantiable (lanes W : ℕ) : Prop := 16 * (W * lanes) < 2 ^ 63

/-- The heads of the main loop of `encrypt_ctr_impl`: its variable `i`, and `out`. -/
def Aesni.Head (W : ℕ) (keys : Fin 11 → M128) (counter0 : Block) (blocks out : List Block) : ℕ → Buffer Block → Prop :=
  LoopHead (fun i => decide (i + W ≤ blocks.length)) (Aesni.group W keys counter0 blocks) 0 (.ofList out)

/-- A loop that adds `G` to its index while there is room for it stays below the bound. -/
theorem head_le {β : Type} {G n : ℕ} (idx : β → ℕ) {body : β → Run (Buffer Block) β}
    (hbody : ∀ b b' s s', (body b).run s = .ok b' s' → idx b' = idx b + G) {b₀ b : β} {s₀ s : Buffer Block}
    (h₀ : idx b₀ ≤ n) (h : LoopHead (fun x => decide (idx x + G ≤ n)) body b₀ s₀ b s) : idx b ≤ n := by
  refine LoopHead.inv (fun b _ => idx b ≤ n) h₀ (fun b b' s s' _ hguard hrun => ?_) h
  rw [hbody b b' s s' hrun]
  exact of_decide_eq_true hguard

theorem Aesni.head_le {W : ℕ} {keys : Fin 11 → M128} {i : ℕ} {s : Buffer Block}
    (h : Aesni.Head W keys counter0 blocks out i s) : i ≤ blocks.length := by
  refine CudaAes.head_le id (fun i i' s s' hrun => ?_) (Nat.zero_le _) h
  unfold Aesni.group at hrun
  obtain ⟨_, _, -, hret⟩ := run_bind_eq_ok hrun
  exact (EStateM.Result.ok.inj hret).1.symm

theorem pshufbGroup_idx {W : ℕ} {keys : Fin 11 → M128} {x x' : ℕ × M128} {s s' : Buffer Block}
    (h : (pshufbGroup W keys blocks x).run s = .ok x' s') : x'.1 = x.1 + W := by
  unfold pshufbGroup at h
  obtain ⟨_, _, -, hret⟩ := run_bind_eq_ok h
  exact (congrArg Prod.fst (EStateM.Result.ok.inj hret).1).symm

theorem vaesGroup_idx {L W : ℕ} {step : Wide L} {keys : Fin 11 → Wide L} {bswap : Wide L} {x x' : ℕ × List (Wide L)}
    {s s' : Buffer Block} (h : (vaesGroup L W step keys bswap blocks x).run s = .ok x' s') : x'.1 = x.1 + W * L := by
  unfold vaesGroup at h
  obtain ⟨_, _, -, hret⟩ := run_bind_eq_ok h
  exact (congrArg Prod.fst (EStateM.Result.ok.inj hret).1).symm

theorem WideKernel.head_le (kernel : WideKernel) {W : ℕ} {keys : Fin 11 → M128} {i : ℕ} {s : Buffer Block}
    (h : kernel.Head W keys counter0 blocks out i s) : i ≤ blocks.length := by
  cases kernel with
  | pshufb =>
    obtain ⟨ctr, h⟩ := h
    exact CudaAes.head_le Prod.fst (fun x x' s s' => pshufbGroup_idx) (Nat.zero_le _) h
  | vaes256 =>
    obtain ⟨ctr, h⟩ := h
    exact CudaAes.head_le Prod.fst (fun x x' s s' => vaesGroup_idx) (Nat.zero_le _) h
  | vaes512 =>
    obtain ⟨ctr, h⟩ := h
    exact CudaAes.head_le Prod.fst (fun x x' s s' => vaesGroup_idx) (Nat.zero_le _) h

/-! ## Every width -/

/-- **Which widths terminate**: with slices of equal length the loops of a kernel end if and only if the
width is positive, or the schedule so short that the kernel panics before them; and the chunk size of a
multi-core wrapper is computed without a panic if and only if the width is positive. At width zero the
wrapper panics with `out` unchanged. Where the register arrays can be instantiated, neither a guard nor a
chunk size exceeds `usize`. -/
theorem width_terminates_iff (cpu : CpuFeatures) (W : ℕ) (rk : List U32) (counter0 : Block) (blocks out : List Block)
    (hlen : blocks.length = out.length) :
    (cpu.aes = true →
      (Ends (fun fuel => Aesni.encryptCtr cpu fuel W rk counter0 blocks) out ↔ 1 ≤ W ∨ rk.length < 44)) ∧
    (∀ kernel : WideKernel, kernel.supported cpu = true →
      (Ends (fun fuel => kernel.encryptCtr cpu fuel W rk counter0 blocks) out ↔ 1 ≤ W ∨ rk.length < 44) ∧
      (∀ threads n, 1 ≤ n → ((∃ size, kernel.chunk W threads n = .ok size) ↔ 1 ≤ W)) ∧
      (W = 0 → 1 ≤ blocks.length → ∀ fuel threads order,
        PanicsUnchanged (kernel.encryptCtrParallel cpu fuel W threads order rk counter0 blocks) out)) ∧
    (16 * blocks.length < 2 ^ 63 →
      (Instantiable 1 W → ∀ keys i s, Aesni.Head W keys counter0 blocks out i s → i + W < 2 ^ 64) ∧
      ∀ kernel : WideKernel, Instantiable kernel.lanes W →
        (∀ keys i s, kernel.Head W keys counter0 blocks out i s → i + W * kernel.lanes < 2 ^ 64) ∧
        ∀ threads size, 1 ≤ blocks.length → kernel.chunk W threads blocks.length = .ok size → size < 2 ^ 64) := by
  refine ⟨fun hcpu => Aesni.ends_iff hcpu W hlen, fun kernel hcpu => ⟨kernel.ends_iff hcpu W hlen,
    fun threads n hn => kernel.chunk_ok_iff W threads hn, ?_⟩, fun hn => ⟨fun hW keys i s hhead => ?_,
    fun kernel hW => ⟨fun keys i s hhead => ?_, fun threads size hne hok => ?_⟩⟩⟩
  · rintro rfl hne fuel threads order
    exact kernel.encryptCtrParallel_zero hcpu hlen (Nat.one_le_iff_ne_zero.mp hne) fuel threads order
  · have hi := Aesni.head_le hhead
    unfold Instantiable at hW
    omega
  · have hi := kernel.head_le hhead
    unfold Instantiable at hW
    omega
  · have hpos : 1 ≤ W := (kernel.chunk_ok_iff W threads hne).mp ⟨size, hok⟩
    obtain ⟨size', hok', -, hlt⟩ := kernel.chunk_ok threads hpos (Nat.one_le_iff_ne_zero.mp hne)
    obtain rfl : size' = size := Except.ok.inj (hok'.symm.trans hok)
    unfold Instantiable at hW
    omega

theorem width_terminates_iff_three :
    Ends (fun fuel => Aesni.encryptCtr ⟨true, true, true, true, true, true⟩ fuel 3 (List.replicate 44 0) default
      [default]) [default] ∧ ∃ size, WideKernel.vaes512.chunk 3 2 7 = .ok size := by
  obtain ⟨haesni, hwide, -⟩ := width_terminates_iff ⟨true, true, true, true, true, true⟩ 3 (List.replicate 44 0) default
    [default] [default] rfl
  exact ⟨(haesni rfl).mpr (Or.inl (by decide)), ((hwide .vaes512 rfl).2.1 2 7 (by decide)).mpr (by decide)⟩

/-- Width zero on an empty message: no kernel ends, and no wrapper finds a chunk size for one block. -/
theorem width_zero_loops :
    ¬ Ends (fun fuel => Aesni.encryptCtr ⟨true, true, true, true, true, true⟩ fuel 0 (List.replicate 44 0) default [])
      [] ∧
    ∀ kernel : WideKernel,
      ¬ Ends (fun fuel => kernel.encryptCtr ⟨true, true, true, true, true, true⟩ fuel 0 (List.replicate 44 0) default [])
        [] ∧ kernel.chunk 0 1 1 = .error .divideByZero := by
  refine ⟨Aesni.not_ends_zero rfl (by decide), fun kernel => ⟨kernel.not_ends_zero ?_ rfl (by decide),
    kernel.chunk_zero 1 1⟩⟩
  cases kernel <;> rfl

end CudaAes
