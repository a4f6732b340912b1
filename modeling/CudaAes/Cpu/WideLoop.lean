import CudaAes.Cpu.ParallelSpec

/-!
# The wide loop and the scalar tail

A SIMD kernel is a wide loop, whose loads and stores are raw, and a scalar tail that takes the blocks
left over (`WideKernel.impl_eq`). The loop stops before the last incomplete group, and at each of its
heads the blocks before it are stored (`WideKernel.run_wideLoop`, `WideKernel.head_stores`).
-/

namespace CudaAes

open Rust Fips197

namespace WideKernel

/-- The wide loop of a kernel, with the index at which it hands over. -/
def wideLoop (fuel W : ℕ) (keys : Fin 11 → M128) (counter0 : Block) (blocks : List Block) :
    WideKernel → Run (Buffer Block) ℕ
  | pshufb => Prod.fst <$> whileLoop (fun x => decide (x.1 + W ≤ blocks.length)) (pshufbGroup W keys blocks) fuel
      (0, counterSeed counter0)
  | vaes256 => Prod.fst <$> whileLoop (fun x => decide (x.1 + W * 2 ≤ blocks.length))
      (vaesGroup 2 W (step256 W) (fun r => Wide.broadcast (keys r)) (Wide.broadcast bswapMask) blocks) fuel
      (0, vaesCounters 2 W off256 counter0)
  | vaes512 => Prod.fst <$> whileLoop (fun x => decide (x.1 + W * 4 ≤ blocks.length))
      (vaesGroup 4 W (step512 W) (fun r => Wide.broadcast (keys r)) (Wide.broadcast bswapMask) blocks) fuel
      (0, vaesCounters 4 W off512 counter0)

/-- The heads of the wide loop: its variable `i`, and `out`. -/
def Head (W : ℕ) (keys : Fin 11 → M128) (counter0 : Block) (blocks out : List Block) :
    WideKernel → ℕ → Buffer Block → Prop
  | pshufb, i, s => ∃ ctr, PshufbHead W keys counter0 blocks out (i, ctr) s
  | vaes256, i, s => ∃ ctr, VaesHead 2 off256 (step256 W) W keys counter0 blocks out (i, ctr) s
  | vaes512, i, s => ∃ ctr, VaesHead 4 off512 (step512 W) W keys counter0 blocks out (i, ctr) s

/-- Every kernel is its wide loop and the scalar tail. -/
theorem impl_eq (kernel : WideKernel) (fuel W : ℕ) (rk : List U32) (counter0 : Block) (blocks : List Block) :
    kernel.impl fuel W rk counter0 blocks = (do
      let keys ← roundKeys rk
      let i ← kernel.wideLoop fuel W keys counter0 blocks
      discard (remainder keys counter0 blocks fuel i)) := by
  cases kernel <;> simp only [wideLoop, bind_map_left] <;> rfl

end WideKernel

variable {rk : List U32} {counter0 : Block} {blocks out : List Block}

theorem WideKernel.run_wideLoop (kernel : WideKernel) {W : ℕ} (hW : 1 ≤ W) (hlen : blocks.length ≤ out.length)
    {fuel : ℕ} (hfuel : blocks.length < fuel) :
    (kernel.wideLoop fuel W (scheduleKeys rk) counter0 blocks).run (.ofList out) =
      .ok (blocks.length - blocks.length % (W * kernel.lanes)) (.stored (ctrBlock rk counter0 blocks) out
        (List.range (blocks.length - blocks.length % (W * kernel.lanes)))) := by
  cases kernel with
  | pshufb =>
    unfold lanes
    rw [Nat.mul_one]
    exact run_map_ok ((run_pshufbLoop rk counter0 hlen hW 0).1 fuel hfuel)
  | vaes256 =>
    exact run_map_ok ((run_vaesLoop rk counter0 (by decide) hW off256_lane (step256_lane W) hlen 0).1 fuel hfuel)
  | vaes512 =>
    exact run_map_ok ((run_vaesLoop rk counter0 (by decide) hW off512_lane (step512_lane W) hlen 0).1 fuel hfuel)

theorem WideKernel.head_stores (kernel : WideKernel) {W : ℕ} (hW : 1 ≤ W) (hlen : blocks.length ≤ out.length) {i : ℕ}
    {s : Buffer Block} (h : kernel.Head W (scheduleKeys rk) counter0 blocks out i s) :
    i ≤ blocks.length ∧ W * kernel.lanes ∣ i ∧ s = .stored (ctrBlock rk counter0 blocks) out (List.range i) := by
  cases kernel with
  | pshufb =>
    obtain ⟨ctr, h⟩ := h
    obtain ⟨k, hk, hx, rfl⟩ := (run_pshufbLoop rk counter0 hlen hW 0).2 _ _ h
    obtain ⟨rfl, rfl⟩ := Prod.mk.inj hx
    unfold lanes
    rw [Nat.mul_one]
    exact ⟨hk, Nat.dvd_mul_left W k, rfl⟩
  | vaes256 =>
    obtain ⟨ctr, h⟩ := h
    obtain ⟨k, hk, hx, rfl⟩ := (run_vaesLoop rk counter0 (by decide) hW off256_lane (step256_lane W) hlen 0).2 _ _ h
    obtain ⟨rfl, rfl⟩ := Prod.mk.inj hx
    exact ⟨hk, Nat.dvd_mul_left _ k, rfl⟩
  | vaes512 =>
    obtain ⟨ctr, h⟩ := h
    obtain ⟨k, hk, hx, rfl⟩ := (run_vaesLoop rk counter0 (by decide) hW off512_lane (step512_lane W) hlen 0).2 _ _ h
    obtain ⟨rfl, rfl⟩ := Prod.mk.inj hx
    exact ⟨hk, Nat.dvd_mul_left _ k, rfl⟩

end CudaAes
