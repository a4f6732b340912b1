import CudaAes.Bench.Variants
import CudaAes.Cpu.Panics
import CudaAes.Gpu.HostSpec

/-!
# What the registries offer

A CPU variant whose features the CPU has agrees with the scalar backend on every message, and any other
refuses every call (`Aes.Settles`). The guards of `cpu_variants` are not the checks of the wrappers, so
`cpuVariants_agree_iff` says on which CPUs every variant that is listed works. The GPU variant agrees with
the scalar backend on the messages of less than `2 ^ 32` blocks (`gpu_agreesOn`).
-/

namespace CudaAes

open Rust

/-- On messages of `n` blocks the variant leaves what the scalar backend leaves. -/
def Aes.AgreesOn (v : Aes) (n : ℕ) : Prop :=
  ∀ (rk : List U32) (counter0 : Block) (blocks out : List Block), 44 ≤ rk.length → blocks.length = n → out.length = n →
    ∃ ref, (Scalar.encryptCtr rk counter0 blocks).run (.ofList out) = .ok () ref ∧
      (v.encryptCtr rk counter0 blocks).run out = .ok () ref.data

/-- The variant panics on every call, and leaves `out` as it was. -/
def Aes.Refuses (v : Aes) : Prop :=
  ∀ (rk : List U32) (counter0 : Block) (blocks out : List Block),
    ∃ e, e.IsPanic ∧ (v.encryptCtr rk counter0 blocks).run out = .error e out

/-- The variant works if `ok` holds, and does nothing if it does not. -/
structure Aes.Settles (v : Aes) (ok : Bool) : Prop where
  agrees : ok = true → ∀ n, v.AgreesOn n
  refuses : ok = false → v.Refuses

theorem Aes.Refuses.not_agreesOn {v : Aes} (h : v.Refuses) (n : ℕ) : ¬ v.AgreesOn n := by
  intro hagree
  obtain ⟨ref, -, hok⟩ := hagree (List.replicate 44 0) default (List.replicate n default) (List.replicate n default)
    (List.length_replicate).ge List.length_replicate List.length_replicate
  obtain ⟨e, -, herror⟩ := h (List.replicate 44 0) default (List.replicate n default) (List.replicate n default)
  cases hok.symm.trans herror

theorem Aes.Settles.agreesOn_iff {v : Aes} {ok : Bool} (h : v.Settles ok) (n : ℕ) : v.AgreesOn n ↔ ok = true := by
  refine ⟨fun hagree => ?_, fun hok => h.agrees hok n⟩
  by_contra hok
  exact (h.refuses (Bool.not_eq_true ok ▸ hok)).not_agreesOn n hagree

theorem Aes.AgreesOn.run {v : Aes} {rk : List U32} {counter0 : Block} {blocks out : List Block}
    (h : v.AgreesOn blocks.length) (hrk : 44 ≤ rk.length) (hout : out.length = blocks.length) :
    (v.encryptCtr rk counter0 blocks).run out = .ok () (ctrText rk counter0 blocks) := by
  obtain ⟨ref, hscalar, hrun⟩ := h rk counter0 blocks out hrk rfl hout
  obtain ⟨ref', hscalar', hdata⟩ := Scalar.run_encryptCtr_data hrk counter0 hout.symm
  obtain rfl : ref = ref' := (EStateM.Result.ok.inj (hscalar.symm.trans hscalar')).2
  rw [hrun, hdata]

/-! ## One CPU variant -/

section
variable {α β : Type} {x : Run (Buffer α) β} {out : List α} {out' : Buffer α}

theorem run_callOnSlice_ok {b : β} (h : x.run (.ofList out) = .ok b out') : (callOnSlice x).run out = .ok b out'.data := by
  show callOnSlice x out = _
  unfold callOnSlice
  rw [h]

theorem run_callOnSlice_error {e : Fault} (h : x.run (.ofList out) = .error e out') :
    (callOnSlice x).run out = .error e out'.data := by
  show callOnSlice x out = _
  unfold callOnSlice
  rw [h]

end

theorem run_callOnSlice_encrypt {b : Backend} {cpu : CpuFeatures} {fuel : ℕ} {rk : List U32} {counter0 : Block}
    {blocks out ct : List Block} (h : b.encrypt cpu fuel rk counter0 blocks out = .ok ct) :
    (callOnSlice (b.encryptCtr cpu fuel rk counter0 blocks)).run out = .ok () ct := by
  unfold Backend.encrypt at h
  cases hrun : (b.encryptCtr cpu fuel rk counter0 blocks).run (.ofList out) with
  | ok u out' =>
    rw [hrun] at h
    rw [run_callOnSlice_ok hrun, Except.ok.inj h]
  | error e out' =>
    rw [hrun] at h
    cases h

theorem run_callOnSlice_panics {x : Run (Buffer Block) Unit} {out : List Block} (h : PanicsUnchanged x out) :
    ∃ e, e.IsPanic ∧ (callOnSlice x).run out = .error e out := by
  obtain ⟨e, hpanic, hrun⟩ := h
  exact ⟨e, hpanic, run_callOnSlice_error hrun⟩

/-- What the wrapper of a backend checks first. -/
def Backend.supported (cpu : CpuFeatures) : Backend → Bool
  | scalar => true
  | aesni _ => cpu.aes
  | wide kernel _ => kernel.supported cpu
  | parallel kernel _ _ _ => kernel.supported cpu

theorem panicsUnchanged_assert {ok : Bool} (h : ok = false) (missing : String) (x : Run (Buffer Block) Unit)
    (out : List Block) : PanicsUnchanged (do assert ok missing; x) out := by
  subst h
  exact ⟨.assertion missing, trivial, rfl⟩

theorem Backend.refuses {b : Backend} {cpu : CpuFeatures} (h : b.supported cpu = false) (fuel : ℕ) (rk : List U32)
    (counter0 : Block) (blocks out : List Block) : PanicsUnchanged (b.encryptCtr cpu fuel rk counter0 blocks) out := by
  cases b with
  | scalar => cases h
  | aesni W => exact panicsUnchanged_assert h _ _ out
  | wide kernel W => cases kernel <;> exact panicsUnchanged_assert h _ _ out
  | parallel kernel W threads order => cases kernel <;> exact panicsUnchanged_assert h _ _ out

section
variable (machine : Machine) (name : String)

theorem cpuVariant_settles {backend : ℕ → Backend} {ok : Bool}
    (hvalid : ∀ n, ok = true → (backend n).Valid machine.cpu n)
    (hsupported : ∀ n, (backend n).supported machine.cpu = ok) : (cpuVariant machine name backend).Settles ok where
  agrees hok n rk counter0 blocks out hrk hblocks hout := by
    have hlen : blocks.length = out.length := hblocks.trans hout.symm
    obtain ⟨ref, hscalar, hdata⟩ := Scalar.run_encryptCtr_data hrk counter0 hlen
    refine ⟨ref, hscalar, ?_⟩
    rw [hdata]
    exact run_callOnSlice_encrypt (Backend.encrypt_eq hrk (hvalid _ hok) hlen (Nat.lt_succ_self _))
  refuses hok rk counter0 blocks out :=
    run_callOnSlice_panics (Backend.refuses ((hsupported _).trans hok) _ rk counter0 blocks out)

theorem settles_scalar : (cpuVariant machine name fun _ => .scalar).Settles true :=
  cpuVariant_settles machine name (fun _ _ => trivial) fun _ => rfl

variable {W : ℕ} (hW : 1 ≤ W)
include hW

theorem settles_aesni : (cpuVariant machine name fun _ => .aesni W).Settles machine.cpu.aes :=
  cpuVariant_settles machine name (fun _ hok => ⟨hok, hW⟩) fun _ => rfl

theorem settles_wide (kernel : WideKernel) :
    (cpuVariant machine name fun _ => .wide kernel W).Settles (kernel.supported machine.cpu) :=
  cpuVariant_settles machine name (fun _ hok => ⟨hok, hW⟩) fun _ => rfl

theorem settles_parallel (kernel : WideKernel) :
    (parallelVariant machine name kernel W).Settles (kernel.supported machine.cpu) := by
  refine cpuVariant_settles machine name (fun n hok => ⟨hok, hW, fun size hsize => ?_⟩) fun _ => rfl
  unfold Machine.order
  rw [hsize]
  exact machine.schedule_perm _

end

/-! ## The CPU registry -/

/-- The features of a CPU imply those that the wrappers check beyond the guards of the registry. -/
def CpuFeatures.Coherent (cpu : CpuFeatures) : Prop :=
  (cpu.aes = true → cpu.ssse3 = true) ∧
  (cpu.vaes = true → cpu.avx2 = true → cpu.aes = true) ∧
  (cpu.vaes = true → cpu.avx512f = true → cpu.avx512bw = true → cpu.aes = true)

/-- The variants that are listed, each with its guard and with the check of its wrapper. -/
theorem cpuVariants_cases (machine : Machine) {v : Aes} (hv : v ∈ cpuVariants machine) :
    v.Settles true ∨
    (machine.cpu.aes = true ∧ v.Settles (WideKernel.pshufb.supported machine.cpu)) ∨
    (machine.cpu.vaes = true ∧ machine.cpu.avx2 = true ∧ v.Settles (WideKernel.vaes256.supported machine.cpu)) ∨
    (machine.cpu.vaes = true ∧ machine.cpu.avx512f = true ∧ machine.cpu.avx512bw = true ∧
      v.Settles (WideKernel.vaes512.supported machine.cpu)) := by
  have hW : 1 ≤ 8 := by omega
  simp only [cpuVariants, List.mem_append, List.mem_ite_nil_right, List.mem_cons, List.not_mem_nil, or_false,
    Bool.and_eq_true] at hv
  rcases hv with ((rfl | ⟨haes, rfl | rfl | rfl | rfl⟩) | ⟨⟨hvaes, havx2⟩, rfl | rfl⟩) | ⟨⟨⟨hvaes, hf⟩, hbw⟩, rfl | rfl⟩
  · exact Or.inl (settles_scalar machine _)
  · exact Or.inl (haes ▸ settles_aesni machine _ le_rfl)
  · exact Or.inl (haes ▸ settles_aesni machine _ hW)
  · exact Or.inr (Or.inl ⟨haes, settles_wide machine _ hW .pshufb⟩)
  · exact Or.inr (Or.inl ⟨haes, settles_parallel machine _ hW .pshufb⟩)
  · exact Or.inr (Or.inr (Or.inl ⟨hvaes, havx2, settles_wide machine _ hW .vaes256⟩))
  · exact Or.inr (Or.inr (Or.inl ⟨hvaes, havx2, settles_parallel machine _ hW .vaes256⟩))
  · exact Or.inr (Or.inr (Or.inr ⟨hvaes, hf, hbw, settles_wide machine _ hW .vaes512⟩))
  · exact Or.inr (Or.inr (Or.inr ⟨hvaes, hf, hbw, settles_parallel machine _ hW .vaes512⟩))

theorem cpuVariants_settle (machine : Machine) {v : Aes} (hv : v ∈ cpuVariants machine) : ∃ ok, v.Settles ok := by
  rcases cpuVariants_cases machine hv with h | ⟨-, h⟩ | ⟨-, -, h⟩ | ⟨-, -, -, h⟩
  · exact ⟨_, h⟩
  · exact ⟨_, h⟩
  · exact ⟨_, h⟩
  · exact ⟨_, h⟩

theorem agreesOn_of_coherent {machine : Machine} (hcpu : machine.cpu.Coherent) {v : Aes} (hv : v ∈ cpuVariants machine)
    (n : ℕ) : v.AgreesOn n := by
  obtain ⟨hssse3, haes256, haes512⟩ := hcpu
  rcases cpuVariants_cases machine hv with h | ⟨haes, h⟩ | ⟨hvaes, havx2, h⟩ | ⟨hvaes, hf, hbw, h⟩
  · exact h.agrees rfl n
  · refine h.agrees ?_ n
    rw [WideKernel.supported, haes, hssse3 haes]
    rfl
  · refine h.agrees ?_ n
    rw [WideKernel.supported, haes256 hvaes havx2, hvaes, havx2]
    rfl
  · refine h.agrees ?_ n
    rw [WideKernel.supported, haes512 hvaes hf hbw, hvaes, hf, hbw]
    rfl

theorem coherent_of_agreesOn {machine : Machine} {n : ℕ} (h : ∀ v ∈ cpuVariants machine, v.AgreesOn n) :
    machine.cpu.Coherent := by
  have hW : 1 ≤ 8 := by omega
  refine ⟨fun haes => ?_, fun hvaes havx2 => ?_, fun hvaes hf hbw => ?_⟩
  · have hv : cpuAesNiX8Pshufb machine ∈ cpuVariants machine := by simp [cpuVariants, haes]
    have hok := ((settles_wide machine _ hW .pshufb).agreesOn_iff n).mp (h _ hv)
    exact (Bool.and_eq_true_iff.mp hok).2
  · have hv : cpuVaes256X8Pshufb machine ∈ cpuVariants machine := by simp [cpuVariants, hvaes, havx2]
    have hok := ((settles_wide machine _ hW .vaes256).agreesOn_iff n).mp (h _ hv)
    exact (Bool.and_eq_true_iff.mp (Bool.and_eq_true_iff.mp hok).1).1
  · have hv : cpuVaes512X8Pshufb machine ∈ cpuVariants machine := by simp [cpuVariants, hvaes, hf, hbw]
    have hok := ((settles_wide machine _ hW .vaes512).agreesOn_iff n).mp (h _ hv)
    exact (Bool.and_eq_true_iff.mp (Bool.and_eq_true_iff.mp (Bool.and_eq_true_iff.mp hok).1).1).1

/-- **The CPU registry.** Each variant it lists agrees with the scalar backend on all messages or refuses
all calls, and all of them agree if and only if the CPU does not report `aes` without `ssse3`, nor `vaes` with
the vector features of a VAES guard without `aes`. -/
theorem cpuVariants_agree_iff (machine : Machine) :
    (∀ v ∈ cpuVariants machine, (∀ n, v.AgreesOn n) ∨ v.Refuses) ∧
    ((∀ v ∈ cpuVariants machine, ∀ n, v.AgreesOn n) ↔ machine.cpu.Coherent) := by
  refine ⟨fun v hv => ?_, fun hall => coherent_of_agreesOn fun v hv => hall v hv 0,
    fun hcpu v hv => agreesOn_of_coherent hcpu hv⟩
  obtain ⟨ok, h⟩ := cpuVariants_settle machine hv
  cases ok with
  | true => exact Or.inl (h.agrees rfl)
  | false => exact Or.inr (h.refuses rfl)

/-! ## The GPU variant -/

theorem gpu_agreesOn (machine : Machine) {n : ℕ} (hn : n < 2 ^ 32) : (gpuGlobalPageable machine).AgreesOn n := by
  rintro rk counter0 blocks out hrk rfl hout
  obtain ⟨ref, hscalar, hdata⟩ := Scalar.run_encryptCtr_data hrk counter0 hout.symm
  refine ⟨ref, hscalar, ?_⟩
  have hlanded : ∀ grid, launchGrid blocks.length (max 1 1) = .ok grid → (machine.launchStores rk counter0 blocks).Perm
      (gridStores (kernelArgs rk counter0 blocks (max 1 1)) (grid * BLOCK)) := by
    intro grid hgrid
    have hgrid : launchGrid blocks.length 1 = .ok grid := hgrid
    unfold Machine.launchStores
    rw [hgrid]
    exact machine.landing_perm _
  have hcall := AesGpu.run_encryptCtr_ctrText hrk hn hout (by decide) hlanded
  rw [← hdata] at hcall
  unfold gpuGlobalPageable
  rw [run_bind_ok hcall]
  rfl

end CudaAes
