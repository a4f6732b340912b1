import CudaAes.Bench.Measurement
import CudaAes.Bench.Registry
import CudaAes.Cpu.Keystream

/-!
# The throughput benchmark (`benches/lib.rs`, `benches/throughput.rs`)

`benches` runs every variant of the registries in the batches that the harness asks for, all on one `out`.
It needs CUDA if it is built for the GPU, a cycle counter if it is built to read one, and variants that work;
it exits if the hardware counter cannot be read, and panics in every other case in which something is missing
(`benchThroughput_run`). `out` ends up as the ciphertext of the shared workload, whose blocks differ although
the plaintext blocks are identical (`nodup_ctrText_replicate`). The calls of a machine with CUDA succeed once
it is initialized, and the device operations of a call take effect in program order.
-/

namespace CudaAes

open Rust Fips197

/-! ## The workload -/

/-- The default workload size, in 16-byte blocks. -/
def N_BLOCKS : ℕ := 2 ^ 16

def demoRoundKeys : Except Fault (Vector U32 44) := keyExpansion ⟨0x2B7E1516, 0x28AED2A6, 0xABF71588, 0x09CF4F3C⟩

def demoCounter0 : Block := ⟨0xF0F1F2F3, 0xF4F5F6F7, 0xF8F9FAFB, 0xFCFDFEFF⟩

def demoBlock : Block := ⟨0x3243F6A8, 0x885A308D, 0x313198A2, 0xE0370734⟩

def demoBlocks (n : ℕ) : List Block := List.replicate n demoBlock

/-! ## The benchmark -/

/-- The features that the benchmark is built with. -/
structure Features where
  gpu : Bool
  perf : Bool
  aperf : Bool
  deriving DecidableEq, Repr

/-- The variants that are measured; a cycle counter cannot see the workers of the parallel ones. -/
def benchVariants (features : Features) (machine : Machine) : Except Fault (List Aes) := do
  let mut variants := cpuVariants machine
  if features.gpu then
    variants := variants ++ (← gpuVariants machine)
  if features.perf || features.aperf then
    variants := variants.filter fun v => !v.name.endsWith "-parallel"
  return variants

/-- The measurement that the features select: `aperf` wins if both are on. -/
def Features.measurement (features : Features) : Measurement :=
  if features.aperf then .aperf else if features.perf then .perf else .wallTime

/-- `std::process::exit`, after a text on the standard error. -/
structure Exit where
  status : ℕ
  message : String
  deriving DecidableEq, Repr

def hint : ErrorKind → String
  | .permissionDenied => "kernel.perf_event_paranoid is too high — try `sudo sysctl kernel.perf_event_paranoid=1`."
  | .other => "this host exposes no hardware PMU (common on cloud VMs, incl. Azure general-compute — `perf stat` " ++
      "shows `cycles` as <not supported>). Run on a host with a vPMU, or drop `--features perf` for the wall-clock " ++
      "bench and derive cyc/byte from a verified clock."

def unavailable (e : IoError) : Exit where
  status := 1
  message := "\naes-bench --features perf: can't read hardware counters: " ++ e.text ++ "\n" ++ hint e.kind ++ "\n"

section
variable (features : Features) (host : BenchHost) (samples : String → List ℕ)

/-- The first lines of `bench_throughput`, which end the process if there is no hardware counter to read. -/
def failFast : Measurement → Fallible BenchState Exit Unit
  | .perf => (checkAvailable host).adapt unavailable
  | _ => return ()

/-- A call on the `out` of the benchmark. -/
def onOut (x : Run (List Block) Unit) : Run BenchState Unit := fun s =>
  match x.run s.out with
  | .ok _ out => .ok () { s with out }
  | .error e out => .error e { s with out }

/-- `group.bench_function` for each variant, in batches of the sizes `samples`. -/
def benchGroup (measurement : Measurement) (rk : List U32) (counter0 : Block) (blocks : List Block)
    (variants : List Aes) : Run BenchState Unit :=
  forM variants fun v => forM (samples v.name) fun n =>
    measurement.iter host n (onOut (v.encryptCtr rk counter0 blocks))

/-- `bench_throughput` -/
def benchThroughput : Fallible BenchState Exit Unit := do
  failFast host features.measurement
  let rk ← liftM (liftM demoRoundKeys : Run BenchState (Vector U32 44))
  let variants ← liftM (liftM (benchVariants features host.toMachine) : Run BenchState (List Aes))
  liftM (modify fun s => { s with out := List.replicate N_BLOCKS ⟨0, 0, 0, 0⟩ } : Run BenchState Unit)
  liftM (benchGroup host samples features.measurement rk.toList demoCounter0 (demoBlocks N_BLOCKS) variants)

/-- The group `benches`, which makes the measurement first. -/
def benches : Fallible BenchState Exit Unit := do
  liftM (features.measurement.new host)
  benchThroughput features host samples

end

/-! ## Identical blocks -/

theorem xorBlock_injective (b : Block) : Function.Injective (xorBlock b) := by
  intro k k' h
  rw [← xorBlock_cancel_left b k, h, xorBlock_cancel_left]

/-- **Identical plaintext blocks** have distinct ciphertext blocks as long as there are at most `2 ^ 32`. -/
theorem nodup_ctrText_replicate (rk : List U32) (counter0 b : Block) (n : ℕ) :
    (ctrText rk counter0 (List.replicate n b)).Nodup ↔ n ≤ 2 ^ 32 := by
  unfold ctrText
  rw [StreamCipher.nodup_apply_replicate _ (xorBlock_injective b)]
  constructor
  · intro hinj
    by_contra hlong
    have hrepeat : keystream rk counter0 0 = keystream rk counter0 (2 ^ 32) := by
      rw [keystream_eq_iff]
      simp
    have hsame := hinj (Set.mem_Iio.mpr (by omega)) (Set.mem_Iio.mpr (by omega)) hrepeat
    omega
  · intro hn i hi j hj heq
    rw [Set.mem_Iio] at hi hj
    obtain ⟨-, -, -, hmod⟩ := (keystream_eq_iff _ _ _ _ _).mp heq
    omega

/-! ## Running the variants -/

theorem length_ctrText (rk : List U32) (counter0 : Block) (blocks : List Block) :
    (ctrText rk counter0 blocks).length = blocks.length := StreamCipher.length_apply _ _ _

/-- The harness calls the variant at least once. -/
def IsRun (samples : String → List ℕ) (v : Aes) : Prop := ∃ n ∈ samples v.name, 0 < n

instance {samples : String → List ℕ} {v : Aes} : Decidable (IsRun samples v) :=
  inferInstanceAs (Decidable (∃ n ∈ samples v.name, 0 < n))

section
variable {host : BenchHost} {rk : List U32} {counter0 : Block} {blocks : List Block} (hrk : 44 ≤ rk.length)
include hrk

/-- A call needs a variant that works. -/
theorem needs_onOut {v : Aes} (h : v.AgreesOn blocks.length ∨ v.Refuses) {s : BenchState}
    (hout : s.out.length = (ctrText rk counter0 blocks).length) :
    Needs host (onOut (v.encryptCtr rk counter0 blocks)) s 0 (v.AgreesOn blocks.length) (ctrText rk counter0 blocks) := by
  rcases h with hagree | hrefuse
  · have hrun : (onOut (v.encryptCtr rk counter0 blocks)).run s = .ok () ⟨ctrText rk counter0 blocks, s.ops⟩ := by
      show onOut _ s = _
      unfold onOut
      rw [hagree.run hrk (hout.trans (length_ctrText _ _ _))]
    exact meets_of_ok hrun ⟨⟨allOk_refl, hagree⟩, rfl⟩
  · obtain ⟨e, hpanic, herror⟩ := hrefuse rk counter0 blocks s.out
    have hrun : (onOut (v.encryptCtr rk counter0 blocks)).run s = .error e s := by
      show onOut _ s = _
      unfold onOut
      rw [herror]
    exact meets_of_error hrun hpanic fun h => hrefuse.not_agreesOn _ h.2

/-- The group needs the counter for each of its batches, and every variant that is run to work. -/
theorem needs_benchGroup (measurement : Measurement) (samples : String → List ℕ) (variants : List Aes)
    (h : ∀ v ∈ variants, v.AgreesOn blocks.length ∨ v.Refuses) {s : BenchState}
    (hout : s.out.length = (ctrText rk counter0 blocks).length) :
    Needs host (benchGroup host samples measurement rk counter0 blocks variants) s
      (variants.map fun v => (samples v.name).length * measurement.batchOps).sum
      (∀ v ∈ variants, IsRun samples v → v.AgreesOn blocks.length)
      (if ∃ v ∈ variants, IsRun samples v then ctrText rk counter0 blocks else s.out) := by
  refine needs_forM variants (fun v hv t ht => ?_) hout
  have hbatch : ∀ n ∈ samples v.name, ∀ u : BenchState, u.out.length = (ctrText rk counter0 blocks).length →
      Needs host (measurement.iter host n (onOut (v.encryptCtr rk counter0 blocks))) u measurement.batchOps
        (0 < n → v.AgreesOn blocks.length) (if 0 < n then ctrText rk counter0 blocks else u.out) :=
    fun n _ u hu => measurement.needs_iter n (fun _ => needs_onOut hrk (h v hv)) hu
  have hbatches := needs_forM (samples v.name) hbatch ht
  refine hbatches.congr (by simp) ?_ rfl
  exact ⟨fun hn ⟨n, hmem, hpos⟩ => hn n hmem hpos, fun hv n hmem hpos => hv ⟨n, hmem, hpos⟩⟩

end

/-! ## The benchmark -/

theorem benchVariants_eq (features : Features) (machine : Machine) : benchVariants features machine =
    if features.gpu && !machine.cuda then .error (.assertion "CUDA init failed (needs an NVIDIA GPU)")
    else .ok ((cpuVariants machine ++ if features.gpu then [gpuGlobalPageable machine] else []).filter fun v =>
      !(features.perf || features.aperf) || !v.name.endsWith "-parallel") := by
  have hfilter : ∀ all : List Aes, (if features.perf || features.aperf then
      .ok (all.filter fun v => !v.name.endsWith "-parallel") else .ok all : Except Fault (List Aes)) =
      .ok (all.filter fun v => !(features.perf || features.aperf) || !v.name.endsWith "-parallel") := by
    intro all
    cases features.perf || features.aperf with
    | false => simp
    | true => simp
  unfold benchVariants
  cases features.gpu with
  | false => exact (hfilter _).trans (by simp)
  | true =>
    rw [gpuVariants]
    cases machine.cuda with
    | false => rfl
    | true => exact hfilter _

theorem mem_benchVariants {features : Features} {machine : Machine} {variants : List Aes}
    (h : benchVariants features machine = .ok variants) {v : Aes} (hv : v ∈ variants) :
    v ∈ cpuVariants machine ∨ v = gpuGlobalPageable machine := by
  rw [benchVariants_eq] at h
  split at h
  · cases h
  · obtain rfl := Except.ok.inj h
    refine (List.mem_append.mp (List.mem_of_mem_filter hv)).imp_right fun hgpu => ?_
    split at hgpu
    · exact List.mem_singleton.mp hgpu
    · cases hgpu

theorem benchVariants_ok_iff (features : Features) (machine : Machine) :
    (∃ variants, benchVariants features machine = .ok variants) ↔ (features.gpu = true → machine.cuda = true) := by
  rw [benchVariants_eq]
  cases features.gpu with
  | false => exact iff_of_true ⟨_, rfl⟩ nofun
  | true =>
    cases machine.cuda with
    | false => exact iff_of_false (fun ⟨_, h⟩ => by cases h) (by simp)
    | true => exact iff_of_true ⟨_, rfl⟩ fun _ => rfl

theorem onlyPanics_benchVariants (features : Features) (machine : Machine) :
    OnlyPanics (benchVariants features machine) := by
  rw [benchVariants_eq]
  intro e he
  split at he
  · cases he
    trivial
  · cases he

/-- A variant that is measured works on the workload, or refuses every call. -/
theorem benchVariants_settle {features : Features} {machine : Machine} {variants : List Aes}
    (h : benchVariants features machine = .ok variants) {v : Aes} (hv : v ∈ variants) :
    (v.AgreesOn N_BLOCKS ∨ v.Refuses) ∧ (machine.cpu.Coherent → v.AgreesOn N_BLOCKS) := by
  rcases mem_benchVariants h hv with hv | rfl
  · obtain ⟨ok, hsettle⟩ := cpuVariants_settle machine hv
    refine ⟨?_, fun hcpu => agreesOn_of_coherent hcpu hv N_BLOCKS⟩
    cases ok with
    | true => exact Or.inl (hsettle.agrees rfl N_BLOCKS)
    | false => exact Or.inr (hsettle.refuses rfl)
  · have hagree := gpu_agreesOn machine (show N_BLOCKS < 2 ^ 32 by decide)
    exact ⟨Or.inl hagree, fun _ => hagree⟩

/-! ## The whole benchmark -/

/-- The operations on the counter of a benchmark that returns. -/
def counterOps (measurement : Measurement) (samples : String → List ℕ) (variants : List Aes) : ℕ :=
  measurement.setupOps + (variants.map fun v => (samples v.name).length * measurement.batchOps).sum

section
variable (features : Features) (host : BenchHost) (samples : String → List ℕ)

/-- What happens before the first call. -/
theorem returns_setup (measurement : Measurement) (s : BenchState) :
    Returns (liftM (measurement.new host) >>= fun _ => failFast host measurement) s
      (fun _ s' => AllOk host.fails s.ops (s.ops + measurement.setupOps) ∧ s' = ⟨s.out, s.ops + measurement.setupOps⟩)
      (fun exit _ => measurement = .perf ∧ ∃ e, (∃ b ≤ s.ops + 4, FailsFirst host.fails s.ops b e) ∧
        exit = unavailable e)
      fun _ _ => measurement ≠ .perf ∧ ¬ AllOk host.fails s.ops (s.ops + measurement.setupOps) := by
  cases measurement with
  | wallTime => exact returns_pure ⟨allOk_refl, rfl⟩
  | perf => exact Returns.adapt returns_checkAvailable fun e _ he => ⟨rfl, e, he, rfl⟩
  | aperf =>
    have hnew : Needs host (aperfNew host) s 2 _ s.out := (needs_unwrapOp _).bind (needs_unwrapOp _)
    refine Returns.bind (returns_lift (hnew.mono (fun _ _ h => h) fun _ _ h => ?_)) fun _ s' hs' => ?_
    · exact ⟨nofun, fun hworks => h ⟨hworks, trivial, trivial⟩⟩
    · exact returns_pure ⟨hs'.1.1, hs'.2⟩

/-- What the benchmark has to find on its host to return. -/
def Benchable (features : Features) (host : BenchHost) (samples : String → List ℕ) (variants : List Aes) : Prop :=
  benchVariants features host.toMachine = .ok variants ∧
    AllOk host.fails 0 (counterOps features.measurement samples variants) ∧
    ∀ v ∈ variants, IsRun samples v → v.AgreesOn N_BLOCKS

/-- The benchmark, once the measurement is set up. -/
theorem returns_measured {rk : Vector U32 44} (hkeys : demoRoundKeys = .ok rk)
    (hsetup : AllOk host.fails 0 features.measurement.setupOps) {s : BenchState}
    (hops : s.ops = features.measurement.setupOps) :
    Returns (do
        let rk ← liftM (liftM demoRoundKeys : Run BenchState (Vector U32 44))
        let variants ← liftM (liftM (benchVariants features host.toMachine) : Run BenchState (List Aes))
        liftM (modify fun s => { s with out := List.replicate N_BLOCKS ⟨0, 0, 0, 0⟩ } : Run BenchState Unit)
        liftM (benchGroup host samples features.measurement rk.toList demoCounter0 (demoBlocks N_BLOCKS) variants) :
        Fallible BenchState Exit Unit) s
      (fun _ s' => ∃ variants, Benchable features host samples variants ∧
        s'.out = if ∃ v ∈ variants, IsRun samples v then ctrText rk.toList demoCounter0 (demoBlocks N_BLOCKS)
          else List.replicate N_BLOCKS ⟨0, 0, 0, 0⟩)
      (fun _ _ => False) fun _ _ => ¬ ∃ variants, Benchable features host samples variants := by
  rw [hkeys]
  refine returns_ok_bind ?_
  cases hvariants : benchVariants features host.toMachine with
  | error e =>
    refine returns_error_bind (onlyPanics_benchVariants _ _ e hvariants) fun ⟨variants, hbenchable, _⟩ => ?_
    cases hvariants.symm.trans hbenchable
  | ok variants =>
    refine returns_ok_bind (returns_modify_bind (returns_lift ?_))
    have hblocks : (demoBlocks N_BLOCKS).length = N_BLOCKS := List.length_replicate
    have hworks : ∀ v ∈ variants, v.AgreesOn (demoBlocks N_BLOCKS).length ∨ v.Refuses := by
      rw [hblocks]
      exact fun v hv => (benchVariants_settle hvariants hv).1
    have hgroup : Needs host
        (benchGroup host samples features.measurement rk.toList demoCounter0 (demoBlocks N_BLOCKS) variants)
        ⟨List.replicate N_BLOCKS ⟨0, 0, 0, 0⟩, s.ops⟩ _ _ _ :=
      needs_benchGroup (by simp) features.measurement samples variants hworks
        (List.length_replicate.trans (hblocks.symm.trans (length_ctrText _ _ _).symm))
    rw [hblocks] at hgroup
    have hgood : Benchable features host samples variants ↔
        AllOk host.fails s.ops
            (s.ops + (variants.map fun v => (samples v.name).length * features.measurement.batchOps).sum) ∧
          ∀ v ∈ variants, IsRun samples v → v.AgreesOn N_BLOCKS := by
      rw [Benchable, hops, counterOps, allOk_split (Nat.zero_le _) (Nat.le_add_right _ _),
        and_iff_right hsetup]
      exact and_iff_right hvariants
    refine hgroup.mono (fun _ s' h => ⟨variants, hgood.mpr h.1, congrArg BenchState.out h.2⟩) fun _ _ h hsome => h ?_
    obtain ⟨variants', hbenchable⟩ := hsome
    obtain rfl : variants' = variants := Except.ok.inj (hbenchable.1.symm.trans hvariants)
    exact hgood.mp hbenchable

/-- How the whole benchmark ends. -/
theorem returns_benches {rk : Vector U32 44} (hkeys : demoRoundKeys = .ok rk) :
    Returns (benches features host samples) ⟨[], 0⟩
      (fun _ s => ∃ variants, Benchable features host samples variants ∧
        s.out = if ∃ v ∈ variants, IsRun samples v then ctrText rk.toList demoCounter0 (demoBlocks N_BLOCKS)
          else List.replicate N_BLOCKS ⟨0, 0, 0, 0⟩)
      (fun exit _ => features.measurement = .perf ∧ ∃ e, (∃ b ≤ 4, FailsFirst host.fails 0 b e) ∧ exit = unavailable e)
      fun _ _ => (¬ ∃ variants, Benchable features host samples variants) ∧
        (features.measurement = .perf → AllOk host.fails 0 4) := by
  have hassoc : benches features host samples = (liftM (features.measurement.new host) >>= fun _ =>
      failFast host features.measurement) >>= fun _ => _ := (bind_assoc _ _ _).symm
  have hsetup := returns_setup host features.measurement ⟨[], 0⟩
  rw [Nat.zero_add, Nat.zero_add] at hsetup
  rw [hassoc]
  refine Returns.bind (hsetup.mono (fun _ _ h => h) (fun _ _ h => h) fun _ _ h => ?_) fun _ s hs => ?_
  · refine ⟨fun ⟨variants, _, hworks, _⟩ => ?_, fun hperf => absurd hperf h.1⟩
    exact h.2 ((allOk_split (Nat.zero_le _) (Nat.le_add_right _ _)).mp hworks).1
  · obtain ⟨hworks, rfl⟩ := hs
    have hrest := returns_measured features host samples hkeys hworks (s := ⟨[], features.measurement.setupOps⟩) rfl
    refine hrest.mono (fun _ _ h => h) (fun _ _ h => h.elim) fun _ _ h => ⟨h, fun hperf => ?_⟩
    rwa [hperf] at hworks

end

/-- A host with every CPU feature, CUDA and one thread. -/
def demoHost (fails : ℕ → Option IoError) : BenchHost where
  cpu := ⟨true, true, true, true, true, true⟩
  threads := 1
  cuda := true
  schedule := List.range
  landing := id
  schedule_perm := fun _ => .refl _
  landing_perm := fun _ => .refl _
  fails := fails
  targetCpu := 0

end CudaAes
