import CudaAes.Cpu.Streaming
import CudaAes.Gpu.Host

/-!
# The variants of the benchmark (`benches/variants.rs`)

Each version of AES that the repository keeps is a named `Aes` on a slice `out`. The registries
`cpuVariants` and `gpuVariants` list those that a machine offers. A variant calls its backend with
enough fuel for the message, on the machine's threads and in the machine's orders.
-/

namespace CudaAes

open Rust

/-- The machine that the variants run on: its CPU, `rayon::current_num_threads()`, whether CUDA
initializes, the order in which rayon runs `k` closures, and the order in which the stores of a launch
land. -/
structure Machine where
  cpu : CpuFeatures
  threads : ℕ
  cuda : Bool
  schedule : ℕ → List ℕ
  landing : List Store → List Store
  schedule_perm : ∀ k, (schedule k).Perm (List.range k)
  landing_perm : ∀ stores, (landing stores).Perm stores

/-- The trait `Aes`. -/
structure Aes where
  name : String
  encryptCtr : List U32 → Block → List Block → Run (List Block) Unit

/-- A call on the slice that a buffer is. -/
def callOnSlice {α β : Type} (x : Run (Buffer α) β) : Run (List α) β := fun out =>
  match x.run (.ofList out) with
  | .ok b out' => .ok b out'.data
  | .error e out' => .error e out'.data

/-- The order of the closures of a multi-core wrapper on `n` blocks. -/
def Machine.order (machine : Machine) (kernel : WideKernel) (W n : ℕ) : List ℕ :=
  match kernel.chunk W machine.threads n with
  | .ok chunk => machine.schedule (n ⌈/⌉ chunk)
  | .error _ => []

section
variable (machine : Machine)

/-! ## CPU variants -/

/-- A CPU backend, chosen by the number of blocks, behind the trait. -/
def cpuVariant (name : String) (backend : ℕ → Backend) : Aes where
  name := name
  encryptCtr rk counter0 blocks :=
    callOnSlice ((backend blocks.length).encryptCtr machine.cpu (blocks.length + 1) rk counter0 blocks)

def parallelVariant (name : String) (kernel : WideKernel) (W : ℕ) : Aes :=
  cpuVariant machine name fun n => .parallel kernel W machine.threads (machine.order kernel W n)

def cpuScalar : Aes := cpuVariant machine "cpu/scalar" fun _ => .scalar

def cpuAesNi : Aes := cpuVariant machine "cpu/aesni" fun _ => .aesni 1

def cpuAesNiX8 : Aes := cpuVariant machine "cpu/aesni-x8" fun _ => .aesni 8

def cpuAesNiX8Pshufb : Aes := cpuVariant machine "cpu/aesni-x8-pshufb" fun _ => .wide .pshufb 8

def cpuAesNiX8PshufbParallel : Aes := parallelVariant machine "cpu/aesni-x8-pshufb-parallel" .pshufb 8

def cpuVaes256X8Pshufb : Aes := cpuVariant machine "cpu/vaes256-x8-pshufb" fun _ => .wide .vaes256 8

def cpuVaes512X8Pshufb : Aes := cpuVariant machine "cpu/vaes512-x8-pshufb" fun _ => .wide .vaes512 8

def cpuVaes256X8PshufbParallel : Aes := parallelVariant machine "cpu/vaes256-x8-pshufb-parallel" .vaes256 8

def cpuVaes512X8PshufbParallel : Aes := parallelVariant machine "cpu/vaes512-x8-pshufb-parallel" .vaes512 8

/-- `cpu_variants`, on x86_64. -/
def cpuVariants : List Aes :=
  [cpuScalar machine] ++
  (if machine.cpu.aes then
    [cpuAesNi machine, cpuAesNiX8 machine, cpuAesNiX8Pshufb machine, cpuAesNiX8PshufbParallel machine]
  else []) ++
  (if machine.cpu.vaes && machine.cpu.avx2 then
    [cpuVaes256X8Pshufb machine, cpuVaes256X8PshufbParallel machine]
  else []) ++
  if machine.cpu.vaes && machine.cpu.avx512f && machine.cpu.avx512bw then
    [cpuVaes512X8Pshufb machine, cpuVaes512X8PshufbParallel machine]
  else []

/-! ## GPU variants -/

/-- The stores of a launch for one block a thread, in the order in which they land. -/
def Machine.launchStores (rk : List U32) (counter0 : Block) (blocks : List Block) : List Store :=
  match launchGrid blocks.length 1 with
  | .ok grid => machine.landing (gridStores (kernelArgs rk counter0 blocks 1) (grid * BLOCK))
  | .error _ => []

def gpuGlobalPageable : Aes where
  name := "gpu/0-global-pageable"
  encryptCtr rk counter0 blocks := do
    match ← AesGpu.encryptCtr (machine.launchStores rk counter0 blocks) rk counter0 blocks 1 with
    | .ok () => return ()
    | .error _ => throw (.assertion "GPU encrypt_ctr failed")

/-- `gpu_variants`, which panics without a GPU. -/
def gpuVariants : Except Fault (List Aes) :=
  if machine.cuda then .ok [gpuGlobalPageable machine]
  else .error (.assertion "CUDA init failed (needs an NVIDIA GPU)")

end

end CudaAes
