import CudaAes.Cpu.Aesni

/-!
# The VAES kernels (`aes-cpu/src/vaes.rs`)

The 256-bit and the 512-bit kernel differ in the number of lanes and in how they spell the counter
offsets, so both are `vaesImpl` at their own `off` and `step`.
-/

namespace CudaAes

open Rust Fips197
open SliceState (onBuffer)

variable {σ : Type} [SliceState σ Block]

/-- The body of the main loop, on `i` and the counter registers. -/
def vaesGroup (L W : ℕ) (step : Wide L) (keys : Fin 11 → Wide L) (bswap : Wide L) (blocks : List Block)
    (x : ℕ × List (Wide L)) : Run σ (ℕ × List (Wide L)) := do
  let (i, ctr) := x
  let s := ctr.map fun cj => Wide.xor (Wide.shuffleEpi8 cj bswap) (keys 0)
  let s := rounds.foldl (fun s r => s.map (Wide.aesenc · (keys r))) s
  let s := s.map (Wide.aesenclast · (keys 10))
  forM s.zipIdx fun (sj, j) => do
    let pt ← loadu L blocks (i + j * L)
    let ks := Wide.shuffleEpi8 sj bswap
    onBuffer (storeu (i + j * L) (Wide.xor pt ks))
  return (i + W * L, ctr.map (Wide.addEpi32 · step))

def vaesCounters (L W : ℕ) (off : ℕ → Wide L) (counter0 : Block) : List (Wide L) :=
  (List.range W).map fun j => Wide.addEpi32 (Wide.broadcast (counterSeed counter0)) (off j)

/-- The kernel on registers of `L` lanes: `off j` is the counter offset of register `j`, and `step`
what a counter register advances by in one turn. -/
def vaesImpl (L : ℕ) (off : ℕ → Wide L) (step : Wide L) (fuel W : ℕ) (rk : List U32) (counter0 : Block)
    (blocks : List Block) : Run σ Unit := do
  let keys ← roundKeys rk
  let (i, _) ← whileLoop (fun x => decide (x.1 + W * L ≤ blocks.length))
    (vaesGroup L W step (fun r => Wide.broadcast (keys r)) (Wide.broadcast bswapMask) blocks) fuel
    (0, vaesCounters L W off counter0)
  discard (remainder keys counter0 blocks fuel i)

def off256 (j : ℕ) : Wide 2 :=
  mm256SetEpi32 (BitVec.ofNat 32 (2 * j + 1)) 0 0 0 (BitVec.ofNat 32 (2 * j)) 0 0 0

def step256 (W : ℕ) : Wide 2 := mm256SetEpi32 (BitVec.ofNat 32 (2 * W)) 0 0 0 (BitVec.ofNat 32 (2 * W)) 0 0 0

def encryptCtrVaes256Impl (fuel W : ℕ) (rk : List U32) (counter0 : Block) (blocks : List Block) :
    Run σ Unit :=
  vaesImpl 2 off256 (step256 W) fuel W rk counter0 blocks

def encryptCtrVaes256 (cpu : CpuFeatures) (fuel W : ℕ) (rk : List U32) (counter0 : Block) (blocks : List Block) :
    Run σ Unit := do
  assert (cpu.aes && cpu.vaes && cpu.avx2) "aes-cpu::vaes 256-bit path requires VAES + AVX2"
  let out ← onBuffer get
  assert (blocks.length == out.data.length) "out must be as long as blocks"
  encryptCtrVaes256Impl fuel W rk counter0 blocks

def off512 (j : ℕ) : Wide 4 :=
  mm512SetEpi32 (BitVec.ofNat 32 (4 * j + 3)) 0 0 0 (BitVec.ofNat 32 (4 * j + 2)) 0 0 0
    (BitVec.ofNat 32 (4 * j + 1)) 0 0 0 (BitVec.ofNat 32 (4 * j)) 0 0 0

def step512 (W : ℕ) : Wide 4 :=
  let w4 := BitVec.ofNat 32 (4 * W)
  mm512SetEpi32 w4 0 0 0 w4 0 0 0 w4 0 0 0 w4 0 0 0

def encryptCtrVaes512Impl (fuel W : ℕ) (rk : List U32) (counter0 : Block) (blocks : List Block) :
    Run σ Unit :=
  vaesImpl 4 off512 (step512 W) fuel W rk counter0 blocks

def encryptCtrVaes512 (cpu : CpuFeatures) (fuel W : ℕ) (rk : List U32) (counter0 : Block) (blocks : List Block) :
    Run σ Unit := do
  assert (cpu.aes && cpu.vaes && cpu.avx512f && cpu.avx512bw)
    "aes-cpu::vaes 512-bit path requires VAES + AVX-512 (avx512f + avx512bw)"
  let out ← onBuffer get
  assert (blocks.length == out.data.length) "out must be as long as blocks"
  encryptCtrVaes512Impl fuel W rk counter0 blocks

/-! ## Multi-core wrappers -/

def parChunk (threads n group : ℕ) : Except Fault ℕ := do
  nextMultipleOf (← divCeil n (max threads 1)) group

/-- `encrypt_ctr_vaes256_parallel`, with `threads = rayon::current_num_threads()`. -/
def encryptCtrVaes256Parallel (cpu : CpuFeatures) (fuel W threads : ℕ) (order : List ℕ) (rk : List U32)
    (counter0 : Block) (blocks : List Block) : Run σ Unit := do
  assert (cpu.aes && cpu.vaes && cpu.avx2) "aes-cpu::vaes 256-bit path requires VAES + AVX2"
  let out ← onBuffer get
  assert (blocks.length == out.data.length) "out must be as long as blocks"
  let n := blocks.length
  if n = 0 then
    return ()
  let chunk ← parChunk threads n (W * 2)
  parChunks (encryptCtrVaes256Impl fuel W rk) chunk counter0 blocks order

def encryptCtrVaes512Parallel (cpu : CpuFeatures) (fuel W threads : ℕ) (order : List ℕ) (rk : List U32)
    (counter0 : Block) (blocks : List Block) : Run σ Unit := do
  assert (cpu.aes && cpu.vaes && cpu.avx512f && cpu.avx512bw)
    "aes-cpu::vaes 512-bit path requires VAES + AVX-512 (avx512f + avx512bw)"
  let out ← onBuffer get
  assert (blocks.length == out.data.length) "out must be as long as blocks"
  let n := blocks.length
  if n = 0 then
    return ()
  let chunk ← parChunk threads n (W * 4)
  parChunks (encryptCtrVaes512Impl fuel W rk) chunk counter0 blocks order

end CudaAes
