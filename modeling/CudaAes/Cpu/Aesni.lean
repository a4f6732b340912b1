import CudaAes.Lib.Chunks
import CudaAes.Lib.Counted
import CudaAes.Cpu.Intrinsics
import CudaAes.Cpu.Scalar

/-!
# The AES-NI kernels (`aes-cpu/src/aesni.rs`)

`Aesni.encryptCtr` repacks every block through `loadWords` and `storeWords`; `encryptCtrPshufb`
keeps counters and blocks in registers; `encryptCtrPshufbParallel` cuts the message into chunks and
runs the second on each. A register array `[__m128i; W]` is a list of length `W`, so a loop over its
entries is a `map`. A `while` loop takes the fuel of the whole call. Where a state `σ` stands for `out`,
the code runs on `out` alone, and also with a count of the calls of `encrypt_one` beside it.
-/

namespace CudaAes

open Rust Fips197
open SliceState (onBuffer onSlice call)

variable {σ : Type} [SliceState σ Block]

/-- The CPU features that `is_x86_feature_detected!` reports. -/
structure CpuFeatures where
  aes : Bool
  ssse3 : Bool
  vaes : Bool
  avx2 : Bool
  avx512f : Bool
  avx512bw : Bool
  deriving DecidableEq, Repr

/-! ## Shared helpers -/

/-- `load_words`: the bytes of `w[0]`, most significant first, then those of `w[1]`, … -/
def loadWords (w : Block) : M128 := ⟨toBeBytes w.e0, toBeBytes w.e1, toBeBytes w.e2, toBeBytes w.e3⟩

def storeWords (v : M128) : Block := ⟨fromBeBytes v.e0, fromBeBytes v.e1, fromBeBytes v.e2, fromBeBytes v.e3⟩

def roundKeys (rk : List U32) : Except Fault (Fin 11 → M128) :=
  (List.finRange 11).foldlM (fun (k : Fin 11 → M128) (r : Fin 11) => do
    let w : Block := ⟨← index rk (4 * r), ← index rk (4 * r + 1), ← index rk (4 * r + 2), ← index rk (4 * r + 3)⟩
    return Function.update k r (loadWords w)) fun _ => mmSetzeroSi128

/-- The range `1..10` of the round loops. -/
def rounds : List (Fin 11) := [1, 2, 3, 4, 5, 6, 7, 8, 9]

def encryptOne (rk : Fin 11 → M128) (block : Block) : Run σ Block := do
  call
  let s := mmXorSi128 (loadWords block) (rk 0)
  let s := rounds.foldl (fun s r => mmAesencSi128 s (rk r)) s
  return storeWords (mmAesenclastSi128 s (rk 10))

def counterBlock (counter0 : Block) (idx : U32) : Block :=
  ⟨counter0.e0, counter0.e1, counter0.e2, counter0.e3 + idx⟩

def remainderBlock (keys : Fin 11 → M128) (counter0 : Block) (blocks : List Block) (i : ℕ) : Run σ ℕ := do
  let ks ← encryptOne keys (counterBlock counter0 (BitVec.ofNat 32 i))
  let pt ← index blocks i
  onBuffer (Buffer.set i (xorBlock pt ks))
  return i + 1

/-- The remainder loop that ends every kernel: `while i < n`, one block at a time. -/
def remainder (keys : Fin 11 → M128) (counter0 : Block) (blocks : List Block) (fuel i : ℕ) : Run σ ℕ :=
  whileLoop (fun i => decide (i < blocks.length)) (remainderBlock keys counter0 blocks) fuel i

/-! ## `encrypt_ctr` -/

/-- The body of the main loop of `encrypt_ctr_impl`. -/
def Aesni.group (W : ℕ) (keys : Fin 11 → M128) (counter0 : Block) (blocks : List Block) (i : ℕ) :
    Run (Buffer Block) ℕ := do
  let s := (List.range W).map fun j =>
    mmXorSi128 (loadWords (counterBlock counter0 (BitVec.ofNat 32 (i + j)))) (keys 0)
  let s := rounds.foldl (fun s r => s.map (mmAesencSi128 · (keys r))) s
  let s := s.map (mmAesenclastSi128 · (keys 10))
  forM (List.range W) fun j => do
    let ks := storeWords (← index s j)
    let pt ← index blocks (i + j)
    Buffer.set (i + j) (xorBlock pt ks)
  return i + W

def Aesni.encryptCtrImpl (fuel W : ℕ) (rk : List U32) (counter0 : Block) (blocks : List Block) :
    Run (Buffer Block) Unit := do
  let keys ← roundKeys rk
  let i ← whileLoop (fun i => decide (i + W ≤ blocks.length)) (Aesni.group W keys counter0 blocks) fuel 0
  discard (remainder keys counter0 blocks fuel i)

def Aesni.encryptCtr (cpu : CpuFeatures) (fuel W : ℕ) (rk : List U32) (counter0 : Block) (blocks : List Block) :
    Run (Buffer Block) Unit := do
  assert cpu.aes "aes-cpu::aesni requires AES-NI (the `aes` CPU feature)"
  Aesni.encryptCtrImpl fuel W rk counter0 blocks

/-! ## `encrypt_ctr_pshufb` -/

/-- The mask that reverses the bytes of each element, `_mm_setr_epi8(3, 2, 1, 0, 7, …, 12)`. -/
def bswapMask : M128 := ⟨⟨3, 2, 1, 0⟩, ⟨7, 6, 5, 4⟩, ⟨11, 10, 9, 8⟩, ⟨15, 14, 13, 12⟩⟩

def counterSeed (counter0 : Block) : M128 := mmSetEpi32 counter0.e3 counter0.e2 counter0.e1 counter0.e0

def step1 : M128 := mmSetEpi32 1 0 0 0

/-- One turn of the loop that fills the registers, on the registers filled so far and the counter. -/
def seedRegister (key0 : M128) (x : List M128 × M128) : List M128 × M128 :=
  (x.1 ++ [mmXorSi128 (mmShuffleEpi8 x.2 bswapMask) key0], mmAddEpi32 x.2 step1)

/-- The body of the main loop of `encrypt_ctr_pshufb_impl`, on `i` and the counter register. -/
def pshufbGroup (W : ℕ) (keys : Fin 11 → M128) (blocks : List Block) (x : ℕ × M128) : Run σ (ℕ × M128) := do
  let (i, ctr) := x
  let (s, ctr) := (seedRegister (keys 0))^[W] ([], ctr)
  let s := rounds.foldl (fun s r => s.map (mmAesencSi128 · (keys r))) s
  let s := s.map (mmAesenclastSi128 · (keys 10))
  forM s.zipIdx fun (sj, j) => do
    let pt ← loadu 1 blocks (i + j)
    let ks := mmShuffleEpi8 sj bswapMask
    onBuffer (storeu (L := 1) (i + j) fun _ => mmXorSi128 (pt 0) ks)
  return (i + W, ctr)

def encryptCtrPshufbImpl (fuel W : ℕ) (rk : List U32) (counter0 : Block) (blocks : List Block) : Run σ Unit := do
  let keys ← roundKeys rk
  let (i, _) ← whileLoop (fun x => decide (x.1 + W ≤ blocks.length)) (pshufbGroup W keys blocks) fuel
    (0, counterSeed counter0)
  discard (remainder keys counter0 blocks fuel i)

def encryptCtrPshufb (cpu : CpuFeatures) (fuel W : ℕ) (rk : List U32) (counter0 : Block) (blocks : List Block) :
    Run σ Unit := do
  assert (cpu.aes && cpu.ssse3) "aes-cpu::aesni pshufb path requires AES-NI + SSSE3"
  let out ← onBuffer get
  assert (blocks.length == out.data.length) "out must be as long as blocks"
  encryptCtrPshufbImpl fuel W rk counter0 blocks

/-! ## `encrypt_ctr_pshufb_parallel` -/

/-- The rayon loop of the parallel wrappers. `par_chunks_mut(chunk)` and `par_chunks(chunk)` cut
consecutive pieces, `zip` and `enumerate` pair them by index, and the closures, one for each pair,
run in the order `order`. -/
def parChunks (kernel : Block → List Block → Run σ Unit) (chunk : ℕ) (counter0 : Block) (blocks : List Block)
    (order : List ℕ) : Run σ Unit := do
  assert (chunk != 0) "chunk_size must not be zero"
  forEach (fun c => do
    let out ← onBuffer get
    let start := c * chunk
    let c0 := counterBlock counter0 (BitVec.ofNat 32 start)
    onSlice start (min chunk (out.data.length - start)) (kernel c0 ((blocks.drop start).take chunk))) order

/-- `encrypt_ctr_pshufb_parallel`, with `threads = rayon::current_num_threads()`. -/
def encryptCtrPshufbParallel (cpu : CpuFeatures) (fuel W threads : ℕ) (order : List ℕ) (rk : List U32)
    (counter0 : Block) (blocks : List Block) : Run σ Unit := do
  assert (cpu.aes && cpu.ssse3) "aes-cpu::aesni pshufb path requires AES-NI + SSSE3"
  let out ← onBuffer get
  assert (blocks.length == out.data.length) "out must be as long as blocks"
  let n := blocks.length
  if n = 0 then
    return ()
  let chunk ← nextMultipleOf (← divCeil n (max threads 1)) W
  parChunks (encryptCtrPshufbImpl fuel W rk) chunk counter0 blocks order

end CudaAes
