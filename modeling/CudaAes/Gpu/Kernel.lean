import CudaAes.Lib.Chunks
import CudaAes.Core.Aes

/-!
# The CTR kernel (`kernels/src/lib.rs`)

One GPU thread is a computation on the list of its stores to `ct`. The device's `usize` has 64 bits
and wraps. A store past the end of `ct` is undefined behaviour; the reads of the other parameters
are checked.
-/

namespace CudaAes

open Rust

/-- A store to `ct`: the word's index and its value. -/
abbrev Store := ℕ × U32

/-- `thread::index_1d()` of thread `t` of the grid: `blockIdx.x * blockDim.x + threadIdx.x`. -/
def index1d (t : ℕ) : U32 := BitVec.ofNat 32 (t / 256) * 256 + BitVec.ofNat 32 (t % 256)

def usizeMul (a b : ℕ) : ℕ := a * b % 2 ^ 64

def usizeAdd (a b : ℕ) : ℕ := (a + b) % 2 ^ 64

/-- The parameters of `aes128_ctr`; of the buffer behind `ct`, its length in words. -/
structure KernelArgs where
  counter0 : List U32
  pt : List U32
  rk : List U32
  t0 : List U32
  t1 : List U32
  t2 : List U32
  t3 : List U32
  sbox : List U32
  ctLen : ℕ
  nBlocks : ℕ
  blocksPerThread : ℕ

/-- `*ct.add(i) = v` -/
def storeWord (len : ℕ) (w : Store) : Run (List Store) Unit := fun stores =>
  if w.1 < len then .ok () (stores ++ [w]) else .error .undefinedBehaviour stores

def blockStores (args : KernelArgs) (counter0 : Block) (i : ℕ) : Except Fault (List Store) := do
  let base := usizeMul i 4
  let pt : Block := ⟨← index args.pt base, ← index args.pt (usizeAdd base 1), ← index args.pt (usizeAdd base 2),
    ← index args.pt (usizeAdd base 3)⟩
  let out ← encryptCtrBlock counter0 (BitVec.ofNat 32 i) pt args.rk args.t0 args.t1 args.t2 args.t3 args.sbox
  return [(base, out.e0), (usizeAdd base 1, out.e1), (usizeAdd base 2, out.e2), (usizeAdd base 3, out.e3)]

def readCounter (counter0 : List U32) : Except Fault Block := do
  return ⟨← index counter0 0, ← index counter0 1, ← index counter0 2, ← index counter0 3⟩

/-- The body of the thread's loop; `false` is its `return`. -/
def threadBlock (args : KernelArgs) (counter0 : Block) (start j : ℕ) : Run (List Store) Bool := do
  let i := usizeAdd start j
  if args.nBlocks ≤ i then
    return false
  let stores ← blockStores args counter0 i
  forM stores (storeWord args.ctLen)
  return true

/-- `aes128_ctr`, on the thread whose `thread::index_1d()` is `index`. -/
def aes128Ctr (args : KernelArgs) (index : U32) : Run (List Store) Unit := do
  let counter0 ← readCounter args.counter0
  let start := usizeMul index.toNat args.blocksPerThread
  forReturn (threadBlock args counter0 start) 0 args.blocksPerThread

/-- The stores of thread `t`, up to a fault if it has one. -/
def threadStores (args : KernelArgs) (t : ℕ) : List Store :=
  match (aes128Ctr args (index1d t)).run [] with
  | .ok _ stores => stores
  | .error _ stores => stores

def gridStores (args : KernelArgs) (threads : ℕ) : List Store :=
  (List.range threads).flatMap (threadStores args)

end CudaAes
