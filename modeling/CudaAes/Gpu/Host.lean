import CudaAes.Gpu.Kernel
import CudaAes.Core.Tables

/-!
# The GPU host wrapper (`aes-gpu/src/lib.rs`)

`AesGpu::encrypt_ctr` when allocation and copies succeed and the operations of one call take place
one after another. The launch runs the kernel once on each thread of the grid, and the stores of all
threads land in some order, `order`. Device buffers hold words; a block is four of them.
-/

namespace CudaAes

open Rust

inductive CudaError
  | invalidValue
  | launchFailed
  deriving DecidableEq, Repr

/-- `as_flattened` -/
def asFlattened (blocks : List Block) : List U32 := blocks.flatMap Arr4.toList

/-- The blocks that the words of a buffer are, four by four. -/
def ofFlattened : List U32 → List Block
  | e0 :: e1 :: e2 :: e3 :: rest => ⟨e0, e1, e2, e3⟩ :: ofFlattened rest
  | _ => []

def BLOCK : ℕ := 256

/-- The number of CUDA blocks that `encrypt_ctr` launches: `(n as u32).div_ceil(r as u32).div_ceil(BLOCK)`. -/
def launchGrid (n r : ℕ) : Except Fault ℕ := do
  let threads ← divCeil (n % 2 ^ 32) (r % 2 ^ 32)
  divCeil threads BLOCK

/-- What `encrypt_ctr` passes to the kernel. -/
def kernelArgs (rk : List U32) (counter0 : Block) (blocks : List Block) (r : ℕ) : KernelArgs where
  counter0 := counter0.toList
  pt := asFlattened blocks
  rk := rk
  t0 := t0
  t1 := t1
  t2 := t2
  t3 := t3
  sbox := sboxU32
  ctLen := blocks.length * 4
  nBlocks := blocks.length
  blocksPerThread := r

def gridFaults (args : KernelArgs) (threads : ℕ) : Bool :=
  (List.range threads).any fun t => match (aes128Ctr args (index1d t)).run [] with
    | .ok _ _ => false
    | .error _ _ => true

/-- `AesGpu::encrypt_ctr`, on `out` as its state. A launch of an empty grid is rejected, and a kernel
that faults fails the synchronization. -/
def AesGpu.encryptCtr (order : List Store) (rk : List U32) (counter0 : Block) (blocks : List Block)
    (blocksPerThread : ℕ) : Run (List Block) (Except CudaError Unit) := do
  let n := blocks.length
  if n = 0 then
    return .ok ()
  -- a debug assertion; in a release build it is the copy back that needs the lengths to agree
  let out ← get
  assert (out.length == n) "output length must match the input"
  let r := max blocksPerThread 1
  let ct := List.replicate (n * 4) 0
  let grid ← launchGrid n r
  if grid = 0 then
    return .error .invalidValue
  if gridFaults (kernelArgs rk counter0 blocks r) (grid * BLOCK) then
    return .error .launchFailed
  let ct := order.foldl (fun ct w => ct.set w.1 w.2) ct
  set (ofFlattened ct)
  return .ok ()

end CudaAes
