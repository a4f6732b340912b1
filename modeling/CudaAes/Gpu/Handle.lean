import CudaAes.Lib.Resources
import CudaAes.Gpu.HostSpec

/-!
# The GPU handle (`aes-gpu/src/lib.rs`)

`AesGpu` with everything that can go wrong: each call of the CUDA library may fail, and the handle, its
tables and the buffers of a call are resources that have to be released, while the context is alive. The
state of a `Gpu` computation is the resources that are live and the caller's `out`. A local variable of the
source that owns a resource is a `withLocal`; the fields of the handle that `new` makes are `withMoved`.

The operations of one call take effect in program order, which the streams of the source do not enforce. The
lengths of `out` and of the message are compared where a build with debug assertions and one without do it.
-/

namespace CudaAes

open Rust

inductive Kind
  | context
  | module
  | stream
  | buffer
  deriving DecidableEq, Repr

/-- What has to be alive when anything else is used or freed. -/
def Kind.root : Kind → Bool
  | .context => true
  | _ => false

/-- The errors that the parameters of a call decide, and those of the driver. -/
inductive DriverError
  | cuda (e : CudaError)
  | other (code : ℕ)
  deriving DecidableEq, Repr

/-- What the source does not decide: whether it is built with debug assertions, which calls of the library
fail, in which order the stores of a launch land, and what a copy that fails leaves in `out`. -/
structure Driver where
  debugAssertions : Bool
  fails : ℕ → Option DriverError
  landing : ℕ → List Store → List Store
  spoil : ℕ → List Block → List Block
  landing_perm : ∀ i stores, (landing i stores).Perm stores
  length_spoil : ∀ i out, (spoil i out).length = out.length

/-- Device resources, with the words of the buffers, and the caller's `out`. -/
abbrev Gpu := World Kind (List U32) (List Block)

namespace AesGpu

/-- The fields of `AesGpu`. -/
structure Handle where
  module : ℕ
  stream : ℕ
  t0 : ℕ
  t1 : ℕ
  t2 : ℕ
  t3 : ℕ
  sbox : ℕ
  ctx : ℕ
  deriving DecidableEq, Repr

variable (driver : Driver)

/-- `AesGpu::new` -/
def new : Fallible Gpu DriverError Handle :=
  withMoved Kind.root driver.fails .context [] fun ctx =>
  withMoved Kind.root driver.fails .module [] fun module =>
  withMoved Kind.root driver.fails .stream [] fun stream =>
  withMoved Kind.root driver.fails .buffer CudaAes.t0 fun t0 =>
  withMoved Kind.root driver.fails .buffer CudaAes.t1 fun t1 =>
  withMoved Kind.root driver.fails .buffer CudaAes.t2 fun t2 =>
  withMoved Kind.root driver.fails .buffer CudaAes.t3 fun t3 =>
  withMoved Kind.root driver.fails .buffer sboxU32 fun sbox =>
  return { module, stream, t0, t1, t2, t3, sbox, ctx }

namespace Handle
variable (g : Handle)

/-- The fields before `_ctx`, in the order of their declaration. -/
def fields : List ℕ := [g.module, g.stream, g.t0, g.t1, g.t2, g.t3, g.sbox]

/-- The fields are dropped in the order of their declaration. -/
def drop : Run Gpu Unit := forM (g.fields ++ [g.ctx]) (release Kind.root)

/-- The buffers of a call. -/
structure Buffers where
  counter0 : ℕ
  pt : ℕ
  rk : ℕ
  ct : ℕ

/-- The parameters of the kernel, as the device holds them. -/
def args (bufs : Buffers) (n r : ℕ) (w : Gpu) : KernelArgs where
  counter0 := w.data bufs.counter0
  pt := w.data bufs.pt
  rk := w.data bufs.rk
  t0 := w.data g.t0
  t1 := w.data g.t1
  t2 := w.data g.t2
  t3 := w.data g.t3
  sbox := w.data g.sbox
  ctLen := (w.data bufs.ct).length
  nBlocks := n
  blocksPerThread := r

/-- `launch!`, which rejects an empty grid. -/
def launch (bufs : Buffers) (grid : ℕ) : Fallible Gpu DriverError Unit := do
  call Kind.root driver.fails
    [g.module, g.stream, bufs.counter0, bufs.pt, bufs.rk, g.t0, g.t1, g.t2, g.t3, g.sbox, bufs.ct] id
  if grid = 0 then
    throw (.cuda .invalidValue)

/-- `self.stream.synchronize()`, which waits for the kernel and fails if the kernel has faulted. -/
def synchronize (bufs : Buffers) (n r grid : ℕ) : Fallible Gpu DriverError Unit := do
  let args := g.args bufs n r (← liftM (get : Run Gpu Gpu))
  call Kind.root driver.fails [g.stream] id
  if gridFaults args (grid * BLOCK) then
    throw (.cuda .launchFailed)
  else
    liftM (modify fun w : Gpu => { w with
      data := Function.update w.data bufs.ct ((driver.landing w.calls (gridStores args (grid * BLOCK))).foldl
        (fun ct w => ct.set w.1 w.2) (w.data bufs.ct)) } : Run Gpu Unit)

/-- `ct_gpu.copy_to(out.as_flattened_mut())`, which panics if the lengths differ. -/
def copyTo (bufs : Buffers) : Fallible Gpu DriverError Unit := do
  let w ← liftM (get : Run Gpu Gpu)
  liftM (assert ((w.data bufs.ct).length == w.host.length * 4)
    "destination and source slices have different lengths" : Run Gpu Unit)
  call Kind.root driver.fails [bufs.ct] (driver.spoil w.calls)
  liftM (modify fun w : Gpu => { w with host := ofFlattened (w.data bufs.ct) } : Run Gpu Unit)

/-- A call, once its buffers are there. -/
def onDevice (bufs : Buffers) (n r : ℕ) : Fallible Gpu DriverError Unit := do
  -- `get_function`
  call Kind.root driver.fails [g.module] id
  let grid ← liftM (liftM (launchGrid n r) : Run Gpu ℕ)
  launch driver g bufs grid
  synchronize driver g bufs n r grid
  copyTo driver bufs

/-- `AesGpu::encrypt_ctr` -/
def encryptCtr (rk : List U32) (counter0 : Block) (blocks : List Block) (blocksPerThread : ℕ) :
    Fallible Gpu DriverError Unit := do
  let n := blocks.length
  if n = 0 then
    return ()
  let w ← liftM (get : Run Gpu Gpu)
  -- `debug_assert_eq!`
  liftM (assert (!driver.debugAssertions || w.host.length == n) "output length must match the input" : Run Gpu Unit)
  let r := max blocksPerThread 1
  withLocal Kind.root driver.fails .buffer counter0.toList fun counter0Gpu =>
    withLocal Kind.root driver.fails .buffer (asFlattened blocks) fun ptGpu =>
    withLocal Kind.root driver.fails .buffer rk fun rkGpu =>
    withLocal Kind.root driver.fails .buffer (List.replicate (n * 4) 0) fun ctGpu =>
    onDevice driver g ⟨counter0Gpu, ptGpu, rkGpu, ctGpu⟩ n r

end Handle

end AesGpu

end CudaAes
