import CudaAes.Lib.Interleave
import CudaAes.Cpu.WideLoop

/-!
# The closures of a multi-core call, turn by turn

The closures of a multi-core wrapper run at the same time on one slice. Here a closure goes forward by
single stores: a wide loop computes its registers and then stores them one by one, and the scalar tail
stores block by block. The bodies of the wide loops are these turns put together
(`WideKernel.group_eq`).
-/

namespace CudaAes

open Rust Fips197

namespace WideKernel

/-- The type of `ctr`: the PSHUFB kernel keeps one counter register, the others one for each register. -/
def Counters : WideKernel → Type
  | pshufb => M128
  | vaes256 => List (Wide 2)
  | vaes512 => List (Wide 4)

def seed (W : ℕ) (counter0 : Block) : (kernel : WideKernel) → kernel.Counters
  | pshufb => counterSeed counter0
  | vaes256 => vaesCounters 2 W off256 counter0
  | vaes512 => vaesCounters 4 W off512 counter0

end WideKernel

/-- The registers of a turn of a VAES kernel after the rounds. -/
def vaesRegisters {L : ℕ} (keys : Fin 11 → M128) (ctr : List (Wide L)) : List (Wide L) :=
  let s := ctr.map fun cj => Wide.xor (Wide.shuffleEpi8 cj (Wide.broadcast bswapMask)) (Wide.broadcast (keys 0))
  let s := rounds.foldl (fun s r => s.map (Wide.aesenc · (Wide.broadcast (keys r)))) s
  s.map (Wide.aesenclast · (Wide.broadcast (keys 10)))

/-- The registers of a turn of the PSHUFB kernel after the rounds. -/
def pshufbRegisters (W : ℕ) (keys : Fin 11 → M128) (ctr : M128) : List (Wide 1) :=
  let (s, _) := (seedRegister (keys 0))^[W] ([], ctr)
  let s := rounds.foldl (fun s r => s.map (mmAesencSi128 · (keys r))) s
  let s := s.map (mmAesenclastSi128 · (keys 10))
  s.map fun sj _ => sj

/-- The last loop of a turn that starts at block `i`: register `j` goes to the blocks from `i + j * L` on. -/
def storeRegister {L : ℕ} (blocks : List Block) (i : ℕ) (x : Wide L × ℕ) : Run (Buffer Block) Unit := do
  let (sj, j) := x
  let pt ← loadu L blocks (i + j * L)
  let ks := Wide.shuffleEpi8 sj (Wide.broadcast bswapMask)
  storeu (i + j * L) (Wide.xor pt ks)

namespace WideKernel

def registers (W : ℕ) (keys : Fin 11 → M128) : (kernel : WideKernel) → kernel.Counters → List (Wide kernel.lanes)
  | pshufb, ctr => pshufbRegisters W keys ctr
  | vaes256, ctr => vaesRegisters (L := 2) keys ctr
  | vaes512, ctr => vaesRegisters (L := 4) keys ctr

/-- `ctr` after a turn. -/
def advance (W : ℕ) (keys : Fin 11 → M128) : (kernel : WideKernel) → kernel.Counters → kernel.Counters
  | pshufb, ctr => ((seedRegister (keys 0))^[W] ([], ctr)).2
  | vaes256, ctr => List.map (Wide.addEpi32 · (step256 W)) ctr
  | vaes512, ctr => List.map (Wide.addEpi32 · (step512 W)) ctr

/-- The body of the wide loop of a kernel. -/
def group (W : ℕ) (keys : Fin 11 → M128) (blocks : List Block) :
    (kernel : WideKernel) → ℕ × kernel.Counters → Run (Buffer Block) (ℕ × kernel.Counters)
  | pshufb, x => pshufbGroup W keys blocks x
  | vaes256, x => vaesGroup 2 W (step256 W) (fun r => Wide.broadcast (keys r)) (Wide.broadcast bswapMask) blocks x
  | vaes512, x => vaesGroup 4 W (step512 W) (fun r => Wide.broadcast (keys r)) (Wide.broadcast bswapMask) blocks x

end WideKernel

/-- Where a closure is: before it packs its keys, at the head of its wide loop, with registers still to
store, at the head of its scalar tail, or at its end. -/
inductive ClosureState (kernel : WideKernel)
  | start
  | wide (keys : Fin 11 → M128) (i : ℕ) (ctr : kernel.Counters)
  | storing (keys : Fin 11 → M128) (i : ℕ) (pending : List (Wide kernel.lanes × ℕ)) (ctr : kernel.Counters)
  | tail (keys : Fin 11 → M128) (i : ℕ)
  | done

/-- What the kernel does next on the blocks and the slice of its chunk. -/
def closureAction (kernel : WideKernel) (W : ℕ) (rk : List U32) (counter0 : Block) (blocks : List Block) :
    ClosureState kernel → Option (Run (Buffer Block) (ClosureState kernel))
  | .start => some do
    let keys ← roundKeys rk
    return .wide keys 0 (kernel.seed W counter0)
  | .wide keys i ctr => some <|
    if i + W * kernel.lanes ≤ blocks.length then
      return .storing keys i (kernel.registers W keys ctr).zipIdx (kernel.advance W keys ctr)
    else return .tail keys i
  | .storing keys i (x :: pending) ctr => some do
    storeRegister blocks i x
    return .storing keys i pending ctr
  | .storing keys i [] ctr => some (return .wide keys (i + W * kernel.lanes) ctr)
  | .tail keys i => some <|
    if i < blocks.length then do
      let i ← remainderBlock keys counter0 blocks i
      return .tail keys i
    else return .done
  | .done => none

/-- The closure of chunk `c` of a multi-core call, on its part of an `out` of `len` blocks. -/
def chunkAction (kernel : WideKernel) (W : ℕ) (rk : List U32) (chunk : ℕ) (counter0 : Block) (blocks : List Block)
    (len c : ℕ) (t : ClosureState kernel) : Option (Run (Buffer Block) (ClosureState kernel)) :=
  let start := c * chunk
  let c0 := counterBlock counter0 (BitVec.ofNat 32 start)
  (closureAction kernel W rk c0 ((blocks.drop start).take chunk) t).map
    (Buffer.withSlice start (min chunk (len - start)))

/-- Before the closures of a call have begun. -/
def chunkPool (kernel : WideKernel) (out : List Block) : Pool (ClosureState kernel) (Buffer Block) :=
  ⟨fun _ => .ok .start, .ofList out⟩

/-! ## The turns of a wide loop -/

theorem pshufbGroup_eq (W : ℕ) (keys : Fin 11 → M128) (blocks : List Block) (i : ℕ) (ctr : M128) :
    pshufbGroup W keys blocks (i, ctr) = do
      forM (pshufbRegisters W keys ctr).zipIdx (storeRegister blocks i)
      return (i + W, ((seedRegister (keys 0))^[W] ([], ctr)).2) := by
  have hstore : ∀ x : M128 × ℕ, storeRegister (L := 1) blocks i (Prod.map (fun sj _ => sj) id x) = (do
      let pt ← loadu 1 blocks (i + x.2)
      let ks := mmShuffleEpi8 x.1 bswapMask
      storeu (L := 1) (i + x.2) fun _ => mmXorSi128 (pt 0) ks) := by
    intro x
    simp only [storeRegister, Prod.map, id, Nat.mul_one]
    refine bind_congr fun pt => congrArg (storeu (i + x.2)) (funext fun k => ?_)
    rw [Subsingleton.elim k 0]
    rfl
  have hloop : ∀ s : List M128, forM (s.map fun sj _ => sj : List (Wide 1)).zipIdx (storeRegister blocks i) =
      forM s.zipIdx fun x => (do
        let pt ← loadu 1 blocks (i + x.2)
        let ks := mmShuffleEpi8 x.1 bswapMask
        storeu (L := 1) (i + x.2) fun _ => mmXorSi128 (pt 0) ks) := by
    intro s
    rw [List.zipIdx_map, List.forM_map]
    exact congrArg (forM s.zipIdx) (funext hstore)
  unfold pshufbRegisters
  rw [hloop]
  rfl

/-- **The body of a wide loop**: the registers of a turn, stored one after another. -/
theorem WideKernel.group_eq (kernel : WideKernel) (W : ℕ) (keys : Fin 11 → M128) (blocks : List Block) (i : ℕ)
    (ctr : kernel.Counters) :
    kernel.group W keys blocks (i, ctr) = do
      forM (kernel.registers W keys ctr).zipIdx (storeRegister blocks i)
      return (i + W * kernel.lanes, kernel.advance W keys ctr) := by
  cases kernel with
  | pshufb =>
    refine (pshufbGroup_eq W keys blocks i ctr).trans ?_
    unfold lanes
    rw [Nat.mul_one]
    rfl
  | vaes256 => rfl
  | vaes512 => rfl

end CudaAes
