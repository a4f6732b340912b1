import CudaAes.Gpu.Host

/-!
# A call of the GPU wrapper, in flight

`AesGpu::encrypt_ctr` as a run over device operations. The uploads (`as_dbuf`) and the zero fill of
`ct` (`DeviceBuffer::zeroed`) go to the default stream and may still be in flight when the host goes
on; the stream runs them one after another, each word by word in any order. The kernel is on a
`NON_BLOCKING` stream of its own, so nothing orders it after them: its threads read and store while
the default stream runs. `synchronize` waits for the kernel's stream only, and the copy back, which
is synchronous and on the default stream, for that stream.

An empty message returns before any of this. The tables are resident, and the buffers of a call are
allocated with some contents or other.
-/

namespace CudaAes

open Rust

inductive Buf
  | counter0
  | pt
  | rk
  | ct
  deriving DecidableEq, Repr

structure GpuCall where
  rk : List U32
  counter0 : Block
  blocks : List Block
  blocksPerThread : ℕ

namespace GpuCall

def r (c : GpuCall) : ℕ := max c.blocksPerThread 1

/-- What the default stream writes to a buffer. -/
def source (c : GpuCall) : Buf → List U32
  | .counter0 => c.counter0.toList
  | .pt => asFlattened c.blocks
  | .rk => c.rk
  | .ct => List.replicate (c.blocks.length * 4) 0

/-- The kernel's parameters, as device memory holds them. -/
def args (c : GpuCall) (mem : Buf → List U32) : KernelArgs :=
  { kernelArgs c.rk c.counter0 c.blocks c.r with counter0 := mem .counter0, pt := mem .pt, rk := mem .rk }

end GpuCall

/-- An operation of the default stream: its buffer, and the words it has still to write. -/
structure Transfer where
  buf : Buf
  pending : List Store

def transferWords (words : List U32) : List Store := words.zipIdx.map fun w => (w.2, w.1)

inductive HostPc
  | issue (b : Buf)
  | launch
  | synchronize
  | download
  | returned
  deriving DecidableEq, Repr

/-- The host issues the transfers in this order, and then launches. -/
def afterIssue : Buf → HostPc
  | .counter0 => .issue .pt
  | .pt => .issue .rk
  | .rk => .issue .ct
  | .ct => .launch

/-- Where a thread of the kernel is: before its launch, about to read the counter, at block `j` of its
loop, with stores of that block to go, or at its end. -/
inductive ThreadState
  | idle
  | ready
  | loop (counter0 : Block) (j : ℕ)
  | storing (counter0 : Block) (j : ℕ) (stores : List Store)
  | done
  deriving DecidableEq, Repr

/-- What is observed of device memory: a transfer writes a word, the kernel reads a buffer, and the
kernel stores a word of `ct`. -/
inductive GpuEvent
  | write (b : Buf) (i : ℕ)
  | read (b : Buf) (words : List U32)
  | store (a : ℕ)
  deriving DecidableEq, Repr

structure GpuState where
  pc : HostPc
  stream : List Transfer
  mem : Buf → List U32
  thread : ℕ → ThreadState
  out : List Block
  history : List GpuEvent

def threadIndex (c : GpuCall) (t j : ℕ) : ℕ := usizeAdd (usizeMul (index1d t).toNat c.r) j

/-- One step of a call, and the events it adds to the history. -/
inductive GpuStep (c : GpuCall) : GpuState → List GpuEvent → GpuState → Prop
  | issue {s : GpuState} {b : Buf} : s.pc = .issue b →
      GpuStep c s [] { s with pc := afterIssue b, stream := s.stream ++ [⟨b, transferWords (c.source b)⟩] }
  | write {s : GpuState} {b : Buf} {before after : List Store} {w : Store} {rest : List Transfer} :
      s.stream = ⟨b, before ++ w :: after⟩ :: rest →
      GpuStep c s [.write b w.1] { s with
        stream := ⟨b, before ++ after⟩ :: rest
        mem := Function.update s.mem b ((s.mem b).set w.1 w.2)
        history := s.history ++ [.write b w.1] }
  | complete {s : GpuState} {b : Buf} {rest : List Transfer} : s.stream = ⟨b, []⟩ :: rest →
      GpuStep c s [] { s with stream := rest }
  | launch {s : GpuState} {grid : ℕ} : s.pc = .launch → launchGrid c.blocks.length c.r = .ok grid → grid ≠ 0 →
      GpuStep c s [] { s with
        pc := .synchronize, thread := fun t => if t < grid * BLOCK then .ready else .done }
  | start {s : GpuState} {t : ℕ} {counter0 : Block} : s.thread t = .ready →
      readCounter (s.mem .counter0) = .ok counter0 →
      GpuStep c s [.read .counter0 (s.mem .counter0)] { s with
        thread := Function.update s.thread t (.loop counter0 0)
        history := s.history ++ [.read .counter0 (s.mem .counter0)] }
  | read {s : GpuState} {t j : ℕ} {counter0 : Block} {stores : List Store} : s.thread t = .loop counter0 j →
      j < c.r → threadIndex c t j < c.blocks.length →
      blockStores (c.args s.mem) counter0 (threadIndex c t j) = .ok stores →
      GpuStep c s [.read .pt (s.mem .pt), .read .rk (s.mem .rk)] { s with
        thread := Function.update s.thread t (.storing counter0 j stores)
        history := s.history ++ [.read .pt (s.mem .pt), .read .rk (s.mem .rk)] }
  | store {s : GpuState} {t j : ℕ} {counter0 : Block} {w : Store} {stores : List Store} :
      s.thread t = .storing counter0 j (w :: stores) →
      GpuStep c s [.store w.1] { s with
        mem := Function.update s.mem .ct ((s.mem .ct).set w.1 w.2)
        thread := Function.update s.thread t (.storing counter0 j stores)
        history := s.history ++ [.store w.1] }
  | next {s : GpuState} {t j : ℕ} {counter0 : Block} : s.thread t = .storing counter0 j [] →
      GpuStep c s [] { s with thread := Function.update s.thread t (.loop counter0 (j + 1)) }
  | exit {s : GpuState} {t j : ℕ} {counter0 : Block} : s.thread t = .loop counter0 j →
      (j = c.r ∨ c.blocks.length ≤ threadIndex c t j) →
      GpuStep c s [] { s with thread := Function.update s.thread t .done }
  | synchronize {s : GpuState} : s.pc = .synchronize → (∀ t, s.thread t = .done) →
      GpuStep c s [] { s with pc := .download }
  | download {s : GpuState} : s.pc = .download → s.stream = [] →
      GpuStep c s [] { s with pc := .returned, out := ofFlattened (s.mem .ct) }

structure GpuState.Initial (c : GpuCall) (s : GpuState) : Prop where
  pc : s.pc = .issue .counter0
  stream : s.stream = []
  mem : ∀ b, (s.mem b).length = (c.source b).length
  thread : ∀ t, s.thread t = .idle
  history : s.history = []

/-- A call that begins on zeroed buffers. -/
def GpuState.zeroed (c : GpuCall) : GpuState where
  pc := .issue .counter0
  stream := []
  mem := fun b => List.replicate (c.source b).length 0
  thread := fun _ => .idle
  out := []
  history := []

theorem initial_zeroed (c : GpuCall) : (GpuState.zeroed c).Initial c where
  pc := rfl
  stream := rfl
  mem := fun _ => List.length_replicate
  thread := fun _ => rfl
  history := rfl

/-- The states of the runs of a call whose every step, from its state and with its events, satisfies `G`. -/
def GpuReachable (c : GpuCall) (G : GpuState → List GpuEvent → Prop) (s₀ : GpuState) : GpuState → Prop :=
  Relation.ReflTransGen (fun s s' => ∃ events, GpuStep c s events s' ∧ G s events) s₀

/-- Any step that the rules of the streams admit. -/
def AnyOrder (_ : GpuState) (_ : List GpuEvent) : Prop := True

/-- A step on which the kernel does not overtake the default stream: nothing is still to be written that
changes a buffer it reads, and nothing to a word that it stores. -/
def InOrder (s : GpuState) (events : List GpuEvent) : Prop :=
  (∀ b words, .read b words ∈ events → ∀ x ∈ s.stream, x.buf = b → ∀ w ∈ x.pending, (s.mem b)[w.1]? = some w.2) ∧
  ∀ a, .store a ∈ events → ∀ x ∈ s.stream, x.buf = .ct → a ∉ x.pending.map Prod.fst

end CudaAes
