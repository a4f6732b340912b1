import CudaAes.Bench.Registry
import CudaAes.Cpu.KnownAnswers
import CudaAes.Cpu.Closures

/-!
# The correctness gate (`benches/variants.rs`, `mod tests`)

`checkKat` runs a variant on the known answers, which are messages of one and of four blocks. A variant
that agrees with the scalar backend on these passes (`checkKat_of_agreesOn`), so the gate passes on exactly
the machines where every variant that is listed works. But a wide loop that takes more than four blocks a
turn is never entered, and the gate accepts whatever its body does (`gate_blind`).
-/

namespace CudaAes

open Rust Fips197

/-- A call on a given `out`. -/
def Aes.encrypt (v : Aes) (rk : List U32) (counter0 : Block) (blocks out : List Block) : Except Fault (List Block) :=
  match (v.encryptCtr rk counter0 blocks).run out with
  | .ok _ out' => .ok out'
  | .error e _ => .error e

def checkKat (variant : Aes) : Except Fault Unit := do
  forM KAT_VECTORS fun (pt, key, expected) => do
    let rk ← keyExpansion key
    let out ← variant.encrypt rk.toList pt [⟨0, 0, 0, 0⟩] [⟨0, 0, 0, 0⟩]
    assertEq (← index out 0) expected ("variant " ++ variant.name ++ " failed FIPS-197 cipher-core KAT")
  let rk ← keyExpansion CTR_KAT.key
  let out ← variant.encrypt rk.toList CTR_KAT.counter0 CTR_KAT.plaintext.toList (List.replicate 4 ⟨0, 0, 0, 0⟩)
  assertEq out CTR_KAT.ciphertext.toList ("variant " ++ variant.name ++ " failed NIST F.5.1 CTR KAT")

def cpuVariantsMatchFips197 (machine : Machine) : Except Fault Unit := forM (cpuVariants machine) checkKat

/-! ## Variants that pass -/

variable {rk : List U32} {counter0 : Block} {blocks out : List Block}

theorem Aes.AgreesOn.encrypt_eq {v : Aes} (h : v.AgreesOn blocks.length) (hrk : 44 ≤ rk.length)
    (hout : out.length = blocks.length) : v.encrypt rk counter0 blocks out = .ok (ctrText rk counter0 blocks) := by
  unfold Aes.encrypt
  rw [h.run hrk hout]

theorem Aes.Refuses.encrypt_eq {v : Aes} (h : v.Refuses) (rk : List U32) (counter0 : Block) (blocks out : List Block) :
    ∃ e, v.encrypt rk counter0 blocks out = .error e := by
  obtain ⟨e, -, hrun⟩ := h rk counter0 blocks out
  unfold Aes.encrypt
  rw [hrun]
  exact ⟨e, rfl⟩

/-- **A variant that agrees with the scalar backend on one and on four blocks passes the gate.** -/
theorem checkKat_of_agreesOn {v : Aes} (hone : v.AgreesOn 1) (hfour : v.AgreesOn 4) : checkKat v = .ok () := by
  have hvectors : ∀ kat ∈ KAT_VECTORS, (do
      let rk ← keyExpansion kat.2.1
      let out ← v.encrypt rk.toList kat.1 [⟨0, 0, 0, 0⟩] [⟨0, 0, 0, 0⟩]
      assertEq (← index out 0) kat.2.2 ("variant " ++ v.name ++ " failed FIPS-197 cipher-core KAT")) = .ok () := by
    intro kat hkat
    obtain ⟨rk, hkeys, hanswer⟩ := fips197_ctrText hkat
    have hrk : 44 ≤ rk.toList.length := by simp
    rw [hkeys, ok_bind, Aes.AgreesOn.encrypt_eq hone hrk rfl, ok_bind, hanswer,
      show index [kat.2.2] 0 = .ok kat.2.2 from rfl, ok_bind, assertEq_self]
  obtain ⟨rk, hkeys, hanswer⟩ := nist_f51_ctrText
  have hrk : 44 ≤ rk.toList.length := by simp
  have hlen : (List.replicate 4 (⟨0, 0, 0, 0⟩ : Block)).length = CTR_KAT.plaintext.toList.length := rfl
  have hloop := forM_eq_ok.mpr hvectors
  unfold checkKat
  refine (congrArg (· >>= _) hloop).trans ?_
  rw [ok_bind, hkeys, ok_bind, Aes.AgreesOn.encrypt_eq hfour hrk hlen, ok_bind, hanswer, assertEq_self]

theorem checkKat_of_refuses {v : Aes} (h : v.Refuses) : checkKat v ≠ .ok () := by
  intro hok
  obtain ⟨_, hloop, -⟩ := bind_eq_ok hok
  have hfirst := forM_eq_ok.mp hloop _ List.mem_cons_self
  obtain ⟨rk, -, hcall⟩ := bind_eq_ok hfirst
  obtain ⟨_, hcall, -⟩ := bind_eq_ok hcall
  obtain ⟨e, herror⟩ := h.encrypt_eq rk.toList ⟨0x3243F6A8, 0x885A308D, 0x313198A2, 0xE0370734⟩ [⟨0, 0, 0, 0⟩] [⟨0, 0, 0, 0⟩]
  cases herror.symm.trans hcall

/-- **The gate of the CPU registry** passes on a machine if and only if every variant it lists agrees with
the scalar backend on every message, which is when the CPU is coherent. -/
theorem cpuVariantsMatchFips197_iff (machine : Machine) :
    (cpuVariantsMatchFips197 machine = .ok () ↔ ∀ v ∈ cpuVariants machine, ∀ n, v.AgreesOn n) ∧
    (cpuVariantsMatchFips197 machine = .ok () ↔ machine.cpu.Coherent) := by
  have hpass : (∀ v ∈ cpuVariants machine, ∀ n, v.AgreesOn n) → cpuVariantsMatchFips197 machine = .ok () :=
    fun hall => forM_eq_ok.mpr fun v hv => checkKat_of_agreesOn (hall v hv 1) (hall v hv 4)
  have hagree : cpuVariantsMatchFips197 machine = .ok () → ∀ v ∈ cpuVariants machine, ∀ n, v.AgreesOn n := by
    intro hok v hv
    obtain ⟨ok, hsettle⟩ := cpuVariants_settle machine hv
    cases ok with
    | true => exact hsettle.agrees rfl
    | false => exact absurd (forM_eq_ok.mp hok v hv) (checkKat_of_refuses (hsettle.refuses rfl))
  refine ⟨⟨hagree, hpass⟩, fun hok => coherent_of_agreesOn fun v hv => hagree hok v hv 0,
    fun hcpu => hpass fun v hv n => agreesOn_of_coherent hcpu hv n⟩

/-! ## What the gate does not see -/

namespace WideKernel

/-- The body of a wide loop. -/
def Group (kernel : WideKernel) : Type :=
  (Fin 11 → M128) → List Block → ℕ × kernel.Counters → Run (Buffer Block) (ℕ × kernel.Counters)

def ownGroup (kernel : WideKernel) (W : ℕ) : kernel.Group := fun keys blocks x => kernel.group W keys blocks x

/-- A body that goes on without a store. -/
def skipGroup (kernel : WideKernel) (W : ℕ) : kernel.Group := fun _ _ x => return (x.1 + W * kernel.lanes, x.2)

/-- A kernel with `group` for the body of its wide loop. -/
def implWith (kernel : WideKernel) (group : kernel.Group) (fuel W : ℕ) (rk : List U32) (counter0 : Block)
    (blocks : List Block) : Run (Buffer Block) Unit := do
  let keys ← roundKeys rk
  let (i, _) ← whileLoop (fun x => decide (x.1 + W * kernel.lanes ≤ blocks.length)) (group keys blocks) fuel
    (0, kernel.seed W counter0)
  discard (remainder keys counter0 blocks fuel i)

/-- What the public wrappers of a kernel say when a CPU feature is missing. -/
def missing : WideKernel → String
  | pshufb => "aes-cpu::aesni pshufb path requires AES-NI + SSSE3"
  | vaes256 => "aes-cpu::vaes 256-bit path requires VAES + AVX2"
  | vaes512 => "aes-cpu::vaes 512-bit path requires VAES + AVX-512 (avx512f + avx512bw)"

/-- The public wrapper, around the kernel with `group` for its body. -/
def encryptCtrWith (kernel : WideKernel) (group : kernel.Group) (cpu : CpuFeatures) (fuel W : ℕ) (rk : List U32)
    (counter0 : Block) (blocks : List Block) : Run (Buffer Block) Unit := do
  assert (kernel.supported cpu) kernel.missing
  let out ← get
  assert (blocks.length == out.data.length) "out must be as long as blocks"
  kernel.implWith group fuel W rk counter0 blocks

/-- The multi-core wrapper, around the kernel with `group` for its body. -/
def encryptCtrParallelWith (kernel : WideKernel) (group : kernel.Group) (cpu : CpuFeatures) (fuel W threads : ℕ)
    (order : List ℕ) (rk : List U32) (counter0 : Block) (blocks : List Block) : Run (Buffer Block) Unit := do
  assert (kernel.supported cpu) kernel.missing
  let out ← get
  assert (blocks.length == out.data.length) "out must be as long as blocks"
  if blocks.length = 0 then
    return ()
  let chunk ← kernel.chunk W threads blocks.length
  parChunks (kernel.implWith group fuel W rk) chunk counter0 blocks order

theorem impl_eq_with (kernel : WideKernel) (fuel W : ℕ) (rk : List U32) (counter0 : Block) (blocks : List Block) :
    kernel.impl fuel W rk counter0 blocks = kernel.implWith (kernel.ownGroup W) fuel W rk counter0 blocks := by
  cases kernel with
  | pshufb =>
    unfold implWith lanes
    rw [Nat.mul_one]
    rfl
  | vaes256 => rfl
  | vaes512 => rfl

theorem encryptCtr_eq_with (kernel : WideKernel) (cpu : CpuFeatures) (fuel W : ℕ) (rk : List U32) (counter0 : Block)
    (blocks : List Block) :
    kernel.encryptCtr cpu fuel W rk counter0 blocks =
      kernel.encryptCtrWith (kernel.ownGroup W) cpu fuel W rk counter0 blocks := by
  unfold encryptCtrWith
  rw [← kernel.impl_eq_with]
  cases kernel <;> rfl

theorem encryptCtrParallel_eq_with (kernel : WideKernel) (cpu : CpuFeatures) (fuel W threads : ℕ) (order : List ℕ)
    (rk : List U32) (counter0 : Block) (blocks : List Block) :
    kernel.encryptCtrParallel cpu fuel W threads order rk counter0 blocks =
      kernel.encryptCtrParallelWith (kernel.ownGroup W) cpu fuel W threads order rk counter0 blocks := by
  have hkernel : kernel.implWith (kernel.ownGroup W) fuel W rk = fun c0 blk => kernel.impl fuel W rk c0 blk :=
    funext fun c0 => funext fun blk => (kernel.impl_eq_with fuel W rk c0 blk).symm
  have hceil : divCeil blocks.length (max threads 1) = .ok (blocks.length ⌈/⌉ max threads 1) := divCeil_eq (by omega) _
  unfold encryptCtrParallelWith
  rw [hkernel]
  cases kernel with
  | pshufb =>
    unfold chunk parChunk lanes
    rw [hceil, ok_bind, Nat.mul_one]
    show encryptCtrPshufbParallel cpu fuel W threads order rk counter0 blocks = _
    unfold encryptCtrPshufbParallel
    dsimp only
    rw [hceil]
    rfl
  | vaes256 => rfl
  | vaes512 => rfl

/-- On fewer blocks than a turn takes, the body of the wide loop is not run. -/
theorem implWith_short (kernel : WideKernel) (group group' : kernel.Group) (fuel W : ℕ) (rk : List U32)
    (counter0 : Block) (h : blocks.length < W * kernel.lanes) :
    kernel.implWith group fuel W rk counter0 blocks = kernel.implWith group' fuel W rk counter0 blocks := by
  unfold implWith
  refine bind_congr fun keys => congrArg (· >>= _) ?_
  cases fuel with
  | zero => rfl
  | succ fuel =>
    have hstop : decide (0 + W * kernel.lanes ≤ blocks.length) = false := decide_eq_false (by omega)
    unfold whileLoop
    dsimp only
    rw [hstop]
    rfl

/-- No chunk of such a message is longer. -/
theorem parChunks_short (kernel : WideKernel) (group group' : kernel.Group) (fuel W chunk : ℕ) (rk : List U32)
    (counter0 : Block) (order : List ℕ) (h : blocks.length < W * kernel.lanes) :
    parChunks (kernel.implWith group fuel W rk) chunk counter0 blocks order =
      parChunks (kernel.implWith group' fuel W rk) chunk counter0 blocks order := by
  have hpiece : ∀ c c0, kernel.implWith group fuel W rk c0 ((blocks.drop (c * chunk)).take chunk) =
      kernel.implWith group' fuel W rk c0 ((blocks.drop (c * chunk)).take chunk) := by
    intro c c0
    refine kernel.implWith_short group group' fuel W rk c0 ?_
    rw [List.length_take, List.length_drop]
    omega
  unfold parChunks
  simp only [hpiece]

end WideKernel

/-- A variant of the registry on a wide kernel, single-core or multi-core. -/
def wideVariant (machine : Machine) (name : String) (kernel : WideKernel) (W : ℕ) (parallel : Bool) : Aes :=
  if parallel then parallelVariant machine name kernel W else cpuVariant machine name fun _ => .wide kernel W

/-- Such a variant whose kernel has `group` for the body of its wide loop. -/
def mutantVariant (machine : Machine) (name : String) (kernel : WideKernel) (W : ℕ) (parallel : Bool)
    (group : kernel.Group) : Aes where
  name := name
  encryptCtr rk counter0 blocks := callOnSlice <|
    if parallel then
      kernel.encryptCtrParallelWith group machine.cpu (blocks.length + 1) W machine.threads
        (machine.order kernel W blocks.length) rk counter0 blocks
    else kernel.encryptCtrWith group machine.cpu (blocks.length + 1) W rk counter0 blocks

theorem mutantVariant_short (machine : Machine) (name : String) (kernel : WideKernel) {W : ℕ} (parallel : Bool)
    (group : kernel.Group) (rk : List U32) (counter0 : Block) (h : blocks.length < W * kernel.lanes) :
    (mutantVariant machine name kernel W parallel group).encryptCtr rk counter0 blocks =
      (wideVariant machine name kernel W parallel).encryptCtr rk counter0 blocks := by
  cases parallel with
  | false =>
    have hcall : kernel.encryptCtrWith group machine.cpu (blocks.length + 1) W rk counter0 blocks =
        kernel.encryptCtr machine.cpu (blocks.length + 1) W rk counter0 blocks := by
      rw [kernel.encryptCtr_eq_with]
      unfold WideKernel.encryptCtrWith
      rw [kernel.implWith_short group (kernel.ownGroup W) _ _ rk counter0 h]
    exact congrArg callOnSlice hcall
  | true =>
    have hcall : ∀ order,
        kernel.encryptCtrParallelWith group machine.cpu (blocks.length + 1) W machine.threads order rk counter0 blocks =
          kernel.encryptCtrParallel machine.cpu (blocks.length + 1) W machine.threads order rk counter0 blocks := by
      intro order
      rw [kernel.encryptCtrParallel_eq_with]
      unfold WideKernel.encryptCtrParallelWith
      simp only [kernel.parChunks_short group (kernel.ownGroup W) _ _ _ rk counter0 _ h]
    exact congrArg callOnSlice (hcall _)

theorem settles_wideVariant (machine : Machine) (name : String) (kernel : WideKernel) {W : ℕ} (hW : 1 ≤ W)
    (parallel : Bool) : (wideVariant machine name kernel W parallel).Settles (kernel.supported machine.cpu) := by
  cases parallel with
  | false => exact settles_wide machine name hW kernel
  | true => exact settles_parallel machine name hW kernel

/-- A verdict of the gate depends on messages of one and of four blocks. -/
theorem checkKat_congr {v v' : Aes} (hname : v.name = v'.name)
    (h : ∀ (rk : List U32) (counter0 : Block) (blocks : List Block), blocks.length ≤ 4 →
      v.encryptCtr rk counter0 blocks = v'.encryptCtr rk counter0 blocks) : checkKat v = checkKat v' := by
  have hcall : ∀ (rk : List U32) (counter0 : Block) (blocks out : List Block), blocks.length ≤ 4 →
      v.encrypt rk counter0 blocks out = v'.encrypt rk counter0 blocks out := by
    intro rk counter0 blocks out hlen
    unfold Aes.encrypt
    rw [h rk counter0 blocks hlen]
  unfold checkKat
  simp only [hname, hcall _ _ [⟨0, 0, 0, 0⟩] _ (by decide), hcall _ _ CTR_KAT.plaintext.toList _ (by decide)]

/-! ## A mutant that passes -/

namespace WideKernel

/-- The blocks that the mutant stores of a chunk of `m`: those past the whole turns. -/
def skipStores (kernel : WideKernel) (W m : ℕ) : List ℕ :=
  List.range' (m / (W * kernel.lanes) * (W * kernel.lanes)) (m - m / (W * kernel.lanes) * (W * kernel.lanes))

variable (kernel : WideKernel) {W : ℕ} (hW : 1 ≤ W)

theorem lt_of_mem_skipStores (W m : ℕ) : ∀ j ∈ kernel.skipStores W m, j < m := by
  intro j hj
  have hdiv := Nat.div_mul_le_self m (W * kernel.lanes)
  rw [skipStores, List.mem_range'_1] at hj
  omega

include hW

/-- The first block of a chunk that fills a turn is not among them. -/
theorem zero_not_mem_skipStores {m : ℕ} (hm : W * kernel.lanes ≤ m) : 0 ∉ kernel.skipStores W m := by
  have hG : 0 < W * kernel.lanes := Nat.mul_pos hW kernel.lanes_pos
  have hfirst : 0 < m / (W * kernel.lanes) * (W * kernel.lanes) := Nat.mul_pos (Nat.div_pos hm hG) hG
  rw [skipStores, List.mem_range'_1]
  omega

theorem run_implWith_skip (hrk : 44 ≤ rk.length) (hlen : blocks.length ≤ out.length) {fuel : ℕ}
    (hfuel : blocks.length < fuel) :
    (kernel.implWith (kernel.skipGroup W) fuel W rk counter0 blocks).run (.ofList out) =
      .ok () (.stored (ctrBlock rk counter0 blocks) out (kernel.skipStores W blocks.length)) := by
  have hG : 0 < W * kernel.lanes := Nat.mul_pos hW kernel.lanes_pos
  have hdiv := Nat.div_mul_le_self blocks.length (W * kernel.lanes)
  have hmod := Nat.lt_div_mul_add hG (a := blocks.length)
  have hwide : (whileLoop (fun x => decide (x.1 + W * kernel.lanes ≤ blocks.length))
        (kernel.skipGroup W (scheduleKeys rk) blocks) fuel (0 * (W * kernel.lanes), kernel.seed W counter0)).run
          (.ofList out) =
      .ok (blocks.length / (W * kernel.lanes) * (W * kernel.lanes), kernel.seed W counter0) (.ofList out) := by
    refine whileLoop_seq (fun k => (k * (W * kernel.lanes), kernel.seed W counter0)) (fun _ => Buffer.ofList out)
      (blocks.length / (W * kernel.lanes)) (fun k hk => ⟨decide_eq_true ?_, ?_⟩) (decide_eq_false (by dsimp only; omega))
      ((Nat.div_le_self _ _).trans_lt hfuel)
    · rw [← Nat.succ_mul]
      exact (Nat.le_div_iff_mul_le hG).mp hk
    · rw [Nat.succ_mul]
      rfl
  rw [Nat.zero_mul] at hwide
  have htail : (remainder (scheduleKeys rk) counter0 blocks fuel
      (blocks.length / (W * kernel.lanes) * (W * kernel.lanes))).run (.stored (ctrBlock rk counter0 blocks) out []) =
        .ok blocks.length (.stored (ctrBlock rk counter0 blocks) out (kernel.skipStores W blocks.length)) :=
    run_remainder hlen hdiv (by omega) [] 0
  rw [Buffer.stored_nil] at htail
  unfold implWith
  rw [roundKeys_eq hrk, run_bind_ok (run_liftM_ok _ _), run_bind_ok hwide]
  exact run_map_ok htail

/-- Of a message that fills a turn, the mutant leaves the first block of `out` alone. -/
theorem run_skipVariant (machine : Machine) (name : String) (parallel : Bool)
    (hcpu : kernel.supported machine.cpu = true) (hrk : 44 ≤ rk.length) (counter0 : Block)
    (hlen : blocks.length = out.length) (hturn : W * kernel.lanes ≤ blocks.length) :
    ∃ out', ((mutantVariant machine name kernel W parallel (kernel.skipGroup W)).encryptCtr rk counter0 blocks).run out =
      .ok () out' ∧ out'[0]? = out[0]? := by
  cases parallel with
  | false =>
    have hrun := (run_checked (σ := Buffer Block) hcpu hlen kernel.missing "out must be as long as blocks"
      (kernel.implWith (kernel.skipGroup W) (blocks.length + 1) W rk counter0 blocks) 0).trans
        (kernel.run_implWith_skip hW hrk hlen.le (Nat.lt_succ_self _))
    exact ⟨_, run_callOnSlice_ok hrun, Buffer.getElem?_stored_not_mem _ _ (kernel.zero_not_mem_skipStores hW hturn)⟩
  | true =>
    have hG : 0 < W * kernel.lanes := Nat.mul_pos hW kernel.lanes_pos
    have hn : blocks.length ≠ 0 := by omega
    obtain ⟨size, hok, hpos, -, -, hdvd⟩ := parChunk_ok machine.threads hn hG
    have horder : (machine.order kernel W blocks.length).Perm (List.range (blocks.length ⌈/⌉ size)) := by
      unfold Machine.order
      rw [show kernel.chunk W machine.threads blocks.length = .ok size from hok]
      exact machine.schedule_perm _
    have hloop := run_parChunks (σ := Buffer Block) counter0 (kernel.skipStores W) (fun _ => 0)
      (kernel.lt_of_mem_skipStores W)
      (fun c0 blk sub _ hblk hle => kernel.run_implWith_skip hW hrk hblk.le (Nat.lt_succ_of_le hle)) hpos hlen horder 0
    obtain ⟨stores, hstores⟩ : ∃ stores, stores = (machine.order kernel W blocks.length).flatMap fun c =>
        (kernel.skipStores W (chunkRange blocks.length size c).length).map (c * size + ·) := ⟨_, rfl⟩
    have hrun : (kernel.encryptCtrParallelWith (kernel.skipGroup W) machine.cpu (blocks.length + 1) W machine.threads
        (machine.order kernel W blocks.length) rk counter0 blocks).run (.ofList out) =
          .ok () (.stored (ctrBlock rk counter0 blocks) out stores) := by
      refine (run_checked (σ := Buffer Block) hcpu hlen kernel.missing _ _ 0).trans ?_
      rw [if_neg hn, show kernel.chunk W machine.threads blocks.length = .ok size from hok, hstores]
      exact (run_bind_ok (run_liftM_ok _ _)).trans hloop
    refine ⟨_, run_callOnSlice_ok hrun, Buffer.getElem?_stored_not_mem _ _ ?_⟩
    -- only the first chunk holds block 0, and it fills a turn
    intro hmem
    rw [hstores] at hmem
    obtain ⟨c, -, hmem⟩ := List.mem_flatMap.mp hmem
    obtain ⟨j, hj, hzero⟩ := List.mem_map.mp hmem
    obtain rfl : j = 0 := by omega
    have hc : c = 0 := (Nat.mul_eq_zero.mp (by omega : c * size = 0)).resolve_right hpos.ne'
    rw [length_chunkRange, hc, Nat.zero_mul, Nat.sub_zero] at hj
    exact kernel.zero_not_mem_skipStores hW (le_min (Nat.le_of_dvd hpos hdvd) hturn) hj

end WideKernel

/-- **The gate does not see the wide loop.** For any kernel that takes more than four blocks a turn, behind its
single-core or its multi-core wrapper, the gate gives a variant with any other body in its wide loop the same
verdict; so there are variants that pass and that agree with the scalar backend on no message that fills a
turn. -/
theorem gate_blind (machine : Machine) (name : String) (kernel : WideKernel) (W : ℕ) (parallel : Bool)
    (hW : 4 < W * kernel.lanes) :
    (∀ group, checkKat (mutantVariant machine name kernel W parallel group) =
      checkKat (wideVariant machine name kernel W parallel)) ∧
    (kernel.supported machine.cpu = true → ∃ group,
      checkKat (mutantVariant machine name kernel W parallel group) = .ok () ∧
      ∀ n, (mutantVariant machine name kernel W parallel group).AgreesOn n ↔ n < W * kernel.lanes) := by
  have hname : ∀ group, (mutantVariant machine name kernel W parallel group).name =
      (wideVariant machine name kernel W parallel).name := by
    intro group
    cases parallel <;> rfl
  have hsame : ∀ group, checkKat (mutantVariant machine name kernel W parallel group) =
      checkKat (wideVariant machine name kernel W parallel) := by
    intro group
    refine checkKat_congr (hname group) fun rk counter0 blocks hlen => ?_
    exact mutantVariant_short machine name kernel parallel group rk counter0 (hlen.trans_lt hW)
  have hpos : 1 ≤ W := by
    by_contra hzero
    obtain rfl : W = 0 := by omega
    omega
  have hsettle := settles_wideVariant machine name kernel hpos parallel
  refine ⟨hsame, fun hcpu => ⟨kernel.skipGroup W, ?_, fun n => ⟨fun hagree => ?_, fun hn => ?_⟩⟩⟩
  · rw [hsame, checkKat_of_agreesOn (hsettle.agrees hcpu 1) (hsettle.agrees hcpu 4)]
  · -- the mutant keeps the first block, so it cannot leave one ciphertext on two slices
    by_contra hturn
    obtain ⟨blocks, rfl⟩ : ∃ blocks : List Block, blocks.length = n := ⟨List.replicate n default, List.length_replicate⟩
    have hrk : 44 ≤ (List.replicate 44 (0 : U32)).length := List.length_replicate.ge
    have hkept : ∀ b : Block, (ctrText (List.replicate 44 0) default blocks)[0]? = some b := by
      intro b
      have hout : (List.replicate blocks.length b).length = blocks.length := List.length_replicate
      obtain ⟨out', hrun, hfirst⟩ := kernel.run_skipVariant hpos machine name parallel hcpu hrk default hout.symm
        (not_lt.mp hturn)
      obtain rfl := (EStateM.Result.ok.inj ((hagree.run hrk hout).symm.trans hrun)).2
      rw [hfirst, List.getElem?_replicate, if_pos (by omega)]
    have hzero := Option.some.inj ((hkept ⟨0, 0, 0, 0⟩).symm.trans (hkept ⟨1, 0, 0, 0⟩))
    exact absurd (congrArg Arr4.e0 hzero) (by decide)
  · intro rk counter0 blocks out hrk hblocks hout
    rw [mutantVariant_short machine name kernel parallel _ rk counter0 (hblocks.trans_lt hn)]
    exact hsettle.agrees hcpu n rk counter0 blocks out hrk hblocks hout

/-- The multi-core PSHUFB variant of the registry, with eight blocks a turn, on two threads. -/
theorem gate_blind_eight : ∃ group, checkKat (mutantVariant ⟨⟨true, true, false, false, false, false⟩, 2, false, List.range,
      id, fun _ => .refl _, fun _ => .refl _⟩ "cpu/aesni-x8-pshufb-parallel" .pshufb 8 true group) = .ok () ∧
    ¬ (mutantVariant ⟨⟨true, true, false, false, false, false⟩, 2, false, List.range, id, fun _ => .refl _,
      fun _ => .refl _⟩ "cpu/aesni-x8-pshufb-parallel" .pshufb 8 true group).AgreesOn 8 := by
  obtain ⟨group, hpass, hagree⟩ := (gate_blind ⟨⟨true, true, false, false, false, false⟩, 2, false, List.range, id,
    fun _ => .refl _, fun _ => .refl _⟩ "cpu/aesni-x8-pshufb-parallel" .pshufb 8 true (show 4 < 8 * 1 by omega)).2 rfl
  exact ⟨group, hpass, fun h => Nat.lt_irrefl 8 ((hagree 8).mp h)⟩

end CudaAes
