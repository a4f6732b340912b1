import CudaAes.Bench.Throughput
import CudaAes.Gpu.Session
import CudaAes.Cpu.KnownAnswers

/-!
# Two clients of the GPU handle

The crate's own test (`aes-gpu/src/lib.rs`, `mod tests`) and the latency benchmark (`benches/latency.rs`)
make one handle, expect every call to succeed, and drop it. Each makes a fixed number of calls of the library;
it ends well if and only if none of them fails, and otherwise panics with the message of an `expect`. So no
failure of the driver makes the test report a wrong answer, as long as the device operations of a call take
effect in program order, which the handle of the model assumes.
-/

namespace CudaAes

open Rust Fips197

namespace AesGpu

/-- `Result::expect`, whose panic names the error after the message. -/
def expect {α : Type} (result : Except DriverError α) (message : String) : Except Fault α :=
  match result with
  | .ok a => .ok a
  | .error _ => .error (.assertion message)

section clients
variable (driver : Driver)

/-- `AesGpu::new().expect(..)`, and the rest of the scope that owns the handle. -/
def withHandle {α : Type} (body : Handle → Run Gpu α) : Run Gpu α := do
  let result ← (AesGpu.new driver).run
  let gpu ← expect result "CUDA init failed (needs an NVIDIA GPU)"
  andFinally (body gpu) gpu.drop

/-- A call with one block for each thread, which is expected to succeed. -/
def Handle.expectCtr (g : Handle) (rk : List U32) (counter0 : Block) (blocks : List Block) : Run Gpu Unit := do
  let result ← (g.encryptCtr driver rk counter0 blocks 1).run
  expect result "kernel launch failed"

/-- Such a call on a new `out`, whose contents it gives. -/
def Handle.encrypt (g : Handle) (rk : List U32) (counter0 : Block) (blocks : List Block) : Run Gpu (List Block) := do
  modify fun w => { w with host := List.replicate blocks.length ⟨0, 0, 0, 0⟩ }
  g.expectCtr driver rk counter0 blocks
  let w ← get
  return w.host

/-- `{:08x?}` of a block. -/
def hexBlock (b : Block) : String := "[" ++ ", ".intercalate (b.toList.map BitVec.toHex) ++ "]"

def checkVector (g : Handle) (kat : Block × Block × Block) : Run Gpu Unit := do
  let (pt, key, expected) := kat
  let rk ← keyExpansion key
  let out ← g.encrypt driver rk.toList pt [⟨0, 0, 0, 0⟩]
  let block ← index out 0
  assertEq block expected ("GPU cipher-core mismatch for pt=" ++ hexBlock pt)

def gpuMatchesKnownAnswers : Run Gpu Unit := withHandle driver fun gpu => do
  forM KAT_VECTORS (checkVector driver gpu)
  let rk ← keyExpansion CTR_KAT.key
  let out ← gpu.encrypt driver rk.toList CTR_KAT.counter0 CTR_KAT.plaintext.toList
  assertEq out CTR_KAT.ciphertext.toList "GPU CTR-mode mismatch (NIST F.5.1)"

/-- `bench_latency`, when the harness calls its closure `iters` times, with what it leaves in `out`. -/
def benchLatency (iters : ℕ) : Run Gpu (List Block) := withHandle driver fun gpu => do
  let rk ← demoRoundKeys
  modify fun w => { w with host := [⟨0, 0, 0, 0⟩] }
  forM (List.range iters) fun _ => gpu.expectCtr driver rk.toList demoCounter0 [demoBlock]
  let w ← get
  return w.host

end clients

/-! ## Clients that expect success -/

variable {driver : Driver} {g : Handle} {base w : Gpu} {a m total : ℕ}

/-- A client, begun in `base` at call `a` of the library, after `m` calls that have not failed. -/
structure Passing (driver : Driver) (g : Handle) (base : Gpu) (a m : ℕ) (w : Gpu) : Prop where
  owned : g.Owned base w
  calls : w.calls = a + m
  ok : driver.AllOk a w.calls

/-- How it ends if one of its `total` calls of the library fails. -/
structure Reported (driver : Driver) (g : Handle) (base : Gpu) (a total : ℕ) (e : Fault) (w : Gpu) : Prop where
  owned : g.Owned base w
  failed : ¬ driver.AllOk a (a + total)
  message : e = .assertion "kernel launch failed"

theorem onlyPanics_expect {α : Type} (result : Except DriverError α) (message : String) :
    OnlyPanics (expect result message) := by
  cases result with
  | ok a => exact onlyPanics_ok a
  | error _ =>
    intro e he
    cases he
    trivial

theorem Passing.set_host (h : Passing driver g base a m w) (out : List Block) :
    Passing driver g base a m { w with host := out } :=
  ⟨h.owned.kept ⟨rfl, fun _ _ => rfl, le_rfl⟩, h.calls, h.ok⟩

/-- A client ends well if no call fails, and what its body may panic with if one does. -/
theorem meets_withHandle {α : Type} {body : Handle → Run Gpu α} {ok : α → Prop} (hw : w.Fresh) (htotal : 8 ≤ total)
    (hbody : ∀ g w', Passing driver g w w.calls 8 w' →
      Meets (body g) w' (fun x w'' => Passing driver g w w.calls total w'' ∧ ok x) (Reported driver g w w.calls total)) :
    Meets (withHandle driver body) w
      (fun x w' => w'.live = w.live ∧ driver.AllOk w.calls (w.calls + total) ∧ ok x)
      fun e w' => w'.live = w.live ∧ ¬ driver.AllOk w.calls (w.calls + total) ∧
        (e = .assertion "CUDA init failed (needs an NVIDIA GPU)" ∨ e = .assertion "kernel launch failed") := by
  have hnew : Returns (AesGpu.new driver) w (fun g w' => Passing driver g w w.calls 8 w')
      (fun _ w' => w'.live = w.live ∧ ¬ driver.AllOk w.calls (w.calls + total))
      fun e w' => w'.live = w.live ∧ ¬ driver.AllOk w.calls (w.calls + total) ∧
        (e = .assertion "CUDA init failed (needs an NVIDIA GPU)" ∨ e = .assertion "kernel launch failed") := by
    refine Returns.mono (moves_new driver hw) (fun g w' hmade => ?_) (fun e w' hfailed => ?_) fun _ _ h => h.2.elim
    · obtain ⟨hg, hok, hcalls, -⟩ := hmade
      exact ⟨hg, hcalls, hok⟩
    · obtain ⟨hkept, hfails, hle, -⟩ := hfailed
      exact ⟨hkept.live, hfails.not_allOk le_rfl (by omega)⟩
  unfold withHandle
  refine Meets.bind hnew fun result w' hresult => ?_
  cases result with
  | error e =>
    refine Meets.bind (meets_liftM (onlyPanics_expect _ _) (fun _ h => by cases h) fun e' he => ?_) (fun _ _ h => h)
    cases he
    exact ⟨hresult.1, hresult.2, Or.inl rfl⟩
  | ok g =>
    refine meets_ok_bind (meets_andFinally (hbody g w' hresult) (fun x w'' ⟨h, hx⟩ => ?_) fun e w'' h => ?_)
    · refine meets_of_ok h.owned.run_drop ⟨rfl, ?_, hx⟩
      have hok := h.ok
      rwa [h.calls] at hok
    · exact meets_of_ok h.owned.run_drop ⟨rfl, h.failed, Or.inr h.message⟩

section call
variable {rk : List U32} {blocks : List Block} (hrk : 44 ≤ rk.length) (counter0 : Block) (hn : blocks.length ≠ 0)
  (hlt : blocks.length < 2 ^ 32) (hm : m + 8 ≤ total)
include hrk hn hlt hm

theorem Passing.meets_expectCtr (h : Passing driver g base a m w) (hlen : w.host.length = blocks.length) :
    Meets (g.expectCtr driver rk counter0 blocks) w
      (fun _ w' => Passing driver g base a (m + 8) w' ∧ w'.host = ctrText rk counter0 blocks)
      (Reported driver g base a total) := by
  have hideal : ∀ {result : EStateM.Result Fault (List Block) (Except CudaError Unit)},
      Ideal driver.debugAssertions rk counter0 blocks w.host 1 result →
        result = .ok (.ok ()) (ctrText rk counter0 blocks) :=
    fun h => h.eq_ctrText hrk hlt hlen (by decide)
  have hcalls := h.calls
  have hcall : Returns (g.encryptCtr driver rk counter0 blocks 1) w
      (fun _ w' => Passing driver g base a (m + 8) w' ∧ w'.host = ctrText rk counter0 blocks)
      (fun _ w' => g.Owned base w' ∧ ¬ driver.AllOk a (a + total)) (Reported driver g base a total) := by
    refine Returns.mono (Handle.balanced_encryptCtr driver h.owned.intact rk counter0 blocks 1)
      (fun _ w' hreturned => ?_) (fun e w' hfailed => ?_) fun e w' hpanicked => ?_
    · obtain ⟨hkept, hdone, hcalls', hend⟩ := hreturned
      have hhost := hideal hend
      injection hhost with _ hhost
      exact ⟨⟨h.owned.kept hkept, by rw [hcalls' hn]; omega, h.ok.trans hdone⟩, hhost⟩
    · obtain ⟨hkept, ⟨hfails, hle, -⟩ | ⟨-, -, ce, -, hend⟩⟩ := hfailed
      · exact ⟨h.owned.kept hkept, hfails.not_allOk (by omega) (by omega)⟩
      · cases hideal hend
    · obtain ⟨-, -, -, hend⟩ := hpanicked
      cases hideal hend
  unfold Handle.expectCtr
  refine Meets.bind hcall fun result w' hresult => ?_
  cases result with
  | ok _ => exact meets_of_ok rfl hresult
  | error e =>
    refine meets_liftM (onlyPanics_expect _ _) (fun _ h => by cases h) fun e' he => ?_
    cases he
    exact ⟨hresult.1, hresult.2, rfl⟩

theorem Passing.meets_encrypt (h : Passing driver g base a m w) :
    Meets (g.encrypt driver rk counter0 blocks) w
      (fun out w' => Passing driver g base a (m + 8) w' ∧ out = ctrText rk counter0 blocks)
      (Reported driver g base a total) := by
  unfold Handle.encrypt
  have hcall := (h.set_host (List.replicate blocks.length ⟨0, 0, 0, 0⟩)).meets_expectCtr hrk counter0 hn hlt hm
    List.length_replicate
  exact meets_modify_bind (hcall.bind fun _ w' hw' => meets_pure hw')

end call

/-! ## The test -/

/-- One vector of the test. -/
theorem Passing.meets_checkVector (h : Passing driver g base a m w) (hm : m + 8 ≤ total)
    {kat : Block × Block × Block} (hkat : kat ∈ KAT_VECTORS) :
    Meets (checkVector driver g kat) w (fun _ => Passing driver g base a (m + 8)) (Reported driver g base a total) := by
  obtain ⟨rk, hkeys, hanswer⟩ := fips197_ctrText hkat
  have hrk : 44 ≤ rk.toList.length := by simp
  obtain ⟨pt, key, expected⟩ := kat
  unfold checkVector
  dsimp only at hkeys hanswer ⊢
  rw [hkeys]
  have hcall := h.meets_encrypt hrk pt (show [(⟨0, 0, 0, 0⟩ : Block)].length ≠ 0 from Nat.one_ne_zero)
    (show 1 < 2 ^ 32 by omega) hm
  have hblock : index [expected] 0 = .ok expected := rfl
  refine meets_ok_bind (hcall.bind fun out w' ⟨hw', hout⟩ => ?_)
  rw [hout, hanswer, hblock]
  refine meets_ok_bind ?_
  rw [assertEq_self]
  exact meets_of_ok rfl hw'

theorem Passing.meets_vectors (h : Passing driver g base a m w) {kats : List (Block × Block × Block)}
    (hkats : kats ⊆ KAT_VECTORS) (hm : m + 8 * kats.length ≤ total) :
    Meets (forM kats (checkVector driver g)) w (fun _ => Passing driver g base a (m + 8 * kats.length))
      (Reported driver g base a total) := by
  induction kats generalizing m w with
  | nil => exact meets_pure h
  | cons kat kats ih =>
    rw [List.length_cons] at hm ⊢
    rw [List.forM_cons]
    refine (h.meets_checkVector (by omega) (hkats List.mem_cons_self)).bind fun _ w' hw' => ?_
    have hrest := ih hw' (List.subset_of_cons_subset hkats) (by omega)
    rwa [show m + 8 + 8 * kats.length = m + 8 * (kats.length + 1) by omega] at hrest

theorem meets_gpuMatchesKnownAnswers (driver : Driver) (hw : w.Fresh) :
    Meets (gpuMatchesKnownAnswers driver) w
      (fun _ w' => w'.live = w.live ∧ driver.AllOk w.calls (w.calls + 32) ∧ True)
      fun e w' => w'.live = w.live ∧ ¬ driver.AllOk w.calls (w.calls + 32) ∧
        (e = .assertion "CUDA init failed (needs an NVIDIA GPU)" ∨ e = .assertion "kernel launch failed") := by
  refine meets_withHandle hw (by omega) fun g w' h => ?_
  refine (h.meets_vectors (List.Subset.refl _) (by decide)).bind fun _ w' hw' => ?_
  obtain ⟨rk, hkeys, hanswer⟩ := nist_f51_ctrText
  have hrk : 44 ≤ rk.toList.length := by simp
  have hcall := hw'.meets_encrypt hrk CTR_KAT.counter0
    (show CTR_KAT.plaintext.toList.length ≠ 0 from Nat.succ_ne_zero 3) (show 4 < 2 ^ 32 by omega) le_rfl
  rw [hkeys]
  refine meets_ok_bind (hcall.bind fun out w'' ⟨hw'', hout⟩ => ?_)
  rw [hout, hanswer, assertEq_self]
  exact meets_of_ok rfl ⟨hw'', trivial⟩

/-- **The test passes if and only if no call of the library fails**, where the device operations of a call take
effect in program order; it then never reports a wrong answer. In either case everything is released. -/
theorem gpuMatchesKnownAnswers_run (driver : Driver) (w : Gpu) (hw : w.Fresh) :
    (driver.AllOk w.calls (w.calls + 32) →
      ∃ w', (gpuMatchesKnownAnswers driver).run w = .ok () w' ∧ w'.live = w.live) ∧
    (¬ driver.AllOk w.calls (w.calls + 32) →
      ∃ e w', (gpuMatchesKnownAnswers driver).run w = .error e w' ∧ w'.live = w.live ∧
        (e = .assertion "CUDA init failed (needs an NVIDIA GPU)" ∨ e = .assertion "kernel launch failed")) := by
  rcases (meets_gpuMatchesKnownAnswers driver hw).elim with ⟨_, w', hrun, hlive, hok, -⟩ |
    ⟨e, w', hrun, -, hlive, hfailed, hmessage⟩
  · exact ⟨fun _ => ⟨w', hrun, hlive⟩, fun hfailed => absurd hok hfailed⟩
  · exact ⟨fun hok => absurd hok hfailed, fun _ => ⟨e, w', hrun, hlive, hmessage⟩⟩

/-- A driver that does not fail, on a device without resources. -/
theorem gpuMatchesKnownAnswers_run_reliable :
    ∃ w', (gpuMatchesKnownAnswers reliable).run idle = .ok () w' ∧ w'.live = idle.live :=
  (gpuMatchesKnownAnswers_run reliable idle fresh_idle).1 fun _ _ _ => rfl

/-! ## The latency benchmark -/

/-- The iterations, on one `out`. -/
theorem Passing.meets_iterations (h : Passing driver g base a m w) {rk : List U32} (hrk : 44 ≤ rk.length)
    (counter0 b : Block) (hlen : w.host.length = 1) {xs : List ℕ} (hm : m + 8 * xs.length ≤ total) :
    Meets (forM xs fun _ => g.expectCtr driver rk counter0 [b]) w
      (fun _ w' => Passing driver g base a (m + 8 * xs.length) w' ∧
        w'.host = if xs.length = 0 then w.host else ctrText rk counter0 [b])
      (Reported driver g base a total) := by
  induction xs generalizing m w with
  | nil => exact meets_pure ⟨h, rfl⟩
  | cons x xs ih =>
    rw [List.length_cons] at hm ⊢
    rw [List.forM_cons, if_neg (Nat.succ_ne_zero _)]
    refine (h.meets_expectCtr hrk counter0 (show [b].length ≠ 0 from Nat.one_ne_zero) (show 1 < 2 ^ 32 by omega)
      (by omega) hlen).bind fun _ w' ⟨hw', hhost⟩ => ?_
    refine (ih hw' (by rw [hhost]; rfl) (by omega)).mono (fun _ w'' ⟨hw'', hhost'⟩ => ⟨?_, ?_⟩) fun _ _ h => h
    · rwa [show m + 8 + 8 * xs.length = m + 8 * (xs.length + 1) by omega] at hw''
    · rw [hhost', hhost, ite_self]

theorem meets_benchLatency (driver : Driver) (iters : ℕ) (hw : w.Fresh) :
    Meets (benchLatency driver iters) w
      (fun out w' => w'.live = w.live ∧ driver.AllOk w.calls (w.calls + (8 + 8 * iters)) ∧
        ∃ rk, demoRoundKeys = .ok rk ∧
          out = if iters = 0 then [⟨0, 0, 0, 0⟩] else ctrText rk.toList demoCounter0 [demoBlock])
      fun e w' => w'.live = w.live ∧ ¬ driver.AllOk w.calls (w.calls + (8 + 8 * iters)) ∧
        (e = .assertion "CUDA init failed (needs an NVIDIA GPU)" ∨ e = .assertion "kernel launch failed") := by
  refine meets_withHandle hw (by omega) fun g w' h => ?_
  obtain ⟨rk, hkeys, -⟩ := keyExpansion_eq ⟨0x2B7E1516, 0x28AED2A6, 0xABF71588, 0x09CF4F3C⟩
  have hrk : 44 ≤ rk.toList.length := by simp
  have hiterations := (h.set_host [⟨0, 0, 0, 0⟩]).meets_iterations hrk demoCounter0 demoBlock rfl
    (show 8 + 8 * (List.range iters).length ≤ 8 + 8 * iters by rw [List.length_range])
  rw [List.length_range] at hiterations
  unfold demoRoundKeys
  rw [hkeys]
  exact meets_ok_bind (meets_modify_bind (hiterations.bind fun _ w'' ⟨hw'', hhost⟩ =>
    meets_of_ok rfl ⟨hw'', rk, rfl, hhost⟩))

/-- **The latency benchmark**, for every number of iterations: it ends well if and only if none of its calls of
the library fails, and then, if the device operations of a call take effect in program order, `out` is what
the scalar backend makes of the demo block, or still zero if there was no iteration; in either case everything
is released. -/
theorem benchLatency_run (driver : Driver) (iters : ℕ) (w : Gpu) (hw : w.Fresh) :
    (driver.AllOk w.calls (w.calls + (8 + 8 * iters)) →
      ∃ rk ref w', demoRoundKeys = .ok rk ∧
        (Scalar.encryptCtr rk.toList demoCounter0 [demoBlock]).run (.ofList [⟨0, 0, 0, 0⟩]) = .ok () ref ∧
        (benchLatency driver iters).run w = .ok (if iters = 0 then [⟨0, 0, 0, 0⟩] else ref.data) w' ∧
        w'.live = w.live) ∧
    (¬ driver.AllOk w.calls (w.calls + (8 + 8 * iters)) →
      ∃ e w', (benchLatency driver iters).run w = .error e w' ∧ w'.live = w.live ∧
        (e = .assertion "CUDA init failed (needs an NVIDIA GPU)" ∨ e = .assertion "kernel launch failed")) := by
  rcases (meets_benchLatency driver iters hw).elim with ⟨out, w', hrun, hlive, hok, rk, hkeys, hout⟩ |
    ⟨e, w', hrun, -, hlive, hfailed, hmessage⟩
  · have hrk : 44 ≤ rk.toList.length := by simp
    obtain ⟨ref, hscalar, hdata⟩ := Scalar.run_encryptCtr_data hrk demoCounter0
      (show [demoBlock].length = [(⟨0, 0, 0, 0⟩ : Block)].length from rfl)
    refine ⟨fun _ => ⟨rk, ref, w', hkeys, hscalar, ?_, hlive⟩, fun hfailed => absurd hok hfailed⟩
    rw [hdata, ← hout]
    exact hrun
  · exact ⟨fun hok => absurd hok hfailed, fun _ => ⟨e, w', hrun, hlive, hmessage⟩⟩

/-- Every call of this driver fails. -/
theorem benchLatency_run_fails :
    ∃ e w', (benchLatency { reliable with fails := fun _ => some (.other 100) } 1000).run idle = .error e w' ∧
      w'.live = idle.live := by
  obtain ⟨e, w', hrun, hlive, -⟩ := (benchLatency_run { reliable with fails := fun _ => some (.other 100) } 1000
    idle fresh_idle).2 fun hok => by cases hok 0 le_rfl (Nat.succ_pos _)
  exact ⟨e, w', hrun, hlive⟩

end AesGpu

end CudaAes
