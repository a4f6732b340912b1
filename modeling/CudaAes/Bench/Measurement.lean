import CudaAes.Bench.Variants
import CudaAes.Lib.Outcomes

/-!
# The measurements of the throughput benchmark (`benches/perf.rs`, `benches/aperf.rs`)

The harness measures wall time, or it reads a cycle counter, and any operation on the counter may fail. A
measurement that cannot go on panics. `Needs` says of a part of the benchmark that it returns if and only if
its operations on the counter succeed and a condition holds, and what it leaves in `out`; it goes through
the loops of the harness by one rule (`needs_forM`).
-/

namespace CudaAes

open Rust

inductive ErrorKind
  | permissionDenied
  | other
  deriving DecidableEq, Repr

/-- An error of the operating system, and the text it is displayed as. -/
structure IoError where
  kind : ErrorKind
  text : String
  deriving DecidableEq, Repr

/-- The machine, which of the operations on its cycle counter fail, in the order in which they are done, and the
core whose counter is read (`AES_APERF_CPU`). -/
structure BenchHost extends Machine where
  fails : ℕ → Option IoError
  targetCpu : ℕ

/-- The `out` of the benchmark, and how many operations on the counter there have been. -/
structure BenchState where
  out : List Block
  ops : ℕ

/-- What the harness measures with. -/
inductive Measurement
  | wallTime
  | perf
  | aperf
  deriving DecidableEq, Repr

section
variable (host : BenchHost)

/-- An operation on the counter, which is opened, enabled, disabled or read. -/
def counterOp : Fallible BenchState IoError Unit := ExceptT.mk fun s =>
  match host.fails s.ops with
  | some e => .ok (.error e) { s with ops := s.ops + 1 }
  | none => .ok (.ok ()) { s with ops := s.ops + 1 }

/-- An operation that panics if it fails. -/
def unwrapOp (message : IoError → String) : Run BenchState Unit := do
  match ← (counterOp host).run with
  | .ok () => return ()
  | .error e => throw (.assertion (message e))

def expectOp (message : String) : Run BenchState Unit := unwrapOp host fun _ => message

/-- `perf::check_available`, which opens, enables, disables and reads a counter. -/
def checkAvailable : Fallible BenchState IoError Unit := do
  counterOp host
  counterOp host
  counterOp host
  counterOp host

/-- `AperfMeasurement::read_aperf` -/
def readAperf : Run BenchState Unit := expectOp host "aperf: rdmsr APERF via /dev/cpu/*/msr failed"

/-- `AperfMeasurement::new`, which opens the MSR file and reads it once. -/
def aperfNew : Run BenchState Unit := do
  unwrapOp host fun e => "aperf: open /dev/cpu/" ++ toString host.targetCpu ++ "/msr failed (" ++ e.text ++
    ") — load the module (`sudo modprobe msr`) and run the bench as root (`sudo -E ... cargo bench`)."
  readAperf host

namespace Measurement

def new : Measurement → Run BenchState Unit
  | .wallTime => return ()
  | .perf => return ()
  | .aperf => aperfNew host

/-- `Measurement::start` -/
def start : Measurement → Run BenchState Unit
  | .wallTime => return ()
  | .perf => do
    expectOp host
      "perf_event_open failed — is a PMU exposed to this host and kernel.perf_event_paranoid low enough?"
    expectOp host "failed to enable perf counter"
  | .aperf => readAperf host

/-- `Measurement::end` -/
def finish : Measurement → Run BenchState Unit
  | .wallTime => return ()
  | .perf => do
    expectOp host "failed to disable perf counter"
    expectOp host "failed to read perf counter"
  | .aperf => readAperf host

/-- `Bencher::iter` of the harness, which measures `n` calls at once. -/
def iter (measurement : Measurement) (n : ℕ) (routine : Run BenchState Unit) : Run BenchState Unit := do
  measurement.start host
  forM (List.range n) fun _ => routine
  measurement.finish host

/-- The operations on the counter before the first call, a probe of the counter included. -/
def setupOps : Measurement → ℕ
  | .wallTime => 0
  | .perf => 4
  | .aperf => 2

/-- The operations on the counter that measure one batch of calls. -/
def batchOps : Measurement → ℕ
  | .wallTime => 0
  | .perf => 4
  | .aperf => 2

end Measurement

end

/-! ## What a part of the benchmark needs -/

/-- From `s`, `x` returns if its `c` operations on the counter succeed and `P` holds, and leaves `out`; if not,
it panics. -/
def Needs (host : BenchHost) (x : Run BenchState Unit) (s : BenchState) (c : ℕ) (P : Prop) (out : List Block) : Prop :=
  Meets x s (fun _ s' => (AllOk host.fails s.ops (s.ops + c) ∧ P) ∧ s' = ⟨out, s.ops + c⟩)
    fun _ _ => ¬ (AllOk host.fails s.ops (s.ops + c) ∧ P)

variable {host : BenchHost} {x y : Run BenchState Unit} {s : BenchState} {a b c d : ℕ} {P Q : Prop}
  {out out' : List Block}

theorem Needs.congr (h : Needs host x s c P out) (hc : c = d) (hP : P ↔ Q) (hout : out = out') :
    Needs host x s d Q out' := by
  rw [← hc, ← propext hP, ← hout]
  exact h

theorem needs_pure : Needs host (pure ()) s 0 True s.out := meets_pure ⟨⟨allOk_refl, trivial⟩, rfl⟩

/-- One part, and then the other. -/
theorem Needs.bind (hx : Needs host x s c P out) (hy : Needs host y ⟨out, s.ops + c⟩ d Q out') :
    Needs host (x >>= fun _ => y) s (c + d) (P ∧ Q) out' := by
  have hboth : AllOk host.fails s.ops (s.ops + (c + d)) ∧ P ∧ Q ↔
      (AllOk host.fails s.ops (s.ops + c) ∧ P) ∧ AllOk host.fails (s.ops + c) (s.ops + c + d) ∧ Q := by
    rw [allOk_split (Nat.le_add_right s.ops c) (Nat.add_le_add_left (Nat.le_add_right c d) s.ops),
      ← Nat.add_assoc]
    tauto
  unfold Needs
  rw [hboth]
  refine (hx.mono (fun _ _ h => h) fun e s' hfailed hall => hfailed hall.1).bind fun _ s' hs' => ?_
  obtain ⟨hworks, rfl⟩ := hs'
  refine hy.mono (fun _ s'' h => ⟨⟨hworks, h.1⟩, ?_⟩) fun e s'' hfailed hall => hfailed hall.2
  rw [h.2, Nat.add_assoc]

/-- A loop whose turn `x` needs `cost x` operations and `P x`, and leaves `text` in `out` if it is one of `R`. -/
theorem needs_forM {α : Type} {f : α → Run BenchState Unit} {cost : α → ℕ} {P R : α → Prop} [DecidablePred R]
    {text : List Block} (xs : List α)
    (h : ∀ x ∈ xs, ∀ s : BenchState, s.out.length = text.length →
      Needs host (f x) s (cost x) (P x) (if R x then text else s.out)) (hs : s.out.length = text.length) :
    Needs host (forM xs f) s (xs.map cost).sum (∀ x ∈ xs, P x) (if ∃ x ∈ xs, R x then text else s.out) := by
  induction xs generalizing s with
  | nil => exact needs_pure.congr rfl (by simp) (by simp)
  | cons x xs ih =>
    rw [List.forM_cons, List.map_cons, List.sum_cons]
    have hx := h x List.mem_cons_self s hs
    have hlen : (if R x then text else s.out).length = text.length := by
      split
      · rfl
      · exact hs
    have hxs := ih (fun y hy => h y (List.mem_cons_of_mem x hy)) (s := ⟨if R x then text else s.out, s.ops + cost x⟩) hlen
    refine (hx.bind hxs).congr rfl List.forall_mem_cons.symm ?_
    by_cases hR : R x
    · simp [hR]
    · simp [hR]

theorem returns_counterOp {panic : Fault → BenchState → Prop} :
    Returns (counterOp host) s (fun _ s' => host.fails s.ops = none ∧ s' = ⟨s.out, s.ops + 1⟩)
      (fun e s' => host.fails s.ops = some e ∧ s' = ⟨s.out, s.ops + 1⟩) panic := by
  cases hf : host.fails s.ops with
  | none =>
    have hrun : (counterOp host).run.run s = .ok (.ok ()) ⟨s.out, s.ops + 1⟩ := by
      show counterOp host s = _
      unfold counterOp ExceptT.mk
      dsimp only
      rw [hf]
    exact meets_of_ok hrun ⟨rfl, rfl⟩
  | some e =>
    have hrun : (counterOp host).run.run s = .ok (.error e) ⟨s.out, s.ops + 1⟩ := by
      show counterOp host s = _
      unfold counterOp ExceptT.mk
      dsimp only
      rw [hf]
    exact meets_of_ok hrun ⟨rfl, rfl⟩

theorem needs_unwrapOp (message : IoError → String) : Needs host (unwrapOp host message) s 1 True s.out := by
  unfold unwrapOp Needs
  rw [allOk_one, and_true]
  refine Meets.bind returns_counterOp fun result s' hop => ?_
  cases result with
  | ok _ => exact meets_of_ok rfl hop
  | error e =>
    refine meets_of_error rfl trivial ?_
    rw [hop.1]
    exact nofun

/-- `check_available`, after `k` of its operations. -/
theorem returns_counterOp_bind {f : Unit → Fallible BenchState IoError Unit} {k n : ℕ} (hk : k < n)
    (hok : AllOk host.fails a (a + k)) {ok : Unit → BenchState → Prop} {panic : Fault → BenchState → Prop}
    (hf : AllOk host.fails a (a + (k + 1)) → Returns (f ()) ⟨out, a + (k + 1)⟩ ok
      (fun e _ => ∃ b ≤ a + n, FailsFirst host.fails a b e) panic) :
    Returns (counterOp host >>= f) ⟨out, a + k⟩ ok (fun e _ => ∃ b ≤ a + n, FailsFirst host.fails a b e) panic := by
  refine Returns.bind (returns_counterOp.mono (fun _ _ h => h) (fun e _ h => ?_) fun _ _ h => h) fun _ s' hop => ?_
  · exact ⟨a + k + 1, by omega, hok.failsFirst (Nat.le_add_right a k) h.1⟩
  · obtain ⟨hc, rfl⟩ := hop
    exact hf (hok.succ hc)

theorem returns_checkAvailable {panic : Fault → BenchState → Prop} :
    Returns (checkAvailable host) s (fun _ s' => AllOk host.fails s.ops (s.ops + 4) ∧ s' = ⟨s.out, s.ops + 4⟩)
      (fun e _ => ∃ b ≤ s.ops + 4, FailsFirst host.fails s.ops b e) panic := by
  unfold checkAvailable
  refine returns_counterOp_bind (k := 0) (by omega) allOk_refl fun h1 => ?_
  refine returns_counterOp_bind (k := 1) (by omega) h1 fun h2 => ?_
  refine returns_counterOp_bind (k := 2) (by omega) h2 fun h3 => ?_
  rw [← bind_pure (counterOp host)]
  exact returns_counterOp_bind (k := 3) (by omega) h3 fun h4 => returns_pure ⟨h4, rfl⟩

namespace Measurement

variable (host) in
/-- The two ends of a batch share its operations on the counter. -/
theorem needs_ends (measurement : Measurement) :
    ∃ c d, c + d = measurement.batchOps ∧
      ∀ s, Needs host (measurement.start host) s c True s.out ∧ Needs host (measurement.finish host) s d True s.out := by
  cases measurement with
  | wallTime => exact ⟨0, 0, rfl, fun s => ⟨needs_pure, needs_pure⟩⟩
  | perf =>
    refine ⟨2, 2, rfl, fun s => ⟨?_, ?_⟩⟩
    all_goals exact ((needs_unwrapOp _).bind (needs_unwrapOp _)).congr rfl and_self_iff rfl
  | aperf => exact ⟨1, 1, rfl, fun s => ⟨needs_unwrapOp _, needs_unwrapOp _⟩⟩

/-- A batch of calls. -/
theorem needs_iter (measurement : Measurement) (n : ℕ) {routine : Run BenchState Unit} {P : Prop} {text : List Block}
    (h : ∀ s : BenchState, s.out.length = text.length → Needs host routine s 0 P text)
    (hs : s.out.length = text.length) :
    Needs host (measurement.iter host n routine) s measurement.batchOps (0 < n → P) (if 0 < n then text else s.out) := by
  obtain ⟨c, d, hops, hends⟩ := measurement.needs_ends host
  have hturns : Needs host (forM (List.range n) fun _ => routine) ⟨s.out, s.ops + c⟩ _ (∀ _ ∈ List.range n, P)
      (if ∃ _ ∈ List.range n, True then text else s.out) :=
    needs_forM (R := fun _ => True) (List.range n) (fun _ _ t ht => (h t ht).congr rfl Iff.rfl (if_pos trivial).symm) hs
  have hall : (∀ _ ∈ List.range n, P) ↔ (0 < n → P) :=
    ⟨fun hP hn => hP 0 (List.mem_range.mpr hn), fun hP i hi => hP (i.zero_le.trans_lt (List.mem_range.mp hi))⟩
  have hsome : (∃ _ ∈ List.range n, True) ↔ 0 < n :=
    ⟨fun ⟨i, hi, _⟩ => i.zero_le.trans_lt (List.mem_range.mp hi), fun hn => ⟨0, List.mem_range.mpr hn, trivial⟩⟩
  have hcalls := hturns.congr (d := 0) (by simp) hall (if_congr hsome rfl rfl)
  exact ((hends s).1.bind (hcalls.bind (hends _).2)).congr (by omega) (by simp) rfl

end Measurement

end CudaAes
