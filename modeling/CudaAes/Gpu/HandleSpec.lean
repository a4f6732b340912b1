import CudaAes.Gpu.Handle

/-!
# A call on a handle

Whatever fails, a call on an intact handle gives back every resource it takes and keeps the handle
(`encryptCtr_refines`): if no call of the library fails it ends as the call of the idealised wrapper ends, for
some order of the stores, and otherwise with the error of the first that does, before `out` is touched unless
it is the copy back that fails.
-/

namespace CudaAes

open Rust

/-- The calls of the library from `a` up to `b` succeed. -/
abbrev Driver.AllOk (driver : Driver) (a b : ℕ) : Prop := Rust.AllOk driver.fails a b

/-- Of the calls from `a` up to `b` the last is the first that fails. -/
abbrev Driver.FailsFirst (driver : Driver) (a b : ℕ) (e : DriverError) : Prop := Rust.FailsFirst driver.fails a b e

namespace AesGpu

/-! ## The idealised call -/

section ideal
variable (debugAssertions : Bool) (rk : List U32) (counter0 : Block) (blocks out : List Block) (R : ℕ)

/-- A call that no failure disturbs, on `out` as its state. A build with debug assertions compares the lengths
before anything else, and every build does at the copy back. -/
def idealCall (order : List Store) : Run (List Block) (Except CudaError Unit) := do
  let n := blocks.length
  if n = 0 then
    return .ok ()
  let out ← get
  assert (!debugAssertions || out.length == n) "output length must match the input"
  let r := max R 1
  let grid ← launchGrid n r
  if grid = 0 then
    return .error .invalidValue
  if gridFaults (kernelArgs rk counter0 blocks r) (grid * BLOCK) then
    return .error .launchFailed
  assert (n * 4 == out.length * 4) "destination and source slices have different lengths"
  set (ofFlattened (order.foldl (fun ct w => ct.set w.1 w.2) (List.replicate (n * 4) 0)))
  return .ok ()

/-- `result` is what a call that no failure disturbs ends in, if its stores land in some order. -/
def Ideal (result : EStateM.Result Fault (List Block) (Except CudaError Unit)) : Prop :=
  ∃ order, (∀ grid, launchGrid blocks.length (max R 1) = .ok grid →
      order.Perm (gridStores (kernelArgs rk counter0 blocks (max R 1)) (grid * BLOCK))) ∧
    (idealCall debugAssertions rk counter0 blocks R order).run out = result

variable {debugAssertions rk counter0 blocks out R}

theorem exists_landed (rk : List U32) (counter0 : Block) (blocks : List Block) (R : ℕ) : ∃ order : List Store,
    ∀ grid, launchGrid blocks.length (max R 1) = .ok grid →
      order.Perm (gridStores (kernelArgs rk counter0 blocks (max R 1)) (grid * BLOCK)) := by
  cases launchGrid blocks.length (max R 1) with
  | ok grid =>
    refine ⟨gridStores (kernelArgs rk counter0 blocks (max R 1)) (grid * BLOCK), fun grid' hgrid => ?_⟩
    rw [Except.ok.inj hgrid]
  | error e => exact ⟨[], fun _ hgrid => by cases hgrid⟩

theorem run_idealCall_nil (order : List Store) (h : blocks.length = 0) :
    (idealCall debugAssertions rk counter0 blocks R order).run out = .ok (.ok ()) out := by
  unfold idealCall
  rw [if_pos h]
  rfl

theorem run_idealCall_length (order : List Store) (h : blocks.length ≠ 0) (hdebug : debugAssertions = true)
    (hlen : out.length ≠ blocks.length) :
    (idealCall debugAssertions rk counter0 blocks R order).run out =
      .error (.assertion "output length must match the input") out := by
  have hassert : (!debugAssertions || out.length == blocks.length) = false := by simp [hdebug, hlen]
  unfold idealCall
  rw [if_neg h]
  refine (run_bind_ok (s := out) (EStateM.run_get _)).trans ?_
  rw [hassert]
  rfl

/-- A call from its geometry on. -/
theorem run_idealCall_launch (order : List Store) (h : blocks.length ≠ 0)
    (hpass : debugAssertions = true → out.length = blocks.length) :
    (idealCall debugAssertions rk counter0 blocks R order).run out = (do
      let grid ← launchGrid blocks.length (max R 1)
      if grid = 0 then
        return .error .invalidValue
      if gridFaults (kernelArgs rk counter0 blocks (max R 1)) (grid * BLOCK) then
        return .error .launchFailed
      assert (blocks.length * 4 == out.length * 4) "destination and source slices have different lengths"
      set (ofFlattened (order.foldl (fun ct w => ct.set w.1 w.2) (List.replicate (blocks.length * 4) 0)))
      return .ok () : Run (List Block) (Except CudaError Unit)).run out := by
  have hassert : (!debugAssertions || out.length == blocks.length) = true := by
    cases debugAssertions with
    | false => rfl
    | true => simp [hpass rfl]
  unfold idealCall
  rw [if_neg h]
  refine (run_bind_ok (s := out) (EStateM.run_get _)).trans ?_
  rw [hassert, run_bind_ok (run_assert_true _ _)]

/-- It is the call of the wrapper, where the builds do not differ. -/
theorem run_idealCall (order : List Store) (hpass : debugAssertions = true ∨ out.length = blocks.length) :
    (idealCall debugAssertions rk counter0 blocks R order).run out =
      (AesGpu.encryptCtr order rk counter0 blocks R).run out := by
  unfold AesGpu.encryptCtr
  by_cases hzero : blocks.length = 0
  · rw [run_idealCall_nil order hzero, if_pos hzero]
    rfl
  rw [if_neg hzero]
  refine Eq.trans ?_ (run_bind_ok (s := out) (EStateM.run_get _)).symm
  by_cases hlen : out.length = blocks.length
  · have hassert : (out.length == blocks.length) = true := by simp [hlen]
    have hcopy : (blocks.length * 4 == out.length * 4) = true := by simp [hlen]
    rw [run_idealCall_launch order hzero fun _ => hlen, hassert, hcopy, run_bind_ok (run_assert_true _ _)]
    rfl
  · have hassert : (out.length == blocks.length) = false := beq_false_of_ne hlen
    rw [run_idealCall_length order hzero (hpass.resolve_right hlen) hlen, hassert]
    rfl

/-- A call that the contract covers ends with the ciphertext. -/
theorem Ideal.eq_ctrText {result : EStateM.Result Fault (List Block) (Except CudaError Unit)}
    (h : Ideal debugAssertions rk counter0 blocks out R result) (hrk : 44 ≤ rk.length) (hn : blocks.length < 2 ^ 32)
    (hlen : out.length = blocks.length) (hR : max R 1 % 2 ^ 32 ≠ 0) :
    result = .ok (.ok ()) (ctrText rk counter0 blocks) := by
  obtain ⟨order, horder, hrun⟩ := h
  rw [run_idealCall order (Or.inr hlen)] at hrun
  exact hrun.symm.trans (AesGpu.run_encryptCtr_ctrText hrk hn hlen hR horder)

end ideal

/-! ## The handle -/

namespace Handle
variable {g : Handle} {w w' : Gpu}

/-- The resources of the handle are live, and its tables are those of the kernel. -/
structure Intact (g : Handle) (w : Gpu) : Prop where
  fresh : w.Fresh
  ctx : w.live g.ctx = some .context
  fields : ∀ h ∈ g.fields, (w.live h).isSome
  t0 : w.data g.t0 = CudaAes.t0
  t1 : w.data g.t1 = CudaAes.t1
  t2 : w.data g.t2 = CudaAes.t2
  t3 : w.data g.t3 = CudaAes.t3
  sbox : w.data g.sbox = sboxU32

theorem Intact.ctx_lt (h : g.Intact w) : g.ctx < w.made := h.fresh.lt_made (by simp [h.ctx])

theorem Intact.rooted (h : g.Intact w) : w.rooted Kind.root = true := World.rooted_of_live h.ctx_lt h.ctx rfl

/-- A state in which the resources there were are as they were. -/
theorem Intact.mono (h : g.Intact w) (hfresh : w'.Fresh) (hlive : ∀ i < w.made, w'.live i = w.live i)
    (hdata : ∀ i < w.made, w'.data i = w.data i) : g.Intact w' := by
  have hlt : ∀ i ∈ g.fields, i < w.made := fun i hi => h.fresh.lt_made (h.fields i hi)
  refine ⟨hfresh, ?_, fun i hi => ?_, ?_, ?_, ?_, ?_, ?_⟩
  · rw [hlive g.ctx h.ctx_lt, h.ctx]
  · rw [hlive i (hlt i hi)]
    exact h.fields i hi
  · rw [hdata g.t0 (hlt _ (by simp [Handle.fields])), h.t0]
  · rw [hdata g.t1 (hlt _ (by simp [Handle.fields])), h.t1]
  · rw [hdata g.t2 (hlt _ (by simp [Handle.fields])), h.t2]
  · rw [hdata g.t3 (hlt _ (by simp [Handle.fields])), h.t3]
  · rw [hdata g.sbox (hlt _ (by simp [Handle.fields])), h.sbox]

theorem Intact.kept (h : g.Intact w) (hkept : w.Kept w.made w') : g.Intact w' :=
  h.mono (hkept.fresh h.fresh) (fun i _ => congrFun hkept.live i) hkept.data

theorem Intact.acquired (h : g.Intact w) (k : Kind) (b : List U32) : g.Intact (w.acquired k b) :=
  h.mono h.fresh.acquired (fun _ hi => Function.update_of_ne hi.ne _ _) fun _ hi => World.data_acquired hi.ne

/-! ## The steps of a call -/

section steps
variable {driver : Driver} {bufs : Buffers} {n r grid : ℕ} {panic : Fault → Gpu → Prop}

theorem returns_launch (hh : w.holds Kind.root
      [g.module, g.stream, bufs.counter0, bufs.pt, bufs.rk, g.t0, g.t1, g.t2, g.t3, g.sbox, bufs.ct] = true) :
    Returns (launch driver g bufs grid) w (fun _ w' => driver.fails w.calls = none ∧ grid ≠ 0 ∧ w' = w.called)
      (fun e w' => w' = w.called ∧ (driver.fails w.calls = some e ∨
        driver.fails w.calls = none ∧ grid = 0 ∧ e = .cuda .invalidValue)) panic := by
  unfold launch
  refine Returns.bind ((returns_call hh).mono (fun _ _ h => h) (fun e w' h => ⟨h.2, Or.inl h.1⟩) fun _ _ h => h)
    fun _ w' hcalled => ?_
  obtain ⟨hf, rfl⟩ := hcalled
  split
  · rename_i hgrid
    exact returns_throw ⟨rfl, Or.inr ⟨hf, hgrid, rfl⟩⟩
  · rename_i hgrid
    exact returns_pure ⟨hf, hgrid, rfl⟩

/-- The state after a launch whose stores have landed. -/
def landed (driver : Driver) (bufs : Buffers) (args : KernelArgs) (grid : ℕ) (w : Gpu) : Gpu :=
  { w.called with
    data := Function.update w.data bufs.ct ((driver.landing w.called.calls (gridStores args (grid * BLOCK))).foldl
      (fun ct w => ct.set w.1 w.2) (w.data bufs.ct)) }

theorem returns_synchronize (hh : w.holds Kind.root [g.stream] = true) :
    Returns (synchronize driver g bufs n r grid) w
      (fun _ w' => driver.fails w.calls = none ∧ gridFaults (g.args bufs n r w) (grid * BLOCK) = false ∧
        w' = landed driver bufs (g.args bufs n r w) grid w)
      (fun e w' => w' = w.called ∧ (driver.fails w.calls = some e ∨ driver.fails w.calls = none ∧
        gridFaults (g.args bufs n r w) (grid * BLOCK) = true ∧ e = .cuda .launchFailed)) panic := by
  unfold synchronize
  refine returns_get_bind ?_
  refine Returns.bind ((returns_call hh).mono (fun _ _ h => h) (fun e w' h => ⟨h.2, Or.inl h.1⟩) fun _ _ h => h)
    fun _ w' hcalled => ?_
  obtain ⟨hf, rfl⟩ := hcalled
  split
  · rename_i hfaults
    exact returns_throw ⟨rfl, Or.inr ⟨hf, hfaults, rfl⟩⟩
  · rename_i hfaults
    exact returns_lift (meets_of_ok rfl ⟨hf, by simpa using hfaults, rfl⟩)

theorem returns_copyTo (hh : w.holds Kind.root [bufs.ct] = true) :
    Returns (copyTo driver bufs) w
      (fun _ w' => (w.data bufs.ct).length = w.host.length * 4 ∧ driver.fails w.calls = none ∧
        w' = { w.called with host := ofFlattened (w.data bufs.ct) })
      (fun e w' => driver.fails w.calls = some e ∧ w' = { w.called with host := driver.spoil w.calls w.host })
      fun e w' => (w.data bufs.ct).length ≠ w.host.length * 4 ∧ w' = w ∧
        e = .assertion "destination and source slices have different lengths" := by
  unfold copyTo
  refine returns_get_bind ?_
  have hassert : Meets (assert ((w.data bufs.ct).length == w.host.length * 4)
      "destination and source slices have different lengths") w
      (fun _ w' => (w.data bufs.ct).length = w.host.length * 4 ∧ w' = w)
      fun e w' => (w.data bufs.ct).length ≠ w.host.length * 4 ∧ w' = w ∧
        e = .assertion "destination and source slices have different lengths" :=
    meets_assert (fun heq => ⟨eq_of_beq heq, rfl⟩) fun hne => ⟨ne_of_beq_false hne, rfl, rfl⟩
  refine (returns_lift hassert).bind fun _ w' ⟨hlen, hw'⟩ => ?_
  subst hw'
  refine Returns.bind ((returns_call hh).mono (fun _ _ h => h) (fun _ _ h => h) fun _ _ h => h) fun _ w' hcalled => ?_
  obtain ⟨hf, rfl⟩ := hcalled
  exact returns_lift (meets_of_ok rfl ⟨hlen, hf, rfl⟩)

end steps

/-! ## The whole call -/

section call
variable (driver : Driver) (rk : List U32) (counter0 : Block) (blocks : List Block) (R a : ℕ) (out : List Block)

/-- No call of the library has failed, and `host` is what the idealised call leaves. -/
def Done (b : ℕ) (host : List Block) : Prop :=
  driver.AllOk a b ∧ (blocks.length ≠ 0 → b = a + 8) ∧
    Ideal driver.debugAssertions rk counter0 blocks out R (.ok (.ok ()) host)

/-- The last call of the library is the first that failed, with `e`, and only the copy back, the eighth, may
have touched `out`; or none failed, and the idealised call fails with `e`. -/
def Failed (e : DriverError) (b : ℕ) (host : List Block) : Prop :=
  (driver.FailsFirst a b e ∧ b ≤ a + 8 ∧ host.length = out.length ∧ (b < a + 8 → host = out)) ∨
    (driver.AllOk a b ∧ host = out ∧ ∃ ce, e = .cuda ce ∧
      Ideal driver.debugAssertions rk counter0 blocks out R (.ok (.error ce) out))

def Panicked (e : Fault) (b : ℕ) (host : List Block) : Prop :=
  driver.AllOk a b ∧ host = out ∧ Ideal driver.debugAssertions rk counter0 blocks out R (.error e out)

variable {driver rk counter0 blocks R a out}

theorem onlyPanics_launchGrid (n r : ℕ) : OnlyPanics (launchGrid n r) := by
  by_cases hr : r % 2 ^ 32 = 0
  · rw [launchGrid_zero hr]
    intro e he
    cases he
    trivial
  · rw [launchGrid_eq hr]
    exact onlyPanics_ok _

/-- The idealised call once the grid is known. -/
theorem ideal_of_launch {debugAssertions : Bool} (hzero : blocks.length ≠ 0)
    (hpass : debugAssertions = true → out.length = blocks.length) {grid : ℕ}
    (hgrid : launchGrid blocks.length (max R 1) = .ok grid) {order : List Store}
    (horder : order.Perm (gridStores (kernelArgs rk counter0 blocks (max R 1)) (grid * BLOCK)))
    {result : EStateM.Result Fault (List Block) (Except CudaError Unit)}
    (h : (if grid = 0 then pure (.error .invalidValue)
      else if gridFaults (kernelArgs rk counter0 blocks (max R 1)) (grid * BLOCK) then pure (.error .launchFailed)
      else do
        assert (blocks.length * 4 == out.length * 4) "destination and source slices have different lengths"
        set (ofFlattened (order.foldl (fun ct w => ct.set w.1 w.2) (List.replicate (blocks.length * 4) 0)))
        return .ok () : Run (List Block) (Except CudaError Unit)).run out = result) :
    Ideal debugAssertions rk counter0 blocks out R result := by
  refine ⟨order, fun grid' hgrid' => ?_, ?_⟩
  · rwa [← Except.ok.inj (hgrid.symm.trans hgrid')]
  · rw [run_idealCall_launch order hzero hpass, hgrid]
    exact (run_bind_ok (run_liftM_ok _ _)).trans h

/-- The device part of a call, after `k` calls of the library that have not failed. -/
structure Midway (driver : Driver) (rk : List U32) (counter0 : Block) (blocks : List Block) (R a : ℕ) (out : List Block)
    (g : Handle) (bufs : Buffers) (k : ℕ) (w : Gpu) : Prop where
  holds : ∀ hs ⊆ g.fields ++ [bufs.counter0, bufs.pt, bufs.rk, bufs.ct], w.holds Kind.root hs = true
  args : g.args bufs blocks.length (max R 1) w = kernelArgs rk counter0 blocks (max R 1)
  ct : w.data bufs.ct = List.replicate (blocks.length * 4) 0
  host : w.host = out
  calls : w.calls = a + k
  ok : driver.AllOk a w.calls

section device
variable {bufs : Buffers} {n k grid : ℕ}

theorem Midway.called (h : Midway driver rk counter0 blocks R a out g bufs k w) (hf : driver.fails w.calls = none) :
    Midway driver rk counter0 blocks R a out g bufs (k + 1) w.called :=
  ⟨fun hs hsub => World.Kept.holds (n := 0) World.kept_called (h.holds hs hsub), h.args, h.ct, h.host,
    congrArg (· + 1) h.calls, h.ok.succ hf⟩

theorem Midway.failed (h : Midway driver rk counter0 blocks R a out g bufs k w) (hk : k < 8) {e : DriverError}
    (he : driver.fails w.calls = some e) : Failed driver rk counter0 blocks R a out e w.called.calls w.host := by
  have hcalls := h.calls
  exact Or.inl ⟨h.ok.failsFirst (by omega) he, show w.calls + 1 ≤ a + 8 by omega, by rw [h.host], fun _ => h.host⟩

/-- The copy back, once `ct` is what the idealised call copies. -/
theorem balanced_copyTo (hh : w.holds Kind.root [bufs.ct] = true) (hok : driver.AllOk a w.calls)
    (hcalls : w.calls = a + 7)
    (hcopy : (w.data bufs.ct).length = w.host.length * 4 →
      Ideal driver.debugAssertions rk counter0 blocks w.host R (.ok (.ok ()) (ofFlattened (w.data bufs.ct))))
    (hdiffer : (w.data bufs.ct).length ≠ w.host.length * 4 →
      Ideal driver.debugAssertions rk counter0 blocks w.host R
        (.error (.assertion "destination and source slices have different lengths") w.host)) :
    Balanced n (copyTo driver bufs) w (fun _ => Done driver rk counter0 blocks R a w.host)
      (Failed driver rk counter0 blocks R a w.host) (Panicked driver rk counter0 blocks R a w.host) := by
  refine (returns_copyTo hh).mono (fun _ w' h => ?_) (fun e w' h => ?_) fun e w' h => ?_
  · obtain ⟨hlen, h7, rfl⟩ := h
    exact ⟨⟨rfl, fun _ _ => rfl, le_rfl⟩, hok.succ h7, fun _ => congrArg (· + 1) hcalls, hcopy hlen⟩
  · obtain ⟨he, rfl⟩ := h
    refine ⟨⟨rfl, fun _ _ => rfl, le_rfl⟩, Or.inl ⟨hok.failsFirst (by omega) he, ?_, driver.length_spoil _ _,
      fun hlt => absurd hlt ?_⟩⟩
    · exact (congrArg (· + 1) hcalls).le
    · exact (congrArg (· + 1) hcalls).not_lt
  · obtain ⟨hlen, rfl, rfl⟩ := h
    exact ⟨.refl, hok, rfl, hdiffer hlen⟩

/-- From the synchronization on. -/
theorem balanced_synchronize (h : Midway driver rk counter0 blocks R a out g bufs 6 w) (hn : n ≤ bufs.ct)
    (hzero : blocks.length ≠ 0) (hpass : driver.debugAssertions = true → out.length = blocks.length)
    (hgrid : launchGrid blocks.length (max R 1) = .ok grid) (hgrid0 : grid ≠ 0) :
    Balanced n (synchronize driver g bufs blocks.length (max R 1) grid >>= fun _ => copyTo driver bufs) w
      (fun _ => Done driver rk counter0 blocks R a out) (Failed driver rk counter0 blocks R a out)
      (Panicked driver rk counter0 blocks R a out) := by
  have hsync : Returns (synchronize driver g bufs blocks.length (max R 1) grid) w _ _ fun _ _ => False :=
    returns_synchronize (h.holds [g.stream] (by simp [Handle.fields]))
  rw [h.args] at hsync
  refine balanced_bind (hsync.mono (fun _ w' hsynced => ?_) (fun e w' hfailed => ?_) fun _ _ hfalse => hfalse.elim)
  · obtain ⟨h6, hfaults, rfl⟩ := hsynced
    have h7 := h.called h6
    have hwords : (landed driver bufs (kernelArgs rk counter0 blocks (max R 1)) grid w).data bufs.ct =
        (driver.landing (w.calls + 1) (gridStores (kernelArgs rk counter0 blocks (max R 1)) (grid * BLOCK))).foldl
          (fun ct w => ct.set w.1 w.2) (List.replicate (blocks.length * 4) 0) := by
      rw [← h.ct]
      exact Function.update_self _ _ _
    have hkept : w.Kept n (landed driver bufs (kernelArgs rk counter0 blocks (max R 1)) grid w) :=
      ⟨rfl, fun i hi => Function.update_of_ne (by omega) _ _, le_rfl⟩
    have hhost : (landed driver bufs (kernelArgs rk counter0 blocks (max R 1)) grid w).host = out := h.host
    have hlength : ((landed driver bufs (kernelArgs rk counter0 blocks (max R 1)) grid w).data bufs.ct).length =
        blocks.length * 4 := by
      rw [hwords, length_foldl_stores, List.length_replicate]
    -- what is left of the idealised call is the copy back
    have hrest : ∀ {result : EStateM.Result Fault (List Block) (Except CudaError Unit)}, (do
        assert (blocks.length * 4 == out.length * 4) "destination and source slices have different lengths"
        set (ofFlattened ((landed driver bufs (kernelArgs rk counter0 blocks (max R 1)) grid w).data bufs.ct))
        return .ok () : Run (List Block) (Except CudaError Unit)).run out = result →
        Ideal driver.debugAssertions rk counter0 blocks out R result := by
      intro result hresult
      refine ideal_of_launch hzero hpass hgrid (driver.landing_perm (w.calls + 1) _) ?_
      rw [if_neg hgrid0, hfaults, ← hwords]
      exact hresult
    have hcopy : Balanced n (copyTo driver bufs)
        (landed driver bufs (kernelArgs rk counter0 blocks (max R 1)) grid w) _
        (Failed driver rk counter0 blocks R a _) _ :=
      balanced_copyTo (hkept.holds (h.holds [bufs.ct] (by simp))) h7.ok h7.calls (fun hlen => ?_) fun hlen => ?_
    · rw [hhost] at hcopy
      exact ⟨hkept, hcopy⟩
    · rw [hlength, hhost] at hlen
      rw [hhost]
      refine hrest ?_
      rw [beq_iff_eq.mpr hlen]
      rfl
    · rw [hlength, hhost] at hlen
      rw [hhost]
      refine hrest ?_
      rw [beq_false_of_ne hlen]
      rfl
  · obtain ⟨rfl, he | ⟨h6, hfaults, rfl⟩⟩ := hfailed
    · exact ⟨World.kept_called, h.failed (by omega) he⟩
    · refine ⟨World.kept_called, Or.inr ⟨(h.called h6).ok, h.host, _, rfl, ?_⟩⟩
      refine ideal_of_launch hzero hpass hgrid (.refl _) ?_
      rw [if_neg hgrid0, if_pos hfaults]
      rfl

theorem balanced_onDevice (h : Midway driver rk counter0 blocks R a out g bufs 4 w) (hn : n ≤ bufs.ct)
    (hzero : blocks.length ≠ 0) (hpass : driver.debugAssertions = true → out.length = blocks.length) :
    Balanced n (onDevice driver g bufs blocks.length (max R 1)) w (fun _ => Done driver rk counter0 blocks R a out)
      (Failed driver rk counter0 blocks R a out) (Panicked driver rk counter0 blocks R a out) := by
  unfold onDevice
  refine balanced_call_bind (h.holds [g.module] (by simp [Handle.fields])) (fun e he => h.failed (by omega) he)
    fun h4 => ?_
  have h5 := h.called h4
  refine balanced_pure_bind (onlyPanics_launchGrid _ _) (fun e he => ⟨h5.ok, h.host, ?_⟩) fun grid hgrid => ?_
  · obtain ⟨order, horder⟩ := exists_landed rk counter0 blocks R
    refine ⟨order, horder, ?_⟩
    rw [run_idealCall_launch order hzero hpass, he]
    rfl
  refine balanced_bind ((returns_launch (h5.holds _ (by simp [Handle.fields]))).mono (fun _ w' hlaunched => ?_)
    (fun e w' hfailed => ?_) fun _ _ hpanic => hpanic)
  · obtain ⟨hf, hgrid0, rfl⟩ := hlaunched
    exact ⟨World.kept_called, balanced_synchronize (h5.called hf) hn hzero hpass hgrid hgrid0⟩
  · obtain ⟨rfl, he | ⟨hf, hgrid0, rfl⟩⟩ := hfailed
    · exact ⟨World.kept_called, h5.failed (by omega) he⟩
    · refine ⟨World.kept_called, Or.inr ⟨(h5.called hf).ok, h.host, _, rfl, ?_⟩⟩
      exact ideal_of_launch hzero hpass hgrid (.refl _) (congrArg (EStateM.run · out) (if_pos hgrid0))

end device

theorem balanced_encryptCtr (driver : Driver) (hg : g.Intact w) (rk : List U32) (counter0 : Block)
    (blocks : List Block) (R : ℕ) :
    Balanced w.made (g.encryptCtr driver rk counter0 blocks R) w
      (fun _ => Done driver rk counter0 blocks R w.calls w.host) (Failed driver rk counter0 blocks R w.calls w.host)
      (Panicked driver rk counter0 blocks R w.calls w.host) := by
  obtain ⟨order, horder⟩ := exists_landed rk counter0 blocks R
  unfold Handle.encryptCtr
  by_cases hzero : blocks.length = 0
  · rw [if_pos hzero]
    exact balanced_pure ⟨allOk_refl, fun h => absurd hzero h, order, horder, run_idealCall_nil order hzero⟩
  rw [if_neg hzero]
  refine balanced_get_bind (balanced_lift_bind (meets_assert (fun hassert => ⟨rfl, ?_⟩) fun hassert => ⟨rfl, ?differ⟩))
  case differ =>
    rw [Bool.or_eq_false_iff, Bool.not_eq_false'] at hassert
    exact ⟨allOk_refl, rfl, order, horder,
      run_idealCall_length order hzero hassert.1 (ne_of_beq_false hassert.2)⟩
  have hpass : driver.debugAssertions = true → w.host.length = blocks.length := by
    intro hdebug
    rw [hdebug] at hassert
    exact eq_of_beq hassert
  have hfail : ∀ {k : ℕ} {e : DriverError}, driver.AllOk w.calls (w.calls + k) → k < 8 →
      driver.fails (w.calls + k) = some e →
      Failed driver rk counter0 blocks R w.calls w.host e (w.calls + k + 1) w.host :=
    fun hk hlt he => Or.inl ⟨hk.failsFirst (Nat.le_add_right _ _) he, by omega, rfl, fun _ => rfl⟩
  have hok0 : driver.AllOk w.calls w.calls := allOk_refl
  refine balanced_withLocal hg.fresh le_rfl hg.rooted (fun e he => hfail (k := 0) hok0 (by omega) he) fun h0 => ?_
  have hg1 := hg.acquired .buffer counter0.toList
  have hok1 := hok0.succ h0
  refine balanced_withLocal hg1.fresh (Nat.le_succ _) hg1.rooted
    (fun e he => hfail (k := 1) hok1 (by omega) he) fun h1 => ?_
  have hg2 := hg1.acquired .buffer (asFlattened blocks)
  have hok2 := hok1.succ h1
  refine balanced_withLocal hg2.fresh (Nat.le_add_right _ 2) hg2.rooted
    (fun e he => hfail (k := 2) hok2 (by omega) he) fun h2 => ?_
  have hg3 := hg2.acquired .buffer rk
  have hok3 := hok2.succ h2
  refine balanced_withLocal hg3.fresh (Nat.le_add_right _ 3) hg3.rooted
    (fun e he => hfail (k := 3) hok3 (by omega) he) fun h3 => ?_
  have hg4 := hg3.acquired .buffer (List.replicate (blocks.length * 4) 0)
  have hbufs : ∀ i ∈ [w.made, w.made + 1, w.made + 2, w.made + 3],
      (((((w.acquired .buffer counter0.toList).acquired .buffer (asFlattened blocks)).acquired .buffer rk).acquired
        .buffer (List.replicate (blocks.length * 4) 0)).live i).isSome := by
    intro i hi
    simp only [List.mem_cons, List.not_mem_nil, or_false] at hi
    rcases hi with rfl | rfl | rfl | rfl
    · exact World.isSome_acquired (World.isSome_acquired (World.isSome_acquired (World.isSome_acquired_self _ _ _)))
    · exact World.isSome_acquired (World.isSome_acquired (World.isSome_acquired_self _ _ _))
    · exact World.isSome_acquired (World.isSome_acquired_self _ _ _)
    · exact World.isSome_acquired_self _ _ _
  refine balanced_onDevice ⟨fun hs hsub => World.holds_of_live hg4.rooted fun i hi => ?_, ?_, World.data_acquired_self _ _ _,
    rfl, rfl, hok3.succ h3⟩ (Nat.le_add_right _ 3) hzero hpass
  · rcases List.mem_append.mp (hsub hi) with hi | hi
    · exact hg4.fields i hi
    · exact hbufs i hi
  · have hne : ∀ j k, j < k → w.made + j ≠ w.made + k := fun j k hjk => by omega
    simp only [Handle.args, kernelArgs, KernelArgs.mk.injEq, hg4.t0, hg4.t1, hg4.t2, hg4.t3, hg4.sbox,
      World.data_acquired_self, List.length_replicate, and_true]
    refine ⟨?_, ?_, ?_⟩
    · rw [World.data_acquired (hne 0 3 (by omega)), World.data_acquired (hne 0 2 (by omega)),
        World.data_acquired (hne 0 1 (by omega)), World.data_acquired_self]
    · rw [World.data_acquired (hne 1 3 (by omega)), World.data_acquired (hne 1 2 (by omega)), World.data_acquired_self]
    · rw [World.data_acquired (hne 2 3 (by omega)), World.data_acquired_self]

end call

end Handle

end AesGpu

end CudaAes
