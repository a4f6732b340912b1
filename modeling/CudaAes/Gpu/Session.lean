import CudaAes.Gpu.HandleSpec
import CudaAes.Core.KnownAnswers

/-!
# The life of a handle

A client makes a handle, calls it any number of times and drops it, also when it panics in between
(`session`); the crate's own test is one (`gpuMatchesKnownAnswers`). Whatever the driver does, no resource is
used or released when it is not live, the context is the last to go, as the comment on the fields of `AesGpu`
asks, and in the end everything is released.
-/

namespace CudaAes

open Rust

namespace AesGpu

/-- The parameters of a call, and what `out` holds before it. -/
structure CtrCall where
  rk : List U32
  counter0 : Block
  blocks : List Block
  out : List Block
  blocksPerThread : ℕ

variable (driver : Driver)

/-- The calls of a client, one after another, also after an error: what each returns and leaves in `out`. -/
def Handle.runCalls (g : Handle) : List CtrCall → Run Gpu (List (Except DriverError Unit × List Block))
  | [] => return []
  | c :: cs => do
    modify fun w => { w with host := c.out }
    let result ← (g.encryptCtr driver c.rk c.counter0 c.blocks c.blocksPerThread).run
    let w ← get
    let rest ← g.runCalls cs
    return (result, w.host) :: rest

/-- A client, which drops the handle also if it panics. -/
def session (calls : List CtrCall) : Fallible Gpu DriverError (List (Except DriverError Unit × List Block)) := do
  let g ← AesGpu.new driver
  liftM (andFinally (g.runCalls driver calls) g.drop)

/-! ## Making and dropping -/

/-- The handle's resources are those that are live in `w` and were not in `base`. -/
structure Handle.Owned (g : Handle) (base w : Gpu) : Prop where
  intact : g.Intact w
  nodup : (g.fields ++ [g.ctx]).Nodup
  fresh : ∀ i ∈ g.fields ++ [g.ctx], base.live i = none
  others : ∀ i ∉ g.fields ++ [g.ctx], w.live i = base.live i

variable {driver} {g : Handle} {base w w' : Gpu}

theorem Handle.Owned.kept (h : g.Owned base w) (hkept : w.Kept w.made w') : g.Owned base w' :=
  ⟨h.intact.kept hkept, h.nodup, h.fresh, fun i hi => (congrFun hkept.live i).trans (h.others i hi)⟩

/-- The context is still live when each of the other fields is dropped. -/
theorem Handle.Owned.run_drop (h : g.Owned base w) : g.drop.run w = .ok () { w with live := base.live } := by
  have hlive : (w.releasedAll (g.fields ++ [g.ctx])).live = base.live := by
    funext i
    show (if i ∈ g.fields ++ [g.ctx] then none else w.live i) = base.live i
    split
    · rename_i hi
      exact (h.fresh i hi).symm
    · rename_i hi
      exact h.others i hi
  unfold Handle.drop
  rw [run_releases_root h.intact.ctx rfl h.intact.ctx_lt h.nodup h.intact.fields, ← hlive]
  rfl

/-- How a handle that is not made leaves the driver and `out`. -/
def NotMade (driver : Driver) (w : Gpu) (e : DriverError) (b : ℕ) (host : List Block) : Prop :=
  driver.FailsFirst w.calls b e ∧ b ≤ w.calls + 8 ∧ host = w.host

/-- `new`, begun in `w`, after `k` of its resources. -/
structure Making (driver : Driver) (w : Gpu) (k : ℕ) (w' : Gpu) : Prop where
  fresh : w'.Fresh
  rooted : w'.rooted Kind.root = true
  old : ∀ i < w.made, w'.live i = w.live i
  new : ∀ i, w.made ≤ i → i < w'.made → (w'.live i).isSome
  made : w'.made = w.made + k
  calls : w'.calls = w.calls + k
  ok : driver.AllOk w.calls w'.calls
  host : w'.host = w.host

/-- One more resource. -/
theorem Making.withMoved {k : ℕ} (h : Making driver w k w') (hk : k < 8) {kind : Kind} {b : List U32}
    {body : ℕ → Fallible Gpu DriverError Handle} {ok : Handle → Gpu → Prop}
    (hbody : Making driver w (k + 1) (w'.acquired kind b) →
      Moves w.made (body w'.made) (w'.acquired kind b) ok (NotMade driver w) fun _ _ _ => False) :
    Moves w.made (withMoved Kind.root driver.fails kind b body) w' ok (NotMade driver w) fun _ _ _ => False := by
  have hmade : w.made ≤ w'.made := by simp [h.made]
  refine moves_withMoved h.fresh hmade (Or.inr h.rooted) (fun e he => ?_) fun hf => hbody ?_
  · exact ⟨h.ok.failsFirst (by simp [h.calls]) he, by rw [h.calls]; omega, h.host⟩
  refine ⟨h.fresh.acquired, World.rooted_acquired (Or.inr h.rooted), fun i hi => ?_, fun i hi hlt => ?_,
    congrArg (· + 1) h.made, congrArg (· + 1) h.calls, h.ok.succ hf, h.host⟩
  · exact (Function.update_of_ne (by omega) _ _).trans (h.old i hi)
  · rcases Nat.lt_succ_iff_lt_or_eq.mp hlt with hlt | rfl
    · exact World.isSome_acquired (h.new i hi hlt)
    · exact World.isSome_acquired_self _ _ _

/-- The resources that `new` has made are those of the handle. -/
theorem Making.owned (h : Making driver w 8 w') (hw : w.Fresh)
    (hids : ∀ i, i ∈ g.fields ++ [g.ctx] ↔ w.made ≤ i ∧ i < w.made + 8) (hnodup : (g.fields ++ [g.ctx]).Nodup)
    (hintact : (∀ i ∈ g.fields, (w'.live i).isSome) → g.Intact w') : g.Owned w w' := by
  refine ⟨hintact fun i hi => ?_, hnodup, fun i hi => hw i ((hids i).mp hi).1, fun i hi => ?_⟩
  · obtain ⟨hge, hlt⟩ := (hids i).mp (List.mem_append_left _ hi)
    exact h.new i hge (by rwa [h.made])
  · rcases Nat.lt_or_ge i w.made with hlt | hge
    · exact h.old i hlt
    · have hend : w.made + 8 ≤ i := not_lt.mp fun hlt => hi ((hids i).mpr ⟨hge, hlt⟩)
      rw [h.fresh i (by rwa [h.made]), hw i hge]

theorem moves_new (driver : Driver) (hw : w.Fresh) :
    Moves w.made (AesGpu.new driver) w
      (fun g w' => g.Owned w w' ∧ driver.AllOk w.calls w'.calls ∧ w'.calls = w.calls + 8 ∧ w'.host = w.host)
      (NotMade driver w) fun _ _ _ => False := by
  have hok : driver.AllOk w.calls w.calls := allOk_refl
  unfold AesGpu.new
  refine moves_withMoved hw le_rfl (Or.inl rfl) (fun e he => ⟨hok.failsFirst le_rfl he, by omega, rfl⟩) fun h0 => ?_
  have h1 : Making driver w 1 (w.acquired .context []) := by
    refine ⟨hw.acquired, World.rooted_acquired (Or.inl rfl), fun i hi => Function.update_of_ne hi.ne _ _,
      fun i hi hlt => ?_, rfl, rfl, hok.succ h0, rfl⟩
    obtain rfl : i = w.made := Nat.le_antisymm (Nat.lt_succ_iff.mp hlt) hi
    exact World.isSome_acquired_self _ _ _
  refine h1.withMoved (by omega) fun h2 => h2.withMoved (by omega) fun h3 => h3.withMoved (by omega) fun h4 =>
    h4.withMoved (by omega) fun h5 => h5.withMoved (by omega) fun h6 => h6.withMoved (by omega) fun h7 =>
    h7.withMoved (by omega) fun h8 => returns_pure ⟨?_, h8.ok, h8.calls, h8.host⟩
  have hids : ∀ i, i ∈ Handle.fields ⟨w.made + 1, w.made + 2, w.made + 3, w.made + 4, w.made + 5, w.made + 6, w.made + 7,
      w.made⟩ ++ [w.made] ↔ w.made ≤ i ∧ i < w.made + 8 := by
    intro i
    simp only [Handle.fields, List.cons_append, List.nil_append, List.mem_cons, List.not_mem_nil, or_false]
    omega
  refine h8.owned hw hids ?_ fun hfields => ?_
  · simp [Handle.fields, World.acquired, World.called, Nat.add_assoc]
  · exact {
      fresh := h8.fresh
      fields := hfields
      ctx := by simp [World.acquired, World.called, Nat.add_assoc]
      t0 := by simp [World.acquired, World.called, Nat.add_assoc]
      t1 := by simp [World.acquired, World.called, Nat.add_assoc]
      t2 := by simp [World.acquired, World.called, Nat.add_assoc]
      t3 := by simp [World.acquired, World.called, Nat.add_assoc]
      sbox := by simp [World.acquired, World.called, Nat.add_assoc] }

/-- A driver none of whose calls fails. -/
def reliable : Driver where
  debugAssertions := false
  fails := fun _ => none
  landing := fun _ stores => stores
  spoil := fun _ out => out
  landing_perm := fun _ _ => .refl _
  length_spoil := fun _ _ => rfl

/-- A driver that fails at call `i` of the library. -/
def failsAt (i : ℕ) (e : DriverError) : Driver := { reliable with fails := fun k => if k = i then some e else none }

/-- No resources. -/
def idle : Gpu := ⟨fun _ => none, fun _ => [], 0, 0, []⟩

theorem fresh_idle : idle.Fresh := fun _ _ => rfl

theorem exists_new {driver : Driver} (hok : driver.AllOk 0 8) :
    ∃ g w, (AesGpu.new driver).run.run idle = .ok (.ok g) w ∧ g.Owned idle w ∧ w.calls = 8 := by
  rcases Returns.elim (moves_new driver fresh_idle) with ⟨g, w, hrun, hg, -, hcalls, -⟩ | ⟨e, w, -, -, hfails, hle, -⟩ |
    ⟨_, _, -, -, -, hfalse⟩
  · exact ⟨g, w, hrun, hg, hcalls⟩
  · exact absurd hok (hfails.not_allOk le_rfl hle)
  · exact hfalse.elim

/-! ## One call -/

/-- **A call on an intact handle**, with any driver, any parameters and any length of `out`, in a build with or
without debug assertions, ends in one of three ways, and in each it has released what it made and the handle
is intact: it returns, no call of the library has failed, and `out` is what the idealised call leaves; or it
fails, with the error of the first call of the library that does or that of the idealised call; or it panics
as the idealised call does. -/
theorem Handle.encryptCtr_refines (driver : Driver) (g : Handle) (w : Gpu) (hg : g.Intact w) (rk : List U32)
    (counter0 : Block) (blocks : List Block) (R : ℕ) :
    (∃ w', (g.encryptCtr driver rk counter0 blocks R).run.run w = .ok (.ok ()) w' ∧ w'.live = w.live ∧ g.Intact w' ∧
      Done driver rk counter0 blocks R w.calls w.host w'.calls w'.host) ∨
    (∃ e w', (g.encryptCtr driver rk counter0 blocks R).run.run w = .ok (.error e) w' ∧ w'.live = w.live ∧
      g.Intact w' ∧ Failed driver rk counter0 blocks R w.calls w.host e w'.calls w'.host) ∨
    ∃ e w', (g.encryptCtr driver rk counter0 blocks R).run.run w = .error e w' ∧ e.IsPanic ∧ w'.live = w.live ∧
      g.Intact w' ∧ Panicked driver rk counter0 blocks R w.calls w.host e w'.calls w'.host := by
  rcases Returns.elim (Handle.balanced_encryptCtr driver hg rk counter0 blocks R) with ⟨_, w', hrun, hkept, hdone⟩ |
    ⟨e, w', hrun, hkept, hfailed⟩ | ⟨e, w', hrun, he, hkept, hpanicked⟩
  · exact Or.inl ⟨w', hrun, hkept.live, hg.kept hkept, hdone⟩
  · exact Or.inr (Or.inl ⟨e, w', hrun, hkept.live, hg.kept hkept, hfailed⟩)
  · exact Or.inr (Or.inr ⟨e, w', hrun, he, hkept.live, hg.kept hkept, hpanicked⟩)

/-- The synchronization fails, on a message of one block in a build without debug assertions. -/
theorem Handle.encryptCtr_refines_synchronize : ∃ g w,
    (AesGpu.new (failsAt 14 (.other 719))).run.run idle = .ok (.ok g) w ∧
    ∃ w', (g.encryptCtr (failsAt 14 (.other 719)) (List.replicate 44 0) default [default] 1).run.run
        { w with host := [default] } = .ok (.error (.other 719)) w' ∧
      w'.host = [default] ∧ w'.live = w.live ∧ w'.calls = 15 := by
  obtain ⟨driver, hdriver⟩ : ∃ driver, driver = failsAt 14 (.other 719) := ⟨_, rfl⟩
  rw [← hdriver]
  have hfails : ∀ k, driver.fails k = if k = 14 then some (.other 719) else none := by
    rw [hdriver]
    exact fun _ => rfl
  have hok : driver.AllOk 0 8 := fun k _ hk => by rw [hfails, if_neg (by omega)]
  obtain ⟨g, w, hnew, hg, hcalls⟩ := exists_new hok
  have hout : g.Owned idle { w with host := [default] } := hg.kept ⟨rfl, fun _ _ => rfl, le_rfl⟩
  refine ⟨g, w, hnew, ?_⟩
  have hideal : ∀ {result : EStateM.Result Fault (List Block) (Except CudaError Unit)},
      Ideal driver.debugAssertions (List.replicate 44 0) default [default] [default] 1 result →
        result = .ok (.ok ()) (ctrText (List.replicate 44 0) default [default]) :=
    fun h => h.eq_ctrText List.length_replicate.ge (show 1 < 2 ^ 32 by omega) rfl (show 1 % 2 ^ 32 ≠ 0 by omega)
  rcases Handle.encryptCtr_refines driver g { w with host := [default] } hout.intact (List.replicate 44 0) default
      [default] 1 with ⟨w', -, -, -, hok, hend, -⟩ | ⟨e, w', hrun, hlive, -, hfailed⟩ | ⟨e, w', -, -, -, -, -, -, hend⟩
  · have hnone := hok 14 (by rw [hcalls]; omega) (by rw [hend Nat.one_ne_zero, hcalls]; omega)
    rw [hfails, if_pos rfl] at hnone
    cases hnone
  · rcases hfailed with ⟨⟨k, hk, -, he, -⟩, -, -, hhost⟩ | ⟨-, -, ce, -, hend⟩
    · rw [hfails] at he
      obtain rfl : k = 14 := by
        by_contra hne
        rw [if_neg hne] at he
        cases he
      obtain rfl : DriverError.other 719 = e := Option.some.inj he
      exact ⟨w', hrun, hhost (by rw [hk, hcalls]; omega), hlive, hk⟩
    · cases hideal hend
  · cases hideal hend

/-! ## The calls of a client -/

/-- A call within the contract of `encrypt_ctr`, on a message of less than `2 ^ 32` blocks. -/
structure CtrCall.WellFormed (c : CtrCall) : Prop where
  rk : 44 ≤ c.rk.length
  out : c.out.length = c.blocks.length
  blocks : c.blocks.length < 2 ^ 32
  blocksPerThread : max c.blocksPerThread 1 % 2 ^ 32 ≠ 0

/-- What a well-formed call returns and leaves in `out`: the ciphertext, or an error of the driver. -/
def CtrCall.Answered (driver : Driver) (c : CtrCall) (answer : Except DriverError Unit × List Block) : Prop :=
  c.WellFormed →
    (answer.1 = .ok () → ∃ ref, (Scalar.encryptCtr c.rk c.counter0 c.blocks).run (.ofList c.out) = .ok () ref ∧
      answer.2 = ref.data) ∧
    ∀ e, answer.1 = .error e → (∃ k, driver.fails k = some e) ∧ answer.2.length = c.out.length

theorem CtrCall.WellFormed.ideal {c : CtrCall} (h : c.WellFormed)
    {result : EStateM.Result Fault (List Block) (Except CudaError Unit)}
    (hideal : Ideal driver.debugAssertions c.rk c.counter0 c.blocks c.out c.blocksPerThread result) :
    result = .ok (.ok ()) (ctrText c.rk c.counter0 c.blocks) :=
  hideal.eq_ctrText h.rk h.blocks h.out h.blocksPerThread

/-- One call of a client. -/
theorem Handle.Owned.meets_call (driver : Driver) (h : g.Owned base w) (c : CtrCall) (hout : w.host = c.out) :
    Meets (g.encryptCtr driver c.rk c.counter0 c.blocks c.blocksPerThread).run w
      (fun result w' => g.Owned base w' ∧ c.Answered driver (result, w'.host))
      fun _ w' => g.Owned base w' ∧ ¬ c.WellFormed := by
  have hcall := Handle.balanced_encryptCtr driver h.intact c.rk c.counter0 c.blocks c.blocksPerThread
  rw [hout] at hcall
  refine Meets.mono hcall (fun result w' hresult => ?_) fun e w' hpanic => ⟨h.kept hpanic.1, fun hwf => ?_⟩
  · cases result with
    | ok a =>
      obtain ⟨hkept, -, -, hideal⟩ := hresult
      refine ⟨h.kept hkept, fun hwf => ⟨fun _ => ?_, fun e he => by cases he⟩⟩
      obtain ⟨ref, hrun, hdata⟩ := Scalar.run_encryptCtr_data hwf.rk c.counter0 hwf.out.symm
      have hhost := hwf.ideal hideal
      injection hhost with _ hhost
      exact ⟨ref, hrun, hhost.trans hdata.symm⟩
    | error e =>
      obtain ⟨hkept, hfailed⟩ := hresult
      refine ⟨h.kept hkept, fun hwf => ⟨fun he => absurd he (by simp), fun e' he => ?_⟩⟩
      obtain rfl := Except.error.inj he
      rcases hfailed with ⟨⟨k, -, -, hk, -⟩, -, hlen, -⟩ | ⟨-, -, ce, -, hideal⟩
      · exact ⟨⟨k, hk⟩, hlen⟩
      · cases hwf.ideal hideal
  · cases hwf.ideal hpanic.2.2.2

theorem Handle.Owned.meets_runCalls (h : g.Owned base w) (calls : List CtrCall) :
    Meets (g.runCalls driver calls) w
      (fun answers w' => g.Owned base w' ∧ List.Forall₂ (CtrCall.Answered driver) calls answers)
      fun _ w' => g.Owned base w' ∧ ∃ c ∈ calls, ¬ c.WellFormed := by
  induction calls generalizing w with
  | nil => exact meets_pure ⟨h, .nil⟩
  | cons c cs ih =>
    have hout : g.Owned base { w with host := c.out } := h.kept ⟨rfl, fun _ _ => rfl, le_rfl⟩
    have hcall := (hout.meets_call driver c rfl).mono (fun _ _ h => h)
      fun _ _ h => (⟨h.1, c, List.mem_cons_self, h.2⟩ : _ ∧ ∃ d ∈ c :: cs, ¬ d.WellFormed)
    unfold Handle.runCalls
    refine meets_modify_bind (hcall.bind fun result w' ⟨hw', hanswered⟩ => ?_)
    have hrest := (ih hw').mono (fun _ _ h => h)
      fun _ _ ⟨hdrop, d, hd, hwf⟩ => (⟨hdrop, d, List.mem_cons_of_mem c hd, hwf⟩ : _ ∧ ∃ d ∈ c :: cs, ¬ d.WellFormed)
    exact hrest.bind fun answers w'' ⟨hw'', hall⟩ => meets_pure ⟨hw'', .cons hanswered hall⟩

/-- The scope of a handle. -/
theorem returns_scope {α : Type} (driver : Driver) (hw : w.Fresh) {body : Handle → Run Gpu α} {ok : α → Prop}
    {panic : Prop} (hbody : ∀ g w', g.Owned w w' →
      Meets (body g) w' (fun a w'' => g.Owned w w'' ∧ ok a) fun _ w'' => g.Owned w w'' ∧ panic) :
    Returns (AesGpu.new driver >>= fun g => liftM (andFinally (body g) g.drop)) w (fun a w' => w'.live = w.live ∧ ok a)
      (fun e w' => w'.live = w.live ∧ driver.FailsFirst w.calls w'.calls e ∧ w'.calls ≤ w.calls + 8)
      fun _ w' => w'.live = w.live ∧ panic := by
  have hnew := Returns.mono (moves_new driver hw) (fun _ _ h => h)
    (fun _ w' h => (⟨h.1.live, h.2.1, h.2.2.1⟩ : w'.live = w.live ∧ _ ∧ _))
    (fun _ w' h => (⟨h.1.live, h.2.elim⟩ : w'.live = w.live ∧ panic))
  have hdrop : ∀ {g : Handle} {w' : Gpu} {p : Prop} {q : Fault → Gpu → Prop}, g.Owned w w' ∧ p →
      Meets g.drop w' (fun _ w'' => w''.live = w.live ∧ p) q :=
    fun h => meets_of_ok h.1.run_drop ⟨rfl, h.2⟩
  exact hnew.bind fun g w' ⟨hg, _⟩ =>
    returns_lift (meets_andFinally (hbody g w' hg) (fun _ _ => hdrop) fun _ _ => hdrop)

/-- **A client is safe**, with any driver and any calls, in a build with or without debug assertions: it ends, no
resource is used or released when it is not live, and in the end the same resources are live as in the
beginning, whether it returns, the handle could not be made, or it panics, which only a call outside the
contract can cause. Each well-formed call has left what the scalar backend leaves, its device operations
taking effect in program order, or returned an error of the driver. -/
theorem session_safe (driver : Driver) (calls : List CtrCall) (w : Gpu) (hw : w.Fresh) :
    Returns (session driver calls) w
      (fun answers w' => w'.live = w.live ∧ List.Forall₂ (CtrCall.Answered driver) calls answers)
      (fun e w' => w'.live = w.live ∧ driver.FailsFirst w.calls w'.calls e ∧ w'.calls ≤ w.calls + 8)
      fun _ w' => w'.live = w.live ∧ ∃ c ∈ calls, ¬ c.WellFormed :=
  returns_scope driver hw fun _ _ hg => hg.meets_runCalls calls

/-- Two calls on one block, by a driver that does not fail. -/
theorem session_safe_two : ∃ ref answers w',
    (Scalar.encryptCtr (List.replicate 44 0) default [default]).run (.ofList [default]) = .ok () ref ∧
    (session reliable (List.replicate 2 ⟨List.replicate 44 0, default, [default], [default], 1⟩)).run.run idle =
      .ok (.ok answers) w' ∧ answers = [(.ok (), ref.data), (.ok (), ref.data)] ∧ w'.live = idle.live := by
  obtain ⟨c, hc⟩ : ∃ c : CtrCall, c = ⟨List.replicate 44 0, default, [default], [default], 1⟩ := ⟨_, rfl⟩
  have hwf : c.WellFormed := by
    rw [hc]
    exact ⟨List.length_replicate.ge, rfl, show 1 < 2 ^ 32 by omega, show 1 % 2 ^ 32 ≠ 0 by omega⟩
  obtain ⟨ref, hscalar⟩ : ∃ ref : Buffer Block,
      (Scalar.encryptCtr c.rk c.counter0 c.blocks).run (.ofList c.out) = .ok () ref :=
    ⟨_, Scalar.run_encryptCtr hwf.rk c.counter0 c.blocks c.out⟩
  have hanswer : ∀ {answer}, c.Answered reliable answer → answer = (.ok (), ref.data) := by
    intro ⟨result, out⟩ hanswered
    obtain ⟨hok, herror⟩ := hanswered hwf
    cases result with
    | error e =>
      obtain ⟨⟨k, hk⟩, -⟩ := herror e rfl
      cases hk
    | ok _ =>
      obtain ⟨ref', hrun, hout⟩ := hok rfl
      rw [(EStateM.Result.ok.inj (hrun.symm.trans hscalar)).2] at hout
      exact Prod.ext rfl hout
  rw [← hc]
  rcases Returns.elim (session_safe reliable (List.replicate 2 c) idle fresh_idle) with
    ⟨answers, w', hrun, hlive, hall⟩ | ⟨_, _, -, -, ⟨_, -, -, he, -⟩, -⟩ | ⟨_, _, -, -, -, d, hd, hnot⟩
  · refine ⟨ref, answers, w', by simpa only [hc] using hscalar, hrun, ?_, hlive⟩
    rw [List.replicate_succ, List.replicate_one] at hall
    obtain ⟨answer, rest, h, hrest, rfl⟩ := List.forall₂_cons_left_iff.mp hall
    obtain ⟨answer', rest', h', hnil, rfl⟩ := List.forall₂_cons_left_iff.mp hrest
    rw [hanswer h, hanswer h', List.forall₂_nil_left_iff.mp hnil]
  · cases he
  · exact absurd (List.eq_of_mem_replicate hd ▸ hwf) hnot

end AesGpu

end CudaAes
