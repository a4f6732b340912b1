import CudaAes.Lib.Outcomes

/-!
# Resources of a driver

A program holds the resources of a driver (contexts, modules, buffers) by handles, and any call of the
driver may fail. A resource may be used and released while it is live and some root resource, a context,
is live. `acquire`, `call` and `release` are monitors of this contract: a program that breaks it stops with a
fault, so one without that fault keeps it, and nothing is said of what a driver does with one that does not.
`withLocal` is a local variable that owns a resource until the end of its block, on every path, and
`withMoved` one that moves it into the result.

`Balanced` is the contract of a computation that releases whatever it acquires, with one rule for each
step of a program. It says of the contents of resources that those older than the computation keep theirs.
-/

namespace Rust

/-- The kinds of the resources that are live, the contents of resources, how many resources and calls of
the driver there have been, and the program's own memory. -/
structure World (κ β η : Type) where
  live : ℕ → Option κ
  data : ℕ → β
  made : ℕ
  calls : ℕ
  host : η

variable {κ β η ε α γ : Type}

namespace World

section
variable (w : World κ β η)

def called : World κ β η := { w with calls := w.calls + 1 }

def acquired (k : κ) (b : β) : World κ β η :=
  { w.called with
    live := Function.update w.live w.made (some k)
    data := Function.update w.data w.made b
    made := w.made + 1 }

def released (h : ℕ) : World κ β η := { w with live := Function.update w.live h none }

def releasedAll (hs : List ℕ) : World κ β η := { w with live := fun i => if i ∈ hs then none else w.live i }

/-- A root is live. -/
def rooted (root : κ → Bool) : Bool := (List.range w.made).any fun i => (w.live i).any root

/-- The resources may be used. -/
def holds (root : κ → Bool) (hs : List ℕ) : Bool := w.rooted root && hs.all fun h => (w.live h).isSome

/-- No resource is live that was not made. -/
def Fresh : Prop := ∀ i, w.made ≤ i → w.live i = none

end

/-- The same resources are live, and of those before `n` the contents are the same. -/
structure Kept (n : ℕ) (w w' : World κ β η) : Prop where
  live : w'.live = w.live
  data : ∀ i < n, w'.data i = w.data i
  made : w.made ≤ w'.made

variable {root : κ → Bool} {w w' w'' : World κ β η} {n : ℕ}

theorem Kept.refl : Kept n w w := ⟨rfl, fun _ _ => rfl, le_rfl⟩

theorem Kept.trans (h : Kept n w w') (h' : Kept n w' w'') : Kept n w w'' :=
  ⟨h'.live.trans h.live, fun i hi => (h'.data i hi).trans (h.data i hi), h.made.trans h'.made⟩

theorem Kept.fresh (h : Kept n w w') (hw : w.Fresh) : w'.Fresh := by
  intro i hi
  rw [h.live]
  exact hw i (h.made.trans hi)

theorem rooted_of_live {i : ℕ} {k : κ} (hi : i < w.made) (hk : w.live i = some k) (hroot : root k = true) :
    w.rooted root = true := by
  refine List.any_eq_true.mpr ⟨i, List.mem_range.mpr hi, ?_⟩
  rw [hk]
  exact hroot

theorem exists_root (h : w.rooted root = true) : ∃ i < w.made, ∃ k, w.live i = some k ∧ root k = true := by
  obtain ⟨i, hi, hany⟩ := List.any_eq_true.mp h
  exact ⟨i, List.mem_range.mp hi, (Option.any_eq_true _ _).mp hany⟩

theorem Kept.rooted (h : Kept n w w') (hroot : w.rooted root = true) : w'.rooted root = true := by
  obtain ⟨i, hi, k, hk, hr⟩ := exists_root hroot
  exact rooted_of_live (hi.trans_le h.made) (h.live ▸ hk) hr

theorem Kept.holds (h : Kept n w w') {hs : List ℕ} (hh : w.holds root hs = true) : w'.holds root hs = true := by
  unfold World.holds at hh ⊢
  rw [Bool.and_eq_true] at hh ⊢
  refine ⟨h.rooted hh.1, ?_⟩
  rw [h.live]
  exact hh.2

@[simp] theorem releasedAll_nil (w : World κ β η) : w.releasedAll [] = w := by simp [releasedAll]

theorem releasedAll_cons (w : World κ β η) (h : ℕ) (hs : List ℕ) :
    w.releasedAll (h :: hs) = (w.released h).releasedAll hs := by
  unfold releasedAll released
  congr 1
  funext i
  by_cases hi : i = h
  · simp [hi]
  · simp [hi]

theorem releasedAll_append (w : World κ β η) (hs hs' : List ℕ) :
    w.releasedAll (hs ++ hs') = (w.releasedAll hs).releasedAll hs' := by
  induction hs generalizing w with
  | nil => simp
  | cons h hs ih => rw [List.cons_append, releasedAll_cons, ih, ← releasedAll_cons]

theorem kept_called : Kept n w w.called := ⟨rfl, fun _ _ => rfl, le_rfl⟩

theorem rooted_acquired {k : κ} {b : β} (hroot : root k = true ∨ w.rooted root = true) :
    (w.acquired k b).rooted root = true := by
  rcases hroot with hroot | hroot
  · exact rooted_of_live (Nat.lt_succ_self w.made) (Function.update_self _ _ _) hroot
  · obtain ⟨i, hi, k', hk', hr⟩ := exists_root hroot
    exact rooted_of_live (hi.trans w.made.lt_succ_self) ((Function.update_of_ne hi.ne _ _).trans hk') hr

@[simp] theorem data_acquired_self (w : World κ β η) (k : κ) (b : β) : (w.acquired k b).data w.made = b := by
  simp [acquired]

theorem data_acquired {k : κ} {b : β} {i : ℕ} (hi : i ≠ w.made) : (w.acquired k b).data i = w.data i :=
  Function.update_of_ne hi _ _

@[simp] theorem isSome_acquired_self (w : World κ β η) (k : κ) (b : β) : ((w.acquired k b).live w.made).isSome := by
  simp [acquired]

theorem isSome_acquired {k : κ} {b : β} {i : ℕ} (hi : (w.live i).isSome) : ((w.acquired k b).live i).isSome := by
  by_cases h : i = w.made
  · subst h
    exact isSome_acquired_self w k b
  · exact (congrArg Option.isSome (Function.update_of_ne h _ _)).trans hi

theorem Fresh.lt_made (hw : w.Fresh) {i : ℕ} (hi : (w.live i).isSome) : i < w.made := by
  by_contra hge
  rw [hw i (not_lt.mp hge)] at hi
  cases hi

theorem holds_of_live {hs : List ℕ} (hroot : w.rooted root = true) (h : ∀ i ∈ hs, (w.live i).isSome) :
    w.holds root hs = true := by
  unfold World.holds
  rw [hroot, Bool.true_and, List.all_eq_true]
  exact h

section acquired
variable {k : κ} {b : β} (hw : w.Fresh)
include hw

theorem Fresh.acquired : (w.acquired k b).Fresh := by
  intro i hi
  have hi : w.made + 1 ≤ i := hi
  exact (Function.update_of_ne (by omega) _ _).trans (hw i (by omega))

/-- What kept the new resource live keeps, once it is released, what there was before. -/
theorem Kept.released (hn : n ≤ w.made) (h : Kept n (w.acquired k b) w') : Kept n w (w'.released w.made) := by
  refine ⟨?_, fun i hi => ?_, (Nat.le_succ _).trans h.made⟩
  · show Function.update w'.live w.made none = w.live
    rw [h.live]
    show Function.update (Function.update w.live w.made (some k)) w.made none = w.live
    rw [Function.update_idem, ← hw w.made le_rfl, Function.update_eq_self]
  · show w'.data i = w.data i
    rw [h.data i hi]
    exact Function.update_of_ne (by omega) _ _

end acquired

end World

/-! ## Calls of the driver -/

section
variable (root : κ → Bool) (fails : ℕ → Option ε)

/-- Make a resource with the contents `b`. -/
def acquire (k : κ) (b : β) : Fallible (World κ β η) ε ℕ := ExceptT.mk fun w =>
  if root k || w.rooted root then
    match fails w.calls with
    | some e => .ok (.error e) w.called
    | none => .ok (.ok w.made) (w.acquired k b)
  else .error .undefinedBehaviour w

/-- Use resources, in a call that spoils the program's memory if it fails. -/
def call (hs : List ℕ) (spoil : η → η) : Fallible (World κ β η) ε Unit := ExceptT.mk fun w =>
  if w.holds root hs then
    match fails w.calls with
    | some e => .ok (.error e) { w.called with host := spoil w.host }
    | none => .ok (.ok ()) w.called
  else .error .undefinedBehaviour w

/-- Give a resource back, which has no result and must be allowed. -/
def release (h : ℕ) : Run (World κ β η) Unit := fun w =>
  if w.holds root [h] then .ok () (w.released h) else .error .undefinedBehaviour w

/-- A resource that is released at the end of `body`. -/
def withLocal (k : κ) (b : β) (body : ℕ → Fallible (World κ β η) ε α) : Fallible (World κ β η) ε α := do
  let h ← acquire root fails k b
  ExceptT.mk (andFinally (body h).run (release root h))

/-- A resource that `body` moves into its result, if it gives one. -/
def withMoved (k : κ) (b : β) (body : ℕ → Fallible (World κ β η) ε α) : Fallible (World κ β η) ε α := do
  let h ← acquire root fails k b
  ExceptT.mk (onFailure (body h).run (release root h))

end

/-! ## Computations that release what they acquire -/

/-- From `w`, the computation returns with `ok`, or keeps the resources that there were and fails with
`err` or panics with `panic`, which are about the number of calls and the program's memory. -/
def Moves (n : ℕ) (x : Fallible (World κ β η) ε α) (w : World κ β η) (ok : α → World κ β η → Prop)
    (err : ε → ℕ → η → Prop) (panic : Fault → ℕ → η → Prop) : Prop :=
  Returns x w ok (fun e w' => w.Kept n w' ∧ err e w'.calls w'.host) fun e w' => w.Kept n w' ∧ panic e w'.calls w'.host

/-- The same, and it keeps the resources also when it returns. -/
def Balanced (n : ℕ) (x : Fallible (World κ β η) ε α) (w : World κ β η) (ok : α → ℕ → η → Prop)
    (err : ε → ℕ → η → Prop) (panic : Fault → ℕ → η → Prop) : Prop :=
  Moves n x w (fun a w' => w.Kept n w' ∧ ok a w'.calls w'.host) err panic

section
variable {root : κ → Bool} {fails : ℕ → Option ε} {w : World κ β η} {n : ℕ}

theorem returns_acquire {k : κ} {b : β} (hroot : root k = true ∨ w.rooted root = true)
    {panic : Fault → World κ β η → Prop} :
    Returns (acquire root fails k b) w (fun h w' => fails w.calls = none ∧ h = w.made ∧ w' = w.acquired k b)
      (fun e w' => fails w.calls = some e ∧ w' = w.called) panic := by
  have hcond : (root k || w.rooted root) = true := by
    rw [Bool.or_eq_true]
    exact hroot
  cases hf : fails w.calls with
  | none =>
    have hrun : (acquire root fails k b).run.run w = .ok (.ok w.made) (w.acquired k b) := by
      show acquire root fails k b w = _
      unfold acquire ExceptT.mk
      dsimp only
      rw [if_pos hcond, hf]
    exact meets_of_ok hrun ⟨rfl, rfl, rfl⟩
  | some e =>
    have hrun : (acquire root fails k b).run.run w = .ok (.error e) w.called := by
      show acquire root fails k b w = _
      unfold acquire ExceptT.mk
      dsimp only
      rw [if_pos hcond, hf]
    exact meets_of_ok hrun ⟨rfl, rfl⟩

theorem returns_call {hs : List ℕ} {spoil : η → η} (hh : w.holds root hs = true)
    {panic : Fault → World κ β η → Prop} :
    Returns (call root fails hs spoil) w (fun _ w' => fails w.calls = none ∧ w' = w.called)
      (fun e w' => fails w.calls = some e ∧ w' = { w.called with host := spoil w.host }) panic := by
  cases hf : fails w.calls with
  | none =>
    have hrun : (call root fails hs spoil).run.run w = .ok (.ok ()) w.called := by
      show call root fails hs spoil w = _
      unfold call ExceptT.mk
      dsimp only
      rw [if_pos hh, hf]
    exact meets_of_ok hrun ⟨rfl, rfl⟩
  | some e =>
    have hrun : (call root fails hs spoil).run.run w = .ok (.error e) { w.called with host := spoil w.host } := by
      show call root fails hs spoil w = _
      unfold call ExceptT.mk
      dsimp only
      rw [if_pos hh, hf]
    exact meets_of_ok hrun ⟨rfl, rfl⟩

theorem meets_release {h : ℕ} (hh : w.holds root [h] = true) {ok : Unit → World κ β η → Prop}
    {panic : Fault → World κ β η → Prop} (hok : ok () (w.released h)) : Meets (release root h) w ok panic :=
  meets_of_ok (if_pos hh) hok

section releases
variable {hs : List ℕ} {c : ℕ} {k : κ} (hc : w.live c = some k) (hroot : root k = true) (hlt : c < w.made)
include hc hroot hlt

/-- The release of several resources while the root `c` is live. -/
theorem run_releases (hnodup : (hs ++ [c]).Nodup) (hlive : ∀ h ∈ hs, (w.live h).isSome) :
    (forM hs (release root)).run w = .ok () (w.releasedAll hs) := by
  induction hs generalizing w with
  | nil =>
    rw [World.releasedAll_nil]
    rfl
  | cons h hs ih =>
    obtain ⟨hnot, hnodup⟩ := List.nodup_cons.mp hnodup
    have hrun : (release root h).run w = .ok () (w.released h) :=
      if_pos (World.holds_of_live (World.rooted_of_live hlt hc hroot) (by simp [hlive h List.mem_cons_self]))
    have hkeep : ∀ i ∈ hs ++ [c], (w.released h).live i = w.live i := by
      intro i hi
      refine Function.update_of_ne ?_ _ _
      rintro rfl
      exact hnot hi
    rw [List.forM_cons, run_bind_ok hrun, World.releasedAll_cons]
    refine ih ((hkeep c (by simp)).trans hc) hlt hnodup fun i hi => ?_
    rw [hkeep i (List.mem_append_left _ hi)]
    exact hlive i (List.mem_cons_of_mem h hi)

/-- The root is the last to go. -/
theorem run_releases_root (hnodup : (hs ++ [c]).Nodup) (hlive : ∀ h ∈ hs, (w.live h).isSome) :
    (forM (hs ++ [c]) (release root)).run w = .ok () (w.releasedAll (hs ++ [c])) := by
  have hnot : c ∉ hs := fun hmem => List.disjoint_of_nodup_append hnodup hmem (by simp)
  have hc' : (w.releasedAll hs).live c = some k := (if_neg hnot).trans hc
  have hlt' : c < (w.releasedAll hs).made := hlt
  have hrun : (release root c).run (w.releasedAll hs) = .ok () ((w.releasedAll hs).released c) :=
    if_pos (World.holds_of_live (World.rooted_of_live hlt' hc' hroot) (by simp [hc']))
  rw [List.forM_append, run_bind_ok (run_releases hc hroot hlt hnodup hlive), List.forM_cons, run_bind_ok hrun,
    World.releasedAll_append, World.releasedAll_cons, World.releasedAll_nil]
  rfl

end releases

/-- The release of a resource that the rest has kept. -/
theorem meets_release_acquired {k : κ} {b : β} (hw : w.Fresh) (hn : n ≤ w.made)
    (hroot : root k = true ∨ w.rooted root = true) {w' : World κ β η} {p : ℕ → η → Prop}
    {panic : Fault → World κ β η → Prop} (h : (w.acquired k b).Kept n w' ∧ p w'.calls w'.host) :
    Meets (release root w.made) w' (fun _ w'' => w.Kept n w'' ∧ p w''.calls w''.host) panic := by
  refine meets_release (h.1.holds (World.holds_of_live (World.rooted_acquired hroot) ?_))
    ⟨World.Kept.released hw hn h.1, h.2⟩
  simp

variable {ok : α → ℕ → η → Prop} {err : ε → ℕ → η → Prop} {panic : Fault → ℕ → η → Prop}

/-- What starts in a state that keeps the resources of `w` is about `w`. -/
theorem Balanced.of_kept {x : Fallible (World κ β η) ε α} {w' : World κ β η} (hkept : w.Kept n w')
    (h : Balanced n x w' ok err panic) :
    Returns x w' (fun a w'' => w.Kept n w'' ∧ ok a w''.calls w''.host)
      (fun e w'' => w.Kept n w'' ∧ err e w''.calls w''.host) fun e w'' => w.Kept n w'' ∧ panic e w''.calls w''.host :=
  Returns.mono h (fun _ _ hok => ⟨hkept.trans hok.1, hok.2⟩) (fun _ _ herr => ⟨hkept.trans herr.1, herr.2⟩)
    fun _ _ hpanic => ⟨hkept.trans hpanic.1, hpanic.2⟩

theorem balanced_pure {a : α} (h : ok a w.calls w.host) :
    Balanced n (pure a : Fallible (World κ β η) ε α) w ok err panic := returns_pure ⟨.refl, h⟩

section bind
variable {f : γ → Fallible (World κ β η) ε α}

/-- One step, and then the rest. -/
theorem balanced_bind {x : Fallible (World κ β η) ε γ}
    (h : Returns x w (fun a w' => w.Kept n w' ∧ Balanced n (f a) w' ok err panic)
      (fun e w' => w.Kept n w' ∧ err e w'.calls w'.host) fun e w' => w.Kept n w' ∧ panic e w'.calls w'.host) :
    Balanced n (x >>= f) w ok err panic :=
  Returns.bind h fun _ _ hf => hf.2.of_kept hf.1

/-- A step that touches no resource. -/
theorem balanced_lift_bind {x : Run (World κ β η) γ} (h : Meets x w (fun a w' => w' = w ∧ Balanced n (f a) w ok err panic)
      fun e w' => w' = w ∧ panic e w.calls w.host) : Balanced n (liftM x >>= f) w ok err panic := by
  refine balanced_bind (returns_lift (h.mono (fun a w' hf => ?_) fun e w' hpanic => ?_))
  · obtain ⟨rfl, hf⟩ := hf
    exact ⟨.refl, hf⟩
  · obtain ⟨rfl, hpanic⟩ := hpanic
    exact ⟨.refl, hpanic⟩

theorem balanced_pure_bind {y : Except Fault γ} (hy : OnlyPanics y) (hpanic : ∀ e, y = .error e → panic e w.calls w.host)
    (hok : ∀ a, y = .ok a → Balanced n (f a) w ok err panic) :
    Balanced n ((liftM (liftM y : Run (World κ β η) γ) : Fallible (World κ β η) ε γ) >>= f) w ok err panic :=
  balanced_lift_bind (meets_liftM hy (fun a ha => ⟨rfl, hok a ha⟩) fun e he => ⟨rfl, hpanic e he⟩)

theorem balanced_get_bind {g : World κ β η → Fallible (World κ β η) ε α} (h : Balanced n (g w) w ok err panic) :
    Balanced n (liftM (get : Run (World κ β η) (World κ β η)) >>= g) w ok err panic :=
  balanced_lift_bind (meets_of_ok rfl ⟨rfl, h⟩)

theorem balanced_call_bind {hs : List ℕ} {spoil : η → η} {f : Unit → Fallible (World κ β η) ε α}
    (hh : w.holds root hs = true) (herr : ∀ e, fails w.calls = some e → err e (w.calls + 1) (spoil w.host))
    (hok : fails w.calls = none → Balanced n (f ()) w.called ok err panic) :
    Balanced n (call root fails hs spoil >>= f) w ok err panic := by
  refine balanced_bind ((returns_call hh).mono (fun _ w' hcalled => ?_) (fun e w' hfailed => ?_) fun _ _ h => h)
  · obtain ⟨hf, rfl⟩ := hcalled
    exact ⟨World.kept_called, hok hf⟩
  · obtain ⟨he, rfl⟩ := hfailed
    exact ⟨⟨rfl, fun _ _ => rfl, le_rfl⟩, herr e he⟩

end bind

theorem balanced_withLocal {k : κ} {b : β} {body : ℕ → Fallible (World κ β η) ε α} (hw : w.Fresh) (hn : n ≤ w.made)
    (hroot : w.rooted root = true) (herr : ∀ e, fails w.calls = some e → err e (w.calls + 1) w.host)
    (hbody : fails w.calls = none → Balanced n (body w.made) (w.acquired k b) ok err panic) :
    Balanced n (withLocal root fails k b body) w ok err panic := by
  refine Returns.bind ((returns_acquire (Or.inr hroot)).mono (fun _ _ h => h) (fun e w' hfailed => ?_) fun _ _ h => h)
    fun i w' hacquired => ?_
  · obtain ⟨he, rfl⟩ := hfailed
    exact ⟨World.kept_called, herr e he⟩
  · obtain ⟨hf, rfl, rfl⟩ := hacquired
    exact returns_andFinally (hbody hf) (fun a _ => meets_release_acquired (p := ok a) hw hn (Or.inr hroot))
      (fun e _ => meets_release_acquired (p := err e) hw hn (Or.inr hroot))
      fun e _ => meets_release_acquired (p := panic e) hw hn (Or.inr hroot)

theorem moves_withMoved {k : κ} {b : β} {body : ℕ → Fallible (World κ β η) ε α} {ok : α → World κ β η → Prop}
    (hw : w.Fresh) (hn : n ≤ w.made) (hroot : root k = true ∨ w.rooted root = true)
    (herr : ∀ e, fails w.calls = some e → err e (w.calls + 1) w.host)
    (hbody : fails w.calls = none → Moves n (body w.made) (w.acquired k b) ok err panic) :
    Moves n (withMoved root fails k b body) w ok err panic := by
  refine Returns.bind ((returns_acquire hroot).mono (fun _ _ h => h) (fun e w' hfailed => ?_) fun _ _ h => h)
    fun i w' hacquired => ?_
  · obtain ⟨he, rfl⟩ := hfailed
    exact ⟨World.kept_called, herr e he⟩
  · obtain ⟨hf, rfl, rfl⟩ := hacquired
    exact returns_onFailure (hbody hf) (fun e _ => meets_release_acquired (p := err e) hw hn hroot)
      fun e _ => meets_release_acquired (p := panic e) hw hn hroot

end

end Rust
