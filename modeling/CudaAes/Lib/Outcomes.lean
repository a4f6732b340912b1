import CudaAes.Lib.Run

/-!
# What a run ends in

`Meets x s ok panic` says that `x`, run from `s`, ends in a value and a state of which `ok` holds or in a
panic and a state of which `panic` holds, and in no other fault. It goes through a computation by the rules
of its parts. `Returns` is the same for a computation that can also end in an error of its own, as code of Rust
that uses `?` does. `AllOk` and `FailsFirst` say which of the numbered calls of something outside the program
have failed.
-/

namespace Rust

variable {σ α β ε : Type}

def Meets (x : Run σ α) (s : σ) (ok : α → σ → Prop) (panic : Fault → σ → Prop) : Prop :=
  (∀ a s', x.run s = .ok a s' → ok a s') ∧ ∀ e s', x.run s = .error e s' → e.IsPanic ∧ panic e s'

section
variable {x : Run σ α} {f : α → Run σ β} {s s' : σ} {ok : α → σ → Prop} {panic : Fault → σ → Prop}

theorem meets_of_ok {a : α} (hx : x.run s = .ok a s') (h : ok a s') : Meets x s ok panic := by
  refine ⟨fun b t ht => ?_, fun e t ht => ?_⟩
  · obtain ⟨rfl, rfl⟩ := EStateM.Result.ok.inj (hx.symm.trans ht)
    exact h
  · cases hx.symm.trans ht

theorem meets_of_error {e : Fault} (hx : x.run s = .error e s') (he : e.IsPanic) (h : panic e s') :
    Meets x s ok panic := by
  refine ⟨fun b t ht => ?_, fun e' t ht => ?_⟩
  · cases hx.symm.trans ht
  · obtain ⟨rfl, rfl⟩ := EStateM.Result.error.inj (hx.symm.trans ht)
    exact ⟨he, h⟩

theorem Meets.elim (h : Meets x s ok panic) :
    (∃ a s', x.run s = .ok a s' ∧ ok a s') ∨ ∃ e s', x.run s = .error e s' ∧ e.IsPanic ∧ panic e s' := by
  cases hx : x.run s with
  | ok a s' => exact Or.inl ⟨a, s', rfl, h.1 a s' hx⟩
  | error e s' => exact Or.inr ⟨e, s', rfl, h.2 e s' hx⟩

theorem Meets.mono {ok' : α → σ → Prop} {panic' : Fault → σ → Prop} (h : Meets x s ok panic)
    (hok : ∀ a s', ok a s' → ok' a s') (hpanic : ∀ e s', panic e s' → panic' e s') : Meets x s ok' panic' :=
  ⟨fun a s' hx => hok a s' (h.1 a s' hx), fun e s' hx => ⟨(h.2 e s' hx).1, hpanic e s' (h.2 e s' hx).2⟩⟩

theorem Meets.bind {ok' : β → σ → Prop} (h : Meets x s ok panic) (hf : ∀ a s', ok a s' → Meets (f a) s' ok' panic) :
    Meets (x >>= f) s ok' panic := by
  rcases h.elim with ⟨a, s', hx, ha⟩ | ⟨e, s', hx, he, hs⟩
  · unfold Meets
    rw [run_bind_ok hx]
    exact hf a s' ha
  · exact meets_of_error (run_bind_error hx) he hs

theorem meets_pure {a : α} (h : ok a s) : Meets (pure a) s ok panic := meets_of_ok rfl h

theorem meets_assert {cond : Bool} {message : String} {ok : Unit → σ → Prop} (hok : cond = true → ok () s)
    (hpanic : cond = false → panic (.assertion message) s) : Meets (assert cond message) s ok panic := by
  cases cond with
  | false => exact meets_of_error rfl trivial (hpanic rfl)
  | true => exact meets_of_ok (run_assert_true message s) (hok rfl)

theorem meets_ok_bind {ok : β → σ → Prop} {a : α} (h : Meets (f a) s ok panic) :
    Meets ((liftM (.ok a : Except Fault α) : Run σ α) >>= f) s ok panic := h

theorem meets_modify_bind {g : σ → σ} {f : Unit → Run σ β} {ok : β → σ → Prop} (h : Meets (f ()) (g s) ok panic) :
    Meets ((modify g : Run σ Unit) >>= f) s ok panic := by
  have hset : Meets (modify g : Run σ Unit) s (fun _ s' => s' = g s) panic := meets_of_ok rfl rfl
  exact hset.bind fun _ s' hs' => hs' ▸ h

theorem meets_liftM {y : Except Fault α} (hy : OnlyPanics y) (hok : ∀ a, y = .ok a → ok a s)
    (hpanic : ∀ e, y = .error e → panic e s) : Meets (liftM y : Run σ α) s ok panic := by
  cases y with
  | ok a => exact meets_of_ok (run_liftM_ok a s) (hok a rfl)
  | error e => exact meets_of_error (run_liftM_error e s) (hy e rfl) (hpanic e rfl)

end

/-! ## Loops -/

section
variable {I : σ → Prop}

/-- A loop whose turns keep `I` keeps it. -/
theorem meets_forM {f : α → Run σ PUnit} (xs : List α)
    (h : ∀ x ∈ xs, ∀ s, I s → Meets (f x) s (fun _ => I) fun _ => I) {s : σ} (hs : I s) :
    Meets (forM xs f) s (fun _ => I) fun _ => I := by
  induction xs generalizing s with
  | nil => exact meets_pure hs
  | cons x xs ih =>
    rw [List.forM_cons]
    exact (h x List.mem_cons_self s hs).bind fun _ t ht => ih (fun y hy => h y (List.mem_cons_of_mem x hy)) ht

theorem meets_forReturn {body : ℕ → Run σ Bool} (start n : ℕ)
    (h : ∀ j < start + n, start ≤ j → ∀ s, I s → Meets (body j) s (fun _ => I) fun _ => I) {s : σ} (hs : I s) :
    Meets (forReturn body start n) s (fun _ => I) fun _ => I := by
  induction n generalizing start s with
  | zero => exact meets_pure hs
  | succ n ih =>
    refine (h start (by omega) le_rfl s hs).bind fun go t ht => ?_
    cases go with
    | false => exact meets_pure ht
    | true => exact ih (start + 1) (fun j hj hle => h j (by omega) (by omega)) ht

end

/-! ## Cleaning up -/

/-- Run `x` and then `cleanup`, also when `x` panics. -/
def andFinally (x : Run σ α) (cleanup : Run σ Unit) : Run σ α := fun s =>
  match x.run s with
  | .ok a s' => (cleanup >>= fun _ => pure a).run s'
  | .error e s' => (cleanup >>= fun _ => throw e).run s'

theorem meets_andFinally {x : Run σ α} {cleanup : Run σ Unit} {s : σ} {ok ok' : α → σ → Prop}
    {panic panic' : Fault → σ → Prop} (h : Meets x s ok panic)
    (hok : ∀ a s', ok a s' → Meets cleanup s' (fun _ => ok' a) panic')
    (hpanic : ∀ e s', panic e s' → Meets cleanup s' (fun _ => panic' e) panic') :
    Meets (andFinally x cleanup) s ok' panic' := by
  rcases h.elim with ⟨a, s', hx, ha⟩ | ⟨e, s', hx, he, hs⟩
  · have hrun : (andFinally x cleanup).run s = (cleanup >>= fun _ => pure a).run s' := by
      show andFinally x cleanup s = _
      unfold andFinally
      rw [hx]
    unfold Meets
    rw [hrun]
    exact (hok a s' ha).bind fun _ _ => meets_pure
  · have hrun : (andFinally x cleanup).run s = (cleanup >>= fun _ => throw e).run s' := by
      show andFinally x cleanup s = _
      unfold andFinally
      rw [hx]
    unfold Meets
    rw [hrun]
    exact (hpanic e s' hs).bind fun _ _ ht => meets_of_error rfl he ht

/-! ## Errors of its own -/

/-- A computation that can end in an error `e : ε`. -/
abbrev Fallible (σ ε α : Type) := ExceptT ε (Run σ) α

/-- Run `x` and then `cleanup`, but only when `x` fails or panics. -/
def onFailure (x : Run σ (Except ε α)) (cleanup : Run σ Unit) : Run σ (Except ε α) := fun s =>
  match x.run s with
  | .ok (.ok a) s' => .ok (.ok a) s'
  | .ok (.error e) s' => (cleanup >>= fun _ => pure (.error e)).run s'
  | .error e s' => (cleanup >>= fun _ => throw e).run s'

/-- `ok` of a value, `err` of an error. -/
def Verdict (ok : α → σ → Prop) (err : ε → σ → Prop) : Except ε α → σ → Prop
  | .ok a => ok a
  | .error e => err e

/-- From `s`, the computation returns with `ok`, fails with `err` or panics with `panic`. -/
def Returns (x : Fallible σ ε α) (s : σ) (ok : α → σ → Prop) (err : ε → σ → Prop) (panic : Fault → σ → Prop) : Prop :=
  Meets x.run s (Verdict ok err) panic

section
variable {x : Fallible σ ε α} {f : α → Fallible σ ε β} {s s' : σ} {ok : α → σ → Prop} {ok' : β → σ → Prop}
  {err : ε → σ → Prop} {panic : Fault → σ → Prop}

theorem Returns.bind (h : Returns x s ok err panic)
    (hf : ∀ a s', ok a s' → Returns (f a) s' ok' err panic) : Returns (x >>= f) s ok' err panic := by
  unfold Returns
  rw [ExceptT.run_bind]
  refine Meets.bind h fun r s' hr => ?_
  cases r with
  | ok a => exact hf a s' hr
  | error e => exact meets_pure hr

theorem Returns.mono {ok' : α → σ → Prop} {err' : ε → σ → Prop} {panic' : Fault → σ → Prop}
    (h : Returns x s ok err panic) (hok : ∀ a s', ok a s' → ok' a s') (herr : ∀ e s', err e s' → err' e s')
    (hpanic : ∀ e s', panic e s' → panic' e s') : Returns x s ok' err' panic' := by
  refine Meets.mono h (fun r s' hr => ?_) hpanic
  cases r with
  | ok a => exact hok a s' hr
  | error e => exact herr e s' hr

theorem Returns.elim (h : Returns x s ok err panic) :
    (∃ a s', x.run.run s = .ok (.ok a) s' ∧ ok a s') ∨ (∃ e s', x.run.run s = .ok (.error e) s' ∧ err e s') ∨
      ∃ e s', x.run.run s = .error e s' ∧ e.IsPanic ∧ panic e s' := by
  rcases Meets.elim h with ⟨r, s', hx, hr⟩ | hpanic
  · cases r with
    | ok a => exact Or.inl ⟨a, s', hx, hr⟩
    | error e => exact Or.inr (Or.inl ⟨e, s', hx, hr⟩)
  · exact Or.inr (Or.inr hpanic)

theorem returns_pure {a : α} (h : ok a s) : Returns (pure a) s ok err panic := meets_pure h

theorem returns_throw {e : ε} (h : err e s) : Returns (throw e : Fallible σ ε α) s ok err panic := meets_pure h

theorem Returns.adapt {ε' : Type} {g : ε → ε'} {err' : ε' → σ → Prop} (h : Returns x s ok err panic)
    (herr : ∀ e s', err e s' → err' (g e) s') : Returns (x.adapt g) s ok err' panic := by
  show Meets (Except.mapError g <$> x.run) s (Verdict ok err') panic
  rw [map_eq_pure_bind]
  refine Meets.bind h fun r s' hr => ?_
  cases r with
  | ok a => exact meets_pure hr
  | error e => exact meets_pure (herr e s' hr)

theorem returns_onFailure {cleanup : Run σ Unit} {err' : ε → σ → Prop} {panic' : Fault → σ → Prop}
    (h : Returns x s ok err panic) (herr : ∀ e s', err e s' → Meets cleanup s' (fun _ => err' e) panic')
    (hpanic : ∀ e s', panic e s' → Meets cleanup s' (fun _ => panic' e) panic') :
    Returns (ExceptT.mk (onFailure x.run cleanup)) s ok err' panic' := by
  show Meets (onFailure x.run cleanup) s (Verdict ok err') panic'
  rcases Meets.elim h with ⟨r, s', hx, hr⟩ | ⟨e, s', hx, he, hs⟩
  · cases r with
    | ok a =>
      have hrun : (onFailure x.run cleanup).run s = .ok (.ok a) s' := by
        show onFailure x.run cleanup s = _
        unfold onFailure
        rw [hx]
      exact meets_of_ok hrun hr
    | error e =>
      have hrun : (onFailure x.run cleanup).run s = (cleanup >>= fun _ => pure (.error e)).run s' := by
        show onFailure x.run cleanup s = _
        unfold onFailure
        rw [hx]
      unfold Meets
      rw [hrun]
      exact (herr e s' hr).bind fun _ _ ht => meets_pure ht
  · have hrun : (onFailure x.run cleanup).run s = (cleanup >>= fun _ => throw e).run s' := by
      show onFailure x.run cleanup s = _
      unfold onFailure
      rw [hx]
    unfold Meets
    rw [hrun]
    exact (hpanic e s' hs).bind fun _ _ ht => meets_of_error rfl he ht

theorem returns_andFinally {cleanup : Run σ Unit} {ok' : α → σ → Prop} {err' : ε → σ → Prop}
    {panic' : Fault → σ → Prop} (h : Returns x s ok err panic)
    (hok : ∀ a s', ok a s' → Meets cleanup s' (fun _ => ok' a) panic')
    (herr : ∀ e s', err e s' → Meets cleanup s' (fun _ => err' e) panic')
    (hpanic : ∀ e s', panic e s' → Meets cleanup s' (fun _ => panic' e) panic') :
    Returns (ExceptT.mk (andFinally x.run cleanup)) s ok' err' panic' := by
  refine meets_andFinally h (fun r s' hr => ?_) hpanic
  cases r with
  | ok a => exact hok a s' hr
  | error e => exact herr e s' hr

theorem returns_lift {y : Run σ α} (h : Meets y s ok panic) : Returns (liftM y : Fallible σ ε α) s ok err panic := by
  show Meets (Except.ok <$> y) s (Verdict ok err) panic
  rw [map_eq_pure_bind]
  exact h.bind fun a s' ha => meets_pure ha

theorem returns_get_bind {f : σ → Fallible σ ε α} (h : Returns (f s) s ok err panic) :
    Returns (liftM (get : Run σ σ) >>= f) s ok err panic := by
  have hget : Meets (get : Run σ σ) s (fun a s' => a = s ∧ s' = s) panic := meets_of_ok rfl ⟨rfl, rfl⟩
  refine Returns.bind (returns_lift hget) fun a s' hgot => ?_
  obtain ⟨rfl, rfl⟩ := hgot
  exact h

theorem returns_ok_bind {a : α} (h : Returns (f a) s ok' err panic) :
    Returns ((liftM (liftM (.ok a : Except Fault α) : Run σ α) : Fallible σ ε α) >>= f) s ok' err panic := h

theorem returns_error_bind {e : Fault} (he : e.IsPanic) (h : panic e s) :
    Returns ((liftM (liftM (.error e : Except Fault α) : Run σ α) : Fallible σ ε α) >>= f) s ok' err panic :=
  meets_of_error rfl he h

theorem returns_modify_bind {g : σ → σ} {f : Unit → Fallible σ ε β} (h : Returns (f ()) (g s) ok' err panic) :
    Returns (liftM (modify g : Run σ Unit) >>= f) s ok' err panic := h

end

/-! ## Calls that can fail -/

/-- None of the calls from `a` up to `b` fails. -/
def AllOk (fails : ℕ → Option ε) (a b : ℕ) : Prop := ∀ k, a ≤ k → k < b → fails k = none

/-- Of the calls from `a` up to `b` the last is the first that fails. -/
def FailsFirst (fails : ℕ → Option ε) (a b : ℕ) (e : ε) : Prop :=
  ∃ k, b = k + 1 ∧ a ≤ k ∧ fails k = some e ∧ AllOk fails a k

section
variable {fails : ℕ → Option ε} {a b c : ℕ} {e : ε}

theorem allOk_refl : AllOk fails a a := fun _ hk hlt => absurd hlt (not_lt.mpr hk)

theorem AllOk.succ (h : AllOk fails a b) (hb : fails b = none) : AllOk fails a (b + 1) := by
  intro k hk hlt
  rcases Nat.lt_succ_iff_lt_or_eq.mp hlt with hlt | rfl
  · exact h k hk hlt
  · exact hb

theorem AllOk.trans (h : AllOk fails a b) (h' : AllOk fails b c) : AllOk fails a c := by
  intro k hk hlt
  rcases Nat.lt_or_ge k b with hkb | hbk
  · exact h k hk hkb
  · exact h' k hbk hlt

theorem allOk_split (hab : a ≤ b) (hbc : b ≤ c) : AllOk fails a c ↔ AllOk fails a b ∧ AllOk fails b c :=
  ⟨fun h => ⟨fun k hk hlt => h k hk (hlt.trans_le hbc), fun k hk hlt => h k (hab.trans hk) hlt⟩, fun h => h.1.trans h.2⟩

theorem allOk_one : AllOk fails a (a + 1) ↔ fails a = none :=
  ⟨fun h => h a le_rfl a.lt_succ_self, allOk_refl.succ⟩

theorem AllOk.failsFirst (h : AllOk fails a b) (hab : a ≤ b) (hb : fails b = some e) : FailsFirst fails a (b + 1) e :=
  ⟨b, rfl, hab, hb, h⟩

theorem FailsFirst.not_allOk (h : FailsFirst fails a b e) {a' : ℕ} (ha : a' ≤ a) (hb : b ≤ c) : ¬ AllOk fails a' c := by
  obtain ⟨k, rfl, hk, he, -⟩ := h
  intro hok
  have hnone := hok k (ha.trans hk) hb
  rw [he] at hnone
  cases hnone

theorem FailsFirst.unique {e' : ε} (h : FailsFirst fails a b e) (h' : FailsFirst fails a c e') : e = e' := by
  obtain ⟨i, rfl, hi, he, hok⟩ := id h
  obtain ⟨j, rfl, hj, he', hok'⟩ := id h'
  rcases lt_trichotomy i j with hlt | rfl | hlt
  · exact absurd hok' (h.not_allOk le_rfl hlt)
  · exact Option.some.inj (he.symm.trans he')
  · exact absurd hok (h'.not_allOk le_rfl hlt)

end

end Rust
