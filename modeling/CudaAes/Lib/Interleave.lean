import CudaAes.Lib.Buffer

/-!
# Tasks that take turns

A pool of tasks on a shared state, any of which may take the next turn; a task that panics stops and
leaves the others running. A task follows a script if its turns add their marks to the shared state
whatever the others have added between them (`Follows`). In a pool of such tasks every run has added
a part of every script (`Turns.progress`), goes on until it has added all of them (`Turns.ended`, `Turns.completes`), and
no run is longer than the scripts (`Turns.length_le`).

A task that works on a sub-slice of a shared slice follows its script if it does so on the sub-slice
alone (`Writes.follows`).
-/

namespace Rust

/-- Where each task is, or the fault that stopped it, and the state the tasks share. -/
structure Pool (τ σ : Type) where
  task : ℕ → Except Fault τ
  shared : σ

variable {τ σ ω : Type}

/-- Task `c` of a pool of `n` takes a turn: what it does next from where it is, in one piece. -/
inductive Turn (action : ℕ → τ → Option (Run σ τ)) (n : ℕ) : Pool τ σ → ℕ → Pool τ σ → Prop
  | step {p : Pool τ σ} {c : ℕ} {t t' : τ} {x : Run σ τ} {s : σ} : c < n → p.task c = .ok t → action c t = some x →
      x.run p.shared = .ok t' s → Turn action n p c ⟨Function.update p.task c (.ok t'), s⟩
  | panic {p : Pool τ σ} {c : ℕ} {t : τ} {x : Run σ τ} {e : Fault} {s : σ} : c < n → p.task c = .ok t →
      action c t = some x → x.run p.shared = .error e s → Turn action n p c ⟨Function.update p.task c (.error e), s⟩

/-- The runs of a pool, with the tasks in the order of their turns. -/
inductive Turns (action : ℕ → τ → Option (Run σ τ)) (n : ℕ) (p₀ : Pool τ σ) : List ℕ → Pool τ σ → Prop
  | start : Turns action n p₀ [] p₀
  | turn {cs : List ℕ} {p p' : Pool τ σ} {c : ℕ} : Turns action n p₀ cs p → Turn action n p c p' →
      Turns action n p₀ (cs ++ [c]) p'

/-- The turns of a task from `t` on: each adds its marks to those there are, and after the last the
task has ended. `done marks` is the shared state with these marks. -/
def Follows (action : τ → Option (Run σ τ)) (done : List ω → σ) : τ → List (List ω) → Prop
  | t, [] => action t = none
  | t, xs :: script => ∃ x t', action t = some x ∧
      (∀ marks, x.run (done marks) = .ok t' (done (marks ++ xs))) ∧ Follows action done t' script

/-! ## Runs of a pool -/

/-- What holds at the start of a pool and is kept by its turns holds after every run. -/
theorem Turns.inv {action : ℕ → τ → Option (Run σ τ)} {n : ℕ} {p₀ p : Pool τ σ} {cs : List ℕ} (Inv : Pool τ σ → Prop)
    (hstart : Inv p₀) (hturn : ∀ p c p', Inv p → Turn action n p c p' → Inv p') (h : Turns action n p₀ cs p) : Inv p := by
  induction h with
  | start => exact hstart
  | turn _ hstep ih => exact hturn _ _ _ ih hstep

/-- Adding marks to what one task has added. -/
theorem perm_flatMap_append {marks marks' : ℕ → List ω} {c : ℕ} {xs : List ω} (hc : marks' c = marks c ++ xs)
    (hother : ∀ d, d ≠ c → marks' d = marks d) {ds : List ℕ} (hmem : c ∈ ds) (hnodup : ds.Nodup) :
    (ds.flatMap marks').Perm (ds.flatMap marks ++ xs) := by
  induction ds with
  | nil => cases hmem
  | cons d ds ih =>
    obtain ⟨hd, hnodup⟩ := List.nodup_cons.mp hnodup
    rw [List.flatMap_cons, List.flatMap_cons]
    by_cases hdc : d = c
    · subst hdc
      have hrest : ds.flatMap marks' = ds.flatMap marks := by
        rw [List.flatMap_def, List.flatMap_def]
        refine congrArg List.flatten (List.map_congr_left fun x hx => hother x ?_)
        rintro rfl
        exact hd hx
      rw [hc, hrest, List.append_assoc, List.append_assoc]
      exact List.perm_append_comm.append_left _
    · have hmem : c ∈ ds := (List.mem_cons.mp hmem).resolve_left (Ne.symm hdc)
      rw [hother d hdc, List.append_assoc]
      exact (ih hmem hnodup).append_left _

section scripts
variable {action : ℕ → τ → Option (Run σ τ)} {n : ℕ} {p₀ p : Pool τ σ} {cs : List ℕ} {done : List ω → σ}
  {script : ℕ → List (List ω)}

/-- A pool whose tasks have taken `k` turns each. -/
structure Progress (action : ℕ → τ → Option (Run σ τ)) (n : ℕ) (done : List ω → σ) (script : ℕ → List (List ω))
    (k : ℕ → ℕ) (p : Pool τ σ) : Prop where
  le : ∀ c < n, k c ≤ (script c).length
  task : ∀ c < n, ∃ t, p.task c = .ok t ∧ Follows (action c) done t ((script c).drop (k c))
  marks : ∃ marks, p.shared = done marks ∧
    marks.Perm ((List.range n).flatMap fun c => ((script c).take (k c)).flatten)

/-- A task that has not come to the end of its script can take its next turn. -/
theorem Progress.next {k : ℕ → ℕ} (h : Progress action n done script k p) {c : ℕ} (hc : c < n)
    (hlt : k c < (script c).length) : ∃ p', Turn action n p c p' := by
  obtain ⟨t, ht, hfollows⟩ := h.task c hc
  obtain ⟨marks, hmarks, -⟩ := h.marks
  rw [List.drop_eq_getElem_cons hlt] at hfollows
  obtain ⟨x, t', hx, hrun, -⟩ := hfollows
  exact ⟨_, .step hc ht hx (by rw [hmarks, hrun])⟩

/-- A turn takes a task one further in its script, and no task panics. -/
theorem Progress.turn {k : ℕ → ℕ} (h : Progress action n done script k p) {c : ℕ} {p' : Pool τ σ}
    (hturn : Turn action n p c p') :
    c < n ∧ k c < (script c).length ∧ Progress action n done script (Function.update k c (k c + 1)) p' := by
  obtain ⟨marks, hmarks, hperm⟩ := h.marks
  have hnext : ∀ {t x}, c < n → p.task c = .ok t → action c t = some x →
      ∃ hlt : k c < (script c).length, ∃ t', x.run p.shared = .ok t' (done (marks ++ (script c)[k c])) ∧
        Follows (action c) done t' ((script c).drop (k c + 1)) := by
    intro t x hc ht hx
    obtain ⟨u, hu, hfollows⟩ := h.task c hc
    obtain rfl : t = u := Except.ok.inj (ht.symm.trans hu)
    have hlt : k c < (script c).length := by
      by_contra hge
      rw [List.drop_of_length_le (not_lt.mp hge)] at hfollows
      exact Option.some_ne_none x (hx.symm.trans hfollows)
    rw [List.drop_eq_getElem_cons hlt] at hfollows
    obtain ⟨y, t', hy, hrun, hrest⟩ := hfollows
    obtain rfl : x = y := Option.some.inj (hx.symm.trans hy)
    exact ⟨hlt, t', by rw [hmarks, hrun], hrest⟩
  cases hturn with
  | panic hc ht hx hpanic =>
    obtain ⟨_, t', hrun, -⟩ := hnext hc ht hx
    cases hrun.symm.trans hpanic
  | step hc ht hx hstep =>
    obtain ⟨hlt, t', hrun, hrest⟩ := hnext hc ht hx
    obtain ⟨rfl, rfl⟩ := EStateM.Result.ok.inj (hrun.symm.trans hstep)
    refine ⟨hc, hlt, fun d hd => ?_, fun d hd => ?_, _, rfl, ?_⟩
    · by_cases hdc : d = c
      · subst hdc
        rw [Function.update_self]
        exact hlt
      · rw [Function.update_of_ne hdc]
        exact h.le d hd
    · dsimp only
      by_cases hdc : d = c
      · subst hdc
        rw [Function.update_self, Function.update_self]
        exact ⟨_, rfl, hrest⟩
      · rw [Function.update_of_ne hdc, Function.update_of_ne hdc]
        exact h.task d hd
    · refine (hperm.append_right _).trans (perm_flatMap_append (c := c) ?_ (fun d hdc => ?_)
        (List.mem_range.mpr hc) List.nodup_range).symm
      · rw [Function.update_self, List.take_succ_eq_append_getElem hlt, List.flatten_append, List.flatten_singleton]
      · rw [Function.update_of_ne hdc]

variable (hstart : ∀ c < n, ∃ t, p₀.task c = .ok t ∧ Follows (action c) done t (script c))
  (hshared : p₀.shared = done [])
include hstart hshared

/-- **Every run has added a part of every script**, as much as its task has had turns. -/
theorem Turns.progress (h : Turns action n p₀ cs p) :
    (∀ c ∈ cs, c < n) ∧ Progress action n done script (fun c => cs.count c) p := by
  induction h with
  | start =>
    refine ⟨fun c hc => (List.not_mem_nil hc).elim, fun c _ => Nat.zero_le _, hstart, [], hshared, ?_⟩
    simp
  | @turn cs p p' c _ hturn ih =>
    obtain ⟨hmem, hprogress⟩ := ih
    obtain ⟨hc, -, hnext⟩ := hprogress.turn hturn
    refine ⟨fun d hd => ?_, ?_⟩
    · rcases List.mem_append.mp hd with hd | hd
      · exact hmem d hd
      · rwa [List.mem_singleton.mp hd]
    · have hcount : (fun d => (cs ++ [c]).count d) = Function.update (fun d => cs.count d) c (cs.count c + 1) := by
        funext d
        rw [List.count_append, List.count_singleton]
        by_cases hdc : d = c
        · subst hdc
          rw [Function.update_self, beq_self_eq_true, if_pos rfl]
        · rw [Function.update_of_ne hdc, if_neg (by simpa using Ne.symm hdc), Nat.add_zero]
      rw [hcount]
      exact hnext

theorem Turns.length_eq (h : Turns action n p₀ cs p) : cs.length = ∑ c ∈ Finset.range n, cs.count c := by
  obtain ⟨hmem, -⟩ := h.progress hstart hshared
  have hcard := Multiset.sum_count_eq_card (s := Finset.range n) (m := (cs : Multiset ℕ))
    fun c hc => Finset.mem_range.mpr (hmem c hc)
  simpa using hcard.symm

/-- **No run is longer than the scripts.** -/
theorem Turns.length_le (h : Turns action n p₀ cs p) : cs.length ≤ ∑ c ∈ Finset.range n, (script c).length := by
  obtain ⟨-, hprogress⟩ := h.progress hstart hshared
  rw [h.length_eq hstart hshared]
  exact Finset.sum_le_sum fun c hc => hprogress.le c (Finset.mem_range.mp hc)

/-- **A run that cannot go on has added all the scripts**, and each of its tasks has ended. -/
theorem Turns.ended (h : Turns action n p₀ cs p) (hend : ∀ c p', ¬ Turn action n p c p') :
    (∀ c < n, ∃ t, p.task c = .ok t ∧ action c t = none) ∧ ∃ marks, p.shared = done marks ∧
      marks.Perm ((List.range n).flatMap fun c => (script c).flatten) := by
  obtain ⟨-, hprogress⟩ := h.progress hstart hshared
  have hall : ∀ c < n, (script c).length ≤ cs.count c := by
    intro c hc
    by_contra hlt
    obtain ⟨p', hp'⟩ := hprogress.next hc (not_le.mp hlt)
    exact hend c p' hp'
  refine ⟨fun c hc => ?_, ?_⟩
  · obtain ⟨t, ht, hfollows⟩ := hprogress.task c hc
    rw [List.drop_of_length_le (hall c hc)] at hfollows
    exact ⟨t, ht, hfollows⟩
  · obtain ⟨marks, hmarks, hperm⟩ := hprogress.marks
    refine ⟨marks, hmarks, hperm.trans (.of_eq ?_)⟩
    rw [List.flatMap_def, List.flatMap_def]
    refine congrArg List.flatten (List.map_congr_left fun c hc => ?_)
    rw [List.take_of_length_le (hall c (List.mem_range.mp hc))]

/-- **Every run can go on to its end.** -/
theorem Turns.completes (h : Turns action n p₀ cs p) :
    ∃ cs' p', Turns action n p₀ (cs ++ cs') p' ∧ ∀ c p'', ¬ Turn action n p' c p'' := by
  obtain ⟨m, hm⟩ : ∃ m, m = (∑ c ∈ Finset.range n, (script c).length) - cs.length := ⟨_, rfl⟩
  induction m generalizing cs p with
  | zero =>
    refine ⟨[], p, by rwa [List.append_nil], fun c p' hturn => ?_⟩
    have hle := (h.turn hturn).length_le hstart hshared
    rw [List.length_append, List.length_singleton] at hle
    omega
  | succ m ih =>
    by_cases hend : ∀ c p', ¬ Turn action n p c p'
    · exact ⟨[], p, by rwa [List.append_nil], hend⟩
    · simp only [not_forall, not_not] at hend
      obtain ⟨c, p', hturn⟩ := hend
      obtain ⟨cs', p'', hrun, hstop⟩ := ih (h.turn hturn) (by rw [List.length_append, List.length_singleton]; omega)
      exact ⟨c :: cs', p'', by rwa [List.append_cons], hstop⟩

/-- Any order in which no task has more turns than its script can be run. -/
theorem Turns.exists_run (hmem : ∀ c ∈ cs, c < n) (hcount : ∀ c < n, cs.count c ≤ (script c).length) :
    ∃ p, Turns action n p₀ cs p := by
  induction cs using List.reverseRecOn with
  | nil => exact ⟨p₀, .start⟩
  | append_singleton cs c ih =>
    have hcn : c < n := hmem c (by simp)
    obtain ⟨p, hrun⟩ := ih (fun d hd => hmem d (List.mem_append_left _ hd))
      fun d hd => (List.Sublist.count_le d (List.sublist_append_left cs [c])).trans (hcount d hd)
    obtain ⟨-, hprogress⟩ := hrun.progress hstart hshared
    have hlast := hcount c hcn
    rw [List.count_append, List.count_singleton_self] at hlast
    obtain ⟨p', hturn⟩ := hprogress.next hcn hlast
    exact ⟨p', hrun.turn hturn⟩

end scripts

/-! ## Tasks on sub-slices -/

namespace Buffer

variable {α : Type}

/-- Run `action` on the sub-slice `out[start .. start + len]`, for its result. -/
def withSlice (start len : ℕ) (action : Run (Buffer α) τ) : Run (Buffer α) τ := fun out =>
  match action.run (ofList ((out.data.drop start).take len)) with
  | .ok a sub => .ok a (out.merge start sub)
  | .error e sub => .error e (out.merge start sub)

/-- An action that stores `f` on a sub-slice, whatever it held. -/
theorem run_withSlice_stored {f : ℕ → α} {out : List α} (is : List ℕ) {start len : ℕ} (h : start + len ≤ out.length)
    {action : Run (Buffer α) τ} {a : τ} {js : List ℕ} (hjs : ∀ j ∈ js, j < len)
    (haction : ∀ sub : List α, sub.length = len →
      action.run (ofList sub) = .ok a (stored (fun j => f (start + j)) sub js)) :
    (withSlice start len action).run (stored f out is) = .ok a (stored f out (is ++ js.map (start + ·))) := by
  have hsub : (((stored f out is).data.drop start).take len).length = len := by
    simp
    omega
  show (match action.run (ofList (((stored f out is).data.drop start).take len)) with
    | .ok a sub => EStateM.Result.ok a ((stored f out is).merge start sub)
    | .error e sub => .error e ((stored f out is).merge start sub)) = _
  rw [haction _ hsub]
  exact congrArg (EStateM.Result.ok a) (merge_stored f is h hjs)

/-- An action that faults without a trace on a sub-slice does so on the slice. -/
theorem run_withSlice_error {start len : ℕ} {action : Run (Buffer α) τ} {e : Fault}
    (haction : ∀ sub, action.run sub = .error e sub) (s : Buffer α) :
    (withSlice start len action).run s = .error e s := by
  show (match action.run (ofList ((s.data.drop start).take len)) with
    | .ok a sub => EStateM.Result.ok a (s.merge start sub)
    | .error e sub => .error e (s.merge start sub)) = _
  rw [haction]
  exact congrArg _ (merge_self s start len)

end Buffer

/-- The turns of a task from `t` on, on a slice of `len` elements: each stores `f` at its indices,
whatever the slice holds. -/
def Writes {α : Type} (action : τ → Option (Run (Buffer α) τ)) (f : ℕ → α) (len : ℕ) : τ → List (List ℕ) → Prop
  | t, [] => action t = none
  | t, xs :: script => (∀ x ∈ xs, x < len) ∧ ∃ x t', action t = some x ∧
      (∀ sub : List α, sub.length = len → x.run (.ofList sub) = .ok t' (.stored f sub xs)) ∧ Writes action f len t' script

/-- A turn that stores nothing. -/
theorem Writes.silent {α : Type} {action : τ → Option (Run (Buffer α) τ)} {f : ℕ → α} {len : ℕ} {t t' : τ}
    {x : Run (Buffer α) τ} {script : List (List ℕ)} (hx : action t = some x)
    (hrun : ∀ sub : List α, x.run (.ofList sub) = .ok t' (.ofList sub)) (hrest : Writes action f len t' script) :
    Writes action f len t ([] :: script) := by
  refine ⟨fun j hj => (List.not_mem_nil hj).elim, x, t', hx, fun sub _ => ?_, hrest⟩
  rw [hrun, Buffer.stored_nil]

/-- What is stored matters only at the indices of the slice. -/
theorem Writes.congr {α : Type} {action : τ → Option (Run (Buffer α) τ)} {f g : ℕ → α} {len : ℕ}
    (hfg : ∀ j < len, f j = g j) {t : τ} {script : List (List ℕ)} (h : Writes action f len t script) :
    Writes action g len t script := by
  induction script generalizing t with
  | nil => exact h
  | cons xs script ih =>
    obtain ⟨hxs, x, t', hx, hrun, hrest⟩ := h
    refine ⟨hxs, x, t', hx, fun sub hsub => ?_, ih hrest⟩
    rw [hrun sub hsub, Buffer.stored_congr sub fun j hj => hfg j (hxs j hj)]

/-- **A task on a sub-slice**, among tasks on the rest of the slice. -/
theorem Writes.follows {α : Type} {action : τ → Option (Run (Buffer α) τ)} {f : ℕ → α} {out : List α} {start len : ℕ}
    (h : start + len ≤ out.length) {t : τ} {script : List (List ℕ)}
    (hwrites : Writes action (fun j => f (start + j)) len t script) :
    Follows (fun t => (action t).map (Buffer.withSlice start len)) (Buffer.stored f out) t
      (script.map (List.map (start + ·))) := by
  induction script generalizing t with
  | nil =>
    show (action t).map _ = none
    rw [show action t = none from hwrites]
    rfl
  | cons xs script ih =>
    obtain ⟨hxs, x, t', hx, hrun, hrest⟩ := hwrites
    refine ⟨Buffer.withSlice start len x, t', congrArg (Option.map _) hx, fun marks => ?_, ih hrest⟩
    exact Buffer.run_withSlice_stored marks h hxs hrun

end Rust
