import Mathlib

/-!
# Computations that can fault

A shallow embedding of imperative code: a `Run σ α` acts on a mutable state `σ` and ends with a
value or with a fault, and a fault keeps the state it happened in, so that what a panic leaves
behind can be stated. Pure code that can only panic is an `Except Fault`.

A `while` loop takes fuel (`whileLoop`); running out of it is a fault of its own, so a theorem
that a loop returns is a theorem that it terminates, and a loop that runs out of every fuel does not
(`whileLoop_diverges`). `whileLoop_seq` runs a loop whose heads are known as a sequence, and
`LoopHead.seq` says that the loop has no other heads; `LoopHead.inv` is the rule for an invariant.
-/

namespace Rust

/-- How a computation stops without a value. -/
inductive Fault
  | indexOutOfBounds (index len : ℕ)
  | assertion (message : String)
  | divideByZero
  | undefinedBehaviour
  | outOfFuel
  deriving DecidableEq, Repr

/-- The faults that are panics. -/
def Fault.IsPanic : Fault → Prop
  | indexOutOfBounds _ _ => True
  | assertion _ => True
  | divideByZero => True
  | undefinedBehaviour => False
  | outOfFuel => False

abbrev Run (σ α : Type) := EStateM Fault σ α

instance {σ : Type} : MonadLift (Except Fault) (EStateM Fault σ) where
  monadLift x := fun s => match x with
    | .ok a => .ok a s
    | .error e => .error e s

/-- `xs[i]`, with its bounds check. -/
def index {α : Type} (xs : List α) (i : ℕ) : Except Fault α :=
  match xs[i]? with
  | some a => .ok a
  | none => .error (.indexOutOfBounds i xs.length)

def assert {σ : Type} (cond : Bool) (message : String) : Run σ Unit :=
  if cond then pure () else throw (.assertion message)

/-- `assert_eq!` -/
def assertEq {α : Type} [DecidableEq α] (a b : α) (message : String) : Except Fault Unit :=
  if a = b then .ok () else .error (.assertion message)

/-- `while cond { body }`, for fewer than `fuel` rounds. -/
def whileLoop {β σ : Type} (cond : β → Bool) (body : β → Run σ β) : ℕ → β → Run σ β
  | 0, _ => throw .outOfFuel
  | fuel + 1, b => if cond b then body b >>= whileLoop cond body fuel else pure b

/-- `for j in start..start + n { body }`, where a body that gives `false` returns from the function. -/
def forReturn {σ : Type} (body : ℕ → Run σ Bool) : ℕ → ℕ → Run σ Unit
  | _, 0 => pure ()
  | start, n + 1 => do
    if ← body start then forReturn body (start + 1) n else return ()

/-- The states a loop is in when it tests its condition. -/
inductive LoopHead {β σ : Type} (cond : β → Bool) (body : β → Run σ β) (b₀ : β) (s₀ : σ) : β → σ → Prop
  | entry : LoopHead cond body b₀ s₀ b₀ s₀
  | round {b b' : β} {s s' : σ} : LoopHead cond body b₀ s₀ b s → cond b = true →
      (body b).run s = .ok b' s' → LoopHead cond body b₀ s₀ b' s'

/-- Run the closures of a parallel loop one after another, in the order of the list. A closure
that faults does not stop the others; the first fault is reported when all are done. -/
def forEach {σ : Type} (closure : ℕ → Run σ Unit) : List ℕ → Run σ Unit
  | [] => pure ()
  | c :: cs => fun s => match (closure c).run s with
    | .ok _ s' => (forEach closure cs).run s'
    | .error e s' => match (forEach closure cs).run s' with
      | .ok _ s'' => .error e s''
      | .error _ s'' => .error e s''

variable {α β σ : Type}

/-! ## Single steps -/

theorem index_lt {xs : List α} {i : ℕ} (h : i < xs.length) : index xs i = .ok xs[i] := by
  simp [index, h]

theorem index_ge {xs : List α} {i : ℕ} (h : xs.length ≤ i) :
    index xs i = .error (.indexOutOfBounds i xs.length) := by
  simp [index, h]

theorem index_map_ok {xs : List α} {i : ℕ} {a : α} (f : α → β) (h : index xs i = .ok a) :
    index (xs.map f) i = .ok (f a) := by
  unfold index at h ⊢
  rw [List.getElem?_map]
  cases hx : xs[i]? with
  | none => simp [hx] at h
  | some b =>
    simp only [hx, Except.ok.injEq] at h
    simp [h]

@[simp] theorem ok_bind (a : α) (f : α → Except Fault β) : (.ok a >>= f : Except Fault β) = f a := rfl

@[simp] theorem run_liftM_ok (a : α) (s : σ) :
    EStateM.run (liftM (.ok a : Except Fault α) : Run σ α) s = .ok a s := rfl

@[simp] theorem run_liftM_error (e : Fault) (s : σ) :
    EStateM.run (liftM (.error e : Except Fault α) : Run σ α) s = .error e s := rfl

theorem run_bind_ok {x : Run σ α} {f : α → Run σ β} {s s' : σ} {a : α} (h : x.run s = .ok a s') :
    (x >>= f).run s = (f a).run s' := by
  rw [EStateM.run_bind, h]

theorem run_bind_error {x : Run σ α} {f : α → Run σ β} {s s' : σ} {e : Fault} (h : x.run s = .error e s') :
    (x >>= f).run s = .error e s' := by
  rw [EStateM.run_bind, h]

theorem run_bind_eq_ok {x : Run σ α} {f : α → Run σ β} {s s' : σ} {b : β} (h : (x >>= f).run s = .ok b s') :
    ∃ a t, x.run s = .ok a t ∧ (f a).run t = .ok b s' := by
  rw [EStateM.run_bind] at h
  cases hx : x.run s with
  | ok a t =>
    rw [hx] at h
    exact ⟨a, t, rfl, h⟩
  | error e t =>
    rw [hx] at h
    cases h

theorem run_map_ok {x : Run σ α} {f : α → β} {s s' : σ} {a : α} (h : x.run s = .ok a s') :
    (f <$> x).run s = .ok (f a) s' := by
  rw [EStateM.run_map, h]
  rfl

theorem run_assert_true (message : String) (s : σ) : (assert true message).run s = .ok () s := rfl

/-! ## Pure code that panics -/

theorem assertEq_self [DecidableEq α] (a : α) (message : String) : assertEq a a message = .ok () := if_pos rfl

theorem bind_eq_ok {x : Except Fault α} {f : α → Except Fault β} {b : β} (h : x >>= f = .ok b) :
    ∃ a, x = .ok a ∧ f a = .ok b := by
  rcases x with e | a
  · cases h
  · exact ⟨a, rfl, h⟩

/-- A loop over a list returns if each of its turns does. -/
theorem forM_eq_ok {f : α → Except Fault Unit} {xs : List α} : forM xs f = .ok () ↔ ∀ x ∈ xs, f x = .ok () := by
  induction xs with
  | nil => exact iff_of_true rfl fun x hx => absurd hx List.not_mem_nil
  | cons x xs ih =>
    rw [List.forM_cons, List.forall_mem_cons, ← ih]
    constructor
    · intro h
      obtain ⟨_, hx, hxs⟩ := bind_eq_ok h
      exact ⟨hx, hxs⟩
    · rintro ⟨hx, hxs⟩
      rw [hx, ok_bind, hxs]

theorem lt_of_index_ok {xs : List α} {i : ℕ} {a : α} (h : index xs i = .ok a) : i < xs.length := by
  by_contra hge
  rw [index_ge (not_lt.mp hge)] at h
  cases h

/-- Every turn of a loop that ends has ended. -/
theorem foldlM_mem_ok {f : β → α → Except Fault β} {xs : List α} {b b' : β} (h : xs.foldlM f b = .ok b') {x : α}
    (hx : x ∈ xs) : ∃ c c', f c x = .ok c' := by
  induction xs generalizing b with
  | nil => cases hx
  | cons y xs ih =>
    rw [List.foldlM_cons] at h
    obtain ⟨b₁, hy, hrest⟩ := bind_eq_ok h
    rcases List.mem_cons.mp hx with rfl | hx
    · exact ⟨b, b₁, hy⟩
    · exact ih hrest hx

/-- `x` fails only by a panic. -/
def OnlyPanics (x : Except Fault α) : Prop := ∀ e, x = .error e → e.IsPanic

theorem onlyPanics_ok (a : α) : OnlyPanics (.ok a : Except Fault α) := by
  rintro e ⟨⟩

theorem onlyPanics_index (xs : List α) (i : ℕ) : OnlyPanics (index xs i) := by
  unfold index
  intro e h
  cases hx : xs[i]? with
  | some a => rw [hx] at h; cases h
  | none => rw [hx] at h; cases h; trivial

theorem OnlyPanics.bind {x : Except Fault α} {f : α → Except Fault β} (hx : OnlyPanics x) (hf : ∀ a, OnlyPanics (f a)) :
    OnlyPanics (x >>= f) := by
  intro e h
  cases x with
  | error _ => cases h; exact hx e rfl
  | ok a => exact hf a e h

theorem onlyPanics_foldlM {f : β → α → Except Fault β} (hf : ∀ b a, OnlyPanics (f b a)) (xs : List α) (b : β) :
    OnlyPanics (xs.foldlM f b) := by
  induction xs generalizing b with
  | nil => exact onlyPanics_ok b
  | cons a xs ih => exact (hf b a).bind ih

theorem OnlyPanics.exists_panic {x : Except Fault α} (hx : OnlyPanics x) (hfail : ∀ a, x ≠ .ok a) :
    ∃ e, e.IsPanic ∧ x = .error e := by
  cases x with
  | ok a => exact absurd rfl (hfail a)
  | error e => exact ⟨e, hx e rfl, rfl⟩

/-! ## Loops -/

section whileLoops
variable {cond : β → Bool} {body : β → Run σ β}

theorem whileLoop_true {fuel : ℕ} {b b' : β} {s s' : σ} (hc : cond b = true)
    (hb : (body b).run s = .ok b' s') :
    (whileLoop cond body (fuel + 1) b).run s = (whileLoop cond body fuel b').run s' := by
  rw [whileLoop, if_pos hc, run_bind_ok hb]

theorem whileLoop_false {fuel : ℕ} {b : β} {s : σ} (hc : cond b = false) :
    (whileLoop cond body (fuel + 1) b).run s = .ok b s := by
  unfold whileLoop
  rw [if_neg (by simp [hc])]
  rfl

/-- `m` rounds of a loop whose heads are `b 0, b 1, …`. -/
theorem whileLoop_rounds (b : ℕ → β) (s : ℕ → σ) (m : ℕ)
    (hround : ∀ k < m, cond (b k) = true ∧ (body (b k)).run (s k) = .ok (b (k + 1)) (s (k + 1)))
    (fuel : ℕ) :
    (whileLoop cond body (m + fuel) (b 0)).run (s 0) = (whileLoop cond body fuel (b m)).run (s m) := by
  induction m generalizing fuel with
  | zero => rw [Nat.zero_add]
  | succ m ih =>
    have hm := hround m (Nat.lt_succ_self m)
    rw [show m + 1 + fuel = m + (fuel + 1) by omega, ih (fun k hk => hround k (by omega)),
      whileLoop_true hm.1 hm.2]

/-- A loop whose heads are `b 0, …, b m` and that stops at the last. -/
theorem whileLoop_seq (b : ℕ → β) (s : ℕ → σ) (m : ℕ)
    (hround : ∀ k < m, cond (b k) = true ∧ (body (b k)).run (s k) = .ok (b (k + 1)) (s (k + 1)))
    (hstop : cond (b m) = false) {fuel : ℕ} (hfuel : m < fuel) :
    (whileLoop cond body fuel (b 0)).run (s 0) = .ok (b m) (s m) := by
  obtain ⟨f, rfl⟩ : ∃ f, fuel = m + (f + 1) := ⟨fuel - m - 1, by omega⟩
  rw [whileLoop_rounds b s m hround, whileLoop_false hstop]

/-- A loop whose heads are `b 0, …, b m` and whose body faults at the last. -/
theorem whileLoop_fault (b : ℕ → β) (s : ℕ → σ) (m : ℕ)
    (hround : ∀ k < m, cond (b k) = true ∧ (body (b k)).run (s k) = .ok (b (k + 1)) (s (k + 1)))
    (hc : cond (b m) = true) {e : Fault} {s' : σ} (hfault : (body (b m)).run (s m) = .error e s') {fuel : ℕ}
    (hfuel : m < fuel) : (whileLoop cond body fuel (b 0)).run (s 0) = .error e s' := by
  obtain ⟨f, rfl⟩ : ∃ f, fuel = m + (f + 1) := ⟨fuel - m - 1, by omega⟩
  rw [whileLoop_rounds b s m hround, whileLoop, if_pos hc, run_bind_error hfault]

/-- A loop whose body changes nothing runs for ever. -/
theorem whileLoop_diverges {b : β} {s : σ} (hc : cond b = true) (hb : (body b).run s = .ok b s) (fuel : ℕ) :
    (whileLoop cond body fuel b).run s = .error .outOfFuel s := by
  induction fuel with
  | zero => rfl
  | succ fuel ih => rw [whileLoop_true hc hb, ih]

/-- A loop whose heads are `b 0, …, b m` has no others. -/
theorem LoopHead.seq (b : ℕ → β) (s : ℕ → σ) (m : ℕ)
    (hround : ∀ k < m, cond (b k) = true ∧ (body (b k)).run (s k) = .ok (b (k + 1)) (s (k + 1)))
    (hstop : cond (b m) = false) {b' : β} {s' : σ} (h : LoopHead cond body (b 0) (s 0) b' s') :
    ∃ k ≤ m, b' = b k ∧ s' = s k := by
  induction h with
  | entry => exact ⟨0, Nat.zero_le m, rfl, rfl⟩
  | round _ hc hb ih =>
    obtain ⟨k, hk, rfl, rfl⟩ := ih
    have hkm : k ≠ m := by
      rintro rfl
      rw [hstop] at hc
      exact Bool.false_ne_true hc
    have hlt : k < m := by omega
    have hnext := hb.symm.trans (hround k hlt).2
    exact ⟨k + 1, by omega, (EStateM.Result.ok.inj hnext).1, (EStateM.Result.ok.inj hnext).2⟩

/-- What holds at the entry of a loop and is kept by its rounds holds at every head. -/
theorem LoopHead.inv (Inv : β → σ → Prop) {b₀ : β} {s₀ : σ} (hentry : Inv b₀ s₀)
    (hround : ∀ b b' s s', Inv b s → cond b = true → (body b).run s = .ok b' s' → Inv b' s') {b : β} {s : σ}
    (h : LoopHead cond body b₀ s₀ b s) : Inv b s := by
  induction h with
  | entry => exact hentry
  | round _ hc hb ih => exact hround _ _ _ _ ih hc hb

end whileLoops

/-- A `for` loop over `start, …, start + n - 1` whose states are known. -/
theorem forM_range'_seq (f : ℕ → Run σ PUnit) (s : ℕ → σ) (n : ℕ) :
    ∀ start, (∀ j, start ≤ j → j < start + n → (f j).run (s j) = .ok () (s (j + 1))) →
      (forM (List.range' start n) f).run (s start) = .ok () (s (start + n)) := by
  induction n with
  | zero => intro start _; rfl
  | succ n ih =>
    intro start h
    rw [List.range'_succ, List.forM_cons, run_bind_ok (h start le_rfl (by omega)),
      ih (start + 1) fun j h1 h2 => h j (by omega) (by omega), show start + 1 + n = start + (n + 1) by omega]

theorem forM_range_seq (f : ℕ → Run σ PUnit) (s : ℕ → σ) (n : ℕ)
    (h : ∀ j < n, (f j).run (s j) = .ok () (s (j + 1))) :
    (forM (List.range n) f).run (s 0) = .ok () (s n) := by
  have := forM_range'_seq f s n 0 fun j _ hj => h j (by omega)
  rwa [Nat.zero_add, ← List.range_eq_range'] at this

/-- A `for` loop that faults at turn `m`. -/
theorem forM_range_fault (f : ℕ → Run σ PUnit) (s : ℕ → σ) {m n : ℕ} (hm : m < n)
    (h : ∀ j < m, (f j).run (s j) = .ok () (s (j + 1))) {e : Fault} {s' : σ} (hfault : (f m).run (s m) = .error e s') :
    (forM (List.range n) f).run (s 0) = .error e s' := by
  obtain ⟨k, rfl⟩ : ∃ k, n = m + (k + 1) := ⟨n - m - 1, by omega⟩
  have hsplit : List.range (m + (k + 1)) = List.range m ++ m :: List.range' (m + 1) k := by
    rw [List.range_eq_range', List.range_eq_range', ← List.range'_append_1, Nat.zero_add, List.range'_succ]
  rw [hsplit, List.forM_append, run_bind_ok (forM_range_seq f s m h), List.forM_cons, run_bind_error hfault]

/-- A loop that may return early, whose states are known up to `m` rounds, where it ends. -/
theorem forReturn_seq (body : ℕ → Run σ Bool) (s : ℕ → σ) (m : ℕ) :
    ∀ start n, m ≤ n → (∀ j, start ≤ j → j < start + m → (body j).run (s j) = .ok true (s (j + 1))) →
      (m < n → (body (start + m)).run (s (start + m)) = .ok false (s (start + m))) →
      (forReturn body start n).run (s start) = .ok () (s (start + m)) := by
  induction m with
  | zero =>
    intro start n _ _ hstop
    cases n with
    | zero => rfl
    | succ n =>
      exact run_bind_ok (hstop n.succ_pos)
  | succ m ih =>
    intro start n hmn hgo hstop
    obtain ⟨n, rfl⟩ : ∃ n', n = n' + 1 := ⟨n - 1, by omega⟩
    unfold forReturn
    rw [run_bind_ok (hgo start le_rfl (by omega)), if_pos rfl]
    rw [show start + (m + 1) = start + 1 + m by omega] at hstop ⊢
    exact ih (start + 1) n (by omega) (fun j h1 h2 => hgo j (by omega) (by omega)) fun h => hstop (by omega)

theorem foldlM_ok (f : β → α → Except Fault β) (g : β → α → β) (xs : List α)
    (h : ∀ b, ∀ x ∈ xs, f b x = .ok (g b x)) (b : β) : xs.foldlM f b = .ok (xs.foldl g b) := by
  induction xs generalizing b with
  | nil => rfl
  | cons x xs ih =>
    rw [List.foldlM_cons, h b x (by simp), ok_bind, ih fun b y hy => h b y (by simp [hy])]
    rfl

/-- A fallible `for` loop that keeps an invariant. -/
theorem foldlM_range'_inv (f : β → ℕ → Except Fault β) (Inv : ℕ → β → Prop) (n : ℕ) :
    ∀ start b, Inv start b →
      (∀ i b, start ≤ i → i < start + n → Inv i b → ∃ b', f b i = .ok b' ∧ Inv (i + 1) b') →
      ∃ b', (List.range' start n).foldlM f b = .ok b' ∧ Inv (start + n) b' := by
  induction n with
  | zero => intro start b hb _; exact ⟨b, rfl, hb⟩
  | succ n ih =>
    intro start b hb hstep
    obtain ⟨b₁, hf, hb₁⟩ := hstep start b le_rfl (by omega) hb
    obtain ⟨b₂, hfold, hb₂⟩ := ih (start + 1) b₁ hb₁ fun i b h1 h2 => hstep i b (by omega) (by omega)
    refine ⟨b₂, ?_, by rwa [show start + (n + 1) = start + 1 + n by omega]⟩
    rw [List.range'_succ, List.foldlM_cons, hf]
    exact hfold

/-! ## Parallel loops -/

theorem forEach_cons_ok {closure : ℕ → Run σ Unit} {c : ℕ} {cs : List ℕ} {s s' : σ}
    (h : (closure c).run s = .ok () s') :
    (forEach closure (c :: cs)).run s = (forEach closure cs).run s' := by
  show (match (closure c).run s with
    | .ok _ s' => (forEach closure cs).run s'
    | .error e s' => match (forEach closure cs).run s' with
      | .ok _ s'' => .error e s''
      | .error _ s'' => .error e s'') = _
  rw [h]

/-- If the closures all succeed on the states that `done` gives for the sets of closures that have
already run, so does the loop, in every order. -/
theorem forEach_ok (closure : ℕ → Run σ Unit) (done : List ℕ → σ) (order : List ℕ)
    (h : ∀ before c after, order = before ++ c :: after →
      (closure c).run (done before) = .ok () (done (before ++ [c]))) :
    (forEach closure order).run (done []) = .ok () (done order) := by
  have key : ∀ after before, order = before ++ after →
      (forEach closure after).run (done before) = .ok () (done order) := by
    intro after
    induction after with
    | nil => intro before hb; rw [hb, List.append_nil]; rfl
    | cons c after ih =>
      intro before hb
      rw [forEach_cons_ok (h before c after hb)]
      exact ih _ (by rw [hb, List.append_assoc]; rfl)
  exact key order [] rfl

/-- If every closure faults without a trace, so does the loop, whichever of them run. -/
theorem forEach_error {closure : ℕ → Run σ Unit} {e : Fault} {s : σ} {order : List ℕ} (hne : order ≠ [])
    (h : ∀ c ∈ order, (closure c).run s = .error e s) : (forEach closure order).run s = .error e s := by
  induction order with
  | nil => exact absurd rfl hne
  | cons c cs ih =>
    show (match (closure c).run s with
      | .ok _ s' => (forEach closure cs).run s'
      | .error e s' => match (forEach closure cs).run s' with
        | .ok _ s'' => .error e s''
        | .error _ s'' => .error e s'') = _
    rw [h c List.mem_cons_self]
    cases cs with
    | nil => rfl
    | cons c' cs =>
      simp only [ih (List.cons_ne_nil c' cs) fun d hd => h d (List.mem_cons_of_mem c hd)]

end Rust
