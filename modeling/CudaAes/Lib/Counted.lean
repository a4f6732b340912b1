import CudaAes.Lib.Buffer

/-!
# Counting calls

Code on a slice can be written for every state that holds one (`SliceState`). It then runs on the slice
alone, where a call leaves no trace, and on a slice with a counter (`Counted`), where `call` adds one.
The counter is ghost state, as the stores of a `Buffer` are: no operation reads it. A run that is proved
over the class is a run of both.
-/

namespace Rust

/-- A state that holds a slice and may count calls: `hold out n` holds `out` after `n` calls. -/
class SliceState (σ : Type) (α : outParam Type) where
  hold : Buffer α → ℕ → σ
  onBuffer {β : Type} : Run (Buffer α) β → Run σ β
  onSlice : ℕ → ℕ → Run σ Unit → Run σ Unit
  call : Run σ Unit
  run_onBuffer {β : Type} {x : Run (Buffer α) β} {b : β} {out out' : Buffer α} (n : ℕ) :
    x.run out = .ok b out' → (onBuffer x).run (hold out n) = .ok b (hold out' n)
  run_onSlice {start len n n' : ℕ} {action : Run σ Unit} {out sub : Buffer α} :
    action.run (hold (.ofList ((out.data.drop start).take len)) n) = .ok () (hold sub n') →
      (onSlice start len action).run (hold out n) = .ok () (hold (out.merge start sub) n')
  run_call (out : Buffer α) (n : ℕ) : call.run (hold out n) = .ok () (hold out (n + 1))

variable {α : Type}

/-- The slice alone. -/
@[default_instance]
instance : SliceState (Buffer α) α where
  hold out _ := out
  onBuffer x := x
  onSlice := Buffer.onSlice
  call := pure ()
  run_onBuffer _ h := h
  run_onSlice {start len _ _ action out sub} h := by
    show (match action.run (.ofList ((out.data.drop start).take len)) with
      | .ok _ sub => EStateM.Result.ok () (out.merge start sub)
      | .error e sub => .error e (out.merge start sub)) = _
    rw [h]
  run_call _ _ := rfl

/-- A slice with the number of calls so far. -/
structure Counted (α : Type) where
  out : Buffer α
  calls : ℕ
  deriving DecidableEq, Repr

namespace Counted

def ofList (xs : List α) : Counted α := ⟨.ofList xs, 0⟩

def onBuffer {β : Type} (x : Run (Buffer α) β) : Run (Counted α) β := fun s =>
  match x.run s.out with
  | .ok b out => .ok b ⟨out, s.calls⟩
  | .error e out => .error e ⟨out, s.calls⟩

def onSlice (start len : ℕ) (action : Run (Counted α) Unit) : Run (Counted α) Unit := fun s =>
  match action.run ⟨.ofList ((s.out.data.drop start).take len), s.calls⟩ with
  | .ok _ sub => .ok () ⟨s.out.merge start sub.out, sub.calls⟩
  | .error e sub => .error e ⟨s.out.merge start sub.out, sub.calls⟩

def call : Run (Counted α) Unit := fun s => .ok () ⟨s.out, s.calls + 1⟩

instance : SliceState (Counted α) α where
  hold := Counted.mk
  onBuffer := onBuffer
  onSlice := onSlice
  call := call
  run_onBuffer {_ x _ out _} n h := by
    show (match x.run out with
      | .ok b out => EStateM.Result.ok b (Counted.mk out n)
      | .error e out => .error e ⟨out, n⟩) = _
    rw [h]
  run_onSlice {start len n _ action out _} h := by
    show (match action.run ⟨.ofList ((out.data.drop start).take len), n⟩ with
      | .ok _ sub => EStateM.Result.ok () (Counted.mk (out.merge start sub.out) sub.calls)
      | .error e sub => .error e ⟨out.merge start sub.out, sub.calls⟩) = _
    rw [h]
  run_call _ _ := rfl

end Counted

/-- Code that stores `f` on a sub-slice, whatever it held. -/
theorem SliceState.run_onSlice_stored {σ : Type} [SliceState σ α] {f : ℕ → α} {out : List α} (is : List ℕ)
    {start len : ℕ} (h : start + len ≤ out.length) {js : List ℕ} (hjs : ∀ j ∈ js, j < len) {action : Run σ Unit}
    {n n' : ℕ} (haction : ∀ sub : List α, sub.length = len →
      action.run (hold (.ofList sub) n) = .ok () (hold (.stored (fun j => f (start + j)) sub js) n')) :
    (onSlice start len action).run (hold (.stored f out is) n) =
      .ok () (hold (.stored f out (is ++ js.map (start + ·))) n') := by
  have hsub : (((Buffer.stored f out is).data.drop start).take len).length = len := by
    simp
    omega
  rw [← Buffer.merge_stored f is h hjs]
  exact run_onSlice (haction _ hsub)

end Rust
