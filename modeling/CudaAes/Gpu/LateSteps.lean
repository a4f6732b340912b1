import CudaAes.Gpu.StreamsSpec

/-!
# Steps out of order

A step on which the kernel overtakes the default stream cannot be made good. What the kernel has read
stays in the history, and a pending word stays pending until it is written, which it is before the copy
back: so a call that took such a step and returns is not right (`not_callOk_of_late`).
-/

namespace CudaAes

variable {c : GpuCall} {G : GpuState → List GpuEvent → Prop} {s s' : GpuState} {events : List GpuEvent}

theorem GpuStep.history_eq (hstep : GpuStep c s events s') : s'.history = s.history ++ events := by
  cases hstep <;> simp

theorem GpuStep.read_eq (hstep : GpuStep c s events s') {b : Buf} {words : List U32}
    (hread : .read b words ∈ events) : words = s.mem b := by
  cases hstep <;> simp at hread
  · obtain ⟨rfl, rfl⟩ := hread
    rfl
  · rcases hread with ⟨rfl, rfl⟩ | ⟨rfl, rfl⟩ <;> rfl

theorem GpuStep.stream_eq (hstep : GpuStep c s events s') {a : ℕ} (hstore : .store a ∈ events) :
    s'.stream = s.stream := by
  cases hstep <;> first | rfl | simp at hstore

/-- A pending word stays pending until it is written. -/
theorem GpuStep.pending (hstep : GpuStep c s events s') {b : Buf} {i : ℕ}
    (h : ∃ x ∈ s.stream, x.buf = b ∧ i ∈ x.pending.map Prod.fst) :
    .write b i ∈ events ∨ ∃ x ∈ s'.stream, x.buf = b ∧ i ∈ x.pending.map Prod.fst := by
  cases hstep with
  | issue _ =>
    obtain ⟨x, hx, hxi⟩ := h
    exact Or.inr ⟨x, List.mem_append_left _ hx, hxi⟩
  | @write b' before after w rest hstream =>
    by_cases hwi : b = b' ∧ i = w.1
    · obtain ⟨rfl, rfl⟩ := hwi
      exact Or.inl (by simp)
    · rw [hstream] at h
      exact Or.inr (pending_write hwi h)
  | complete hstream =>
    rw [hstream] at h
    exact Or.inr (pending_complete h)
  | launch _ _ _ => exact Or.inr h
  | start _ _ => exact Or.inr h
  | read _ _ _ _ => exact Or.inr h
  | store _ => exact Or.inr h
  | next _ => exact Or.inr h
  | exit _ _ => exact Or.inr h
  | synchronize _ _ => exact Or.inr h
  | download _ _ => exact Or.inr h

theorem history_grows (h : GpuReachable c G s s') : s.history <+: s'.history := by
  induction h with
  | refl => exact List.prefix_rfl
  | tail _ hstep ih =>
    obtain ⟨events, hstep, -⟩ := hstep
    rw [hstep.history_eq]
    exact ih.trans (List.prefix_append _ _)

/-- The zero fill is still to overwrite a word that the kernel has stored, or has overwritten one. -/
def Clobbered (a : ℕ) (s : GpuState) : Prop :=
  (.store a ∈ s.history ∧ ∃ x ∈ s.stream, x.buf = .ct ∧ a ∈ x.pending.map Prod.fst) ∨
    ¬ s.history.Pairwise fun e e' => ∀ a, e = .store a → e' ≠ .write .ct a

theorem Clobbered.step {a : ℕ} (h : Clobbered a s) (hstep : GpuStep c s events s') : Clobbered a s' := by
  unfold Clobbered
  rw [hstep.history_eq]
  rcases h with ⟨hstore, hpending⟩ | hbroken
  · rcases hstep.pending hpending with hwrite | hpending
    · right
      intro hpairs
      exact (List.pairwise_append.mp hpairs).2.2 _ hstore _ hwrite a rfl rfl
    · exact Or.inl ⟨List.mem_append_left _ hstore, hpending⟩
  · exact Or.inr fun hpairs => hbroken (List.pairwise_append.mp hpairs).1

theorem Clobbered.reachable {a : ℕ} (h : Clobbered a s) (hreach : GpuReachable c G s s') : Clobbered a s' := by
  induction hreach with
  | refl => exact h
  | tail _ hstep ih =>
    obtain ⟨events, hstep, -⟩ := hstep
    exact ih.step hstep

/-- **A step out of order spoils the call.** -/
theorem not_callOk_of_late {s₀ s'' : GpuState} (h₀ : s₀.Initial c) (h : GpuReachable c G s₀ s)
    (hstep : GpuStep c s events s') (hlate : ¬ InOrder s events) (hrest : GpuReachable c G s' s'')
    (hpc : s''.pc = .returned) : ¬ CallOk c s'' := by
  intro hok
  have hs := (streamInv_initial h₀).reachable h
  have hkept : ∀ e ∈ events, e ∈ s'.history := by
    intro e he
    rw [hstep.history_eq]
    exact List.mem_append_right _ he
  refine hlate ⟨fun b words hread x hx hxb w hw => ?_, fun a hstore x hx hxb ha => ?_⟩
  · have hwords := hok.reads b words ((history_grows hrest).subset (hkept _ hread))
    rw [← hstep.read_eq hread, hwords, ← hxb]
    exact hs.pending x hx w hw
  · have hclobbered : Clobbered a s' := Or.inl ⟨hkept _ hstore, x, hstep.stream_eq hstore ▸ hx, hxb, ha⟩
    rcases hclobbered.reachable hrest with ⟨-, y, hy, -⟩ | hbroken
    · rw [((hs.step hstep).reachable hrest).drained hpc] at hy
      cases hy
    · exact hbroken hok.overwrites

end CudaAes
