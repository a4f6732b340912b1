import Mathlib

/-!
# Reversible steps

Steps that can be taken back one by one can be taken back together, the last one first
(`Undoes.foldl`), so any number of them is a bijection (`bijective_foldl`).
-/

namespace Reversible

variable {ι α : Type*} {step undo : α → ι → α}

/-- `undo` takes back the step of every index. -/
def Undoes (undo step : α → ι → α) : Prop := ∀ a i, undo (step a i) i = a

theorem Undoes.foldl (h : Undoes undo step) (is : List ι) (a : α) :
    is.reverse.foldl undo (is.foldl step a) = a := by
  induction is generalizing a with
  | nil => rfl
  | cons i is ih =>
    rw [List.foldl_cons, List.reverse_cons, List.foldl_append, ih]
    exact h a i

theorem Undoes.foldl_reverse (h : Undoes undo step) (is : List ι) (a : α) :
    is.foldl undo (is.reverse.foldl step a) = a := by
  have hall := h.foldl is.reverse a
  rwa [List.reverse_reverse] at hall

theorem bijective_foldl (h : Undoes undo step) (h' : Undoes step undo) (is : List ι) :
    Function.Bijective fun a => is.foldl step a :=
  Function.bijective_iff_has_inverse.mpr ⟨fun a => is.reverse.foldl undo a, h.foldl is, h'.foldl_reverse is⟩

end Reversible
