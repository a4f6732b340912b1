import Mathlib

/-!
# Stream ciphers

A stream cipher combines element `i` of a message with element `i` of a keystream. A message can be
cut and its pieces combined with the keystream from their positions on, and where the combination
undoes itself, so does the cipher, on any part of the message.
-/

namespace StreamCipher

variable {α κ : Type*} (op : α → κ → α)

def apply (ks : ℕ → κ) (xs : List α) : List α := xs.mapIdx fun i x => op x (ks i)

/-- The keystream from position `a` on. -/
def advance (ks : ℕ → κ) (a : ℕ) : ℕ → κ := fun i => ks (a + i)

@[simp] theorem length_apply (ks : ℕ → κ) (xs : List α) : (apply op ks xs).length = xs.length := by simp [apply]

theorem getElem?_apply (ks : ℕ → κ) (xs : List α) (i : ℕ) : (apply op ks xs)[i]? = xs[i]?.map fun x => op x (ks i) :=
  List.getElem?_mapIdx

/-- Only the keystream at the positions of the message matters. -/
theorem apply_congr {ks ks' : ℕ → κ} {xs : List α} (h : ∀ i < xs.length, ks i = ks' i) :
    apply op ks xs = apply op ks' xs := by
  apply List.ext_getElem
  · simp
  · intro i h1 _
    rw [length_apply] at h1
    simp [apply, h i h1]

theorem advance_advance (ks : ℕ → κ) (a b : ℕ) : advance (advance ks a) b = advance ks (a + b) :=
  funext fun i => congrArg ks (Nat.add_assoc a b i).symm

theorem apply_append (ks : ℕ → κ) (xs ys : List α) :
    apply op ks (xs ++ ys) = apply op ks xs ++ apply op (advance ks xs.length) ys := by
  simp only [apply, advance, List.mapIdx_append, Nat.add_comm]

/-- A part of a ciphertext is the ciphertext of the part. -/
theorem take_drop_apply (ks : ℕ → κ) (xs : List α) (a n : ℕ) :
    ((apply op ks xs).drop a).take n = apply op (advance ks a) ((xs.drop a).take n) := by
  apply List.ext_getElem
  · simp
  · intro i h1 h2
    simp [apply, advance]

/-- A cipher whose combination undoes itself undoes itself. -/
theorem apply_apply (hop : ∀ x k, op (op x k) k = x) (ks : ℕ → κ) (xs : List α) : apply op ks (apply op ks xs) = xs := by
  apply List.ext_getElem
  · simp
  · intro i h1 h2
    simp [apply, hop]

/-- Where a ciphertext element and its plaintext give the keystream element, two messages give the keystream. -/
theorem zipWith_apply {op' : α → α → κ} (hop : ∀ x k, op' (op x k) x = k) (ks : ℕ → κ) (xs : List α) :
    List.zipWith op' (apply op ks xs) xs = (List.range xs.length).map ks := by
  apply List.ext_getElem
  · simp
  · intro i h1 h2
    simp [apply, hop]

/-- A message of equal elements has a ciphertext without repetition where the keystream has none. -/
theorem nodup_apply_replicate {x : α} (hop : Function.Injective (op x)) (ks : ℕ → κ) (n : ℕ) :
    (apply op ks (List.replicate n x)).Nodup ↔ Set.InjOn ks (Set.Iio n) := by
  have hmap : apply op ks (List.replicate n x) = (List.range n).map fun i => op x (ks i) := by
    apply List.ext_getElem
    · simp
    · intro i h1 h2
      simp [apply]
  rw [hmap, List.nodup_map_iff_inj_on List.nodup_range]
  refine ⟨fun h i hi j hj heq => h i (List.mem_range.mpr hi) j (List.mem_range.mpr hj) (congrArg (op x) heq),
    fun h i hi j hj heq => h (List.mem_range.mp hi) (List.mem_range.mp hj) (hop heq)⟩

end StreamCipher
