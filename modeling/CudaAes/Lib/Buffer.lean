import CudaAes.Lib.Run

/-!
# Slices being written

A `Buffer` is a mutable slice together with the indices stored to it so far, which is ghost state:
no operation reads it. `Buffer.stored f out is` is the slice `out` after `f i` was stored at each
index `i` of `is`, and every store of the right value only extends that list (`run_set_stored`,
`run_storeRaw_stored`, `merge_stored`), so a program that writes `f` is followed by the list of indices
it has written.
-/

namespace Rust

/-- A slice and the indices stored to it, oldest first. -/
structure Buffer (α : Type) where
  data : List α
  stores : List ℕ
  deriving DecidableEq, Repr

def loadRaw {α : Type} (xs : List α) (i n : ℕ) : Except Fault (List α) :=
  if i + n ≤ xs.length then .ok ((xs.drop i).take n) else .error .undefinedBehaviour

namespace Buffer

variable {α : Type}

def ofList (xs : List α) : Buffer α := ⟨xs, []⟩

/-- `out[i] = v`, with its bounds check. -/
def set (i : ℕ) (v : α) : Run (Buffer α) Unit := fun out =>
  if i < out.data.length then .ok () ⟨out.data.set i v, out.stores ++ [i]⟩
  else .error (.indexOutOfBounds i out.data.length) out

/-- A raw store of the elements `vs` at `out.as_mut_ptr().add(i)`. -/
def storeRaw (i : ℕ) (vs : List α) : Run (Buffer α) Unit := fun out =>
  if i + vs.length ≤ out.data.length then
    .ok () ⟨out.data.take i ++ (vs ++ out.data.drop (i + vs.length)), out.stores ++ List.range' i vs.length⟩
  else .error .undefinedBehaviour out

/-- Put a sub-slice that was taken at `start` back. -/
def merge (out : Buffer α) (start : ℕ) (sub : Buffer α) : Buffer α :=
  ⟨out.data.take start ++ (sub.data ++ out.data.drop (start + sub.data.length)),
    out.stores ++ sub.stores.map (start + ·)⟩

/-- Run `action` on the sub-slice `out[start .. start + len]`. -/
def onSlice (start len : ℕ) (action : Run (Buffer α) Unit) : Run (Buffer α) Unit := fun out =>
  match action.run (ofList ((out.data.drop start).take len)) with
  | .ok _ sub => .ok () (out.merge start sub)
  | .error e sub => .error e (out.merge start sub)

/-- The slice `out` after `f i` was stored at each index `i` of `is`, in that order. -/
def stored (f : ℕ → α) (out : List α) (is : List ℕ) : Buffer α :=
  ⟨out.mapIdx fun i x => if i ∈ is then f i else x, is⟩

section stored
variable (f : ℕ → α) (out : List α) (is : List ℕ)

@[simp] theorem length_stored : (stored f out is).data.length = out.length := by simp [stored]

@[simp] theorem stores_stored : (stored f out is).stores = is := rfl

theorem getElem_stored {i : ℕ} (h' : i < (stored f out is).data.length) (h : i < out.length) :
    (stored f out is).data[i] = if i ∈ is then f i else out[i] := by
  simp [stored]

theorem getElem?_stored (i : ℕ) :
    (stored f out is).data[i]? = out[i]?.map fun x => if i ∈ is then f i else x :=
  List.getElem?_mapIdx

variable {is} in
theorem getElem?_stored_mem {i : ℕ} (hi : i ∈ is) (h : i < out.length) : (stored f out is).data[i]? = some (f i) := by
  rw [getElem?_stored, List.getElem?_eq_getElem h, Option.map_some, if_pos hi]

variable {is} in
theorem getElem?_stored_not_mem {i : ℕ} (hi : i ∉ is) : (stored f out is).data[i]? = out[i]? := by
  rw [getElem?_stored]
  simp only [hi, if_false, Option.map_id']

/-- Storing the first `n` elements leaves the others. -/
theorem drop_stored_range (n : ℕ) : (stored f out (List.range n)).data.drop n = out.drop n := by
  apply List.ext_getElem?
  intro i
  rw [List.getElem?_drop, List.getElem?_drop, getElem?_stored_not_mem]
  simp

theorem stored_nil : stored f out [] = ofList out := by
  rw [stored, ofList]
  congr 1
  apply List.ext_getElem
  · simp
  · simp

variable {f is} in
/-- The contents depend only on what is stored at the indices. -/
theorem stored_congr {g : ℕ → α} (h : ∀ i ∈ is, f i = g i) : stored f out is = stored g out is := by
  refine congrArg (Buffer.mk · is) (List.ext_getElem (by simp) fun i h1 h2 => ?_)
  rw [List.getElem_mapIdx, List.getElem_mapIdx]
  by_cases hi : i ∈ is
  · rw [if_pos hi, if_pos hi, h i hi]
  · rw [if_neg hi, if_neg hi]

/-- The contents depend only on the set of indices stored. -/
theorem stored_data_congr {is' : List ℕ} (h : ∀ i < out.length, i ∈ is ↔ i ∈ is') :
    (stored f out is).data = (stored f out is').data := by
  apply List.ext_getElem
  · simp
  · intro i h1 h2
    rw [length_stored] at h1
    rw [getElem_stored f out is _ h1, getElem_stored f out is' _ h1, if_congr (h i h1) rfl rfl]

variable {out}

theorem set_stored (i : ℕ) : (stored f out is).data.set i (f i) = (stored f out (is ++ [i])).data := by
  apply List.ext_getElem
  · simp
  · intro j h1 h2
    rw [List.length_set, length_stored] at h1
    rw [List.getElem_set, getElem_stored f out is _ h1, getElem_stored f out _ _ h1]
    simp only [List.mem_append, List.mem_singleton]
    by_cases hij : i = j
    · subst hij
      simp
    · simp [hij, Ne.symm hij]

variable (out) in
theorem foldl_set_stored (stores : List (ℕ × α)) (h : ∀ w ∈ stores, w.2 = f w.1) :
    stores.foldl (fun xs w => xs.set w.1 w.2) (stored f out is).data =
      (stored f out (is ++ stores.map Prod.fst)).data := by
  induction stores generalizing is with
  | nil => simp
  | cons w stores ih =>
    rw [List.foldl_cons, h w List.mem_cons_self, set_stored, ih _ fun v hv => h v (List.mem_cons_of_mem w hv),
      List.map_cons, List.append_assoc]
    rfl

variable (out) in
theorem foldl_set (stores : List (ℕ × α)) (h : ∀ w ∈ stores, w.2 = f w.1) :
    stores.foldl (fun xs w => xs.set w.1 w.2) out = (stored f out (stores.map Prod.fst)).data := by
  have hfold := foldl_set_stored f out [] stores h
  rwa [stored_nil, List.nil_append] at hfold

theorem run_set_stored {i : ℕ} (h : i < out.length) :
    (set i (f i)).run (stored f out is) = .ok () (stored f out (is ++ [i])) := by
  show (if i < (stored f out is).data.length then _ else _) = _
  rw [length_stored, if_pos h]
  exact congrArg _ (congrArg (Buffer.mk · _) (set_stored f is i))

theorem run_set_stored_ge {i : ℕ} (h : out.length ≤ i) (v : α) :
    (set i v).run (stored f out is) = .error (.indexOutOfBounds i out.length) (stored f out is) := by
  show (if i < (stored f out is).data.length then _ else _) = _
  rw [length_stored, if_neg (not_lt.mpr h)]

theorem splice_stored {start n : ℕ} (h : start + n ≤ out.length) (vs : List α) (hlen : vs.length = n)
    (hvs : ∀ j (hj : j < n), vs[j] = f (start + j)) :
    (stored f out is).data.take start ++ (vs ++ (stored f out is).data.drop (start + n)) =
      (stored f out (is ++ List.range' start n)).data := by
  apply List.ext_getElem
  · simp [hlen]
    omega
  · intro j h1 h2
    rw [length_stored] at h2
    rw [getElem_stored f out _ _ h2]
    simp only [List.mem_append, List.mem_range'_1]
    by_cases hlow : j < start
    · rw [List.getElem_append_left (by simp; omega), List.getElem_take, getElem_stored f out is _ h2]
      simp [show ¬ start ≤ j by omega]
    · rw [List.getElem_append_right (by simp; omega)]
      simp only [List.length_take, length_stored, show min start out.length = start by omega]
      by_cases hmid : j < start + n
      · rw [List.getElem_append_left (by omega), hvs _ (by omega), show start + (j - start) = j by omega]
        simp [show start ≤ j by omega, hmid]
      · rw [List.getElem_append_right (by omega), List.getElem_drop]
        simp only [hlen, show start + n + (j - start - n) = j by omega]
        rw [getElem_stored f out is _ h2]
        simp [hmid]

theorem run_storeRaw_stored {i : ℕ} {vs : List α} (h : i + vs.length ≤ out.length)
    (hvs : ∀ j (hj : j < vs.length), vs[j] = f (i + j)) :
    (storeRaw i vs).run (stored f out is) = .ok () (stored f out (is ++ List.range' i vs.length)) := by
  show (if i + vs.length ≤ (stored f out is).data.length then _ else _) = _
  rw [length_stored, if_pos h]
  exact congrArg _ (congrArg (Buffer.mk · _) (splice_stored f is h vs rfl hvs))

/-- Putting back a sub-slice on which `f` was stored. -/
theorem merge_stored {start len : ℕ} (h : start + len ≤ out.length) {js : List ℕ} (hjs : ∀ j ∈ js, j < len) :
    (stored f out is).merge start (stored (fun j => f (start + j)) (((stored f out is).data.drop start).take len) js) =
      stored f out (is ++ js.map (start + ·)) := by
  have hsub : (((stored f out is).data.drop start).take len).length = len := by
    simp
    omega
  refine congrArg₂ Buffer.mk ?_ rfl
  rw [length_stored, hsub]
  apply List.ext_getElem?
  intro i
  have hmap : i ∈ js.map (start + ·) ↔ start ≤ i ∧ i - start ∈ js := by
    rw [List.mem_map]
    refine ⟨?_, fun ⟨hle, hj⟩ => ⟨_, hj, Nat.add_sub_cancel' hle⟩⟩
    rintro ⟨j, hj, rfl⟩
    exact ⟨Nat.le_add_right _ _, by rwa [Nat.add_sub_cancel_left]⟩
  have htake : ((stored f out is).data.take start).length = start := by
    rw [List.length_take, length_stored]
    omega
  have hmem : i ∈ is ++ js.map (start + ·) ↔ i ∈ is ∨ (start ≤ i ∧ i - start ∈ js) := by rw [List.mem_append, hmap]
  refine Eq.trans ?_ (getElem?_stored f out (is ++ js.map (start + ·)) i).symm
  rcases Nat.lt_or_ge i start with hlow | hge
  · rw [List.getElem?_append_left (by omega), List.getElem?_take_of_lt hlow, getElem?_stored]
    simp only [hmem, not_le.mpr hlow, false_and, or_false]
  · rw [List.getElem?_append_right (by omega), htake]
    rcases Nat.lt_or_ge i (start + len) with hmid | hhigh
    · rw [List.getElem?_append_left (by rw [length_stored, hsub]; omega), getElem?_stored,
        List.getElem?_take_of_lt (by omega), List.getElem?_drop, show start + (i - start) = i by omega, getElem?_stored,
        Option.map_map]
      refine congrArg (Option.map · _) (funext fun x => ?_)
      by_cases hj : i - start ∈ js
      · simp only [Function.comp_apply, hmem, hj, hge, true_and, or_true, if_true]
      · simp only [Function.comp_apply, hmem, hj, and_false, or_false, if_false]
    · have hnot : i - start ∉ js := fun hj => by have := hjs _ hj; omega
      rw [List.getElem?_append_right (by rw [length_stored, hsub]; omega), length_stored, hsub, List.getElem?_drop,
        show start + len + (i - start - len) = i by omega, getElem?_stored]
      simp only [hmem, hnot, and_false, or_false]

end stored

/-- A sub-slice put back as it was taken. -/
theorem merge_self (s : Buffer α) (start len : ℕ) : s.merge start (ofList ((s.data.drop start).take len)) = s := by
  have hdrop : ∀ ys : List α, ys.drop (ys.take len).length = ys.drop len := by
    intro ys
    rw [List.length_take]
    rcases Nat.le_total len ys.length with h | h
    · rw [Nat.min_eq_left h]
    · rw [Nat.min_eq_right h, List.drop_length, List.drop_of_length_le h]
  refine congrArg₂ Buffer.mk ?_ (List.append_nil _)
  show s.data.take start ++ ((s.data.drop start).take len ++ _) = s.data
  rw [← List.drop_drop]
  show s.data.take start ++ ((s.data.drop start).take len ++ (s.data.drop start).drop ((s.data.drop start).take len).length) = _
  rw [hdrop, List.take_append_drop, List.take_append_drop]

/-- An action that faults without a trace on a sub-slice does so on the slice. -/
theorem run_onSlice_error {start len : ℕ} {action : Run (Buffer α) Unit} {e : Fault}
    (haction : ∀ sub, action.run sub = .error e sub) (s : Buffer α) : (onSlice start len action).run s = .error e s := by
  show (match action.run (ofList ((s.data.drop start).take len)) with
    | .ok _ sub => EStateM.Result.ok () (s.merge start sub)
    | .error e sub => .error e (s.merge start sub)) = _
  rw [haction]
  exact congrArg _ (merge_self s start len)

end Buffer

theorem loadRaw_le {α : Type} {xs : List α} {i n : ℕ} (h : i + n ≤ xs.length) :
    loadRaw xs i n = .ok ((xs.drop i).take n) := if_pos h

end Rust
