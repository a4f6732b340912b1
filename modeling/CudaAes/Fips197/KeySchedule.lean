import CudaAes.Lib.Reversible
import CudaAes.Fips197.Cipher

/-!
# The key expansion read backwards

Four consecutive words of the expanded key determine the next (`keyStep`), and each of these steps can
be taken back (`keyUnstep`), whatever SubWord is. So every round key determines the key, and every
state is the round key of some key (`roundKey_bijective`).
-/

namespace CudaAes.Fips197

theorem xorColumn_xorColumn (a b : Column) : xorColumn (xorColumn a b) b = a := by
  simp [xorColumn, Arr4.zipWith]

namespace ByteMaps

variable (A : ByteMaps)

/-- What word `i` of the expanded key adds to word `i - 4`, from word `i - 1`. -/
def keyTemp (i : ℕ) (w : Column) : Column := if i % 4 = 0 then A.keyCore (i / 4) w else w

theorem keyWord_add_four (key : State) (i : ℕ) :
    A.keyWord key (i + 4) = xorColumn (A.keyWord key i) (A.keyTemp (i + 4) (A.keyWord key (i + 3))) :=
  A.keyWord_ge key (Nat.le_add_left 4 i)

/-- Words `i` to `i + 3`. -/
def keyWindow (key : State) (i : ℕ) : State :=
  ⟨A.keyWord key i, A.keyWord key (i + 1), A.keyWord key (i + 2), A.keyWord key (i + 3)⟩

theorem keyWindow_zero (key : State) : A.keyWindow key 0 = key := by
  unfold keyWindow
  rw [A.keyWord_lt key (by decide), A.keyWord_lt key (by decide), A.keyWord_lt key (by decide),
    A.keyWord_lt key (by decide)]
  rfl

/-- Append word `i` to the four words before it, and drop the first of them. -/
def keyStep (s : State) (i : ℕ) : State := ⟨s.e1, s.e2, s.e3, xorColumn s.e0 (A.keyTemp i s.e3)⟩

/-- From the four words that end with word `i`, the four that end with word `i - 1`. -/
def keyUnstep (s : State) (i : ℕ) : State := ⟨xorColumn s.e3 (A.keyTemp i s.e2), s.e0, s.e1, s.e2⟩

theorem undoes_keyStep : Reversible.Undoes A.keyUnstep A.keyStep := by
  intro s i
  simp only [keyUnstep, keyStep, xorColumn_xorColumn]

theorem undoes_keyUnstep : Reversible.Undoes A.keyStep A.keyUnstep := by
  intro s i
  simp only [keyUnstep, keyStep, xorColumn_xorColumn]

theorem keyWindow_eq (key : State) (i : ℕ) : A.keyWindow key i = (List.range' 4 i).foldl A.keyStep key := by
  induction i with
  | zero => exact A.keyWindow_zero key
  | succ i ih =>
    rw [List.range'_1_concat, List.foldl_append, ← ih, List.foldl_cons, List.foldl_nil, keyStep, keyWindow, Nat.add_comm 4 i]
    exact congrArg _ (A.keyWord_add_four key i)

/-- **Every round key determines the key**, and every state is a round key. -/
theorem roundKey_bijective (r : Fin 11) : Function.Bijective fun key => A.roundKey key r := by
  have hwindow : (fun key => A.roundKey key r) = fun key => (List.range' 4 (4 * r)).foldl A.keyStep key :=
    funext fun key => A.keyWindow_eq key (4 * r)
  rw [hwindow]
  exact Reversible.bijective_foldl A.undoes_keyStep A.undoes_keyUnstep _

end ByteMaps

end CudaAes.Fips197
