import CudaAes.Fips197.Field

/-!
# The AES-128 cipher of FIPS-197

The cipher on the 4x4 state, stored by columns, and the key expansion for `Nk = 4`. The two maps
that rest on the field, SubBytes and MixColumns, and the round constants are the parameters
`ByteMaps`: `fieldMaps` takes them from the field and from polynomials over it, as the standard
defines them, and `byteMaps` computes them on bytes. The two are equal (`fieldMaps_eq`).
-/

namespace CudaAes.Fips197

open BinaryField

abbrev State := Arr4 Column

/-- What the cipher takes from the field. -/
structure ByteMaps where
  /-- SubBytes on one byte. -/
  subByte : U8 → U8
  /-- MixColumns on one column. -/
  mixColumn : Column → Column
  /-- The first byte of `Rcon[j]`. -/
  rcon : ℕ → U8

/-- The affine map of the S-box, bit by bit, with `c = {63}`. -/
def affine (b : U8) : U8 :=
  BitVec.ofFnLE fun i : Fin 8 =>
    b.getLsbD i ^^ b.getLsbD ((i + 4) % 8) ^^ b.getLsbD ((i + 5) % 8) ^^ b.getLsbD ((i + 6) % 8) ^^
      b.getLsbD ((i + 7) % 8) ^^ (0x63#8).getLsbD i

/-- The field's own maps: the inverse in `GF(2^8)` followed by the affine map, the product with
`{03}x^3 + {01}x^2 + {01}x + {02}` modulo `x^4 + 1`, and the powers of `x`. -/
noncomputable def fieldMaps : ByteMaps where
  subByte b := affine (fieldInv b)
  mixColumn := mixColumn
  rcon j := toGF.symm (AdjoinRoot.root (modulus 0x1b#8) ^ (j - 1))

def byteMaps : ByteMaps where
  subByte b := affine (inv b)
  mixColumn := mixColumnBytes
  rcon j := (xtimes 0x1b#8)^[j - 1] 1

theorem toGF_iterate_xtimes (j : ℕ) :
    toGF ((xtimes 0x1b#8)^[j] 1) = AdjoinRoot.root (modulus 0x1b#8) ^ j := by
  induction j with
  | zero => exact toGF_one
  | succ j ih =>
    rw [Function.iterate_succ_apply', pow_succ', ← ih]
    exact toExt_xtimes 0x1b#8 _

/-- **The cipher's maps can be computed on bytes.** -/
theorem fieldMaps_eq : fieldMaps = byteMaps := by
  have hsub : fieldMaps.subByte = byteMaps.subByte := funext fun b => congrArg affine (fieldInv_eq b)
  have hmix : fieldMaps.mixColumn = byteMaps.mixColumn := funext mixColumn_eq
  have hrcon : fieldMaps.rcon = byteMaps.rcon :=
    funext fun j => toGF_symm_eq (toGF_iterate_xtimes (j - 1))
  calc fieldMaps = ⟨fieldMaps.subByte, fieldMaps.mixColumn, fieldMaps.rcon⟩ := rfl
    _ = byteMaps := by rw [hsub, hmix, hrcon]

def shiftRows (s : State) : State :=
  ⟨⟨s.e0.e0, s.e1.e1, s.e2.e2, s.e3.e3⟩, ⟨s.e1.e0, s.e2.e1, s.e3.e2, s.e0.e3⟩,
    ⟨s.e2.e0, s.e3.e1, s.e0.e2, s.e1.e3⟩, ⟨s.e3.e0, s.e0.e1, s.e1.e2, s.e2.e3⟩⟩

def xorColumn (a b : Column) : Column := a.zipWith (· ^^^ ·) b

def addRoundKey (s k : State) : State := s.zipWith xorColumn k

/-- There are eleven round keys, so a round number can be a literal. -/
instance neZeroRoundKeys : NeZero 11 := ⟨by decide⟩

/-- The rounds with MixColumns. -/
def midRounds : List (Fin 11) := [1, 2, 3, 4, 5, 6, 7, 8, 9]

namespace ByteMaps

variable (A : ByteMaps)

def subBytes (s : State) : State := s.map (·.map A.subByte)

def mixColumns (s : State) : State := s.map A.mixColumn

def round (s k : State) : State := addRoundKey (A.mixColumns (shiftRows (A.subBytes s))) k

def finalRound (s k : State) : State := addRoundKey (shiftRows (A.subBytes s)) k

/-- `Cipher(in, 10, w)`, with the round keys as states. -/
def cipher (k : Fin 11 → State) (s : State) : State :=
  A.finalRound (midRounds.foldl (fun s r => A.round s (k r)) (addRoundKey s (k 0))) (k 10)

/-- `SubWord(RotWord(w)) xor Rcon[j]` -/
def keyCore (j : ℕ) (w : Column) : Column :=
  xorColumn ((⟨w.e1, w.e2, w.e3, w.e0⟩ : Column).map A.subByte) ⟨A.rcon j, 0, 0, 0⟩

/-- Word `i` of `KeyExpansion(key, w, 4)`. -/
def keyWord (key : Arr4 Column) (i : ℕ) : Column :=
  if h : i < 4 then key.get ⟨i, h⟩
  else xorColumn (keyWord key (i - 4))
    (if i % 4 = 0 then A.keyCore (i / 4) (keyWord key (i - 1)) else keyWord key (i - 1))
termination_by i

theorem keyWord_lt (key : Arr4 Column) {i : ℕ} (h : i < 4) : A.keyWord key i = key.get ⟨i, h⟩ := by
  unfold keyWord
  rw [dif_pos h]

theorem keyWord_ge (key : Arr4 Column) {i : ℕ} (h : 4 ≤ i) :
    A.keyWord key i = xorColumn (A.keyWord key (i - 4))
      (if i % 4 = 0 then A.keyCore (i / 4) (A.keyWord key (i - 1)) else A.keyWord key (i - 1)) := by
  rw [keyWord, dif_neg (by omega)]

/-- Round key `r`: words `4 r` to `4 r + 3` of the expanded key. -/
def roundKey (key : Arr4 Column) (r : Fin 11) : State :=
  ⟨A.keyWord key (4 * r), A.keyWord key (4 * r + 1), A.keyWord key (4 * r + 2), A.keyWord key (4 * r + 3)⟩

end ByteMaps

end CudaAes.Fips197
