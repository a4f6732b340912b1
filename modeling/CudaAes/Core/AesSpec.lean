import CudaAes.Fips197.KeySchedule
import CudaAes.Core.TablesSpec

/-!
# The table cipher is the cipher of FIPS-197

Word `c` of a block is column `c` of the state, big-endian (`stateOf`). A table word is a column of
a full round (`tableWord_eq`), so a table round is a round of the standard on the state
(`tableRound_eq`) and, by induction over the rounds, `encrypt_block` is its cipher
(`encryptBlock_eq`). The key schedule computes the words of KeyExpansion (`keyExpansion_eq`).
-/

namespace CudaAes

open Rust Fips197

/-! ## Blocks and states -/

/-- The state of a block: word `c` is column `c`, big-endian. -/
def stateOf (b : Block) : State := b.map toBeBytes

def blockOf (s : State) : Block := s.map fromBeBytes

@[simp] theorem stateOf_blockOf (s : State) : stateOf (blockOf s) = s := by
  simp only [stateOf, blockOf, Arr4.map, toBeBytes_fromBeBytes]

@[simp] theorem blockOf_stateOf (b : Block) : blockOf (stateOf b) = b := by
  simp only [stateOf, blockOf, Arr4.map, fromBeBytes_toBeBytes]

theorem stateOf_injective : Function.Injective stateOf :=
  Function.LeftInverse.injective blockOf_stateOf

theorem fromBeBytes_xor (a b : Column) : fromBeBytes (xorColumn a b) = fromBeBytes a ^^^ fromBeBytes b := by
  have h := toBeBytes_xor (fromBeBytes a) (fromBeBytes b)
  rw [toBeBytes_fromBeBytes, toBeBytes_fromBeBytes] at h
  unfold xorColumn
  rw [← h, fromBeBytes_toBeBytes]

theorem stateOf_xorBlock (a b : Block) : stateOf (xorBlock a b) = addRoundKey (stateOf a) (stateOf b) := by
  simp only [stateOf, xorBlock, addRoundKey, Arr4.map, Arr4.zipWith, toBeBytes_xor, xorColumn]

/-- Round key `r` of a schedule: words `4 r` to `4 r + 3`. -/
def scheduleBlock (rk : List U32) (r : Fin 11) : Block :=
  ⟨rk.getD (4 * r) 0, rk.getD (4 * r + 1) 0, rk.getD (4 * r + 2) 0, rk.getD (4 * r + 3) 0⟩

def scheduleKeys (rk : List U32) (r : Fin 11) : State := stateOf (scheduleBlock rk r)

theorem index_getD {rk : List U32} {i : ℕ} (h : i < rk.length) : index rk i = .ok (rk.getD i 0) := by
  rw [index_lt h, List.getD_eq_getElem _ _ h]

/-! ## One round -/

theorem toNat_byte3 (w : U32) : (w >>> 24).toNat = (toBeBytes w).e0.toNat := by
  simp only [toBeBytes, BitVec.extractLsb'_toNat, BitVec.toNat_ushiftRight]
  have := w.isLt
  rw [Nat.mod_eq_of_lt]
  simp only [Nat.shiftRight_eq_div_pow]
  omega

theorem toNat_and_ff (w : U32) : (w &&& 0xff).toNat = w.toNat % 2 ^ 8 := by
  rw [BitVec.toNat_and]
  exact Nat.and_two_pow_sub_one_eq_mod w.toNat 8

theorem toNat_byte2 (w : U32) : ((w >>> 16) &&& 0xff).toNat = (toBeBytes w).e1.toNat := by
  rw [toNat_and_ff]
  rfl

theorem toNat_byte1 (w : U32) : ((w >>> 8) &&& 0xff).toNat = (toBeBytes w).e2.toNat := by
  rw [toNat_and_ff]
  rfl

theorem toNat_byte0 (w : U32) : (w &&& 0xff).toNat = (toBeBytes w).e3.toNat := by
  rw [toNat_and_ff]
  rfl

/-- The bytes that a round moves into one column. -/
def diagonal (a b c d : U32) : Column :=
  ⟨(toBeBytes a).e0, (toBeBytes b).e1, (toBeBytes c).e2, (toBeBytes d).e3⟩

/-- **A table word is a column of a full round.** -/
theorem tableWord_eq {rk : List U32} {k : ℕ} (hk : k < rk.length) (a b c d : U32) :
    tableWord t0 t1 t2 t3 rk a b c d k =
      .ok (fromBeBytes (xorColumn (byteMaps.mixColumn ((diagonal a b c d).map byteMaps.subByte))
        (toBeBytes (rk.getD k 0)))) := by
  unfold tableWord
  rw [toNat_byte3, toNat_byte2, toNat_byte1, toNat_byte0, index_t0, index_t1, index_t2, index_t3,
    index_getD hk]
  simp only [ok_bind]
  refine congrArg Except.ok ?_
  rw [fromBeBytes_xor, fromBeBytes_toBeBytes, ← fromBeBytes_xor, ← fromBeBytes_xor, ← fromBeBytes_xor]
  congr 2

theorem sboxWord_eq (a b c d : U32) :
    sboxWord sboxU32 a b c d = .ok (fromBeBytes ((diagonal a b c d).map byteMaps.subByte)) := by
  unfold sboxWord
  rw [toNat_byte3, toNat_byte2, toNat_byte1, toNat_byte0, index_sboxU32, index_sboxU32, index_sboxU32,
    index_sboxU32]
  simp only [ok_bind]
  exact congrArg Except.ok (or_eq_fromBeBytes _ _ _ _)

theorem tableRound_eq {rk : List U32} (hrk : 44 ≤ rk.length) (s : Block) (r : Fin 11) :
    tableRound t0 t1 t2 t3 rk s r = .ok (blockOf (byteMaps.round (stateOf s) (scheduleKeys rk r))) := by
  have hr := r.isLt
  rw [tableRound, Nat.mul_comm, tableWord_eq (by omega), tableWord_eq (by omega), tableWord_eq (by omega),
    tableWord_eq (by omega)]
  rfl

theorem finalRound_eq (s k : Block) :
    (⟨fromBeBytes ((diagonal s.e0 s.e1 s.e2 s.e3).map byteMaps.subByte) ^^^ k.e0,
      fromBeBytes ((diagonal s.e1 s.e2 s.e3 s.e0).map byteMaps.subByte) ^^^ k.e1,
      fromBeBytes ((diagonal s.e2 s.e3 s.e0 s.e1).map byteMaps.subByte) ^^^ k.e2,
      fromBeBytes ((diagonal s.e3 s.e0 s.e1 s.e2).map byteMaps.subByte) ^^^ k.e3⟩ : Block) =
      blockOf (byteMaps.finalRound (stateOf s) (stateOf k)) := by
  apply stateOf_injective
  simp only [stateOf, Arr4.map, toBeBytes_xor, toBeBytes_fromBeBytes, blockOf]
  rfl

/-! ## The cipher -/

/-- The block cipher of a schedule, as FIPS-197 computes it on the bytes. -/
def cipherBlock (rk : List U32) (pt : Block) : Block :=
  blockOf (byteMaps.cipher (scheduleKeys rk) (stateOf pt))

theorem foldl_tableRound (rk : List U32) (rs : List (Fin 11)) (s : Block) :
    rs.foldl (fun s r => blockOf (byteMaps.round (stateOf s) (scheduleKeys rk r))) s =
      blockOf (rs.foldl (fun s r => byteMaps.round s (scheduleKeys rk r)) (stateOf s)) := by
  induction rs generalizing s with
  | nil => exact (blockOf_stateOf s).symm
  | cons r rs ih => rw [List.foldl_cons, List.foldl_cons, ih, stateOf_blockOf]

theorem encryptBlock_eq {rk : List U32} (hrk : 44 ≤ rk.length) (pt : Block) :
    encryptBlock pt rk t0 t1 t2 t3 sboxU32 = .ok (cipherBlock rk pt) := by
  have hrounds : List.range' 1 9 = midRounds.map Fin.val := by decide
  have hfold : ∀ s : Block, (List.range' 1 9).foldlM (tableRound t0 t1 t2 t3 rk) s =
      .ok (blockOf (midRounds.foldl (fun s r => byteMaps.round s (scheduleKeys rk r)) (stateOf s))) := by
    intro s
    rw [hrounds, List.foldlM_map, foldlM_ok _ _ _ fun s r _ => tableRound_eq hrk s r, foldl_tableRound]
  have hfirst : (⟨pt.e0 ^^^ rk.getD 0 0, pt.e1 ^^^ rk.getD 1 0, pt.e2 ^^^ rk.getD 2 0, pt.e3 ^^^ rk.getD 3 0⟩ : Block) =
      xorBlock pt (scheduleBlock rk 0) := rfl
  unfold encryptBlock
  rw [index_getD (by omega), index_getD (by omega), index_getD (by omega), index_getD (by omega)]
  simp only [ok_bind]
  rw [hfirst, hfold, stateOf_xorBlock]
  simp only [ok_bind, sboxWord_eq, index_getD (show 40 < rk.length by omega), index_getD (show 41 < rk.length by omega),
    index_getD (show 42 < rk.length by omega), index_getD (show 43 < rk.length by omega)]
  refine congrArg Except.ok ((finalRound_eq _ (scheduleBlock rk 10)).trans ?_)
  rw [stateOf_blockOf]
  rfl

/-! ## The key schedule -/

theorem subWord_eq (w : U32) : subWord w = .ok (fromBeBytes ((toBeBytes w).map byteMaps.subByte)) := by
  simp only [subWord, index_sbox, ok_bind]
  rfl

theorem toBeBytes_rotWord (w : U32) :
    toBeBytes (rotWord w) = ⟨(toBeBytes w).e1, (toBeBytes w).e2, (toBeBytes w).e3, (toBeBytes w).e0⟩ := by
  refine Arr4.ext ?_ ?_ ?_ ?_ <;> apply BitVec.eq_of_getLsbD_eq <;> intro i hi <;>
    simp only [toBeBytes, rotWord, BitVec.getLsbD_extractLsb', BitVec.getLsbD_rotateLeft] <;> grind

theorem toBeBytes_high (x : U8) : toBeBytes (x.setWidth 32 <<< 24) = ⟨x, 0, 0, 0⟩ := by
  have h := congrArg toBeBytes (or_eq_fromBeBytes x 0 0 0)
  rw [toBeBytes_fromBeBytes] at h
  simpa using h

/-- What word `i` of the schedule adds to word `i - 4`, from word `i - 1`. -/
def scheduleTemp (i : ℕ) (prev : U32) : Except Fault U32 := do
  if i % 4 = 0 then
    return (← subWord (rotWord prev)) ^^^ ((← index rcon (i / 4 - 1)).setWidth 32 <<< 24)
  return prev

theorem scheduleTemp_eq {i : ℕ} (h4 : 4 ≤ i) (h44 : i < 44) (prev : U32) :
    ∃ temp, scheduleTemp i prev = .ok temp ∧ toBeBytes temp = byteMaps.keyTemp i (toBeBytes prev) := by
  unfold scheduleTemp ByteMaps.keyTemp
  by_cases hmod : i % 4 = 0
  · have hrcon := index_rcon (i / 4 - 1) (by omega)
    rw [show i / 4 - 1 + 1 = i / 4 by omega] at hrcon
    rw [if_pos hmod, if_pos hmod, subWord_eq, hrcon]
    refine ⟨_, rfl, ?_⟩
    rw [ByteMaps.keyCore, toBeBytes_xor, toBeBytes_high, toBeBytes_fromBeBytes, toBeBytes_rotWord]
    rfl
  · rw [if_neg hmod, if_neg hmod]
    exact ⟨prev, rfl, rfl⟩

theorem index_toList {w : Vector U32 44} {i : ℕ} (h : i < 44) : index w.toList i = .ok w[i] := by
  rw [index_lt (by simpa using h)]
  simp

theorem keyExpansionStep_temp {w : Vector U32 44} {i : ℕ} (h4 : 4 ≤ i) (h44 : i < 44) {temp : U32}
    (htemp : scheduleTemp i w[i - 1] = .ok temp) : keyExpansionStep w i = .ok (w.set i (w[i - 4] ^^^ temp)) := by
  have hset : setIndex w i (w[i - 4] ^^^ temp) = .ok (w.set i (w[i - 4] ^^^ temp)) := dif_pos h44
  rw [← hset]
  unfold scheduleTemp at htemp
  by_cases hmod : i % 4 = 0
  · have hrcon := index_rcon (i / 4 - 1) (by omega)
    rw [if_pos hmod, subWord_eq, hrcon] at htemp
    rw [← Except.ok.inj htemp]
    simp only [keyExpansionStep, index_toList (show i - 1 < 44 by omega), index_toList (show i - 4 < 44 by omega), hmod,
      hrcon, subWord_eq, ok_bind, if_true]
  · rw [if_neg hmod] at htemp
    rw [← Except.ok.inj htemp]
    simp only [keyExpansionStep, index_toList (show i - 1 < 44 by omega), index_toList (show i - 4 < 44 by omega), hmod,
      ok_bind, if_false]

theorem keyExpansionStep_eq {key : Block} {w : Vector U32 44} {i : ℕ} (h4 : 4 ≤ i) (h44 : i < 44)
    (hw : ∀ j (hj : j < 44), j < i → toBeBytes w[j] = byteMaps.keyWord (stateOf key) j) :
    ∃ w', keyExpansionStep w i = .ok w' ∧
      ∀ j (hj : j < 44), j < i + 1 → toBeBytes w'[j] = byteMaps.keyWord (stateOf key) j := by
  obtain ⟨temp, hok, htemp⟩ := scheduleTemp_eq h4 h44 w[i - 1]
  refine ⟨_, keyExpansionStep_temp h4 h44 hok, ?_⟩
  intro j hj hji
  rcases Nat.lt_succ_iff_lt_or_eq.mp hji with hlt | rfl
  · rw [Vector.getElem_set_ne _ _ (by omega)]
    exact hw j hj hlt
  · obtain ⟨i, rfl⟩ := Nat.exists_eq_add_of_le' h4
    rw [Vector.getElem_set_self, toBeBytes_xor, htemp, hw _ (by omega) (by omega), hw _ (by omega) (by omega),
      ByteMaps.keyWord_add_four]
    rfl

theorem keyExpansion_eq (key : Block) :
    ∃ w, keyExpansion key = .ok w ∧
      ∀ i (hi : i < 44), toBeBytes w[i] = byteMaps.keyWord (stateOf key) i := by
  unfold keyExpansion
  extract_lets w₀ w₁
  have hinit : ∀ j (hj : j < 44), j < 4 → toBeBytes w₁[j] = byteMaps.keyWord (stateOf key) j := by
    intro j hj h4
    rw [ByteMaps.keyWord_lt _ _ h4]
    rcases (by omega : j = 0 ∨ j = 1 ∨ j = 2 ∨ j = 3) with rfl | rfl | rfl | rfl <;>
      simp [w₁, stateOf, Arr4.map, Arr4.get]
  obtain ⟨w, hfold, hw⟩ := foldlM_range'_inv keyExpansionStep
    (fun i w => ∀ j (hj : j < 44), j < i → toBeBytes w[j] = byteMaps.keyWord (stateOf key) j) 40 4 w₁ hinit
    fun i w h4 h44 hw => keyExpansionStep_eq h4 (by omega) hw
  exact ⟨w, hfold, fun i hi => hw i hi (by omega)⟩

theorem scheduleKeys_keyExpansion {key : Block} {w : Vector U32 44}
    (hw : ∀ i (hi : i < 44), toBeBytes w[i] = byteMaps.keyWord (stateOf key) i) (r : Fin 11) :
    scheduleKeys w.toList r = byteMaps.roundKey (stateOf key) r := by
  have hr := r.isLt
  have hget : ∀ i, i < 44 → toBeBytes (w.toList.getD i 0) = byteMaps.keyWord (stateOf key) i := by
    intro i hi
    rw [List.getD_eq_getElem _ _ (by simpa using hi), ← hw i hi]
    simp
  simp only [scheduleKeys, stateOf, scheduleBlock, Arr4.map, hget _ (show 4 * r.val < 44 by omega),
    hget _ (show 4 * r.val + 1 < 44 by omega), hget _ (show 4 * r.val + 2 < 44 by omega),
    hget _ (show 4 * r.val + 3 < 44 by omega)]
  rfl

/-- **The table implementation is AES-128 as FIPS-197 defines it over the field**: the block cipher
for every schedule, the key schedule for every key, and so the composition. Every access to a table
or a schedule is checked, and none fails. -/
theorem encryptBlock_refines_fips197 :
    (∀ (rk : Vector U32 44) (pt : Block), encryptBlock pt rk.toList t0 t1 t2 t3 sboxU32 =
      .ok (blockOf (fieldMaps.cipher (scheduleKeys rk.toList) (stateOf pt)))) ∧
    (∀ key : Block, ∃ w, keyExpansion key = .ok w ∧
      ∀ i (hi : i < 44), toBeBytes w[i] = fieldMaps.keyWord (stateOf key) i) ∧
    ∀ key pt : Block,
      (do let rk ← keyExpansion key; encryptBlock pt rk.toList t0 t1 t2 t3 sboxU32 : Except Fault Block) =
        .ok (blockOf (fieldMaps.cipher (fieldMaps.roundKey (stateOf key)) (stateOf pt))) := by
  rw [fieldMaps_eq]
  refine ⟨fun rk pt => encryptBlock_eq (by simp) pt, keyExpansion_eq, fun key pt => ?_⟩
  obtain ⟨w, hexp, hw⟩ := keyExpansion_eq key
  rw [hexp, ok_bind, encryptBlock_eq (by simp), cipherBlock,
    show scheduleKeys w.toList = byteMaps.roundKey (stateOf key) from funext (scheduleKeys_keyExpansion hw)]

end CudaAes
