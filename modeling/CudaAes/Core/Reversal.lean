import CudaAes.Fips197.InvCipher
import CudaAes.Core.AesSpec

/-!
# The cipher and the key schedule run backwards

The program only encrypts. Its block cipher is undone by the InvCipher of the standard
(`encryptBlock_invCipher`), so that it is injective (`cipherBlock_injective`), and its key schedule is
undone from any round key by its own recurrence (`keyExpansion_reversible`).
-/

namespace CudaAes

open Rust Fips197

/-! ## The block cipher -/

/-- InvCipher on a block, with the round keys of a schedule. -/
noncomputable def invCipherBlock (rk : List U32) (ct : Block) : Block :=
  blockOf (fieldInverse.invCipher (scheduleKeys rk) (stateOf ct))

theorem invCipherBlock_cipherBlock (rk : List U32) (pt : Block) : invCipherBlock rk (cipherBlock rk pt) = pt := by
  unfold invCipherBlock cipherBlock
  rw [stateOf_blockOf, ← fieldMaps_eq, fieldInverse.invCipher_cipher, blockOf_stateOf]

theorem cipherBlock_invCipherBlock (rk : List U32) (ct : Block) : cipherBlock rk (invCipherBlock rk ct) = ct := by
  unfold invCipherBlock cipherBlock
  rw [stateOf_blockOf, ← fieldMaps_eq, fieldInverse.cipher_invCipher, blockOf_stateOf]

theorem cipherBlock_injective (rk : List U32) : Function.Injective (cipherBlock rk) :=
  Function.LeftInverse.injective (invCipherBlock_cipherBlock rk)

/-- **The block cipher is undone by InvCipher**, for every schedule: both compositions are the identity,
so `encrypt_block` permutes the blocks. -/
theorem encryptBlock_invCipher (rk : Vector U32 44) :
    (∀ b, ∃ ct, encryptBlock b rk.toList t0 t1 t2 t3 sboxU32 = .ok ct ∧ invCipherBlock rk.toList ct = b) ∧
    (∀ b, encryptBlock (invCipherBlock rk.toList b) rk.toList t0 t1 t2 t3 sboxU32 = .ok b) ∧
    ∃ σ : Equiv.Perm Block, ∀ b, encryptBlock b rk.toList t0 t1 t2 t3 sboxU32 = .ok (σ b) := by
  have hrk : 44 ≤ rk.toList.length := by simp
  refine ⟨fun b => ⟨_, encryptBlock_eq hrk b, invCipherBlock_cipherBlock _ b⟩, fun b => ?_, ?_⟩
  · rw [encryptBlock_eq hrk, cipherBlock_invCipherBlock]
  · exact ⟨⟨cipherBlock rk.toList, invCipherBlock rk.toList, invCipherBlock_cipherBlock _, cipherBlock_invCipherBlock _⟩,
      encryptBlock_eq hrk⟩

/-! ## The key schedule -/

/-- The recurrence of the schedule solved for the older word: `w[i - 4] = w[i] ^ temp`. -/
def keyReversalStep (w : Vector U32 44) (i : ℕ) : Except Fault (Vector U32 44) := do
  let temp ← scheduleTemp i (← index w.toList (i - 1))
  setIndex w (i - 4) ((← index w.toList i) ^^^ temp)

/-- `w` obeys the recurrence of the schedule. -/
def IsExpanded (w : Vector U32 44) : Prop :=
  ∀ i (hi : i < 40), ∃ temp, scheduleTemp (i + 4) w[i + 3] = .ok temp ∧ w[i + 4] = w[i] ^^^ temp

theorem isExpanded_of_keyWord {key : Block} {w : Vector U32 44}
    (hw : ∀ i (hi : i < 44), toBeBytes w[i] = byteMaps.keyWord (stateOf key) i) : IsExpanded w := by
  intro i hi
  obtain ⟨temp, hok, htemp⟩ := scheduleTemp_eq (Nat.le_add_left 4 i) (by omega) w[i + 3]
  refine ⟨temp, hok, ?_⟩
  have hbytes : toBeBytes w[i + 4] = toBeBytes (w[i] ^^^ temp) := by
    rw [hw, ByteMaps.keyWord_add_four, toBeBytes_xor, htemp, hw, hw]
    rfl
  rw [← fromBeBytes_toBeBytes w[i + 4], hbytes, fromBeBytes_toBeBytes]

/-- One step back puts the word in place that the schedule has there. -/
theorem keyReversalStep_eq {w v : Vector U32 44} (hw : IsExpanded w) {i : ℕ} (hi : i < 40)
    (h3 : v[i + 3] = w[i + 3]) (h4 : v[i + 4] = w[i + 4]) : keyReversalStep v (i + 4) = .ok (v.set i w[i]) := by
  obtain ⟨temp, hok, htemp⟩ := hw i hi
  have hcancel : v[i + 4] ^^^ temp = w[i] := by rw [h4, htemp, BitVec.xor_assoc, BitVec.xor_self, BitVec.xor_zero]
  have hset : setIndex v i w[i] = .ok (v.set i w[i]) := dif_pos (by omega)
  unfold keyReversalStep
  rw [Nat.add_sub_cancel, show i + 4 - 1 = i + 3 by omega, index_toList (show i + 3 < 44 by omega), ok_bind, h3, hok,
    ok_bind, index_toList (show i + 4 < 44 by omega), ok_bind, hcancel, hset]

/-- Words `m` to `n - 1`, four of them or more, give all the words before them. -/
theorem foldlM_keyReversalStep {w : Vector U32 44} (hw : IsExpanded w) {n : ℕ} (hn : n ≤ 44) (m : ℕ) :
    ∀ v : Vector U32 44, m + 4 ≤ n → (∀ i (hi : i < 44), m ≤ i → i < n → v[i] = w[i]) →
      ∃ v', (List.range' 4 m).reverse.foldlM keyReversalStep v = .ok v' ∧ ∀ i (hi : i < 44), i < n → v'[i] = w[i] := by
  induction m with
  | zero =>
    intro v _ hv
    exact ⟨v, rfl, fun i hi hin => hv i hi (Nat.zero_le i) hin⟩
  | succ m ih =>
    intro v hmn hv
    have hstep := keyReversalStep_eq hw (show m < 40 by omega) (hv (m + 3) (by omega) (by omega) (by omega))
      (hv (m + 4) (by omega) (by omega) (by omega))
    obtain ⟨v', hfold, hv'⟩ := ih (v.set m w[m]) (by omega) fun i hi hmi hin => by
      rcases hmi.eq_or_lt with rfl | hlt
      · rw [Vector.getElem_set_self]
      · rw [Vector.getElem_set_ne _ _ hlt.ne]
        exact hv i hi hlt hin
    refine ⟨v', ?_, hv'⟩
    rw [List.range'_1_concat, List.reverse_append, Nat.add_comm 4 m]
    exact (congrArg (· >>= _) hstep).trans hfold

theorem scheduleBlock_bijective {words : Block → Vector U32 44}
    (hwords : ∀ key i (hi : i < 44), toBeBytes (words key)[i] = byteMaps.keyWord (stateOf key) i) (r : Fin 11) :
    Function.Bijective fun key => scheduleBlock (words key).toList r := by
  have hblock : (fun key => scheduleBlock (words key).toList r) =
      blockOf ∘ (fun key => byteMaps.roundKey key r) ∘ stateOf := by
    funext key
    have hkeys := congrArg blockOf (scheduleKeys_keyExpansion (hwords key) r)
    unfold scheduleKeys at hkeys
    rwa [blockOf_stateOf] at hkeys
  have hstate : Function.Bijective stateOf :=
    Function.bijective_iff_has_inverse.mpr ⟨blockOf, blockOf_stateOf, stateOf_blockOf⟩
  have hblockOf : Function.Bijective blockOf :=
    Function.bijective_iff_has_inverse.mpr ⟨stateOf, stateOf_blockOf, blockOf_stateOf⟩
  rw [hblock]
  exact hblockOf.comp ((byteMaps.roundKey_bijective r).comp hstate)

/-- **The key schedule is reversible from any round**: the key determines and is determined by round
key `r`; whatever a vector holds beside the words of that round key, the recurrence run backwards from
them puts all earlier words in place, down to the key; and distinct keys differ in every round key. -/
theorem keyExpansion_reversible :
    ∃ words : Block → Vector U32 44, (∀ key, keyExpansion key = .ok (words key)) ∧ ∀ r : Fin 11,
      (Function.Bijective fun key => scheduleBlock (words key).toList r) ∧
      (∀ key (v : Vector U32 44), (∀ i (hi : i < 44), 4 * r.val ≤ i → i < 4 * r.val + 4 → v[i] = (words key)[i]) →
        ∃ v', (List.range' 4 (4 * r.val)).reverse.foldlM keyReversalStep v = .ok v' ∧
          (∀ i (hi : i < 44), i < 4 * r.val + 4 → v'[i] = (words key)[i]) ∧
          v'.toList.take 4 = [key.e0, key.e1, key.e2, key.e3]) ∧
      ∀ key key', key ≠ key' → scheduleBlock (words key).toList r ≠ scheduleBlock (words key').toList r := by
  choose words hexp hwords using keyExpansion_eq
  refine ⟨words, hexp, fun r => ⟨scheduleBlock_bijective hwords r, fun key v hv => ?_, fun key key' hne heq =>
    hne ((scheduleBlock_bijective hwords r).injective heq)⟩⟩
  have hr := r.isLt
  obtain ⟨v', hfold, hv'⟩ := foldlM_keyReversalStep (isExpanded_of_keyWord (hwords key)) (n := 4 * r.val + 4) (by omega)
    (4 * r.val) v le_rfl hv
  have hkey : (⟨v'[0], v'[1], v'[2], v'[3]⟩ : Block) = key := by
    apply stateOf_injective
    rw [hv' 0 (by omega) (by omega), hv' 1 (by omega) (by omega), hv' 2 (by omega) (by omega),
      hv' 3 (by omega) (by omega)]
    simp only [stateOf, Arr4.map, hwords]
    exact byteMaps.keyWindow_zero (stateOf key)
  refine ⟨v', hfold, hv', ?_⟩
  rw [← hkey]
  simp [List.take_add_one]

end CudaAes
