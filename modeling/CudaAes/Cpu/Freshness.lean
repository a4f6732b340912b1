import CudaAes.Cpu.Keystream
import CudaAes.Cpu.Streaming

/-!
# Messages that share no keystream

A call takes its initial counter from the caller, and nothing in the program remembers which counters
have been used. The calls for a list of messages xor no block onto two plaintext blocks if and only if no message
is longer than `2 ^ 32` blocks and each two are apart, which their counters and lengths decide (`keystream_fresh_iff`).
Under one nonce, the upper words, `2 ^ 32` blocks are all there is, and messages that follow one another use
them up (`consecutive_fresh_iff`).
-/

namespace CudaAes

open Rust Fips197

/-- A piece with an initial counter of its own. -/
structure Message extends Piece where
  counter0 : Block

/-- The blocks that the calls for `ms` xor onto their plaintexts. -/
def appliedKeystreams (cpu : CpuFeatures) (fuel : ℕ) (rk : List U32) (ms : List Message) :
    Except Fault (List (List Block)) :=
  ms.mapM fun m => do
    let ct ← m.backend.encrypt cpu fuel rk m.counter0 m.blocks m.out
    return List.zipWith xorBlock ct m.blocks

namespace Message

/-- A call within the contract of its backend. -/
structure Valid (cpu : CpuFeatures) (fuel : ℕ) (m : Message) : Prop where
  backend : m.backend.Valid cpu m.blocks.length
  out : m.blocks.length = m.out.length
  fuel : m.blocks.length < fuel

/-- The upper words of the counter, which a call leaves alone. -/
def nonce (m : Message) : U32 × U32 × U32 := (m.counter0.e0, m.counter0.e1, m.counter0.e2)

/-- The nonces differ, or a message is empty, or neither reaches the initial counter of the other. -/
def Apart (m m' : Message) : Prop :=
  m.nonce ≠ m'.nonce ∨ m.blocks.length = 0 ∨ m'.blocks.length = 0 ∨
    m.blocks.length ≤ (m'.counter0.e3 - m.counter0.e3).toNat ∧ m'.blocks.length ≤ (m.counter0.e3 - m'.counter0.e3).toNat

instance : DecidableRel Apart := fun m m' => inferInstanceAs (Decidable (m.nonce ≠ m'.nonce ∨ _))

/-- The counters of the blocks. -/
def counters (m : Message) : List Block := (List.range m.blocks.length).map (counterAt m.counter0)

end Message

/-- Each message starts at the counter that follows the last of the one before. -/
def consecutive (counter0 : Block) : ℕ → List Piece → List Message
  | _, [] => []
  | a, p :: ps => ⟨p, counterBlock counter0 (BitVec.ofNat 32 a)⟩ :: consecutive counter0 (a + p.blocks.length) ps

/-! ## The counters of a message -/

/-- A counter with its low word replaced. -/
def withLow (c : Block) (x : U32) : Block := ⟨c.e0, c.e1, c.e2, x⟩

theorem withLow_injective (c : Block) : Function.Injective (withLow c) := fun _ _ h => congrArg Arr4.e3 h

theorem map_counterAt (c : Block) (n : ℕ) : (List.range n).map (counterAt c) = (Counter.values c.e3 n).map (withLow c) := by
  rw [Counter.values, List.map_map]
  rfl

theorem Message.nodup_counters (m : Message) : m.counters.Nodup ↔ m.blocks.length ≤ 2 ^ 32 := by
  unfold Message.counters
  rw [map_counterAt, List.nodup_map_iff (withLow_injective _), Counter.nodup_values]

theorem disjoint_map_withLow (c : Block) (xs ys : List U32) :
    (xs.map (withLow c)).Disjoint (ys.map (withLow c)) ↔ xs.Disjoint ys :=
  ⟨fun h _ hx hy => h (List.mem_map_of_mem hx) (List.mem_map_of_mem hy), List.disjoint_map (withLow_injective c)⟩

theorem Message.disjoint_counters (m m' : Message) : m.counters.Disjoint m'.counters ↔ m.Apart m' := by
  unfold Message.counters Message.Apart
  rw [map_counterAt, map_counterAt]
  by_cases hnonce : m.nonce = m'.nonce
  · have hlow : withLow m.counter0 = withLow m'.counter0 := by
      simp only [Message.nonce, Prod.mk.injEq] at hnonce
      funext x
      simp only [withLow, hnonce]
    rw [hlow, disjoint_map_withLow, Counter.disjoint_values]
    simp only [hnonce, ne_eq, not_true_eq_false, false_or]
  · refine ⟨fun _ => Or.inl hnonce, fun _ b hb hb' => hnonce ?_⟩
    obtain ⟨_, -, rfl⟩ := List.mem_map.mp hb
    obtain ⟨_, -, hy⟩ := List.mem_map.mp hb'
    have h0 := congrArg Arr4.e0 hy
    have h1 := congrArg Arr4.e1 hy
    have h2 := congrArg Arr4.e2 hy
    simp only [withLow] at h0 h1 h2
    simp only [Message.nonce, h0, h1, h2]

/-! ## What the calls apply -/

variable {cpu : CpuFeatures} {fuel : ℕ} {rk : List U32}

theorem appliedKeystreams_eq (hrk : 44 ≤ rk.length) {ms : List Message} (hms : ∀ m ∈ ms, m.Valid cpu fuel) :
    appliedKeystreams cpu fuel rk ms = .ok (ms.map fun m => m.counters.map (cipherBlock rk)) := by
  induction ms with
  | nil => rfl
  | cons m ms ih =>
    have hm := hms m List.mem_cons_self
    have hks : List.zipWith xorBlock (ctrText rk m.counter0 m.blocks) m.blocks = m.counters.map (cipherBlock rk) := by
      unfold ctrText Message.counters
      rw [StreamCipher.zipWith_apply xorBlock xorBlock_cancel_left, List.map_map]
      rfl
    have hrest := ih fun m' hm' => hms m' (List.mem_cons_of_mem m hm')
    unfold appliedKeystreams at hrest ⊢
    rw [List.mapM_cons, Backend.encrypt_eq hrk hm.backend hm.out hm.fuel, hrest, ok_bind, hks]
    rfl

theorem nodup_keystreams (rk : List U32) (ms : List Message) :
    (ms.map fun m => m.counters.map (cipherBlock rk)).flatten.Nodup ↔ (ms.flatMap Message.counters).Nodup := by
  have hflat : (ms.map fun m => m.counters.map (cipherBlock rk)).flatten =
      (ms.flatMap Message.counters).map (cipherBlock rk) := by
    rw [List.map_flatMap, List.flatMap_def]
  rw [hflat, List.nodup_map_iff (cipherBlock_injective rk)]

/-- **Messages share no keystream** if and only if each has at most `2 ^ 32` blocks and each two are apart,
whatever backends encrypt them. -/
theorem keystream_fresh_iff (cpu : CpuFeatures) (fuel : ℕ) (rk : List U32) (hrk : 44 ≤ rk.length) (ms : List Message)
    (hms : ∀ m ∈ ms, m.Valid cpu fuel) :
    ∃ ks, appliedKeystreams cpu fuel rk ms = .ok ks ∧
      (ks.flatten.Nodup ↔ (∀ m ∈ ms, m.blocks.length ≤ 2 ^ 32) ∧ ms.Pairwise Message.Apart) := by
  refine ⟨_, appliedKeystreams_eq hrk hms, ?_⟩
  rw [nodup_keystreams, List.nodup_flatMap]
  exact and_congr (forall₂_congr fun m _ => m.nodup_counters) (List.Pairwise.iff Message.disjoint_counters)

/-- Two messages under one nonce, the second of which starts inside the first. -/
theorem keystream_fresh_iff_overlap :
    ∃ ks, appliedKeystreams ⟨true, true, true, true, true, true⟩ 4 (List.replicate 44 0)
        [⟨⟨.aesni 2, [default, default], [default, default]⟩, default⟩, ⟨⟨.scalar, [default], [default]⟩, ⟨0, 0, 0, 1⟩⟩] =
      .ok ks ∧ ¬ ks.flatten.Nodup := by
  obtain ⟨ks, hks, hiff⟩ := keystream_fresh_iff ⟨true, true, true, true, true, true⟩ 4 (List.replicate 44 0) (by decide)
    [⟨⟨.aesni 2, [default, default], [default, default]⟩, default⟩, ⟨⟨.scalar, [default], [default]⟩, ⟨0, 0, 0, 1⟩⟩] (by
      intro m hm
      simp only [List.mem_cons, List.not_mem_nil, or_false] at hm
      rcases hm with rfl | rfl
      · exact ⟨⟨rfl, by decide⟩, rfl, by decide⟩
      · exact ⟨trivial, rfl, by decide⟩)
  refine ⟨ks, hks, fun hnodup => absurd (hiff.mp hnodup).2 (by decide)⟩

/-! ## Messages one after another -/

theorem map_counterAt_from (c : Block) (a n : ℕ) :
    (List.range n).map (counterAt (counterBlock c (BitVec.ofNat 32 a))) = (List.range' a n).map (counterAt c) := by
  rw [List.range'_eq_map_range, List.map_map, counterBlock_ofNat]
  exact List.map_congr_left fun i _ => counterAt_add c a i

theorem counters_consecutive (counter0 : Block) (a : ℕ) (pieces : List Piece) :
    (consecutive counter0 a pieces).flatMap Message.counters =
      (List.range' a (pieces.flatMap Piece.blocks).length).map (counterAt counter0) := by
  induction pieces generalizing a with
  | nil => rfl
  | cons p ps ih =>
    unfold consecutive
    rw [List.flatMap_cons, List.flatMap_cons, ih, List.length_append, Message.counters, map_counterAt_from,
      ← List.range'_append_1, List.map_append]

theorem valid_consecutive {counter0 : Block} {a : ℕ} {pieces : List Piece}
    (hpieces : ∀ p ∈ pieces, p.backend.Valid cpu p.blocks.length ∧ p.blocks.length = p.out.length ∧ p.blocks.length < fuel) :
    ∀ m ∈ consecutive counter0 a pieces, m.Valid cpu fuel := by
  induction pieces generalizing a with
  | nil => exact fun m hm => absurd hm List.not_mem_nil
  | cons p ps ih =>
    intro m hm
    rcases List.mem_cons.mp hm with rfl | hm
    · obtain ⟨hbackend, hout, hfuel⟩ := hpieces p List.mem_cons_self
      exact ⟨hbackend, hout, hfuel⟩
    · exact ih (fun q hq => hpieces q (List.mem_cons_of_mem p hq)) m hm

/-- Under one nonce there are only `2 ^ 32` counters. -/
theorem length_le_of_fresh {ms : List Message} {nonce : U32 × U32 × U32} (hnonce : ∀ m ∈ ms, m.nonce = nonce)
    (h : (ms.flatMap Message.counters).Nodup) : (ms.flatMap fun m => m.blocks).length ≤ 2 ^ 32 := by
  have hlow : ∀ b ∈ ms.flatMap Message.counters, (b.e0, b.e1, b.e2) = nonce := by
    intro b hb
    obtain ⟨m, hm, hb⟩ := List.mem_flatMap.mp hb
    obtain ⟨i, -, rfl⟩ := List.mem_map.mp hb
    exact hnonce m hm
  have hnodup : ((ms.flatMap Message.counters).map Arr4.e3).Nodup := by
    refine h.map_on fun b hb b' hb' h3 => ?_
    have hupper := (hlow b hb).trans (hlow b' hb').symm
    simp only [Prod.mk.injEq] at hupper
    exact Arr4.ext hupper.1 hupper.2.1 hupper.2.2 h3
  refine le_of_eq_of_le ?_ (Counter.length_le_of_nodup hnodup)
  simp only [List.length_map, List.length_flatMap, Message.counters, List.length_range]

/-- **Messages that follow one another** share no keystream if and only if they have at most `2 ^ 32` blocks
in total, and under the same nonce no other counters get further. -/
theorem consecutive_fresh_iff (cpu : CpuFeatures) (fuel : ℕ) (rk : List U32) (hrk : 44 ≤ rk.length) (counter0 : Block)
    (pieces : List Piece)
    (hpieces : ∀ p ∈ pieces, p.backend.Valid cpu p.blocks.length ∧ p.blocks.length = p.out.length ∧ p.blocks.length < fuel) :
    (∃ ks, appliedKeystreams cpu fuel rk (consecutive counter0 0 pieces) = .ok ks ∧
      (ks.flatten.Nodup ↔ (pieces.flatMap Piece.blocks).length ≤ 2 ^ 32)) ∧
    ∀ ms : List Message, ms.map Message.toPiece = pieces →
      (∀ m ∈ ms, m.nonce = (counter0.e0, counter0.e1, counter0.e2)) →
      ∃ ks, appliedKeystreams cpu fuel rk ms = .ok ks ∧
        (ks.flatten.Nodup → (pieces.flatMap Piece.blocks).length ≤ 2 ^ 32) := by
  refine ⟨⟨_, appliedKeystreams_eq hrk (valid_consecutive hpieces), ?_⟩, fun ms hms hnonce => ?_⟩
  · rw [nodup_keystreams, counters_consecutive, ← List.range_eq_range', map_counterAt,
      List.nodup_map_iff (withLow_injective _), Counter.nodup_values]
  · subst hms
    have hvalid : ∀ m ∈ ms, m.Valid cpu fuel := by
      intro m hm
      obtain ⟨hbackend, hout, hfuel⟩ := hpieces m.toPiece (List.mem_map_of_mem hm)
      exact ⟨hbackend, hout, hfuel⟩
    refine ⟨_, appliedKeystreams_eq hrk hvalid, fun hnodup => ?_⟩
    rw [List.flatMap_map]
    exact length_le_of_fresh hnonce ((nodup_keystreams rk ms).mp hnodup)

/-- A block and two blocks. -/
theorem consecutive_fresh_iff_two :
    ∃ ks, appliedKeystreams ⟨true, true, true, true, true, true⟩ 4 (List.replicate 44 0)
        (consecutive ⟨0, 0, 0, 0xffffffff⟩ 0
          [⟨.scalar, [default], [default]⟩, ⟨.wide .vaes512 1, [default, default], [default, default]⟩]) = .ok ks ∧
      ks.flatten.Nodup := by
  obtain ⟨ks, hks, hiff⟩ := (consecutive_fresh_iff ⟨true, true, true, true, true, true⟩ 4 (List.replicate 44 0)
    (by decide) ⟨0, 0, 0, 0xffffffff⟩
    [⟨.scalar, [default], [default]⟩, ⟨.wide .vaes512 1, [default, default], [default, default]⟩] (by
      intro p hp
      simp only [List.mem_cons, List.not_mem_nil, or_false] at hp
      rcases hp with rfl | rfl
      · exact ⟨trivial, rfl, by decide⟩
      · exact ⟨⟨rfl, by decide⟩, rfl, by decide⟩)).1
  exact ⟨ks, hks, hiff.mpr (show 3 ≤ 2 ^ 32 by omega)⟩

end CudaAes
