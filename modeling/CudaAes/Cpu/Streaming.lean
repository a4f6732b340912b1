import CudaAes.Cpu.ParallelSpec

/-!
# Streaming and random access across the backends

All CPU backends are one stream cipher (`Backend.encrypt_eq`), whose keystream from block `a` on is
the keystream of the counter advanced by `a` (`advance_keystream`). So a message can be encrypted in
pieces, and any part of a ciphertext decrypted, by any backends.
-/

namespace CudaAes

open Rust Fips197

/-- A CPU backend, at its width, and for a multi-core wrapper at a number of threads and an order of
the chunks. -/
inductive Backend
  | scalar
  | aesni (W : ℕ)
  | wide (kernel : WideKernel) (W : ℕ)
  | parallel (kernel : WideKernel) (W threads : ℕ) (order : List ℕ)
  deriving DecidableEq, Repr

namespace Backend

def encryptCtr (cpu : CpuFeatures) (fuel : ℕ) (rk : List U32) (counter0 : Block) (blocks : List Block) :
    Backend → Run (Buffer Block) Unit
  | scalar => Scalar.encryptCtr rk counter0 blocks
  | aesni W => Aesni.encryptCtr cpu fuel W rk counter0 blocks
  | wide kernel W => kernel.encryptCtr cpu fuel W rk counter0 blocks
  | parallel kernel W threads order => kernel.encryptCtrParallel cpu fuel W threads order rk counter0 blocks

/-- The width is positive, the CPU has the features, and the order runs each chunk of `n` blocks once. -/
def Valid (cpu : CpuFeatures) (n : ℕ) : Backend → Prop
  | scalar => True
  | aesni W => cpu.aes = true ∧ 1 ≤ W
  | wide kernel W => kernel.supported cpu = true ∧ 1 ≤ W
  | parallel kernel W threads order => kernel.supported cpu = true ∧ 1 ≤ W ∧ IsSchedule n (kernel.chunk W threads n) order

/-- What a call leaves in `out`, if it returns. -/
def encrypt (b : Backend) (cpu : CpuFeatures) (fuel : ℕ) (rk : List U32) (counter0 : Block) (blocks out : List Block) :
    Except Fault (List Block) :=
  match (b.encryptCtr cpu fuel rk counter0 blocks).run (.ofList out) with
  | .ok _ out' => .ok out'.data
  | .error e _ => .error e

end Backend

/-- A piece of a message: the backend that encrypts it, its blocks, and the slice it is written to. -/
structure Piece where
  backend : Backend
  blocks : List Block
  out : List Block

/-- Encrypt consecutive pieces, the first of which starts at block `a`, and concatenate. -/
def encryptPieces (cpu : CpuFeatures) (fuel : ℕ) (rk : List U32) (counter0 : Block) :
    ℕ → List Piece → Except Fault (List Block)
  | _, [] => .ok []
  | a, p :: ps => do
    let ct ← p.backend.encrypt cpu fuel rk (counterBlock counter0 (BitVec.ofNat 32 a)) p.blocks p.out
    let rest ← encryptPieces cpu fuel rk counter0 (a + p.blocks.length) ps
    return ct ++ rest

variable {rk : List U32} {cpu : CpuFeatures} {counter0 : Block} {blocks out : List Block}

theorem advance_keystream (a : ℕ) :
    StreamCipher.advance (keystream rk counter0) a =
      keystream rk (counterBlock counter0 (BitVec.ofNat 32 a)) := by
  funext i
  rw [StreamCipher.advance, keystream, keystream, counterBlock_ofNat, counterAt_add]

/-- **Every backend is the same stream cipher**, whatever `out` held before. -/
theorem Backend.encrypt_eq {b : Backend} (hrk : 44 ≤ rk.length) (hb : b.Valid cpu blocks.length)
    (hlen : blocks.length = out.length) {fuel : ℕ} (hfuel : blocks.length < fuel) :
    b.encrypt cpu fuel rk counter0 blocks out = .ok (ctrText rk counter0 blocks) := by
  have hrun : ∃ stores, (∀ i < blocks.length, i ∈ stores) ∧
      (b.encryptCtr cpu fuel rk counter0 blocks).run (.ofList out) =
        .ok () (.stored (ctrBlock rk counter0 blocks) out stores) := by
    cases b with
    | scalar =>
      refine ⟨_, fun i hi => ?_, Scalar.run_encryptCtr hrk counter0 blocks out⟩
      rw [hlen, Nat.min_self, List.mem_range, ← hlen]
      exact hi
    | aesni W =>
      exact ⟨_, fun i hi => List.mem_range.mpr hi, Aesni.run_encryptCtr hb.1 hrk hb.2 hlen.le hfuel⟩
    | wide kernel W =>
      exact ⟨_, fun i hi => List.mem_range.mpr hi, kernel.run_encryptCtr hb.1 hrk hb.2 hlen hfuel⟩
    | parallel kernel W threads order =>
      obtain ⟨stores, hperm, hrun⟩ := kernel.run_encryptCtrParallel hb.1 hrk hb.2.1 threads hlen hb.2.2 hfuel
      exact ⟨stores, fun i hi => hperm.mem_iff.mpr (List.mem_range.mpr hi), hrun⟩
  obtain ⟨stores, hstores, hrun⟩ := hrun
  unfold encrypt
  rw [hrun]
  exact congrArg Except.ok (stored_ctrBlock_data hlen hstores)

theorem encryptPieces_eq (hrk : 44 ≤ rk.length) {fuel : ℕ} (pieces : List Piece)
    (hpieces : ∀ p ∈ pieces, p.backend.Valid cpu p.blocks.length ∧ p.blocks.length = p.out.length ∧
      p.blocks.length < fuel) (a : ℕ) :
    encryptPieces cpu fuel rk counter0 a pieces =
      .ok (ctrText rk (counterBlock counter0 (BitVec.ofNat 32 a)) (pieces.flatMap Piece.blocks)) := by
  induction pieces generalizing a with
  | nil => rfl
  | cons p ps ih =>
    obtain ⟨hvalid, hlen, hfuel⟩ := hpieces p List.mem_cons_self
    unfold encryptPieces
    rw [Backend.encrypt_eq hrk hvalid hlen hfuel, ok_bind,
      ih (fun q hq => hpieces q (List.mem_cons_of_mem p hq)), ok_bind, List.flatMap_cons, ctrText, ctrText, ctrText,
      StreamCipher.apply_append, ← advance_keystream, ← advance_keystream, StreamCipher.advance_advance]
    rfl

/-- **Streaming and random access**: a message cut into consecutive pieces, each encrypted by its own
backend from the counter of its first block, gives the ciphertext of any backend in one call; and any
backend, from the counter of block `a`, decrypts the blocks from `a` on of a ciphertext of any other. -/
theorem streaming_and_random_access (cpu : CpuFeatures) (rk : List U32) (hrk : 44 ≤ rk.length) (counter0 : Block)
    (b : Backend) (blocks out : List Block) (hb : b.Valid cpu blocks.length) (hlen : blocks.length = out.length)
    (fuel : ℕ) (hfuel : blocks.length < fuel) :
    (∀ pieces : List Piece, pieces.flatMap Piece.blocks = blocks →
      (∀ p ∈ pieces, p.backend.Valid cpu p.blocks.length ∧ p.blocks.length = p.out.length) →
      ∃ ct, encryptPieces cpu fuel rk counter0 0 pieces = .ok ct ∧ b.encrypt cpu fuel rk counter0 blocks out = .ok ct) ∧
    ∃ ct, b.encrypt cpu fuel rk counter0 blocks out = .ok ct ∧
      ∀ (b' : Backend) (a e : ℕ) (out' : List Block), a ≤ e → e ≤ blocks.length → b'.Valid cpu (e - a) →
        out'.length = e - a →
        b'.encrypt cpu fuel rk (counterBlock counter0 (BitVec.ofNat 32 a)) ((ct.drop a).take (e - a)) out' =
          .ok ((blocks.drop a).take (e - a)) := by
  have honeshot : b.encrypt cpu fuel rk counter0 blocks out = .ok (ctrText rk counter0 blocks) :=
    Backend.encrypt_eq hrk hb hlen hfuel
  refine ⟨fun pieces hcut hvalid => ⟨_, ?_, honeshot⟩, _, honeshot, fun b' a e out' hae he hb' hlen' => ?_⟩
  · have hpiece : ∀ p ∈ pieces, p.blocks.length < fuel := by
      intro p hp
      have hsub := (List.sublist_flatten_of_mem (List.mem_map_of_mem (f := Piece.blocks) hp)).length_le
      rw [← List.flatMap_def, hcut] at hsub
      omega
    rw [encryptPieces_eq hrk pieces (fun p hp => ⟨(hvalid p hp).1, (hvalid p hp).2, hpiece p hp⟩), hcut,
      counterBlock_ofNat, counterAt_zero]
  · have hcut : ((blocks.drop a).take (e - a)).length = e - a := by
      rw [List.length_take, List.length_drop]
      omega
    have hpart : ((ctrText rk counter0 blocks).drop a).take (e - a) =
        ctrText rk (counterBlock counter0 (BitVec.ofNat 32 a)) ((blocks.drop a).take (e - a)) := by
      rw [ctrText, StreamCipher.take_drop_apply, advance_keystream]
      rfl
    rw [hpart, Backend.encrypt_eq hrk]
    · exact congrArg Except.ok (StreamCipher.apply_apply xorBlock xorBlock_cancel _ _)
    · rwa [ctrText, StreamCipher.length_apply, hcut]
    · unfold ctrText
      rw [StreamCipher.length_apply, hcut, hlen']
    · unfold ctrText
      rw [StreamCipher.length_apply, hcut]
      omega

/-- Three blocks in the pieces of 1, 0 and 2 blocks, on three backends. -/
theorem streaming_and_random_access_three :
    ∃ ct, encryptPieces ⟨true, true, true, true, true, true⟩ 4 (List.replicate 44 0) default 0
        [⟨.aesni 2, [default], [default]⟩, ⟨.scalar, [], []⟩,
          ⟨.wide .vaes512 1, [default, default], [default, default]⟩] = .ok ct ∧
      Backend.scalar.encrypt ⟨true, true, true, true, true, true⟩ 4 (List.replicate 44 0) default
        [default, default, default] [default, default, default] = .ok ct := by
  refine (streaming_and_random_access ⟨true, true, true, true, true, true⟩ (List.replicate 44 0) (by decide) default
    .scalar [default, default, default] [default, default, default] trivial rfl 4 (by decide)).1 _ rfl ?_
  intro p hp
  simp only [List.mem_cons, List.not_mem_nil, or_false] at hp
  rcases hp with rfl | rfl | rfl
  · exact ⟨⟨rfl, by decide⟩, rfl⟩
  · exact ⟨trivial, rfl⟩
  · exact ⟨⟨rfl, by decide⟩, rfl⟩

end CudaAes
