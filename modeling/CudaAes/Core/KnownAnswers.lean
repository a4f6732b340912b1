import CudaAes.Core.AesSpec
import CudaAes.Fips197.InvCipher

/-!
# The known answers (`aes-core/src/lib.rs`)

The vectors that all backends are tested against. The S-box is that of the standard's Figure 7
(`sbox_table`), with which the vectors can be evaluated: the table-based cipher gives every answer.
-/

namespace CudaAes

open Rust Fips197

/-- The FIPS-197 known-answer vectors: plaintext, key, ciphertext. -/
def KAT_VECTORS : List (Block × Block × Block) :=
  [ -- Appendix B
    (⟨0x3243F6A8, 0x885A308D, 0x313198A2, 0xE0370734⟩, ⟨0x2B7E1516, 0x28AED2A6, 0xABF71588, 0x09CF4F3C⟩,
      ⟨0x3925841D, 0x02DC09FB, 0xDC118597, 0x196A0B32⟩),
    -- Appendix C.1
    (⟨0x00112233, 0x44556677, 0x8899AABB, 0xCCDDEEFF⟩, ⟨0x00010203, 0x04050607, 0x08090A0B, 0x0C0D0E0F⟩,
      ⟨0x69C4E0D8, 0x6A7B0430, 0xD8CDB780, 0x70B4C55A⟩)]

/-- A known answer for the mode. -/
structure CtrKat where
  key : Block
  counter0 : Block
  plaintext : Arr4 Block
  ciphertext : Arr4 Block
  deriving DecidableEq, Repr

/-- NIST SP 800-38A, F.5.1. -/
def CTR_KAT : CtrKat where
  key := ⟨0x2B7E1516, 0x28AED2A6, 0xABF71588, 0x09CF4F3C⟩
  counter0 := ⟨0xF0F1F2F3, 0xF4F5F6F7, 0xF8F9FAFB, 0xFCFDFEFF⟩
  plaintext := ⟨⟨0x6BC1BEE2, 0x2E409F96, 0xE93D7E11, 0x7393172A⟩, ⟨0xAE2D8A57, 0x1E03AC9C, 0x9EB76FAC, 0x45AF8E51⟩,
    ⟨0x30C81C46, 0xA35CE411, 0xE5FBC119, 0x1A0A52EF⟩, ⟨0xF69F2445, 0xDF4F9B17, 0xAD2B417B, 0xE66C3710⟩⟩
  ciphertext := ⟨⟨0x874D6191, 0xB620E326, 0x1BEF6864, 0x990DB6CE⟩, ⟨0x9806F66B, 0x7970FDFF, 0x8617187B, 0xB9FFFDFF⟩,
    ⟨0x5AE4DF3E, 0xDBD5D35E, 0x5B4F0902, 0x0DB03EAB⟩, ⟨0x1E031DDA, 0x2FBE03D1, 0x792170A0, 0xF3009CEE⟩⟩

/-! ## The S-box as a table -/

/-- Figure 7 of the standard, row by row. -/
def sboxTable : List U8 :=
  [0x63, 0x7c, 0x77, 0x7b, 0xf2, 0x6b, 0x6f, 0xc5, 0x30, 0x01, 0x67, 0x2b, 0xfe, 0xd7, 0xab, 0x76,
    0xca, 0x82, 0xc9, 0x7d, 0xfa, 0x59, 0x47, 0xf0, 0xad, 0xd4, 0xa2, 0xaf, 0x9c, 0xa4, 0x72, 0xc0,
    0xb7, 0xfd, 0x93, 0x26, 0x36, 0x3f, 0xf7, 0xcc, 0x34, 0xa5, 0xe5, 0xf1, 0x71, 0xd8, 0x31, 0x15,
    0x04, 0xc7, 0x23, 0xc3, 0x18, 0x96, 0x05, 0x9a, 0x07, 0x12, 0x80, 0xe2, 0xeb, 0x27, 0xb2, 0x75,
    0x09, 0x83, 0x2c, 0x1a, 0x1b, 0x6e, 0x5a, 0xa0, 0x52, 0x3b, 0xd6, 0xb3, 0x29, 0xe3, 0x2f, 0x84,
    0x53, 0xd1, 0x00, 0xed, 0x20, 0xfc, 0xb1, 0x5b, 0x6a, 0xcb, 0xbe, 0x39, 0x4a, 0x4c, 0x58, 0xcf,
    0xd0, 0xef, 0xaa, 0xfb, 0x43, 0x4d, 0x33, 0x85, 0x45, 0xf9, 0x02, 0x7f, 0x50, 0x3c, 0x9f, 0xa8,
    0x51, 0xa3, 0x40, 0x8f, 0x92, 0x9d, 0x38, 0xf5, 0xbc, 0xb6, 0xda, 0x21, 0x10, 0xff, 0xf3, 0xd2,
    0xcd, 0x0c, 0x13, 0xec, 0x5f, 0x97, 0x44, 0x17, 0xc4, 0xa7, 0x7e, 0x3d, 0x64, 0x5d, 0x19, 0x73,
    0x60, 0x81, 0x4f, 0xdc, 0x22, 0x2a, 0x90, 0x88, 0x46, 0xee, 0xb8, 0x14, 0xde, 0x5e, 0x0b, 0xdb,
    0xe0, 0x32, 0x3a, 0x0a, 0x49, 0x06, 0x24, 0x5c, 0xc2, 0xd3, 0xac, 0x62, 0x91, 0x95, 0xe4, 0x79,
    0xe7, 0xc8, 0x37, 0x6d, 0x8d, 0xd5, 0x4e, 0xa9, 0x6c, 0x56, 0xf4, 0xea, 0x65, 0x7a, 0xae, 0x08,
    0xba, 0x78, 0x25, 0x2e, 0x1c, 0xa6, 0xb4, 0xc6, 0xe8, 0xdd, 0x74, 0x1f, 0x4b, 0xbd, 0x8b, 0x8a,
    0x70, 0x3e, 0xb5, 0x66, 0x48, 0x03, 0xf6, 0x0e, 0x61, 0x35, 0x57, 0xb9, 0x86, 0xc1, 0x1d, 0x9e,
    0xe1, 0xf8, 0x98, 0x11, 0x69, 0xd9, 0x8e, 0x94, 0x9b, 0x1e, 0x87, 0xe9, 0xce, 0x55, 0x28, 0xdf,
    0x8c, 0xa1, 0x89, 0x0d, 0xbf, 0xe6, 0x42, 0x68, 0x41, 0x99, 0x2d, 0x0f, 0xb0, 0x54, 0xbb, 0x16]

theorem subByte_table (b : U8) : byteMaps.subByte b = sboxTable.getD b.toNat 0 := by
  have hinv : ∀ b : U8, b ≠ 0 → mul b (invAffine (sboxTable.getD b.toNat 0)) = 1 := by decide +kernel
  have haffine : inv b = invAffine (sboxTable.getD b.toNat 0) := by
    by_cases hb : b = 0
    · subst hb
      decide +kernel
    · exact (mul_eq_one (hinv b hb)).symm
  show affine (inv b) = _
  rw [haffine, affine_invAffine]

theorem sbox_table : sbox = sboxTable := by
  apply List.ext_getElem
  · decide +kernel
  · intro i h1 h2
    have hi : i < 256 := by simpa [sbox, buildSbox] using h1
    have hbyte : (BitVec.ofNat 8 i).toNat = i := Nat.mod_eq_of_lt hi
    have hentry := sboxEntry_eq (BitVec.ofNat 8 i)
    rw [subByte_table, hbyte, List.getD_eq_getElem _ _ h2] at hentry
    rw [← hentry]
    simp [sbox, buildSbox]

/-! ## The answers -/

theorem fips197_answers : ∀ kat ∈ KAT_VECTORS, (do
    let rk ← keyExpansion kat.2.1
    encryptCtrBlock kat.1 0 ⟨0, 0, 0, 0⟩ rk.toList t0 t1 t2 t3 sboxU32) = .ok kat.2.2 := by
  unfold keyExpansion keyExpansionStep subWord t3 t2 t1 t0 rotrTable buildT0 sboxU32
  rw [sbox_table]
  decide +kernel

theorem nist_f51_answers : (do
    let rk ← keyExpansion CTR_KAT.key
    CTR_KAT.plaintext.toList.zipIdx.mapM fun (pt, i) =>
      encryptCtrBlock CTR_KAT.counter0 (BitVec.ofNat 32 i) pt rk.toList t0 t1 t2 t3 sboxU32) =
    .ok CTR_KAT.ciphertext.toList := by
  unfold keyExpansion keyExpansionStep subWord t3 t2 t1 t0 rotrTable buildT0 sboxU32
  rw [sbox_table]
  decide +kernel

end CudaAes
