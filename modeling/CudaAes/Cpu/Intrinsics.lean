import CudaAes.Lib.Buffer
import CudaAes.Core.AesSpec

/-!
# The x86 intrinsics

The documented semantics of the intrinsics the SIMD kernels use. A 128-bit register is its sixteen
bytes in memory order, grouped into four 32-bit elements, least significant byte first; read as an
AES state, element `c` is column `c`. A wider register is its 128-bit lanes, lane 0 lowest, and every
wide operation but the loads and stores acts on each lane alone: `Wide.xor` is `_mm256_xor_si256` and
`_mm512_xor_si512`, and likewise the others.

In a register a block is either in native order, as `[u32; 4]` lies in memory (`native`), or in
state order (`stateOf`); the byte swap of the kernels goes from either to the other.
-/

namespace CudaAes

open Rust Fips197

abbrev M128 := Arr4 (Arr4 U8)

/-- A register of `L` lanes: `__m256i` is `Wide 2` and `__m512i` is `Wide 4`. -/
abbrev Wide (L : ℕ) := Fin L → M128

/-! ## 128-bit operations -/

def mmSetzeroSi128 : M128 := ⟨⟨0, 0, 0, 0⟩, ⟨0, 0, 0, 0⟩, ⟨0, 0, 0, 0⟩, ⟨0, 0, 0, 0⟩⟩

/-- `_mm_set_epi32`, highest element first. -/
def mmSetEpi32 (e3 e2 e1 e0 : U32) : M128 := ⟨toLeBytes e0, toLeBytes e1, toLeBytes e2, toLeBytes e3⟩

def mmXorSi128 (a b : M128) : M128 := a.zipWith (Arr4.zipWith (· ^^^ ·)) b

/-- `_mm_add_epi32`: each element alone, modulo `2 ^ 32`. -/
def mmAddEpi32 (a b : M128) : M128 := a.zipWith (fun x y => toLeBytes (fromLeBytes x + fromLeBytes y)) b

def byteAt (a : M128) (k : Fin 16) : U8 := (a.get ⟨k / 4, by omega⟩).get ⟨k % 4, by omega⟩

/-- `_mm_shuffle_epi8`: each byte of the mask picks a byte of `a`, or zero if its top bit is set. -/
def mmShuffleEpi8 (a mask : M128) : M128 :=
  mask.map fun col => col.map fun m => if m.msb then 0 else byteAt a ⟨m.toNat % 16, by omega⟩

def mmAesencSi128 (a k : M128) : M128 := addRoundKey (byteMaps.mixColumns (byteMaps.subBytes (shiftRows a))) k

def mmAesenclastSi128 (a k : M128) : M128 := addRoundKey (byteMaps.subBytes (shiftRows a)) k

/-! ## Wide operations -/

namespace Wide

variable {L : ℕ}

def broadcast (a : M128) : Wide L := fun _ => a

def xor (a b : Wide L) : Wide L := fun k => mmXorSi128 (a k) (b k)

def addEpi32 (a b : Wide L) : Wide L := fun k => mmAddEpi32 (a k) (b k)

def shuffleEpi8 (a mask : Wide L) : Wide L := fun k => mmShuffleEpi8 (a k) (mask k)

def aesenc (a key : Wide L) : Wide L := fun k => mmAesencSi128 (a k) (key k)

def aesenclast (a key : Wide L) : Wide L := fun k => mmAesenclastSi128 (a k) (key k)

end Wide

/-- `_mm256_set_epi32`, highest element first. -/
def mm256SetEpi32 (e7 e6 e5 e4 e3 e2 e1 e0 : U32) : Wide 2 :=
  ![mmSetEpi32 e3 e2 e1 e0, mmSetEpi32 e7 e6 e5 e4]

/-- `_mm512_set_epi32`, highest element first. -/
def mm512SetEpi32 (e15 e14 e13 e12 e11 e10 e9 e8 e7 e6 e5 e4 e3 e2 e1 e0 : U32) : Wide 4 :=
  ![mmSetEpi32 e3 e2 e1 e0, mmSetEpi32 e7 e6 e5 e4, mmSetEpi32 e11 e10 e9 e8, mmSetEpi32 e15 e14 e13 e12]

/-! ## Loads and stores -/

/-- A block in memory order: four little-endian words. -/
def native (b : Block) : M128 := b.map toLeBytes

/-- The block a register in memory order holds. -/
def ofNative (v : M128) : Block := v.map fromLeBytes

/-- `_mm_loadu_si128`, `_mm256_loadu_si256`, `_mm512_loadu_si512` at `blocks.as_ptr().add(i)`: `L`
consecutive blocks, the first in the lowest lane. -/
def loadu (L : ℕ) (blocks : List Block) (i : ℕ) : Except Fault (Wide L) := do
  let bs ← loadRaw blocks i L
  return fun k => native (bs.getD k default)

/-- `_mm_storeu_si128`, `_mm256_storeu_si256`, `_mm512_storeu_si512` at `out.as_mut_ptr().add(i)`. -/
def storeu {L : ℕ} (i : ℕ) (v : Wide L) : Run (Buffer Block) Unit :=
  Buffer.storeRaw i (List.ofFn fun k => ofNative (v k))

/-! ## What they do to blocks -/

@[simp] theorem ofNative_native (b : Block) : ofNative (native b) = b := by
  simp only [ofNative, native, Arr4.map, fromLeBytes_toLeBytes]

theorem mmXorSi128_eq (a b : M128) : mmXorSi128 a b = addRoundKey a b := rfl

theorem mmXorSi128_native (a b : Block) : mmXorSi128 (native a) (native b) = native (xorBlock a b) := by
  simp only [mmXorSi128, native, xorBlock, Arr4.map, Arr4.zipWith, toLeBytes_xor]

theorem mmAddEpi32_native (b : Block) (x : U32) :
    mmAddEpi32 (native b) (mmSetEpi32 x 0 0 0) = native ⟨b.e0, b.e1, b.e2, b.e3 + x⟩ := by
  simp [mmAddEpi32, native, mmSetEpi32, Arr4.map, Arr4.zipWith]

theorem mmAesencSi128_eq (a k : M128) : mmAesencSi128 a k = byteMaps.round a k := rfl

theorem mmAesenclastSi128_eq (a k : M128) : mmAesenclastSi128 a k = byteMaps.finalRound a k := rfl

theorem loadu_eq {L : ℕ} {blocks : List Block} {i : ℕ} (h : i + L ≤ blocks.length) :
    loadu L blocks i = .ok fun k => native (blocks.getD (i + k) default) := by
  unfold loadu
  rw [loadRaw_le h, ok_bind]
  refine congrArg Except.ok (funext fun k => congrArg native ?_)
  rw [List.getD_eq_getElem?_getD, List.getD_eq_getElem?_getD, List.getElem?_take_of_lt k.isLt, List.getElem?_drop]

end CudaAes
