import Mathlib

/-!
# Words, bytes and blocks

The Rust types the program computes on. An array `[T; 4]` is `Arr4 T`; a block is four 32-bit words
(`[u32; 4]`), and a word is four bytes in either byte order.
-/

namespace CudaAes

abbrev U8 := BitVec 8

abbrev U32 := BitVec 32

@[ext] structure Arr4 (α : Type) where
  e0 : α
  e1 : α
  e2 : α
  e3 : α
  deriving DecidableEq, Repr, Inhabited

abbrev Block := Arr4 U32

namespace Arr4

variable {α β γ : Type}

def map (f : α → β) (a : Arr4 α) : Arr4 β := ⟨f a.e0, f a.e1, f a.e2, f a.e3⟩

def zipWith (f : α → β → γ) (a : Arr4 α) (b : Arr4 β) : Arr4 γ :=
  ⟨f a.e0 b.e0, f a.e1 b.e1, f a.e2 b.e2, f a.e3 b.e3⟩

/-- `a[i]`, for an index the compiler has checked. -/
def get (a : Arr4 α) : Fin 4 → α
  | 0 => a.e0
  | 1 => a.e1
  | 2 => a.e2
  | 3 => a.e3

def toList (a : Arr4 α) : List α := [a.e0, a.e1, a.e2, a.e3]

end Arr4

def xorBlock (a b : Block) : Block := a.zipWith (· ^^^ ·) b

theorem xorBlock_cancel (a k : Block) : xorBlock (xorBlock a k) k = a := by
  simp [xorBlock, Arr4.zipWith]

theorem xorBlock_cancel_left (a k : Block) : xorBlock (xorBlock a k) a = k := by
  simp only [xorBlock, Arr4.zipWith, BitVec.xor_comm, ← BitVec.xor_assoc, BitVec.xor_self, BitVec.xor_zero]

/-! ## Bytes of a word -/

def toBeBytes (w : U32) : Arr4 U8 :=
  ⟨w.extractLsb' 24 8, w.extractLsb' 16 8, w.extractLsb' 8 8, w.extractLsb' 0 8⟩

def fromBeBytes (b : Arr4 U8) : U32 := b.e0 ++ b.e1 ++ b.e2 ++ b.e3

def toLeBytes (w : U32) : Arr4 U8 :=
  ⟨w.extractLsb' 0 8, w.extractLsb' 8 8, w.extractLsb' 16 8, w.extractLsb' 24 8⟩

def fromLeBytes (b : Arr4 U8) : U32 := b.e3 ++ b.e2 ++ b.e1 ++ b.e0

theorem extract_append (a b c d : U8) :
    (a ++ b ++ c ++ d).extractLsb' 24 8 = a ∧ (a ++ b ++ c ++ d).extractLsb' 16 8 = b ∧
      (a ++ b ++ c ++ d).extractLsb' 8 8 = c ∧ (a ++ b ++ c ++ d).extractLsb' 0 8 = d := by
  refine ⟨?_, ?_, ?_, ?_⟩ <;> ext i hi <;>
    simp only [BitVec.getElem_extractLsb', BitVec.getLsbD_append] <;> grind

theorem append_extract (w : U32) :
    w.extractLsb' 24 8 ++ w.extractLsb' 16 8 ++ w.extractLsb' 8 8 ++ w.extractLsb' 0 8 = w := by
  apply BitVec.eq_of_getLsbD_eq
  intro i hi
  simp only [BitVec.getLsbD_append, BitVec.getLsbD_extractLsb']
  grind

@[simp] theorem toBeBytes_fromBeBytes (b : Arr4 U8) : toBeBytes (fromBeBytes b) = b := by
  obtain ⟨h3, h2, h1, h0⟩ := extract_append b.e0 b.e1 b.e2 b.e3
  simp only [toBeBytes, fromBeBytes, h3, h2, h1, h0]

@[simp] theorem fromBeBytes_toBeBytes (w : U32) : fromBeBytes (toBeBytes w) = w := append_extract w

@[simp] theorem fromLeBytes_toLeBytes (w : U32) : fromLeBytes (toLeBytes w) = w := append_extract w

theorem toBeBytes_xor (a b : U32) :
    toBeBytes (a ^^^ b) = (toBeBytes a).zipWith (· ^^^ ·) (toBeBytes b) := by
  simp only [toBeBytes, Arr4.zipWith, BitVec.extractLsb'_xor]

theorem toLeBytes_xor (a b : U32) :
    toLeBytes (a ^^^ b) = (toLeBytes a).zipWith (· ^^^ ·) (toLeBytes b) := by
  simp only [toLeBytes, Arr4.zipWith, BitVec.extractLsb'_xor]

end CudaAes
