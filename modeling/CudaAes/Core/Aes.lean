import CudaAes.Lib.Run
import CudaAes.Core.Tables

/-!
# AES-128 on the tables (`aes-core/src/lib.rs`)

The key schedule, the table-based block cipher and the CTR building block. A slice parameter is a
list of any length, and every access to a slice or a table goes through the bounds check `index`.
-/

namespace CudaAes

open Rust

def rotWord (w : U32) : U32 := w.rotateLeft 8

/-- `sub_word`: `u32::from_be_bytes(w.to_be_bytes().map(|b| SBOX[b as usize]))` -/
def subWord (w : U32) : Except Fault U32 := do
  let b := toBeBytes w
  return fromBeBytes ⟨← index sbox b.e0.toNat, ← index sbox b.e1.toNat, ← index sbox b.e2.toNat,
    ← index sbox b.e3.toNat⟩

/-- `w[i] = v`, with its bounds check. -/
def setIndex {α : Type} {n : ℕ} (w : Vector α n) (i : ℕ) (v : α) : Except Fault (Vector α n) :=
  if h : i < n then .ok (w.set i v) else .error (.indexOutOfBounds i n)

def keyExpansionStep (w : Vector U32 44) (i : ℕ) : Except Fault (Vector U32 44) := do
  let mut temp ← index w.toList (i - 1)
  if i % 4 = 0 then
    temp := (← subWord (rotWord temp)) ^^^ ((← index rcon (i / 4 - 1)).setWidth 32 <<< 24)
  setIndex w i ((← index w.toList (i - 4)) ^^^ temp)

def keyExpansion (key : Block) : Except Fault (Vector U32 44) :=
  let w : Vector U32 44 := Vector.replicate 44 0
  let w := (((w.set 0 key.e0).set 1 key.e1).set 2 key.e2).set 3 key.e3
  (List.range' 4 40).foldlM keyExpansionStep w

/-- One output word of a table round: `t0[(a >> 24)] ^ t1[(b >> 16) & 0xff] ^ t2[(c >> 8) & 0xff] ^
t3[d & 0xff] ^ rk[k]`. -/
def tableWord (t0 t1 t2 t3 rk : List U32) (a b c d : U32) (k : ℕ) : Except Fault U32 := do
  return (← index t0 (a >>> 24).toNat) ^^^ (← index t1 ((b >>> 16) &&& 0xff).toNat) ^^^
    (← index t2 ((c >>> 8) &&& 0xff).toNat) ^^^ (← index t3 (d &&& 0xff).toNat) ^^^ (← index rk k)

/-- One output word of the last round, before its round key. -/
def sboxWord (sbox : List U32) (a b c d : U32) : Except Fault U32 := do
  return ((← index sbox (a >>> 24).toNat) <<< 24) ||| ((← index sbox ((b >>> 16) &&& 0xff).toNat) <<< 16) |||
    ((← index sbox ((c >>> 8) &&& 0xff).toNat) <<< 8) ||| (← index sbox (d &&& 0xff).toNat)

def tableRound (t0 t1 t2 t3 rk : List U32) (s : Block) (round : ℕ) : Except Fault Block := do
  let k := round * 4
  let n0 ← tableWord t0 t1 t2 t3 rk s.e0 s.e1 s.e2 s.e3 k
  let n1 ← tableWord t0 t1 t2 t3 rk s.e1 s.e2 s.e3 s.e0 (k + 1)
  let n2 ← tableWord t0 t1 t2 t3 rk s.e2 s.e3 s.e0 s.e1 (k + 2)
  let n3 ← tableWord t0 t1 t2 t3 rk s.e3 s.e0 s.e1 s.e2 (k + 3)
  return ⟨n0, n1, n2, n3⟩

def encryptBlock (pt : Block) (rk t0 t1 t2 t3 sbox : List U32) : Except Fault Block := do
  let s0 := pt.e0 ^^^ (← index rk 0)
  let s1 := pt.e1 ^^^ (← index rk 1)
  let s2 := pt.e2 ^^^ (← index rk 2)
  let s3 := pt.e3 ^^^ (← index rk 3)
  let s ← (List.range' 1 9).foldlM (tableRound t0 t1 t2 t3 rk) ⟨s0, s1, s2, s3⟩
  let o0 ← sboxWord sbox s.e0 s.e1 s.e2 s.e3
  let o1 ← sboxWord sbox s.e1 s.e2 s.e3 s.e0
  let o2 ← sboxWord sbox s.e2 s.e3 s.e0 s.e1
  let o3 ← sboxWord sbox s.e3 s.e0 s.e1 s.e2
  return ⟨o0 ^^^ (← index rk 40), o1 ^^^ (← index rk 41), o2 ^^^ (← index rk 42), o3 ^^^ (← index rk 43)⟩

def encryptCtrBlock (counter0 : Block) (index : U32) (pt : Block) (rk t0 t1 t2 t3 sbox : List U32) :
    Except Fault Block := do
  let counter : Block := ⟨counter0.e0, counter0.e1, counter0.e2, counter0.e3 + index⟩
  let ks ← encryptBlock counter rk t0 t1 t2 t3 sbox
  return ⟨pt.e0 ^^^ ks.e0, pt.e1 ^^^ ks.e1, pt.e2 ^^^ ks.e2, pt.e3 ^^^ ks.e3⟩

end CudaAes
