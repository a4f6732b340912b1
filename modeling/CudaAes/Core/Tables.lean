import CudaAes.Core.Words

/-!
# The constant tables (`aes-core/src/tables.rs`)

`gmul` and `ginv` are the field arithmetic of the source, and the tables are built from them as the
`const fn`s do.
-/

namespace CudaAes

/-- One round of the loop of `gmul`, on `(p, a, b)`. -/
def gmulStep (x : U8 × U8 × U8) : U8 × U8 × U8 :=
  let (p, a, b) := x
  let p := if b &&& 1 ≠ 0 then p ^^^ a else p
  let hi := a &&& 0x80
  let a := a <<< 1
  let a := if hi ≠ 0 then a ^^^ 0x1b else a
  (p, a, b >>> 1)

def gmul (a b : U8) : U8 := (gmulStep^[8] (0, a, b)).1

/-- Multiplicative inverse in GF(2^8) (0 maps to 0), by brute-force search. -/
def ginv (a : U8) : U8 :=
  if a = 0 then 0
  else match (List.range' 1 255).find? (fun b => gmul a (BitVec.ofNat 8 b) = 1) with
    | some b => BitVec.ofNat 8 b
    | none => 0

/-- The entry of `build_sbox` at `i`. -/
def sboxEntry (i : ℕ) : U8 :=
  let b := ginv (BitVec.ofNat 8 i)
  b ^^^ b.rotateLeft 1 ^^^ b.rotateLeft 2 ^^^ b.rotateLeft 3 ^^^ b.rotateLeft 4 ^^^ 0x63

def buildSbox : List U8 := (List.range 256).map sboxEntry

def sbox : List U8 := buildSbox

def sboxU32 : List U32 := sbox.map (·.setWidth 32)

def buildT0 : List U32 :=
  sbox.map fun s =>
    let s2 := gmul s 2
    let s3 := gmul s 3
    (s2.setWidth 32 <<< 24) ||| (s.setWidth 32 <<< 16) ||| (s.setWidth 32 <<< 8) ||| s3.setWidth 32

def rotrTable (src : List U32) (r : ℕ) : List U32 := src.map (·.rotateRight r)

def t0 : List U32 := buildT0
def t1 : List U32 := rotrTable t0 8
def t2 : List U32 := rotrTable t0 16
def t3 : List U32 := rotrTable t0 24

/-- `RCON`: `r[0] = 1`, then `r[i] = gmul(r[i - 1], 2)`. -/
def rcon : List U8 :=
  (List.range' 1 9).foldl (fun r i => r.set i (gmul (r.getD (i - 1) 0) 2)) ((List.replicate 10 0).set 0 1)

end CudaAes
