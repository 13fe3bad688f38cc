import KernelOfTruth.Code.Types
import Mathlib.Data.Fin.VecNotation
import Mathlib.Logic.Function.Basic

/-!
# `kernel/crypto/sha512/hash_sha512_cp.c`

With what it takes from `include/crypto/common.h`. A pointer to bytes is a function of the offset, and an array that a
function fills is returned. The words of `tmp64` hold whatever the stack holds, and stay from one block to the next.
-/

namespace KernelOfTruth.Code

/-- `crypto_hash_sha512_state`. -/
structure Sha512State where
  state : Fin 8 → Word
  count : Fin 2 → Word
  buf : Nat → Byte

namespace Sha512

/-! ## `common.h` -/

def rotr64 (x : Word) (b : Nat) : Word := x >>> b ||| x <<< (64 - b)

def load64_be (src : Nat → Byte) : Word :=
  let w := (src 7).setWidth 64
  let w := w ||| (src 6).setWidth 64 <<< 8
  let w := w ||| (src 5).setWidth 64 <<< 16
  let w := w ||| (src 4).setWidth 64 <<< 24
  let w := w ||| (src 3).setWidth 64 <<< 32
  let w := w ||| (src 2).setWidth 64 <<< 40
  let w := w ||| (src 1).setWidth 64 <<< 48
  w ||| (src 0).setWidth 64 <<< 56

/-- The word `w` is shifted down as its bytes go to `dst[7]`, `dst[6]`, and so on, behind `offset`. -/
def storeLoop (offset : Nat) : Nat → Word → (Nat → Byte) → Nat → Byte
  | 0, _, dst => dst
  | n + 1, w, dst => storeLoop offset n (w >>> 8) (Function.update dst (offset + n) (w.setWidth 8))

def store64_be (dst : Nat → Byte) (offset : Nat) (w : Word) : Nat → Byte := storeLoop offset 8 w dst

/-! ## `hash_sha512_cp.c` -/

def be64enc_vect (dst : Nat → Byte) (offset : Nat) (src : Nat → Word) (len : Nat) : Nat → Byte :=
  (List.range (len / 8)).foldl (fun dst i => store64_be dst (offset + i * 8) (src i)) dst

def be64dec_vect (dst : Nat → Word) (src : Nat → Byte) (len : Nat) : Nat → Word :=
  (List.range (len / 8)).foldl (fun dst i => Function.update dst i (load64_be fun k => src (i * 8 + k))) dst

def Krnd : List Word :=
  [0x428a2f98d728ae22, 0x7137449123ef65cd, 0xb5c0fbcfec4d3b2f, 0xe9b5dba58189dbbc, 0x3956c25bf348b538,
    0x59f111f1b605d019, 0x923f82a4af194f9b, 0xab1c5ed5da6d8118, 0xd807aa98a3030242, 0x12835b0145706fbe,
    0x243185be4ee4b28c, 0x550c7dc3d5ffb4e2, 0x72be5d74f27b896f, 0x80deb1fe3b1696b1, 0x9bdc06a725c71235,
    0xc19bf174cf692694, 0xe49b69c19ef14ad2, 0xefbe4786384f25e3, 0x0fc19dc68b8cd5b5, 0x240ca1cc77ac9c65,
    0x2de92c6f592b0275, 0x4a7484aa6ea6e483, 0x5cb0a9dcbd41fbd4, 0x76f988da831153b5, 0x983e5152ee66dfab,
    0xa831c66d2db43210, 0xb00327c898fb213f, 0xbf597fc7beef0ee4, 0xc6e00bf33da88fc2, 0xd5a79147930aa725,
    0x06ca6351e003826f, 0x142929670a0e6e70, 0x27b70a8546d22ffc, 0x2e1b21385c26c926, 0x4d2c6dfc5ac42aed,
    0x53380d139d95b3df, 0x650a73548baf63de, 0x766a0abb3c77b2a8, 0x81c2c92e47edaee6, 0x92722c851482353b,
    0xa2bfe8a14cf10364, 0xa81a664bbc423001, 0xc24b8b70d0f89791, 0xc76c51a30654be30, 0xd192e819d6ef5218,
    0xd69906245565a910, 0xf40e35855771202a, 0x106aa07032bbd1b8, 0x19a4c116b8d2d0c8, 0x1e376c085141ab53,
    0x2748774cdf8eeb99, 0x34b0bcb5e19b48a8, 0x391c0cb3c5c95a63, 0x4ed8aa4ae3418acb, 0x5b9cca4f7763e373,
    0x682e6ff3d6b2b8a3, 0x748f82ee5defb2fc, 0x78a5636f43172f60, 0x84c87814a1f0ab72, 0x8cc702081a6439ec,
    0x90befffa23631e28, 0xa4506cebde82bde9, 0xbef9a3f7b2c67915, 0xc67178f2e372532b, 0xca273eceea26619c,
    0xd186b8c721c0c207, 0xeada7dd6cde0eb1e, 0xf57d4f7fee6ed178, 0x06f067aa72176fba, 0x0a637dc5a2c898a6,
    0x113f9804bef90dae, 0x1b710b35131c471b, 0x28db77f523047d84, 0x32caab7b40c72493, 0x3c9ebe0a15c9bebc,
    0x431d67c49c100d4c, 0x4cc5d4becb3e42b6, 0x597f299cfc657e2a, 0x5fcb6fab3ad6faec, 0x6c44198c4a475817]

def Ch (x y z : Word) : Word := (x &&& (y ^^^ z)) ^^^ z
def Maj (x y z : Word) : Word := (x &&& (y ||| z)) ||| (y &&& z)
def S0 (x : Word) : Word := rotr64 x 28 ^^^ rotr64 x 34 ^^^ rotr64 x 39
def S1 (x : Word) : Word := rotr64 x 14 ^^^ rotr64 x 18 ^^^ rotr64 x 41
def s0 (x : Word) : Word := rotr64 x 1 ^^^ rotr64 x 8 ^^^ x >>> 7
def s1 (x : Word) : Word := rotr64 x 19 ^^^ rotr64 x 61 ^^^ x >>> 6

/-- The eight arguments are places of `S`, of which two change. -/
def RND (S : Fin 8 → Word) (a b c d e f g h : Fin 8) (k : Word) : Fin 8 → Word :=
  let S := Function.update S h (S h + (S1 (S e) + Ch (S e) (S f) (S g) + k))
  let S := Function.update S d (S d + S h)
  Function.update S h (S h + (S0 (S a) + Maj (S a) (S b) (S c)))

def place (i : Nat) : Fin 8 := Fin.ofNat 8 i

def RNDr (S : Fin 8 → Word) (W : Nat → Word) (i ii : Nat) : Fin 8 → Word :=
  RND S (place (80 - i)) (place (81 - i)) (place (82 - i)) (place (83 - i))
    (place (84 - i)) (place (85 - i)) (place (86 - i)) (place (87 - i))
    (W (i + ii) + Krnd.getD (i + ii) 0)

def MSCH (W : Nat → Word) (ii i : Nat) : Nat → Word :=
  Function.update W (i + ii + 16) (s1 (W (i + ii + 14)) + W (i + ii + 9) + s0 (W (i + ii + 1)) + W (i + ii))

/-- The loop of `SHA512_Transform` with at most `n` rounds of sixteen left. -/
def transformLoop : Nat → Nat → (Fin 8 → Word) → (Nat → Word) → (Fin 8 → Word) × (Nat → Word)
  | 0, _, S, W => (S, W)
  | n + 1, i, S, W =>
    let S := (List.range 16).foldl (fun S j => RNDr S W j i) S
    if i = 64 then (S, W) else
    let W := (List.range 16).foldl (fun W j => MSCH W j i) W
    transformLoop n (i + 16) S W

/-- The new state, and what is left in `W`. -/
def SHA512_Transform (state : Fin 8 → Word) (block : Nat → Byte) (W : Nat → Word) : (Fin 8 → Word) × (Nat → Word) :=
  let W := be64dec_vect W block 128
  let (S, W) := transformLoop 5 0 state W
  (fun i => state i + S i, W)

def PAD (i : Nat) : Byte := if i = 0 then 0x80 else 0

/-- The loops that copy `n` bytes to the places from `r` on. -/
def copyLoop (dst : Nat → Byte) (r : Nat) (src : Nat → Byte) (n : Nat) : Nat → Byte :=
  (List.range n).foldl (fun dst i => Function.update dst (r + i) (src i)) dst

def SHA512_Pad (s : Sha512State) (tmp64 : Nat → Word) : Sha512State :=
  let r := s.count 1 >>> 3 &&& 0x7f
  let (state, buf, tmp64) :=
    if r < 112 then (s.state, copyLoop s.buf r.toNat PAD (112 - r).toNat, tmp64)
    else
      let buf := copyLoop s.buf r.toNat PAD (128 - r).toNat
      let (state, tmp64) := SHA512_Transform s.state buf tmp64
      (state, fun k => if k < 112 then 0 else buf k, tmp64)
  let buf := be64enc_vect buf 112 (fun i => s.count (Fin.ofNat 2 i)) 16
  let (state, _) := SHA512_Transform state buf tmp64
  { s with state := state, buf := buf }

def sha512_initial_state : Fin 8 → Word :=
  ![0x6a09e667f3bcc908, 0xbb67ae8584caa73b, 0x3c6ef372fe94f82b, 0xa54ff53a5f1d36f1,
    0x510e527fade682d1, 0x9b05688c2b3e6c1f, 0x1f83d9abfb41bd6b, 0x5be0cd19137e2179]

/-- The bytes of `buf` stay as they are. -/
def crypto_hash_sha512_init (buf : Nat → Byte) : Sha512State := ⟨sha512_initial_state, ![0, 0], buf⟩

/-- The `while` loop of `crypto_hash_sha512_update`, and then what is left of `in` and `inlen`. -/
def updateLoop (state : Fin 8 → Word) (input : Nat → Byte) (inlen : Word) (tmp64 : Nat → Word) :
    (Fin 8 → Word) × (Nat → Byte) × Word :=
  if 128 ≤ inlen then
    let (state, tmp64) := SHA512_Transform state input tmp64
    updateLoop state (fun k => input (128 + k)) (inlen - 128) tmp64
  else (state, input, inlen)
termination_by inlen.toNat
decreasing_by bv_omega

def crypto_hash_sha512_update (s : Sha512State) (input : Nat → Byte) (inlen : Word) (tmp64 : Nat → Word) : Sha512State :=
  if inlen ≤ 0 then s else
  let r := s.count 1 >>> 3 &&& 0x7f
  let bitlen := ![inlen >>> 61, inlen <<< 3]
  let count := Function.update s.count 1 (s.count 1 + bitlen 1)
  let count := if count 1 < bitlen 1 then Function.update count 0 (count 0 + 1) else count
  let count := Function.update count 0 (count 0 + bitlen 0)
  if inlen < 128 - r then { s with count := count, buf := copyLoop s.buf r.toNat input inlen.toNat } else
  let buf := copyLoop s.buf r.toNat input (128 - r).toNat
  let (state, tmp64) := SHA512_Transform s.state buf tmp64
  let (state, input, inlen) := updateLoop state (fun k => input ((128 - r).toNat + k)) (inlen - (128 - r)) tmp64
  let inlen := inlen &&& 127
  ⟨state, count, copyLoop buf 0 input inlen.toNat⟩

/-- The bytes of `out`. The state is cleared then. -/
def crypto_hash_sha512_final (s : Sha512State) (out : Nat → Byte) (tmp64 : Nat → Word) : Nat → Byte :=
  let s := SHA512_Pad s tmp64
  be64enc_vect out 0 (fun i => s.state (place i)) 64

def crypto_hash_sha512 (out input : Nat → Byte) (inlen : Word) (buf : Nat → Byte) (tmp64 tmp64' : Nat → Word) :
    Nat → Byte :=
  let s := crypto_hash_sha512_init buf
  let s := crypto_hash_sha512_update s input inlen tmp64
  crypto_hash_sha512_final s out tmp64'

end Sha512

end KernelOfTruth.Code
