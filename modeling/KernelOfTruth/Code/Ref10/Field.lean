import KernelOfTruth.Code.Types
import KernelOfTruth.Lib.Limbs

/-!
# `kernel/crypto/ed25519/curve25519_ref10.c`: field elements

A pointer to bytes is a function of the offset, and an array that a function fills is returned. The carries are lists
of the statements that move them.
-/

open KernelOfTruth.Lib

namespace KernelOfTruth.Code.Ref10

/-- `int32_t fe[10]`. -/
abbrev Fe := Nat → BitVec 32

/-- An array with these entries. -/
def arrayOf {w : Nat} (entries : List (BitVec w)) : Nat → BitVec w := fun i => entries.getD i 0#w

def load_3 (input : Nat → Byte) : BitVec 64 :=
  let result := (input 0).setWidth 64
  let result := result ||| (input 1).setWidth 64 <<< 8
  result ||| (input 2).setWidth 64 <<< 16

def load_4 (input : Nat → Byte) : BitVec 64 :=
  let result := (input 0).setWidth 64
  let result := result ||| (input 1).setWidth 64 <<< 8
  let result := result ||| (input 2).setWidth 64 <<< 16
  result ||| (input 3).setWidth 64 <<< 24

def fe_0 : Fe := fun _ => 0
def fe_1 : Fe := arrayOf [1]
def fe_add (f g : Fe) : Fe := fun i => f i + g i
def fe_sub (f g : Fe) : Fe := fun i => f i - g i
def fe_neg (f : Fe) : Fe := fun i => -f i

def fe_cmov (f g : Fe) (b : BitVec 32) : Fe := fun i =>
  let x := f i ^^^ g i
  let x := x &&& -b
  f i ^^^ x

/-- The casts to `int32_t`. -/
def narrow (h : Nat → BitVec 64) : Fe := fun i => (h i).setWidth 32

/-! ## Bytes -/

def frombytesCarries : List LimbStep :=
  [.round 9 0 25 19, .round 1 2 25 1, .round 3 4 25 1, .round 5 6 25 1, .round 7 8 25 1, .round 0 1 26 1,
    .round 2 3 26 1, .round 4 5 26 1, .round 6 7 26 1, .round 8 9 26 1]

/-- Ignores the top bit. -/
def fe_frombytes (s : Nat → Byte) : Fe :=
  let h := arrayOf
    [load_4 s, load_3 (fun i => s (4 + i)) <<< 6, load_3 (fun i => s (7 + i)) <<< 5, load_3 (fun i => s (10 + i)) <<< 3,
      load_3 (fun i => s (13 + i)) <<< 2, load_4 (fun i => s (16 + i)), load_3 (fun i => s (20 + i)) <<< 7,
      load_3 (fun i => s (23 + i)) <<< 5, load_3 (fun i => s (26 + i)) <<< 4,
      (load_3 (fun i => s (29 + i)) &&& 8388607) <<< 2]
  narrow (LimbStep.runAll frombytesCarries h)

/-- `x >> r`, as a byte. -/
def byteOf {w : Nat} (x : BitVec w) (r : Nat) : Byte := (x.sshiftRight r).setWidth 8

/-- `(x >> r) | (y * (1 << k))`, as a byte. -/
def byteOfTwo {w : Nat} (x : BitVec w) (r : Nat) (y : BitVec w) (k : Nat) : Byte :=
  (x.sshiftRight r ||| y * BitVec.ofInt w (2 ^ k)).setWidth 8

/-- The sum in the first line has the type `uint32_t`, and its shift takes no sign along. -/
def tobytesQuotient (h : Fe) : BitVec 32 :=
  let q := (19#32 * h 9 + 1#32 <<< 24) >>> 25
  let q := (h 0 + q).sshiftRight 26
  let q := (h 1 + q).sshiftRight 25
  let q := (h 2 + q).sshiftRight 26
  let q := (h 3 + q).sshiftRight 25
  let q := (h 4 + q).sshiftRight 26
  let q := (h 5 + q).sshiftRight 25
  let q := (h 6 + q).sshiftRight 26
  let q := (h 7 + q).sshiftRight 25
  let q := (h 8 + q).sshiftRight 26
  (h 9 + q).sshiftRight 25

/-- The last carry goes to no other entry. -/
def tobytesCarries : List LimbStep :=
  [.floor 0 1 26, .floor 1 2 25, .floor 2 3 26, .floor 3 4 25, .floor 4 5 26, .floor 5 6 25, .floor 6 7 26,
    .floor 7 8 25, .floor 8 9 26, .floor 9 10 25]

/-- The assignments to `s[0]` up to `s[31]`. -/
def feStore (h : Nat → BitVec 32) : Nat → Byte :=
  arrayOf
    [byteOf (h 0) 0, byteOf (h 0) 8, byteOf (h 0) 16, byteOfTwo (h 0) 24 (h 1) 2, byteOf (h 1) 6, byteOf (h 1) 14,
      byteOfTwo (h 1) 22 (h 2) 3, byteOf (h 2) 5, byteOf (h 2) 13, byteOfTwo (h 2) 21 (h 3) 5, byteOf (h 3) 3,
      byteOf (h 3) 11, byteOfTwo (h 3) 19 (h 4) 6, byteOf (h 4) 2, byteOf (h 4) 10, byteOf (h 4) 18, byteOf (h 5) 0,
      byteOf (h 5) 8, byteOf (h 5) 16, byteOfTwo (h 5) 24 (h 6) 1, byteOf (h 6) 7, byteOf (h 6) 15,
      byteOfTwo (h 6) 23 (h 7) 3, byteOf (h 7) 5, byteOf (h 7) 13, byteOfTwo (h 7) 21 (h 8) 4, byteOf (h 8) 4,
      byteOf (h 8) 12, byteOfTwo (h 8) 20 (h 9) 6, byteOf (h 9) 2, byteOf (h 9) 10, byteOf (h 9) 18]

def fe_tobytes (h : Fe) : Nat → Byte :=
  let q := tobytesQuotient h
  let h := arrayOf [h 0 + 19 * q, h 1, h 2, h 3, h 4, h 5, h 6, h 7, h 8, h 9]
  feStore (LimbStep.runAll tobytesCarries h)

/-- `crypto_verify_32` of `verify.c`. -/
def crypto_verify_32 (x y : Nat → Byte) : Int :=
  let d := (List.range 32).foldl (fun d i => d ||| (x i ^^^ y i).setWidth 32) 0#32
  (1 &&& (d - 1) >>> 8).toNat - 1

def fe_isnegative (f : Fe) : BitVec 32 := (fe_tobytes f 0).setWidth 32 &&& 1

def fe_isnonzero (f : Fe) : Int := crypto_verify_32 (fe_tobytes f) fun _ => 0

/-! ## Products -/

/-- `x * (int64_t) y`. -/
def mul64 (x y : BitVec 32) : BitVec 64 := x.signExtend 64 * y.signExtend 64

def mulCarries : List LimbStep :=
  [.round 0 1 26 1, .round 4 5 26 1, .round 1 2 25 1, .round 5 6 25 1, .round 2 3 26 1, .round 6 7 26 1,
    .round 3 4 25 1, .round 7 8 25 1, .round 4 5 26 1, .round 8 9 26 1, .round 9 0 25 19, .round 0 1 26 1]

/-- The end that `fe_mul`, `fe_sq` and `fe_sq2` have in common. -/
def reduceLimbs (h : List (BitVec 64)) : Fe := narrow (LimbStep.runAll mulCarries (arrayOf h))

def mulLimbs (f g : Fe) : List (BitVec 64) :=
  let g1_19 := 19 * g 1; let g2_19 := 19 * g 2; let g3_19 := 19 * g 3; let g4_19 := 19 * g 4; let g5_19 := 19 * g 5
  let g6_19 := 19 * g 6; let g7_19 := 19 * g 7; let g8_19 := 19 * g 8; let g9_19 := 19 * g 9; let f1_2 := 2 * f 1
  let f3_2 := 2 * f 3; let f5_2 := 2 * f 5; let f7_2 := 2 * f 7; let f9_2 := 2 * f 9
  let h0 := mul64 (f 0) (g 0) + mul64 f1_2 g9_19 + mul64 (f 2) g8_19 + mul64 f3_2 g7_19 + mul64 (f 4) g6_19 +
    mul64 f5_2 g5_19 + mul64 (f 6) g4_19 + mul64 f7_2 g3_19 + mul64 (f 8) g2_19 + mul64 f9_2 g1_19
  let h1 := mul64 (f 0) (g 1) + mul64 (f 1) (g 0) + mul64 (f 2) g9_19 + mul64 (f 3) g8_19 + mul64 (f 4) g7_19 +
    mul64 (f 5) g6_19 + mul64 (f 6) g5_19 + mul64 (f 7) g4_19 + mul64 (f 8) g3_19 + mul64 (f 9) g2_19
  let h2 := mul64 (f 0) (g 2) + mul64 f1_2 (g 1) + mul64 (f 2) (g 0) + mul64 f3_2 g9_19 + mul64 (f 4) g8_19 +
    mul64 f5_2 g7_19 + mul64 (f 6) g6_19 + mul64 f7_2 g5_19 + mul64 (f 8) g4_19 + mul64 f9_2 g3_19
  let h3 := mul64 (f 0) (g 3) + mul64 (f 1) (g 2) + mul64 (f 2) (g 1) + mul64 (f 3) (g 0) + mul64 (f 4) g9_19 +
    mul64 (f 5) g8_19 + mul64 (f 6) g7_19 + mul64 (f 7) g6_19 + mul64 (f 8) g5_19 + mul64 (f 9) g4_19
  let h4 := mul64 (f 0) (g 4) + mul64 f1_2 (g 3) + mul64 (f 2) (g 2) + mul64 f3_2 (g 1) + mul64 (f 4) (g 0) +
    mul64 f5_2 g9_19 + mul64 (f 6) g8_19 + mul64 f7_2 g7_19 + mul64 (f 8) g6_19 + mul64 f9_2 g5_19
  let h5 := mul64 (f 0) (g 5) + mul64 (f 1) (g 4) + mul64 (f 2) (g 3) + mul64 (f 3) (g 2) + mul64 (f 4) (g 1) +
    mul64 (f 5) (g 0) + mul64 (f 6) g9_19 + mul64 (f 7) g8_19 + mul64 (f 8) g7_19 + mul64 (f 9) g6_19
  let h6 := mul64 (f 0) (g 6) + mul64 f1_2 (g 5) + mul64 (f 2) (g 4) + mul64 f3_2 (g 3) + mul64 (f 4) (g 2) +
    mul64 f5_2 (g 1) + mul64 (f 6) (g 0) + mul64 f7_2 g9_19 + mul64 (f 8) g8_19 + mul64 f9_2 g7_19
  let h7 := mul64 (f 0) (g 7) + mul64 (f 1) (g 6) + mul64 (f 2) (g 5) + mul64 (f 3) (g 4) + mul64 (f 4) (g 3) +
    mul64 (f 5) (g 2) + mul64 (f 6) (g 1) + mul64 (f 7) (g 0) + mul64 (f 8) g9_19 + mul64 (f 9) g8_19
  let h8 := mul64 (f 0) (g 8) + mul64 f1_2 (g 7) + mul64 (f 2) (g 6) + mul64 f3_2 (g 5) + mul64 (f 4) (g 4) +
    mul64 f5_2 (g 3) + mul64 (f 6) (g 2) + mul64 f7_2 (g 1) + mul64 (f 8) (g 0) + mul64 f9_2 g9_19
  let h9 := mul64 (f 0) (g 9) + mul64 (f 1) (g 8) + mul64 (f 2) (g 7) + mul64 (f 3) (g 6) + mul64 (f 4) (g 5) +
    mul64 (f 5) (g 4) + mul64 (f 6) (g 3) + mul64 (f 7) (g 2) + mul64 (f 8) (g 1) + mul64 (f 9) (g 0)
  [h0, h1, h2, h3, h4, h5, h6, h7, h8, h9]

def fe_mul (f g : Fe) : Fe := reduceLimbs (mulLimbs f g)

def sqLimbs (f : Fe) : List (BitVec 64) :=
  let f0_2 := 2 * f 0; let f1_2 := 2 * f 1; let f2_2 := 2 * f 2; let f3_2 := 2 * f 3; let f4_2 := 2 * f 4
  let f5_2 := 2 * f 5; let f6_2 := 2 * f 6; let f7_2 := 2 * f 7; let f5_38 := 38 * f 5; let f6_19 := 19 * f 6
  let f7_38 := 38 * f 7; let f8_19 := 19 * f 8; let f9_38 := 38 * f 9
  let h0 := mul64 (f 0) (f 0) + mul64 f1_2 f9_38 + mul64 f2_2 f8_19 + mul64 f3_2 f7_38 + mul64 f4_2 f6_19 +
    mul64 (f 5) f5_38
  let h1 := mul64 f0_2 (f 1) + mul64 (f 2) f9_38 + mul64 f3_2 f8_19 + mul64 (f 4) f7_38 + mul64 f5_2 f6_19
  let h2 := mul64 f0_2 (f 2) + mul64 f1_2 (f 1) + mul64 f3_2 f9_38 + mul64 f4_2 f8_19 + mul64 f5_2 f7_38 +
    mul64 (f 6) f6_19
  let h3 := mul64 f0_2 (f 3) + mul64 f1_2 (f 2) + mul64 (f 4) f9_38 + mul64 f5_2 f8_19 + mul64 (f 6) f7_38
  let h4 := mul64 f0_2 (f 4) + mul64 f1_2 f3_2 + mul64 (f 2) (f 2) + mul64 f5_2 f9_38 + mul64 f6_2 f8_19 +
    mul64 (f 7) f7_38
  let h5 := mul64 f0_2 (f 5) + mul64 f1_2 (f 4) + mul64 f2_2 (f 3) + mul64 (f 6) f9_38 + mul64 f7_2 f8_19
  let h6 := mul64 f0_2 (f 6) + mul64 f1_2 f5_2 + mul64 f2_2 (f 4) + mul64 f3_2 (f 3) + mul64 f7_2 f9_38 +
    mul64 (f 8) f8_19
  let h7 := mul64 f0_2 (f 7) + mul64 f1_2 (f 6) + mul64 f2_2 (f 5) + mul64 f3_2 (f 4) + mul64 (f 8) f9_38
  let h8 := mul64 f0_2 (f 8) + mul64 f1_2 f7_2 + mul64 f2_2 (f 6) + mul64 f3_2 f5_2 + mul64 (f 4) (f 4) +
    mul64 (f 9) f9_38
  let h9 := mul64 f0_2 (f 9) + mul64 f1_2 (f 8) + mul64 f2_2 (f 7) + mul64 f3_2 (f 6) + mul64 f4_2 (f 5)
  [h0, h1, h2, h3, h4, h5, h6, h7, h8, h9]

def fe_sq (f : Fe) : Fe := reduceLimbs (sqLimbs f)

def fe_sq2 (f : Fe) : Fe := reduceLimbs ((sqLimbs f).map fun h => h + h)

/-! ## Powers -/

/-- `fe_sq(t, t)`, `n` times. -/
def sqLoop (n : Nat) (t : Fe) : Fe := fe_sq^[n] t

def fe_invert (z : Fe) : Fe :=
  let t0 := fe_sq z
  let t1 := fe_sq t0
  let t1 := fe_sq t1
  let t1 := fe_mul z t1
  let t0 := fe_mul t0 t1
  let t2 := fe_sq t0
  let t1 := fe_mul t1 t2
  let t2 := sqLoop 4 (fe_sq t1)
  let t1 := fe_mul t2 t1
  let t2 := sqLoop 9 (fe_sq t1)
  let t2 := fe_mul t2 t1
  let t3 := sqLoop 19 (fe_sq t2)
  let t2 := fe_mul t3 t2
  let t2 := sqLoop 9 (fe_sq t2)
  let t1 := fe_mul t2 t1
  let t2 := sqLoop 49 (fe_sq t1)
  let t2 := fe_mul t2 t1
  let t3 := sqLoop 99 (fe_sq t2)
  let t2 := fe_mul t3 t2
  let t2 := sqLoop 49 (fe_sq t2)
  let t1 := fe_mul t2 t1
  let t1 := sqLoop 4 (fe_sq t1)
  fe_mul t1 t0

def fe_pow22523 (z : Fe) : Fe :=
  let t0 := fe_sq z
  let t1 := fe_sq t0
  let t1 := fe_sq t1
  let t1 := fe_mul z t1
  let t0 := fe_mul t0 t1
  let t0 := fe_sq t0
  let t0 := fe_mul t1 t0
  let t1 := sqLoop 4 (fe_sq t0)
  let t0 := fe_mul t1 t0
  let t1 := sqLoop 9 (fe_sq t0)
  let t1 := fe_mul t1 t0
  let t2 := sqLoop 19 (fe_sq t1)
  let t1 := fe_mul t2 t1
  let t1 := sqLoop 9 (fe_sq t1)
  let t0 := fe_mul t1 t0
  let t1 := sqLoop 49 (fe_sq t0)
  let t1 := fe_mul t1 t0
  let t2 := sqLoop 99 (fe_sq t1)
  let t1 := fe_mul t2 t1
  let t1 := sqLoop 49 (fe_sq t1)
  let t0 := fe_mul t1 t0
  let t0 := fe_sq t0
  let t0 := fe_sq t0
  fe_mul t0 z

end KernelOfTruth.Code.Ref10
