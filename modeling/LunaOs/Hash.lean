import LunaOs.StringOps

/-! # The hash functions of `kernel/hash.c`

`fnv1aStr` is FNV-1a over the characters of a string.  `sha256` is the freestanding SHA-256:
`sha256Transform` compresses one 64-byte block, and `sha256` runs it over the full blocks of the
message and over one or two tail blocks assembled in the local array `block`.

The local arrays `block` and `w` are not initialised by the source.  What the stack happens to
hold there is the argument `Sha256Stack`, so that nothing proved below rests on a value the code
did not write.  `size_t` is `uint32_t` on x86. -/

namespace LunaOs

/-- A SHA-256 digest, `uint8_t[32]`. -/
abbrev Digest := Vector UInt8 32

/-! ### FNV-1a -/

def FNV_OFFSET_BASIS_64 : UInt64 := 0xCBF29CE484222325
def FNV_PRIME_64 : UInt64 := 0x00000100000001B3

/-- `fnv1a_str`, up to the terminator. -/
def fnv1aStr (str : CString) : UInt64 :=
  str.chars.foldl (fun hash c => (hash ^^^ c.toUInt64) * FNV_PRIME_64) FNV_OFFSET_BASIS_64

/-! ### SHA-256 -/

namespace Hash

def K : Vector UInt32 64 := #v[
  0x428A2F98, 0x71374491, 0xB5C0FBCF, 0xE9B5DBA5, 0x3956C25B, 0x59F111F1, 0x923F82A4, 0xAB1C5ED5,
  0xD807AA98, 0x12835B01, 0x243185BE, 0x550C7DC3, 0x72BE5D74, 0x80DEB1FE, 0x9BDC06A7, 0xC19BF174,
  0xE49B69C1, 0xEFBE4786, 0x0FC19DC6, 0x240CA1CC, 0x2DE92C6F, 0x4A7484AA, 0x5CB0A9DC, 0x76F988DA,
  0x983E5152, 0xA831C66D, 0xB00327C8, 0xBF597FC7, 0xC6E00BF3, 0xD5A79147, 0x06CA6351, 0x14292967,
  0x27B70A85, 0x2E1B2138, 0x4D2C6DFC, 0x53380D13, 0x650A7354, 0x766A0ABB, 0x81C2C92E, 0x92722C85,
  0xA2BFE8A1, 0xA81A664B, 0xC24B8B70, 0xC76C51A3, 0xD192E819, 0xD6990624, 0xF40E3585, 0x106AA070,
  0x19A4C116, 0x1E376C08, 0x2748774C, 0x34B0BCB5, 0x391C0CB3, 0x4ED8AA4A, 0x5B9CCA4F, 0x682E6FF3,
  0x748F82EE, 0x78A5636F, 0x84C87814, 0x8CC70208, 0x90BEFFFA, 0xA4506CEB, 0xBEF9A3F7, 0xC67178F2]

def H0 : Vector UInt32 8 := #v[
  0x6A09E667, 0xBB67AE85, 0x3C6EF372, 0xA54FF53A, 0x510E527F, 0x9B05688C, 0x1F83D9AB, 0x5BE0CD19]

def rotr32 (x n : UInt32) : UInt32 := (x >>> n) ||| (x <<< (32 - n))
def shr (x n : UInt32) : UInt32 := x >>> n

def sha256Ch (e f g : UInt32) : UInt32 := (e &&& f) ^^^ (~~~e &&& g)
def sha256Maj (a b c : UInt32) : UInt32 := (a &&& b) ^^^ (a &&& c) ^^^ (b &&& c)
def sha256Ep0 (a : UInt32) : UInt32 := rotr32 a 2 ^^^ rotr32 a 13 ^^^ rotr32 a 22
def sha256Ep1 (e : UInt32) : UInt32 := rotr32 e 6 ^^^ rotr32 e 11 ^^^ rotr32 e 25
def sha256Sig0 (x : UInt32) : UInt32 := rotr32 x 7 ^^^ rotr32 x 18 ^^^ shr x 3
def sha256Sig1 (x : UInt32) : UInt32 := rotr32 x 17 ^^^ rotr32 x 19 ^^^ shr x 10

/-- The working variables `a` to `h`. -/
structure WorkVars where
  (a b c d e f g h : UInt32)
deriving DecidableEq, Repr

/-- Big-endian load of the four bytes at `block[i*4]`. -/
def loadWord (block : ConstPtr) (i : ℕ) : UInt32 :=
  ((block (i * 4 + 0)).toUInt32 <<< 24) ||| ((block (i * 4 + 1)).toUInt32 <<< 16) |||
    ((block (i * 4 + 2)).toUInt32 <<< 8) ||| (block (i * 4 + 3)).toUInt32

/-- The body of the first schedule loop. -/
def loadStep (block : ConstPtr) (w : Vector UInt32 64) (i : ℕ) : Vector UInt32 64 :=
  w.setIfInBounds i (loadWord block i)

/-- The body of the second schedule loop. -/
def scheduleStep (w : Vector UInt32 64) (i : ℕ) : Vector UInt32 64 :=
  w.setIfInBounds i (sha256Sig1 w[i - 2]! + w[i - 7]! + sha256Sig0 w[i - 15]! + w[i - 16]!)

/-- One of the 64 rounds. -/
def roundStep (w : Vector UInt32 64) (v : WorkVars) (i : ℕ) : WorkVars :=
  let t1 := v.h + sha256Ep1 v.e + sha256Ch v.e v.f v.g + K[i]! + w[i]!
  let t2 := sha256Ep0 v.a + sha256Maj v.a v.b v.c
  { h := v.g, g := v.f, f := v.e, e := v.d + t1, d := v.c, c := v.b, b := v.a, a := t1 + t2 }

/-- The contents of the uninitialised local arrays. -/
structure Sha256Stack where
  w : Vector UInt32 64
  block : Vector UInt8 64

/-- The working variables before the first round. -/
def initialVars (state : Vector UInt32 8) : WorkVars :=
  ⟨state[0], state[1], state[2], state[3], state[4], state[5], state[6], state[7]⟩

/-- `sha256_transform`: the schedule, 64 rounds, and the sum with the old state. -/
def sha256Transform (w : Vector UInt32 64) (state : Vector UInt32 8) (block : ConstPtr) :
    Vector UInt32 8 :=
  let w := (List.range 16).foldl (loadStep block) w
  let w := (List.range' 16 48).foldl scheduleStep w
  let v := (List.range 64).foldl (roundStep w) (initialVars state)
  #v[state[0] + v.a, state[1] + v.b, state[2] + v.c, state[3] + v.d,
    state[4] + v.e, state[5] + v.f, state[6] + v.g, state[7] + v.h]

/-- `while (remaining >= 64)`: every turn takes 64 bytes, so `fuel = len` turns are enough.
Returns the hash state, `data` and `remaining` after the loop. -/
def fullBlocks (w : Vector UInt32 64) :
    ℕ → Vector UInt32 8 → ConstPtr → ℕ → Vector UInt32 8 × ConstPtr × ℕ
  | 0, state, data, remaining => (state, data, remaining)
  | fuel + 1, state, data, remaining =>
      if remaining ≥ 64 then
        fullBlocks w fuel (sha256Transform w state data) (fun i => data (64 + i)) (remaining - 64)
      else (state, data, remaining)

/-- `while (remaining < upTo) block[remaining++] = 0;`  Returns the block; `remaining` ends at
`max remaining upTo`. -/
def zeroFill (upTo remaining : ℕ) (block : Vector UInt8 64) : Vector UInt8 64 :=
  (List.range' remaining (upTo - remaining)).foldl (fun b i => b.setIfInBounds i 0) block

/-- The bit length as a big-endian 64-bit number in `block[56]` to `block[63]`. -/
def appendLength (bitLen : UInt64) (block : Vector UInt8 64) : Vector UInt8 64 :=
  let block := block.setIfInBounds 56 (bitLen >>> 56).toUInt8
  let block := block.setIfInBounds 57 (bitLen >>> 48).toUInt8
  let block := block.setIfInBounds 58 (bitLen >>> 40).toUInt8
  let block := block.setIfInBounds 59 (bitLen >>> 32).toUInt8
  let block := block.setIfInBounds 60 (bitLen >>> 24).toUInt8
  let block := block.setIfInBounds 61 (bitLen >>> 16).toUInt8
  let block := block.setIfInBounds 62 (bitLen >>> 8).toUInt8
  block.setIfInBounds 63 (bitLen >>> 0).toUInt8

/-- The tail: the remaining bytes, `0x80`, zeros and the bit length, in one or two blocks. -/
def finalBlocks (stk : Sha256Stack) (bitLen : UInt64) (state : Vector UInt32 8) (data : ConstPtr)
    (remaining : ℕ) : Vector UInt32 8 :=
  let block := (List.range remaining).foldl (fun b i => b.setIfInBounds i (data i)) stk.block
  let block := block.setIfInBounds remaining 0x80
  let remaining := remaining + 1
  let (state, block, remaining) :=
    if remaining > 56 then
      let block := zeroFill 64 remaining block
      (sha256Transform stk.w state (arrayPtr block), block, 0)
    else (state, block, remaining)
  let block := zeroFill 56 remaining block
  let block := appendLength bitLen block
  sha256Transform stk.w state (arrayPtr block)

/-- `out[i*4+0] = state[i] >> 24;` to `out[i*4+3] = state[i] >> 0;` for the eight words. -/
def digestBytes (state : Vector UInt32 8) : Digest :=
  Vector.ofFn fun k : Fin 32 =>
    (state.get ⟨k.val / 4, by omega⟩ >>> UInt32.ofNat (24 - 8 * (k.val % 4))).toUInt8

/-- `sha256`: whole blocks from the input, the rest through the padded buffer. -/
def sha256 (stk : Sha256Stack) (data : ConstPtr) (len : UInt32) : Digest :=
  let bitLen : UInt64 := len.toUInt64 * 8
  let (state, data, remaining) := fullBlocks stk.w len.toNat H0 data len.toNat
  digestBytes (finalBlocks stk bitLen state data remaining)

end Hash

end LunaOs
