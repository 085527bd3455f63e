import LunaOs.Lib.Endian
import Mathlib.Data.Nat.Nth
import Mathlib.Data.Nat.NthRoot.Defs
import Mathlib.Data.Nat.Prime.Basic
import Mathlib.Tactic.Linarith

/-! # SHA-256 as FIPS 180-4 defines it

The standard's own words, over 32-bit words `BitVec 32` and messages that are lists of bytes.

* §4.1.2 the logical functions, §4.2.2 and §5.3.3 the constants.  The round constants are the
  first 32 bits of the fractional parts of the cube roots of the first 64 primes, the initial
  hash value those of the square roots of the first 8 primes.  They are defined here by that
  sentence and not by a table: `∛p · 2^32 = ∛(p · 2^96)`, so the bits are the integer cube root
  of `p · 2^96` modulo `2^32`.
* §5.1.1 padding: one `1` bit, the least number of `0` bits that leaves room for a 64-bit length
  at the end of a 512-bit block, and the length in bits.  For messages of whole bytes the first
  bits are a byte `0x80` and zero bytes.
* §6.2 the message schedule, the 64 rounds and the fold over the blocks. -/

namespace Fips180

open Endian

/-- A 32-bit word. -/
abbrev Word := BitVec 32

/-! ### Functions and constants -/

def ch (x y z : Word) : Word := (x &&& y) ^^^ (~~~x &&& z)
def maj (x y z : Word) : Word := (x &&& y) ^^^ (x &&& z) ^^^ (y &&& z)
def bigSigma0 (x : Word) : Word := x.rotateRight 2 ^^^ x.rotateRight 13 ^^^ x.rotateRight 22
def bigSigma1 (x : Word) : Word := x.rotateRight 6 ^^^ x.rotateRight 11 ^^^ x.rotateRight 25
def smallSigma0 (x : Word) : Word := x.rotateRight 7 ^^^ x.rotateRight 18 ^^^ (x >>> 3)
def smallSigma1 (x : Word) : Word := x.rotateRight 17 ^^^ x.rotateRight 19 ^^^ (x >>> 10)

/-- The `t`-th prime, from `prime 0 = 2`. -/
noncomputable def prime (t : ℕ) : ℕ := Nat.nth Nat.Prime t

/-- `K_t`: the first 32 bits of the fractional part of the cube root of the `t`-th prime. -/
noncomputable def roundConstant (t : ℕ) : Word :=
  BitVec.ofNat 32 (Nat.nthRoot 3 (prime t * 2 ^ 96))

/-- `H_j`: the first 32 bits of the fractional part of the square root of the `j`-th prime. -/
noncomputable def initialWord (j : ℕ) : Word :=
  BitVec.ofNat 32 (Nat.nthRoot 2 (prime j * 2 ^ 64))

/-! ### Padding -/

theorem exists_zeroCount (n : ℕ) : ∃ z, (n + 1 + z) % 64 = 56 :=
  ⟨(119 - n % 64) % 64, by omega⟩

/-- The least number of zero bytes after `0x80` that leaves exactly eight bytes of a block. -/
def zeroCount (n : ℕ) : ℕ := Nat.find (exists_zeroCount n)

theorem zeroCount_spec (n : ℕ) : (n + 1 + zeroCount n) % 64 = 56 :=
  Nat.find_spec (exists_zeroCount n)

theorem zeroCount_eq {n z : ℕ} (h : (n + 1 + z) % 64 = 56) (hz : z < 64) : zeroCount n = z := by
  have hle : zeroCount n ≤ z := Nat.find_min' (exists_zeroCount n) h
  have := zeroCount_spec n
  omega

theorem zeroCount_lt (n : ℕ) : zeroCount n < 64 := by
  have hle : zeroCount n ≤ (119 - n % 64) % 64 :=
    Nat.find_min' (exists_zeroCount n) (by omega)
  omega

/-- The zeros depend on the bytes of the last, incomplete block only. -/
theorem zeroCount_mod (n : ℕ) : zeroCount (n % 64) = zeroCount n := by
  have := zeroCount_spec n
  exact zeroCount_eq (by omega) (zeroCount_lt n)

def pad (m : List UInt8) : List UInt8 :=
  m ++ (0x80 :: List.replicate (zeroCount m.length) 0) ++ beBytes 8 (8 * m.length)

/-- The padded message is cut into blocks of 64 bytes. -/
def blocks : ℕ → List UInt8 → List (List UInt8)
  | 0, _ => []
  | n + 1, bs => bs.take 64 :: blocks n (bs.drop 64)

/-! ### The computation -/

/-- `M_t`, word `t` of a block. -/
def messageWord (b : List UInt8) (t : ℕ) : Word := BitVec.ofNat 32 (beNat ((b.drop (4 * t)).take 4))

/-- `W_t`, the message schedule. -/
def schedule (b : List UInt8) (t : ℕ) : Word :=
  if t < 16 then messageWord b t
  else smallSigma1 (schedule b (t - 2)) + schedule b (t - 7) + smallSigma0 (schedule b (t - 15)) +
    schedule b (t - 16)
termination_by t
decreasing_by all_goals omega

/-- The eight working variables. -/
structure Vars where
  (a b c d e f g h : Word)

/-- Round `t`. -/
noncomputable def round (blk : List UInt8) (v : Vars) (t : ℕ) : Vars :=
  let t1 := v.h + bigSigma1 v.e + ch v.e v.f v.g + roundConstant t + schedule blk t
  let t2 := bigSigma0 v.a + maj v.a v.b v.c
  ⟨t1 + t2, v.a, v.b, v.c, v.d + t1, v.e, v.f, v.g⟩

/-- The intermediate hash value after one more block. -/
noncomputable def compress (H : Vars) (blk : List UInt8) : Vars :=
  let v := (List.range 64).foldl (round blk) H
  ⟨v.a + H.a, v.b + H.b, v.c + H.c, v.d + H.d, v.e + H.e, v.f + H.f, v.g + H.g, v.h + H.h⟩

/-- `H^(0)`. -/
noncomputable def initial : Vars :=
  ⟨initialWord 0, initialWord 1, initialWord 2, initialWord 3,
    initialWord 4, initialWord 5, initialWord 6, initialWord 7⟩

/-- The digest: the eight words of the last hash value, most significant byte first. -/
def digest (v : Vars) : List UInt8 :=
  [v.a, v.b, v.c, v.d, v.e, v.f, v.g, v.h].flatMap fun x => beBytes 4 x.toNat

/-- **SHA-256** of a message of whole bytes. -/
noncomputable def sha256 (m : List UInt8) : List UInt8 :=
  digest ((blocks ((pad m).length / 64) (pad m)).foldl compress initial)

theorem pad_length (m : List UInt8) : (pad m).length = m.length + 1 + zeroCount m.length + 8 := by
  simp [pad]; omega

/-! ### The constants by value -/

/-- The members of a decidable set below `n`, in order, are its first members. -/
theorem nth_eq_getElem_filter (p : ℕ → Prop) [DecidablePred p] {n t : ℕ}
    (h : t < ((List.range n).filter (p ·)).length) :
    Nat.nth p t = ((List.range n).filter (p ·))[t] := by
  induction n with
  | zero => simp at h
  | succ n ih =>
      by_cases hp : p n
      · simp only [List.range_succ, List.filter_append, List.filter_cons, List.filter_nil,
          hp, decide_true, if_true] at h ⊢
        rcases Nat.lt_or_ge t ((List.range n).filter (p ·)).length with hlt | hge
        · rw [List.getElem_append_left hlt, ih hlt]
        · simp only [List.length_append, List.length_singleton] at h
          have ht : t = ((List.range n).filter (p ·)).length := by omega
          subst ht
          rw [List.getElem_append_right le_rfl]
          simp only [Nat.sub_self, List.getElem_cons_zero]
          rw [← List.countP_eq_length_filter]
          exact Nat.nth_count hp
      · simp only [List.range_succ, List.filter_append, List.filter_cons, List.filter_nil,
          hp, decide_false, Bool.false_eq_true, if_false, List.append_nil] at h ⊢
        exact ih h

/-- The first 64 primes. -/
def firstPrimes : List ℕ := [
  2, 3, 5, 7, 11, 13, 17, 19, 23, 29, 31, 37, 41, 43, 47, 53,
  59, 61, 67, 71, 73, 79, 83, 89, 97, 101, 103, 107, 109, 113, 127, 131,
  137, 139, 149, 151, 157, 163, 167, 173, 179, 181, 191, 193, 197, 199, 211, 223,
  227, 229, 233, 239, 241, 251, 257, 263, 269, 271, 277, 281, 283, 293, 307, 311]

/-- Trial division by the numbers below 18 decides primality below `18 ^ 2`. -/
theorem prime_iff_trial {n : ℕ} (hn : n < 324) :
    Nat.Prime n ↔ 2 ≤ n ∧ ∀ m < 18, 2 ≤ m → m < n → ¬m ∣ n := by
  rw [Nat.prime_def_le_sqrt]
  constructor
  · rintro ⟨h2, h⟩
    refine ⟨h2, fun m _ hm2 hmn hdvd => ?_⟩
    exact (Nat.prime_def_le_sqrt.mpr ⟨h2, h⟩).eq_one_or_self_of_dvd m hdvd |>.elim (by omega)
      (by omega)
  · rintro ⟨h2, h⟩
    refine ⟨h2, fun m hm2 hms => ?_⟩
    have hsq : m * m ≤ n := Nat.le_sqrt.mp hms
    exact h m (by nlinarith) hm2 (by nlinarith)

theorem filter_prime_range : (List.range 312).filter (Nat.Prime ·) = firstPrimes := by
  have htrial : (List.range 312).filter (Nat.Prime ·) =
      (List.range 312).filter fun n => decide (2 ≤ n ∧ ∀ m < 18, 2 ≤ m → m < n → ¬m ∣ n) := by
    apply List.filter_congr
    intro n hn
    rw [List.mem_range] at hn
    rw [decide_eq_decide]
    exact prime_iff_trial (by omega)
  rw [htrial]
  decide +kernel

theorem prime_eq {t : ℕ} (h : t < 64) : prime t = firstPrimes.getD t 0 := by
  have hlen : ((List.range 312).filter (Nat.Prime ·)).length = 64 := by
    rw [filter_prime_range]; rfl
  rw [prime, nth_eq_getElem_filter Nat.Prime (n := 312) (by omega),
    ← List.getD_eq_getElem _ 0, filter_prime_range]

end Fips180
