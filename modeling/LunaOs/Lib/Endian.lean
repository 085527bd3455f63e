import Mathlib.Data.List.Basic
import Mathlib.Data.Nat.Notation
import Mathlib.Tactic.Ring
import Mathlib.Tactic.NormNum

/-! # Byte encodings of natural numbers

`leBytes k n` are the `k` least significant bytes of `n`, least significant first, and
`beBytes k n` the same bytes in the other order.  `beNat` reads a big-endian byte string, `leNat` a
little-endian one.  Both encodings lose nothing below `256 ^ k` (`leBytes_inj`). -/

namespace Endian

/-- The `k` low bytes of `n`, least significant first. -/
def leBytes : ℕ → ℕ → List UInt8
  | 0, _ => []
  | k + 1, n => UInt8.ofNat n :: leBytes k (n / 256)

/-- The `k` low bytes of `n`, most significant first. -/
def beBytes (k n : ℕ) : List UInt8 := (leBytes k n).reverse

/-- The number a big-endian byte string stands for. -/
def beNat (bs : List UInt8) : ℕ := bs.foldl (fun n b => 256 * n + b.toNat) 0

/-- The number a little-endian byte string stands for. -/
def leNat : List UInt8 → ℕ
  | [] => 0
  | b :: bs => b.toNat + 256 * leNat bs

@[simp] theorem leBytes_length (k n : ℕ) : (leBytes k n).length = k := by
  induction k generalizing n with
  | zero => rfl
  | succ k ih => simp [leBytes, ih]

@[simp] theorem beBytes_length (k n : ℕ) : (beBytes k n).length = k := by simp [beBytes]

theorem leBytes_inj {k m n : ℕ} (hm : m < 256 ^ k) (hn : n < 256 ^ k)
    (h : leBytes k m = leBytes k n) : m = n := by
  induction k generalizing m n with
  | zero => rw [pow_zero] at hm hn; omega
  | succ k ih =>
      simp only [leBytes, List.cons.injEq] at h
      have hlow : m % 256 = n % 256 := by
        have := congrArg UInt8.toNat h.1
        simpa using this
      rw [pow_succ] at hm hn
      have hhigh : m / 256 = n / 256 := ih (by omega) (by omega) h.2
      omega

theorem leNat_lt (bs : List UInt8) : leNat bs < 256 ^ bs.length := by
  induction bs with
  | nil => simp [leNat]
  | cons b bs ih =>
      have hb := b.toNat_lt
      rw [leNat, List.length_cons, pow_succ]
      omega

/-- Reading a byte string and writing it again gives it back. -/
theorem leBytes_leNat (bs : List UInt8) : leBytes bs.length (leNat bs) = bs := by
  induction bs with
  | nil => rfl
  | cons b bs ih =>
      have hb := b.toNat_lt
      have hlow : UInt8.ofNat (b.toNat + 256 * leNat bs) = b := by
        rw [← UInt8.toNat_inj, UInt8.toNat_ofNat']
        omega
      have hhigh : (b.toNat + 256 * leNat bs) / 256 = leNat bs := by omega
      rw [List.length_cons, leNat, leBytes, hlow, hhigh, ih]

end Endian
