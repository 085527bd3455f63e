import Mathlib.Algebra.Group.Nat.Defs
import Mathlib.Data.Finset.Card
import Mathlib.Data.Finset.Range
import Mathlib.Data.Finset.Image
import Mathlib.Data.Nat.Notation

/-! # Sets of numbers packed into machine words

Bit `n % w` of word `n / w` says whether `n` belongs to the set.  `clearBelow N b` is the set of the
numbers below `N` whose bit is clear; setting a bit erases its number, clearing it inserts it. -/

namespace Bitmap

variable {w : ℕ}

def test (b : ℕ → BitVec w) (n : ℕ) : Bool := (b (n / w)).getLsbD (n % w)

/-- `b[n / w] |= 1 << (n % w)` -/
def set (b : ℕ → BitVec w) (n : ℕ) : ℕ → BitVec w :=
  Function.update b (n / w) (b (n / w) ||| 1#w <<< (n % w))

/-- `b[n / w] &= ~(1 << (n % w))` -/
def clear (b : ℕ → BitVec w) (n : ℕ) : ℕ → BitVec w :=
  Function.update b (n / w) (b (n / w) &&& ~~~(1#w <<< (n % w)))

theorem getLsbD_one_shiftLeft {i j : ℕ} (hi : i < w) :
    (1#w <<< j).getLsbD i = decide (i = j) := by
  rw [BitVec.getLsbD_shiftLeft, BitVec.getLsbD_one]
  by_cases hij : i = j
  · subst hij
    simp [hi, Nat.zero_lt_of_lt hi]
  · rcases Nat.lt_or_gt_of_ne hij with hlt | hgt
    · simp [hlt, hij]
    · simp [hij, Nat.sub_ne_zero_of_lt hgt]

/-- A mask of one bit tests it. -/
theorem and_one_shiftLeft_eq_zero {x : BitVec w} {j : ℕ} :
    x &&& 1#w <<< j = 0#w ↔ x.getLsbD j = false := by
  constructor
  · intro h
    rcases Nat.lt_or_ge j w with hj | hj
    · have hbit : (x &&& 1#w <<< j).getLsbD j = (0#w).getLsbD j := by rw [h]
      rw [BitVec.getLsbD_and, getLsbD_one_shiftLeft hj, decide_eq_true rfl, Bool.and_true] at hbit
      rw [hbit, BitVec.getLsbD_zero]
    · exact BitVec.getLsbD_of_ge x j hj
  · intro h
    apply BitVec.eq_of_getLsbD_eq
    intro i hi
    rw [BitVec.getLsbD_and, getLsbD_one_shiftLeft hi, BitVec.getLsbD_zero]
    by_cases hij : i = j
    · rw [hij, h, Bool.false_and]
    · rw [decide_eq_false hij, Bool.and_false]

/-- A mask of all bits from `k` on rounds down to a multiple of `2 ^ k`. -/
theorem toNat_and_highMask {x mask : BitVec w} {k : ℕ}
    (hmask : ∀ j < w, mask.getLsbD j = decide (k ≤ j)) :
    (x &&& mask).toNat = x.toNat / 2 ^ k * 2 ^ k := by
  have hshift : x &&& mask = (x >>> k) <<< k := by
    apply BitVec.eq_of_getLsbD_eq
    intro i hi
    rw [BitVec.getLsbD_and, hmask i hi, BitVec.getLsbD_shiftLeft, BitVec.getLsbD_ushiftRight]
    by_cases hk : k ≤ i
    · simp [hk, hi, Nat.add_sub_cancel' hk]
    · simp [hk]
  have hle := Nat.div_mul_le_self x.toNat (2 ^ k)
  rw [hshift, BitVec.toNat_shiftLeft, BitVec.toNat_ushiftRight, Nat.shiftLeft_eq,
    Nat.shiftRight_eq_div_pow]
  exact Nat.mod_eq_of_lt (hle.trans_lt x.isLt)

/-- Two numbers share word and bit only if they are equal. -/
theorem eq_of_word_bit {m n : ℕ} (hword : m / w = n / w) (hbit : m % w = n % w) : m = n := by
  rw [← Nat.div_add_mod m w, hword, hbit, Nat.div_add_mod]

@[simp] theorem test_set (hw : 0 < w) (b : ℕ → BitVec w) (n m : ℕ) :
    test (set b n) m = (test b m || decide (m = n)) := by
  unfold test set
  by_cases hword : m / w = n / w
  · rw [hword, Function.update_self, BitVec.getLsbD_or,
      getLsbD_one_shiftLeft (Nat.mod_lt m hw)]
    congr 1
    rw [decide_eq_decide]
    constructor
    · exact eq_of_word_bit hword
    · rintro rfl
      rfl
  · have hne : m ≠ n := fun h => hword (by rw [h])
    rw [Function.update_of_ne hword]
    simp [hne]

@[simp] theorem test_clear (hw : 0 < w) (b : ℕ → BitVec w) (n m : ℕ) :
    test (clear b n) m = (test b m && decide (m ≠ n)) := by
  unfold test clear
  by_cases hword : m / w = n / w
  · rw [hword, Function.update_self, BitVec.getLsbD_and, BitVec.getLsbD_not,
      getLsbD_one_shiftLeft (Nat.mod_lt m hw)]
    have hiff : m % w = n % w ↔ m = n := ⟨eq_of_word_bit hword, fun h => by rw [h]⟩
    simp [hiff, Nat.mod_lt m hw]
  · have hne : m ≠ n := fun h => hword (by rw [h])
    rw [Function.update_of_ne hword]
    simp [hne]

/-! ### The numbers whose bit is clear -/

/-- The numbers below `N` whose bit is clear. -/
def clearBelow (N : ℕ) (b : ℕ → BitVec w) : Finset ℕ :=
  (Finset.range N).filter fun n => test b n = false

theorem mem_clearBelow {N : ℕ} {b : ℕ → BitVec w} {n : ℕ} :
    n ∈ clearBelow N b ↔ n < N ∧ test b n = false := by
  rw [clearBelow, Finset.mem_filter, Finset.mem_range]

theorem clearBelow_set (hw : 0 < w) (N : ℕ) (b : ℕ → BitVec w) (n : ℕ) :
    clearBelow N (set b n) = (clearBelow N b).erase n := by
  ext m
  rw [Finset.mem_erase, mem_clearBelow, mem_clearBelow, test_set hw]
  simp only [Bool.or_eq_false_iff, decide_eq_false_iff_not]
  tauto

theorem clearBelow_clear (hw : 0 < w) {N : ℕ} (b : ℕ → BitVec w) {n : ℕ} (hn : n < N) :
    clearBelow N (clear b n) = insert n (clearBelow N b) := by
  ext m
  rw [Finset.mem_insert, mem_clearBelow, mem_clearBelow, test_clear hw]
  simp only [Bool.and_eq_false_iff, decide_eq_false_iff_not, not_not]
  constructor
  · rintro ⟨hm, h | rfl⟩
    · exact .inr ⟨hm, h⟩
    · exact .inl rfl
  · rintro (rfl | ⟨hm, h⟩)
    · exact ⟨hn, .inr rfl⟩
    · exact ⟨hm, .inl h⟩

end Bitmap
