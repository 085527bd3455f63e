import LunaOs.StringSearch

/-! # Comparing strings, `luna_strcmp` and `luna_strncmp` of `kernel/string.c`

`luna_strncmp` counts `n` down in the test of its loop and looks at it again behind the loop.  It is zero
there also when the strings differ at the last of the `n` characters, and it has wrapped around when all
`n` characters agree, so that a difference right behind them counts. -/

namespace LunaOs

/-- The loop of `luna_strcmp` at offset `i` with `r` characters of `a` before its terminator. -/
def strcmpLoop (a b : ConstPtr) : ℕ → ℕ → ℤ
  | 0, i => (a i).toNat - (b i).toNat
  | r + 1, i => if a i = b i then strcmpLoop a b r (i + 1) else (a i).toNat - (b i).toNat

def lunaStrcmp (a b : CString) : ℤ := strcmpLoop a.ptr b.ptr a.chars.length 0

/-- `while (n-- && *a && *a == *b) { a++; b++; }` at offset `i`: what is left in `n`, and the offset. -/
def strncmpLoop (a b : ConstPtr) : ℕ → ℕ → UInt32 × ℕ
  | 0, i => (0 - 1, i)
  | n + 1, i => if a i ≠ 0 ∧ a i = b i then strncmpLoop a b n (i + 1) else (UInt32.ofNat n, i)

/-- `luna_strncmp`: at most `n` characters. -/
def lunaStrncmp (a b : ConstPtr) (n : UInt32) : ℤ :=
  let (n, i) := strncmpLoop a b n.toNat 0
  if n = 0 then 0 else (a i).toNat - (b i).toNat

/-! ### Where strings differ -/

/-- The strings differ at `i` for the first time. -/
def DifferFirst (a b : CString) (i : ℕ) : Prop := (∀ j < i, a.ptr j = b.ptr j) ∧ a.ptr i ≠ b.ptr i

section
variable {a b : CString} {n i e : ℕ}

theorem ptr_eq_of_zero (hzero : a.ptr e = 0) (heq : a.ptr e = b.ptr e) (hi : e ≤ i) : a.ptr i = b.ptr i := by
  have ha := (a.ptr_eq_zero_iff e).mp hzero
  have hb := (b.ptr_eq_zero_iff e).mp (heq.symm.trans hzero)
  rw [a.ptr_ge (ha.trans hi), b.ptr_ge (hb.trans hi)]

theorem take_eq_iff : a.chars.take n = b.chars.take n ↔ ∀ j < n, a.ptr j = b.ptr j := by
  constructor
  · intro h j hj
    have hptr := congrArg (fun bs => listPtr bs j) h
    rwa [listPtr_take _ hj, listPtr_take _ hj] at hptr
  · intro h
    apply List.ext_getElem?
    intro j
    rw [List.getElem?_take, List.getElem?_take]
    split_ifs with hj
    · have hlt : ∀ s : CString, j < s.chars.length ↔ s.ptr j ≠ 0 := by
        intro s
        rw [Ne, s.ptr_eq_zero_iff, Nat.not_le]
      by_cases ha : j < a.chars.length
      · have hb : j < b.chars.length := by rwa [hlt, ← h j hj, ← hlt]
        have heq := h j hj
        rw [a.ptr_lt ha, b.ptr_lt hb] at heq
        rw [List.getElem?_eq_getElem ha, List.getElem?_eq_getElem hb, heq]
      · have hb : ¬ j < b.chars.length := by rwa [hlt, ← h j hj, ← hlt]
        rw [List.getElem?_eq_none (Nat.le_of_not_lt ha), List.getElem?_eq_none (Nat.le_of_not_lt hb)]
    · rfl

theorem DifferFirst.unique (h : DifferFirst a b i) (h' : DifferFirst a b e) : i = e := by
  rcases Nat.lt_trichotomy i e with hlt | heq | hlt
  · exact absurd (h'.1 i hlt) h.2
  · exact heq
  · exact absurd (h.1 e hlt) h'.2

end

theorem eq_of_ptr {a b : CString} (h : ∀ j, a.ptr j = b.ptr j) : a = b := by
  have htake := take_eq_iff.mpr fun j (_ : j < max a.chars.length b.chars.length) => h j
  rw [List.take_of_length_le (Nat.le_max_left _ _), List.take_of_length_le (Nat.le_max_right _ _)] at htake
  exact CString.eq_of_chars htake

/-! ### `luna_strcmp` -/

theorem strcmpLoop_eq_zero {a b : CString} {r i : ℕ} (h : i + r = a.chars.length)
    (hbefore : ∀ j < i, a.ptr j = b.ptr j) : strcmpLoop a.ptr b.ptr r i = 0 ↔ a = b := by
  induction r generalizing i with
  | zero =>
      refine toNat_sub_eq_zero.trans ⟨fun heq => eq_of_ptr fun j => ?_, fun heq => by rw [heq]⟩
      rcases Nat.lt_or_ge j i with hj | hj
      · exact hbefore j hj
      · exact ptr_eq_of_zero (a.ptr_ge (by omega)) heq hj
  | succ r ih =>
      unfold strcmpLoop
      split_ifs with heq
      · refine ih (by omega) fun j hj => ?_
        rcases Nat.lt_succ_iff_lt_or_eq.mp hj with hj | rfl
        · exact hbefore j hj
        · exact heq
      · rw [toNat_sub_eq_zero]
        refine iff_of_false heq ?_
        rintro rfl
        exact heq rfl

theorem lunaStrcmp_eq_zero {a b : CString} : lunaStrcmp a b = 0 ↔ a = b :=
  strcmpLoop_eq_zero (Nat.zero_add _) fun j hj => absurd hj (Nat.not_lt_zero j)

/-! ### `luna_strncmp` -/

/-- The loop ends when `n` is used up, with all characters equal, or at a difference or a terminator. -/
theorem strncmpLoop_cases (a b : ConstPtr) (n i : ℕ) (hbefore : ∀ j < i, a j = b j) :
    (strncmpLoop a b n i = (0 - 1, i + n) ∧ ∀ j < i + n, a j = b j) ∨
    ∃ e, i ≤ e ∧ e < i + n ∧ strncmpLoop a b n i = (UInt32.ofNat (i + n - 1 - e), e) ∧
      (∀ j < e, a j = b j) ∧ (a e = 0 ∨ a e ≠ b e) := by
  induction n generalizing i with
  | zero => exact .inl ⟨rfl, hbefore⟩
  | succ n ih =>
      unfold strncmpLoop
      split_ifs with hnext
      · have hbefore' : ∀ j < i + 1, a j = b j := by
          intro j hj
          rcases Nat.lt_succ_iff_lt_or_eq.mp hj with hj | rfl
          · exact hbefore j hj
          · exact hnext.2
        rcases ih (i + 1) hbefore' with ⟨hloop, hall⟩ | ⟨e, h1, h2, hloop, hall, hexit⟩
        · refine .inl ⟨?_, ?_⟩
          · rw [hloop, show i + 1 + n = i + (n + 1) by omega]
          · rwa [show i + (n + 1) = i + 1 + n by omega]
        · refine .inr ⟨e, by omega, by omega, ?_, hall, hexit⟩
          rw [hloop, show i + 1 + n - 1 - e = i + (n + 1) - 1 - e by omega]
      · refine .inr ⟨i, le_rfl, by omega, ?_, hbefore, ?_⟩
        · rw [show i + (n + 1) - 1 - i = n by omega]
        · rw [not_and_or, not_not] at hnext
          exact hnext

/-- What a comparison of the first `n` characters should return. -/
structure ComparesFirst (a b : CString) (n : ℕ) (r : ℤ) : Prop where
  zero_iff : r = 0 ↔ a.chars.take n = b.chars.take n
  sign_eq : ∀ i < n, DifferFirst a b i → r.sign = ((a.ptr i).toNat - (b.ptr i).toNat : ℤ).sign

theorem ComparesFirst.of_eq (a : CString) (n : ℕ) : ComparesFirst a a n 0 :=
  ⟨iff_of_true rfl rfl, fun _ _ h => absurd rfl h.2⟩

theorem DifferFirst.comparesFirst {a b : CString} {n e : ℕ} (h : DifferFirst a b e) (he : e < n) :
    ComparesFirst a b n ((a.ptr e).toNat - (b.ptr e).toNat) := by
  refine ⟨?_, fun i _ hi => by rw [h.unique hi]⟩
  rw [toNat_sub_eq_zero, take_eq_iff]
  exact iff_of_false h.2 fun hall => h.2 (hall e he)

theorem ofNat_eq_zero {n : ℕ} (hn : n < 2 ^ 32) : UInt32.ofNat n = 0 ↔ n = 0 := by
  rw [← UInt32.toNat_inj, UInt32.toNat_ofNat_of_lt' hn]
  rfl

/-- **`luna_strncmp`** compares the first `n` characters exactly if the strings do not differ for the first
time at the last of them or right behind them. -/
theorem lunaStrncmp_iff (a b : CString) (n : UInt32) :
    ComparesFirst a b n.toNat (lunaStrncmp a.ptr b.ptr n) ↔
      ∀ i, DifferFirst a b i → i + 1 ≠ n.toNat ∧ i ≠ n.toNat := by
  have hn := n.toNat_lt
  unfold lunaStrncmp
  rcases strncmpLoop_cases a.ptr b.ptr n.toNat 0 fun j hj => absurd hj (Nat.not_lt_zero j) with
    ⟨hloop, hall⟩ | ⟨e, _, hlt, hloop, hall, hexit⟩
  · -- all `n` characters agree
    rw [Nat.zero_add] at hloop hall
    have hnone : ∀ i < n.toNat, ¬ DifferFirst a b i := fun i hi h => h.2 (hall i hi)
    rw [hloop]
    dsimp only
    rw [if_neg (by decide)]
    constructor
    · intro h i hi
      have hle := Nat.le_of_not_lt fun hlt => hnone i hlt hi
      refine ⟨by omega, ?_⟩
      rintro rfl
      have hzero := h.zero_iff.mpr (take_eq_iff.mpr hall)
      exact hi.2 (toNat_sub_eq_zero.mp hzero)
    · intro h
      refine ⟨iff_of_true ?_ (take_eq_iff.mpr hall), fun i hi hdiffer => absurd hdiffer (hnone i hi)⟩
      by_contra hne
      rw [toNat_sub_eq_zero] at hne
      exact (h n.toNat ⟨hall, hne⟩).2 rfl
  · rw [Nat.zero_add] at hloop hlt
    rw [hloop]
    dsimp only
    simp only [ofNat_eq_zero (show n.toNat - 1 - e < 2 ^ 32 by omega)]
    by_cases heq : a.ptr e = b.ptr e
    · -- both strings end at `e`
      have hzero : a.ptr e = 0 := hexit.resolve_right (not_not_intro heq)
      obtain rfl : a = b := by
        refine eq_of_ptr fun j => ?_
        rcases Nat.lt_or_ge j e with hj | hj
        · exact hall j hj
        · exact ptr_eq_of_zero hzero heq hj
      rw [sub_self, ite_self]
      exact iff_of_true (.of_eq a _) fun i hi => absurd rfl hi.2
    · have hfirst : DifferFirst a b e := ⟨hall, heq⟩
      split_ifs with hlast
      · -- the last of the `n` characters
        refine iff_of_false (fun h => ?_) fun h => (h e hfirst).1 (by omega)
        have htake := h.zero_iff.mp rfl
        exact heq (take_eq_iff.mp htake e hlt)
      · refine iff_of_true (hfirst.comparesFirst hlt) fun i hi => ?_
        rw [hi.unique hfirst]
        omega

/-- `luna_strncmp("ab", "ac", 2)` is zero. -/
theorem lunaStrncmp_last_differs : ∃ a b : CString, a.chars = [97, 98] ∧ b.chars = [97, 99] ∧
    lunaStrncmp a.ptr b.ptr 2 = 0 ∧ ¬ ComparesFirst a b 2 (lunaStrncmp a.ptr b.ptr 2) := by
  refine ⟨literal "ab" (by decide), literal "ac" (by decide), rfl, rfl, by decide, fun h => ?_⟩
  have htake := h.zero_iff.mp (by decide)
  exact absurd htake (by decide)

end LunaOs
