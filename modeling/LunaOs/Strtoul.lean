import LunaOs.PrintfText

/-! # Reading numbers, `luna_strtoul` of `kernel/string.c`

The parser skips spaces and, in base 16, a prefix `0x`, and reads digits as long as they are below the
base.  It undoes what `luna_snprintf` prints for an unsigned number, whatever the padding.

A string is the list of its characters before the NUL; what is left of it stands for `*end`. -/

namespace LunaOs

/-- The value of a digit, upper or lower case. -/
def digitValue (c : UInt8) : Option ℕ :=
  if 48 ≤ c ∧ c ≤ 57 then some (c.toNat - 48)
  else if 97 ≤ c ∧ c ≤ 102 then some (c.toNat - 97 + 10)
  else if 65 ≤ c ∧ c ≤ 70 then some (c.toNat - 65 + 10)
  else none

def strtoulLoop (base : ℤ) : List UInt8 → UInt32 → UInt32 × List UInt8
  | [], result => (result, [])
  | c :: s, result =>
      match digitValue c with
      | none => (result, c :: s)
      | some d =>
          if (d : ℤ) ≥ base then (result, c :: s)
          else strtoulLoop base s (result * UInt32.ofInt base + UInt32.ofNat d)

/-- `if (base == 16 && s[0] == '0' && (s[1]=='x'||s[1]=='X')) s += 2;` -/
def skipPrefix (base : ℤ) : List UInt8 → List UInt8
  | c :: c' :: s => if base = 16 ∧ c = 48 ∧ (c' = 120 ∨ c' = 88) then s else c :: c' :: s
  | s => s

/-- The result and the characters from `*end` on. -/
def lunaStrtoul (s : CString) (base : ℤ) : UInt32 × List UInt8 :=
  strtoulLoop base (skipPrefix base (s.chars.dropWhile (· = 32))) 0

/-! ### Digits -/

/-- `c` is a digit below the base. -/
def IsDigitOf (base : ℕ) (c : UInt8) (d : ℕ) : Prop := digitValue c = some d ∧ d < base

theorem ofInt_natCast (n : ℕ) : UInt32.ofInt (n : ℤ) = UInt32.ofNat n := by
  have hmod : ((n : ℤ) % 2 ^ 32).toNat = n % 2 ^ 32 := by omega
  unfold UInt32.ofInt
  rw [hmod, ← UInt32.toNat_inj, UInt32.toNat_ofNat', UInt32.toNat_ofNat', Nat.mod_mod]

theorem strtoulLoop_digit {base : ℕ} {c : UInt8} {d : ℕ} (h : IsDigitOf base c d) (s : List UInt8)
    (result : UInt32) :
    strtoulLoop base (c :: s) result =
      strtoulLoop base s (result * UInt32.ofNat base + UInt32.ofNat d) := by
  obtain ⟨hvalue, hlt⟩ := h
  have hbelow : ¬ ((d : ℤ) ≥ base) := by omega
  simp only [strtoulLoop, hvalue, if_neg hbelow, ofInt_natCast]

/-- Digits, the first one last, and more characters behind them. -/
theorem strtoulLoop_digits {base : ℕ} {chr : ℕ → UInt8} (hchr : ∀ d < base, IsDigitOf base (chr d) d)
    {ds : List ℕ} (hds : ∀ d ∈ ds, d < base) (s : List UInt8) :
    strtoulLoop base ((ds.map chr).reverse ++ s) 0 =
      strtoulLoop base s (UInt32.ofNat (Nat.ofDigits base ds)) := by
  induction ds generalizing s with
  | nil => rfl
  | cons d ds ih =>
      obtain ⟨hd, hrest⟩ := List.forall_mem_cons.mp hds
      rw [List.map_cons, List.reverse_cons, List.append_assoc, ih hrest, List.singleton_append,
        strtoulLoop_digit (hchr d hd), Nat.ofDigits_cons, UInt32.ofNat_add, UInt32.ofNat_mul]
      congr 1
      grind

theorem strtoulLoop_zeros {base : ℕ} (hbase : 0 < base) (n : ℕ) (s : List UInt8) :
    strtoulLoop base (List.replicate n 48 ++ s) 0 = strtoulLoop base s 0 := by
  induction n with
  | zero => rfl
  | succ n ih =>
      have hzero : IsDigitOf base 48 0 := ⟨by decide, hbase⟩
      rw [List.replicate_succ, List.cons_append, strtoulLoop_digit hzero]
      simpa using ih

/-- A character that is no terminator, no space and no part of a prefix. -/
def Plain (c : UInt8) : Prop := c ≠ 0 ∧ c ≠ 32 ∧ c ≠ 120 ∧ c ≠ 88

instance (c : UInt8) : Decidable (Plain c) := inferInstanceAs (Decidable (_ ∧ _ ∧ _ ∧ _))

/-- The digits of the base that `luna_snprintf` prints are those `luna_strtoul` reads. -/
structure DigitsAgree (base : ℕ) (upper : Bool) : Prop where
  one_lt : 1 < base
  digit : ∀ d < base, IsDigitOf base ((if upper then digitsUpper else digitsLower).getD d 0) d
  plain : ∀ d < base, Plain ((if upper then digitsUpper else digitsLower).getD d 0)

theorem digitsAgree_ten : DigitsAgree 10 false := by
  constructor
  · decide
  · unfold IsDigitOf
    decide
  · decide

theorem digitsAgree_sixteen (upper : Bool) : DigitsAgree 16 upper := by
  constructor
  · decide
  · unfold IsDigitOf
    revert upper
    decide
  · revert upper
    decide

/-- Spaces are skipped, and nothing else of a number. -/
theorem skip_spaces (base : ℤ) (n : ℕ) {s : List UInt8} (h : ∀ c ∈ s, Plain c) :
    skipPrefix base ((List.replicate n 32 ++ s).dropWhile (· = 32)) = s := by
  have hpad : ∀ c ∈ List.replicate n (32 : UInt8), decide (c = 32) = true := by
    intro c hc
    simp [List.eq_of_mem_replicate hc]
  rw [List.dropWhile_append_of_pos hpad]
  rcases s with _ | ⟨c, _ | ⟨c', s⟩⟩
  · rfl
  · simp [(h c List.mem_cons_self).2.1, skipPrefix]
  · obtain ⟨_, _, hx, hX⟩ := h c' (by simp)
    simp [(h c List.mem_cons_self).2.1, skipPrefix, hx, hX]

section
variable {base : ℕ} {upper : Bool}

/-- The digits of a number, the last one first. -/
def digitsOf (base val : ℕ) : List ℕ := if val = 0 then [0] else Nat.digits base val

theorem digitsOf_lt (hbase : 1 < base) {val d : ℕ} (hd : d ∈ digitsOf base val) : d < base := by
  unfold digitsOf at hd
  split_ifs at hd
  · rw [List.mem_singleton.mp hd]
    omega
  · exact Nat.digits_lt_base hbase hd

theorem ofDigits_digitsOf (base val : ℕ) : Nat.ofDigits base (digitsOf base val) = val := by
  unfold digitsOf
  split_ifs with hzero
  · simp [hzero]
  · exact Nat.ofDigits_digits base val

theorem digitBuffer_eq_map (h : DigitsAgree base upper) (val : BitVec 64) :
    digitBuffer val base upper =
      (digitsOf base val.toNat).map fun d => (if upper then digitsUpper else digitsLower).getD d 0 := by
  have hfirst : (if upper then digitsUpper else digitsLower).getD 0 0 = 48 := by
    cases upper <;> decide
  rw [digitBuffer_eq val h.one_lt]
  unfold digitsOf
  by_cases hzero : val.toNat = 0
  · rw [if_pos hzero, if_pos hzero, List.map_singleton, hfirst]
  · rw [if_neg hzero, if_neg hzero]

theorem digitBuffer_plain (h : DigitsAgree base upper) (val : BitVec 64) :
    ∀ c ∈ (digitBuffer val base upper).reverse, Plain c := by
  intro c hc
  rw [List.mem_reverse, digitBuffer_eq_map h] at hc
  obtain ⟨d, hd, rfl⟩ := List.mem_map.mp hc
  exact h.plain d (digitsOf_lt h.one_lt hd)

theorem strtoulLoop_digitBuffer (h : DigitsAgree base upper) (v : BitVec 32) (n : ℕ) :
    strtoulLoop base (List.replicate n 48 ++ (digitBuffer (v.setWidth 64) base upper).reverse) 0 =
      (⟨v⟩, []) := by
  have hval : (v.setWidth 64).toNat = v.toNat := by
    rw [BitVec.toNat_setWidth]
    exact Nat.mod_eq_of_lt (v.isLt.trans (by decide))
  have hbelow : ∀ d ∈ digitsOf base v.toNat, d < base := fun d hd => digitsOf_lt h.one_lt hd
  have hdigits := strtoulLoop_digits h.digit hbelow []
  have hword : UInt32.ofNat v.toNat = ⟨v⟩ := UInt32.ofNat_toNat (x := ⟨v⟩)
  rw [strtoulLoop_zeros (Nat.zero_lt_of_lt h.one_lt), digitBuffer_eq_map h, hval]
  rw [List.append_nil, ofDigits_digitsOf, hword] at hdigits
  exact hdigits

theorem uintText_nonzero (h : DigitsAgree base upper) (val : BitVec 64) (width : ℤ) {padCh : UInt8}
    (hpad : padCh = 32 ∨ padCh = 48) : ∀ c ∈ uintText val base upper width padCh, c ≠ 0 := by
  intro c hc
  rcases List.mem_append.mp hc with hfill | hdigit
  · rw [List.eq_of_mem_replicate hfill]
    rcases hpad with rfl | rfl <;> decide
  · exact (digitBuffer_plain h val c hdigit).1

theorem lunaStrtoul_uintText (h : DigitsAgree base upper) {s : CString} {v : BitVec 32} {width : ℤ}
    {padCh : UInt8} (hpad : padCh = 32 ∨ padCh = 48)
    (hs : s.chars = uintText (v.setWidth 64) base upper width padCh) : lunaStrtoul s base = (⟨v⟩, []) := by
  have hplain := digitBuffer_plain h (v.setWidth 64)
  unfold lunaStrtoul
  unfold uintText at hs
  rw [hs]
  set n := (width - (digitBuffer (v.setWidth 64) base upper).length).toNat
  rcases hpad with rfl | rfl
  · rw [skip_spaces base n hplain]
    exact strtoulLoop_digitBuffer h v 0
  · have hzeros : ∀ c ∈ List.replicate n 48 ++ (digitBuffer (v.setWidth 64) base upper).reverse,
        Plain c := by
      intro c hc
      rcases List.mem_append.mp hc with hzero | hdigit
      · rw [List.eq_of_mem_replicate hzero]
        decide
      · exact hplain c hdigit
    have hskip := skip_spaces base 0 hzeros
    rw [List.replicate_zero, List.nil_append] at hskip
    rw [hskip]
    exact strtoulLoop_digitBuffer h v n

/-- A pointer is read back: the prefix is skipped. -/
theorem lunaStrtoul_ptrText {s : CString} {v : BitVec 32}
    (hs : s.chars = 48 :: 120 :: uintText (v.setWidth 64) 16 false 8 48) :
    lunaStrtoul s 16 = (⟨v⟩, []) := by
  have hread := strtoulLoop_digitBuffer (digitsAgree_sixteen false) v
    ((8 : ℤ) - (digitBuffer (v.setWidth 64) 16 false).length).toNat
  unfold lunaStrtoul
  rw [hs]
  exact hread

end

/-! ### Print and read back -/

/-- The conversion of an unsigned number or a pointer `v`, and the base to read its text in. -/
inductive Printed (v : BitVec 32) : UInt8 → VaArg → ℤ → Prop where
  | uint : Printed v 117 (.int v) 10
  | hex : Printed v 120 (.int v) 16
  | hexUpper : Printed v 88 (.int v) 16
  | ptr : Printed v 112 (.ptr v) 16

theorem padOf_cases (ds : List UInt8) : padOf ds = 32 ∨ padOf ds = 48 := by
  unfold padOf
  split_ifs
  · exact .inr rfl
  · exact .inl rfl

/-- Each of the four conversions says a text that is read back. -/
theorem Printed.formats {v : BitVec 32} {c : UInt8} {arg : VaArg} {base : ℤ} (h : Printed v c arg base)
    {ds : List UInt8} (hds : ∀ d ∈ ds, isDigit d) :
    ∃ s : CString, Formats (37 :: (ds ++ [c])) [arg] (s.chars ++ []) [[arg]] ∧
      lunaStrtoul s base = (⟨v⟩, []) := by
  have hpad := padOf_cases ds
  cases h with
  | uint =>
      exact ⟨⟨_, uintText_nonzero digitsAgree_ten _ _ hpad⟩,
        .conversion hds (by decide) rfl rfl (.done []), lunaStrtoul_uintText digitsAgree_ten hpad rfl⟩
  | hex =>
      exact ⟨⟨_, uintText_nonzero (digitsAgree_sixteen false) _ _ hpad⟩,
        .conversion hds (by decide) rfl rfl (.done []),
        lunaStrtoul_uintText (digitsAgree_sixteen false) hpad rfl⟩
  | hexUpper =>
      exact ⟨⟨_, uintText_nonzero (digitsAgree_sixteen true) _ _ hpad⟩,
        .conversion hds (by decide) rfl rfl (.done []),
        lunaStrtoul_uintText (digitsAgree_sixteen true) hpad rfl⟩
  | ptr =>
      have hnonzero : ∀ c ∈ 48 :: 120 :: uintText (v.setWidth 64) 16 false 8 48, c ≠ 0 := by
        intro c hc
        rcases List.mem_cons.mp hc with rfl | hc
        · decide
        · rcases List.mem_cons.mp hc with rfl | hc
          · decide
          · exact uintText_nonzero (digitsAgree_sixteen false) _ _ (.inr rfl) c hc
      exact ⟨⟨_, hnonzero⟩, .conversion hds (by decide) rfl rfl (.done []), lunaStrtoul_ptrText rfl⟩

/-- **Printed numbers parse back**: `%u` in base 10, `%x`, `%X` and `%p` in base 16, with any digits for
padding and width, into a buffer that is large enough; the end pointer is at the NUL. -/
theorem lunaStrtoul_lunaSnprintf (v : BitVec 32) (ds : List UInt8) (hds : ∀ d ∈ ds, isDigit d)
    (c : UInt8) (arg : VaArg) (base : ℤ) (h : Printed v c arg base)
    (fmt : CString) (hfmt : fmt.chars = 37 :: (ds ++ [c])) :
    ∃ t : CString, ∀ (size k : ℕ) (buf : Vector UInt8 k), t.chars.length < size → size ≤ k →
      ∃ buf', lunaSnprintf buf size fmt [arg] = some (t.chars.length, buf') ∧
        textAt (arrayPtr buf') k = t ∧ lunaStrtoul (textAt (arrayPtr buf') k) base = (⟨v⟩, []) := by
  obtain ⟨t, hformats, hread⟩ := h.formats hds
  rw [← hfmt, List.append_nil] at hformats
  refine ⟨t, ?_⟩
  intro size k buf hsize hk
  obtain ⟨r, hret, hlength, htext⟩ :=
    lunaSnprintf_text (hformats.produces size) buf (by omega) hk t.nonzero
  have hall : (textAt (arrayPtr r.2) k).chars = t.chars := by
    rw [htext k (by omega)]
    exact List.take_of_length_le (by omega)
  have hstring := CString.eq_of_chars hall
  refine ⟨r.2, ?_, hstring, by rw [hstring, hread]⟩
  rw [hret, ← Nat.min_eq_left (show t.chars.length ≤ size - 1 by omega), ← hlength]

theorem lunaStrtoul_lunaSnprintf_hex :
    ∃ t : CString, ∀ (size k : ℕ) (buf : Vector UInt8 k), t.chars.length < size → size ≤ k →
      ∃ buf', lunaSnprintf buf size (literal "%08x") [.int 0xB8000] = some (t.chars.length, buf') ∧
        textAt (arrayPtr buf') k = t ∧ lunaStrtoul (textAt (arrayPtr buf') k) 16 = (0xB8000, []) :=
  lunaStrtoul_lunaSnprintf 0xB8000 [48, 56] (List.all_eq_true.mp (by decide)) 120 _ 16 .hex
    (literal "%08x") (by decide)

end LunaOs
