import LunaOs.PrintfText

/-! # Truncation

Text is cut off in two places: the loop over the format stops once the buffer is full, and
`write_char` drops what no longer fits.  Whatever the format, both together leave a prefix of the text
that a larger buffer would hold, with a NUL behind it, and touch nothing from `buf[size]` on. -/

namespace LunaOs

/-! ### Complete formats -/

/-- The arguments a conversion is meant for. -/
def Conversion.Takes : Conversion → List VaArg → Prop
  | .str, l => ∃ a : Option CString, l = [.str a] ∧ ∀ s ∈ a, s.chars.length < 2 ^ 31
  | .chr, l | .int, l | .uint, l | .hex, l | .hexUpper, l => ∃ v, l = [.int v]
  | .ptr, l => ∃ v, l = [.ptr v]
  | .long, l | .ulong, l | .hexLong, l => ∃ v, l = [.long v]
  | .longOther, l | .percent, l | .other, l => l = []

/-- Each `%` begins a complete conversion with a width below 2^31, and the arguments match; there may be
more of them than the format takes. -/
inductive Complete : List UInt8 → List VaArg → Prop where
  | done (args : List VaArg) : Complete [] args
  | char {c : UInt8} {fmt : List UInt8} {args : List VaArg} (hc : c ≠ 37) (h : Complete fmt args) :
      Complete (c :: fmt) args
  | conversion {ds fmt rest : List UInt8} {c : UInt8} {cv : Conversion} {taken args : List VaArg}
      (hds : ∀ d ∈ ds, isDigit d) (hwidth : decimal ds < 2 ^ 31) (hc : isDigit c = false)
      (hread : readConversion (c :: fmt) = some (cv, rest)) (htakes : cv.Takes taken)
      (h : Complete rest args) : Complete (37 :: (ds ++ c :: fmt)) (taken ++ args)

theorem Conversion.Takes.text {cv : Conversion} {taken : List VaArg} (h : cv.Takes taken) (width : ℤ)
    (padCh : UInt8) (args : List VaArg) : ∃ u, cv.text width padCh (taken ++ args) = some (u, args) := by
  cases cv
  case str =>
    obtain ⟨a, rfl, _⟩ := h
    exact ⟨_, rfl⟩
  case longOther | percent | other =>
    obtain rfl := h
    exact ⟨_, rfl⟩
  all_goals
    obtain ⟨v, rfl⟩ := h
    exact ⟨_, rfl⟩

theorem Complete.formats {fmt : List UInt8} {args : List VaArg} (h : Complete fmt args) :
    ∃ t taken, Formats fmt args t taken := by
  induction h with
  | done args => exact ⟨[], [], .done args⟩
  | char hc _ ih =>
      obtain ⟨t, taken, hformats⟩ := ih
      exact ⟨_, taken, .char hc hformats⟩
  | conversion hds _ hc hread htakes _ ih =>
      obtain ⟨t, taken, hformats⟩ := ih
      obtain ⟨u, htext⟩ := htakes.text _ _ _
      exact ⟨_, _, .conversion hds hc hread htext hformats⟩

/-! ### Nothing is written behind the buffer -/

/-- From `n` on the buffers agree. -/
def OutBuf.SameFrom {k : ℕ} (n : ℕ) (o o' : OutBuf k) : Prop :=
  ∀ i, n ≤ i → i < k → arrayPtr o'.buf i = arrayPtr o.buf i

section
variable {k max : ℕ} {o o' : OutBuf k}

theorem writeChar_sameFrom (o : OutBuf k) (c : UInt8) :
    o.SameFrom (max - 1) (writeChar max o c) := by
  intro i hi hik
  unfold writeChar
  split_ifs with hroom
  · rw [arrayPtr_setIfInBounds _ _ _ (by omega), if_neg (by omega)]
  · rfl

theorem writeChars_sameFrom (o : OutBuf k) (t : List UInt8) :
    o.SameFrom (max - 1) (writeChars max o t) := by
  induction t generalizing o with
  | nil => exact fun _ _ _ => rfl
  | cons c t ih =>
      intro i hi hik
      rw [writeChars_cons, ih _ i hi hik, writeChar_sameFrom o c i hi hik]

theorem snprintfLoop_sameFrom {fuel : ℕ} {fmt : List UInt8} {args : List VaArg}
    (h : snprintfLoop max fuel fmt args o = some o') : o.SameFrom (max - 1) o' := by
  induction fuel generalizing fmt args o with
  | zero =>
      cases h
      exact fun _ _ _ => rfl
  | succ fuel ih =>
      cases fmt with
      | nil =>
          cases h
          exact fun _ _ _ => rfl
      | cons c fmt =>
          unfold snprintfLoop at h
          dsimp only at h
          split_ifs at h
          · intro i hi hik
            rw [ih h i hi hik, writeChar_sameFrom o c i hi hik]
          · rw [convert_eq] at h
            obtain ⟨⟨o₁, fmt', args'⟩, hconvert, hrest⟩ := Option.bind_eq_some_iff.mp h
            obtain ⟨⟨cv, rest⟩, _, hmap⟩ := Option.bind_eq_some_iff.mp hconvert
            obtain ⟨⟨t, args''⟩, _, hwritten⟩ := Option.map_eq_some_iff.mp hmap
            cases hwritten
            intro i hi hik
            rw [ih hrest i hi hik, writeChars_sameFrom o t i hi hik]
          · cases h
            exact fun _ _ _ => rfl

end

/-- **Bounded formatting truncates cleanly**: there is one text for the format and its arguments, and for
every size the buffer holds its first `size - 1` characters, the length returned and a NUL behind them;
`buf[size]` and what follows keep their values, and no number fills the buffer for its digits. -/
theorem lunaSnprintf_truncates (fmt : CString) (args : List VaArg) (h : Complete fmt.chars args) :
    (∃ t : List UInt8, ∀ (size k : ℕ) (buf : Vector UInt8 k), 1 ≤ size → size ≤ k →
      ∃ r buf', lunaSnprintf buf size fmt args = some (r, buf') ∧ r = min t.length (size - 1) ∧
        bytesFrom (arrayPtr buf') r = t.take (size - 1) ∧ arrayPtr buf' r = 0 ∧
        ∀ i, size ≤ i → i < k → arrayPtr buf' i = arrayPtr buf i) ∧
    ∀ (val : BitVec 64) (upper : Bool),
      (digitBuffer val 10 upper).length ≤ 24 ∧ (digitBuffer val 16 upper).length ≤ 24 := by
  obtain ⟨t, taken, hformats⟩ := h.formats
  refine ⟨⟨t, ?_⟩, ?_⟩
  · intro size k buf hsize hk
    obtain ⟨o, hloop, hret, hpos, hbytes, hzero⟩ :=
      lunaSnprintf_bytes (hformats.produces size) buf hsize hk
    refine ⟨o.pos, _, hret, hpos, hbytes, hzero, ?_⟩
    intro i hi hik
    rw [arrayPtr_setIfInBounds _ _ _ hik, if_neg (by omega)]
    exact snprintfLoop_sameFrom hloop i (by omega) hik
  · intro val upper
    exact ⟨(digitBuffer_length_le val (by decide) upper (n := 20) (by decide) (by decide)).trans (by decide),
      (digitBuffer_length_le val (by decide) upper (n := 16) (by decide) (by decide)).trans (by decide)⟩

/-- A number in a field padded with zeros, cut off anywhere. -/
theorem lunaSnprintf_truncates_field :
    ∃ t : List UInt8, ∀ (size k : ℕ) (buf : Vector UInt8 k), 1 ≤ size → size ≤ k →
      ∃ r buf', lunaSnprintf buf size (literal "%06u bytes") [.int 42] = some (r, buf') ∧
        r = min t.length (size - 1) := by
  have hdigits : ∀ d ∈ ([48, 54] : List UInt8), isDigit d := List.all_eq_true.mp (by decide)
  have htext : Complete (ascii " bytes") [] := by
    refine .char ?_ (.char ?_ (.char ?_ (.char ?_ (.char ?_ (.char ?_ (.done [])))))) <;> decide
  have hcomplete : Complete (literal "%06u bytes").chars ([.int 42] ++ []) :=
    .conversion (c := 117) hdigits (by decide) (by decide) rfl ⟨42, rfl⟩ htext
  obtain ⟨⟨t, ht⟩, _⟩ := lunaSnprintf_truncates (literal "%06u bytes") [.int 42] hcomplete
  refine ⟨t, ?_⟩
  intro size k buf hsize hk
  obtain ⟨r, buf', hret, hr, _⟩ := ht size k buf hsize hk
  exact ⟨r, buf', hret, hr⟩

end LunaOs
