import LunaOs.Lib.CInt
import LunaOs.StringSearch
import Mathlib.Data.List.TakeWhile

/-! # The tokens of a script, `lexer_next_token` of `user/lexer/lexer.c`

The loop over the blanks has a branch that counts lines, but a newline ends this loop before the branch is
reached.  A newline becomes a token of its own, an identifier, and the line stays one. -/

namespace LunaOs

/-- The types that the lexer, its caller and the positions of its tokens speak of. -/
inductive TokenType where
  | ident | newline | eof | error
deriving DecidableEq

/-- A token; its text is `as_str` up to the NUL. -/
structure Token where
  type : TokenType
  line : ℤ
  col : ℤ
  asStr : List UInt8
deriving DecidableEq

/-- The static variables of the lexer besides the source. -/
structure LexState where
  pos : ℤ
  line : ℤ
  col : ℤ
deriving DecidableEq

def lexerInit : LexState := ⟨0, 1, 1⟩

/-- The loop over the blanks, over the characters from `src[pos]` on. -/
def skipBlanks : List UInt8 → LexState → Option LexState
  | [], st => some st
  | c :: rest, st =>
      if c = 32 ∨ c = 9 ∨ c = 13 then do
        let st ←
          if c = 10 then do
            let line ← CInt.result (st.line + 1)
            some { st with line := line, col := 1 }
          else do
            let col ← CInt.result (st.col + 1)
            some { st with col := col }
        let pos ← CInt.result (st.pos + 1)
        skipBlanks rest { st with pos := pos }
      else some st

/-- The token and the next state; an overflow of an `int` is a fault. -/
def lexerNextToken (src : CString) (st : LexState) : Option (Token × LexState) := do
  let st ← skipBlanks (src.chars.drop st.pos.toNat) st
  let c := src.ptr st.pos.toNat
  if c = 0 then some (⟨.eof, 0, 0, []⟩, st)
  else do
    let pos ← CInt.result (st.pos + 1)
    let col ← CInt.result (st.col + 1)
    some (⟨.ident, st.line, st.col, [c]⟩, { st with pos := pos, col := col })

/-- The loop of `parser_parse` with at most `n` calls: the tokens before the first `TOK_EOF`. -/
def lexTokens (src : CString) : ℕ → LexState → Option (List Token)
  | 0, _ => none
  | n + 1, st => do
      let (tok, st) ← lexerNextToken src st
      if tok.type ≠ .eof ∧ tok.type ≠ .error then do
        let toks ← lexTokens src n st
        return tok :: toks
      else some []

/-! ### True positions -/

/-- One plus the number of newlines. -/
def lineBehind (before : List UInt8) : ℤ := 1 + before.count 10

/-- One plus the number of characters behind the last newline. -/
def colBehind (before : List UInt8) : ℤ := 1 + (before.reverse.takeWhile (· ≠ 10)).length

/-- The characters between tokens. -/
def isGap (c : UInt8) : Bool := c = 32 || c = 9 || c = 13 || c = 10

/-- The tokens cover a text, which stands behind `before`, up to blanks and newlines between them, and each
has the position of its first character. -/
inductive Covers : List UInt8 → List UInt8 → List Token → Prop
  | done {before gap : List UInt8} (hgap : ∀ c ∈ gap, isGap c) : Covers before gap []
  | token {before gap rest : List UInt8} {tok : Token} {toks : List Token} (hgap : ∀ c ∈ gap, isGap c)
      (htext : tok.asStr ≠ []) (hline : tok.line = lineBehind (before ++ gap))
      (hcol : tok.col = colBehind (before ++ gap)) (hnewline : 10 ∈ tok.asStr → tok.type = .newline)
      (hrest : Covers (before ++ gap ++ tok.asStr) rest toks) :
      Covers before (gap ++ (tok.asStr ++ rest)) (tok :: toks)

/-- The lexer returns tokens up to an end of file, and they are true. -/
def TokensTrue (src : CString) : Prop :=
  ∃ n toks, lexTokens src n lexerInit = some toks ∧ Covers [] src.chars toks

/-! ### What the lexer does -/

/-- The state at an offset: the line is never counted. -/
def lexAt (i : ℕ) : LexState := ⟨i, 1, i + 1⟩

/-- A character that the loop skips. -/
def isSkipped (c : UInt8) : Bool := c = 32 || c = 9 || c = 13

/-- Every other character is a token. -/
def charTokens : ℕ → List UInt8 → List Token
  | _, [] => []
  | i, c :: rest => if isSkipped c then charTokens (i + 1) rest else ⟨.ident, 1, i + 1, [c]⟩ :: charTokens (i + 1) rest

section
variable {src : CString} {before gap l : List UInt8} {toks : List Token} {i n : ℕ}

theorem result_succ (i : ℕ) : CInt.result ((i : ℤ) + 1) =
    if i < 2147483647 then some ((i + 1 : ℕ) : ℤ) else none := by
  split_ifs with hlt
  · rw [CInt.result_eq (by omega), Nat.cast_succ]
  · exact CInt.result_eq_none (by omega)

theorem result_pos (i : ℕ) : CInt.result ((lexAt i).pos + 1) =
    if i < 2147483647 then some ((i + 1 : ℕ) : ℤ) else none := result_succ i

theorem result_col (i : ℕ) : CInt.result ((lexAt i).col + 1) =
    if i + 1 < 2147483647 then some ((i + 1 + 1 : ℕ) : ℤ) else none := by
  rw [← result_succ, Nat.cast_succ]
  rfl

/-- The branch that counts lines is never taken. -/
theorem skipBlanks_cons {c : UInt8} (hc : isSkipped c) (rest : List UInt8) (st : LexState) :
    skipBlanks (c :: rest) st = (CInt.result (st.col + 1)).bind fun col =>
      (CInt.result (st.pos + 1)).bind fun pos => skipBlanks rest ⟨pos, st.line, col⟩ := by
  have hskip : c = 32 ∨ c = 9 ∨ c = 13 := by simpa [isSkipped, or_assoc] using hc
  have hnewline : c ≠ 10 := by
    rintro rfl
    exact absurd hc (by decide)
  rw [skipBlanks, if_pos hskip, if_neg hnewline]
  cases CInt.result (st.col + 1) <;> rfl

theorem skipBlanks_lexAt {c : UInt8} (hc : isSkipped c) (rest : List UInt8) :
    skipBlanks (c :: rest) (lexAt i) =
      if i + 1 < 2147483647 then skipBlanks rest (lexAt (i + 1)) else none := by
  rw [skipBlanks_cons hc, result_col, result_pos]
  by_cases hlt : i + 1 < 2147483647
  · rw [if_pos hlt, if_pos hlt, if_pos (Nat.lt_of_succ_lt hlt), Option.bind_some, Option.bind_some]
    rfl
  · rw [if_neg hlt, if_neg hlt]
    rfl

theorem drop_succ_of_drop {c : UInt8} {rest : List UInt8} (h : src.chars.drop i = c :: rest) :
    src.chars.drop (i + 1) = rest := by
  rw [← List.drop_drop, h]
  rfl

theorem lexerNextToken_skip {c : UInt8} {rest : List UInt8} (h : src.chars.drop i = c :: rest)
    (hc : isSkipped c) : lexerNextToken src (lexAt i) =
      if i + 1 < 2147483647 then lexerNextToken src (lexAt (i + 1)) else none := by
  have hpos : ∀ k, (lexAt k).pos.toNat = k := fun k => rfl
  unfold lexerNextToken
  rw [hpos, hpos, h, drop_succ_of_drop h, skipBlanks_lexAt hc]
  split_ifs <;> rfl

theorem lexerNextToken_char {c : UInt8} {rest : List UInt8} (h : src.chars.drop i = c :: rest)
    (hc : isSkipped c = false) : lexerNextToken src (lexAt i) =
      if i + 1 < 2147483647 then some (⟨.ident, 1, i + 1, [c]⟩, lexAt (i + 1)) else none := by
  have hstay : ¬ (c = 32 ∨ c = 9 ∨ c = 13) := by simpa [isSkipped, and_assoc] using hc
  have hget : src.chars[i]? = some c := by rw [← List.head?_drop, h, List.head?_cons]
  obtain ⟨hlt, hget⟩ := List.getElem?_eq_some_iff.mp hget
  have hptr : src.ptr i = c := (src.ptr_lt hlt).trans hget
  have hne : c ≠ 0 := by
    rw [← hget]
    exact src.nonzero _ (List.getElem_mem hlt)
  have hskip : skipBlanks (c :: rest) (lexAt i) = some (lexAt i) := if_neg hstay
  have hpos : (lexAt i).pos.toNat = i := rfl
  unfold lexerNextToken
  rw [hpos, h, hskip, Option.bind_eq_bind, Option.bind_some]
  dsimp only
  rw [hpos, hptr, if_neg hne, result_pos, result_col]
  split_ifs with hlt₁ hlt₂
  · rfl
  · rfl
  · omega
  · rfl

theorem lexerNextToken_end (h : src.chars.drop i = []) :
    lexerNextToken src (lexAt i) = some (⟨.eof, 0, 0, []⟩, lexAt i) := by
  have hptr : src.ptr i = 0 := src.ptr_ge (List.drop_eq_nil_iff.mp h)
  have hpos : (lexAt i).pos.toNat = i := rfl
  unfold lexerNextToken
  rw [hpos, h, skipBlanks, Option.bind_eq_bind, Option.bind_some]
  dsimp only
  rw [hpos, hptr, if_pos rfl]

theorem lexTokens_skip {c : UInt8} {rest : List UInt8} (h : src.chars.drop i = c :: rest) (hc : isSkipped c) :
    lexTokens src (n + 1) (lexAt i) =
      if i + 1 < 2147483647 then lexTokens src (n + 1) (lexAt (i + 1)) else none := by
  rw [lexTokens, lexTokens, lexerNextToken_skip h hc]
  split_ifs <;> rfl

theorem lexTokens_char {c : UInt8} {rest : List UInt8} (h : src.chars.drop i = c :: rest)
    (hc : isSkipped c = false) : lexTokens src (n + 1) (lexAt i) =
      if i + 1 < 2147483647 then
        (lexTokens src n (lexAt (i + 1))).map (⟨.ident, 1, i + 1, [c]⟩ :: ·) else none := by
  rw [lexTokens, lexerNextToken_char h hc]
  by_cases hlt : i + 1 < 2147483647
  · rw [if_pos hlt, if_pos hlt, Option.bind_eq_bind, Option.bind_some]
    dsimp only
    rw [if_pos (by decide)]
    cases lexTokens src n (lexAt (i + 1)) <;> rfl
  · rw [if_neg hlt, if_neg hlt]
    rfl

/-- **All calls**: the characters that are not skipped, or an overflow. -/
theorem lexTokens_eq (h : src.chars.drop i = l) (hi : i < 2147483647) (hn : l.length < n) :
    lexTokens src n (lexAt i) = if i + l.length < 2147483647 then some (charTokens i l) else none := by
  induction l generalizing i n with
  | nil =>
      obtain ⟨n, rfl⟩ := Nat.exists_eq_add_one_of_ne_zero (Nat.ne_of_gt hn)
      have hsum : i + ([] : List UInt8).length < 2147483647 := hi
      rw [if_pos hsum, lexTokens, lexerNextToken_end h]
      rfl
  | cons c rest ih =>
      obtain ⟨n, rfl⟩ := Nat.exists_eq_add_one_of_ne_zero (Nat.ne_of_gt (Nat.zero_lt_of_lt hn))
      rw [List.length_cons] at hn ⊢
      rw [show i + (rest.length + 1) = i + 1 + rest.length by omega]
      have hsum : i + 1 + rest.length < 2147483647 → i + 1 < 2147483647 := by omega
      by_cases hc : isSkipped c
      · rw [lexTokens_skip h hc, charTokens, if_pos hc]
        by_cases hlt : i + 1 < 2147483647
        · rw [if_pos hlt]
          exact ih (drop_succ_of_drop h) hlt (by omega)
        · rw [if_neg hlt, if_neg (mt hsum hlt)]
      · rw [lexTokens_char h (Bool.eq_false_iff.mpr hc), charTokens, if_neg hc]
        by_cases hlt : i + 1 < 2147483647
        · rw [if_pos hlt, ih (drop_succ_of_drop h) hlt (by omega)]
          exact apply_ite (Option.map _) _ _ _
        · rw [if_neg hlt, if_neg (mt hsum hlt)]

theorem lexTokens_mono {st : LexState} {m : ℕ} (h : lexTokens src n st = some toks) (hle : n ≤ m) :
    lexTokens src m st = some toks := by
  induction n generalizing st m toks with
  | zero => cases h
  | succ n ih =>
      obtain ⟨m, rfl⟩ := Nat.exists_eq_add_one_of_ne_zero (Nat.ne_of_gt (Nat.zero_lt_of_lt hle))
      rw [lexTokens] at h ⊢
      rcases hnext : lexerNextToken src st with _ | ⟨tok, st'⟩
      · rw [hnext] at h
        cases h
      · rw [hnext, Option.bind_eq_bind, Option.bind_some] at h
        rw [Option.bind_eq_bind, Option.bind_some]
        dsimp only at h ⊢
        split_ifs at h ⊢ with htok
        · rcases hrest : lexTokens src n st' with _ | toks'
          · rw [hrest] at h
            cases h
          · rw [hrest] at h
            rw [ih hrest (Nat.le_of_succ_le_succ hle)]
            exact h
        · exact h

/-! ### When the tokens are true -/

theorem lineBehind_eq (h : ∀ c ∈ before, c ≠ 10) : lineBehind before = 1 := by
  unfold lineBehind
  rw [List.count_eq_zero.mpr fun hmem => h 10 hmem rfl]
  rfl

theorem colBehind_eq (h : ∀ c ∈ before, c ≠ 10) : colBehind before = before.length + 1 := by
  have hall : ∀ c ∈ before.reverse, decide (c ≠ 10) = true := fun c hc => by
    simpa using h c (List.mem_reverse.mp hc)
  unfold colBehind
  rw [List.takeWhile_eq_self_iff.mpr hall, List.length_reverse, Int.add_comm]

/-- Without a newline the characters are tokens with true positions. -/
theorem covers_charTokens (hbefore : ∀ c ∈ before, c ≠ 10) (hgap : ∀ c ∈ gap, isSkipped c)
    (hl : ∀ c ∈ l, c ≠ 10) (hi : i = (before ++ gap).length) : Covers before (gap ++ l) (charTokens i l) := by
  have hisGap : ∀ {gap : List UInt8}, (∀ c ∈ gap, isSkipped c) → ∀ c ∈ gap, isGap c := by
    intro gap hgap c hc
    have hskip := hgap c hc
    unfold isGap
    rw [show (c = 32 || c = 9 || c = 13) = true from hskip, Bool.true_or]
  induction l generalizing before gap i with
  | nil =>
      rw [List.append_nil]
      exact .done (hisGap hgap)
  | cons c rest ih =>
      obtain ⟨hc, hrest⟩ := List.forall_mem_cons.mp hl
      unfold charTokens
      split_ifs with hskip
      · have hgap' : ∀ a ∈ gap ++ [c], isSkipped a := by
          intro a ha
          rcases List.mem_append.mp ha with ha | ha
          · exact hgap a ha
          · rwa [List.mem_singleton.mp ha]
        have hnext := @ih before (gap ++ [c]) (i + 1) hbefore hgap' hrest (by
          simp [hi, Nat.add_assoc])
        rwa [List.append_assoc] at hnext
      · have hnone : ∀ a ∈ before ++ gap, a ≠ 10 := by
          intro a ha
          rcases List.mem_append.mp ha with ha | ha
          · exact hbefore a ha
          · rintro rfl
            exact absurd (hgap 10 ha) (by decide)
        have hnone' : ∀ a ∈ before ++ gap ++ [c], a ≠ 10 := by
          intro a ha
          rcases List.mem_append.mp ha with ha | ha
          · exact hnone a ha
          · rwa [List.mem_singleton.mp ha]
        have hcol : (i : ℤ) + 1 = colBehind (before ++ gap) := by rw [colBehind_eq hnone, hi]
        have hnext := @ih (before ++ gap ++ [c]) [] (i + 1) hnone' (by simp) hrest (by
          simp [hi, Nat.add_assoc])
        exact @Covers.token before gap rest ⟨.ident, 1, i + 1, [c]⟩ _ (hisGap hgap) (List.cons_ne_nil c [])
          (lineBehind_eq hnone).symm hcol (fun hmem => absurd (List.mem_singleton.mp hmem).symm hc) hnext

theorem Covers.newline {tok : Token} (h : Covers before l toks) (hmem : tok ∈ toks) (htext : 10 ∈ tok.asStr) :
    tok.type = .newline := by
  induction h with
  | done _ => cases hmem
  | token _ _ _ _ hnewline _ ih =>
      rcases List.mem_cons.mp hmem with rfl | hmem
      · exact hnewline htext
      · exact ih hmem

theorem newline_mem_charTokens (h : 10 ∈ l) : ∃ tok ∈ charTokens i l, tok.type = .ident ∧ 10 ∈ tok.asStr := by
  induction l generalizing i with
  | nil => cases h
  | cons c rest ih =>
      unfold charTokens
      rcases List.mem_cons.mp h with rfl | h
      · rw [if_neg (by decide)]
        exact ⟨_, List.mem_cons_self, rfl, List.mem_cons_self⟩
      · obtain ⟨tok, hmem, htok⟩ := @ih (i + 1) h
        split_ifs
        · exact ⟨tok, hmem, htok⟩
        · exact ⟨tok, List.mem_cons_of_mem _ hmem, htok⟩

/-- The true tokens can only be the characters. -/
theorem TokensTrue.charTokens (h : TokensTrue src) :
    src.chars.length < 2147483647 ∧ Covers [] src.chars (charTokens 0 src.chars) := by
  obtain ⟨n, toks, hlex, hcovers⟩ := h
  have hmany := lexTokens_mono hlex (Nat.le_max_left n (src.chars.length + 1))
  have heq := lexTokens_eq (List.drop_zero : src.chars.drop 0 = src.chars) (by decide)
    (Nat.lt_of_lt_of_le (Nat.lt_succ_self _) (Nat.le_max_right n (src.chars.length + 1)))
  have hsame := hmany.symm.trans heq
  rw [Nat.zero_add] at hsame
  split_ifs at hsame with hlt
  exact ⟨hlt, Option.some.inj hsame ▸ hcovers⟩

/-- **The positions** of the tokens are true exactly if the source has no newline and no `int` overflows. -/
theorem tokensTrue_iff (src : CString) :
    TokensTrue src ↔ (10 : UInt8) ∉ src.chars ∧ src.chars.length < 2147483647 := by
  constructor
  · intro h
    obtain ⟨hlt, hcovers⟩ := h.charTokens
    refine ⟨fun hmem => ?_, hlt⟩
    obtain ⟨tok, htok, htype, htext⟩ := @newline_mem_charTokens _ 0 hmem
    have hnewline := hcovers.newline htok htext
    rw [htype] at hnewline
    cases hnewline
  · rintro ⟨hnone, hlt⟩
    refine ⟨src.chars.length + 1, charTokens 0 src.chars, ?_, ?_⟩
    · have heq := lexTokens_eq (List.drop_zero : src.chars.drop 0 = src.chars) (by decide)
        (Nat.lt_succ_self src.chars.length)
      rwa [Nat.zero_add, if_pos hlt] at heq
    · have hne : ∀ c ∈ src.chars, c ≠ 10 := by
        rintro c hc rfl
        exact hnone hc
      exact @covers_charTokens [] [] src.chars 0 (by simp) (by simp) hne rfl

/-- `a`, a newline, `b`. -/
theorem tokens_newline : ∃ src : CString, src.chars = [97, 10, 98] ∧
    lexTokens src 4 lexerInit = some [⟨.ident, 1, 1, [97]⟩, ⟨.ident, 1, 2, [10]⟩, ⟨.ident, 1, 3, [98]⟩] ∧
      ¬ TokensTrue src := by
  refine ⟨literal "a\nb" (by decide), rfl, by decide, fun h => ?_⟩
  have hnewline := @Covers.newline _ _ _ ⟨.ident, 1, 2, [10]⟩ h.charTokens.2 (by decide) (by decide)
  cases hnewline

end

end LunaOs
