import LunaOs.Lib.Pieces
import LunaOs.PrintfTruncate

/-! # `luna_snprintf` and the `snprintf` of C

The callers write formats for the `snprintf` of the C standard: flags, a width, a precision.  A format
is a list of pieces here, each conversion with the argument meant for it, and `CPiece.text` is what C
prints for it.  `luna_snprintf` knows neither the flag `-` nor a precision: it prints a question mark
there, takes no argument and reads on in the middle of the conversion, so that every later argument
is taken by the wrong one.  Of the conversions it does know, a few come out differently.

What C prints for `%p` is left to the implementation; it is taken to be what this one prints, in a
field of the width given. -/

namespace LunaOs

open Pieces

/-! ### Formats of C -/

/-- What stands between `%` and the conversion. -/
structure Field where
  flags : List UInt8
  width : List UInt8
  precision : Option (List UInt8)

/-- A conversion with its argument. -/
inductive CConversion where
  | str (s : CString)
  | chr (v : BitVec 32)
  | int (v : BitVec 32)
  | uint (v : BitVec 32)
  | hex (v : BitVec 32)
  | hexUpper (v : BitVec 32)
  | ptr (v : BitVec 32)
  | long (v : BitVec 64)
  | ulong (v : BitVec 64)
  | hexLong (v : BitVec 64)

/-- A literal character, `%%`, or a conversion with its argument. -/
inductive CPiece where
  | char (c : UInt8)
  | percent
  | conversion (f : Field) (cv : CConversion)

namespace Field

def chars (f : Field) : List UInt8 := f.flags ++ f.width ++ (f.precision.elim [] fun p => 46 :: p)

def leftAligned (f : Field) : Prop := 45 ∈ f.flags

def zeroPadded (f : Field) : Prop := 48 ∈ f.flags

instance (f : Field) : Decidable f.leftAligned := inferInstanceAs (Decidable (45 ∈ f.flags))

instance (f : Field) : Decidable f.zeroPadded := inferInstanceAs (Decidable (48 ∈ f.flags))

def minWidth (f : Field) : ℕ := (decimal f.width).toNat

def prec (f : Field) : Option ℕ := f.precision.map fun p => (decimal p).toNat

/-- Padding with spaces. -/
def aligned (f : Field) (t : List UInt8) : List UInt8 :=
  if f.leftAligned then t ++ List.replicate (f.minWidth - t.length) 32
  else List.replicate (f.minWidth - t.length) 32 ++ t

/-- A number: a precision is the least number of digits, and none at all are printed for zero with
precision zero; the flag `0` counts only without `-` and without a precision. -/
def number (f : Field) (sign digits : List UInt8) : List UInt8 :=
  match f.prec with
  | some p =>
      f.aligned (sign ++ List.replicate (p - digits.length) 48 ++
        if p = 0 ∧ digits = [48] then [] else digits)
  | none =>
      if f.zeroPadded ∧ ¬ f.leftAligned then
        sign ++ List.replicate (f.minWidth - (sign.length + digits.length)) 48 ++ digits
      else f.aligned (sign ++ digits)

end Field

/-- The digits of a number, the first one first. -/
def cDigits (base : ℕ) (upper : Bool) (n : ℕ) : List UInt8 :=
  if n = 0 then [48]
  else ((Nat.digits base n).map fun d => (if upper then digitsUpper else digitsLower).getD d 0).reverse

/-- A signed number. -/
def cInt {w : ℕ} (f : Field) (v : BitVec w) : List UInt8 :=
  f.number (if v.toInt < 0 then [45] else []) (cDigits 10 false v.toInt.natAbs)

namespace CConversion

def chars : CConversion → List UInt8
  | str _ => [115]
  | chr _ => [99]
  | int _ => [100]
  | uint _ => [117]
  | hex _ => [120]
  | hexUpper _ => [88]
  | ptr _ => [112]
  | long _ => [108, 100]
  | ulong _ => [108, 117]
  | hexLong _ => [108, 120]

def arg : CConversion → VaArg
  | str s => .str (some s)
  | chr v | int v | uint v | hex v | hexUpper v => .int v
  | ptr v => .ptr v
  | long v | ulong v | hexLong v => .long v

/-- What C prints. -/
def text (f : Field) : CConversion → List UInt8
  | str s => f.aligned (f.prec.elim s.chars fun p => s.chars.take p)
  | chr v => f.aligned [⟨v.setWidth 8⟩]
  | int v => cInt f v
  | uint v => f.number [] (cDigits 10 false v.toNat)
  | hex v => f.number [] (cDigits 16 false v.toNat)
  | hexUpper v => f.number [] (cDigits 16 true v.toNat)
  | ptr v => f.aligned (48 :: 120 :: uintText (v.setWidth 64) 16 false 8 48)
  | long v => cInt f v
  | ulong v => f.number [] (cDigits 10 false v.toNat)
  | hexLong v => f.number [] (cDigits 16 false v.toNat)

/-- `s`, `c` and `p` take no flag `0`, `c` and `p` no precision. -/
def Takes (f : Field) : CConversion → Prop
  | str _ => ¬ f.zeroPadded
  | chr _ | ptr _ => ¬ f.zeroPadded ∧ f.precision = none
  | _ => True

end CConversion

/-- A field as C reads it: flags, a width that does not begin with a zero, a precision. -/
structure Field.Valid (f : Field) : Prop where
  flags : ∀ c ∈ f.flags, c = 45 ∨ c = 48
  width : ∀ d ∈ f.width, isDigit d
  noFlag : f.width.head? ≠ some 48
  small : decimal f.width < 2 ^ 31
  precision : ∀ p ∈ f.precision, (∀ d ∈ p, isDigit d) ∧ decimal p < 2 ^ 31

namespace CPiece

def chars : CPiece → List UInt8
  | char c => [c]
  | percent => [37, 37]
  | conversion f cv => 37 :: (f.chars ++ cv.chars)

/-- The arguments of the piece, `none` where it is no conversion. -/
def taken : CPiece → Option (List VaArg)
  | char _ => none
  | percent => some []
  | conversion _ cv => some [cv.arg]

def text : CPiece → List UInt8
  | char c => [c]
  | percent => [37]
  | conversion f cv => cv.text f

/-- A piece that C defines. -/
def Valid : CPiece → Prop
  | char c => c ≠ 37
  | percent => True
  | conversion f cv => f.Valid ∧ cv.Takes f

end CPiece

def cChars (ps : List CPiece) : List UInt8 := ps.flatMap CPiece.chars

/-- The arguments of each conversion. -/
def cTaken (ps : List CPiece) : List (List VaArg) := ps.filterMap CPiece.taken

def cArgs (ps : List CPiece) : List VaArg := (cTaken ps).flatten

/-- What the C standard says for the format. -/
def cText (ps : List CPiece) : List UInt8 := ps.flatMap CPiece.text

/-- `luna_snprintf` prints what C prints, whenever that fits, and each conversion takes its own
argument. -/
def FormatsLikeC (fmt : CString) (ps : List CPiece) : Prop :=
  ∀ (size k : ℕ) (buf : Vector UInt8 k), (cText ps).length < size → size ≤ k →
    (∃ buf', lunaSnprintf buf size fmt (cArgs ps) = some ((cText ps).length, buf') ∧
      bytesFrom (arrayPtr buf') (cText ps).length = cText ps ∧
      arrayPtr buf' (cText ps).length = 0) ∧
    ((cText ps).length + 1 < size →
      (snprintfTurns size fmt.chars.length fmt.chars (cArgs ps) ⟨buf, 0⟩).map Prod.snd =
        some (cTaken ps))

theorem formatsLikeC_iff {fmt : CString} {ps : List CPiece} :
    FormatsLikeC fmt ps ↔ Formats fmt.chars (cArgs ps) (cText ps) (cTaken ps) := by
  constructor
  · intro h
    obtain ⟨⟨buf', hret, hbytes, _⟩, htaken⟩ := h ((cText ps).length + 2) _
      (Vector.replicate ((cText ps).length + 2) 0) (by omega) le_rfl
    obtain ⟨⟨o, taken⟩, hturns, htaken⟩ := Option.map_eq_some_iff.mp (htaken (by omega))
    obtain rfl : taken = cTaken ps := htaken
    -- the buffer is not full, so that the run has written all the format says
    have hloop := snprintfTurns_fst ((cText ps).length + 2) fmt.chars.length fmt.chars (cArgs ps)
      ⟨Vector.replicate ((cText ps).length + 2) 0, 0⟩
    rw [hturns] at hloop
    have hpos : o.pos = (cText ps).length ∧ o.buf.setIfInBounds o.pos 0 = buf' := by
      unfold lunaSnprintf at hret
      rw [if_neg (by omega), ← hloop] at hret
      exact Prod.mk.inj (Option.some.inj hret)
    obtain ⟨t, hformats, _⟩ := formats_of_turns hturns le_rfl (by omega)
    obtain ⟨o', hloop', _, hend, hbytes', _⟩ := lunaSnprintf_bytes
      (hformats.produces ((cText ps).length + 2)) (Vector.replicate ((cText ps).length + 2) 0)
      (by omega) le_rfl
    obtain rfl : o = o' := Option.some.inj (hloop.trans hloop')
    have hlength : t.length = (cText ps).length := by omega
    rw [hpos.2, hpos.1, hbytes, List.take_of_length_le (by omega)] at hbytes'
    rwa [hbytes']
  · intro hformats size k buf hsize hk
    obtain ⟨o, _, hret, hend, hbytes, hzero⟩ :=
      lunaSnprintf_bytes (hformats.produces size) buf (by omega) hk
    have hpos : o.pos = (cText ps).length := by omega
    rw [List.take_of_length_le (by omega)] at hbytes
    rw [hpos] at hret hbytes hzero
    refine ⟨⟨_, hret, hbytes, hzero⟩, ?_⟩
    intro hroom
    have hturns : snprintfTurns size fmt.chars.length fmt.chars (cArgs ps) ⟨buf, 0⟩ =
        some (writeChars size ⟨buf, 0⟩ (cText ps), cTaken ps) :=
      hformats.turns le_rfl (by show 0 + _ < _; omega)
    rw [hturns]
    rfl

/-! ### What is taken -/

theorem digits_unique {ds ds' fmt fmt' : List UInt8} {c c' : UInt8} (hds : ∀ d ∈ ds, isDigit d)
    (hds' : ∀ d ∈ ds', isDigit d) (hc : isDigit c = false) (hc' : isDigit c' = false)
    (h : ds ++ c :: fmt = ds' ++ c' :: fmt') : ds = ds' ∧ c :: fmt = c' :: fmt' := by
  induction ds generalizing ds' with
  | nil =>
      cases ds' with
      | nil => exact ⟨rfl, h⟩
      | cons d' ds' =>
          obtain ⟨rfl, _⟩ := List.cons.inj h
          rw [hds' c List.mem_cons_self] at hc
          cases hc
  | cons d ds ih =>
      obtain ⟨hd, hrest⟩ := List.forall_mem_cons.mp hds
      cases ds' with
      | nil =>
          obtain ⟨rfl, _⟩ := List.cons.inj h
          rw [hd] at hc'
          cases hc'
      | cons d' ds' =>
          obtain ⟨rfl, htail⟩ := List.cons.inj h
          obtain ⟨rfl, heq⟩ := ih hrest (List.forall_mem_cons.mp hds').2 htail
          exact ⟨rfl, heq⟩

theorem Formats.conversion_inv {ds fmt T : List UInt8} {c : UInt8} {args : List VaArg}
    {U : List (List VaArg)} (h : Formats (37 :: (ds ++ c :: fmt)) args T U)
    (hds : ∀ d ∈ ds, isDigit d) (hc : isDigit c = false) :
    ∃ cv rest u args' t taken, readConversion (c :: fmt) = some (cv, rest) ∧
      cv.text (decimal ds) (padOf ds) args = some (u, args') ∧ Formats rest args' t taken ∧
      T = u ++ t ∧ U = args.take (args.length - args'.length) :: taken := by
  generalize hx : 37 :: (ds ++ c :: fmt) = x at h
  cases h with
  | done args => cases hx
  | char hne _ =>
      obtain ⟨rfl, _⟩ := List.cons.inj hx
      exact absurd rfl hne
  | conversion hds' hc' hread htext h =>
      obtain ⟨_, htail⟩ := List.cons.inj hx
      obtain ⟨rfl, heq⟩ := digits_unique hds hds' hc hc' htail
      rw [← heq] at hread
      exact ⟨_, _, _, _, _, _, hread, htext, h, rfl, rfl⟩

namespace CConversion

def conversion : CConversion → Conversion
  | str _ => .str
  | chr _ => .chr
  | int _ => .int
  | uint _ => .uint
  | hex _ => .hex
  | hexUpper _ => .hexUpper
  | ptr _ => .ptr
  | long _ => .long
  | ulong _ => .ulong
  | hexLong _ => .hexLong

/-- What `luna_snprintf` prints. -/
def lunaText (width : ℤ) (padCh : UInt8) : CConversion → List UInt8
  | str s => strText s width
  | chr v => [⟨v.setWidth 8⟩]
  | int v => intText v width padCh
  | uint v => uintText (v.setWidth 64) 10 false width padCh
  | hex v => uintText (v.setWidth 64) 16 false width padCh
  | hexUpper v => uintText (v.setWidth 64) 16 true width padCh
  | ptr v => 48 :: 120 :: uintText (v.setWidth 64) 16 false 8 48
  | long v => intText v width padCh
  | ulong v => uintText v 10 false width padCh
  | hexLong v => uintText v 16 false width padCh

theorem exists_chars (cv : CConversion) (rest : List UInt8) :
    ∃ c cs, cv.chars ++ rest = c :: cs ∧ isDigit c = false ∧
      readConversion (c :: cs) = some (cv.conversion, rest) := by
  cases cv <;> exact ⟨_, _, rfl, by decide, rfl⟩

theorem text_conversion (cv : CConversion) (width : ℤ) (padCh : UInt8) (args : List VaArg) :
    cv.conversion.text width padCh (cv.arg :: args) = some (cv.lunaText width padCh, args) := by
  cases cv <;> rfl

end CConversion

namespace CPiece

/-- A conversion that `luna_snprintf` knows. -/
def Known : CPiece → Prop
  | conversion f _ => ¬ f.leftAligned ∧ f.precision = none
  | _ => True

def lunaText : CPiece → List UInt8
  | char c => [c]
  | percent => [37]
  | conversion f cv => cv.lunaText (decimal (f.flags ++ f.width)) (padOf (f.flags ++ f.width))

end CPiece

namespace Field

variable {f : Field}

/-- Without `-` the flags are zeros. -/
theorem Valid.flags_zero (h : f.Valid) (hleft : ¬ f.leftAligned) : ∀ c ∈ f.flags, c = 48 := by
  intro c hc
  rcases h.flags c hc with rfl | hzero
  · exact absurd hc hleft
  · exact hzero

theorem Valid.digits (h : f.Valid) (hleft : ¬ f.leftAligned) : ∀ d ∈ f.flags ++ f.width, isDigit d := by
  intro d hd
  rcases List.mem_append.mp hd with hflag | hwidth
  · rw [h.flags_zero hleft d hflag]
    decide
  · exact h.width d hwidth

/-- Behind a `-` or a point `luna_snprintf` does not read on. -/
theorem Valid.unknown (h : f.Valid) (hunknown : ¬ (¬ f.leftAligned ∧ f.precision = none)) :
    ∃ ds c rest, f.chars = ds ++ c :: rest ∧ (∀ d ∈ ds, isDigit d) ∧ (c = 45 ∨ c = 46) := by
  by_cases hleft : f.leftAligned
  · obtain ⟨as, bs, heq, hfirst⟩ := List.eq_append_cons_of_mem hleft
    refine ⟨as, 45, bs ++ f.width ++ f.precision.elim [] fun p => 46 :: p, ?_, ?_, .inl rfl⟩
    · simp [chars, heq]
    · intro d hd
      rcases h.flags d (by rw [heq]; exact List.mem_append_left _ hd) with rfl | rfl
      · exact absurd hd hfirst
      · decide
  · cases hprec : f.precision with
    | none => exact absurd ⟨hleft, hprec⟩ hunknown
    | some p => exact ⟨f.flags ++ f.width, 46, p, by simp [chars, hprec], h.digits hleft, .inr rfl⟩

end Field

theorem formats_nil_iff {args : List VaArg} {t : List UInt8} {taken : List (List VaArg)} :
    Formats [] args t taken ↔ t = [] ∧ taken = [] := by
  constructor
  · intro h
    cases h
    exact ⟨rfl, rfl⟩
  · rintro ⟨rfl, rfl⟩
    exact .done args

theorem formats_char_iff {c : UInt8} (hc : c ≠ 37) {fmt t : List UInt8} {args : List VaArg}
    {taken : List (List VaArg)} :
    Formats (c :: fmt) args t taken ↔ ∃ t', t = c :: t' ∧ Formats fmt args t' taken := by
  constructor
  · intro h
    cases h with
    | char _ h => exact ⟨_, rfl, h⟩
    | conversion => exact absurd rfl hc
  · rintro ⟨t', rfl, h⟩
    exact .char hc h

theorem formats_percent_iff {fmt t : List UInt8} {args : List VaArg} {taken : List (List VaArg)} :
    Formats (37 :: 37 :: fmt) args t taken ↔
      ∃ t' taken', t = 37 :: t' ∧ taken = [] :: taken' ∧ Formats fmt args t' taken' := by
  have hnone : ∀ d ∈ ([] : List UInt8), isDigit d := by simp
  constructor
  · intro h
    obtain ⟨cv, rest, u, args', t', taken', hread, htext, hrest, rfl, rfl⟩ :=
      @Formats.conversion_inv [] _ _ 37 _ _ h hnone (by decide)
    cases hread
    cases htext
    rw [Nat.sub_self, List.take_zero]
    exact ⟨t', taken', rfl, rfl, hrest⟩
  · rintro ⟨t', taken', rfl, rfl, h⟩
    have hformats := Formats.conversion (c := 37) hnone (by decide) rfl rfl h
    rw [Nat.sub_self, List.take_zero] at hformats
    exact hformats

theorem formats_conversion_iff {ds fmt t : List UInt8} (hds : ∀ d ∈ ds, isDigit d) (cv : CConversion)
    {args : List VaArg} {taken : List (List VaArg)} :
    Formats (37 :: (ds ++ (cv.chars ++ fmt))) (cv.arg :: args) t taken ↔
      ∃ t' taken', t = cv.lunaText (decimal ds) (padOf ds) ++ t' ∧ taken = [cv.arg] :: taken' ∧
        Formats fmt args t' taken' := by
  have htakes : (cv.arg :: args).take ((cv.arg :: args).length - args.length) = [cv.arg] := by
    simp
  obtain ⟨c, cs, hcs, hc, hread⟩ := cv.exists_chars fmt
  rw [hcs]
  constructor
  · intro h
    obtain ⟨cv', rest, u, args', t', taken', hread', htext, hrest, rfl, rfl⟩ :=
      h.conversion_inv hds hc
    cases hread.symm.trans hread'
    cases (cv.text_conversion _ _ args).symm.trans htext
    rw [htakes]
    exact ⟨t', taken', rfl, rfl, hrest⟩
  · rintro ⟨t', taken', rfl, rfl, h⟩
    have hformats := Formats.conversion hds hc hread (cv.text_conversion _ _ args) h
    rw [htakes] at hformats
    exact hformats

/-- For an unknown character the question mark is printed without an argument. -/
theorem formats_unknown {ds fmt t : List UInt8} (hds : ∀ d ∈ ds, isDigit d) {c : UInt8}
    (hc : c = 45 ∨ c = 46) {args : List VaArg} {taken : List (List VaArg)}
    (h : Formats (37 :: (ds ++ c :: fmt)) args t taken) : ∃ taken', taken = [] :: taken' := by
  have hdigit : isDigit c = false := by
    rcases hc with rfl | rfl <;> decide
  have hread : readConversion (c :: fmt) = some (.other, fmt) := by
    rcases hc with rfl | rfl <;> rfl
  obtain ⟨cv, rest, u, args', t', taken', hread', htext, _, _, rfl⟩ := h.conversion_inv hds hdigit
  cases hread.symm.trans hread'
  cases htext
  rw [Nat.sub_self, List.take_zero]
  exact ⟨taken', rfl⟩

/-- **Each conversion takes its own argument** exactly if all of them are known, and then the text is
that of the pieces. -/
theorem formats_pieces_iff {ps : List CPiece} (hvalid : ∀ p ∈ ps, p.Valid) {t : List UInt8} :
    Formats (cChars ps) (cArgs ps) t (cTaken ps) ↔
      (∀ p ∈ ps, p.Known) ∧ t = ps.flatMap CPiece.lunaText := by
  induction ps generalizing t with
  | nil =>
      refine formats_nil_iff.trans ?_
      simp [cTaken]
  | cons p ps ih =>
      obtain ⟨hp, hrest⟩ := List.forall_mem_cons.mp hvalid
      rw [List.forall_mem_cons, List.flatMap_cons]
      cases p with
      | char c =>
          refine (formats_char_iff hp).trans ?_
          constructor
          · rintro ⟨t', rfl, h⟩
            obtain ⟨hknown, rfl⟩ := (ih hrest).mp h
            exact ⟨⟨trivial, hknown⟩, rfl⟩
          · rintro ⟨⟨_, hknown⟩, rfl⟩
            exact ⟨_, rfl, (ih hrest).mpr ⟨hknown, rfl⟩⟩
      | percent =>
          refine formats_percent_iff.trans ?_
          constructor
          · rintro ⟨t', taken', rfl, htaken, h⟩
            obtain ⟨_, rfl⟩ := List.cons.inj htaken
            obtain ⟨hknown, rfl⟩ := (ih hrest).mp h
            exact ⟨⟨trivial, hknown⟩, rfl⟩
          · rintro ⟨⟨_, hknown⟩, rfl⟩
            exact ⟨_, _, rfl, rfl, (ih hrest).mpr ⟨hknown, rfl⟩⟩
      | conversion f cv =>
          by_cases hknown : (CPiece.conversion f cv).Known
          · obtain ⟨hleft, hprec⟩ := hknown
            have hchars : cChars (.conversion f cv :: ps) =
                37 :: ((f.flags ++ f.width) ++ (cv.chars ++ cChars ps)) := by
              simp [cChars, CPiece.chars, Field.chars, hprec]
            rw [hchars]
            refine (formats_conversion_iff (hp.1.digits hleft) cv).trans ?_
            constructor
            · rintro ⟨t', taken', rfl, htaken, h⟩
              obtain ⟨_, rfl⟩ := List.cons.inj htaken
              obtain ⟨hall, rfl⟩ := (ih hrest).mp h
              exact ⟨⟨⟨hleft, hprec⟩, hall⟩, rfl⟩
            · rintro ⟨⟨_, hall⟩, rfl⟩
              exact ⟨_, _, rfl, rfl, (ih hrest).mpr ⟨hall, rfl⟩⟩
          · refine iff_of_false ?_ (fun h => hknown h.1.1)
            intro h
            obtain ⟨ds, c, rest, hf, hds, hc⟩ := hp.1.unknown hknown
            have hchars : cChars (.conversion f cv :: ps) =
                37 :: (ds ++ c :: (rest ++ cv.chars ++ cChars ps)) := by
              simp [cChars, CPiece.chars, hf]
            rw [hchars] at h
            obtain ⟨taken', htaken⟩ := formats_unknown hds hc h
            cases (List.cons.inj htaken).1

/-! ### Where the texts agree -/

/-- The condition for a conversion without `-` and without a precision. -/
def CConversion.Agrees (f : Field) : CConversion → Prop
  | chr _ => f.minWidth ≤ 1
  | int v => v.toInt < 0 →
      f.minWidth ≤ (Nat.digits 10 v.toInt.natAbs).length ∧ v ≠ BitVec.intMin 32
  | long v => v.toInt < 0 → f.minWidth ≤ (Nat.digits 10 v.toInt.natAbs).length
  | ptr _ => f.minWidth ≤ 10
  | _ => True

/-- No `-` and no precision; a width for `c` and `p` only as far as it has no effect, and one for a negative
number only up to its digits; no `%d` of the least integer. -/
def CPiece.Agrees : CPiece → Prop
  | conversion f cv => ¬ f.leftAligned ∧ f.precision = none ∧ cv.Agrees f
  | _ => True

namespace Field

variable {f : Field}

/-- The character `luna_snprintf` fills a field with. -/
def fill (f : Field) : UInt8 := if f.zeroPadded then 48 else 32

theorem decimalFrom_nonneg {width : ℤ} (hwidth : 0 ≤ width) {ds : List UInt8}
    (hds : ∀ d ∈ ds, isDigit d) : 0 ≤ decimalFrom width ds := by
  induction ds generalizing width with
  | nil => exact hwidth
  | cons d ds ih =>
      obtain ⟨hd, hrest⟩ := List.forall_mem_cons.mp hds
      have hlow : 48 ≤ d.toNat := by
        unfold isDigit at hd
        rw [Bool.and_eq_true, decide_eq_true_eq, decide_eq_true_eq, UInt8.le_iff_toNat_le] at hd
        exact hd.1
      have hstep : 0 ≤ width * 10 + ((d.toNat : ℤ) - 48) := by omega
      exact ih hstep hrest

theorem decimal_zeros {zeros ds : List UInt8} (h : ∀ c ∈ zeros, c = 48) :
    decimal (zeros ++ ds) = decimal ds := by
  induction zeros with
  | nil => rfl
  | cons c zeros ih =>
      obtain ⟨rfl, hrest⟩ := List.forall_mem_cons.mp h
      exact ih hrest

theorem Valid.lunaWidth (h : f.Valid) (hleft : ¬ f.leftAligned) :
    decimal (f.flags ++ f.width) = (f.minWidth : ℤ) := by
  have hnonneg : 0 ≤ decimal f.width := decimalFrom_nonneg le_rfl h.width
  rw [decimal_zeros (h.flags_zero hleft)]
  unfold minWidth
  omega

theorem Valid.padOf_eq (h : f.Valid) (hleft : ¬ f.leftAligned) : padOf (f.flags ++ f.width) = f.fill := by
  have hzero := h.flags_zero hleft
  have hiff : (f.flags ++ f.width).head? = some 48 ↔ f.zeroPadded := by
    unfold zeroPadded
    cases hflags : f.flags with
    | nil => exact iff_of_false h.noFlag List.not_mem_nil
    | cons c cs =>
        rw [hflags] at hzero
        obtain rfl := hzero c List.mem_cons_self
        exact iff_of_true rfl List.mem_cons_self
  unfold fill padOf
  simp only [hiff]

theorem prec_none (hprec : f.precision = none) : f.prec = none := by
  unfold prec
  rw [hprec]
  rfl

/-- A number without `-` and precision. -/
theorem number_known (hleft : ¬ f.leftAligned) (hprec : f.precision = none) (sign digits : List UInt8) :
    f.number sign digits =
      if f.zeroPadded then sign ++ List.replicate (f.minWidth - (sign.length + digits.length)) 48 ++ digits
      else List.replicate (f.minWidth - (sign.length + digits.length)) 32 ++ (sign ++ digits) := by
  unfold number aligned
  rw [prec_none hprec]
  by_cases hzero : f.zeroPadded <;> simp [hzero, hleft]

theorem aligned_known (hleft : ¬ f.leftAligned) (t : List UInt8) :
    f.aligned t = List.replicate (f.minWidth - t.length) 32 ++ t := if_neg hleft

end Field

theorem digitBuffer_reverse (val : BitVec 64) {base : ℕ} (hbase : 1 < base) (upper : Bool) :
    (digitBuffer val base upper).reverse = cDigits base upper val.toNat := by
  rw [digitBuffer_eq val hbase]
  unfold cDigits
  by_cases hzero : val.toNat = 0
  · rw [if_pos hzero, if_pos hzero]
    rfl
  · rw [if_neg hzero, if_neg hzero]

theorem uintText_reverse (val : BitVec 64) (base : ℕ) (upper : Bool) (n : ℕ) (padCh : UInt8) :
    uintText val base upper n padCh =
      List.replicate (n - (digitBuffer val base upper).reverse.length) padCh ++
        (digitBuffer val base upper).reverse := by
  unfold uintText
  rw [List.length_reverse, Int.toNat_sub]

theorem uintText_eq_number {f : Field} (hleft : ¬ f.leftAligned) (hprec : f.precision = none)
    (val : BitVec 64) {base : ℕ} (hbase : 1 < base) (upper : Bool) :
    uintText val base upper f.minWidth f.fill = f.number [] (cDigits base upper val.toNat) := by
  rw [Field.number_known hleft hprec, uintText_reverse, digitBuffer_reverse val hbase]
  unfold Field.fill
  by_cases hzero : f.zeroPadded <;> simp [hzero]

theorem cDigits_cons {n : ℕ} (hn : n ≠ 0) :
    ∃ d ds, cDigits 10 false n = d :: ds ∧ d ≠ 48 ∧ d ≠ 32 := by
  have hne : Nat.digits 10 n ≠ [] := Nat.digits_ne_nil_iff_ne_zero.mpr hn
  have hlast := Nat.getLast_digit_ne_zero 10 hn
  have hlt := Nat.digits_lt_base (by decide : 1 < 10) (List.getLast_mem hne)
  have hdigit : ∀ x < 10, x ≠ 0 → digitsLower.getD x 0 ≠ 48 ∧ digitsLower.getD x 0 ≠ 32 := by decide
  obtain ⟨h48, h32⟩ := hdigit _ hlt hlast
  refine ⟨_, ((Nat.digits 10 n).dropLast.map fun d => digitsLower.getD d 0).reverse, ?_, h48, h32⟩
  unfold cDigits
  rw [if_neg hn]
  conv_lhs => rw [← List.dropLast_append_getLast hne]
  simp

theorem cDigits_length {n : ℕ} (hn : n ≠ 0) :
    (cDigits 10 false n).length = (Nat.digits 10 n).length := by
  unfold cDigits
  rw [if_neg hn, List.length_reverse, List.length_map]

/-- Zeros between sign and digits, `a` on one side and `b` on the other. -/
theorem clash_zeros {a b : ℕ} {d d' : UInt8} (hd : d ≠ 48) (hd' : d' ≠ 48) (ds ds' : List UInt8)
    (h : a ≠ b ∨ d' ≠ d) :
    Clash (45 :: (List.replicate a 48 ++ d' :: ds')) (45 :: (List.replicate b 48 ++ d :: ds)) := by
  rcases Nat.lt_trichotomy a b with hlt | rfl | hgt
  · obtain ⟨n, rfl⟩ : ∃ n, b = a + (n + 1) := ⟨b - a - 1, by omega⟩
    refine ⟨45 :: List.replicate a 48, d', 48, ds', List.replicate n 48 ++ d :: ds, rfl, ?_, hd'⟩
    rw [List.replicate_add, List.append_assoc]
    rfl
  · have hne : d' ≠ d := h.resolve_left fun hne => hne rfl
    exact ⟨45 :: List.replicate a 48, d', d, ds', ds, rfl, rfl, hne⟩
  · obtain ⟨n, rfl⟩ : ∃ n, a = b + (n + 1) := ⟨a - b - 1, by omega⟩
    refine ⟨45 :: List.replicate b 48, 48, d, List.replicate n 48 ++ d' :: ds', ds, ?_, rfl, hd.symm⟩
    rw [List.replicate_add, List.append_assoc]
    rfl

theorem clash_spaces {a b : ℕ} {d d' : UInt8} (hd : d ≠ 32) (ds ds' : List UInt8) (h : a ≠ b ∨ d' ≠ d) :
    Clash (45 :: (List.replicate a 32 ++ d' :: ds')) (List.replicate b 32 ++ 45 :: d :: ds) := by
  cases b with
  | succ b => exact ⟨[], 45, 32, _, _, rfl, rfl, by decide⟩
  | zero =>
      cases a with
      | zero => exact ⟨[45], d', d, ds', ds, rfl, rfl, h.resolve_left fun hne => hne rfl⟩
      | succ a => exact ⟨[45], 32, d, List.replicate a 32 ++ d' :: ds', ds, rfl, rfl, hd.symm⟩

section
variable {f : Field}

/-- A negative number, with the digits `D'` on one side and `D` on the other. -/
theorem negative_related (hleft : ¬ f.leftAligned) (hprec : f.precision = none) {d d' : UInt8}
    {ds ds' : List UInt8} (hd : d ≠ 48 ∧ d ≠ 32) (hd' : d' ≠ 48)
    (h : f.minWidth - (d' :: ds').length ≠ f.minWidth - (1 + (d :: ds).length) ∨ d' ≠ d) :
    Clash (45 :: (List.replicate (f.minWidth - (d' :: ds').length) f.fill ++ d' :: ds'))
      (f.number [45] (d :: ds)) := by
  rw [Field.number_known hleft hprec]
  unfold Field.fill
  by_cases hzero : f.zeroPadded
  · rw [if_pos hzero, if_pos hzero]
    exact clash_zeros hd.1 hd' ds ds' h
  · rw [if_neg hzero, if_neg hzero]
    exact clash_spaces hd.2 ds ds' h

/-- `luna_snprintf` and C on a signed number whose absolute value is found right. -/
theorem int_related (hleft : ¬ f.leftAligned) (hprec : f.precision = none) {w : ℕ} (v : BitVec w)
    (hneg : v.toInt < 0 → ((-v).signExtend 64).toNat = v.toInt.natAbs)
    (hpos : ¬ v.toInt < 0 → (v.signExtend 64).toNat = v.toInt.natAbs) :
    Related 32 (intText v f.minWidth f.fill) (cInt f v) ∧
      (intText v f.minWidth f.fill = cInt f v ↔
        (v.toInt < 0 → f.minWidth ≤ (Nat.digits 10 v.toInt.natAbs).length)) := by
  have hslt : v.slt 0 = true ↔ v.toInt < 0 := by
    simp [BitVec.slt_eq_decide]
  unfold intText cInt
  by_cases hsign : v.toInt < 0
  · have habs : v.toInt.natAbs ≠ 0 := by omega
    obtain ⟨d, ds, hcons, hd⟩ := cDigits_cons habs
    have hlength := cDigits_length habs
    rw [if_pos (hslt.mpr hsign), if_pos hsign, uintText_reverse, digitBuffer_reverse _ (by decide),
      hneg hsign, ← hlength, hcons]
    by_cases hfits : f.minWidth ≤ (d :: ds).length
    · have heq : 45 :: (List.replicate (f.minWidth - (d :: ds).length) f.fill ++ d :: ds) =
          f.number [45] (d :: ds) := by
        have hnone : f.minWidth - ([(45 : UInt8)].length + (d :: ds).length) = 0 := by
          rw [List.length_singleton]
          omega
        rw [Field.number_known hleft hprec, hnone, Nat.sub_eq_zero_of_le hfits]
        split_ifs <;> rfl
      exact ⟨.same heq, iff_of_true heq fun _ => hfits⟩
    · have hclash : Clash (45 :: (List.replicate (f.minWidth - (d :: ds).length) f.fill ++ d :: ds))
          (f.number [45] (d :: ds)) :=
        negative_related hleft hprec hd hd.1 (.inl (by omega))
      exact ⟨.clash hclash (by simp), iff_of_false hclash.ne fun h => hfits (h hsign)⟩
  · rw [if_neg (fun h => hsign (hslt.mp h)), if_neg hsign]
    rw [uintText_eq_number hleft hprec _ (by decide), hpos hsign]
    exact ⟨.same rfl, iff_of_true rfl fun h => absurd h hsign⟩

end

/-! ### The extreme values -/

theorem toNat_of_nonneg {w : ℕ} (v : BitVec w) (h : 0 ≤ v.toInt) : v.toNat = v.toInt.natAbs := by
  have hcond := BitVec.toInt_eq_toNat_cond v
  have hlt := v.isLt
  split at hcond <;> omega

theorem toNat_signExtend {w : ℕ} (hw : w ≤ 64) (v : BitVec w) (h : 0 ≤ v.toInt) :
    (v.signExtend 64).toNat = v.toInt.natAbs := by
  have hext : (v.signExtend 64).toInt = v.toInt := BitVec.toInt_signExtend_of_le hw
  rw [toNat_of_nonneg _ (by omega), hext]

theorem toNat_neg_signExtend {w : ℕ} (hw : w ≤ 64) {v : BitVec w} (hneg : v.toInt < 0)
    (hmin : v ≠ BitVec.intMin w) : ((-v).signExtend 64).toNat = v.toInt.natAbs := by
  have hopposite := BitVec.toInt_neg_of_ne_intMin hmin
  rw [toNat_signExtend hw _ (by omega), hopposite, Int.natAbs_neg]

/-- The least integer of 64 bits is its own opposite, which is its absolute value as an unsigned number. -/
theorem toNat_neg_long {v : BitVec 64} (hneg : v.toInt < 0) :
    ((-v).signExtend 64).toNat = v.toInt.natAbs := by
  by_cases hmin : v = BitVec.intMin 64
  · subst hmin
    decide
  · exact toNat_neg_signExtend le_rfl hneg hmin

/-- The least integer of 32 bits is its own opposite too, and is then extended as a negative number. -/
theorem intMin_clash {f : Field} (hleft : ¬ f.leftAligned) (hprec : f.precision = none) :
    Clash (intText (BitVec.intMin 32) f.minWidth f.fill) (cInt f (BitVec.intMin 32)) := by
  have hsigned : (BitVec.intMin 32).slt 0 = true := by decide
  have hnegative : (BitVec.intMin 32).toInt < 0 := by decide
  have hluna : ∃ ds', (digitBuffer ((-BitVec.intMin 32).signExtend 64) 10 false).reverse = 49 :: ds' :=
    ⟨_, rfl⟩
  have hc : ∃ ds, cDigits 10 false (BitVec.intMin 32).toInt.natAbs = 50 :: ds := by
    have hval : (BitVec.intMin 32).toInt.natAbs = (2147483648#64).toNat := by decide
    rw [hval, ← digitBuffer_reverse _ (by decide)]
    exact ⟨_, rfl⟩
  obtain ⟨ds', hluna⟩ := hluna
  obtain ⟨ds, hc⟩ := hc
  unfold intText cInt
  rw [if_pos hsigned, if_pos hnegative, uintText_reverse, hluna, hc]
  exact negative_related hleft hprec (by decide) (by decide) (.inr (by decide))

/-! ### Agreement -/

section
variable {f : Field}

theorem chr_related (hleft : ¬ f.leftAligned) (b : UInt8) :
    Related 32 [b] (f.aligned [b]) ∧ ([b] = f.aligned [b] ↔ f.minWidth ≤ 1) := by
  rw [Field.aligned_known hleft, List.length_singleton]
  rcases Nat.lt_or_ge 1 f.minWidth with hwide | hnarrow
  · obtain ⟨n, hn⟩ : ∃ n, f.minWidth - 1 = n + 1 := ⟨f.minWidth - 2, by omega⟩
    rw [hn]
    have hne : [b] ≠ List.replicate (n + 1) 32 ++ [b] := by
      intro h
      have hlength := congrArg List.length h
      simp at hlength
    refine ⟨?_, iff_of_false hne (by omega)⟩
    by_cases hblank : b = 32
    · subst hblank
      exact .blanks n rfl List.replicate_succ'.symm
    · exact .clash ⟨[], b, 32, [], List.replicate n 32 ++ [b], rfl, rfl, hblank⟩ (by simpa using hblank)
  · have heq : [b] = List.replicate (f.minWidth - 1) 32 ++ [b] := by
      rw [Nat.sub_eq_zero_of_le hnarrow]
      rfl
    exact ⟨.same heq, iff_of_true heq hnarrow⟩

theorem ptrText_length (v : BitVec 32) : (uintText (v.setWidth 64) 16 false 8 48).length = 8 := by
  have hval : (v.setWidth 64).toNat = v.toNat := by
    rw [BitVec.toNat_setWidth]
    exact Nat.mod_eq_of_lt (v.isLt.trans (by decide))
  have hdigits : (digitBuffer (v.setWidth 64) 16 false).length ≤ 8 := by
    rw [digitBuffer_eq _ (by decide), hval]
    by_cases hzero : v.toNat = 0
    · rw [if_pos hzero]
      decide
    · rw [if_neg hzero, List.length_map, Nat.digits_length_le_iff (by decide)]
      exact v.isLt
  unfold uintText
  rw [List.length_append, List.length_replicate, List.length_reverse]
  omega

theorem ptr_related (hleft : ¬ f.leftAligned) (v : BitVec 32) :
    Related 32 (48 :: 120 :: uintText (v.setWidth 64) 16 false 8 48)
        (f.aligned (48 :: 120 :: uintText (v.setWidth 64) 16 false 8 48)) ∧
      (48 :: 120 :: uintText (v.setWidth 64) 16 false 8 48 =
        f.aligned (48 :: 120 :: uintText (v.setWidth 64) 16 false 8 48) ↔ f.minWidth ≤ 10) := by
  rw [Field.aligned_known hleft, List.length_cons, List.length_cons, ptrText_length]
  generalize uintText (v.setWidth 64) 16 false 8 48 = t
  rcases Nat.lt_or_ge 10 f.minWidth with hwide | hnarrow
  · obtain ⟨n, hn⟩ : ∃ n, f.minWidth - (8 + 1 + 1) = n + 1 := ⟨f.minWidth - 11, by omega⟩
    rw [hn]
    have hclash : Clash (48 :: 120 :: t) (List.replicate (n + 1) 32 ++ 48 :: 120 :: t) :=
      ⟨[], 48, 32, 120 :: t, List.replicate n 32 ++ 48 :: 120 :: t, rfl, rfl, by decide⟩
    exact ⟨.clash hclash (by simp), iff_of_false hclash.ne (by omega)⟩
  · have heq : 48 :: 120 :: t = List.replicate (f.minWidth - (8 + 1 + 1)) 32 ++ 48 :: 120 :: t := by
      rw [Nat.sub_eq_zero_of_le hnarrow]
      rfl
    exact ⟨.same heq, iff_of_true heq hnarrow⟩

/-- The texts of a known conversion are the same, clash, or are blanks; they are the same exactly under
the condition. -/
theorem CConversion.related (hleft : ¬ f.leftAligned) (hprec : f.precision = none) (cv : CConversion) :
    Related 32 (cv.lunaText f.minWidth f.fill) (cv.text f) ∧
      (cv.lunaText f.minWidth f.fill = cv.text f ↔ cv.Agrees f) := by
  have hunsigned : ∀ (val : BitVec 64) (base n : ℕ) (upper : Bool), 1 < base → val.toNat = n →
      uintText val base upper f.minWidth f.fill = f.number [] (cDigits base upper n) := by
    rintro val base n upper hbase rfl
    exact uintText_eq_number hleft hprec val hbase upper
  have hwiden : ∀ v : BitVec 32, (v.setWidth 64).toNat = v.toNat := by
    intro v
    rw [BitVec.toNat_setWidth]
    exact Nat.mod_eq_of_lt (v.isLt.trans (by decide))
  cases cv with
  | str s =>
      have heq : strText s f.minWidth = f.aligned s.chars := by
        rw [Field.aligned_known hleft]
        unfold strText
        rw [Int.toNat_sub]
      have htext : CConversion.text f (.str s) = f.aligned s.chars := by
        unfold CConversion.text
        rw [Field.prec_none hprec]
        rfl
      rw [htext]
      exact ⟨.same heq, iff_of_true heq trivial⟩
  | chr v => exact chr_related hleft _
  | int v =>
      by_cases hmin : v = BitVec.intMin 32
      · subst hmin
        have hclash := intMin_clash hleft hprec
        have hstart : (intText (BitVec.intMin 32) f.minWidth f.fill).head? = some 45 := by
          unfold intText
          rw [if_pos (by decide)]
          rfl
        refine ⟨.clash hclash ?_, iff_of_false hclash.ne ?_⟩
        · intro h
          cases hstart.symm.trans h
        · exact fun h => (h (by decide)).2 rfl
      · obtain ⟨hrelated, hiff⟩ := int_related hleft hprec v
          (fun h => toNat_neg_signExtend (by decide) h hmin)
          (fun h => toNat_signExtend (by decide) v (by omega))
        refine ⟨hrelated, hiff.trans (forall_congr' fun _ => ?_)⟩
        exact (and_iff_left hmin).symm
  | long v =>
      exact int_related hleft hprec v toNat_neg_long fun h => toNat_signExtend le_rfl v (by omega)
  | ptr v => exact ptr_related hleft v
  | uint v =>
      have heq := hunsigned (v.setWidth 64) 10 _ false (by decide) (hwiden v)
      exact ⟨.same heq, iff_of_true heq trivial⟩
  | hex v =>
      have heq := hunsigned (v.setWidth 64) 16 _ false (by decide) (hwiden v)
      exact ⟨.same heq, iff_of_true heq trivial⟩
  | hexUpper v =>
      have heq := hunsigned (v.setWidth 64) 16 _ true (by decide) (hwiden v)
      exact ⟨.same heq, iff_of_true heq trivial⟩
  | ulong v =>
      have heq := hunsigned v 10 _ false (by decide) rfl
      exact ⟨.same heq, iff_of_true heq trivial⟩
  | hexLong v =>
      have heq := hunsigned v 16 _ false (by decide) rfl
      exact ⟨.same heq, iff_of_true heq trivial⟩

end

theorem CPiece.related {p : CPiece} (hvalid : p.Valid) (hknown : p.Known) :
    Related 32 p.lunaText p.text ∧ (p.lunaText = p.text ↔ p.Agrees) := by
  cases p with
  | char c => exact ⟨.same rfl, iff_of_true rfl trivial⟩
  | percent => exact ⟨.same rfl, iff_of_true rfl trivial⟩
  | conversion f cv =>
      obtain ⟨hleft, hprec⟩ := hknown
      obtain ⟨hrelated, hiff⟩ := cv.related hleft hprec
      have hluna : (CPiece.conversion f cv).lunaText = cv.lunaText f.minWidth f.fill := by
        show cv.lunaText (decimal (f.flags ++ f.width)) (padOf (f.flags ++ f.width)) = _
        rw [hvalid.1.lunaWidth hleft, hvalid.1.padOf_eq hleft]
      rw [hluna]
      refine ⟨hrelated, hiff.trans ?_⟩
      exact ⟨fun h => ⟨hleft, hprec, h⟩, fun h => h.2.2⟩

theorem CPiece.Agrees.known {p : CPiece} (h : p.Agrees) : p.Known := by
  cases p with
  | char c => trivial
  | percent => trivial
  | conversion f cv => exact ⟨h.1, h.2.1⟩

/-- **When `luna_snprintf` formats like C**: for a format of literal text and conversions with the arguments
meant for them, exactly if no conversion has the flag `-` or a precision, no `c` a width above 1, no
`p` one above 10, no negative number one above the number of its digits, and no `d` the value
-2^31. -/
theorem formatsLikeC_iff_agrees (ps : List CPiece) (hvalid : ∀ p ∈ ps, p.Valid) (fmt : CString)
    (hfmt : fmt.chars = cChars ps) : FormatsLikeC fmt ps ↔ ∀ p ∈ ps, p.Agrees := by
  rw [formatsLikeC_iff, hfmt, formats_pieces_iff hvalid]
  unfold cText
  constructor
  · rintro ⟨hknown, htext⟩
    have hsame := (flatMap_eq_iff fun p hp => (CPiece.related (hvalid p hp) (hknown p hp)).1).mp htext.symm
    exact fun p hp => (CPiece.related (hvalid p hp) (hknown p hp)).2.mp (hsame p hp)
  · intro h
    have hknown : ∀ p ∈ ps, p.Known := fun p hp => (h p hp).known
    refine ⟨hknown, Eq.symm ?_⟩
    exact List.flatMap_congr fun p hp => (CPiece.related (hvalid p hp) (hknown p hp)).2.mpr (h p hp)

/-- Text without a percent sign. -/
def plainText (s : String) : List CPiece := (ascii s).map .char

theorem plainText_valid {s : String} (h : (ascii s).all (· != 37)) : ∀ p ∈ plainText s, p.Valid := by
  intro p hp
  obtain ⟨c, hc, rfl⟩ := List.mem_map.mp hp
  exact ne_of_all h c hc

def noField : Field := ⟨[], [], none⟩

theorem noField_valid : noField.Valid := ⟨by simp [noField], by simp [noField], by decide, by decide, by simp [noField]⟩

theorem formatsLikeC_iff_agrees_blocks :
    FormatsLikeC (literal "%u blocks") (.conversion noField (.uint 12) :: plainText " blocks") := by
  refine (formatsLikeC_iff_agrees _ ?_ _ (by decide)).mpr ?_
  · exact List.forall_mem_cons.mpr ⟨⟨noField_valid, trivial⟩, plainText_valid (by decide)⟩
  · refine List.forall_mem_cons.mpr ⟨⟨by decide, rfl, trivial⟩, ?_⟩
    intro p hp
    obtain ⟨c, _, rfl⟩ := List.mem_map.mp hp
    trivial

/-- A line of `ps`: the state is left-aligned in a field of 8. -/
def psLine : List CPiece :=
  plainText "  " ++ .conversion ⟨[], [51], none⟩ (.uint 1) :: plainText "   " ++
    .conversion noField (.uint 0) :: plainText "    " ++
    .conversion ⟨[45], [56], none⟩ (.str (literal "READY")) :: plainText " " ++
    [.conversion noField (.str (literal "init"))]

theorem psLine_valid : ∀ p ∈ psLine, p.Valid := by
  have hpid : Field.Valid ⟨[], [51], none⟩ := ⟨by simp, by simp; decide, by decide, by decide, by simp⟩
  have hstate : Field.Valid ⟨[45], [56], none⟩ := ⟨by simp, by simp; decide, by decide, by decide, by simp⟩
  have hleft : ¬ Field.zeroPadded ⟨[45], [56], none⟩ := by decide
  have hnone : ¬ noField.zeroPadded := by decide
  unfold psLine
  simp only [List.mem_append, List.mem_cons, List.not_mem_nil, or_false]
  rintro p (((((hp | rfl | hp) | rfl | hp) | rfl | hp)) | rfl)
  · exact plainText_valid (by decide) p hp
  · exact ⟨hpid, trivial⟩
  · exact plainText_valid (by decide) p hp
  · exact ⟨noField_valid, trivial⟩
  · exact plainText_valid (by decide) p hp
  · exact ⟨hstate, hleft⟩
  · exact plainText_valid (by decide) p hp
  · exact ⟨noField_valid, hnone⟩

/-- The line of `ps` does not come out as in C. -/
theorem psLine_differs :
    (∀ p ∈ psLine, p.Valid) ∧ (literal "  %3u   %u    %-8s %s").chars = cChars psLine ∧
      ¬ FormatsLikeC (literal "  %3u   %u    %-8s %s") psLine := by
  refine ⟨psLine_valid, by decide, ?_⟩
  intro h
  have hformats := formatsLikeC_iff.mp h
  rw [show (literal "  %3u   %u    %-8s %s").chars = cChars psLine by decide] at hformats
  obtain ⟨hknown, _⟩ := (formats_pieces_iff psLine_valid).mp hformats
  have hstate := hknown (.conversion ⟨[45], [56], none⟩ (.str (literal "READY"))) (by simp [psLine])
  exact hstate.1 (by decide)

end LunaOs
