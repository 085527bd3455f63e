import LunaOs.Printf
import Mathlib.Data.Nat.Digits.Lemmas

/-! # What a format says

Without its buffer `luna_snprintf` is an interpreter: a format and its arguments give a text, and each
conversion takes arguments of its own.  `Formats` is that meaning, as a relation over the characters
of the format.  The code refines it in both directions: what a format says is what is written, as far
as it fits (`Formats.produces`), and a run that ends before the buffer is full has written what the
format says (`formats_of_turns`). -/

namespace LunaOs

/-! ### The text of one conversion -/

/-- `tmp` in `write_uint`, the last digit first. -/
def digitBuffer (val : BitVec 64) (base : ℕ) (upper : Bool) : List UInt8 :=
  if val = 0 then ascii "0" else uintDigits (if upper then digitsUpper else digitsLower) base 64 val.toNat

/-- The text of `%s`. -/
def strText (s : CString) (width : ℤ) : List UInt8 :=
  List.replicate (width - s.chars.length).toNat 32 ++ s.chars

/-- The text of a number without a sign. -/
def uintText (val : BitVec 64) (base : ℕ) (upper : Bool) (width : ℤ) (padCh : UInt8) : List UInt8 :=
  List.replicate (width - (digitBuffer val base upper).length).toNat padCh ++
    (digitBuffer val base upper).reverse

/-- The text of `%d`: the sign goes before the padding. -/
def intText {w : ℕ} (v : BitVec w) (width : ℤ) (padCh : UInt8) : List UInt8 :=
  if v.slt 0 then 45 :: uintText ((-v).signExtend 64) 10 false width padCh
  else uintText (v.signExtend 64) 10 false width padCh

/-- What the switch tells apart: the conversions and what is printed for other characters. -/
inductive Conversion where
  | str | chr | int | uint | hex | hexUpper | ptr | long | ulong | hexLong
  /-- `l` before another character -/
  | longOther
  | percent
  | other

/-- `switch (*fmt++)`; behind an `l` another character is read. -/
def readConversion : List UInt8 → Option (Conversion × List UInt8)
  | [] => none
  | c :: fmt =>
      if c = 115 then some (.str, fmt)
      else if c = 99 then some (.chr, fmt)
      else if c = 100 then some (.int, fmt)
      else if c = 117 then some (.uint, fmt)
      else if c = 120 then some (.hex, fmt)
      else if c = 88 then some (.hexUpper, fmt)
      else if c = 112 then some (.ptr, fmt)
      else if c = 108 then
        match fmt with
        | [] => none
        | spec :: fmt =>
            if spec = 117 then some (.ulong, fmt)
            else if spec = 120 then some (.hexLong, fmt)
            else if spec = 100 then some (.long, fmt)
            else some (.longOther, fmt)
      else if c = 37 then some (.percent, fmt)
      else some (.other, fmt)

/-- What a conversion writes and the arguments it leaves. -/
def Conversion.text (width : ℤ) (padCh : UInt8) :
    Conversion → List VaArg → Option (List UInt8 × List VaArg)
  | .str, .str a :: args => some (strText (a.getD nullText) width, args)
  | .chr, .int v :: args => some ([⟨v.setWidth 8⟩], args)
  | .int, .int v :: args => some (intText v width padCh, args)
  | .uint, .int v :: args => some (uintText (v.setWidth 64) 10 false width padCh, args)
  | .hex, .int v :: args => some (uintText (v.setWidth 64) 16 false width padCh, args)
  | .hexUpper, .int v :: args => some (uintText (v.setWidth 64) 16 true width padCh, args)
  | .ptr, .ptr v :: args => some (48 :: 120 :: uintText (v.setWidth 64) 16 false 8 48, args)
  | .long, .long v :: args => some (intText v width padCh, args)
  | .ulong, .long v :: args => some (uintText v 10 false width padCh, args)
  | .hexLong, .long v :: args => some (uintText v 16 false width padCh, args)
  | .longOther, args => some ([], args)
  | .percent, args => some ([37], args)
  | .other, args => some ([63], args)
  | _, _ => none

section
variable {k max : ℕ} (o : OutBuf k)

theorem writeChars_append (cs cs' : List UInt8) :
    writeChars max o (cs ++ cs') = writeChars max (writeChars max o cs) cs' := List.foldl_append

@[simp] theorem writeChars_nil : writeChars max o [] = o := rfl

@[simp] theorem writeChars_cons (c : UInt8) (cs : List UInt8) :
    writeChars max o (c :: cs) = writeChars max (writeChar max o c) cs := rfl

theorem writeStr_eq (s : CString) (width : ℤ) : writeStr max o s width = writeChars max o (strText s width) := by
  unfold strText
  rw [writeChars_append]
  rfl

theorem writeUint_eq (val : BitVec 64) (base : ℕ) (upper : Bool) (width : ℤ) (padCh : UInt8) :
    writeUint max o val base upper width padCh =
      writeChars max o (uintText val base upper width padCh) := by
  unfold uintText
  rw [writeChars_append]
  rfl

theorem writeInt_eq {w : ℕ} (v : BitVec w) (width : ℤ) (padCh : UInt8) :
    writeInt max o v width padCh = writeChars max o (intText v width padCh) := by
  have hsign : ascii "-" = [45] := by decide
  unfold writeInt intText
  split_ifs
  · rw [writeUint_eq, hsign, writeChars_cons, writeChars_cons, writeChars_nil]
  · rw [writeUint_eq]

/-- Behind an `l`. -/
theorem convertLong_eq (width : ℤ) (padCh : UInt8) (fmt : List UInt8) (args : List VaArg) :
    convertLong max o width padCh fmt args =
      (readConversion (108 :: fmt)).bind fun (cv, rest) =>
        (cv.text width padCh args).map fun (t, args') => (writeChars max o t, rest, args') := by
  cases fmt with
  | nil => rfl
  | cons c fmt =>
      by_cases hUint : c = 117
      · subst hUint
        rcases args with _ | ⟨a, args⟩
        · rfl
        · cases a with
          | long a => exact congrArg (fun o => some (o, fmt, args)) (writeUint_eq o _ 10 false width padCh)
          | _ => rfl
      by_cases hHex : c = 120
      · subst hHex
        rcases args with _ | ⟨a, args⟩
        · rfl
        · cases a with
          | long a => exact congrArg (fun o => some (o, fmt, args)) (writeUint_eq o _ 16 false width padCh)
          | _ => rfl
      by_cases hInt : c = 100
      · subst hInt
        rcases args with _ | ⟨a, args⟩
        · rfl
        · cases a with
          | long a => exact congrArg (fun o => some (o, fmt, args)) (writeInt_eq o a width padCh)
          | _ => rfl
      simp [convertLong, readConversion, hUint, hHex, hInt, Conversion.text]

/-- **The switch** writes the text of the conversion it reads. -/
theorem convert_eq (width : ℤ) (padCh : UInt8) (fmt : List UInt8) (args : List VaArg) :
    convert max o width padCh fmt args =
      (readConversion fmt).bind fun (cv, rest) =>
        (cv.text width padCh args).map fun (t, args') => (writeChars max o t, rest, args') := by
  cases fmt with
  | nil => rfl
  | cons c fmt =>
      by_cases hStr : c = 115
      · subst hStr
        rcases args with _ | ⟨a, args⟩
        · rfl
        · cases a with
          | str a => exact congrArg (fun o => some (o, fmt, args)) (writeStr_eq o _ width)
          | _ => rfl
      by_cases hChr : c = 99
      · subst hChr
        rcases args with _ | ⟨a, args⟩
        · rfl
        · cases a with
          | int a => exact congrArg (fun o => some (o, fmt, args)) (rfl)
          | _ => rfl
      by_cases hInt : c = 100
      · subst hInt
        rcases args with _ | ⟨a, args⟩
        · rfl
        · cases a with
          | int a => exact congrArg (fun o => some (o, fmt, args)) (writeInt_eq o a width padCh)
          | _ => rfl
      by_cases hUint : c = 117
      · subst hUint
        rcases args with _ | ⟨a, args⟩
        · rfl
        · cases a with
          | int a => exact congrArg (fun o => some (o, fmt, args)) (writeUint_eq o _ 10 false width padCh)
          | _ => rfl
      by_cases hHex : c = 120
      · subst hHex
        rcases args with _ | ⟨a, args⟩
        · rfl
        · cases a with
          | int a => exact congrArg (fun o => some (o, fmt, args)) (writeUint_eq o _ 16 false width padCh)
          | _ => rfl
      by_cases hUpper : c = 88
      · subst hUpper
        rcases args with _ | ⟨a, args⟩
        · rfl
        · cases a with
          | int a => exact congrArg (fun o => some (o, fmt, args)) (writeUint_eq o _ 16 true width padCh)
          | _ => rfl
      by_cases hPtr : c = 112
      · subst hPtr
        rcases args with _ | ⟨a, args⟩
        · rfl
        · cases a with
          | ptr a => exact congrArg (fun o => some (o, fmt, args)) (writeUint_eq _ _ 16 false 8 48)
          | _ => rfl
      by_cases hLong : c = 108
      · subst hLong
        exact convertLong_eq o width padCh fmt args
      by_cases hPercent : c = 37
      · subst hPercent
        rfl
      simp only [convert, readConversion, if_neg hStr, if_neg hChr, if_neg hInt, if_neg hUint, if_neg hHex,
        if_neg hUpper, if_neg hPtr, if_neg hLong, if_neg hPercent]
      rfl

end

/-! ### Digits -/

/-- With fuel enough the loop ends at zero: the digits of the number, the last one first. -/
theorem uintDigits_eq {digits : List UInt8} {base fuel val : ℕ} (hbase : 1 < base)
    (hfuel : val < base ^ fuel) :
    uintDigits digits base fuel val = (Nat.digits base val).map fun d => digits.getD d 0 := by
  induction fuel generalizing val with
  | zero =>
      obtain rfl : val = 0 := by simpa using hfuel
      simp [uintDigits]
  | succ fuel ih =>
      unfold uintDigits
      split_ifs with hzero
      · simp [hzero]
      · have hdiv : val / base < base ^ fuel := by
          rw [Nat.div_lt_iff_lt_mul (by omega)]
          rwa [Nat.pow_succ] at hfuel
        rw [ih hdiv, Nat.digits_def' hbase (Nat.pos_of_ne_zero hzero), List.map_cons]

theorem digitBuffer_eq (val : BitVec 64) {base : ℕ} (hbase : 1 < base) (upper : Bool) :
    digitBuffer val base upper =
      if val.toNat = 0 then [48]
      else (Nat.digits base val.toNat).map fun d => (if upper then digitsUpper else digitsLower).getD d 0 := by
  have hzero : val = 0 ↔ val.toNat = 0 := by
    rw [← BitVec.toNat_inj]
    rfl
  have hlt : val.toNat < base ^ 64 := val.isLt.trans_le (Nat.pow_le_pow_left hbase 64)
  unfold digitBuffer
  rw [uintDigits_eq hbase hlt]
  by_cases h : val = 0
  · rw [if_pos h, if_pos (hzero.mp h)]
    decide
  · rw [if_neg h, if_neg (mt hzero.mpr h)]

theorem digitBuffer_length_le (val : BitVec 64) {base n : ℕ} (hbase : 1 < base) (upper : Bool) (hn : 1 ≤ n)
    (hlt : 2 ^ 64 ≤ base ^ n) : (digitBuffer val base upper).length ≤ n := by
  rw [digitBuffer_eq val hbase upper]
  by_cases hzero : val.toNat = 0
  · rw [if_pos hzero]
    exact hn
  · rw [if_neg hzero, List.length_map, Nat.digits_length_le_iff hbase]
    exact val.isLt.trans_le hlt

/-! ### The meaning of a format -/

def decimalFrom (width : ℤ) (ds : List UInt8) : ℤ :=
  ds.foldl (fun width c => width * 10 + ((c.toNat : ℤ) - 48)) width

/-- The number a width stands for. -/
def decimal (ds : List UInt8) : ℤ := decimalFrom 0 ds

/-- A field is padded with zeros if its width begins with one. -/
def padOf (ds : List UInt8) : UInt8 := if ds.head? = some 48 then 48 else 32

/-- A format and its arguments say a text; `taken` lists what each conversion takes. -/
inductive Formats : List UInt8 → List VaArg → List UInt8 → List (List VaArg) → Prop where
  | done (args : List VaArg) : Formats [] args [] []
  | char {c : UInt8} {fmt t : List UInt8} {args : List VaArg} {taken : List (List VaArg)} (hc : c ≠ 37)
      (h : Formats fmt args t taken) : Formats (c :: fmt) args (c :: t) taken
  | conversion {ds fmt rest u t : List UInt8} {c : UInt8} {cv : Conversion} {args args' : List VaArg}
      {taken : List (List VaArg)} (hds : ∀ d ∈ ds, isDigit d) (hc : isDigit c = false)
      (hread : readConversion (c :: fmt) = some (cv, rest))
      (htext : cv.text (decimal ds) (padOf ds) args = some (u, args')) (h : Formats rest args' t taken) :
      Formats (37 :: (ds ++ c :: fmt)) args (u ++ t) (args.take (args.length - args'.length) :: taken)

theorem readWidth_digits {ds : List UInt8} (hds : ∀ d ∈ ds, isDigit d) {c : UInt8} (hc : isDigit c = false)
    (fmt : List UInt8) (width : ℤ) :
    readWidth (ds ++ c :: fmt) width = (decimalFrom width ds, c :: fmt) := by
  induction ds generalizing width with
  | nil => simp [readWidth, hc, decimalFrom]
  | cons d ds ih =>
      obtain ⟨hd, hrest⟩ := List.forall_mem_cons.mp hds
      simp only [List.cons_append, readWidth, hd, if_true]
      exact ih hrest _

theorem exists_digits (fmt : List UInt8) : ∃ ds tail, fmt = ds ++ tail ∧ (∀ d ∈ ds, isDigit d) ∧
    ∀ c rest, tail = c :: rest → isDigit c = false := by
  refine ⟨fmt.takeWhile isDigit, fmt.dropWhile isDigit, List.takeWhile_append_dropWhile.symm, ?_, ?_⟩
  · exact fun d hd => List.all_eq_true.mp List.all_takeWhile d hd
  · intro c rest htail
    have hhead := List.head?_dropWhile_not isDigit fmt
    rw [htail] at hhead
    simpa using hhead

theorem read_only_digits {ds : List UInt8} (hds : ∀ d ∈ ds, isDigit d) :
    ∃ width, readWidth (readPad ds).2 0 = (width, []) := by
  have hall : ∀ (ds : List UInt8) (width : ℤ), (∀ d ∈ ds, isDigit d) →
      ∃ width', readWidth ds width = (width', []) := by
    intro ds
    induction ds with
    | nil => exact fun width _ => ⟨width, rfl⟩
    | cons d ds ih =>
        intro width h
        obtain ⟨hd, hrest⟩ := List.forall_mem_cons.mp h
        simp only [readWidth, hd, if_true]
        exact ih _ hrest
  cases ds with
  | nil => exact ⟨0, rfl⟩
  | cons d ds =>
      simp only [readPad]
      split_ifs
      · exact hall ds 0 (List.forall_mem_cons.mp hds).2
      · exact hall (d :: ds) 0 hds

/-- Behind `%` the padding and the width are read, as far as the digits go. -/
theorem read_digits {ds : List UInt8} (hds : ∀ d ∈ ds, isDigit d) {c : UInt8} (hc : isDigit c = false)
    (fmt : List UInt8) :
    (readPad (ds ++ c :: fmt)).1 = padOf ds ∧
      readWidth (readPad (ds ++ c :: fmt)).2 0 = (decimal ds, c :: fmt) := by
  cases ds with
  | nil =>
      have hne : c ≠ 48 := by
        rintro rfl
        exact absurd hc (by decide)
      simp [readPad, padOf, hne, decimal, decimalFrom, readWidth, hc]
  | cons d ds =>
      obtain ⟨hd, hrest⟩ := List.forall_mem_cons.mp hds
      by_cases hzero : d = 48
      · subst hzero
        refine ⟨by simp [readPad, padOf], ?_⟩
        simp only [List.cons_append, readPad, if_true]
        exact readWidth_digits hrest hc fmt 0
      · refine ⟨by simp [readPad, padOf, hzero], ?_⟩
        simp only [List.cons_append, readPad, if_neg hzero]
        exact readWidth_digits hds hc fmt 0

theorem readConversion_long (spec : UInt8) (fmt : List UInt8) :
    readConversion (108 :: spec :: fmt) =
      if spec = 117 then some (.ulong, fmt)
      else if spec = 120 then some (.hexLong, fmt)
      else if spec = 100 then some (.long, fmt)
      else some (.longOther, fmt) := rfl

theorem readConversion_length {fmt rest : List UInt8} {cv : Conversion}
    (h : readConversion fmt = some (cv, rest)) : rest.length < fmt.length := by
  cases fmt with
  | nil => cases h
  | cons c fmt =>
      rw [List.length_cons, Nat.lt_succ_iff]
      by_cases hlong : c = 108
      · subst hlong
        cases fmt with
        | nil => cases h
        | cons spec fmt =>
            rw [readConversion_long] at h
            rw [List.length_cons]
            repeat' split at h
            all_goals
              cases h
              exact Nat.le_succ _
      · unfold readConversion at h
        dsimp only at h
        rw [if_neg hlong] at h
        repeat' split at h
        all_goals
          cases h
          exact le_rfl

/-- A turn of the loop at a conversion, while there is room. -/
theorem snprintfLoop_conversion {k max fuel : ℕ} {o : OutBuf k} {ds fmt : List UInt8} {args : List VaArg}
    (hroom : o.pos < max - 1) (hds : ∀ d ∈ ds, isDigit d) {c : UInt8} (hc : isDigit c = false) :
    snprintfLoop max (fuel + 1) (37 :: (ds ++ c :: fmt)) args o =
      (convert max o (decimal ds) (padOf ds) (c :: fmt) args).bind fun (o, fmt, args) =>
        snprintfLoop max fuel fmt args o := by
  obtain ⟨hpad, hwidth⟩ := read_digits hds hc fmt
  have hpercent : ¬ (37 : UInt8) ≠ 37 := fun h => h rfl
  simp only [snprintfLoop, if_pos hroom, if_neg hpercent, hpad, hwidth]

section
variable {max : ℕ} {fmt t : List UInt8} {args : List VaArg} {taken : List (List VaArg)}

theorem Produces.conversion {ds rest u : List UInt8} {c : UInt8} {cv : Conversion} {args' : List VaArg}
    (h : Produces max rest args' t) (hds : ∀ d ∈ ds, isDigit d) (hc : isDigit c = false)
    (hread : readConversion (c :: fmt) = some (cv, rest))
    (htext : cv.text (decimal ds) (padOf ds) args = some (u, args')) :
    Produces max (37 :: (ds ++ c :: fmt)) args (u ++ t) := by
  apply produces_step
  intro k o fuel t' hk hfuel hold hroom
  have hshorter := readConversion_length hread
  rw [List.length_append] at hfuel
  obtain ⟨o', ho', hholds⟩ := h k _ fuel _ hk (by omega) (hold.writeChars hk u)
  refine ⟨o', ?_, by simpa using hholds⟩
  rw [snprintfLoop_conversion hroom hds hc, convert_eq, hread, Option.bind_some]
  dsimp only
  rw [htext]
  exact ho'

/-- **What a format says is written**, as far as it fits. -/
theorem Formats.produces (h : Formats fmt args t taken) (max : ℕ) : Produces max fmt args t := by
  induction h with
  | done args => exact produces_nil
  | char hc _ ih => exact ih.char hc
  | conversion hds hc hread htext _ ih => exact ih.conversion hds hc hread htext

end

/-! ### What a run takes -/

/-- The loop of `luna_snprintf` with the arguments each conversion takes. -/
def snprintfTurns {k : ℕ} (max : ℕ) :
    ℕ → List UInt8 → List VaArg → OutBuf k → Option (OutBuf k × List (List VaArg))
  | 0, _, _, o => some (o, [])
  | _ + 1, [], _, o => some (o, [])
  | fuel + 1, c :: fmt, args, o =>
      if o.pos < max - 1 then
        if c ≠ 37 then snprintfTurns max fuel fmt args (writeChar max o c)
        else
          let (padCh, fmt) := readPad fmt
          let (width, fmt) := readWidth fmt 0
          (convert max o width padCh fmt args).bind fun (o, fmt, args') =>
            (snprintfTurns max fuel fmt args' o).map fun (o, taken) =>
              (o, args.take (args.length - args'.length) :: taken)
      else some (o, [])

theorem snprintfTurns_fst {k : ℕ} (max fuel : ℕ) (fmt : List UInt8) (args : List VaArg) (o : OutBuf k) :
    (snprintfTurns max fuel fmt args o).map Prod.fst = snprintfLoop max fuel fmt args o := by
  induction fuel generalizing fmt args o with
  | zero => rfl
  | succ fuel ih =>
      cases fmt with
      | nil => rfl
      | cons c fmt =>
          unfold snprintfTurns snprintfLoop
          dsimp only
          split_ifs
          · exact ih fmt args _
          · rw [Option.map_bind]
            congr 1
            funext r
            obtain ⟨o', fmt', args'⟩ := r
            rw [← ih, Function.comp_apply, Option.map_map]
            rfl
          · rfl

section
variable {k max : ℕ}

theorem snprintfTurns_conversion {fuel : ℕ} {o : OutBuf k} {ds fmt : List UInt8} {args : List VaArg}
    (hroom : o.pos < max - 1) (hds : ∀ d ∈ ds, isDigit d) {c : UInt8} (hc : isDigit c = false) :
    snprintfTurns max (fuel + 1) (37 :: (ds ++ c :: fmt)) args o =
      (convert max o (decimal ds) (padOf ds) (c :: fmt) args).bind fun (o, fmt, args') =>
        (snprintfTurns max fuel fmt args' o).map fun (o, taken) =>
          (o, args.take (args.length - args'.length) :: taken) := by
  obtain ⟨hpad, hwidth⟩ := read_digits hds hc fmt
  have hpercent : ¬ (37 : UInt8) ≠ 37 := fun h => h rfl
  simp only [snprintfTurns, if_pos hroom, if_neg hpercent, hpad, hwidth]

theorem writeChar_pos_le (max : ℕ) (o : OutBuf k) (c : UInt8) :
    o.pos ≤ (writeChar max o c).pos ∧ (writeChar max o c).pos ≤ o.pos + 1 := by
  unfold writeChar
  split_ifs
  · exact ⟨Nat.le_succ _, le_rfl⟩
  · exact ⟨le_rfl, Nat.le_succ _⟩

theorem writeChars_pos_le (max : ℕ) (o : OutBuf k) (t : List UInt8) :
    o.pos ≤ (writeChars max o t).pos ∧ (writeChars max o t).pos ≤ o.pos + t.length := by
  induction t generalizing o with
  | nil => exact ⟨le_rfl, le_rfl⟩
  | cons c t ih =>
      obtain ⟨h1, h2⟩ := writeChar_pos_le max o c
      obtain ⟨h3, h4⟩ := ih (writeChar max o c)
      rw [writeChars_cons, List.length_cons]
      omega

theorem snprintfTurns_pos_le {fuel : ℕ} {fmt : List UInt8} {args : List VaArg} {o o' : OutBuf k}
    {taken : List (List VaArg)} (h : snprintfTurns max fuel fmt args o = some (o', taken)) :
    o.pos ≤ o'.pos := by
  induction fuel generalizing fmt args o taken with
  | zero =>
      cases h
      exact le_rfl
  | succ fuel ih =>
      cases fmt with
      | nil =>
          cases h
          exact le_rfl
      | cons c fmt =>
          unfold snprintfTurns at h
          dsimp only at h
          split_ifs at h
          · exact (writeChar_pos_le max o c).1.trans (ih h)
          · rw [convert_eq] at h
            obtain ⟨⟨o₁, fmt', args'⟩, hconvert, hrest⟩ := Option.bind_eq_some_iff.mp h
            obtain ⟨⟨o₂, taken'⟩, hturns, heq⟩ := Option.map_eq_some_iff.mp hrest
            obtain ⟨⟨cv, rest⟩, _, hmap⟩ := Option.bind_eq_some_iff.mp hconvert
            obtain ⟨⟨t, args''⟩, _, hwritten⟩ := Option.map_eq_some_iff.mp hmap
            cases hwritten
            cases heq
            exact (writeChars_pos_le max o t).1.trans (ih hturns)
          · cases h
            exact le_rfl

/-- With room to spare the whole text is written, and each conversion takes its arguments. -/
theorem Formats.turns {fmt t : List UInt8} {args : List VaArg} {taken : List (List VaArg)}
    (h : Formats fmt args t taken) {o : OutBuf k} {fuel : ℕ} (hfuel : fmt.length ≤ fuel)
    (hroom : o.pos + t.length < max - 1) :
    snprintfTurns max fuel fmt args o = some (writeChars max o t, taken) := by
  induction h generalizing o fuel with
  | done args => cases fuel <;> rfl
  | @char c fmt t args taken hc h ih =>
      obtain ⟨fuel, rfl⟩ : ∃ n, fuel = n + 1 := ⟨fuel - 1, by simp at hfuel; omega⟩
      rw [List.length_cons] at hfuel hroom
      have hpos := (writeChar_pos_le max o c).2
      unfold snprintfTurns
      rw [if_pos (by omega), if_pos hc]
      exact ih (by omega) (by omega)
  | @conversion ds fmt rest u t c cv args args' taken hds hc hread htext h ih =>
      obtain ⟨fuel, rfl⟩ : ∃ n, fuel = n + 1 := ⟨fuel - 1, by simp at hfuel; omega⟩
      have hshorter := readConversion_length hread
      rw [List.length_cons, List.length_append] at hfuel
      rw [List.length_append] at hroom
      have hpos := (writeChars_pos_le max o u).2
      rw [snprintfTurns_conversion (by omega) hds hc, convert_eq, hread, Option.bind_some]
      dsimp only
      rw [htext, writeChars_append]
      dsimp only [Option.map_some, Option.bind_some]
      rw [ih (by omega) (by omega)]
      rfl

/-- **A run that ends before the buffer is full** has written what the format says. -/
theorem formats_of_turns {fuel : ℕ} {fmt : List UInt8} {args : List VaArg} {o o' : OutBuf k}
    {taken : List (List VaArg)} (h : snprintfTurns max fuel fmt args o = some (o', taken))
    (hfuel : fmt.length ≤ fuel) (hroom : o'.pos < max - 1) :
    ∃ t, Formats fmt args t taken ∧ o' = writeChars max o t := by
  induction fuel generalizing fmt args o taken with
  | zero =>
      obtain rfl := List.length_eq_zero_iff.mp (Nat.le_zero.mp hfuel)
      cases h
      exact ⟨[], .done args, rfl⟩
  | succ fuel ih =>
      have hstart : o.pos < max - 1 := (snprintfTurns_pos_le h).trans_lt hroom
      cases fmt with
      | nil =>
          cases h
          exact ⟨[], .done args, rfl⟩
      | cons c fmt =>
          by_cases hc : c = 37
          · subst hc
            obtain ⟨ds, tail, rfl, hds, htail⟩ := exists_digits fmt
            cases tail with
            | nil =>
                obtain ⟨width, hwidth⟩ := read_only_digits hds
                unfold snprintfTurns at h
                rw [List.append_nil, if_pos hstart, if_neg (fun hne => hne rfl)] at h
                dsimp only at h
                rw [hwidth] at h
                cases h
            | cons c rest =>
                have hc := htail c rest rfl
                rw [snprintfTurns_conversion hstart hds hc, convert_eq] at h
                obtain ⟨⟨o₁, fmt', args'⟩, hconvert, hrest⟩ := Option.bind_eq_some_iff.mp h
                obtain ⟨⟨o₂, taken'⟩, hturns, heq⟩ := Option.map_eq_some_iff.mp hrest
                obtain ⟨⟨cv, rest'⟩, hread, hmap⟩ := Option.bind_eq_some_iff.mp hconvert
                obtain ⟨⟨u, args''⟩, htext, hwritten⟩ := Option.map_eq_some_iff.mp hmap
                cases hwritten
                cases heq
                have hshorter := readConversion_length hread
                rw [List.length_cons, List.length_append] at hfuel
                obtain ⟨t, hformats, rfl⟩ := ih hturns (by omega)
                exact ⟨u ++ t, .conversion hds hc hread htext hformats, (writeChars_append o u t).symm⟩
          · unfold snprintfTurns at h
            rw [if_pos hstart, if_pos hc] at h
            obtain ⟨t, hformats, rfl⟩ := ih h (by simpa using hfuel)
            exact ⟨c :: t, .char hc hformats, rfl⟩

end

end LunaOs
