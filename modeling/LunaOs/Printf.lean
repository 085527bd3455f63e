import LunaOs.StringSearch

/-! # Formatted output, `luna_snprintf` of `kernel/string.c`

The function writes one character at a time and none once `size - 1` of them are written, so a buffer
holds the beginning of the text that a larger one would hold whole (`OutBuf.Holds`).

`none` stands for undefined behaviour: a conversion without an argument, or with one of another type,
and a format that ends inside a conversion, behind whose terminator the function reads on.  Widths are
integers; the `int` of the source holds those below 2^31. -/

namespace LunaOs

/-- A variadic argument, by what `__builtin_va_arg` reads for it. -/
inductive VaArg where
  /-- `int32_t`, `uint32_t` and `int` -/
  | int (v : BitVec 32)
  /-- `int64_t` and `uint64_t` -/
  | long (v : BitVec 64)
  /-- `const char*`, `none` for `NULL` -/
  | str (s : Option CString)
  /-- `void*` -/
  | ptr (v : BitVec 32)

/-- The buffer and `pos`. -/
structure OutBuf (k : ℕ) where
  buf : Vector UInt8 k
  pos : ℕ

section
variable {k : ℕ} (max : ℕ)

/-- `if (*pos < max - 1) buf[(*pos)++] = c;` -/
def writeChar (o : OutBuf k) (c : UInt8) : OutBuf k :=
  if o.pos < max - 1 then ⟨o.buf.setIfInBounds o.pos c, o.pos + 1⟩ else o

/-- `write_char` in a loop. -/
def writeChars (o : OutBuf k) (cs : List UInt8) : OutBuf k := cs.foldl (writeChar max) o

def writeStr (o : OutBuf k) (s : CString) (width : ℤ) : OutBuf k :=
  let pad := width - s.chars.length
  let o := writeChars max o (List.replicate pad.toNat 32)
  writeChars max o s.chars

def digitsUpper : List UInt8 := ascii "0123456789ABCDEF"

def digitsLower : List UInt8 := ascii "0123456789abcdef"

/-- `while (val) { tmp[i++] = digits[val % base]; val /= base; }`, at most `fuel` turns: `tmp`, the
last digit first. -/
def uintDigits (digits : List UInt8) (base : ℕ) : ℕ → ℕ → List UInt8
  | 0, _ => []
  | fuel + 1, val =>
      if val = 0 then []
      else digits.getD (val % base) 0 :: uintDigits digits base fuel (val / base)

/-- A 64-bit number has at most 64 digits in any base. -/
def writeUint (o : OutBuf k) (val : BitVec 64) (base : ℕ) (upper : Bool) (width : ℤ) (padCh : UInt8) :
    OutBuf k :=
  let digits := if upper then digitsUpper else digitsLower
  let tmp := if val = 0 then ascii "0" else uintDigits digits base 64 val.toNat
  let pad := width - tmp.length
  let o := writeChars max o (List.replicate pad.toNat padCh)
  writeChars max o tmp.reverse

/-- A signed number: a sign, then the number that `-v` is when it is cast to `uint64_t`. -/
def writeInt (o : OutBuf k) {w : ℕ} (v : BitVec w) (width : ℤ) (padCh : UInt8) : OutBuf k :=
  if v.slt 0 then
    writeUint max (writeChars max o (ascii "-")) ((-v).signExtend 64) 10 false width padCh
  else writeUint max o (v.signExtend 64) 10 false width padCh

/-! ### The format -/

/-- `*fmt >= '0' && *fmt <= '9'` -/
def isDigit (c : UInt8) : Bool := 48 ≤ c && c ≤ 57

/-- `while (*fmt >= '0' && *fmt <= '9') width = width * 10 + (*fmt++ - '0');` -/
def readWidth : List UInt8 → ℤ → ℤ × List UInt8
  | [], width => (width, [])
  | c :: fmt, width =>
      if isDigit c then readWidth fmt (width * 10 + (c.toNat - 48)) else (width, c :: fmt)

/-- `if (*fmt == '0') { pad_ch = '0'; fmt++; }` -/
def readPad : List UInt8 → UInt8 × List UInt8
  | [] => (32, [])
  | c :: fmt => if c = 48 then (48, fmt) else (32, c :: fmt)

/-- The text for a null pointer. -/
def nullText : CString := literal "(null)"

/-- What is left after a conversion. -/
abbrev Converted (k : ℕ) := OutBuf k × List UInt8 × List VaArg

/-- The cases `'l'` of the switch; `fmt` begins with `spec`. -/
def convertLong (o : OutBuf k) (width : ℤ) (padCh : UInt8) :
    List UInt8 → List VaArg → Option (Converted k)
  | [], _ => none
  | spec :: fmt, args =>
      if spec = 117 then -- 'u'
        match args with
        | .long v :: args => some (writeUint max o v 10 false width padCh, fmt, args)
        | _ => none
      else if spec = 120 then -- 'x'
        match args with
        | .long v :: args => some (writeUint max o v 16 false width padCh, fmt, args)
        | _ => none
      else if spec = 100 then -- 'd'
        match args with
        | .long v :: args => some (writeInt max o v width padCh, fmt, args)
        | _ => none
      else some (o, fmt, args)

/-- The switch; `fmt` begins with the conversion character. -/
def convert (o : OutBuf k) (width : ℤ) (padCh : UInt8) :
    List UInt8 → List VaArg → Option (Converted k)
  | [], _ => none
  | c :: fmt, args =>
      if c = 115 then -- 's'
        match args with
        | .str s :: args => some (writeStr max o (s.getD nullText) width, fmt, args)
        | _ => none
      else if c = 99 then -- 'c'
        match args with
        | .int v :: args => some (writeChar max o ⟨v.setWidth 8⟩, fmt, args)
        | _ => none
      else if c = 100 then -- 'd'
        match args with
        | .int v :: args => some (writeInt max o v width padCh, fmt, args)
        | _ => none
      else if c = 117 then -- 'u'
        match args with
        | .int v :: args => some (writeUint max o (v.setWidth 64) 10 false width padCh, fmt, args)
        | _ => none
      else if c = 120 then -- 'x'
        match args with
        | .int v :: args => some (writeUint max o (v.setWidth 64) 16 false width padCh, fmt, args)
        | _ => none
      else if c = 88 then -- 'X'
        match args with
        | .int v :: args => some (writeUint max o (v.setWidth 64) 16 true width padCh, fmt, args)
        | _ => none
      else if c = 112 then -- 'p'
        match args with
        | .ptr v :: args =>
            some (writeUint max (writeChars max o (ascii "0x")) (v.setWidth 64) 16 false 8 48, fmt, args)
        | _ => none
      else if c = 108 then convertLong max o width padCh fmt args -- 'l'
      else if c = 37 then some (writeChar max o 37, fmt, args) -- '%'
      else some (writeChar max o 63, fmt, args) -- '?'

/-- The loop of `luna_snprintf`; each turn reads at least one character of the format. -/
def snprintfLoop : ℕ → List UInt8 → List VaArg → OutBuf k → Option (OutBuf k)
  | 0, _, _, o => some o
  | _ + 1, [], _, o => some o
  | fuel + 1, c :: fmt, args, o =>
      if o.pos < max - 1 then
        if c ≠ 37 then snprintfLoop fuel fmt args (writeChar max o c)
        else
          let (padCh, fmt) := readPad fmt
          let (width, fmt) := readWidth fmt 0
          (convert max o width padCh fmt args).bind fun (o, fmt, args) => snprintfLoop fuel fmt args o
      else some o

end

/-- `luna_snprintf(buf, size, fmt, args...)`: the length it returns and the buffer.  The length is that of
a text in a buffer, and no object has 2³¹ bytes, so the cast of the source to `int` keeps it. -/
def lunaSnprintf {k : ℕ} (buf : Vector UInt8 k) (size : ℕ) (fmt : CString) (args : List VaArg) :
    Option (ℕ × Vector UInt8 k) :=
  if size = 0 then some (0, buf)
  else
    (snprintfLoop size fmt.chars.length fmt.chars args ⟨buf, 0⟩).map fun o =>
      (o.pos, o.buf.setIfInBounds o.pos 0)

/-! ### Text cut off at the end of the buffer -/

/-- The buffer holds the beginning of `t`, as much of it as there is room for. -/
structure OutBuf.Holds {k : ℕ} (max : ℕ) (o : OutBuf k) (t : List UInt8) : Prop where
  pos_eq : o.pos = min t.length (max - 1)
  bytes_eq : bytesFrom (arrayPtr o.buf) o.pos = t.take (max - 1)

section
variable {k max : ℕ} {o : OutBuf k} {t : List UInt8}

/-- Once the buffer is full nothing is written. -/
theorem OutBuf.Holds.append_of_full (h : o.Holds max t) (hfull : ¬ o.pos < max - 1) (t' : List UInt8) :
    o.Holds max (t ++ t') := by
  have hpos := h.pos_eq
  refine ⟨?_, ?_⟩
  · rw [List.length_append]
    omega
  · rw [h.bytes_eq, List.take_append_of_le_length (by omega)]

theorem OutBuf.Holds.writeChar (h : o.Holds max t) (hk : max ≤ k) (c : UInt8) :
    (writeChar max o c).Holds max (t ++ [c]) := by
  have hpos := h.pos_eq
  unfold LunaOs.writeChar
  split_ifs with hroom
  · have hlen : t.length = o.pos := by omega
    have hbytes := h.bytes_eq
    rw [List.take_of_length_le (by omega)] at hbytes
    have hold : bytesFrom (arrayPtr (o.buf.setIfInBounds o.pos c)) o.pos = t := by
      rw [← hbytes]
      apply bytesFrom_congr
      intro i hi
      rw [arrayPtr_setIfInBounds _ _ _ (by omega), if_neg (by omega)]
    refine ⟨?_, ?_⟩
    · rw [List.length_append, List.length_singleton]
      show o.pos + 1 = _
      omega
    · show bytesFrom _ (o.pos + 1) = _
      rw [bytesFrom_add, hold, List.take_of_length_le (by simp; omega)]
      simp [bytesFrom, arrayPtr_setIfInBounds _ _ _ (show o.pos < k by omega)]
  · exact h.append_of_full hroom [c]

theorem OutBuf.Holds.writeChars (h : o.Holds max t) (hk : max ≤ k) (cs : List UInt8) :
    (writeChars max o cs).Holds max (t ++ cs) := by
  induction cs generalizing o t with
  | nil => simpa [LunaOs.writeChars] using h
  | cons c cs ih => simpa [LunaOs.writeChars] using ih (h.writeChar hk c)

theorem OutBuf.Holds.writeStr (h : o.Holds max t) (hk : max ≤ k) (s : CString) {width : ℤ}
    (hwidth : width ≤ s.chars.length) : (writeStr max o s width).Holds max (t ++ s.chars) := by
  have hpad : (width - s.chars.length).toNat = 0 := by omega
  unfold LunaOs.writeStr
  dsimp only
  rw [hpad]
  exact h.writeChars hk s.chars

end

/-- The loop writes `t` for the format and the arguments, or as much of it as there is room for. -/
def Produces (max : ℕ) (fmt : List UInt8) (args : List VaArg) (t : List UInt8) : Prop :=
  ∀ (k : ℕ) (o : OutBuf k) (fuel : ℕ) (t' : List UInt8), max ≤ k → fmt.length ≤ fuel → o.Holds max t' →
    ∃ o', snprintfLoop max fuel fmt args o = some o' ∧ o'.Holds max (t' ++ t)

section
variable {max : ℕ} {fmt t : List UInt8} {args : List VaArg}

theorem produces_nil : Produces max [] args [] := by
  intro k o fuel t' _ _ h
  refine ⟨o, ?_, by simpa using h⟩
  cases fuel <;> rfl

theorem produces_step {c : UInt8} (hturn : ∀ (k : ℕ) (o : OutBuf k) (fuel : ℕ) (t' : List UInt8),
      max ≤ k → fmt.length ≤ fuel → o.Holds max t' → o.pos < max - 1 →
      ∃ o', snprintfLoop max (fuel + 1) (c :: fmt) args o = some o' ∧ o'.Holds max (t' ++ t)) :
    Produces max (c :: fmt) args t := by
  intro k o fuel t' hk hfuel h
  obtain ⟨fuel, rfl⟩ : ∃ n, fuel = n + 1 := ⟨fuel - 1, by simp at hfuel; omega⟩
  by_cases hroom : o.pos < max - 1
  · exact hturn k o fuel t' hk (by simpa using hfuel) h hroom
  · exact ⟨o, by simp [snprintfLoop, hroom], h.append_of_full hroom t⟩

theorem Produces.char (h : Produces max fmt args t) {c : UInt8} (hc : c ≠ 37) :
    Produces max (c :: fmt) args (c :: t) := by
  apply produces_step
  intro k o fuel t' hk hfuel hold hroom
  obtain ⟨o', ho', hholds⟩ := h k _ fuel _ hk hfuel (hold.writeChar hk c)
  exact ⟨o', by simpa [snprintfLoop, hroom, hc] using ho', by simpa using hholds⟩

theorem Produces.literal (h : Produces max fmt args t) {l : List UInt8} (hl : ∀ c ∈ l, c ≠ 37) :
    Produces max (l ++ fmt) args (l ++ t) := by
  induction l with
  | nil => exact h
  | cons c l ih =>
      obtain ⟨hc, hrest⟩ := List.forall_mem_cons.mp hl
      exact (ih hrest).char hc

theorem Produces.str (h : Produces max fmt args t) (s : CString) :
    Produces max (37 :: 115 :: fmt) (.str (some s) :: args) (s.chars ++ t) := by
  apply produces_step
  intro k o fuel t' hk hfuel hold hroom
  have hwide : (0 : ℤ) ≤ s.chars.length := by omega
  have hrest : fmt.length ≤ fuel := by
    rw [List.length_cons] at hfuel
    omega
  obtain ⟨o', ho', hholds⟩ := h k _ fuel _ hk hrest (hold.writeStr hk s hwide)
  have hpad : readPad (115 :: fmt) = (32, 115 :: fmt) := rfl
  have hwidth : readWidth (115 :: fmt) 0 = (0, 115 :: fmt) := rfl
  refine ⟨o', ?_, by simpa using hholds⟩
  simpa [snprintfLoop, hroom, hpad, hwidth, convert] using ho'

/-- **`luna_snprintf`** leaves the text in the buffer, cut off before the last byte, and a NUL behind
it. -/
theorem lunaSnprintf_bytes {fmt : CString} (h : Produces max fmt.chars args t) {k : ℕ}
    (buf : Vector UInt8 k) (hpos : 0 < max) (hk : max ≤ k) :
    ∃ o, snprintfLoop max fmt.chars.length fmt.chars args ⟨buf, 0⟩ = some o ∧
      lunaSnprintf buf max fmt args = some (o.pos, o.buf.setIfInBounds o.pos 0) ∧
      o.pos = min t.length (max - 1) ∧
      bytesFrom (arrayPtr (o.buf.setIfInBounds o.pos 0)) o.pos = t.take (max - 1) ∧
      arrayPtr (o.buf.setIfInBounds o.pos 0) o.pos = 0 := by
  have hempty : OutBuf.Holds max ⟨buf, 0⟩ [] := ⟨by simp, by simp [bytesFrom]⟩
  obtain ⟨o, ho, hholds⟩ := h k ⟨buf, 0⟩ _ [] hk le_rfl hempty
  rw [List.nil_append] at hholds
  have hend := hholds.pos_eq
  refine ⟨o, ho, ?_, hend, ?_, ?_⟩
  · unfold lunaSnprintf
    rw [if_neg hpos.ne', ho]
    rfl
  · rw [← hholds.bytes_eq]
    apply bytesFrom_congr
    intro i hi
    rw [arrayPtr_setIfInBounds _ _ _ (by omega), if_neg (by omega)]
  · rw [arrayPtr_setIfInBounds _ _ _ (by omega), if_pos rfl]

/-- A text without a NUL is the string in the buffer. -/
theorem lunaSnprintf_text {fmt : CString} (h : Produces max fmt.chars args t) {k : ℕ}
    (buf : Vector UInt8 k) (hpos : 0 < max) (hk : max ≤ k) (ht : ∀ c ∈ t, c ≠ 0) :
    ∃ r, lunaSnprintf buf max fmt args = some r ∧ r.1 = min t.length (max - 1) ∧
      ∀ m, max - 1 ≤ m → (textAt (arrayPtr r.2) m).chars = t.take (max - 1) := by
  obtain ⟨o, _, hret, hend, hbytes, hzero⟩ := lunaSnprintf_bytes h buf hpos hk
  have hlen : (t.take (max - 1)).length = o.pos := by
    rw [List.length_take]
    omega
  refine ⟨_, hret, hend, ?_⟩
  intro m hm
  apply textAt_chars
  · rw [hlen, hbytes]
  · exact fun c hc => ht c (List.mem_of_mem_take hc)
  · rw [hlen, hzero]
  · omega

end

end LunaOs
