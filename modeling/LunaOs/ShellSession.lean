import LunaOs.LedgerRetention
import LunaOs.PrintfText
import LunaOs.Sha256
import LunaOs.ShellAi
import LunaOs.Strtoul

/-! # What typed lines print, `cmd_hash` and `cmd_ledger` of `user/shell/shell.c`

From the keys to the text on the screen: the line editor, the words of the line, the command, the digest or
the ledger, and the formatted text.  What a command gives to `shell_println` is the list of its strings;
`none` is a fault.  The local arrays hold any bytes at first.

The listing of the ledger asks for `%.8s`, which `luna_snprintf` does not know: it shows a question mark and
never a hash. -/

namespace LunaOs

open Words Hash

/-! ### The commands -/

/-- `HEX_TABLE` -/
def hexTable : List UInt8 := ascii "0123456789abcdef"

/-- The body of the loop in `sha256_to_hex`. -/
def toHexStep (digest : Digest) (buf : Vector UInt8 65) (i : ℕ) : Vector UInt8 65 :=
  let buf := buf.setIfInBounds (i * 2 + 0) (hexTable.getD ((arrayPtr digest i >>> 4) &&& 0xF).toNat 0)
  buf.setIfInBounds (i * 2 + 1) (hexTable.getD (arrayPtr digest i &&& 0xF).toNat 0)

/-- `sha256_to_hex`: two digits a byte and a terminator. -/
def sha256ToHex (digest : Digest) (buf : Vector UInt8 65) : Vector UInt8 65 :=
  ((List.range 32).foldl (toHexStep digest) buf).setIfInBounds 64 0

/-- The string in a buffer. -/
def bufText {k : ℕ} (buf : Vector UInt8 k) : CString := textAt (arrayPtr buf) k

/-- What `cmd_hash` prints. -/
def cmdHash (stk : Sha256Stack) (hex : Vector UInt8 65) (line : Vector UInt8 128) (argv : List ℕ)
    (obj : List UInt8) : Option (List UInt8) :=
  if argv.length < 2 then some (ascii "Usage: hash <string|file>")
  else do
    let arg ← argv[1]?
    let text ← stringFrom obj arg
    let digest := sha256 stk text.ptr (UInt32.ofNat text.chars.length)
    let hex := sha256ToHex digest hex
    let (_, line) ← lunaSnprintf line 128 (literal "SHA-256: %s") [.str (bufText hex)]
    return (bufText line).chars

/-- `WRITE`, `READ` or `OTHER`. -/
def actionName (action : UInt8) : CString :=
  if action = LEDGER_ACTION_VFS_WRITE then literal "WRITE"
  else if action = LEDGER_ACTION_VFS_READ then literal "READ"
  else literal "OTHER"

/-- The loop of `cmd_ledger` with `r` blocks left from block `i` on. -/
def ledgerLines (l : Ledger) (hex : Vector UInt8 65) : ℕ → UInt32 → Vector UInt8 128 → Option (List (List UInt8))
  | 0, _, _ => some []
  | r + 1, i, line => do
      let b ← ledgerGetBlock l i
      let hashHex := sha256ToHex b.blockHash hex
      let target ← stringFrom b.target.toList 0
      let (_, line) ← lunaSnprintf line 128 (literal "  [%04u] %s | %s | %.8s...")
        [.int b.index.toBitVec, .str target, .str (actionName b.actionType), .str (bufText hashHex)]
      let lines ← ledgerLines l hex r (i + 1) line
      return (bufText line).chars :: lines

/-- `argc >= 2 && luna_strcmp(argv[1], "verify") == 0` -/
def asksToVerify (argv : List ℕ) (obj : List UInt8) : Option Bool :=
  if argv.length ≥ 2 then do
    let arg ← argv[1]?
    let text ← stringFrom obj arg
    return lunaStrcmp text (literal "verify") = 0
  else some false

/-- What `cmd_ledger` prints. -/
def cmdLedger (sha256 : List UInt8 → Digest) (l : Ledger) (hex : Vector UInt8 65) (line : Vector UInt8 128)
    (argv : List ℕ) (obj : List UInt8) : Option (List (List UInt8)) := do
  if ← asksToVerify argv obj then
    return [if ledgerVerifyChain sha256 l then ascii "[LEDGER] Chain VALID" else ascii "[LEDGER] TAMPER DETECTED"]
  else
    let count := ledgerGetCount l
    let (_, line) ← lunaSnprintf line 128 (literal "[LEDGER] %u blocks") [.int count.toBitVec]
    let shown := if count > 8 then 8 else count
    let first := if count > shown then count - shown else 0
    let lines ← ledgerLines l hex (count - first).toNat first line
    return (bufText line).chars :: lines

/-- A submitted buffer runs a command with these arguments. -/
def Executes (nlp : CString → Option CString) (lineCopy : Vector UInt8 256) (cmdCopy : List UInt8)
    (buf : List UInt8) (cmd : Builtin) (argv : List ℕ) (obj : List UInt8) : Prop :=
  ∃ line, stringFrom buf 0 = some line ∧
    executeLine nlp lineCopy.toList cmdCopy line = some (.builtin argv obj) ∧ runBuiltin argv obj = some cmd

/-! ### Typed lines -/

/-- Only these characters are held. -/
def Printable (l : List UInt8) : Prop := ∀ c ∈ l, 0x20 ≤ c.toInt8.toInt

theorem Editor.edit_printable {held : List UInt8} (h : Printable held) (c : UInt8) :
    Printable (Editor.edit held c) := by
  unfold Editor.edit
  split_ifs with hback hchar
  · exact fun d hd => h d (List.mem_of_mem_dropLast hd)
  · intro d hd
    rcases List.mem_append.mp hd with hd | hd
    · exact h d hd
    · rw [List.mem_singleton.mp hd]
      exact hchar.1
  · exact h

theorem Editor.foldl_printable (keys : List UInt8) {e : Editor} (hheld : Printable e.held)
    (hlines : ∀ line ∈ e.lines, Printable line) :
    Printable (keys.foldl Editor.key e).held ∧ ∀ line ∈ (keys.foldl Editor.key e).lines, Printable line := by
  induction keys generalizing e with
  | nil => exact ⟨hheld, hlines⟩
  | cons c keys ih =>
      rw [List.foldl_cons]
      unfold Editor.key
      split_ifs with hnewline
      · refine ih (fun d hd => absurd hd List.not_mem_nil) fun line hline => ?_
        rcases List.mem_append.mp hline with hline | hline
        · exact hlines line hline
        · rw [List.mem_singleton.mp hline]
          exact hheld
      · exact ih (edit_printable hheld c) hlines

theorem Editor.run_printable {keys line : List UInt8} (h : line ∈ (Editor.run keys).lines) : Printable line :=
  (Editor.foldl_printable keys (fun _ hd => absurd hd List.not_mem_nil)
    fun _ hline => absurd hline List.not_mem_nil).2 line h

theorem Printable.ne {l : List UInt8} (h : Printable l) {c d : UInt8} (hc : c ∈ l)
    (hd : d.toInt8.toInt < 0x20) : c ≠ d := by
  rintro rfl
  exact absurd (h c hc) (Int.not_le.mpr hd)

/-- Behind the blanks a trimmed line has none at its beginning. -/
theorem trimLine_head (line : CString) : ∀ c, (trimLine line).chars.head? = some c → isBlank c = false := by
  intro c hc
  have hhead := List.head?_dropWhile_not (fun c : UInt8 => decide (c = 32) || decide (c = 9)) line.chars
  have hchars : (line.chars.dropWhile fun c => decide (c = 32) || decide (c = 9)).head? = some c := hc
  rw [hchars] at hhead
  rw [← Bool.not_eq_true, isBlank_iff]
  simpa using hhead

/-- **A typed command** gets the first 15 words of its line. -/
theorem executes_of_words (nlp : CString → Option CString) (lineCopy : Vector UInt8 256) (cmdCopy : List UInt8)
    (cmd : CString × Builtin) {buf line : List UInt8} (hbuf : StringAt buf 0 line) (hprint : Printable line)
    (hline : line.length ≤ 254) (hcmd : cmd ∈ builtins)
    (hword : (words isBlank line).head? = some cmd.1.chars) :
    ∃ argv obj, Executes nlp lineCopy cmdCopy buf cmd.2 argv obj ∧
      List.Forall₂ (StringAt obj) argv ((words isBlank line).take 15) := by
  obtain ⟨str, hstr⟩ : ∃ str : CString, str.chars = line :=
    ⟨⟨line, fun c hc => hprint.ne hc (by decide)⟩, rfl⟩
  subst hstr
  have htrimmed := trimLine_length_le str
  have hword' := hword
  rw [← words_trimLine] at hword'
  obtain ⟨r, hchars, hw, hr⟩ := first_of_words (trimLine_head str) hword'
  have hroute : isEnglishIntent (trimLine str) = false := by
    refine isEnglishIntent_eq_false.mpr (.inl ((firstWord_mem_iff hcmd hchars hw hr).mpr fun htab => ?_))
    have hmem := (List.dropWhile_suffix _).subset (List.mem_of_getElem? htab)
    exact hprint.ne hmem (by decide) rfl
  have hwords : words isBlank (trimLine str).chars ≠ [] := by
    intro h
    rw [h] at hword'
    cases hword'
  have hne : (trimLine str).chars ≠ [] := by
    intro h
    rw [h, words_of_all (by simp)] at hwords
    exact hwords rfl
  have hintact := (executeWords_iff lineCopy (by omega : (trimLine str).chars.length ≤ 255)).mpr (.inl (by omega))
  unfold Intact at hintact
  rw [if_neg hwords, words_trimLine] at hintact
  obtain ⟨argv, obj, hres, hargv⟩ := hintact
  exact ⟨argv, obj, ⟨str, stringFrom_eq hbuf, (executeLine_of_false hroute hne).trans hres,
    runBuiltin_eq hcmd hargv hword⟩, hargv⟩

/-! ### The digits of a digest -/

/-- The character of a hexadecimal digit. -/
def hexDigit (d : ℕ) : UInt8 := UInt8.ofNat (if d < 10 then 48 + d else 87 + d)

/-- Two digits for each byte. -/
def hexText (bytes : List UInt8) : List UInt8 :=
  bytes.flatMap fun b => [hexDigit (b.toNat / 16), hexDigit (b.toNat % 16)]

theorem length_hexText (bytes : List UInt8) : (hexText bytes).length = 2 * bytes.length := by
  induction bytes with
  | nil => rfl
  | cons b bytes ih =>
      change (_ :: _ :: hexText bytes).length = _
      rw [List.length_cons, List.length_cons, List.length_cons, ih]
      omega

theorem hexTable_getD {d : ℕ} (h : d < 16) : hexTable.getD d 0 = hexDigit d := by
  interval_cases d <;> decide

theorem hexDigit_ne_zero {d : ℕ} (h : d < 16) : hexDigit d ≠ 0 := by
  interval_cases d <;> decide

theorem hexText_nonzero (bytes : List UInt8) : ∀ c ∈ hexText bytes, c ≠ 0 := by
  intro c hc
  obtain ⟨b, _, hc⟩ := List.mem_flatMap.mp hc
  have hb := b.toNat_lt
  rcases List.mem_pair.mp hc with rfl | rfl
  · exact hexDigit_ne_zero (by omega)
  · exact hexDigit_ne_zero (by omega)

/-- The digits of byte `i` stand at `2 * i`, and those of the bytes before it before them. -/
theorem arrayPtr_toHex (digest : Digest) (buf : Vector UInt8 65) {n : ℕ} (hn : n ≤ 32) {j : ℕ} (hj : j < 2 * n) :
    arrayPtr ((List.range n).foldl (toHexStep digest) buf) j =
      hexDigit (if j % 2 = 0 then (arrayPtr digest (j / 2)).toNat / 16 else (arrayPtr digest (j / 2)).toNat % 16) := by
  induction n with
  | zero => omega
  | succ n ih =>
      have hj65 : j < 65 := by omega
      have hdigit : (arrayPtr digest n).toNat / 16 < 16 := by
        have hlt := (arrayPtr digest n).toNat_lt
        omega
      have hhigh : ((arrayPtr digest n >>> 4) &&& 0xF).toNat = (arrayPtr digest n).toNat / 16 := by
        have hmask : (arrayPtr digest n).toNat / 16 % 16 = (arrayPtr digest n).toNat / 16 := Nat.mod_eq_of_lt hdigit
        rw [UInt8.toNat_and, UInt8.toNat_shiftRight, Nat.shiftRight_eq_div_pow]
        exact (Nat.and_two_pow_sub_one_eq_mod _ 4).trans hmask
      have hlow : (arrayPtr digest n &&& 0xF).toNat = (arrayPtr digest n).toNat % 16 := by
        rw [UInt8.toNat_and]
        exact Nat.and_two_pow_sub_one_eq_mod _ 4
      rw [List.range_succ, List.foldl_append, List.foldl_cons, List.foldl_nil]
      unfold toHexStep at ih ⊢
      dsimp only at ih ⊢
      rw [arrayPtr_setIfInBounds _ _ _ hj65, arrayPtr_setIfInBounds _ _ _ hj65, hhigh, hlow,
        hexTable_getD hdigit, hexTable_getD (Nat.mod_lt _ (by decide))]
      by_cases hlast : n * 2 + 1 = j
      · rw [if_pos hlast, if_neg (by omega), show j / 2 = n by omega]
      · rw [if_neg hlast]
        by_cases hfirst : n * 2 + 0 = j
        · rw [if_pos hfirst, if_pos (by omega), show j / 2 = n by omega]
        · rw [if_neg hfirst]
          exact ih (by omega) (by omega)

theorem getElem?_hexText (bytes : List UInt8) {j : ℕ} (hj : j < 2 * bytes.length) :
    (hexText bytes)[j]? = some (hexDigit (if j % 2 = 0 then (listPtr bytes (j / 2)).toNat / 16
      else (listPtr bytes (j / 2)).toNat % 16)) := by
  induction bytes generalizing j with
  | nil => simp at hj
  | cons b bytes ih =>
      have hcons : hexText (b :: bytes) = hexDigit (b.toNat / 16) :: hexDigit (b.toNat % 16) :: hexText bytes := rfl
      rw [hcons]
      match j with
      | 0 => rfl
      | 1 => rfl
      | j + 2 =>
          rw [List.length_cons] at hj
          rw [List.getElem?_cons_succ, List.getElem?_cons_succ, ih (by omega), Nat.add_mod_right,
            Nat.add_div_right j (by decide)]
          rfl

/-- **`sha256_to_hex`** writes the digits of the digest, and a NUL behind them. -/
theorem bufText_sha256ToHex (digest : Digest) (buf : Vector UInt8 65) :
    (bufText (sha256ToHex digest buf)).chars = hexText digest.toList := by
  have hlen : (hexText digest.toList).length = 64 := by rw [length_hexText, Vector.length_toList]
  apply textAt_chars
  · apply List.ext_getElem?
    intro j
    rw [hlen]
    by_cases hj : j < 64
    · have hdigest : listPtr digest.toList (j / 2) = arrayPtr digest (j / 2) := by
        rw [arrayPtr_lt _ (by omega : j / 2 < 32), ← Vector.getElem_toList (by rw [Vector.length_toList]; omega)]
        exact List.getElem_eq_getD 0 |>.symm
      rw [getElem?_hexText _ (by rw [Vector.length_toList]; omega), hdigest, bytesFrom, List.getElem?_map,
        List.getElem?_range hj, Option.map_some]
      unfold sha256ToHex
      rw [arrayPtr_setIfInBounds _ _ _ (by omega), if_neg (by omega), arrayPtr_toHex digest buf le_rfl (by omega)]
    · rw [List.getElem?_eq_none (by rw [bytesFrom_length]; omega), List.getElem?_eq_none (by omega)]
  · exact hexText_nonzero _
  · unfold sha256ToHex
    rw [hlen, arrayPtr_setIfInBounds _ _ _ (by decide), if_pos rfl]
  · omega

/-! ### The `hash` command -/

/-- The string in a buffer behind `luna_snprintf`. -/
theorem bufText_lunaSnprintf {fmt : CString} {args : List VaArg} {t : List UInt8} {k : ℕ}
    (h : Produces k fmt.chars args t) (buf : Vector UInt8 k) (ht : ∀ c ∈ t, c ≠ 0) (hlen : t.length < k) :
    ∃ n buf', lunaSnprintf buf k fmt args = some (n, buf') ∧ (bufText buf').chars = t := by
  obtain ⟨r, hr, _, htext⟩ := lunaSnprintf_text h buf (by omega) le_rfl ht
  refine ⟨r.1, r.2, hr, (htext k (Nat.sub_le _ _)).trans ?_⟩
  exact List.take_of_length_le (by omega)

/-- What is said about a digest. -/
def hashText (digest : List UInt8) : List UInt8 := ascii "SHA-256: " ++ hexText digest

theorem cmdHash_eq (stk : Sha256Stack) (hex : Vector UInt8 65) (line : Vector UInt8 128) {argv : List ℕ}
    {obj name : List UInt8} {w : CString} {ws : List (List UInt8)}
    (hargv : List.Forall₂ (StringAt obj) argv (name :: w.chars :: ws)) (hw : w.chars.length < 4294967296) :
    cmdHash stk hex line argv obj = some (hashText (Fips180.sha256 w.chars)) := by
  rcases hargv with _ | ⟨_, hargv⟩
  rcases hargv with _ | ⟨harg, _⟩
  have hdigest : (sha256 stk w.ptr (UInt32.ofNat w.chars.length)).toList = Fips180.sha256 w.chars := by
    rw [sha256_eq_fips, UInt32.toNat_ofNat_of_lt' hw]
    exact congrArg Fips180.sha256 (bytesFrom_listPtr w.chars)
  have hhex := bufText_sha256ToHex (sha256 stk w.ptr (UInt32.ofNat w.chars.length)) hex
  rw [hdigest] at hhex
  have hproduces : Produces 128 (literal "SHA-256: %s").chars
      [.str (some (bufText (sha256ToHex (sha256 stk w.ptr (UInt32.ofNat w.chars.length)) hex)))]
      (hashText (Fips180.sha256 w.chars)) := by
    have hend : Produces 128 [] [] [] := produces_nil
    have htext := (hend.str (bufText (sha256ToHex (sha256 stk w.ptr (UInt32.ofNat w.chars.length)) hex))).literal
      (l := ascii "SHA-256: ") (ne_of_all (by decide))
    rw [List.append_nil, hhex] at htext
    exact htext
  have hlength : (hexText (Fips180.sha256 w.chars)).length = 64 := by
    rw [length_hexText, ← hdigest, Vector.length_toList]
  have hnonzero : ∀ c ∈ hashText (Fips180.sha256 w.chars), c ≠ 0 := by
    intro c hc
    rcases List.mem_append.mp hc with hc | hc
    · exact ne_of_all (l := ascii "SHA-256: ") (by decide) c hc
    · exact hexText_nonzero _ c hc
  obtain ⟨n, line', hprint, htext⟩ := bufText_lunaSnprintf hproduces line hnonzero (by
    rw [hashText, List.length_append, hlength]
    decide)
  unfold cmdHash
  rw [if_neg (by simp)]
  simp only [List.getElem?_cons_succ, List.getElem?_cons_zero, Option.bind_eq_bind, Option.bind_some,
    stringFrom_eq harg, hprint]
  exact congrArg some htext

theorem length_le_of_mem_words {line w : List UInt8} (hw : w ∈ words isBlank line) : w.length ≤ line.length := by
  have hsum := sum_words_le isBlank line
  have hle := List.single_le_sum (fun _ _ => Nat.zero_le _) _
    (List.mem_map_of_mem (f := fun w => w.length + 1) hw)
  omega

theorem mem_printable_words {line w : List UInt8} (hprint : Printable line) (hw : w ∈ words isBlank line) :
    ∀ c ∈ w, c ≠ 0 := fun _ hc => hprint.ne (mem_of_mem_words hw hc) (by decide)

/-- **A typed `hash`** prints the FIPS 180-4 digest of the second word, whatever was typed and erased before,
and whatever the arrays on the stack hold. -/
theorem typed_hash (s : ShellState) (hs : SlotsEnd s.history) (keys : List UInt8)
    (hfew : keys.count 10 < 2147483648) (nlp : CString → Option CString) (lineCopy : Vector UInt8 256)
    (cmdCopy : List UInt8) (stk : Sha256Stack) (hex : Vector UInt8 65) (out : Vector UInt8 128) :
    ∃ s' bufs, shellKeys keys (shellInit s) = some (s', bufs) ∧
      List.Forall₂ (fun buf line => line.length ≤ 254 → ∀ w ws, words isBlank line = ascii "hash" :: w :: ws →
          ∃ argv obj, Executes nlp lineCopy cmdCopy buf .hash argv obj ∧
            cmdHash stk hex out argv obj = some (hashText (Fips180.sha256 w)))
        bufs (Editor.run keys).lines := by
  obtain ⟨s', bufs, hkeys, _, hsubmits⟩ := shellKeys_refines hs keys hfew
  refine ⟨s', bufs, hkeys, List.forall₂_iff_get.mpr ⟨hsubmits.length_eq, fun i hi hi' hlen w ws hwords => ?_⟩⟩
  have hprint : Printable ((Editor.run keys).lines.get ⟨i, hi'⟩) := Editor.run_printable (List.get_mem _ _)
  obtain ⟨argv, obj, hruns, hargv⟩ := executes_of_words nlp lineCopy cmdCopy (literal "hash" (by decide), .hash)
    (hsubmits.get hi hi') hprint hlen (by decide) (by rw [hwords]; rfl)
  have hmem : w ∈ words isBlank ((Editor.run keys).lines.get ⟨i, hi'⟩) := by
    rw [hwords]
    exact List.mem_cons_of_mem _ List.mem_cons_self
  have hlenw := length_le_of_mem_words hmem
  refine ⟨argv, obj, hruns, ?_⟩
  rw [hwords] at hargv
  exact cmdHash_eq (w := ⟨w, mem_printable_words hprint hmem⟩) stk hex out hargv (by
    change w.length < _
    omega)

/-- `hash abc`, with a slip that is erased. -/
def hashKeys : List UInt8 := ascii "hahs" ++ [8, 8] ++ ascii "sh abc" ++ [10]

theorem typed_hash_abc : ∃ s' buf argv obj, shellKeys hashKeys (shellInit shellBoot) = some (s', [buf]) ∧
    Executes (fun _ => none) (Vector.replicate 256 1) [] buf .hash argv obj ∧
      cmdHash ⟨Vector.replicate 64 0, Vector.replicate 64 0⟩ (Vector.replicate 65 1) (Vector.replicate 128 1) argv obj =
        some (hashText (Fips180.sha256 (ascii "abc"))) := by
  obtain ⟨s', bufs, hkeys, hbufs⟩ := typed_hash shellBoot slotsEnd_boot hashKeys (by decide) (fun _ => none)
    (Vector.replicate 256 1) [] ⟨Vector.replicate 64 0, Vector.replicate 64 0⟩ (Vector.replicate 65 1)
    (Vector.replicate 128 1)
  have hlines : (Editor.run hashKeys).lines = [ascii "hash abc"] := by decide
  rw [hlines] at hbufs
  rcases hbufs with _ | ⟨hbuf, hnil⟩
  cases hnil
  obtain ⟨argv, obj, hruns, hprint⟩ := hbuf (by decide) (ascii "abc") [] (by decide)
  exact ⟨s', _, argv, obj, hkeys, hruns, hprint⟩

/-! ### The `ledger` command -/

/-- `"[LEDGER] %u blocks"` -/
def countText (count : UInt32) : List UInt8 :=
  ascii "[LEDGER] " ++ (uintText (count.toBitVec.setWidth 64) 10 false 0 32 ++ ascii " blocks")

/-- A line of the listing: the number, the target and the action; no hash. -/
def ledgerText (index : UInt32) (r : Record) : List UInt8 :=
  ascii "  [" ++ (uintText (index.toBitVec.setWidth 64) 10 false 4 48 ++ (ascii "] " ++
    ((bufText r.target).chars ++ (ascii " | " ++ ((actionName r.action).chars ++ ascii " | ?8s...")))))

example : ledgerText 7 ⟨LEDGER_ACTION_VFS_WRITE, 0, 0, padTarget (literal "notes")⟩ =
    ascii "  [0007] notes | WRITE | ?8s..." := by decide +kernel

theorem length_uintText_le (val : BitVec 64) (width : ℤ) (hwidth : width ≤ 20) (padCh : UInt8) :
    (uintText val 10 false width padCh).length ≤ 20 := by
  have hdigits := @digitBuffer_length_le val 10 20 (by decide) false (by decide) (by decide)
  unfold uintText
  rw [List.length_append, List.length_replicate, List.length_reverse]
  omega

theorem produces_countText (count : UInt32) (max : ℕ) :
    Produces max (literal "[LEDGER] %u blocks").chars [.int count.toBitVec] (countText count) := by
  have hend : Produces max [] [] [] := produces_nil
  have hblocks := hend.literal (l := ascii " blocks") (ne_of_all (by decide))
  rw [List.append_nil] at hblocks
  have hnumber : Produces max (37 :: ([] ++ 117 :: ascii " blocks")) [.int count.toBitVec]
      (uintText (count.toBitVec.setWidth 64) 10 false 0 32 ++ ascii " blocks") :=
    hblocks.conversion (by simp) (by decide) rfl rfl
  exact hnumber.literal (l := ascii "[LEDGER] ") (ne_of_all (by decide))

/-- The last `%` is followed by a dot, for which a question mark is written; the hash is not read. -/
theorem produces_ledgerText (index : UInt32) (r : Record) (hash : CString) (max : ℕ) :
    Produces max (literal "  [%04u] %s | %s | %.8s...").chars
      [.int index.toBitVec, .str (bufText r.target), .str (actionName r.action), .str hash]
      (ledgerText index r) := by
  have hend : Produces max [] [.str hash] [] := produces_nil
  have hdots := hend.literal (l := ascii "8s...") (ne_of_all (by decide))
  rw [List.append_nil] at hdots
  have hunknown : Produces max (37 :: ([] ++ 46 :: ascii "8s...")) [.str hash] ([63] ++ ascii "8s...") :=
    hdots.conversion (by simp) (by decide) rfl rfl
  have haction := (hunknown.literal (l := ascii " | ") (ne_of_all (by decide))).str (actionName r.action)
  have htarget := (haction.literal (l := ascii " | ") (ne_of_all (by decide))).str (bufText r.target)
  have hbracket := htarget.literal (l := ascii "] ") (ne_of_all (by decide))
  have hindex : Produces max (37 :: ([48, 52] ++ 117 :: ascii "] %s | %s | %.8s...")) (.int index.toBitVec :: _)
      (uintText (index.toBitVec.setWidth 64) 10 false 4 48 ++ _) :=
    hbracket.conversion (by simp [isDigit]) (by decide) rfl rfl
  exact hindex.literal (l := ascii "  [") (ne_of_all (by decide))

theorem countText_nonzero (count : UInt32) : ∀ c ∈ countText count, c ≠ 0 := by
  intro c hc
  simp only [countText, List.mem_append] at hc
  rcases hc with h | h | h
  · exact ne_of_all (l := ascii "[LEDGER] ") (by decide) c h
  · exact uintText_nonzero digitsAgree_ten _ _ (.inl rfl) c h
  · exact ne_of_all (l := ascii " blocks") (by decide) c h

theorem ledgerText_nonzero (index : UInt32) (r : Record) : ∀ c ∈ ledgerText index r, c ≠ 0 := by
  intro c hc
  simp only [ledgerText, List.mem_append] at hc
  rcases hc with h | h | h | h | h | h | h
  · exact ne_of_all (l := ascii "  [") (by decide) c h
  · exact uintText_nonzero digitsAgree_ten _ _ (.inr rfl) c h
  · exact ne_of_all (l := ascii "] ") (by decide) c h
  · exact (bufText r.target).nonzero c h
  · exact ne_of_all (l := ascii " | ") (by decide) c h
  · exact (actionName r.action).nonzero c h
  · exact ne_of_all (l := ascii " | ?8s...") (by decide) c h

theorem length_bufText_le {k : ℕ} (buf : Vector UInt8 k) : (bufText buf).chars.length ≤ k :=
  (List.takeWhile_prefix _).length_le.trans (bytesFrom_length _ _).le

theorem length_actionName_le (action : UInt8) : (actionName action).chars.length ≤ 5 := by
  unfold actionName
  split_ifs <;> decide

theorem length_ledgerText_lt (index : UInt32) (r : Record) : (ledgerText index r).length < 128 := by
  have hindex := length_uintText_le (index.toBitVec.setWidth 64) 4 (by decide) 48
  have htarget := length_bufText_le r.target
  have haction := length_actionName_le r.action
  have hmax : LEDGER_TARGET_LEN = 64 := rfl
  have hopen : (ascii "  [").length = 3 := by decide
  have hclose : (ascii "] ").length = 2 := by decide
  have hbar : (ascii " | ").length = 3 := by decide
  have hdots : (ascii " | ?8s...").length = 9 := by decide
  simp only [ledgerText, List.length_append]
  omega

theorem length_countText_lt (count : UInt32) : (countText count).length < 128 := by
  have hcount := length_uintText_le (count.toBitVec.setWidth 64) 0 (by decide) 32
  have hopen : (ascii "[LEDGER] ").length = 9 := by decide
  have hclose : (ascii " blocks").length = 7 := by decide
  simp only [countText, List.length_append]
  omega

theorem stringFrom_toList {k : ℕ} {v : Vector UInt8 k} (h : 0 ∈ v.toList) : stringFrom v.toList 0 = some (bufText v) := by
  unfold stringFrom
  rw [if_pos (by rwa [List.drop_zero]), Option.some_inj]
  apply CString.eq_of_chars
  change (v.toList.drop 0).takeWhile _ = (bytesFrom (arrayPtr v) k).takeWhile _
  rw [List.drop_zero]
  congr 1
  apply List.ext_getElem (by simp)
  intro i hi _
  rw [Vector.length_toList] at hi
  simp [bytesFrom, arrayPtr_lt _ hi]

/-- What a listing needs: each block has its number, and its target ends. -/
structure Listable (l : Ledger) : Prop where
  count_le : l.ledgerCount ≤ 4096
  index : ∀ i < l.ledgerCount, (l.ledgerBlocks i).index = UInt32.ofNat i
  target : ∀ i < l.ledgerCount, 0 ∈ (l.ledgerBlocks i).target.toList

/-- **The listing**, block by block. -/
theorem ledgerLines_eq {l : Ledger} (h : Listable l) (hex : Vector UInt8 65) {r i : ℕ} (line : Vector UInt8 128)
    (hi : i + r ≤ l.ledgerCount) : ledgerLines l hex r (UInt32.ofNat i) line =
      some ((List.range' i r).map fun j => ledgerText (UInt32.ofNat j) (l.ledgerBlocks j).record) := by
  induction r generalizing i line with
  | zero => rfl
  | succ r ih =>
      have hlt : i < l.ledgerCount := by omega
      have hcount := h.count_le
      have htoNat : (UInt32.ofNat i).toNat = i := UInt32.toNat_ofNat_of_lt' (by show i < 2 ^ 32; omega)
      have hblock : ledgerGetBlock l (UInt32.ofNat i) = some (l.ledgerBlocks i) := by
        unfold ledgerGetBlock
        rw [htoNat, if_neg (Nat.not_le.mpr hlt)]
      obtain ⟨n, line', hprint, htext⟩ := bufText_lunaSnprintf
        (produces_ledgerText (UInt32.ofNat i) (l.ledgerBlocks i).record
          (bufText (sha256ToHex (l.ledgerBlocks i).blockHash hex)) 128) line (ledgerText_nonzero _ _)
        (length_ledgerText_lt _ _)
      have hnext : UInt32.ofNat i + 1 = UInt32.ofNat (i + 1) := UInt32.ofNat_add i 1 |>.symm
      have hrest := @ih (i + 1) line' (by omega)
      change lunaSnprintf line 128 _ [.int (UInt32.ofNat i).toBitVec,
        .str (bufText (l.ledgerBlocks i).target), .str (actionName (l.ledgerBlocks i).actionType), .str _] = _ at hprint
      unfold ledgerLines
      rw [hblock, hnext, List.range'_succ, List.map_cons]
      simp only [Option.bind_eq_bind, Option.bind_some, stringFrom_toList (h.target i hlt), h.index i hlt, hprint,
        hrest, htext]
      rfl

theorem asksToVerify_eq {argv : List ℕ} {obj name : List UInt8} {ws : List (List UInt8)}
    (hargv : List.Forall₂ (StringAt obj) argv (name :: ws)) (hws : ∀ w ∈ ws, ∀ c ∈ w, c ≠ 0) :
    asksToVerify argv obj = some (decide (ws.head? = some (ascii "verify"))) := by
  rcases hargv with _ | ⟨_, hargv⟩
  unfold asksToVerify
  cases hargv with
  | nil => rfl
  | @cons arg w args ws harg hargs =>
      obtain ⟨text, htext⟩ : ∃ text : CString, text.chars = w := ⟨⟨w, hws w List.mem_cons_self⟩, rfl⟩
      subst htext
      rw [if_pos (by simp)]
      simp only [List.getElem?_cons_succ, List.getElem?_cons_zero, Option.bind_eq_bind, Option.bind_some,
        stringFrom_eq harg, List.head?_cons, Option.some_inj, lunaStrcmp_eq_zero]
      refine congrArg some (decide_eq_decide.mpr ⟨fun h => by rw [h]; rfl, fun h => CString.eq_of_chars h⟩)

/-- What the blocks say, the genesis block first. -/
def Ledger.allRecords (l : Ledger) : List Record :=
  (List.range l.ledgerCount).map fun i => (l.ledgerBlocks i).record

/-- What `ledger` prints of a ledger: how many blocks there are, and the last eight. -/
def listing (records : List Record) : List (List UInt8) :=
  countText (UInt32.ofNat records.length) ::
    (records.zipIdx.drop (records.length - 8)).map fun r => ledgerText (UInt32.ofNat r.2) r.1

theorem drop_zipIdx_allRecords (l : Ledger) (n : ℕ) : l.allRecords.zipIdx.drop n =
    (List.range' n (l.ledgerCount - n)).map fun i => ((l.ledgerBlocks i).record, i) := by
  apply List.ext_getElem?
  intro i
  unfold Ledger.allRecords
  rw [List.getElem?_drop, List.getElem?_zipIdx, List.getElem?_map, List.getElem?_map]
  by_cases hi : n + i < l.ledgerCount
  · rw [List.getElem?_range hi, List.getElem?_range' (by omega)]
    simp
  · rw [List.getElem?_eq_none (by simp; omega), List.getElem?_eq_none (by simp; omega)]
    rfl

theorem toNat_ofNat_count {n : ℕ} (hn : n ≤ 4096) : (UInt32.ofNat n).toNat = n :=
  UInt32.toNat_ofNat_of_lt' (by show n < 2 ^ 32; omega)

theorem first_shown (count : UInt32) {n : ℕ} (hn : n ≤ 4096) (hcount : count = UInt32.ofNat n) :
    (if count > (if count > 8 then 8 else count) then count - (if count > 8 then 8 else count) else 0) =
      UInt32.ofNat (n - 8) := by
  subst hcount
  have hget := toNat_ofNat_count hn
  have h8 : (8 : UInt32).toNat = 8 := rfl
  apply UInt32.toNat_inj.mp
  rw [toNat_ofNat_count (by omega)]
  by_cases hmany : 8 < UInt32.ofNat n
  · have hlt := UInt32.lt_iff_toNat_lt.mp hmany
    rw [if_pos hmany, if_pos hmany, UInt32.toNat_sub_of_le _ _ (UInt32.le_iff_toNat_le.mpr hlt.le), hget, h8]
  · have hge := mt UInt32.lt_iff_toNat_lt.mpr hmany
    have hself : ¬ UInt32.ofNat n < UInt32.ofNat n := fun h => Nat.lt_irrefl _ (UInt32.lt_iff_toNat_lt.mp h)
    rw [if_neg hmany, if_neg hself]
    show 0 = _
    omega

theorem count_sub_first {n : ℕ} (hn : n ≤ 4096) :
    (UInt32.ofNat n - UInt32.ofNat (n - 8)).toNat = n - (n - 8) := by
  have hle : UInt32.ofNat (n - 8) ≤ UInt32.ofNat n := by
    rw [UInt32.le_iff_toNat_le, toNat_ofNat_count (by omega), toNat_ofNat_count hn]
    exact Nat.sub_le _ _
  rw [UInt32.toNat_sub_of_le _ _ hle, toNat_ofNat_count hn, toNat_ofNat_count (by omega)]

/-- **`ledger`** prints the listing, or the verdict of the verifier. -/
theorem cmdLedger_eq (sha256 : List UInt8 → Digest) {l : Ledger} (h : Listable l) (hex : Vector UInt8 65)
    (line : Vector UInt8 128) {argv : List ℕ} {obj name : List UInt8} {ws : List (List UInt8)}
    (hargv : List.Forall₂ (StringAt obj) argv (name :: ws)) (hws : ∀ w ∈ ws, ∀ c ∈ w, c ≠ 0) :
    cmdLedger sha256 l hex line argv obj = some (if ws.head? = some (ascii "verify") then
      [if ledgerVerifyChain sha256 l then ascii "[LEDGER] Chain VALID" else ascii "[LEDGER] TAMPER DETECTED"]
    else listing l.allRecords) := by
  have hcount := h.count_le
  unfold cmdLedger
  rw [asksToVerify_eq hargv hws, Option.bind_eq_bind, Option.bind_some]
  by_cases hverify : ws.head? = some (ascii "verify")
  · rw [if_pos (decide_eq_true hverify), if_pos hverify]
    rfl
  · rw [if_neg (by rwa [decide_eq_true_iff]), if_neg hverify]
    obtain ⟨n, line', hprint, htext⟩ := bufText_lunaSnprintf (produces_countText (ledgerGetCount l) 128) line
      (countText_nonzero _) (length_countText_lt _)
    have hlines := ledgerLines_eq h hex (r := l.ledgerCount - (l.ledgerCount - 8)) (i := l.ledgerCount - 8) line'
      (by omega)
    have hlength : l.allRecords.length = l.ledgerCount := by
      unfold Ledger.allRecords
      rw [List.length_map, List.length_range]
    have hrest : (ledgerGetCount l - UInt32.ofNat (l.ledgerCount - 8)).toNat = l.ledgerCount - (l.ledgerCount - 8) :=
      count_sub_first hcount
    dsimp only
    rw [hprint, first_shown (ledgerGetCount l) hcount rfl, hrest, Option.bind_eq_bind, Option.bind_some]
    dsimp only
    rw [hlines, Option.bind_eq_bind, Option.bind_some, htext]
    unfold listing
    rw [drop_zipIdx_allRecords, List.map_map, hlength]
    rfl

/-! ### The ledger of a run -/

section
variable (sha256 : List UInt8 → Digest) (prior : LedgerState) (calls : List Call)

/-- The records that a listing can show: the genesis block, then the events since the store was last
recycled. -/
def recordsKept (evs : List LedgerEvent) : List Record :=
  (genesisBlock sha256).record :: (evs.drop (recycled evs.length)).map LedgerEvent.record

theorem allRecords_afterCalls : (afterCalls sha256 prior calls).ledger.allRecords =
    recordsKept sha256 (flushedEvents sha256 prior calls) := by
  have hwf := wellFormed_afterCalls sha256 prior calls
  have hevents := records_chain sha256 (l := ledgerGenesis sha256 prior.ledger) rfl
    fun ev (hev : ev ∈ flushedEvents sha256 prior calls) =>
      terminated_of_accepted sha256 prior calls (List.mem_append_left _ hev)
  have hgenesis := chain_genesis sha256 (l := ledgerGenesis sha256 prior.ledger) le_rfl
    (flushedEvents sha256 prior calls)
  rw [← afterCalls_ledger] at hevents hgenesis
  obtain ⟨n, hn⟩ : ∃ n, (afterCalls sha256 prior calls).ledger.ledgerCount = n + 1 :=
    ⟨_, (Nat.sub_add_cancel hwf.count_pos).symm⟩
  unfold recordsKept Ledger.allRecords
  rw [← hevents, Ledger.records, hn, Nat.add_sub_cancel, List.range_eq_range', List.range'_succ, List.map_cons,
    hgenesis]
  rfl

theorem zero_mem_targetOf (src : ConstPtr) : 0 ∈ (targetOf src).toList := by
  have hlast := arrayPtr_targetOf src (j := 63) (by decide)
  rw [if_neg (by decide), arrayPtr_lt _ (by decide)] at hlast
  rw [← hlast, ← Vector.getElem_toList (by rw [Vector.length_toList]; decide)]
  exact List.getElem_mem _

theorem listable_afterCalls : Listable (afterCalls sha256 prior calls).ledger := by
  have hwf := wellFormed_afterCalls sha256 prior calls
  refine ⟨hwf.count_le, hwf.index, fun i hi => ?_⟩
  have hmem : ((afterCalls sha256 prior calls).ledger.ledgerBlocks i).record ∈
      (afterCalls sha256 prior calls).ledger.allRecords :=
    List.mem_map_of_mem (List.mem_range.mpr hi)
  rw [allRecords_afterCalls] at hmem
  show 0 ∈ ((afterCalls sha256 prior calls).ledger.ledgerBlocks i).record.target.toList
  rcases List.mem_cons.mp hmem with hgenesis | hevent
  · rw [hgenesis]
    exact zero_mem_targetOf genesisName.ptr
  · obtain ⟨ev, hev, hrecord⟩ := List.mem_map.mp hevent
    have hterminated := terminated_of_accepted sha256 prior calls
      (List.mem_append_left _ ((List.drop_suffix _ _).subset hev))
    rw [← hrecord]
    show 0 ∈ ev.target.toList
    rw [← hterminated]
    exact zero_mem_targetOf _

/-- **A typed `ledger`** lists the last eight of the blocks that are kept, with their numbers, targets and
actions; `ledger verify` says whether the verifier accepts the chain. -/
theorem typed_ledger (s : ShellState) (hs : SlotsEnd s.history) (keys : List UInt8)
    (hfew : keys.count 10 < 2147483648) (nlp : CString → Option CString) (lineCopy : Vector UInt8 256)
    (cmdCopy : List UInt8) (hex : Vector UInt8 65) (out : Vector UInt8 128) :
    ∃ s' bufs, shellKeys keys (shellInit s) = some (s', bufs) ∧
      List.Forall₂ (fun buf line => line.length ≤ 254 → ∀ ws, words isBlank line = ascii "ledger" :: ws →
          ∃ argv obj, Executes nlp lineCopy cmdCopy buf .ledger argv obj ∧
            cmdLedger sha256 (afterCalls sha256 prior calls).ledger hex out argv obj =
              some (if ws.head? = some (ascii "verify") then
                [if ledgerVerifyChain sha256 (afterCalls sha256 prior calls).ledger then
                  ascii "[LEDGER] Chain VALID" else ascii "[LEDGER] TAMPER DETECTED"]
              else listing (recordsKept sha256 (flushedEvents sha256 prior calls))))
        bufs (Editor.run keys).lines := by
  obtain ⟨s', bufs, hkeys, _, hsubmits⟩ := shellKeys_refines hs keys hfew
  refine ⟨s', bufs, hkeys, List.forall₂_iff_get.mpr ⟨hsubmits.length_eq, fun i hi hi' hlen ws hwords => ?_⟩⟩
  have hprint : Printable ((Editor.run keys).lines.get ⟨i, hi'⟩) := Editor.run_printable (List.get_mem _ _)
  obtain ⟨argv, obj, hruns, hargv⟩ := executes_of_words nlp lineCopy cmdCopy (literal "ledger" (by decide), .ledger)
    (hsubmits.get hi hi') hprint hlen (by decide) (by rw [hwords]; rfl)
  refine ⟨argv, obj, hruns, ?_⟩
  rw [hwords, List.take_succ_cons] at hargv
  have hnonzero : ∀ w ∈ ws.take 14, ∀ c ∈ w, c ≠ 0 := fun w hw =>
    mem_printable_words hprint (by
      rw [hwords]
      exact List.mem_cons_of_mem _ (List.take_subset _ _ hw))
  have hhead : (ws.take 14).head? = ws.head? := by cases ws <;> rfl
  rw [cmdLedger_eq sha256 (listable_afterCalls sha256 prior calls) hex out hargv hnonzero, hhead,
    allRecords_afterCalls]

end

/-- With one event flushed, two blocks are listed. -/
theorem typed_ledger_sample : ∃ s' buf argv obj,
    shellKeys (ascii "ledger" ++ [10]) (shellInit shellBoot) = some (s', [buf]) ∧
      Executes (fun _ => none) (Vector.replicate 256 1) [] buf .ledger argv obj ∧
        cmdLedger prefixDigest (afterCalls prefixDigest LedgerState.zero [.enqueue (sampleCall 0), .flush]).ledger
          (Vector.replicate 65 1) (Vector.replicate 128 1) argv obj =
            some (listing (recordsKept prefixDigest
              (flushedEvents prefixDigest LedgerState.zero [.enqueue (sampleCall 0), .flush]))) := by
  obtain ⟨s', bufs, hkeys, hbufs⟩ := typed_ledger prefixDigest LedgerState.zero
    [.enqueue (sampleCall 0), .flush] shellBoot slotsEnd_boot (ascii "ledger" ++ [10]) (by decide) (fun _ => none)
    (Vector.replicate 256 1) [] (Vector.replicate 65 1) (Vector.replicate 128 1)
  have hlines : (Editor.run (ascii "ledger" ++ [10])).lines = [ascii "ledger"] := by decide
  rw [hlines] at hbufs
  rcases hbufs with _ | ⟨hbuf, hnil⟩
  cases hnil
  obtain ⟨argv, obj, hruns, hprint⟩ := hbuf (by decide) [] (by decide)
  exact ⟨s', _, argv, obj, hkeys, hruns, hprint⟩

end LunaOs
