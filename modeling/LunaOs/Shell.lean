import LunaOs.Lib.CInt
import LunaOs.StringCopy

/-! # The line editor of the shell, `shell_on_key` of `user/shell/shell.c`

The buffer is never cleared between lines: what counts is what stands before the cursor, and a newline
terminates it there.  A write outside the buffer or a history slot, or an overflowing `int`, is a fault,
`none`.  The editor is compared with the list of the characters that are held (`Simulates`). -/

namespace LunaOs

def shellBufLen : ℕ := 256

def historyDepth : ℕ := 8

/-- The state of the editor; what is only shown on the screen is left out. -/
structure ShellState where
  inputBuf : List UInt8
  cursor : ℤ
  history : List (List UInt8)
  histCount : ℤ
deriving DecidableEq

/-- `obj[i]` for an `int` index is an element, or the index is outside. -/
def storeInt (obj : List UInt8) (i : ℤ) (b : UInt8) : Option (List UInt8) :=
  if 0 ≤ i then store obj i.toNat b else none

/-- `luna_strncpy(history[hist_count % HISTORY_DEPTH], input_buf, SHELL_BUF_LEN - 1); hist_count++;` -/
def addHistory (s : ShellState) : Option ShellState := do
  let i := s.histCount.tmod historyDepth
  let slot ← if 0 ≤ i then s.history[i.toNat]? else none
  let slot ← strncpyInto slot s.inputBuf (shellBufLen - 1)
  let histCount ← CInt.result (s.histCount + 1)
  some { s with history := s.history.set i.toNat slot, histCount := histCount }

/-- The next state, and the buffer that `execute_line` gets. -/
def shellOnKey (c : UInt8) (s : ShellState) : Option (ShellState × Option (List UInt8)) :=
  if c = 10 then do
    let inputBuf ← storeInt s.inputBuf s.cursor 0
    let s := { s with inputBuf := inputBuf }
    let s ← if 0 < s.cursor then addHistory s else some s
    some ({ s with cursor := 0 }, some s.inputBuf)
  else if c = 8 then
    if 0 < s.cursor then do
      let cursor ← CInt.result (s.cursor - 1)
      let inputBuf ← storeInt s.inputBuf cursor 0
      some ({ s with inputBuf := inputBuf, cursor := cursor }, none)
    else some (s, none)
  else if 0x20 ≤ c.toInt8.toInt ∧ s.cursor < shellBufLen - 1 then do
    let inputBuf ← storeInt s.inputBuf s.cursor c
    let cursor ← CInt.result (s.cursor + 1)
    let inputBuf ← storeInt inputBuf cursor 0
    some ({ s with inputBuf := inputBuf, cursor := cursor }, none)
  else some (s, none)

def shellInit (s : ShellState) : ShellState :=
  { s with cursor := 0, histCount := 0, inputBuf := List.replicate shellBufLen 0 }

/-- The keys one after the other: the last state, and what `execute_line` got. -/
def shellKeys : List UInt8 → ShellState → Option (ShellState × List (List UInt8))
  | [], s => some (s, [])
  | c :: keys, s => do
      let (s, line) ← shellOnKey c s
      let (s, lines) ← shellKeys keys s
      return (s, line.toList ++ lines)

/-- The state at boot: static storage is zero. -/
def shellBoot : ShellState where
  inputBuf := List.replicate shellBufLen 0
  cursor := 0
  history := List.replicate historyDepth (List.replicate shellBufLen 0)
  histCount := 0

/-! ### The reference -/

/-- The characters that are held, and the lines that were submitted. -/
structure Editor where
  held : List UInt8
  lines : List (List UInt8)

namespace Editor

/-- A character is appended, a backspace removes the last one, everything else is ignored. -/
def edit (held : List UInt8) (c : UInt8) : List UInt8 :=
  if c = 8 then held.dropLast
  else if 0x20 ≤ c.toInt8.toInt ∧ held.length < 255 then held ++ [c]
  else held

def key (e : Editor) (c : UInt8) : Editor :=
  if c = 10 then ⟨[], e.lines ++ [e.held]⟩ else { e with held := edit e.held c }

def run (keys : List UInt8) : Editor := keys.foldl key ⟨[], []⟩

/-- The lines that are not empty. -/
def nonempty (e : Editor) : List (List UInt8) := e.lines.filter (· ≠ [])

end Editor

/-- An array of `SHELL_BUF_LEN` bytes with a NUL at its end. -/
def SlotEnds (slot : List UInt8) : Prop := ∃ bytes, bytes.length = 255 ∧ slot = bytes ++ [0]

/-- The history is an array of such slots. -/
def SlotsEnd (history : List (List UInt8)) : Prop :=
  history.length = historyDepth ∧ ∀ slot ∈ history, SlotEnds slot

/-- The slots hold the last lines of `ls` in cyclic order. -/
def Recent (history ls : List (List UInt8)) : Prop :=
  ∀ i line, ls[i]? = some line → ls.length ≤ i + 8 →
    ∃ slot, history[i % 8]? = some slot ∧ StringAt slot 0 line

/-- The state of the editor holds what the reference holds. -/
structure Simulates (s : ShellState) (e : Editor) : Prop where
  buf_length : s.inputBuf.length = shellBufLen
  held_prefix : e.held <+: s.inputBuf
  cursor_eq : s.cursor = e.held.length
  held_le : e.held.length ≤ 255
  held_nonzero : ∀ c ∈ e.held, c ≠ 0
  lines_nonzero : ∀ line ∈ e.lines, ∀ c ∈ line, c ≠ 0
  count_eq : s.histCount = e.nonempty.length
  slots : SlotsEnd s.history
  recent : Recent s.history e.nonempty

/-! ### Writes -/

section
variable {obj held line old : List UInt8} {c : UInt8}

theorem storeInt_prefix (hheld : held <+: obj) (hlt : held.length < obj.length) (c : UInt8) :
    ∃ obj', storeInt obj held.length c = some obj' ∧ obj'.length = obj.length ∧ held ++ [c] <+: obj' := by
  obtain ⟨old, rfl⟩ := hheld
  obtain ⟨x, old, rfl⟩ := List.exists_cons_of_length_pos (by simpa using hlt : 0 < old.length)
  refine ⟨held ++ c :: old, ?_, by simp, old, by simp⟩
  unfold storeInt
  rw [if_pos (by omega), Int.toNat_natCast, store_append]

theorem strncpyInto_slot {slot : List UInt8} (hslot : SlotEnds slot) (hline : StringAt obj 0 line)
    (hnonzero : ∀ c ∈ line, c ≠ 0) (hle : line.length ≤ 255) :
    ∃ slot', strncpyInto slot obj (shellBufLen - 1) = some slot' ∧ SlotEnds slot' ∧
      StringAt slot' 0 line := by
  obtain ⟨bytes, hlen, rfl⟩ := hslot
  obtain ⟨rest, hobj⟩ := hline
  rw [List.drop_zero, List.append_assoc, List.singleton_append] at hobj
  have hcopy := @strncpyInto_eq (bytes ++ [0]) line rest 255 hnonzero (by simp [hlen])
  rw [hobj, List.take_of_length_le hle, List.drop_append_of_le_length (by omega),
    List.drop_of_length_le (by omega), List.nil_append] at hcopy
  refine ⟨_, hcopy, ⟨_, ?_, rfl⟩, List.replicate (255 - line.length) 0, ?_⟩
  · rw [List.length_append, List.length_replicate]
    omega
  · -- the padding and the NUL behind it are the terminator and the rest
    rw [List.drop_zero, List.append_assoc, List.append_assoc, ← List.replicate_one,
      List.replicate_append_replicate, List.replicate_append_replicate, Nat.add_comm]

theorem Recent.push {history ls : List (List UInt8)} {slot : List UInt8} (h : Recent history ls)
    (hlen : history.length = historyDepth) (hslot : StringAt slot 0 line) :
    Recent (history.set (ls.length % 8) slot) (ls ++ [line]) := by
  intro i line' hi hle
  rw [List.length_append, List.length_singleton] at hle
  have hmod : ls.length % 8 < history.length := by
    rw [hlen]
    exact Nat.mod_lt _ (by decide)
  rcases Nat.lt_or_ge i ls.length with hlt | hge
  · rw [List.getElem?_append_left hlt] at hi
    rw [List.getElem?_set_ne (by omega)]
    exact h i line' hi (by omega)
  · obtain rfl : i = ls.length := by
      obtain ⟨hlt, _⟩ := List.getElem?_eq_some_iff.mp hi
      rw [List.length_append, List.length_singleton] at hlt
      omega
    rw [List.getElem?_concat_length] at hi
    rw [← Option.some.inj hi]
    exact ⟨slot, List.getElem?_set_self hmod, hslot⟩

/-- **A line that is not empty** goes into the history. -/
theorem addHistory_eq {s : ShellState} {ls : List (List UInt8)} (hslots : SlotsEnd s.history)
    (hrecent : Recent s.history ls) (hcount : s.histCount = ls.length) (hls : ls.length < 2147483647)
    (hline : StringAt s.inputBuf 0 line) (hnonzero : ∀ c ∈ line, c ≠ 0) (hle : line.length ≤ 255) :
    ∃ history, addHistory s = some { s with history := history, histCount := (ls ++ [line]).length } ∧
      SlotsEnd history ∧ Recent history (ls ++ [line]) := by
  obtain ⟨hlen, hends⟩ := hslots
  have hmod : ls.length % 8 < s.history.length := by
    rw [hlen]
    exact Nat.mod_lt _ (by decide)
  have hindex : (s.histCount.tmod historyDepth) = (ls.length % 8 : ℕ) := by
    rw [hcount]
    exact Int.ofNat_tmod _ _
  obtain ⟨slot, hcopy, hslot, hstring⟩ :=
    strncpyInto_slot (hends _ (List.getElem_mem hmod)) hline hnonzero hle
  refine ⟨s.history.set (ls.length % 8) slot, ?_, ⟨by rw [List.length_set, hlen], fun slot' h => ?_⟩,
    hrecent.push hlen hstring⟩
  · have hresult : CInt.result (s.histCount + 1) = some ((ls ++ [line]).length : ℤ) := by
      rw [CInt.result_eq (by omega), hcount, List.length_append]
      rfl
    unfold addHistory
    dsimp only
    rw [hindex, if_pos (Int.natCast_nonneg _), Int.toNat_natCast, List.getElem?_eq_getElem hmod]
    simp only [Option.bind_eq_bind, Option.bind_some, hcopy, hresult]
  · rcases List.mem_or_eq_of_mem_set h with h | rfl
    · exact hends slot' h
    · exact hslot

end

/-! ### The simulation -/

section
variable {s : ShellState} {e : Editor} {c : UInt8}

theorem Simulates.hold (h : Simulates s e) {held inputBuf : List UInt8}
    (hlen : inputBuf.length = shellBufLen) (hheld : held <+: inputBuf) (hle : held.length ≤ 255)
    (hnonzero : ∀ c ∈ held, c ≠ 0) :
    Simulates { s with inputBuf := inputBuf, cursor := held.length } { e with held := held } where
  buf_length := hlen
  held_prefix := hheld
  cursor_eq := rfl
  held_le := hle
  held_nonzero := hnonzero
  lines_nonzero := h.lines_nonzero
  count_eq := h.count_eq
  slots := h.slots
  recent := h.recent

theorem Simulates.cursor_pos (h : Simulates s e) : 0 < s.cursor ↔ e.held ≠ [] := by
  rw [h.cursor_eq, Nat.cast_pos, List.length_pos_iff]

theorem Simulates.held_lt (h : Simulates s e) : e.held.length < s.inputBuf.length := by
  rw [h.buf_length]
  exact Nat.lt_succ_of_le h.held_le

theorem nonempty_newline (e : Editor) :
    (e.key 10).nonempty = e.nonempty ++ if e.held ≠ [] then [e.held] else [] := by
  unfold Editor.nonempty Editor.key
  rw [if_pos rfl, List.filter_append, List.filter_singleton]
  simp

/-- **A newline** submits what is held. -/
theorem shellOnKey_newline (h : Simulates s e) (hfew : e.nonempty.length < 2147483647) :
    ∃ s' buf, shellOnKey 10 s = some (s', some buf) ∧ Simulates s' (e.key 10) ∧ StringAt buf 0 e.held := by
  obtain ⟨inputBuf, hstore, hlen, hprefix⟩ := storeInt_prefix h.held_prefix h.held_lt 0
  rw [h.buf_length] at hlen
  rw [← h.cursor_eq] at hstore
  have hstring : StringAt inputBuf 0 e.held := by rwa [StringAt, List.drop_zero]
  have hlines : ∀ line ∈ (e.key 10).lines, ∀ c ∈ line, c ≠ 0 := by
    intro line hline
    rcases List.mem_append.mp hline with hline | hline
    · exact h.lines_nonzero line hline
    · rw [List.mem_singleton.mp hline]
      exact h.held_nonzero
  have hnonempty := nonempty_newline e
  unfold shellOnKey
  rw [if_pos rfl, hstore, Option.bind_eq_bind, Option.bind_some]
  dsimp only
  by_cases hheld : e.held = []
  · rw [if_neg (by rw [h.cursor_pos]; exact not_not_intro hheld)]
    rw [if_neg (not_not_intro hheld), List.append_nil] at hnonempty
    refine ⟨_, inputBuf, rfl, ⟨hlen, List.nil_prefix, rfl, Nat.zero_le _, by simp [Editor.key], hlines, ?_,
      h.slots, ?_⟩, hstring⟩
    · rw [hnonempty]
      exact h.count_eq
    · rw [hnonempty]
      exact h.recent
  · rw [if_pos (h.cursor_pos.mpr hheld)]
    rw [if_pos hheld] at hnonempty
    obtain ⟨history, hadd, hslots, hrecent⟩ := @addHistory_eq e.held { s with inputBuf := inputBuf } e.nonempty
      h.slots h.recent h.count_eq hfew hstring h.held_nonzero h.held_le
    rw [hadd, Option.bind_eq_bind, Option.bind_some]
    refine ⟨_, inputBuf, rfl, ⟨hlen, List.nil_prefix, rfl, Nat.zero_le _, by simp [Editor.key], hlines, ?_,
      hslots, ?_⟩, hstring⟩
    · rw [hnonempty]
    · rw [hnonempty]
      exact hrecent

/-- **A backspace** takes the last character back, if there is one. -/
theorem shellOnKey_backspace (h : Simulates s e) :
    ∃ s', shellOnKey 8 s = some (s', none) ∧ Simulates s' (e.key 8) := by
  have hle := h.held_le
  have hne : (8 : UInt8) ≠ 10 := by decide
  unfold shellOnKey Editor.key Editor.edit
  rw [if_neg hne, if_pos rfl, if_neg hne, if_pos rfl]
  by_cases hheld : e.held = []
  · rw [if_neg (by rw [h.cursor_pos]; exact not_not_intro hheld)]
    refine ⟨s, rfl, ?_⟩
    rw [hheld, List.dropLast_nil, ← hheld]
    exact h
  · rw [if_pos (h.cursor_pos.mpr hheld)]
    have hpos := List.length_pos_iff.mpr hheld
    have hcursor : CInt.result (s.cursor - 1) = some (e.held.dropLast.length : ℤ) := by
      rw [h.cursor_eq, CInt.result_eq (by omega), List.length_dropLast, Nat.cast_sub hpos]
      rfl
    have hdrop : e.held.dropLast <+: s.inputBuf := (List.dropLast_prefix e.held).trans h.held_prefix
    have hshort : e.held.dropLast.length ≤ e.held.length := (List.dropLast_prefix e.held).length_le
    obtain ⟨inputBuf, hstore, hlen, hprefix⟩ := storeInt_prefix hdrop (hshort.trans_lt h.held_lt) 0
    simp only [hcursor, hstore, Option.bind_eq_bind, Option.bind_some]
    refine ⟨_, rfl, h.hold (hlen.trans h.buf_length) ((List.prefix_append _ _).trans hprefix) (hshort.trans hle) ?_⟩
    exact fun a ha => h.held_nonzero a (List.dropLast_subset _ ha)

/-- **A character** goes to the cursor, and a terminator behind it. -/
theorem shellOnKey_char (h : Simulates s e) (hchar : 0x20 ≤ c.toInt8.toInt) (hroom : e.held.length < 255) :
    ∃ s', shellOnKey c s = some (s', none) ∧ Simulates s' { e with held := e.held ++ [c] } := by
  have hten : c ≠ 10 := by
    rintro rfl
    exact absurd hchar (by decide)
  have height : c ≠ 8 := by
    rintro rfl
    exact absurd hchar (by decide)
  have hnext : (e.held ++ [c]).length = e.held.length + 1 := by simp
  have hcursor : CInt.result (s.cursor + 1) = some ((e.held ++ [c]).length : ℤ) := by
    rw [h.cursor_eq, CInt.result_eq (by omega), hnext]
    rfl
  obtain ⟨inputBuf, hstore, hlen, hprefix⟩ := storeInt_prefix h.held_prefix h.held_lt c
  have hlt : (e.held ++ [c]).length < inputBuf.length := by
    rw [hlen, h.buf_length, hnext]
    exact Nat.succ_lt_succ hroom
  obtain ⟨inputBuf', hstore', hlen', hprefix'⟩ := storeInt_prefix hprefix hlt 0
  have hlength := hlen'.trans (hlen.trans h.buf_length)
  have hcond : 0x20 ≤ c.toInt8.toInt ∧ s.cursor < shellBufLen - 1 := by
    refine ⟨hchar, ?_⟩
    rw [h.cursor_eq]
    unfold shellBufLen
    omega
  unfold shellOnKey
  rw [if_neg hten, if_neg height, if_pos hcond]
  rw [h.cursor_eq] at hcursor ⊢
  simp only [hstore, hcursor, hstore', Option.bind_eq_bind, Option.bind_some]
  refine ⟨_, rfl, h.hold hlength ((List.prefix_append _ _).trans hprefix') (by omega) ?_⟩
  intro a ha
  rcases List.mem_append.mp ha with ha | ha
  · exact h.held_nonzero a ha
  · rintro rfl
    rw [← List.mem_singleton.mp ha] at hchar
    exact absurd hchar (by decide)

/-- **Any key but a newline** edits what is held. -/
theorem shellOnKey_edit (h : Simulates s e) (hc : c ≠ 10) :
    ∃ s', shellOnKey c s = some (s', none) ∧ Simulates s' (e.key c) := by
  by_cases hback : c = 8
  · rw [hback]
    exact shellOnKey_backspace h
  · unfold Editor.key Editor.edit
    rw [if_neg hc, if_neg hback]
    by_cases hchar : 0x20 ≤ c.toInt8.toInt ∧ e.held.length < 255
    · rw [if_pos hchar]
      exact shellOnKey_char h hchar.1 hchar.2
    · -- the key is ignored
      have hcond : ¬ (0x20 ≤ c.toInt8.toInt ∧ s.cursor < shellBufLen - 1) := by
        rw [h.cursor_eq]
        unfold shellBufLen
        omega
      unfold shellOnKey
      rw [if_neg hc, if_neg hback, if_neg hcond, if_neg hchar]
      exact ⟨s, rfl, h⟩

theorem nonempty_key_le (e : Editor) (c : UInt8) :
    (e.key c).nonempty.length ≤ e.nonempty.length + if c = 10 then 1 else 0 := by
  split_ifs with hc
  · rw [hc, nonempty_newline, List.length_append]
    split_ifs <;> simp
  · unfold Editor.key
    rw [if_neg hc]
    exact le_rfl

/-- The submitted buffers hold the new lines of the reference. -/
def Submits (bufs lines : List (List UInt8)) : Prop := List.Forall₂ (fun buf line => StringAt buf 0 line) bufs lines

/-- **Any keys** keep the simulation. -/
theorem shellKeys_simulates (keys : List UInt8) (h : Simulates s e)
    (hfew : e.nonempty.length + keys.count 10 < 2147483648) :
    ∃ s' bufs lines, shellKeys keys s = some (s', bufs) ∧ Simulates s' (keys.foldl Editor.key e) ∧
      (keys.foldl Editor.key e).lines = e.lines ++ lines ∧ Submits bufs lines := by
  induction keys generalizing s e with
  | nil => exact ⟨s, [], [], rfl, h, (List.append_nil _).symm, .nil⟩
  | cons c keys ih =>
      rw [List.count_cons] at hfew
      have hle := nonempty_key_le e c
      simp only [List.foldl_cons]
      unfold shellKeys
      by_cases hc : c = 10
      · subst hc
        simp only [beq_self_eq_true, if_true] at hfew hle
        obtain ⟨s₁, buf, hkey, hs₁, hbuf⟩ := shellOnKey_newline h (by omega)
        obtain ⟨s', bufs, lines, hkeys, hs', hlines, hsubmits⟩ := ih hs₁ (by omega)
        refine ⟨s', buf :: bufs, e.held :: lines, ?_, hs', ?_, .cons hbuf hsubmits⟩
        · rw [hkey]
          simp [hkeys]
        · rw [hlines]
          simp [Editor.key]
      · simp only [beq_iff_eq, if_neg hc] at hfew hle
        obtain ⟨s₁, hkey, hs₁⟩ := shellOnKey_edit h hc
        obtain ⟨s', bufs, lines, hkeys, hs', hlines, hsubmits⟩ := ih hs₁ (by omega)
        refine ⟨s', bufs, lines, ?_, hs', ?_, hsubmits⟩
        · rw [hkey]
          simp [hkeys]
        · rw [hlines]
          simp [Editor.key, hc]

theorem simulates_init (hs : SlotsEnd s.history) : Simulates (shellInit s) ⟨[], []⟩ where
  buf_length := List.length_replicate
  held_prefix := List.nil_prefix
  cursor_eq := rfl
  held_le := Nat.zero_le _
  held_nonzero := by simp
  lines_nonzero := by simp
  count_eq := rfl
  slots := hs
  recent i line hi _ := by cases hi

/-- **The line editor** of the shell is the reference editor. -/
theorem shellKeys_refines (hs : SlotsEnd s.history) (keys : List UInt8) (hfew : keys.count 10 < 2147483648) :
    ∃ s' bufs, shellKeys keys (shellInit s) = some (s', bufs) ∧ Simulates s' (Editor.run keys) ∧
      Submits bufs (Editor.run keys).lines := by
  obtain ⟨s', bufs, lines, hkeys, hs', hlines, hsubmits⟩ :=
    shellKeys_simulates keys (simulates_init hs) (by simpa [Editor.nonempty] using hfew)
  rw [List.nil_append] at hlines
  exact ⟨s', bufs, hkeys, hs', by rwa [← hlines] at hsubmits⟩

theorem slotsEnd_boot : SlotsEnd shellBoot.history := by
  refine ⟨rfl, fun slot hslot => ?_⟩
  rw [List.eq_of_mem_replicate hslot]
  exact ⟨List.replicate 255 0, List.length_replicate, List.replicate_succ'⟩

/-- `l`, `s`, newline. -/
theorem shellKeys_refines_boot : ∃ s' bufs, shellKeys [108, 115, 10] (shellInit shellBoot) = some (s', bufs) ∧
    Simulates s' (Editor.run [108, 115, 10]) ∧ Submits bufs (Editor.run [108, 115, 10]).lines :=
  shellKeys_refines slotsEnd_boot _ (by simp)

end

end LunaOs
