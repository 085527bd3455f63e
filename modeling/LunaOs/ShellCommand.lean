import LunaOs.Shell
import LunaOs.StringCompare
import Mathlib.Data.List.Forall2
import Mathlib.Data.List.ReduceOption

/-! # The commands of the shell, `execute_line` of `user/shell/shell.c`

A line is copied, cut into words and given to the built-in command that its first word names, unless it
looks like English prose.  The resolver of prose is a parameter.  The buffers on the stack hold any bytes
at first; `luna_strncpy` leaves the last byte of `line_copy` as it was. -/

namespace LunaOs

open Words

/-- The delimiters of `tokenize`. -/
def blanks : CString := literal " \t"

/-- `while (tok && argc < MAX_ARGS - 1)` with `r = MAX_ARGS - 1 - argc` turns left: the arguments from
`tok` on, and the object. -/
def tokenizeLoop : ℕ → Option ℕ → List UInt8 → Option ℕ → Option (List ℕ × List UInt8)
  | 0, _, obj, _ => some ([], obj)
  | _ + 1, none, obj, _ => some ([], obj)
  | r + 1, some tok, obj, save => do
      let (next, obj, save) ← lunaStrtok obj none blanks save
      let (argv, obj) ← tokenizeLoop r next obj save
      return (tok :: argv, obj)

/-- The arguments, as offsets in the object, and the object. -/
def tokenize (obj : List UInt8) : Option (List ℕ × List UInt8) := do
  let (tok, obj, save) ← lunaStrtok obj (some 0) blanks none
  tokenizeLoop 15 tok obj save

/-- The name of a command. -/
def command (name : String) (nonzero : 0 ∉ ascii name := by decide) : CString where
  chars := ascii name
  nonzero c hc := by
    rintro rfl
    exact nonzero hc

def knownCmds : List CString :=
  [command "ls", command "cat", command "write", command "rm", command "clear", command "ledger", command "ps",
    command "ai", command "hash", command "run", command "help", command "shutdown", command "reboot"]

/-- `while (line[i] && line[i] != ' ' && i < 31) { first[i] = line[i]; i++; }` with `r = 31 - i`. -/
def firstLoop : List UInt8 → ℕ → List UInt8
  | c :: line, r + 1 => if c ≠ 32 then c :: firstLoop line r else []
  | _, _ => []

theorem firstLoop_eq (line : List UInt8) (r : ℕ) :
    firstLoop line r = (line.takeWhile fun c => c ≠ 32).take r := by
  induction line generalizing r with
  | nil => cases r <;> rfl
  | cons c line ih =>
      cases r with
      | zero => rfl
      | succ r =>
          unfold firstLoop
          by_cases hc : c = 32 <;> simp [hc, ih]

/-- The first word, cut off at 31 characters. -/
def firstWord (line : CString) : CString where
  chars := firstLoop line.chars 31
  nonzero c hc := by
    rw [firstLoop_eq] at hc
    exact line.nonzero c ((List.takeWhile_prefix _).subset (List.take_subset _ _ hc))

/-- `is_english_intent`: the first word is no command, and there is a blank in the line. -/
def isEnglishIntent (line : CString) : Bool :=
  if knownCmds.any fun cmd => lunaStrcmp (firstWord line) cmd = 0 then false
  else (lunaStrchr line 32).isSome

/-- `while (*line == ' ' || *line == '\t') line++;` -/
def trimLine (line : CString) : CString where
  chars := line.chars.dropWhile fun c => c = 32 || c = 9
  nonzero c hc := line.nonzero c ((List.dropWhile_suffix _).subset hc)

/-- What `execute_line` has done: nothing, the resolved command is the next line, or `run_builtin` is
called. -/
inductive Executed where
  | nothing
  | resolved (cmdCopy : List UInt8)
  | builtin (argv : List ℕ) (obj : List UInt8)
deriving DecidableEq

/-- The part of `execute_line` behind the routing. -/
def executeWords (lineCopy : List UInt8) (line : CString) : Option Executed := do
  let lineCopy ← strncpyInto lineCopy (line.chars ++ [0]) (shellBufLen - 1)
  let (argv, lineCopy) ← tokenize lineCopy
  if argv.length = 0 then some .nothing else some (.builtin argv lineCopy)

/-- `execute_line`, with the two buffers of its frame as it finds them. -/
def executeLine (nlpResolveIntent : CString → Option CString) (lineCopy cmdCopy : List UInt8)
    (line : CString) : Option Executed :=
  let line := trimLine line
  if line.ptr 0 = 0 then some .nothing
  else if isEnglishIntent line then
    match nlpResolveIntent line with
    | some mapped =>
        if mapped.ptr 0 ≠ 0 then do
          let cmdCopy ← strncpyInto cmdCopy (mapped.chars ++ [0]) (shellBufLen - 1)
          some (.resolved cmdCopy)
        else executeWords lineCopy line
    | none => executeWords lineCopy line
  else executeWords lineCopy line

/-- The commands. -/
inductive Builtin where
  | ls | cat | write | rm | clear | ledger | ps | ai | hash | run | help | shutdown | unknown
deriving DecidableEq

/-- The chain of comparisons in `run_builtin`. -/
def builtins : List (CString × Builtin) :=
  [(command "ls", .ls), (command "cat", .cat), (command "write", .write), (command "rm", .rm),
    (command "clear", .clear), (command "ledger", .ledger), (command "ps", .ps), (command "ai", .ai),
    (command "hash", .hash), (command "run", .run), (command "help", .help), (command "shutdown", .shutdown)]

def builtinOf (name : CString) : Builtin :=
  ((builtins.find? fun cmd => lunaStrcmp name cmd.1 = 0).map Prod.snd).getD .unknown

/-- The string at an offset. -/
def stringFrom (obj : List UInt8) (i : ℕ) : Option CString :=
  if 0 ∈ obj.drop i then
    some ⟨(obj.drop i).takeWhile (· ≠ 0), fun c hc => by simpa using List.all_eq_true.mp List.all_takeWhile c hc⟩
  else none

/-- The command that `run_builtin` chooses. -/
def runBuiltin (argv : List ℕ) (obj : List UInt8) : Option Builtin := do
  let arg ← argv[0]?
  let name ← stringFrom obj arg
  some (builtinOf name)

/-! ### The tokens -/

/-- A byte between words. -/
abbrev isBlank (c : UInt8) : Bool := isDelim blanks c

theorem isBlank_iff {c : UInt8} : isBlank c ↔ c = 32 ∨ c = 9 := by
  have hmem : c ∈ blanks.chars ↔ c ∈ [32, 9] := Iff.rfl
  rw [isBlank, isDelim, decide_eq_true_iff, hmem]
  simp

section
variable {delim : CString} {obj obj' l rest : List UInt8} {tok saveptr saveptr' : Option ℕ} {r s n : ℕ} {e : UInt8}

theorem lunaStrtok_null {str : Option ℕ}
    (h : lunaStrtok obj str delim saveptr = some (none, obj', saveptr')) : saveptr' = none := by
  unfold lunaStrtok at h
  split at h
  · next hnone =>
      rw [Option.or_eq_none_iff] at hnone
      rw [hnone.2] at h
      exact ((Prod.mk.inj (Prod.mk.inj (Option.some.inj h)).2).2).symm
  · split at h
    · cases h
    · dsimp only at h
      split_ifs at h with hend
      · exact ((Prod.mk.inj (Prod.mk.inj (Option.some.inj h)).2).2).symm
      · split at h
        · cases h
        · split_ifs at h <;> cases h

/-- The loop stops at the first `NULL`, where the calls would go on to return it. -/
theorem tokenizeLoop_eq (htok : tok = none → saveptr = none) :
    tokenizeLoop r tok obj saveptr = (strtokNext blanks r obj saveptr).map fun res =>
      (((tok :: res.1).take r).reduceOption, res.2.1) := by
  induction r generalizing tok obj saveptr with
  | zero => cases tok <;> rfl
  | succ r ih =>
      cases tok with
      | none =>
          rw [htok rfl, strtokNext_null]
          simp [tokenizeLoop, List.reduceOption]
      | some tok =>
          unfold tokenizeLoop strtokNext
          rcases hcall : lunaStrtok obj none blanks saveptr with _ | ⟨next, obj₁, save₁⟩
          · rfl
          · have hnext : next = none → save₁ = none := by
              rintro rfl
              exact lunaStrtok_null hcall
            simp only [Option.bind_eq_bind, Option.bind_some, ih hnext]
            rcases hcalls : strtokNext blanks r obj₁ save₁ with _ | ⟨toks, obj₂, save₂⟩
            · rfl
            · rfl

theorem tokenize_eq (obj : List UInt8) : tokenize obj = (strtokNext blanks 16 obj (some 0)).map fun res =>
    ((res.1.take 15).reduceOption, res.2.1) := by
  have hcalls : strtokNext blanks 16 obj (some 0) = strtokCalls blanks 15 obj none := rfl
  rw [hcalls]
  unfold tokenize strtokCalls
  rcases hcall : lunaStrtok obj (some 0) blanks none with _ | ⟨tok, obj₁, save₁⟩
  · rfl
  · have htok : tok = none → save₁ = none := by
      rintro rfl
      exact lunaStrtok_null hcall
    simp only [Option.bind_eq_bind, Option.bind_some, tokenizeLoop_eq htok]
    rcases strtokNext blanks 15 obj₁ save₁ with _ | ⟨toks, obj₂, save₂⟩ <;> rfl

theorem reduceOption_take (toks : List ℕ) {m n k : ℕ} (h : m ≤ n) :
    (((toks.map some ++ List.replicate k none).take n).take m).reduceOption = toks.take m := by
  rw [List.take_take, min_eq_left h, List.take_append, List.reduceOption_append, List.take_replicate,
    List.reduceOption_replicate_none, List.append_nil, ← List.map_take]
  simp [List.reduceOption]

/-- **The first 15 words** are the arguments, if the calls find an end behind each. -/
theorem tokenize_words (hobj : obj = l ++ e :: rest) (hl : ∀ c ∈ l, c ≠ 0)
    (he : e = 0 ∨ isBlank e ∧ 16 ≤ (words isBlank l).length) :
    ∃ argv obj', tokenize obj = some (argv, obj') ∧
      List.Forall₂ (StringAt obj') argv ((words isBlank l).take 15) := by
  obtain ⟨obj', saveptr', hrun, hcut⟩ := @strtokNext_words blanks 16 obj l rest 0 e
    (by rw [List.drop_zero, hobj]) hl he
  refine ⟨(starts isBlank l).take 15, obj', ?_, ?_⟩
  · simp only [Nat.zero_add] at hrun
    rw [tokenize_eq, hrun, Option.map_some, reduceOption_take _ (by decide)]
  · rw [words, ← List.map_take, List.forall₂_map_right_iff, List.forall₂_same]
    intro i hi
    have htoken := hcut.token i (List.take_subset_take_left _ (by decide) hi)
    rwa [Nat.zero_add] at htoken

end

/-! ### The line -/

/-- What should become of a line: its first 15 words are given to a command, if it has any. -/
def Intact (line : List UInt8) (res : Option Executed) : Prop :=
  if words isBlank line = [] then res = some .nothing
  else ∃ argv obj, res = some (.builtin argv obj) ∧ List.Forall₂ (StringAt obj) argv ((words isBlank line).take 15)

/-- The tokens of a copied line `t` end, where `x` is the last byte of `line_copy`: there is a NUL, or a
blank behind 16 words. -/
def Terminated (t : List UInt8) (x : UInt8) : Prop :=
  t.length < 255 ∨ x = 0 ∨
    ∃ i d, (t ++ [x])[i]? = some d ∧ isBlank d ∧ 16 ≤ (words isBlank ((t ++ [x]).take i)).length

section
variable {lineCopy obj obj' : List UInt8} {argv : List ℕ} {t : List UInt8} {x d : UInt8} {line : CString} {i : ℕ}

theorem executeWords_intact (hcopy : strncpyInto lineCopy (line.chars ++ [0]) (shellBufLen - 1) = some obj)
    (htokens : tokenize obj = some (argv, obj'))
    (hargv : List.Forall₂ (StringAt obj') argv ((words isBlank line.chars).take 15)) :
    Intact line.chars (executeWords lineCopy line) := by
  have hlength := hargv.length_eq
  have hres : executeWords lineCopy line = if argv.length = 0 then some .nothing else some (.builtin argv obj') := by
    unfold executeWords
    simp only [hcopy, htokens, Option.bind_eq_bind, Option.bind_some]
  unfold Intact
  split_ifs with hwords
  · rw [hwords, List.take_nil, List.length_nil] at hlength
    rw [hres, if_pos hlength]
  · refine ⟨argv, obj', ?_, hargv⟩
    have hne : argv.length ≠ 0 := by
      rw [hlength, Ne, List.length_eq_zero_iff, List.take_eq_nil_iff]
      simpa using hwords
    rw [hres, if_neg hne]

/-- A blank behind the first 16 words of the copy is one of the line, or it is behind the line. -/
theorem words_take_take (hi : (t ++ [x])[i]? = some d) (hd : isBlank d)
    (hwords : 16 ≤ (words isBlank ((t ++ [x]).take i)).length) :
    (words isBlank ((t ++ [x]).take i)).take 15 = (words isBlank t).take 15 := by
  obtain ⟨hlt, _⟩ := List.getElem?_eq_some_iff.mp hi
  rw [List.length_append, List.length_singleton] at hlt
  rcases Nat.lt_succ_iff_lt_or_eq.mp hlt with hlt | rfl
  · have hsplit : t = t.take i ++ d :: t.drop (i + 1) := by
      rw [List.getElem?_append_left hlt, List.getElem?_eq_getElem hlt] at hi
      rw [← Option.some.inj hi, ← List.drop_eq_getElem_cons hlt, List.take_append_drop]
    rw [List.take_append_of_le_length hlt.le] at hwords ⊢
    have happend : words isBlank (t.take i ++ d :: t.drop (i + 1)) = _ := words_append hd
    rw [← hsplit] at happend
    rw [happend, List.take_append_of_le_length (by omega)]
  · rw [List.take_left]

theorem strncpyInto_lineCopy (lineCopy : Vector UInt8 256) (hline : line.chars.length ≤ 255) :
    strncpyInto lineCopy.toList (line.chars ++ [0]) (shellBufLen - 1) =
      some (line.chars ++ (List.replicate (255 - line.chars.length) (0 : UInt8) ++ [lineCopy[255]])) := by
  have hlen : lineCopy.toList.length = 256 := Vector.length_toList
  have hdrop : lineCopy.toList.drop 255 = [lineCopy[255]] := by
    rw [List.drop_eq_getElem_cons (by omega), List.drop_of_length_le (by omega), Vector.getElem_toList]
  have hcopy := @strncpyInto_eq lineCopy.toList line.chars [] 255 line.nonzero (by omega)
  rw [List.take_of_length_le hline, hdrop, List.append_assoc] at hcopy
  exact hcopy

theorem strncpyInto_full (lineCopy : Vector UInt8 256) (hfull : line.chars.length = 255) :
    strncpyInto lineCopy.toList (line.chars ++ [0]) (shellBufLen - 1) = some (line.chars ++ [lineCopy[255]]) := by
  have hcopy := strncpyInto_lineCopy lineCopy hfull.le
  rwa [hfull, Nat.sub_self, List.replicate_zero, List.nil_append] at hcopy

theorem executeWords_padded (lineCopy : Vector UInt8 256) (hshort : line.chars.length < 255) :
    Intact line.chars (executeWords lineCopy.toList line) := by
  have hcopy := strncpyInto_lineCopy lineCopy hshort.le
  obtain ⟨n, hn⟩ := Nat.exists_eq_add_of_lt hshort
  have hpad : List.replicate (255 - line.chars.length) (0 : UInt8) = 0 :: List.replicate n 0 := by
    rw [show 255 - line.chars.length = n + 1 by omega, List.replicate_succ]
  rw [hpad, List.cons_append] at hcopy
  obtain ⟨argv, obj', htokens, hargv⟩ := tokenize_words rfl line.nonzero (.inl rfl)
  exact executeWords_intact hcopy htokens hargv

theorem full_nonzero (hx : x ≠ 0) : ∀ c ∈ line.chars ++ [x], c ≠ 0 := by
  intro c hc
  rcases List.mem_append.mp hc with hc | hc
  · exact line.nonzero c hc
  · rwa [List.mem_singleton.mp hc]

section
variable (lineCopy : Vector UInt8 256) (hfull : line.chars.length = 255) (hnonzero : lineCopy[255] ≠ 0)
include hfull hnonzero

theorem executeWords_sixteen (hi : (line.chars ++ [lineCopy[255]])[i]? = some d) (hd : isBlank d)
    (hwords : 16 ≤ (words isBlank ((line.chars ++ [lineCopy[255]]).take i)).length) :
    Intact line.chars (executeWords lineCopy.toList line) := by
  obtain ⟨hlt, hget⟩ := List.getElem?_eq_some_iff.mp hi
  have hsplit : line.chars ++ [lineCopy[255]] = (line.chars ++ [lineCopy[255]]).take i ++
      d :: (line.chars ++ [lineCopy[255]]).drop (i + 1) := by
    rw [← hget, ← List.drop_eq_getElem_cons hlt, List.take_append_drop]
  obtain ⟨argv, obj', htokens, hargv⟩ := tokenize_words hsplit
    (fun c hc => full_nonzero hnonzero c (List.take_subset _ _ hc)) (.inr ⟨hd, hwords⟩)
  rw [words_take_take hi hd hwords] at hargv
  exact executeWords_intact (strncpyInto_full lineCopy hfull) htokens hargv

theorem executeWords_fault (hend : ¬ ∃ i d, (line.chars ++ [lineCopy[255]])[i]? = some d ∧ isBlank d ∧
      16 ≤ (words isBlank ((line.chars ++ [lineCopy[255]]).take i)).length) :
    executeWords lineCopy.toList line = none := by
  have hfault : tokenize (line.chars ++ [lineCopy[255]]) = none := by
    rw [tokenize_eq, strtokNext_fault List.drop_zero (full_nonzero hnonzero) (by decide), Option.map_none]
    intro i d hi hd
    by_contra hge
    exact hend ⟨i, d, hi, hd, Nat.le_of_not_lt hge⟩
  unfold executeWords
  rw [strncpyInto_full lineCopy hfull, Option.bind_eq_bind, Option.bind_some, hfault]
  rfl

end

theorem not_intact_none : ¬ Intact t none := by
  unfold Intact
  split_ifs <;> simp

/-- **The words of a copied line** reach the command exactly if their end is found. -/
theorem executeWords_iff (lineCopy : Vector UInt8 256) (hline : line.chars.length ≤ 255) :
    Intact line.chars (executeWords lineCopy.toList line) ↔ Terminated line.chars lineCopy[255] := by
  rcases Nat.lt_or_eq_of_le hline with hshort | hfull
  · exact iff_of_true (executeWords_padded lineCopy hshort) (.inl hshort)
  · by_cases hzero : lineCopy[255] = 0
    · obtain ⟨argv, obj', htokens, hargv⟩ := tokenize_words rfl line.nonzero (.inl hzero)
      exact iff_of_true (executeWords_intact (strncpyInto_full lineCopy hfull) htokens hargv) (.inr (.inl hzero))
    · by_cases hend : ∃ i d, (line.chars ++ [lineCopy[255]])[i]? = some d ∧ isBlank d ∧
          16 ≤ (words isBlank ((line.chars ++ [lineCopy[255]]).take i)).length
      · refine iff_of_true ?_ (.inr (.inr hend))
        obtain ⟨i, d, hi, hd, hwords⟩ := hend
        exact executeWords_sixteen lineCopy hfull hzero hi hd hwords
      · rw [executeWords_fault lineCopy hfull hzero hend]
        refine iff_of_false not_intact_none ?_
        unfold Terminated
        rw [hfull]
        simpa [hzero] using hend

theorem words_trimLine (line : CString) : words isBlank (trimLine line).chars = words isBlank line.chars := by
  have hsplit : line.chars.takeWhile (fun c => c = 32 || c = 9) ++ (trimLine line).chars = line.chars :=
    List.takeWhile_append_dropWhile
  have hblank : ∀ c ∈ line.chars.takeWhile (fun c => c = 32 || c = 9), isBlank c := by
    intro c hc
    have hc := List.all_eq_true.mp List.all_takeWhile c hc
    exact isBlank_iff.mpr (by simpa using hc)
  rw [← words_skip hblank, hsplit]

theorem executeLine_of_false {nlp : CString → Option CString} {cmdCopy : List UInt8}
    (hroute : isEnglishIntent (trimLine line) = false) (hne : (trimLine line).chars ≠ []) :
    executeLine nlp lineCopy cmdCopy line = executeWords lineCopy (trimLine line) := by
  have hptr : (trimLine line).ptr 0 ≠ 0 := by
    rw [Ne, CString.ptr_eq_zero_iff, Nat.le_zero, List.length_eq_zero_iff]
    exact hne
  unfold executeLine
  dsimp only
  rw [if_neg hptr, if_neg (by simp [hroute])]

theorem trimLine_length_le (line : CString) : (trimLine line).chars.length ≤ line.chars.length :=
  (List.dropWhile_suffix _).length_le

/-- **Command words** reach the command exactly if the copy of the line is terminated, or the sixteenth word
ends before its end. -/
theorem executeLine_intact_iff (nlp : CString → Option CString) (lineCopy : Vector UInt8 256)
    (cmdCopy : List UInt8) (hline : line.chars.length ≤ 255)
    (hroute : isEnglishIntent (trimLine line) = false) :
    Intact line.chars (executeLine nlp lineCopy.toList cmdCopy line) ↔
      Terminated (trimLine line).chars lineCopy[255] := by
  have hwords := words_trimLine line
  by_cases hempty : (trimLine line).chars = []
  · refine iff_of_true ?_ (.inl (by rw [hempty]; decide))
    have hptr : (trimLine line).ptr 0 = 0 := by
      rw [CString.ptr_eq_zero_iff, hempty]
      exact le_rfl
    rw [hempty, words_of_all (by simp)] at hwords
    unfold Intact executeLine
    rw [if_pos hwords.symm]
    exact if_pos hptr
  · rw [executeLine_of_false hroute hempty, ← executeWords_iff lineCopy ((trimLine_length_le line).trans hline)]
    unfold Intact
    rw [hwords]

/-- The line `ls`. -/
theorem executeLine_intact_ls : ∃ line : CString, line.chars = [108, 115] ∧
    Intact line.chars (executeLine (fun _ => none) (Vector.replicate 256 1).toList [] line) :=
  ⟨literal "ls" (by decide), rfl, (executeLine_intact_iff _ _ _ (by decide) (by decide)).mpr (.inl (by decide))⟩

end

/-! ### The routing -/

section
variable {line : CString} {w : List UInt8}

theorem isEnglishIntent_eq_false :
    isEnglishIntent line = false ↔ firstWord line ∈ knownCmds ∨ (32 : UInt8) ∉ line.chars := by
  have hany : (knownCmds.any fun cmd => lunaStrcmp (firstWord line) cmd = 0) = true ↔
      firstWord line ∈ knownCmds := by
    simp only [List.any_eq_true, decide_eq_true_iff, lunaStrcmp_eq_zero, exists_eq_right']
  unfold isEnglishIntent
  split_ifs with h
  · exact iff_of_true rfl (.inl (hany.mp h))
  · rw [lunaStrchr_isSome (by decide), isDelim, decide_eq_false_iff_not,
      or_iff_right (mt hany.mpr h)]

theorem trimLine_eq (h : ∀ c, line.chars.head? = some c → isBlank c = false) : trimLine line = line := by
  apply CString.eq_of_chars
  change line.chars.dropWhile _ = line.chars
  rcases hchars : line.chars with _ | ⟨c, cs⟩
  · rfl
  · have hc : ¬ isBlank c := by simp [h c (by rw [hchars, List.head?_cons])]
    rw [isBlank_iff] at hc
    exact List.dropWhile_cons_of_neg (by simpa using hc)

/-- A line of 255 letters. -/
theorem executeLine_unterminated : ∃ (line : CString) (lineCopy : Vector UInt8 256),
    line.chars = List.replicate 255 97 ∧ isEnglishIntent (trimLine line) = false ∧
      ∀ nlp cmdCopy, ¬ Intact line.chars (executeLine nlp lineCopy.toList cmdCopy line) := by
  have hmem : ∀ {n : ℕ} {c : UInt8}, c ∈ List.replicate n (97 : UInt8) → c = 97 := List.eq_of_mem_replicate
  obtain ⟨line, hline⟩ : ∃ line : CString, line.chars = List.replicate 255 97 :=
    ⟨⟨List.replicate 255 97, fun c hc hzero => absurd (hzero.symm.trans (hmem hc)) (by decide)⟩, rfl⟩
  have htrim : trimLine line = line := by
    refine trimLine_eq fun c hc => ?_
    have hc := List.mem_of_mem_head? hc
    rw [hline] at hc
    rw [hmem hc]
    decide
  have hroute : isEnglishIntent (trimLine line) = false := by
    rw [htrim, isEnglishIntent_eq_false, hline]
    exact .inr fun h => absurd (hmem h) (by decide)
  refine ⟨line, Vector.replicate 256 97, hline, hroute, fun nlp cmdCopy h => ?_⟩
  have hne : (trimLine line).chars ≠ [] := by
    rw [htrim, hline]
    exact List.replicate_succ_ne_nil
  rw [executeLine_of_false hroute hne, htrim, executeWords_iff _ (by rw [hline, List.length_replicate])] at h
  have hlast : (Vector.replicate 256 (97 : UInt8))[255] = 97 := Vector.getElem_replicate _
  rw [hline, hlast] at h
  rcases h with h | h | ⟨i, d, hi, hd, _⟩
  · rw [List.length_replicate] at h
    omega
  · exact absurd h (by decide)
  · -- there is no blank
    have hd97 : d = 97 := by
      rcases List.mem_append.mp (List.mem_of_getElem? hi) with h | h
      · exact hmem h
      · exact List.mem_singleton.mp h
    rw [hd97] at hd
    exact absurd hd (by decide)

theorem first_of_words (htrim : ∀ c, line.chars.head? = some c → isBlank c = false)
    (hword : (words isBlank line.chars).head? = some w) :
    ∃ r, line.chars = w ++ r ∧ (∀ c ∈ w, isBlank c = false) ∧ ∀ d r', r = d :: r' → isBlank d := by
  rcases exists_next isBlank line.chars with hall | ⟨ds, t, r, hchars, hds, hne, ht, hr⟩
  · rw [words_of_all hall] at hword
    cases hword
  · obtain rfl : ds = [] := by
      cases ds with
      | nil => rfl
      | cons d ds =>
          have hblank := htrim d (by rw [hchars]; rfl)
          rw [hds d List.mem_cons_self] at hblank
          cases hblank
    rw [List.nil_append] at hchars
    have hfirst : (words isBlank (t ++ r)).head? = some t := by
      cases r with
      | nil =>
          have hlast := @words_last _ isBlank [] t (by simp) ht hne
          rw [List.nil_append] at hlast
          rw [List.append_nil, hlast]
          rfl
      | cons d r =>
          have hnext := @words_next _ isBlank r d [] t (by simp) ht hne (hr d r rfl)
          rw [List.nil_append] at hnext
          rw [hnext]
          rfl
    rw [hchars, hfirst] at hword
    obtain rfl := Option.some.inj hword
    exact ⟨r, hchars, ht, hr⟩

theorem builtins_known {cmd : CString × Builtin} (h : cmd ∈ builtins) :
    cmd.1 ∈ knownCmds ∧ cmd.1.chars.length ≤ 8 ∧ builtinOf cmd.1 = cmd.2 := by
  have hall : builtins.all (fun cmd => cmd.1 ∈ knownCmds && cmd.1.chars.length ≤ 8 && builtinOf cmd.1 = cmd.2) := by
    decide
  simpa [and_assoc] using List.all_eq_true.mp hall cmd h

theorem tab_notMem_knownCmds {cmd : CString} (h : cmd ∈ knownCmds) : (9 : UInt8) ∉ cmd.chars := by
  have hall : knownCmds.all (fun cmd => cmd.chars.all (· != 9)) := by decide
  have hne := ne_of_all (List.all_eq_true.mp hall cmd h)
  exact fun hmem => hne 9 hmem rfl

theorem firstWord_mem_iff {r : List UInt8} {cmd : CString × Builtin} (hcmd : cmd ∈ builtins)
    (hchars : line.chars = cmd.1.chars ++ r) (hw : ∀ c ∈ cmd.1.chars, isBlank c = false)
    (hr : ∀ d r', r = d :: r' → isBlank d) :
    firstWord line ∈ knownCmds ↔ line.chars[cmd.1.chars.length]? ≠ some 9 := by
  obtain ⟨hknown, hshort, _⟩ := builtins_known hcmd
  have hspace : ∀ c ∈ cmd.1.chars, decide (c ≠ 32) = true := by
    intro c hc
    rw [decide_eq_true_iff]
    rintro rfl
    exact absurd (hw 32 hc) (by decide)
  have hfirst : (firstWord line).chars = (cmd.1.chars ++ r.takeWhile fun c => c ≠ 32).take 31 := by
    change firstLoop line.chars 31 = _
    rw [firstLoop_eq, hchars, List.takeWhile_append_of_pos hspace]
  have hat : line.chars[cmd.1.chars.length]? = r.head? := by
    rw [hchars, List.getElem?_append_right le_rfl, Nat.sub_self, List.head?_eq_getElem?]
  rw [hat]
  have hsame (h : (r.takeWhile fun c => decide (c ≠ 32)) = []) : firstWord line ∈ knownCmds := by
    rw [h, List.append_nil, List.take_of_length_le (by omega)] at hfirst
    rwa [CString.eq_of_chars hfirst]
  cases r with
  | nil => exact iff_of_true (hsame rfl) (by simp)
  | cons d r =>
      rw [List.head?_cons]
      rcases isBlank_iff.mp (hr d r rfl) with rfl | rfl
      · exact iff_of_true (hsame (by simp)) (by decide)
      · refine iff_of_false (fun h => ?_) (not_not_intro rfl)
        have htab : (9 : UInt8) ∈ (firstWord line).chars := by
          rw [hfirst, List.take_append, List.take_of_length_le (by omega)]
          refine List.mem_append_right _ ?_
          rw [List.takeWhile_cons_of_pos (by decide), show 31 - cmd.1.chars.length =
            30 - cmd.1.chars.length + 1 by omega, List.take_succ_cons]
          exact List.mem_cons_self
        exact tab_notMem_knownCmds h htab

theorem stringFrom_eq {obj : List UInt8} {name : CString} {i : ℕ} (h : StringAt obj i name.chars) :
    stringFrom obj i = some name := by
  obtain ⟨rest, hobj⟩ := h
  rw [List.append_assoc, List.singleton_append] at hobj
  have hmem : 0 ∈ obj.drop i := by
    rw [← hobj]
    simp
  have hall : ∀ c ∈ name.chars, decide (c ≠ 0) = true := fun c hc => by simpa using name.nonzero c hc
  unfold stringFrom
  rw [if_pos hmem, Option.some_inj]
  apply CString.eq_of_chars
  change (obj.drop i).takeWhile _ = name.chars
  rw [← hobj, List.takeWhile_append_of_pos hall, List.takeWhile_cons_of_neg (by simp), List.append_nil]

theorem runBuiltin_eq {cmd : CString × Builtin} {argv : List ℕ} {obj : List UInt8} {ws : List (List UInt8)}
    (hcmd : cmd ∈ builtins) (hargv : List.Forall₂ (StringAt obj) argv (ws.take 15))
    (hword : ws.head? = some cmd.1.chars) : runBuiltin argv obj = some cmd.2 := by
  obtain ⟨ws, rfl⟩ := List.head?_eq_some_iff.mp hword
  rw [List.take_succ_cons] at hargv
  rcases hargv with _ | ⟨hfirst, _⟩
  unfold runBuiltin
  simp only [List.getElem?_cons_zero, Option.bind_eq_bind, Option.bind_some, stringFrom_eq hfirst,
    (builtins_known hcmd).2.2]

/-- **A command** is executed as such, and not taken for prose, exactly if no tab ends its name or there is
no space in the line. -/
theorem executeLine_command_iff (nlp : CString → Option CString) (lineCopy : Vector UInt8 256)
    (cmdCopy : List UInt8) {cmd : CString × Builtin} (hcmd : cmd ∈ builtins) (hline : line.chars.length ≤ 254)
    (htrim : ∀ c, line.chars.head? = some c → isBlank c = false)
    (hword : (words isBlank line.chars).head? = some cmd.1.chars) :
    (isEnglishIntent line = false ∧ ∃ argv obj,
        executeLine nlp lineCopy.toList cmdCopy line = some (.builtin argv obj) ∧
          runBuiltin argv obj = some cmd.2) ↔
      line.chars[cmd.1.chars.length]? ≠ some 9 ∨ (32 : UInt8) ∉ line.chars := by
  obtain ⟨r, hchars, hw, hr⟩ := first_of_words htrim hword
  rw [← firstWord_mem_iff hcmd hchars hw hr, ← isEnglishIntent_eq_false]
  refine and_iff_left_of_imp fun hroute => ?_
  have hwords : words isBlank line.chars ≠ [] := by
    intro h
    rw [h] at hword
    cases hword
  have hne : (trimLine line).chars ≠ [] := by
    intro h
    rw [← words_trimLine, h, words_of_all (by simp)] at hwords
    exact hwords rfl
  have hintact := (executeWords_iff lineCopy (hline.trans (by decide))).mpr (.inl (Nat.lt_succ_of_le hline))
  unfold Intact at hintact
  rw [if_neg hwords] at hintact
  obtain ⟨argv, obj, hres, hargv⟩ := hintact
  refine ⟨argv, obj, ?_, runBuiltin_eq hcmd hargv hword⟩
  have hexec := @executeLine_of_false lineCopy.toList line nlp cmdCopy
  rw [trimLine_eq htrim] at hexec hne
  rw [hexec hroute hne, hres]

/-- `ls`, a tab, `foo bar`: the resolver gets the line. -/
theorem executeLine_tab : ∃ (line : CString) (cmd : CString × Builtin), cmd ∈ builtins ∧
    line.chars = ascii "ls\tfoo bar" ∧ line.chars.length ≤ 254 ∧ trimLine line = line ∧
      (words isBlank line.chars).head? = some cmd.1.chars ∧ isEnglishIntent line = true := by
  refine ⟨literal "ls\tfoo bar" (by decide), (literal "ls" (by decide), .ls), by decide, rfl, by decide, ?_,
    by decide, by decide⟩
  refine trimLine_eq fun c (hc : some 108 = some c) => ?_
  rw [← Option.some.inj hc]
  decide

/-- The line `ls`. -/
theorem executeLine_command_ls : ∃ line : CString, line.chars = [108, 115] ∧
    isEnglishIntent line = false ∧ ∃ argv obj,
      executeLine (fun _ => none) (Vector.replicate 256 1).toList [] line = some (.builtin argv obj) ∧
        runBuiltin argv obj = some .ls := by
  refine ⟨literal "ls" (by decide), rfl, (@executeLine_command_iff (literal "ls" (by decide)) _ _ _
    (literal "ls" (by decide), .ls) (by decide) (by decide) ?_ (by decide)).mpr (.inr (by decide))⟩
  intro c (hc : some 108 = some c)
  rw [← Option.some.inj hc]
  decide

end

end LunaOs
