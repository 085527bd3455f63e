import LunaOs.Lib.Words
import LunaOs.StringSearch

/-! # Cutting a string into tokens, `luna_strtok` of `kernel/string.c`

An object is the list of its bytes, and a pointer to it an offset.  `none` stands for a fault: a read or
write outside the object.

The tokens are the words of the string between delimiters.  A call finds the next one from the saved
pointer on and puts a NUL behind it, in the place of a delimiter; what is behind that place is still as
it was, and this is all the next call looks at (`strtokNext_words`). -/

namespace LunaOs

open Words

/-- The loop of `luna_strchr` at offset `i`. -/
def strchrLoop (c : UInt8) : List UInt8 → ℕ → Option ℕ
  | [], i => if c = 0 then some i else none
  | a :: s, i => if a = c then some i else strchrLoop c s (i + 1)

/-- The offset of the result in the string, `none` for `NULL`. -/
def lunaStrchr (s : CString) (c : UInt8) : Option ℕ := strchrLoop c s.chars 0

/-- The result, the object and `*saveptr`; `none` stands for `NULL` there. -/
def lunaStrtok (obj : List UInt8) (str : Option ℕ) (delim : CString) (saveptr : Option ℕ) :
    Option (Option ℕ × List UInt8 × Option ℕ) :=
  match str.or saveptr with
  | none => some (none, obj, saveptr)
  | some s =>
      match advance (fun c => c ≠ 0 && (lunaStrchr delim c).isSome) (obj.drop s) with
      | none => none
      | some skipped =>
          let start := s + skipped
          if obj[start]? = some 0 then some (none, obj, none)
          else
            match advance (fun c => c ≠ 0 && !(lunaStrchr delim c).isSome) (obj.drop start) with
            | none => none
            | some length =>
                let s := start + length
                if obj[s]? = some 0 then some (some start, obj, some s)
                else some (some start, obj.set s 0, some (s + 1))

/-- `n` calls with `NULL` for the string: the results, the object and `*saveptr`. -/
def strtokNext (delim : CString) :
    ℕ → List UInt8 → Option ℕ → Option (List (Option ℕ) × List UInt8 × Option ℕ)
  | 0, obj, saveptr => some ([], obj, saveptr)
  | n + 1, obj, saveptr => do
      let (tok, obj, saveptr) ← lunaStrtok obj none delim saveptr
      let (toks, obj, saveptr) ← strtokNext delim n obj saveptr
      return (tok :: toks, obj, saveptr)

/-- A call with the string at the beginning of the object, then `n` calls with `NULL`. -/
def strtokCalls (delim : CString) (n : ℕ) (obj : List UInt8) (saveptr : Option ℕ) :
    Option (List (Option ℕ) × List UInt8 × Option ℕ) := do
  let (tok, obj, saveptr) ← lunaStrtok obj (some 0) delim saveptr
  let (toks, obj, saveptr) ← strtokNext delim n obj saveptr
  return (tok :: toks, obj, saveptr)

/-- A byte of the delimiter set. -/
def isDelim (delim : CString) (c : UInt8) : Bool := decide (c ∈ delim.chars)

/-- The string `cs` stands at `i`, with its terminator. -/
def StringAt (obj : List UInt8) (i : ℕ) (cs : List UInt8) : Prop := cs ++ [0] <+: obj.drop i

/-! ### The loops -/

section

theorem strchrLoop_isSome (c : UInt8) (s : List UInt8) (i : ℕ) :
    (strchrLoop c s i).isSome ↔ c = 0 ∨ c ∈ s := by
  induction s generalizing i with
  | nil =>
      unfold strchrLoop
      split_ifs with hc <;> simp [hc]
  | cons a s ih =>
      unfold strchrLoop
      split_ifs with hc
      · simp [hc]
      · rw [ih, List.mem_cons, or_left_comm, or_iff_right (Ne.symm hc)]

theorem lunaStrchr_isSome {delim : CString} {c : UInt8} (hc : c ≠ 0) :
    (lunaStrchr delim c).isSome = isDelim delim c := by
  rw [Bool.eq_iff_iff, isDelim, decide_eq_true_iff]
  exact (strchrLoop_isSome c delim.chars 0).trans (or_iff_right hc)

theorem ne_zero_of_isDelim {delim : CString} {c : UInt8} (hc : isDelim delim c) : c ≠ 0 :=
  delim.nonzero c (of_decide_eq_true hc)

end

/-! ### One call -/

section
variable {delim : CString} {obj ds t rest : List UInt8} {str saveptr : Option ℕ} {s : ℕ} {e : UInt8}

theorem advance_skip (hds : ∀ c ∈ ds, isDelim delim c) (he : e = 0 ∨ isDelim delim e = false) :
    advance (fun c => c ≠ 0 && (lunaStrchr delim c).isSome) (ds ++ e :: rest) = some ds.length := by
  refine advance_eq_some (fun c hc => ?_) ?_
  · have hne := ne_zero_of_isDelim (hds c hc)
    simp [hne, lunaStrchr_isSome hne, hds c hc]
  · by_cases hzero : e = 0
    · simp [hzero]
    · simp [hzero, lunaStrchr_isSome hzero, he.resolve_left hzero]

theorem advance_token (ht : ∀ c ∈ t, c ≠ 0 ∧ isDelim delim c = false) (he : e = 0 ∨ isDelim delim e) :
    advance (fun c => c ≠ 0 && !(lunaStrchr delim c).isSome) (t ++ e :: rest) = some t.length := by
  refine advance_eq_some (fun c hc => ?_) ?_
  · obtain ⟨hne, hc⟩ := ht c hc
    simp [hne, lunaStrchr_isSome hne, hc]
  · by_cases hzero : e = 0
    · simp [hzero]
    · simp [hzero, lunaStrchr_isSome hzero, he.resolve_left hzero]

theorem getElem?_of_drop {l : List UInt8} (h : obj.drop s = l ++ e :: rest) : obj[s + l.length]? = some e := by
  rw [← List.getElem?_drop, h, List.getElem?_append_right le_rfl, Nat.sub_self]
  rfl

theorem drop_of_drop {l : List UInt8} (h : obj.drop s = l ++ rest) : obj.drop (s + l.length) = rest := by
  rw [← List.drop_drop, h, List.drop_left]

theorem drop_set_next {b : UInt8} (h : obj.drop s = ds ++ (t ++ e :: rest)) :
    (obj.set (s + ds.length + t.length) b).drop (s + (ds.length + t.length + 1)) = rest := by
  have htail := drop_of_drop (drop_of_drop h)
  rw [List.drop_set_of_lt (by omega), ← Nat.add_assoc, ← Nat.add_assoc, ← List.drop_drop, htail]
  rfl

/-- **A token** is found and cut off. -/
theorem lunaStrtok_token (hs : str.or saveptr = some s) (h : obj.drop s = ds ++ (t ++ e :: rest))
    (hds : ∀ c ∈ ds, isDelim delim c) (hne : t ≠ []) (ht : ∀ c ∈ t, c ≠ 0 ∧ isDelim delim c = false)
    (he : e = 0 ∨ isDelim delim e) :
    lunaStrtok obj str delim saveptr = some (some (s + ds.length), obj.set (s + ds.length + t.length) 0,
      some (if e = 0 then s + ds.length + t.length else s + ds.length + t.length + 1)) := by
  obtain ⟨c, t', rfl⟩ := List.exists_cons_of_ne_nil hne
  obtain ⟨hzero, hc⟩ := ht c List.mem_cons_self
  have hskip : advance (fun c => c ≠ 0 && (lunaStrchr delim c).isSome) (obj.drop s) = some ds.length := by
    rw [h]
    exact advance_skip hds (.inr hc)
  have hdrop := drop_of_drop h
  have hfirst : obj[s + ds.length]? = some c := getElem?_of_drop h
  have htoken : advance (fun c => c ≠ 0 && !(lunaStrchr delim c).isSome) (obj.drop (s + ds.length)) =
      some (c :: t').length := by
    rw [hdrop]
    exact advance_token ht he
  have hstop := getElem?_of_drop hdrop
  unfold lunaStrtok
  rw [hs]
  dsimp only
  rw [hskip]
  dsimp only
  rw [hfirst, if_neg (by simpa using hzero), htoken]
  dsimp only
  rw [hstop]
  by_cases hend : e = 0
  · -- the terminator is not written again
    have hset : obj.set (s + ds.length + (c :: t').length) 0 = obj := by
      obtain ⟨hlt, hzero⟩ := List.getElem?_eq_some_iff.mp hstop
      rw [hend] at hzero
      simpa only [hzero] using List.set_getElem_self hlt
    rw [if_pos (by rw [hend]), if_pos hend, hset]
  · rw [if_neg (by simpa using hend), if_neg hend]

/-- **No token** is left. -/
theorem lunaStrtok_last (hs : str.or saveptr = some s) (h : obj.drop s = ds ++ 0 :: rest)
    (hds : ∀ c ∈ ds, isDelim delim c) : lunaStrtok obj str delim saveptr = some (none, obj, none) := by
  have hskip : advance (fun c => c ≠ 0 && (lunaStrchr delim c).isSome) (obj.drop s) = some ds.length := by
    rw [h]
    exact advance_skip hds (.inl rfl)
  unfold lunaStrtok
  rw [hs]
  dsimp only
  rw [hskip]
  dsimp only
  rw [getElem?_of_drop h, if_pos rfl]

/-- **A fault**: neither a NUL nor a delimiter behind the token. -/
theorem lunaStrtok_fault (hs : str.or saveptr = some s) (h : obj.drop s = ds ++ t)
    (hds : ∀ c ∈ ds, isDelim delim c) (ht : ∀ c ∈ t, c ≠ 0 ∧ isDelim delim c = false) :
    lunaStrtok obj str delim saveptr = none := by
  unfold lunaStrtok
  rw [hs]
  dsimp only
  cases t with
  | nil =>
      have hskip : advance (fun c => c ≠ 0 && (lunaStrchr delim c).isSome) (obj.drop s) = none := by
        rw [h, List.append_nil]
        refine advance_eq_none fun c hc => ?_
        have hne := ne_zero_of_isDelim (hds c hc)
        simp [hne, lunaStrchr_isSome hne, hds c hc]
      rw [hskip]
  | cons c t =>
      obtain ⟨hzero, hc⟩ := ht c List.mem_cons_self
      have hskip : advance (fun c => c ≠ 0 && (lunaStrchr delim c).isSome) (obj.drop s) = some ds.length := by
        rw [h]
        exact advance_skip hds (.inr hc)
      have htoken : advance (fun c => c ≠ 0 && !(lunaStrchr delim c).isSome) (obj.drop (s + ds.length)) =
          none := by
        rw [drop_of_drop h]
        refine advance_eq_none fun c hc => ?_
        obtain ⟨hne, hc⟩ := ht c hc
        simp [hne, lunaStrchr_isSome hne, hc]
      rw [hskip]
      dsimp only
      rw [getElem?_of_drop h, if_neg (by simpa using hzero), htoken]

/-- After the last token every call returns `NULL`. -/
theorem strtokNext_null (delim : CString) (n : ℕ) (obj : List UInt8) :
    strtokNext delim n obj none = some (List.replicate n none, obj, none) := by
  induction n with
  | zero => rfl
  | succ n ih =>
      unfold strtokNext
      simp [lunaStrtok, ih, List.replicate_succ]

end

/-! ### Strings in an object -/

section
variable {obj obj' cs : List UInt8} {i : ℕ}

theorem stringAt_iff : StringAt obj i cs ↔ ∀ j ≤ cs.length, obj[i + j]? = (cs ++ [0])[j]? := by
  unfold StringAt
  rw [List.prefix_iff_getElem?]
  constructor
  · intro h j hj
    have hlt : j < (cs ++ [0]).length := by
      simp
      omega
    rw [← List.getElem?_drop, h j hlt, List.getElem?_eq_getElem hlt]
  · intro h j hj
    have hle : j ≤ cs.length := by
      simp at hj
      omega
    rw [List.getElem?_drop, h j hle, List.getElem?_eq_getElem hj]

theorem StringAt.congr (h : StringAt obj i cs)
    (hsame : ∀ j, i ≤ j → j ≤ i + cs.length → obj'[j]? = obj[j]?) : StringAt obj' i cs := by
  rw [stringAt_iff] at h ⊢
  intro j hj
  rw [hsame (i + j) (by omega) (by omega), h j hj]

end

/-! ### Runs of calls -/

/-- What `n` calls from the string `l` at `s` on have done: the first `n` words are strings of their own,
and only delimiters of the string are overwritten. -/
structure Cut (delim : CString) (l : List UInt8) (s n : ℕ) (obj obj' : List UInt8) : Prop where
  length_eq : obj'.length = obj.length
  token : ∀ i ∈ (starts (isDelim delim) l).take n, StringAt obj' (s + i) (word (isDelim delim) l i)
  changed : ∀ i, obj'[i]? ≠ obj[i]? → s ≤ i ∧ i ≤ s + l.length ∧
    ∃ c, obj[i]? = some c ∧ isDelim delim c ∧ obj'[i]? = some 0

namespace Cut

variable {delim : CString} {n : ℕ} {obj obj' l l' ds t rest cs : List UInt8} {s i k : ℕ} {e : UInt8}

theorem refl (delim : CString) (l : List UInt8) (s : ℕ) (obj : List UInt8) : Cut delim l s 0 obj obj where
  length_eq := rfl
  token i hi := by
    rw [List.take_zero] at hi
    cases hi
  changed i hi := absurd rfl hi

theorem stringAt (h : Cut delim l s n obj obj') (hstring : StringAt obj i cs)
    (hcs : ∀ c ∈ cs, isDelim delim c = false) : StringAt obj' i cs := by
  refine hstring.congr fun j hij hj => ?_
  by_contra hne
  obtain ⟨_, _, c, hc, hdelim, _⟩ := h.changed j hne
  obtain ⟨m, rfl⟩ := Nat.exists_eq_add_of_le hij
  rw [stringAt_iff.mp hstring m (by omega)] at hc
  rcases List.mem_append.mp (List.mem_of_getElem? hc) with hmem | hmem
  · rw [hcs c hmem] at hdelim
    cases hdelim
  · exact ne_zero_of_isDelim hdelim (List.mem_singleton.mp hmem)

theorem cons (h : obj.drop s = ds ++ (t ++ e :: rest)) (he : e = 0 ∨ isDelim delim e)
    (ht : ∀ c ∈ t, isDelim delim c = false)
    (hstarts : starts (isDelim delim) l = ds.length :: (starts (isDelim delim) l').map (k + ·))
    (hfirst : word (isDelim delim) l ds.length = t)
    (hword : ∀ i, word (isDelim delim) l (k + i) = word (isDelim delim) l' i)
    (hend : ds.length + t.length ≤ l.length) (hle : k + l'.length ≤ l.length)
    (hrest : Cut delim l' (s + k) n (obj.set (s + ds.length + t.length) 0) obj') :
    Cut delim l s (n + 1) obj obj' := by
  have hdrop := drop_of_drop h
  have hstop := getElem?_of_drop hdrop
  obtain ⟨hlt, _⟩ := List.getElem?_eq_some_iff.mp hstop
  refine ⟨by rw [hrest.length_eq, List.length_set], fun i hi => ?_, fun i hi => ?_⟩
  · rw [hstarts, List.take_succ_cons, List.mem_cons] at hi
    rcases hi with rfl | hi
    · rw [hfirst]
      refine hrest.stringAt ?_ ht
      rw [stringAt_iff]
      intro j hj
      rcases Nat.lt_or_eq_of_le hj with hj | rfl
      · rw [List.getElem?_set_ne (by omega), ← List.getElem?_drop, hdrop,
          List.getElem?_append_left hj, List.getElem?_append_left hj]
      · rw [List.getElem?_set_self hlt, List.getElem?_append_right le_rfl, Nat.sub_self]
        rfl
    · rw [← List.map_take] at hi
      obtain ⟨m, hm, rfl⟩ := List.mem_map.mp hi
      rw [hword, ← Nat.add_assoc]
      exact hrest.token m hm
  · by_cases hsame : obj'[i]? = (obj.set (s + ds.length + t.length) 0)[i]?
    · -- the byte behind the first token
      rw [hsame] at hi ⊢
      obtain rfl : i = s + ds.length + t.length := by
        by_contra hne
        exact hi (List.getElem?_set_ne (Ne.symm hne))
      rw [List.getElem?_set_self hlt] at hi ⊢
      refine ⟨by omega, by omega, e, hstop, he.resolve_left fun hzero => hi ?_, rfl⟩
      rw [hstop, hzero]
    · obtain ⟨h1, h2, c, hc, hdelim, hzero⟩ := hrest.changed i hsame
      refine ⟨by omega, by omega, c, ?_, hdelim, hzero⟩
      by_cases hi : s + ds.length + t.length = i
      · rw [← hi, List.getElem?_set_self hlt] at hc
        exact absurd (Option.some.inj hc).symm (ne_zero_of_isDelim hdelim)
      · rwa [List.getElem?_set_ne hi] at hc

end Cut

section
variable {delim : CString} {n : ℕ} {obj l rest : List UInt8} {s : ℕ} {e : UInt8}

theorem take_replicate_succ (toks : List (Option ℕ)) (n : ℕ) :
    (toks ++ List.replicate (n + 1) none).take n = (toks ++ List.replicate n none).take n := by
  rw [List.replicate_succ', ← List.append_assoc, List.take_append_of_le_length (by simp)]

section
variable {ds t l' : List UInt8} {d : UInt8} (hds : ∀ c ∈ ds, isDelim delim c) (hne : t ≠ [])
  (ht : ∀ c ∈ t, c ≠ 0 ∧ isDelim delim c = false)
include hds hne ht

theorem strtokNext_last {save' : Option ℕ} {obj' : List UInt8} (h : obj.drop s = ds ++ (t ++ e :: rest))
    (he : e = 0 ∨ isDelim delim e)
    (hnext : strtokNext delim n (obj.set (s + ds.length + t.length) 0)
      (some (if e = 0 then s + ds.length + t.length else s + ds.length + t.length + 1)) =
        some (List.replicate n none, obj', save'))
    (hcut : Cut delim [] (s + (ds.length + t.length)) n (obj.set (s + ds.length + t.length) 0) obj') :
    strtokNext delim (n + 1) obj (some s) =
        some ((((starts (isDelim delim) (ds ++ t)).map fun i => some (s + i)) ++
          List.replicate (n + 1) none).take (n + 1), obj', save') ∧
      Cut delim (ds ++ t) s (n + 1) obj obj' := by
  have ht' : ∀ c ∈ t, isDelim delim c = false := fun c hc => (ht c hc).2
  have hstarts := starts_last hds ht' hne
  have hfirst : word (isDelim delim) (ds ++ t) ds.length = t := by
    simpa using @word_next _ (isDelim delim) ds t [] ht' (by simp)
  have hcall := lunaStrtok_token (Option.none_or : none.or (some s) = some s) h hds hne ht he
  constructor
  · rw [strtokNext, hcall]
    simp [hnext, hstarts]
  · refine .cons h he ht' (by rw [hstarts]; rfl) hfirst (fun i => ?_) (by simp) (by simp) hcut
    unfold word
    rw [List.drop_of_length_le (by simp), List.drop_nil]

theorem strtokNext_cons {save' : Option ℕ} {obj' : List UInt8} (hd : isDelim delim d)
    (h : obj.drop s = ds ++ (t ++ d :: rest))
    (hnext : strtokNext delim n (obj.set (s + ds.length + t.length) 0)
      (some (s + (ds.length + t.length + 1))) =
        some ((((starts (isDelim delim) l').map fun i => some (s + (ds.length + t.length + 1) + i)) ++
          List.replicate n none).take n, obj', save'))
    (hcut : Cut delim l' (s + (ds.length + t.length + 1)) n (obj.set (s + ds.length + t.length) 0) obj') :
    strtokNext delim (n + 1) obj (some s) =
        some ((((starts (isDelim delim) (ds ++ (t ++ d :: l'))).map fun i => some (s + i)) ++
          List.replicate (n + 1) none).take (n + 1), obj', save') ∧
      Cut delim (ds ++ (t ++ d :: l')) s (n + 1) obj obj' := by
  have ht' : ∀ c ∈ t, isDelim delim c = false := fun c hc => (ht c hc).2
  have hstarts : starts (isDelim delim) (ds ++ (t ++ d :: l')) = _ := starts_next hds ht' hne hd
  have hfirst : word (isDelim delim) (ds ++ (t ++ d :: l')) ds.length = t := by
    refine word_next ht' fun d' r hr => ?_
    rwa [← (List.cons.inj hr).1]
  have hword : ∀ i, word (isDelim delim) (ds ++ (t ++ d :: l')) (ds.length + t.length + 1 + i) =
      word (isDelim delim) l' i := by
    intro i
    have happend := @word_append _ (isDelim delim) (ds ++ t) l' d i
    rwa [List.length_append, List.append_assoc] at happend
  have hcall := lunaStrtok_token (Option.none_or : none.or (some s) = some s) h hds hne ht (.inr hd)
  rw [if_neg (ne_zero_of_isDelim hd)] at hcall
  constructor
  · rw [strtokNext, hcall]
    rw [← Nat.add_assoc, ← Nat.add_assoc] at hnext
    rw [hstarts]
    simp [hnext, ← Nat.add_assoc, Function.comp_def, take_replicate_succ]
  · exact .cons h (.inr hd) ht' hstarts hfirst hword (by simp) (by simp; omega) hcut

end

/-- **The calls find the words**, as long as there is a NUL or a delimiter behind them. -/
theorem strtokNext_words (h : obj.drop s = l ++ e :: rest) (hl : ∀ c ∈ l, c ≠ 0)
    (he : e = 0 ∨ isDelim delim e ∧ n ≤ (words (isDelim delim) l).length) :
    ∃ obj' saveptr, strtokNext delim n obj (some s) =
        some ((((starts (isDelim delim) l).map fun i => some (s + i)) ++ List.replicate n none).take n,
          obj', saveptr) ∧
      Cut delim l s n obj obj' := by
  induction n generalizing obj l s with
  | zero => exact ⟨obj, some s, rfl, .refl delim l s obj⟩
  | succ n ih =>
      rcases exists_next (isDelim delim) l with hall | ⟨ds, t, r, rfl, hds, hne, ht, hr⟩
      · -- no word is left
        rw [words_of_all hall] at he
        obtain rfl : e = 0 := he.resolve_right fun h => absurd h.2 (by simp)
        have hlast := lunaStrtok_last (Option.none_or : none.or (some s) = some s) h hall
        refine ⟨obj, none, ?_, rfl, fun i hi => ?_, fun i hi => absurd rfl hi⟩
        · rw [strtokNext, hlast, starts_of_all hall]
          simp [strtokNext_null, List.replicate_succ]
        · rw [starts_of_all hall] at hi
          cases hi
      · have hchars : ∀ c ∈ t, c ≠ 0 ∧ isDelim delim c = false := fun c hc => ⟨hl c (by simp [hc]), ht c hc⟩
        cases r with
        | nil =>
            simp only [List.append_nil] at h hl he ⊢
            rw [List.append_assoc] at h
            have hstop : e = 0 ∨ isDelim delim e := he.imp_right And.left
            obtain ⟨obj', save', hnext, hcut⟩ : ∃ obj' save',
                strtokNext delim n (obj.set (s + ds.length + t.length) 0)
                    (some (if e = 0 then s + ds.length + t.length else s + ds.length + t.length + 1)) =
                  some (List.replicate n none, obj', save') ∧
                Cut delim [] (s + (ds.length + t.length)) n (obj.set (s + ds.length + t.length) 0) obj' := by
              by_cases hzero : e = 0
              · have hdrop := drop_of_drop (drop_of_drop h)
                have hdrop' : (obj.set (s + ds.length + t.length) 0).drop (s + ds.length + t.length) =
                    [] ++ e :: rest := by
                  rw [List.drop_set, if_neg (lt_irrefl _), Nat.sub_self, hdrop, hzero]
                  rfl
                obtain ⟨obj', save', hnext, hcut⟩ := ih hdrop' (by simp) (.inl hzero)
                refine ⟨obj', save', ?_, by rwa [← Nat.add_assoc]⟩
                rw [if_pos hzero, hnext, starts_of_all (by simp)]
                simp
              · have hle := (he.resolve_left hzero).2
                rw [words_last hds ht hne] at hle
                obtain rfl : n = 0 := by simpa using hle
                exact ⟨_, _, rfl, .refl _ _ _ _⟩
            exact ⟨obj', save', strtokNext_last hds hne hchars h hstop hnext hcut⟩
        | cons d l' =>
            have hd := hr d l' rfl
            have hdrop : obj.drop s = ds ++ (t ++ d :: (l' ++ e :: rest)) := by simpa using h
            rw [words_next hds ht hne hd] at he
            obtain ⟨obj', save', hnext, hcut⟩ := ih (drop_set_next hdrop) (fun c hc => hl c (by simp [hc]))
              (he.imp_right fun h => ⟨h.1, Nat.le_of_succ_le_succ h.2⟩)
            exact ⟨obj', save', strtokNext_cons hds hne hchars hd hdrop hnext hcut⟩

end

/-- **The calls run out of the object** if it has no NUL, and no delimiter behind `n` words. -/
theorem strtokNext_fault {delim : CString} {n s : ℕ} {obj l : List UInt8} (h : obj.drop s = l)
    (hl : ∀ c ∈ l, c ≠ 0) (hpos : 0 < n) (hshort : ∀ i d, l[i]? = some d → isDelim delim d →
      (words (isDelim delim) (l.take i)).length < n) : strtokNext delim n obj (some s) = none := by
  induction n generalizing obj l s with
  | zero => exact absurd hpos (lt_irrefl 0)
  | succ n ih =>
      unfold strtokNext
      rcases exists_next (isDelim delim) l with hall | ⟨ds, t, r, rfl, hds, hne, ht, hr⟩
      · have hfault := lunaStrtok_fault (Option.none_or : none.or (some s) = some s)
          (h.trans (List.append_nil l).symm) hall (by simp)
        rw [hfault]
        rfl
      · have hchars : ∀ c ∈ t, c ≠ 0 ∧ isDelim delim c = false := fun c hc => ⟨hl c (by simp [hc]), ht c hc⟩
        cases r with
        | nil =>
            rw [List.append_nil] at h
            rw [lunaStrtok_fault (Option.none_or : none.or (some s) = some s) h hds hchars]
            rfl
        | cons d l' =>
            have hd := hr d l' rfl
            have hcall := lunaStrtok_token (Option.none_or : none.or (some s) = some s) h hds hne hchars (.inr hd)
            rw [if_neg (ne_zero_of_isDelim hd)] at hcall
            have hat : (ds ++ (t ++ d :: l'))[ds.length + t.length]? = some d := by
              rw [← List.append_assoc, ← List.length_append, List.getElem?_append_right le_rfl, Nat.sub_self]
              rfl
            have hone := hshort _ d hat hd
            rw [← List.append_assoc, ← List.length_append, List.take_left, words_last hds ht hne] at hone
            have hrest : strtokNext delim n (obj.set (s + ds.length + t.length) 0)
                (some (s + (ds.length + t.length + 1))) = none := by
              refine ih (drop_set_next h) (fun c hc => hl c (by simp [hc])) (Nat.lt_of_succ_lt_succ hone) ?_
              intro i d' hi hd'
              have hi' : (ds ++ (t ++ d :: l'))[ds.length + t.length + 1 + i]? = some d' := by
                rw [← List.append_assoc, List.getElem?_append_right (by simp; omega)]
                rw [List.length_append, Nat.add_assoc, Nat.add_sub_cancel_left, Nat.add_comm, List.getElem?_cons_succ]
                exact hi
              have hlt := hshort _ d' hi' hd'
              have htake : (ds ++ (t ++ d :: l')).take (ds.length + t.length + 1 + i) =
                  ds ++ (t ++ d :: l'.take i) := by
                rw [← List.append_assoc, ← List.length_append, Nat.add_assoc, List.take_length_add_append,
                  Nat.add_comm 1, List.take_succ_cons, List.append_assoc]
              rw [htake, words_next hds ht hne hd] at hlt
              exact Nat.lt_of_succ_lt_succ hlt
            rw [← Nat.add_assoc, ← Nat.add_assoc] at hrest
            rw [hcall, Option.bind_eq_bind, Option.bind_some]
            dsimp only
            rw [hrest]
            rfl

theorem strtokCalls_eq (delim : CString) (n : ℕ) (obj : List UInt8) (saveptr : Option ℕ) :
    strtokCalls delim n obj saveptr = strtokNext delim (n + 1) obj (some 0) := rfl

/-- **`luna_strtok`** yields the words between the delimiters in order and in place, then `NULL`, and
overwrites delimiters of the string only. -/
theorem strtokCalls_words (s delim : CString) (rest : List UInt8) (saveptr : Option ℕ) (n : ℕ) :
    ∃ obj' saveptr', strtokCalls delim n (s.chars ++ 0 :: rest) saveptr =
        some (((starts (isDelim delim) s.chars).map some ++ List.replicate (n + 1) none).take (n + 1),
          obj', saveptr') ∧
      (∀ i ∈ (starts (isDelim delim) s.chars).take (n + 1),
        StringAt obj' i (word (isDelim delim) s.chars i)) ∧
      obj'.length = (s.chars ++ 0 :: rest).length ∧
      ∀ i : ℕ, obj'[i]? ≠ (s.chars ++ 0 :: rest)[i]? → ∃ c ∈ delim.chars, s.chars[i]? = some c := by
  have hdrop : (s.chars ++ 0 :: rest).drop 0 = s.chars ++ 0 :: rest := List.drop_zero
  obtain ⟨obj', saveptr', hrun, hcut⟩ := @strtokNext_words delim (n + 1) _ _ _ _ _ hdrop s.nonzero (.inl rfl)
  refine ⟨obj', saveptr', ?_, fun i hi => ?_, hcut.length_eq, fun i hi => ?_⟩
  · rw [strtokCalls_eq, hrun]
    simp only [Nat.zero_add]
  · have htoken := hcut.token i hi
    rwa [Nat.zero_add] at htoken
  · obtain ⟨_, hle, c, hc, hdelim, _⟩ := hcut.changed i hi
    rw [Nat.zero_add] at hle
    refine ⟨c, of_decide_eq_true hdelim, ?_⟩
    rcases Nat.lt_or_eq_of_le hle with hlt | rfl
    · rwa [List.getElem?_append_left hlt] at hc
    · -- the terminator is no delimiter
      rw [List.getElem?_append_right le_rfl, Nat.sub_self] at hc
      exact absurd (Option.some.inj hc).symm (ne_zero_of_isDelim hdelim)

end LunaOs
