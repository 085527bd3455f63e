import LunaOs.ShellCommand
import Mathlib.Algebra.Order.BigOperators.Group.List

/-! # The query of the `ai` command, `cmd_ai` of `user/shell/shell.c`

Every `luna_strcat` is unchecked.  What keeps the query inside its 256 bytes is that the words of a line and
a space between each two of them are not longer than the line. -/

namespace LunaOs

open Words

/-- `for (int i = 1; i < argc; i++)` over the arguments from `argv[i]` on. -/
def aiQueryLoop (obj : List UInt8) : List ℕ → List UInt8 → Option (List UInt8)
  | [], query => some query
  | arg :: args, query => do
      let query ← strcatInto query (obj.drop arg)
      let query ← if args ≠ [] then strcatInto query [32, 0] else some query
      aiQueryLoop obj args query

/-- The query that `ai_query` gets, or none with a usage message. -/
def cmdAi (argv : List ℕ) (obj : List UInt8) : Option (Option (List UInt8)) :=
  if argv.length < 2 then some none
  else (aiQueryLoop obj argv.tail (List.replicate 256 0)).map some

/-- What should become of the words of the line. -/
def AiQuery (ws : List (List UInt8)) (res : Option (Option (List UInt8))) : Prop :=
  if ws.length < 2 then res = some none
  else ∃ query, res = some (some query) ∧ query.length = 256 ∧
    StringAt query 0 (List.intercalate [32] ws.tail)

/-- **The words are joined** by single spaces, if there is room. -/
theorem aiQueryLoop_eq {obj q old : List UInt8} {args : List ℕ} {ws : List (List UInt8)}
    (hargs : List.Forall₂ (StringAt obj) args ws) (hws : ∀ w ∈ ws, ∀ c ∈ w, c ≠ 0) (hq : ∀ c ∈ q, c ≠ 0)
    (hlen : (List.intercalate [32] ws).length ≤ old.length) :
    aiQueryLoop obj args (q ++ 0 :: old) = some (q ++ List.intercalate [32] ws ++
      0 :: old.drop (List.intercalate [32] ws).length) := by
  induction hargs generalizing q old with
  | nil => simp [aiQueryLoop]
  | @cons arg w args ws harg hargs ih =>
      obtain ⟨hw, hws⟩ := List.forall_mem_cons.mp hws
      obtain ⟨rest, hobj⟩ := harg
      rw [List.append_assoc, List.singleton_append] at hobj
      unfold aiQueryLoop
      rw [← hobj]
      cases hargs with
      | nil =>
          rw [List.intercalate_singleton] at hlen ⊢
          rw [strcatInto_eq hq hw hlen]
          rfl
      | @cons arg' w' args ws harg' hargs =>
          rw [List.intercalate_cons_cons] at hlen ⊢
          rw [List.length_append, List.length_append, List.length_singleton] at hlen
          have hjoin : ∀ c ∈ q ++ w ++ [32], c ≠ 0 := by
            intro c hc
            rcases List.mem_append.mp hc with hc | hc
            · exact (List.mem_append.mp hc).elim (hq c) (hw c)
            · rw [List.mem_singleton.mp hc]
              decide
          have hspace : strcatInto (q ++ w ++ 0 :: old.drop w.length) ([32] ++ 0 :: []) =
              some (q ++ w ++ [32] ++ 0 :: (old.drop w.length).drop 1) := by
            refine strcatInto_eq (fun c hc => hjoin c (List.mem_append_left _ hc)) (by simp) ?_
            rw [List.length_drop, List.length_singleton]
            omega
          have hnext := @ih (q ++ w ++ [32]) ((old.drop w.length).drop 1) hws hjoin (by
            rw [List.length_drop, List.length_drop]
            omega)
          rw [strcatInto_eq hq hw (by omega), Option.bind_eq_bind, Option.bind_some,
            if_pos (List.cons_ne_nil _ _)]
          change (strcatInto (q ++ w ++ 0 :: old.drop w.length) ([32] ++ 0 :: [])).bind _ = _
          rw [hspace, Option.bind_some]
          refine hnext.trans ?_
          simp [List.drop_drop, Nat.add_assoc, Nat.add_comm 1]

theorem length_query_le {line : List UInt8} {n : ℕ} (hline : line.length ≤ 254) :
    (List.intercalate [32] ((words isBlank line).take n).tail).length ≤ 255 := by
  have hsub : List.Sublist ((words isBlank line).take n).tail (words isBlank line) :=
    (List.tail_sublist _).trans (List.take_sublist _ _)
  have hsum := (hsub.map fun w => w.length + 1).sum_le_sum (fun _ _ => Nat.zero_le _)
  have hwords := sum_words_le isBlank line
  have hjoin := length_intercalate_le 32 ((words isBlank line).take n).tail
  omega

theorem cmdAi_eq {line obj : List UInt8} {argv : List ℕ} (hline : line.length ≤ 254) (hnonzero : ∀ c ∈ line, c ≠ 0)
    (hargv : List.Forall₂ (StringAt obj) argv ((words isBlank line).take 15)) :
    AiQuery ((words isBlank line).take 15) (cmdAi argv obj) := by
  unfold AiQuery cmdAi
  rw [hargv.length_eq]
  split_ifs with hfew
  · rfl
  · have htail := List.forall₂_drop 1 hargv
    rw [List.drop_one, List.drop_one] at htail
    have hws : ∀ w ∈ ((words isBlank line).take 15).tail, ∀ c ∈ w, c ≠ 0 := fun w hw c hc =>
      hnonzero c (mem_of_mem_words (List.take_subset _ _ (List.mem_of_mem_tail hw)) hc)
    have hle := @length_query_le line 15 hline
    have hloop := @aiQueryLoop_eq obj [] (List.replicate 255 0) _ _ htail hws (by simp) (by
      rwa [List.length_replicate])
    rw [List.nil_append, ← List.replicate_succ, List.nil_append] at hloop
    refine ⟨_, by rw [hloop]; rfl, ?_, ?_⟩
    · rw [List.length_append, List.length_cons, List.length_drop, List.length_replicate]
      omega
    · rw [StringAt, List.drop_zero]
      exact ⟨_, (List.append_cons _ _ _).symm⟩

theorem executeLine_builtin {nlp : CString → Option CString} {lineCopy cmdCopy obj : List UInt8} {line : CString}
    {argv : List ℕ} (h : executeLine nlp lineCopy cmdCopy line = some (.builtin argv obj)) :
    executeWords lineCopy (trimLine line) = some (.builtin argv obj) := by
  unfold executeLine at h
  dsimp only at h
  split_ifs at h with hempty hroute
  · cases h
  · rcases hmapped : nlp (trimLine line) with _ | mapped
    · rwa [hmapped] at h
    · rw [hmapped] at h
      dsimp only at h
      split_ifs at h with hne
      · -- the resolved command is executed instead
        rcases hcopy : strncpyInto cmdCopy (mapped.chars ++ [0]) (shellBufLen - 1) with _ | cmd
        · rw [hcopy] at h
          cases h
        · rw [hcopy] at h
          cases h
      · exact h
  · exact h

/-- **`cmd_ai`** rebuilds the query from the words of the line and stays inside its buffer. -/
theorem cmdAi_query (nlp : CString → Option CString) (lineCopy : Vector UInt8 256) (cmdCopy : List UInt8)
    {line : CString} (hline : line.chars.length ≤ 254)
    (hword : (words isBlank line.chars).head? = some (ascii "ai")) :
    (isEnglishIntent (trimLine line) = false → ∃ argv obj,
        executeLine nlp lineCopy.toList cmdCopy line = some (.builtin argv obj)) ∧
      ∀ argv obj, executeLine nlp lineCopy.toList cmdCopy line = some (.builtin argv obj) →
        runBuiltin argv obj = some .ai ∧ AiQuery ((words isBlank line.chars).take 15) (cmdAi argv obj) := by
  have htrim := trimLine_length_le line
  have hwords : words isBlank (trimLine line).chars ≠ [] := by
    intro h
    rw [← words_trimLine, h] at hword
    cases hword
  have hintact := (executeWords_iff lineCopy (by omega : (trimLine line).chars.length ≤ 255)).mpr (.inl (by omega))
  unfold Intact at hintact
  rw [if_neg hwords] at hintact
  obtain ⟨argv, obj, hres, hargv⟩ := hintact
  constructor
  · intro hroute
    have hne : (trimLine line).chars ≠ [] := by
      intro h
      rw [h, words_of_all (by simp)] at hwords
      exact hwords rfl
    exact ⟨argv, obj, (executeLine_of_false hroute hne).trans hres⟩
  · intro argv' obj' h
    have hsame := Option.some.inj (hres.symm.trans (executeLine_builtin h))
    obtain ⟨rfl, rfl⟩ := Executed.builtin.inj hsame
    rw [words_trimLine] at hargv
    refine ⟨?_, cmdAi_eq hline line.nonzero hargv⟩
    exact @runBuiltin_eq (literal "ai" (by decide), .ai) argv obj _ (by decide) hargv hword

/-- The line `ai hi`. -/
theorem cmdAi_query_hi : ∃ line : CString, line.chars = ascii "ai hi" ∧
    (isEnglishIntent (trimLine line) = false → ∃ argv obj,
        executeLine (fun _ => none) (Vector.replicate 256 1).toList [] line = some (.builtin argv obj)) ∧
      ∀ argv obj, executeLine (fun _ => none) (Vector.replicate 256 1).toList [] line = some (.builtin argv obj) →
        runBuiltin argv obj = some .ai ∧ AiQuery ((words isBlank line.chars).take 15) (cmdAi argv obj) :=
  ⟨literal "ai hi" (by decide), rfl, cmdAi_query _ _ _ (by decide) (by decide)⟩

end LunaOs
