import Mathlib.Algebra.GroupWithZero.Nat
import Mathlib.Data.List.Infix
import Mathlib.Data.List.TakeWhile

/-! # The words of a list

A word is a maximal run of elements that are no separators.  It starts where no separator stands and a
separator, or nothing, stands before it, and it reaches up to the next separator.  A separator splits
the words of a list into those before it and those behind it. -/

namespace Words

variable {α : Type*} (sep : α → Bool)

/-- A word starts at `i`. -/
def startsAt (l : List α) (i : ℕ) : Bool :=
  (l[i]?.any fun a => !sep a) && (i == 0 || l[i - 1]?.any sep)

/-- Where the words of a list start. -/
def starts (l : List α) : List ℕ := (List.range l.length).filter (startsAt sep l)

/-- The word that starts at `i`. -/
def word (l : List α) (i : ℕ) : List α := (l.drop i).takeWhile fun a => !sep a

def words (l : List α) : List (List α) := (starts sep l).map (word sep l)

variable {sep} {l pre rest : List α} {d : α}

theorem starts_of_all (h : ∀ a ∈ l, sep a) : starts sep l = [] := by
  refine List.filter_eq_nil_iff.mpr fun i hi => ?_
  rw [List.mem_range] at hi
  simp [startsAt, hi, h]

theorem words_of_all (h : ∀ a ∈ l, sep a) : words sep l = [] := by
  unfold words
  rw [starts_of_all h, List.map_nil]

/-- **A separator** splits the starts of the words. -/
theorem starts_append (hd : sep d) :
    starts sep (pre ++ d :: rest) = starts sep pre ++ (starts sep rest).map (pre.length + 1 + ·) := by
  have hbefore : ∀ i ∈ List.range pre.length,
      startsAt sep (pre ++ d :: rest) i = startsAt sep pre i := by
    intro i hi
    rw [List.mem_range] at hi
    unfold startsAt
    rw [List.getElem?_append_left hi, List.getElem?_append_left (by omega)]
  have hat : startsAt sep (pre ++ d :: rest) pre.length = false := by
    simp [startsAt, hd]
  have hbehind : startsAt sep (pre ++ d :: rest) ∘ (pre.length + 1 + ·) = startsAt sep rest := by
    funext j
    unfold startsAt
    rw [Function.comp_apply, List.getElem?_append_right (by omega),
      List.getElem?_append_right (by omega), show pre.length + 1 + j - pre.length = j + 1 by omega,
      show pre.length + 1 + j - 1 - pre.length = j by omega, List.getElem?_cons_succ]
    cases j with
    | zero => simp [hd]
    | succ j =>
        have hne : pre.length + 1 + (j + 1) ≠ 0 := by omega
        rw [beq_false_of_ne hne]
        simp
  have hlength : (pre ++ d :: rest).length = pre.length + 1 + rest.length := by
    simp
    omega
  unfold starts
  rw [hlength, List.range_add, List.range_succ, List.filter_append, List.filter_append,
    List.filter_congr hbefore, List.filter_singleton, hat, List.filter_map, hbehind]
  simp

theorem word_append (i : ℕ) :
    word sep (pre ++ d :: rest) (pre.length + 1 + i) = word sep rest i := by
  unfold word
  rw [List.drop_append, List.drop_of_length_le (by omega), List.nil_append,
    show pre.length + 1 + i - pre.length = i + 1 by omega, List.drop_succ_cons]

theorem word_append_left (hd : sep d) {i : ℕ} (hi : i ≤ pre.length) :
    word sep (pre ++ d :: rest) i = word sep pre i := by
  unfold word
  rw [List.drop_append_of_le_length hi, List.takeWhile_append]
  split_ifs with hlen
  · rw [List.takeWhile_cons_of_neg (by simp [hd]), List.append_nil,
      (List.takeWhile_prefix _).eq_of_length hlen]
  · rfl

theorem words_append (hd : sep d) : words sep (pre ++ d :: rest) = words sep pre ++ words sep rest := by
  have hbefore : ∀ i ∈ starts sep pre, word sep (pre ++ d :: rest) i = word sep pre i := by
    intro i hi
    have hlt := List.mem_range.mp (List.mem_filter.mp hi).1
    exact word_append_left hd hlt.le
  unfold words
  rw [starts_append hd, List.map_append, List.map_map, List.map_congr_left hbefore]
  congr 1
  exact List.map_congr_left fun i _ => word_append i

/-- A list without separators is one word, or none. -/
theorem starts_of_none (h : ∀ a ∈ l, sep a = false) (hne : l ≠ []) : starts sep l = [0] := by
  cases l with
  | nil => exact absurd rfl hne
  | cons a l =>
      obtain ⟨ha, hl⟩ := List.forall_mem_cons.mp h
      have hlater : (List.range l.length).filter (startsAt sep (a :: l) ∘ Nat.succ) = [] := by
        refine List.filter_eq_nil_iff.mpr fun i hi => ?_
        rw [List.mem_range] at hi
        cases i with
        | zero => simp [startsAt, ha]
        | succ i =>
            have hsep := hl _ (List.getElem_mem (Nat.lt_of_succ_lt hi))
            simp [startsAt, Nat.lt_of_succ_lt hi, hsep]
      unfold starts
      rw [List.length_cons, List.range_succ_eq_map, List.filter_cons_of_pos (by simp [startsAt, ha]),
        List.filter_map, hlater, List.map_nil]

/-- A list is separators only, or its first word stands behind separators and goes up to a separator or
the end. -/
theorem exists_next (sep : α → Bool) (l : List α) : (∀ a ∈ l, sep a) ∨
    ∃ ds t rest, l = ds ++ (t ++ rest) ∧ (∀ a ∈ ds, sep a) ∧ t ≠ [] ∧ (∀ a ∈ t, sep a = false) ∧
      ∀ d r, rest = d :: r → sep d := by
  have hrest : l = l.takeWhile sep ++ l.dropWhile sep := List.takeWhile_append_dropWhile.symm
  cases hdrop : l.dropWhile sep with
  | nil =>
      rw [hdrop, List.append_nil] at hrest
      rw [hrest]
      exact .inl fun a ha => List.all_eq_true.mp List.all_takeWhile a ha
  | cons a l' =>
      have ha : sep a = false := by
        simpa [hdrop] using List.head?_dropWhile_not sep l
      refine .inr ⟨l.takeWhile sep, (a :: l').takeWhile fun b => !sep b, (a :: l').dropWhile fun b => !sep b,
        ?_, fun b hb => List.all_eq_true.mp List.all_takeWhile b hb, ?_, ?_, ?_⟩
      · rw [List.takeWhile_append_dropWhile, ← hdrop]
        exact hrest
      · simp [ha]
      · intro b hb
        simpa using List.all_eq_true.mp List.all_takeWhile b hb
      · intro d r hd
        have hhead := List.head?_dropWhile_not (fun b => !sep b) (a :: l')
        rw [hd] at hhead
        simpa using hhead

/-- The word behind `ds` that goes up to a separator or the end. -/
theorem word_next {ds t r : List α} (ht : ∀ a ∈ t, sep a = false) (hr : ∀ d r', r = d :: r' → sep d) :
    word sep (ds ++ (t ++ r)) ds.length = t := by
  have hall : ∀ a ∈ t, (!sep a) = true := by
    intro a ha
    rw [ht a ha]
    rfl
  unfold word
  rw [List.drop_left, List.takeWhile_append_of_pos hall]
  cases r with
  | nil => simp
  | cons d r => simp [hr d r rfl]

section
variable {ds t : List α} (hds : ∀ a ∈ ds, sep a) (ht : ∀ a ∈ t, sep a = false) (hne : t ≠ [])
include hds ht hne

theorem starts_last : starts sep (ds ++ t) = [ds.length] := by
  rcases List.eq_nil_or_concat ds with rfl | ⟨ds', d, rfl⟩
  · exact starts_of_none ht hne
  · have hd : sep d := hds d (by simp)
    have hds' : ∀ a ∈ ds', sep a := fun a ha => hds a (by simp [ha])
    rw [List.concat_append, starts_append hd, starts_of_all hds', starts_of_none ht hne]
    simp

theorem words_last : words sep (ds ++ t) = [t] := by
  unfold words
  rw [starts_last hds ht hne, List.map_singleton]
  have hword := @word_next _ sep ds t [] ht (by simp)
  rw [List.append_nil] at hword
  rw [hword]

theorem starts_next (hd : sep d) : starts sep (ds ++ (t ++ d :: rest)) =
    ds.length :: (starts sep rest).map (ds.length + t.length + 1 + ·) := by
  rw [← List.append_assoc, starts_append hd, starts_last hds ht hne, List.length_append]
  rfl

theorem words_next (hd : sep d) : words sep (ds ++ (t ++ d :: rest)) = t :: words sep rest := by
  rw [← List.append_assoc, words_append hd, words_last hds ht hne]
  rfl

end

theorem words_skip {ds : List α} (hds : ∀ a ∈ ds, sep a) (l : List α) : words sep (ds ++ l) = words sep l := by
  rcases List.eq_nil_or_concat ds with rfl | ⟨ds', d, rfl⟩
  · rfl
  · have hds' : ∀ a ∈ ds', sep a := fun a ha => hds a (by simp [ha])
    rw [List.concat_append, words_append (hds d (by simp)), words_of_all hds', List.nil_append]

theorem mem_of_mem_words {w : List α} {a : α} (hw : w ∈ words sep l) (ha : a ∈ w) : a ∈ l := by
  obtain ⟨i, _, rfl⟩ := List.mem_map.mp hw
  exact List.mem_of_mem_drop ((List.takeWhile_prefix _).subset ha)

/-! ### Joined words -/

/-- The words and one separator behind each are not longer than the list with one more separator. -/
theorem sum_words_le (sep : α → Bool) (l : List α) :
    ((words sep l).map fun w => w.length + 1).sum ≤ l.length + 1 := by
  induction hn : l.length using Nat.strong_induction_on generalizing l with
  | _ n ih =>
      rcases exists_next sep l with hall | ⟨ds, t, rest, rfl, hds, hne, ht, hr⟩
      · rw [words_of_all hall]
        simp
      · rw [List.length_append, List.length_append] at hn
        cases rest with
        | nil =>
            rw [List.append_nil, words_last hds ht hne]
            simp
            omega
        | cons d rest =>
            rw [List.length_cons] at hn
            have hrest := ih rest.length (by omega) rest rfl
            rw [words_next hds ht hne (hr d rest rfl), List.map_cons, List.sum_cons]
            omega

theorem length_intercalate_le (s : α) (ws : List (List α)) :
    (List.intercalate [s] ws).length ≤ (ws.map fun w => w.length + 1).sum := by
  induction ws with
  | nil => exact Nat.zero_le _
  | cons w ws ih =>
      rw [List.map_cons, List.sum_cons]
      cases ws with
      | nil =>
          rw [List.intercalate_singleton]
          omega
      | cons w' ws =>
          rw [List.intercalate_cons_cons, List.length_append, List.length_append, List.length_singleton]
          omega

end Words
