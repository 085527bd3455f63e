import Mathlib.Data.List.Basic
import Mathlib.Data.Nat.Notation

/-! # Texts made of pieces

Two renderings of the same pieces are concatenated to two texts.  If the texts are equal, are the
renderings of each piece?  Not in general: what one piece lacks the next may bring.  It is so if two
renderings of a piece that differ either clash, or are a single blank and several blanks
(`flatMap_eq_iff`): a blank that is missing is never made up for. -/

namespace Pieces

variable {α β : Type*}

/-- The lists differ at a place that both have. -/
def Clash (l c : List α) : Prop := ∃ p x y l' c', l = p ++ x :: l' ∧ c = p ++ y :: c' ∧ x ≠ y

theorem Clash.append_ne {l c : List α} (h : Clash l c) (s t : List α) : l ++ s ≠ c ++ t := by
  obtain ⟨p, x, y, l', c', rfl, rfl, hne⟩ := h
  intro heq
  rw [List.append_assoc, List.append_assoc, List.append_cancel_left_eq] at heq
  exact hne (List.cons.inj heq).1

theorem Clash.ne {l c : List α} (h : Clash l c) : l ≠ c := by
  have hne := h.append_ne [] []
  rwa [List.append_nil, List.append_nil] at hne

/-- How the two renderings of a piece may relate. -/
inductive Related (blank : α) (l c : List α) : Prop where
  | same (h : l = c)
  | clash (h : Clash l c) (hstart : l.head? ≠ some blank)
  | blanks (n : ℕ) (hl : l = [blank]) (hc : c = List.replicate (n + 2) blank)

theorem blanks_behind {blank : α} {k : ℕ} {l s t : List α}
    (h : l ++ s = List.replicate k blank ++ (l ++ t)) : s = List.replicate k blank ++ t := by
  induction l with
  | nil => exact h
  | cons a l ih =>
      cases k with
      | zero => simpa using h
      | succ k =>
          rw [List.replicate_succ, List.cons_append, List.cons_append] at h
          obtain ⟨rfl, hrest⟩ := List.cons.inj h
          apply ih
          rw [hrest, List.replicate_succ', List.append_assoc]
          rfl

theorem flatMap_blanks {blank : α} {f g : β → List α} {ps : List β}
    (hrelated : ∀ p ∈ ps, Related blank (f p) (g p)) {k : ℕ}
    (h : ps.flatMap f = List.replicate k blank ++ ps.flatMap g) : k = 0 ∧ ∀ p ∈ ps, f p = g p := by
  induction ps generalizing k with
  | nil =>
      refine ⟨?_, fun p hp => absurd hp List.not_mem_nil⟩
      simpa using h
  | cons p ps ih =>
      obtain ⟨hp, hrest⟩ := List.forall_mem_cons.mp hrelated
      rw [List.flatMap_cons, List.flatMap_cons] at h
      cases hp with
      | same heq =>
          rw [← heq] at h
          obtain ⟨hk, hall⟩ := ih hrest (blanks_behind h)
          exact ⟨hk, List.forall_mem_cons.mpr ⟨heq, hall⟩⟩
      | clash hclash hstart =>
          cases k with
          | zero => exact absurd h (hclash.append_ne _ _)
          | succ k =>
              -- the text begins with a blank, the piece with something else
              obtain ⟨q, x, y, l', c', hl, _, _⟩ := hclash
              rw [List.replicate_succ, List.cons_append] at h
              rw [hl] at h hstart
              cases q with
              | nil => exact absurd (congrArg some (List.cons.inj h).1) hstart
              | cons a q => exact absurd (congrArg some (List.cons.inj h).1) hstart
      | blanks n hl hc =>
          rw [hl, hc, ← List.append_assoc, ← List.replicate_add, Nat.add_succ, List.replicate_succ,
            List.singleton_append, List.cons_append] at h
          obtain ⟨hk, _⟩ := ih hrest (List.cons.inj h).2
          omega

/-- **Texts of pieces are equal** exactly if the pieces are. -/
theorem flatMap_eq_iff {blank : α} {f g : β → List α} {ps : List β}
    (hrelated : ∀ p ∈ ps, Related blank (f p) (g p)) :
    ps.flatMap f = ps.flatMap g ↔ ∀ p ∈ ps, f p = g p := by
  constructor
  · intro h
    have hnone : ps.flatMap f = List.replicate 0 blank ++ ps.flatMap g := h
    exact (flatMap_blanks hrelated hnone).2
  · exact fun h => List.flatMap_congr h

end Pieces
