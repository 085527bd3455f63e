import LunaOs.Lib.Extents

/-! # Spans stacked on top of each other

A bump allocator places every span behind those it placed before.  `Stacked lo spans hi` says that the
spans, newest first, lie one above the other between `lo` and `hi`.  A new span goes on top; a scope
that ends takes off the newest ones, and what is left is stacked as it was. -/

namespace Extents

/-- The spans lie between `lo` and `hi`, the first one on top. -/
def Stacked (lo : ℕ) : List Span → ℕ → Prop
  | [], hi => lo ≤ hi
  | s :: spans, hi => s.start + s.len ≤ hi ∧ Stacked lo spans s.start

variable {lo hi hi' : ℕ} {spans : List Span}

theorem Stacked.mono (h : Stacked lo spans hi) (hle : hi ≤ hi') : Stacked lo spans hi' := by
  cases spans with
  | nil => exact Nat.le_trans h hle
  | cons s spans => exact ⟨Nat.le_trans h.1 hle, h.2⟩

theorem Stacked.push {s : Span} (h : Stacked lo spans hi) (hstart : hi ≤ s.start) (hend : s.start + s.len ≤ hi') :
    Stacked lo (s :: spans) hi' := ⟨hend, h.mono hstart⟩

theorem Stacked.le (h : Stacked lo spans hi) : lo ≤ hi := by
  induction spans generalizing hi with
  | nil => exact h
  | cons s spans ih =>
      have hstart := ih h.2
      have hend := h.1
      omega

theorem Stacked.within (h : Stacked lo spans hi) {s : Span} (hs : s ∈ spans) :
    lo ≤ s.start ∧ s.start + s.len ≤ hi := by
  induction spans generalizing hi with
  | nil => simp at hs
  | cons t spans ih =>
      rcases List.mem_cons.mp hs with rfl | hs
      · exact ⟨Stacked.le h.2, h.1⟩
      · obtain ⟨hlo, hhi⟩ := ih h.2 hs
        have hend := h.1
        exact ⟨hlo, by omega⟩

/-- **No two spans overlap.** -/
theorem Stacked.apart (h : Stacked lo spans hi) : spans.Pairwise Span.Apart := by
  induction spans generalizing hi with
  | nil => exact List.Pairwise.nil
  | cons s spans ih =>
      refine List.Pairwise.cons (fun t ht => ?_) (ih h.2)
      exact .inr (h.2.within ht).2

end Extents
