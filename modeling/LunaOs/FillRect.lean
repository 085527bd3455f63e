import LunaOs.Framebuffer

/-! # Filling rectangles, `fb_fill_rect` of `drivers/gfx/framebuffer.c`

The loops end at `x + w` and `y + h` modulo `2^32`.  When such a sum wraps around it is below where its loop
starts, and nothing is painted, not even the part of the rectangle that is on the screen. -/

namespace LunaOs

namespace Framebuffer

/-- The pixels of the rectangle. -/
def InRect (x y w h : UInt32) (p : ℕ × ℕ) : Prop :=
  (x.toNat ≤ p.1 ∧ p.1 < x.toNat + w.toNat) ∧ y.toNat ≤ p.2 ∧ p.2 < y.toNat + h.toNat

instance (x y w h : UInt32) (p : ℕ × ℕ) : Decidable (InRect x y w h p) :=
  inferInstanceAs (Decidable ((_ ∧ _) ∧ _ ∧ _))

/-- The pixels of the rectangle get the colour, and nothing else changes. -/
structure FillsRect (f : Framebuffer) (x y w h color : UInt32) (m m' : Memory) : Prop where
  pixel : ∀ p, f.Visible p → f.screen m' p = if InRect x y w h p then color else f.screen m p
  frame : ∀ a, ¬ f.VisibleByte a → m'.bytes a = m.bytes a

/-- Rows of whole pixels that fit into the address space. -/
structure Rows (f : Framebuffer) : Prop where
  pitch_mod : f.pitch.toNat % 4 = 0
  pitch_le : 4 * f.width.toNat ≤ f.pitch.toNat
  size_lt : f.pitch.toNat * f.height.toNat < 2 ^ 32

section
variable {f : Framebuffer} {x y w h color : UInt32} {m : Memory}

theorem Rows.regular (hf : f.Rows) (hptr : f.ptr ≠ 0) (hwidth : f.width ≠ 0) : f.Regular := by
  have hpitch := hf.pitch_le
  have hlt := f.pitch.toNat_lt
  have hpos : 1 ≤ f.width.toNat := by
    rw [Nat.one_le_iff_ne_zero]
    exact fun hzero => hwidth (UInt32.toNat_inj.mp hzero)
  refine ⟨hptr, hf.pitch_mod, hpitch, by omega, ?_, hf.size_lt⟩
  by_contra hge
  have hsize := hf.size_lt
  have hmul := Nat.mul_le_mul (by omega : 4 ≤ f.pitch.toNat) (Nat.le_of_not_lt hge)
  omega

theorem fbFillRect_eq_self (hpixel : ∀ x y m, fbPutPixel f x y color m = m) : fbFillRect f x y w h color m = m := by
  unfold fbFillRect
  refine List.foldl_fixed' (fun j => ?_) _
  exact List.foldl_fixed' (fun i => hpixel _ _ m) _

theorem range_of_wraps {a b : UInt32} (hwraps : 2 ^ 32 ≤ a.toNat + b.toNat) :
    List.range ((a + b).toNat - a.toNat) = [] := by
  have ha := a.toNat_lt
  have hb := b.toNat_lt
  rw [List.range_eq_nil, UInt32.toNat_add]
  omega

theorem fbFillRect_of_wraps (hwraps : 2 ^ 32 ≤ x.toNat + w.toNat ∨ 2 ^ 32 ≤ y.toNat + h.toNat) :
    fbFillRect f x y w h color m = m := by
  unfold fbFillRect
  rcases hwraps with hx | hy
  · rw [range_of_wraps hx]
    exact List.foldl_fixed' (fun j => rfl) _
  · rw [range_of_wraps hy]
    rfl

theorem fillsRect_self : FillsRect f x y w h color m m ↔
    ∀ p, f.Visible p → InRect x y w h p → f.screen m p = color := by
  constructor
  · intro hfills p hp hin
    rw [hfills.pixel p hp, if_pos hin]
  · intro hsame
    refine ⟨fun p hp => ?_, fun a _ => rfl⟩
    split_ifs with hin
    · exact hsame p hp hin
    · rfl

/-- **Without wrap-around** the rectangle is painted. -/
theorem Regular.fillsRect (hf : f.Regular) (hx : x.toNat + w.toNat < 2 ^ 32) (hy : y.toNat + h.toNat < 2 ^ 32) :
    FillsRect f x y w h color m (fbFillRect f x y w h color m) := by
  have hpaints := hf.fillRect x y w h color m
  refine ⟨fun p hp => ?_, hpaints.frame⟩
  rw [hpaints.painted p hp, UInt32.toNat_add, UInt32.toNat_add, Nat.mod_eq_of_lt hx, Nat.mod_eq_of_lt hy]
  unfold Painter.onto
  dsimp only
  by_cases hin : InRect x y w h p
  · rw [if_pos hin, if_pos (show _ ∧ _ from hin)]
    rfl
  · rw [if_neg hin, if_neg (show ¬ (_ ∧ _) from hin)]
    rfl

/-- **`fb_fill_rect`** fills the rectangle exactly if its corner does not wrap around, or nothing was left to
do. -/
theorem fillRect_exact_iff (hf : f.Rows) (x y w h color : UInt32) (m : Memory) :
    FillsRect f x y w h color m (fbFillRect f x y w h color m) ↔
      (f.ptr ≠ 0 ∧ x.toNat + w.toNat < 2 ^ 32 ∧ y.toNat + h.toNat < 2 ^ 32) ∨
        ∀ p, f.Visible p → InRect x y w h p → f.screen m p = color := by
  by_cases hdraws : f.ptr ≠ 0 ∧ x.toNat + w.toNat < 2 ^ 32 ∧ y.toNat + h.toNat < 2 ^ 32
  · refine iff_of_true ?_ (.inl hdraws)
    obtain ⟨hptr, hx, hy⟩ := hdraws
    by_cases hwidth : f.width = 0
    · -- there are no pixels
      have hpixel : ∀ x y m, fbPutPixel f x y color m = m := by
        intro x y m
        refine if_pos (.inl ?_)
        rw [hwidth]
        exact UInt32.zero_le
      rw [fbFillRect_eq_self hpixel, fillsRect_self]
      intro p hp _
      have hcol := hp.1
      rw [hwidth] at hcol
      exact absurd hcol (Nat.not_lt_zero _)
    · exact (hf.regular hptr hwidth).fillsRect hx hy
  · have hself : fbFillRect f x y w h color m = m := by
      by_cases hptr : f.ptr = 0
      · exact fbFillRect_eq_self fun x y m => if_pos (.inr (.inr hptr))
      · refine fbFillRect_of_wraps ?_
        by_contra hwraps
        rw [not_or, Nat.not_le, Nat.not_le] at hwraps
        exact hdraws ⟨hptr, hwraps⟩
    rw [hself, fillsRect_self, or_iff_right hdraws]

end

/-- A screen of 1024 by 768 pixels. -/
def sample : Framebuffer := ⟨0xFD000000, 4096, 1024, 768⟩

/-- Memory of zeros, and a black screen in it. -/
def blank : Memory := ⟨fun _ => 0, []⟩

theorem rows_sample : sample.Rows := ⟨by decide, by decide, by decide⟩

/-- A rectangle over the lower right corner. -/
theorem fillRect_exact_sample :
    FillsRect sample 1000 760 100 100 1 blank (fbFillRect sample 1000 760 100 100 1 blank) :=
  (fillRect_exact_iff rows_sample 1000 760 100 100 1 blank).mpr (.inl ⟨by decide, by decide, by decide⟩)

/-- All columns but the first: nothing is painted. -/
theorem fillRect_wraps : ¬ FillsRect sample 1 0 0xFFFFFFFF 1 1 blank (fbFillRect sample 1 0 0xFFFFFFFF 1 1 blank) := by
  rw [fbFillRect_of_wraps (.inl (by decide)), fillsRect_self]
  intro hsame
  have hpixel := hsame (1, 0) ⟨by decide, by decide⟩ (by decide)
  exact absurd hpixel (by decide)

end Framebuffer

end LunaOs
