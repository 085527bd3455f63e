import LunaOs.Lib.Painter
import LunaOs.Memory
import Mathlib.Algebra.Group.Nat.Defs

/-! # The framebuffer of `drivers/gfx/framebuffer.c`

Pixels are words in rows of `pitch` bytes.  `fb_put_pixel` clips to the screen, so that drawing is
painting a layer on it: the words of the visible pixels are a canvas, and no other byte changes. -/

namespace LunaOs

open ByteMem Painter

/-- The static variables of `framebuffer.c`, as `fb_init` sets them. -/
structure Framebuffer where
  ptr : UInt32
  pitch : UInt32
  width : UInt32
  height : UInt32

/-- `*(uint32_t*)a = w` -/
def Memory.store32 (m : Memory) (a w : UInt32) : Memory :=
  ⟨ByteMem.store32 m.bytes a w, m.written ++ addrs a 4⟩

/-- A pixel outside the screen is left out. -/
def fbPutPixel (f : Framebuffer) (x y color : UInt32) (m : Memory) : Memory :=
  if f.width ≤ x ∨ f.height ≤ y ∨ f.ptr = 0 then m
  else
    let offset := y * f.pitch / 4 + x
    m.store32 (f.ptr + offset * 4) color

/-- The loops end at `x + w` and `y + h`, which may have wrapped around. -/
def fbFillRect (f : Framebuffer) (x y w h color : UInt32) (m : Memory) : Memory :=
  (List.range ((y + h).toNat - y.toNat)).foldl (fun m j =>
    (List.range ((x + w).toNat - x.toNat)).foldl (fun m i =>
      fbPutPixel f (x + UInt32.ofNat i) (y + UInt32.ofNat j) color m) m) m

def fbClear (f : Framebuffer) (color : UInt32) (m : Memory) : Memory :=
  fbFillRect f 0 0 f.width f.height color m

/-! ### The screen -/

namespace Framebuffer

/-- Rows do not overlap and do not wrap around. -/
structure Regular (f : Framebuffer) : Prop where
  ptr_ne : f.ptr ≠ 0
  pitch_mod : f.pitch.toNat % 4 = 0
  pitch_le : 4 * f.width.toNat ≤ f.pitch.toNat
  width_lt : f.width.toNat < 2 ^ 31
  height_lt : f.height.toNat < 2 ^ 31
  size_lt : f.pitch.toNat * f.height.toNat < 2 ^ 32

variable (f : Framebuffer)

/-- Column and row of a pixel on the screen. -/
def Visible (p : ℕ × ℕ) : Prop := p.1 < f.width.toNat ∧ p.2 < f.height.toNat

/-- The byte offset of a pixel. -/
def offset (p : ℕ × ℕ) : ℕ := p.2 * f.pitch.toNat + 4 * p.1

def pixelPtr (p : ℕ × ℕ) : UInt32 := f.ptr + UInt32.ofNat (f.offset p)

/-- A byte of a visible pixel. -/
def VisibleByte (a : UInt32) : Prop := ∃ p, f.Visible p ∧ a ∈ addrs (f.pixelPtr p) 4

/-- What the screen shows. -/
def screen (m : Memory) (p : ℕ × ℕ) : UInt32 := load32 m.bytes (f.pixelPtr p)

/-- Only bytes of visible pixels are written. -/
structure OnScreen (m m' : Memory) : Prop where
  written : ∃ l, m'.written = m.written ++ l ∧ ∀ a ∈ l, f.VisibleByte a
  frame : ∀ a, ¬ f.VisibleByte a → m'.bytes a = m.bytes a

/-- The layer `L` is painted on the screen. -/
structure Paints (m m' : Memory) (L : ℕ × ℕ → Option UInt32) : Prop extends OnScreen f m m' where
  painted : ∀ p, f.Visible p → f.screen m' p = onto L (f.screen m) p

variable {f} {m m' m'' : Memory} {L L' : ℕ × ℕ → Option UInt32} {p q : ℕ × ℕ}

theorem OnScreen.refl (f : Framebuffer) (m : Memory) : f.OnScreen m m :=
  ⟨⟨[], (List.append_nil _).symm, fun _ ha => absurd ha List.not_mem_nil⟩, fun _ _ => rfl⟩

theorem OnScreen.trans (h : f.OnScreen m m') (h' : f.OnScreen m' m'') : f.OnScreen m m'' := by
  obtain ⟨l, hl, hvisible⟩ := h.written
  obtain ⟨l', hl', hvisible'⟩ := h'.written
  refine ⟨⟨l ++ l', by rw [hl', hl, List.append_assoc], fun a ha => ?_⟩, fun a ha => ?_⟩
  · rcases List.mem_append.mp ha with ha | ha
    · exact hvisible a ha
    · exact hvisible' a ha
  · rw [h'.frame a ha, h.frame a ha]

theorem Paints.refl (f : Framebuffer) (m : Memory) : f.Paints m m fun _ => none :=
  ⟨.refl f m, fun _ _ => rfl⟩

theorem Paints.trans (h : f.Paints m m' L) (h' : f.Paints m' m'' L') :
    f.Paints m m'' (atop L' L) := by
  refine ⟨h.toOnScreen.trans h'.toOnScreen, fun p hp => ?_⟩
  rw [h'.painted p hp, atop_onto]
  unfold onto
  rw [h.painted p hp]
  rfl

theorem Paints.congr (h : f.Paints m m' L) (heq : ∀ p, f.Visible p → L' p = L p) :
    f.Paints m m' L' := by
  refine ⟨h.toOnScreen, fun p hp => ?_⟩
  rw [h.painted p hp]
  unfold onto
  rw [heq p hp]

/-- **A loop** whose turns each paint a layer paints the layers one over the other. -/
theorem Paints.foldl {ι : Type*} {l : List ι} {step : Memory → ι → Memory}
    {D : ι → ℕ × ℕ → Option UInt32} {m₀ : Memory} (hm : f.OnScreen m₀ m)
    (hstep : ∀ i ∈ l, ∀ m, f.OnScreen m₀ m → f.Paints m (step m i) (D i)) :
    f.Paints m (l.foldl step m) (stack (l.map D)) := by
  induction l generalizing m with
  | nil => exact .refl f m
  | cons i l ih =>
      obtain ⟨hfirst, hrest⟩ := List.forall_mem_cons.mp hstep
      have hturn := hfirst m hm
      exact hturn.trans (ih (hm.trans hturn.toOnScreen) hrest)

/-! ### Pixels -/

theorem Regular.offset_mod (h : f.Regular) (p : ℕ × ℕ) : f.offset p % 4 = 0 := by
  have hrow : p.2 * f.pitch.toNat % 4 = 0 := by
    rw [Nat.mul_mod, h.pitch_mod]
    rfl
  unfold offset
  omega

theorem Regular.offset_lt (h : f.Regular) (hp : f.Visible p) : f.offset p + 4 ≤ 2 ^ 32 := by
  have hpitch := h.pitch_le
  have hcol := hp.1
  calc f.offset p + 4
    _ ≤ p.2 * f.pitch.toNat + f.pitch.toNat := by
      unfold offset
      omega
    _ = (p.2 + 1) * f.pitch.toNat := (Nat.succ_mul _ _).symm
    _ ≤ f.height.toNat * f.pitch.toNat := Nat.mul_le_mul_right _ hp.2
    _ = f.pitch.toNat * f.height.toNat := Nat.mul_comm _ _
    _ ≤ 2 ^ 32 := h.size_lt.le

theorem Regular.offset_inj (h : f.Regular) (hp : f.Visible p) (hq : f.Visible q)
    (heq : f.offset p = f.offset q) : p = q := by
  have hpitch := h.pitch_le
  have hcol : ∀ r : ℕ × ℕ, f.Visible r →
      f.offset r / f.pitch.toNat = r.2 ∧ f.offset r % f.pitch.toNat = 4 * r.1 := by
    intro r hr
    have hlt : 4 * r.1 < f.pitch.toNat := by
      have hwidth := hr.1
      omega
    unfold offset
    rw [Nat.add_comm, Nat.add_mul_div_right _ _ (Nat.zero_lt_of_lt hlt), Nat.div_eq_of_lt hlt,
      Nat.add_mul_mod_self_right, Nat.mod_eq_of_lt hlt]
    exact ⟨Nat.zero_add _, rfl⟩
  obtain ⟨h1, h2⟩ := hcol p hp
  obtain ⟨h3, h4⟩ := hcol q hq
  rw [heq] at h1 h2
  exact Prod.ext (by omega) (by omega)

theorem Regular.pixel_apart (h : f.Regular) (hp : f.Visible p) (hq : f.Visible q) (hne : q ≠ p) {j : ℕ}
    (hj : j < 4) : ¬ f.pixelPtr q + UInt32.ofNat j - f.pixelPtr p < 4 := by
  have hfour : (4 : UInt32).toNat = 4 := rfl
  have hbase := f.ptr.toNat_lt
  have h1 := h.offset_mod p
  have h2 := h.offset_mod q
  have h3 := h.offset_lt hp
  have h4 := h.offset_lt hq
  have h5 : f.offset p ≠ f.offset q := fun heq => hne (h.offset_inj hp hq heq).symm
  unfold pixelPtr
  rw [UInt32.lt_iff_toNat_lt, UInt32.toNat_sub, UInt32.toNat_add, UInt32.toNat_add,
    UInt32.toNat_add, UInt32.toNat_ofNat', UInt32.toNat_ofNat', UInt32.toNat_ofNat', hfour]
  omega

/-- The pointer as `fb_put_pixel` computes it. -/
theorem Regular.pixelPtr_eq (h : f.Regular) {x y : UInt32} (hp : f.Visible (x.toNat, y.toNat)) :
    f.ptr + (y * f.pitch / 4 + x) * 4 = f.pixelPtr (x.toNat, y.toNat) := by
  have hlt := h.offset_lt hp
  have hmod := h.offset_mod (x.toNat, y.toNat)
  have hfour : (4 : UInt32).toNat = 4 := rfl
  unfold pixelPtr
  unfold offset at hlt hmod ⊢
  dsimp only at hlt hmod ⊢
  congr 1
  rw [← UInt32.toNat_inj, UInt32.toNat_mul, UInt32.toNat_add, UInt32.toNat_div, UInt32.toNat_mul,
    UInt32.toNat_ofNat', hfour]
  generalize y.toNat * f.pitch.toNat = r at hlt hmod
  omega

/-- A layer of a single pixel. -/
def dot (x y color : UInt32) : ℕ × ℕ → Option UInt32 :=
  fun p => if p = (x.toNat, y.toNat) then some color else none

theorem dot_eq_some {x y color v : UInt32} :
    dot x y color p = some v ↔ p = (x.toNat, y.toNat) ∧ color = v := by
  unfold dot
  by_cases heq : p = (x.toNat, y.toNat)
  · rw [if_pos heq]
    exact ⟨fun hv => ⟨heq, Option.some.inj hv⟩, fun hv => congrArg some hv.2⟩
  · rw [if_neg heq]
    exact iff_of_false (Option.some_ne_none v).symm fun hv => heq hv.1

theorem Regular.putPixel (h : f.Regular) (x y color : UInt32) (m : Memory) :
    f.Paints m (fbPutPixel f x y color m) (dot x y color) := by
  unfold fbPutPixel
  split_ifs with hclip
  · -- nothing is written, and the pixel is not on the screen
    refine (Paints.refl f m).congr fun p hp => if_neg ?_
    rintro rfl
    rw [UInt32.le_iff_toNat_le, UInt32.le_iff_toNat_le] at hclip
    have hcol : x.toNat < f.width.toNat := hp.1
    have hrow : y.toNat < f.height.toNat := hp.2
    rcases hclip with hx | hy | hptr
    · omega
    · omega
    · exact h.ptr_ne hptr
  · rw [not_or, not_or, UInt32.not_le, UInt32.not_le] at hclip
    have hp : f.Visible (x.toNat, y.toNat) :=
      ⟨UInt32.lt_iff_toNat_lt.mp hclip.1, UInt32.lt_iff_toNat_lt.mp hclip.2.1⟩
    dsimp only
    rw [h.pixelPtr_eq hp]
    refine ⟨⟨⟨_, rfl, fun a ha => ⟨_, hp, ha⟩⟩, fun a ha => if_neg fun hin => ha ⟨_, hp, ?_⟩⟩, ?_⟩
    · refine mem_addrs.mpr ⟨(a - f.pixelPtr (x.toNat, y.toNat)).toNat,
        UInt32.lt_iff_toNat_lt.mp hin, ?_⟩
      rw [UInt32.ofNat_toNat, UInt32.add_comm, UInt32.sub_add_cancel]
    · intro q hq
      unfold onto dot screen Memory.store32
      dsimp only
      split_ifs with heq
      · rw [heq]
        exact load32_store32 m.bytes _ color
      · exact load32_congr fun j hj => if_neg (h.pixel_apart hp hq heq hj)

/-- **`fb_fill_rect`** paints the pixels from `x` to `x + w` and `y` to `y + h`. -/
theorem Regular.fillRect (h : f.Regular) (x y w d color : UInt32) (m : Memory) :
    f.Paints m (fbFillRect f x y w d color m) fun p =>
      if (x.toNat ≤ p.1 ∧ p.1 < (x + w).toNat) ∧ y.toNat ≤ p.2 ∧ p.2 < (y + d).toNat then some color
      else none := by
  have hpixel : ∀ a b : UInt32, ∀ k < b.toNat - a.toNat, (a + UInt32.ofNat k).toNat = a.toNat + k := by
    intro a b k hk
    have hb := b.toNat_lt
    exact toNat_add_of_lt (by omega)
  have hgrid := Paints.foldl (OnScreen.refl f m)
    (l := List.range ((y + d).toNat - y.toNat))
    fun j _ m₁ _ => Paints.foldl (OnScreen.refl f m₁) (l := List.range ((x + w).toNat - x.toNat))
      fun i _ m₂ _ => h.putPixel (x + UInt32.ofNat i) (y + UInt32.ofNat j) color m₂
  refine hgrid.congr fun p hp => ?_
  refine Option.ext fun v => ?_
  rw [grid_eq_some fun j _ i _ j' _ i' _ v v' hv hv' => (dot_eq_some.mp hv).2.symm.trans (dot_eq_some.mp hv').2]
  constructor
  · intro hv
    split_ifs at hv with hin
    obtain ⟨⟨hx, hx'⟩, hy, hy'⟩ := hin
    refine ⟨p.2 - y.toNat, List.mem_range.mpr (by omega), p.1 - x.toNat, List.mem_range.mpr (by omega),
      dot_eq_some.mpr ⟨Prod.ext ?_ ?_, Option.some.inj hv⟩⟩
    · rw [hpixel x (x + w) _ (by omega)]
      exact (Nat.add_sub_of_le hx).symm
    · rw [hpixel y (y + d) _ (by omega)]
      exact (Nat.add_sub_of_le hy).symm
  · rintro ⟨j, hj, i, hi, hv⟩
    obtain ⟨rfl, rfl⟩ := dot_eq_some.mp hv
    rw [List.mem_range] at hj hi
    refine if_pos ?_
    rw [hpixel x (x + w) i hi, hpixel y (y + d) j hj]
    omega

/-- **`fb_clear`** paints the whole screen. -/
theorem Regular.clear (h : f.Regular) (color : UInt32) (m : Memory) :
    f.Paints m (fbClear f color m) fun _ => some color := by
  refine (h.fillRect 0 0 f.width f.height color m).congr fun p hp => (if_pos ?_).symm
  have hzero : (0 : UInt32).toNat = 0 := rfl
  rw [UInt32.zero_add, UInt32.zero_add, hzero]
  exact ⟨⟨Nat.zero_le _, hp.1⟩, Nat.zero_le _, hp.2⟩

end Framebuffer

end LunaOs
