import LunaOs.Compositor
import LunaOs.Font
import LunaOs.Lib.Runs

/-! # What is drawn on the screen

The calls that draw are loops over `fb_put_pixel`: `font_draw_string` of `drivers/gfx/font.c`,
`luna_lvgl_flush` of `drivers/gfx/lvgl_bridge.c`, the rectangles of `framebuffer.c` and the compositor.
Each of them paints one layer on the screen, made from the bytes of memory that are not on it: glyphs, the
buffer of the graphics library, surfaces.

A picture is a canvas and these bytes.  The framebuffer refines it: in a run of drawing calls and of stores
of programs to their own memory the screen shows the canvas, and no byte but those of visible pixels is
changed by drawing (`drawing_refines`).

`lv_display_flush_ready` is code of the graphics library and is left out. -/

namespace LunaOs

open ByteMem Painter Framebuffer

/-! ### The flush of the graphics library -/

/-- `for (int32_t i = a; i <= b; i++)`, where the increment of the greatest integer is undefined. -/
def forUpTo {S : Type} (a b : Int32) (body : Int32 → S → Option S) (s : S) : Option S :=
  if a ≤ b ∧ b = Int32.maxValue then none
  else (List.range (b.toInt + 1 - a.toInt).toNat).foldlM (fun s k => body (a + Int32.ofNat k) s) s

/-- `fb_put_pixel(x, y, *color_p++)` -/
def flushPixel (f : Framebuffer) (x y : Int32) (s : UInt32 × Memory) : UInt32 × Memory :=
  (s.1 + 4, fbPutPixel f x.toUInt32 y.toUInt32 (load32 s.2.bytes s.1) s.2)

/-- `luna_lvgl_flush`, as far as it draws. -/
def lunaLvglFlush (f : Framebuffer) (x1 y1 x2 y2 : Int32) (colorP : UInt32) (m : Memory) : Option Memory :=
  (forUpTo y1 y2 (fun y => forUpTo x1 x2 fun x s => some (flushPixel f x y s)) (colorP, m)).map Prod.snd

/-- How many pixels a row of the area has, and how many rows there are. -/
def spanOf (a b : Int32) : ℕ := (b.toInt + 1 - a.toInt).toNat

/-- The layer of a flush: the buffer holds the rows of the area one behind the other. -/
def flushLayer (x1 y1 x2 y2 : Int32) (colorP : UInt32) (src : UInt32 → UInt8) : ℕ × ℕ → Option UInt32 :=
  fun p =>
    if (x1.toInt ≤ p.1 ∧ (p.1 : ℤ) ≤ x2.toInt) ∧ y1.toInt ≤ p.2 ∧ (p.2 : ℤ) ≤ y2.toInt then
      some (load32 src (colorP + UInt32.ofNat
        (4 * ((p.2 - y1.toInt).toNat * spanOf x1 x2 + (p.1 - x1.toInt).toNat))))
    else none

/-- The loops of a flush end before the greatest integer. -/
def FlushEnds (x1 y1 x2 y2 : Int32) : Prop :=
  (y1 ≤ y2 → y2 ≠ Int32.maxValue) ∧ (x1 ≤ x2 → x2 ≠ Int32.maxValue)

/-- The buffer of a flush is not on the screen. -/
def BufferApart (f : Framebuffer) (x1 y1 x2 y2 : Int32) (colorP : UInt32) : Prop :=
  ∀ k < 4 * (spanOf y1 y2 * spanOf x1 x2), ¬ f.VisibleByte (colorP + UInt32.ofNat k)

section
variable {S : Type} {f : Framebuffer} {m m₀ : Memory} {x1 y1 x2 y2 : Int32} {colorP : UInt32}

theorem forUpTo_some {a b : Int32} (h : a ≤ b → b ≠ Int32.maxValue) (body : Int32 → S → S) (s : S) :
    forUpTo a b (fun i s => some (body i s)) s =
      some ((List.range (spanOf a b)).foldl (fun s k => body (a + Int32.ofNat k) s) s) := by
  unfold forUpTo spanOf
  rw [if_neg fun hmax => h hmax.1 hmax.2]
  exact List.foldlM_pure

/-- A loop that steps through a buffer reads it at the number of the turn. -/
theorem foldl_advance (g : ℕ → UInt32 → Memory → Memory) (stride : ℕ) (n : ℕ) (q : UInt32) (m : Memory) :
    (List.range n).foldl (fun s k => (s.1 + UInt32.ofNat stride, g k s.1 s.2)) (q, m) =
      (q + UInt32.ofNat (n * stride),
        (List.range n).foldl (fun m k => g k (q + UInt32.ofNat (k * stride)) m) m) := by
  induction n with
  | zero =>
      rw [Nat.zero_mul]
      exact Prod.ext (UInt32.add_zero q).symm rfl
  | succ n ih =>
      rw [List.range_succ, List.foldl_append, List.foldl_append, ih]
      refine Prod.ext ?_ rfl
      show q + UInt32.ofNat (n * stride) + UInt32.ofNat stride = q + UInt32.ofNat ((n + 1) * stride)
      rw [Nat.succ_mul, add_ofNat_add]

theorem lunaLvglFlush_eq (f : Framebuffer) (h : FlushEnds x1 y1 x2 y2) (colorP : UInt32) (m : Memory) :
    lunaLvglFlush f x1 y1 x2 y2 colorP m = some
      ((List.range (spanOf y1 y2)).foldl (fun m j => (List.range (spanOf x1 x2)).foldl (fun m i =>
        fbPutPixel f (x1 + Int32.ofNat i).toUInt32 (y1 + Int32.ofNat j).toUInt32
          (load32 m.bytes (colorP + UInt32.ofNat (j * (spanOf x1 x2 * 4)) + UInt32.ofNat (i * 4))) m) m) m) := by
  have hrow : ∀ y : Int32, (forUpTo x1 x2 fun x s => some (flushPixel f x y s)) = fun s =>
      some (s.1 + UInt32.ofNat (spanOf x1 x2 * 4), (List.range (spanOf x1 x2)).foldl (fun m i =>
        fbPutPixel f (x1 + Int32.ofNat i).toUInt32 y.toUInt32
          (load32 m.bytes (s.1 + UInt32.ofNat (i * 4))) m) s.2) := by
    intro y
    funext s
    rw [forUpTo_some h.2 (fun x s => flushPixel f x y s)]
    exact congrArg some (foldl_advance (fun i q m => fbPutPixel f (x1 + Int32.ofNat i).toUInt32 y.toUInt32
      (load32 m.bytes q) m) 4 _ s.1 s.2)
  unfold lunaLvglFlush
  rw [funext hrow]
  rw [forUpTo_some h.1 fun y s => (s.1 + UInt32.ofNat (spanOf x1 x2 * 4),
    (List.range (spanOf x1 x2)).foldl (fun m i => fbPutPixel f (x1 + Int32.ofNat i).toUInt32 y.toUInt32
      (load32 m.bytes (s.1 + UInt32.ofNat (i * 4))) m) s.2),
    foldl_advance (fun j q m => (List.range (spanOf x1 x2)).foldl (fun m i =>
      fbPutPixel f (x1 + Int32.ofNat i).toUInt32 (y1 + Int32.ofNat j).toUInt32
        (load32 m.bytes (q + UInt32.ofNat (i * 4))) m) m)]
  rfl

theorem flush_coord_iff (x : Int32) {a i : ℕ} (ha : a < 2 ^ 31) (hi : x.toInt + i < 2 ^ 31) :
    a = (x + Int32.ofNat i).toUInt32.toNat ↔ (a : ℤ) = x.toInt + i := by
  have hlt := x.toUInt32.toNat_lt
  have hint : x.toInt = if 2 * x.toUInt32.toNat < 2 ^ 32 then (x.toUInt32.toNat : ℤ)
      else (x.toUInt32.toNat : ℤ) - 2 ^ 32 := BitVec.toInt_eq_toNat_cond x.toBitVec
  have hsum : (x + Int32.ofNat i).toUInt32 = x.toUInt32 + UInt32.ofNat i := rfl
  rw [hsum, hint, UInt32.toNat_add, UInt32.toNat_ofNat']
  rw [hint] at hi
  split_ifs at hi ⊢
  · omega
  · omega

theorem lt_spanOf {a b : Int32} {i : ℕ} : i < spanOf a b ↔ a.toInt + i ≤ b.toInt := by
  unfold spanOf
  omega

/-- **`luna_lvgl_flush`** paints the buffer on the area, as far as it is on the screen. -/
theorem lunaLvglFlush_paints (hf : f.Regular) (h : FlushEnds x1 y1 x2 y2)
    (hbuf : BufferApart f x1 y1 x2 y2 colorP) (hm : f.OnScreen m₀ m) :
    ∃ m', lunaLvglFlush f x1 y1 x2 y2 colorP m = some m' ∧
      f.Paints m m' (flushLayer x1 y1 x2 y2 colorP m₀.bytes) := by
  refine ⟨_, lunaLvglFlush_eq f h colorP m, ?_⟩
  -- what is read of the buffer is what was there before
  have hread : ∀ j < spanOf y1 y2, ∀ i < spanOf x1 x2, ∀ m', f.OnScreen m₀ m' →
      load32 m'.bytes (colorP + UInt32.ofNat (j * (spanOf x1 x2 * 4)) + UInt32.ofNat (i * 4)) =
        load32 m₀.bytes (colorP + UInt32.ofNat (4 * (j * spanOf x1 x2 + i))) := by
    intro j hj i hi m' hm'
    have hindex : j * spanOf x1 x2 + i < spanOf y1 y2 * spanOf x1 x2 := by
      have hmul := Nat.mul_le_mul_right (spanOf x1 x2) (Nat.succ_le_iff.mpr hj)
      rw [Nat.succ_mul] at hmul
      omega
    have hbytes : j * (spanOf x1 x2 * 4) + i * 4 = 4 * (j * spanOf x1 x2 + i) := by ring
    rw [← add_ofNat_add, hbytes]
    refine load32_congr fun k hk => hm'.frame _ ?_
    rw [← add_ofNat_add]
    exact hbuf _ (by omega)
  have hgrid := Paints.foldl hm (l := List.range (spanOf y1 y2))
    (D := fun j => stack ((List.range (spanOf x1 x2)).map fun i =>
      dot (x1 + Int32.ofNat i).toUInt32 (y1 + Int32.ofNat j).toUInt32
        (load32 m₀.bytes (colorP + UInt32.ofNat (4 * (j * spanOf x1 x2 + i))))))
    fun j hj m₁ h₁ => Paints.foldl h₁ (l := List.range (spanOf x1 x2)) fun i hi m₂ h₂ => by
      rw [← hread j (List.mem_range.mp hj) i (List.mem_range.mp hi) m₂ h₂]
      exact hf.putPixel (x1 + Int32.ofNat i).toUInt32 (y1 + Int32.ofNat j).toUInt32 _ m₂
  refine hgrid.congr fun p hp => Option.ext fun v => ?_
  have hcol := Nat.lt_trans hp.1 hf.width_lt
  have hrow := Nat.lt_trans hp.2 hf.height_lt
  have hx2 := x2.toInt_lt
  have hy2 := y2.toInt_lt
  -- which pixel of the area a pixel of the screen is
  have hdot : ∀ j < spanOf y1 y2, ∀ i < spanOf x1 x2, ∀ c v,
      dot (x1 + Int32.ofNat i).toUInt32 (y1 + Int32.ofNat j).toUInt32 c p = some v ↔
        ((p.1 : ℤ) = x1.toInt + i ∧ (p.2 : ℤ) = y1.toInt + j) ∧ c = v := by
    intro j hj i hi c v
    rw [lt_spanOf] at hj hi
    rw [dot_eq_some, Prod.ext_iff, flush_coord_iff x1 hcol (by omega), flush_coord_iff y1 hrow (by omega)]
  rw [grid_eq_some]
  · unfold flushLayer
    constructor
    · intro hv
      split_ifs at hv with hin
      have hj : (p.2 - y1.toInt).toNat < spanOf y1 y2 := lt_spanOf.mpr (by omega)
      have hi : (p.1 - x1.toInt).toNat < spanOf x1 x2 := lt_spanOf.mpr (by omega)
      exact ⟨_, List.mem_range.mpr hj, _, List.mem_range.mpr hi,
        (hdot _ hj _ hi _ _).mpr ⟨by omega, Option.some.inj hv⟩⟩
    · rintro ⟨j, hj, i, hi, hv⟩
      rw [List.mem_range] at hj hi
      obtain ⟨⟨hx, hy⟩, rfl⟩ := (hdot j hj i hi _ _).mp hv
      rw [lt_spanOf] at hj hi
      rw [if_pos (by omega), hx, hy, add_sub_cancel_left, add_sub_cancel_left]
      rfl
  · -- a point of the screen is one pixel of the area
    intro j hj i hi j' hj' i' hi' v v' hv hv'
    rw [List.mem_range] at hj hi hj' hi'
    obtain ⟨⟨hx, hy⟩, rfl⟩ := (hdot j hj i hi _ _).mp hv
    obtain ⟨⟨hx', hy'⟩, rfl⟩ := (hdot j' hj' i' hi' _ _).mp hv'
    obtain rfl : i = i' := by omega
    obtain rfl : j = j' := by omega
    rfl

end

/-! ### Text -/

namespace Font

/-- The bit of a glyph for a pixel. -/
def bit (font : Font) (src : UInt32 → UInt8) (c : UInt8) (cy cx : ℕ) : UInt8 :=
  (src (font.glyph c + (UInt32.ofNat cy * font.pitch + UInt32.ofNat cx / 8)) >>>
    (7 - UInt32.ofNat cx % 8).toUInt8) &&& 1

/-- The colour a pixel of a glyph gets; a black background is transparent. -/
def ink (font : Font) (src : UInt32 → UInt8) (c : UInt8) (fg bg : UInt32) (cy cx : ℕ) : Option UInt32 :=
  if font.bit src c cy cx ≠ 0 then some fg else if bg ≠ 0 then some bg else none

/-- The layer of a line of text: cells of the width of the font, side by side from `(x, y)` on, modulo
`2 ^ 32`. -/
def textLayer (font : Font) (src : UInt32 → UInt8) (x y : UInt32) (str : List UInt8) (fg bg : UInt32) :
    ℕ × ℕ → Option UInt32 := fun p =>
  let dx := (UInt32.ofNat p.1 - x).toNat
  let dy := (UInt32.ofNat p.2 - y).toNat
  if dx < str.length * font.hdr.width.toNat ∧ dy < font.hdr.height.toNat then
    (str[dx / font.hdr.width.toNat]?).bind fun c => font.ink src c fg bg dy (dx % font.hdr.width.toNat)
  else none

/-- The glyphs of a string are not on the screen. -/
def GlyphsApart (f : Framebuffer) (font : Font) (str : List UInt8) : Prop :=
  ∀ c ∈ str, ∀ a ∈ font.glyphReads c, ¬ f.VisibleByte a

section
variable {f : Framebuffer} {font : Font} {m m₀ : Memory} {c : UInt8}

theorem mem_glyphReads_of_lt {cy cx : ℕ} (hcy : cy < font.hdr.height.toNat) (hcx : cx < font.hdr.width.toNat) :
    font.glyph c + (UInt32.ofNat cy * font.pitch + UInt32.ofNat cx / 8) ∈ font.glyphReads c :=
  List.mem_flatMap.mpr ⟨cy, List.mem_range.mpr hcy, List.mem_flatMap.mpr
    ⟨cx, List.mem_range.mpr hcx, List.mem_singleton.mpr rfl⟩⟩

theorem drawPixel_paints (hf : f.Regular) (x y fg bg : UInt32) {cy cx : ℕ} {d : Drawing}
    (hd : f.OnScreen m₀ d.mem)
    (hglyph : ¬ f.VisibleByte (font.glyph c + (UInt32.ofNat cy * font.pitch + UInt32.ofNat cx / 8))) :
    f.Paints d.mem (font.drawPixel f x y c fg bg (UInt32.ofNat cy) (UInt32.ofNat cx) d).mem fun p =>
      if p = ((x + UInt32.ofNat cx).toNat, (y + UInt32.ofNat cy).toNat) then font.ink m₀.bytes c fg bg cy cx
      else none := by
  have hput := hf.putPixel (x + UInt32.ofNat cx) (y + UInt32.ofNat cy)
  unfold drawPixel ink bit
  dsimp only
  rw [hd.frame _ hglyph]
  split_ifs
  · exact hput fg d.mem
  · exact hput bg d.mem
  · exact (Paints.refl f d.mem).congr fun p _ => ite_self none

theorem fontDrawChar_mem (f : Framebuffer) (font : Font) (x y : UInt32) (c : UInt8) (fg bg : UInt32)
    (d : Drawing) : (fontDrawChar f (some font) x y c fg bg d).mem =
      (List.range font.hdr.height.toNat).foldl (fun m cy => (List.range font.hdr.width.toNat).foldl (fun m cx =>
        (font.drawPixel f x y c fg bg (UInt32.ofNat cy) (UInt32.ofNat cx) ⟨m, []⟩).mem) m) d.mem := by
  unfold fontDrawChar
  symm
  apply List.foldl_hom Drawing.mem
  intro d cy
  apply List.foldl_hom Drawing.mem
  exact fun _ _ => rfl

theorem offset_iff (x : UInt32) {a k : ℕ} (ha : a < 2 ^ 32) (hk : k < 2 ^ 32) :
    a = (x + UInt32.ofNat k).toNat ↔ (UInt32.ofNat a - x).toNat = k := by
  have hx := x.toNat_lt
  rw [UInt32.toNat_add, UInt32.toNat_sub, UInt32.toNat_ofNat', UInt32.toNat_ofNat']
  omega

/-- **A character** paints its glyph. -/
theorem fontDrawChar_paints (hf : f.Regular) (x y fg bg : UInt32) {d : Drawing} (hd : f.OnScreen m₀ d.mem)
    (hglyph : ∀ a ∈ font.glyphReads c, ¬ f.VisibleByte a) :
    f.Paints d.mem (fontDrawChar f (some font) x y c fg bg d).mem
      (font.textLayer m₀.bytes x y [c] fg bg) := by
  rw [fontDrawChar_mem]
  have hgrid := Paints.foldl hd (l := List.range font.hdr.height.toNat)
    (D := fun cy => stack ((List.range font.hdr.width.toNat).map fun cx p =>
      if p = ((x + UInt32.ofNat cx).toNat, (y + UInt32.ofNat cy).toNat) then font.ink m₀.bytes c fg bg cy cx
      else none))
    fun cy hcy m₁ h₁ => Paints.foldl h₁ fun cx hcx m₂ h₂ =>
      drawPixel_paints hf x y fg bg (d := ⟨m₂, []⟩) h₂
        (hglyph _ (mem_glyphReads_of_lt (List.mem_range.mp hcy) (List.mem_range.mp hcx)))
  refine hgrid.congr fun p hp => Option.ext fun v => ?_
  have hcol : p.1 < 2 ^ 32 := Nat.lt_trans hp.1 f.width.toNat_lt
  have hrow : p.2 < 2 ^ 32 := Nat.lt_trans hp.2 f.height.toNat_lt
  have hcell : ∀ cy < font.hdr.height.toNat, ∀ cx < font.hdr.width.toNat, ∀ v,
      (if p = ((x + UInt32.ofNat cx).toNat, (y + UInt32.ofNat cy).toNat) then font.ink m₀.bytes c fg bg cy cx
        else none) = some v ↔
      ((UInt32.ofNat p.1 - x).toNat = cx ∧ (UInt32.ofNat p.2 - y).toNat = cy) ∧
        font.ink m₀.bytes c fg bg cy cx = some v := by
    intro cy hcy cx hcx v
    rw [← offset_iff x hcol (Nat.lt_trans hcx font.hdr.width.toNat_lt),
      ← offset_iff y hrow (Nat.lt_trans hcy font.hdr.height.toNat_lt), ← Prod.ext_iff (x := p) (y := (_, _))]
    by_cases hcell : p = ((x + UInt32.ofNat cx).toNat, (y + UInt32.ofNat cy).toNat)
    · rw [if_pos hcell, and_iff_right hcell]
    · rw [if_neg hcell]
      exact iff_of_false (Option.some_ne_none v).symm fun h => hcell h.1
  rw [grid_eq_some]
  · unfold textLayer
    dsimp only
    rw [List.length_singleton, Nat.one_mul]
    constructor
    · intro hv
      split_ifs at hv with hin
      rw [Nat.div_eq_of_lt hin.1, Nat.mod_eq_of_lt hin.1] at hv
      exact ⟨_, List.mem_range.mpr hin.2, _, List.mem_range.mpr hin.1, (hcell _ hin.2 _ hin.1 v).mpr ⟨⟨rfl, rfl⟩, hv⟩⟩
    · rintro ⟨cy, hcy, cx, hcx, hv⟩
      rw [List.mem_range] at hcy hcx
      obtain ⟨⟨rfl, rfl⟩, hink⟩ := (hcell cy hcy cx hcx v).mp hv
      rw [if_pos ⟨hcx, hcy⟩, Nat.div_eq_of_lt hcx, Nat.mod_eq_of_lt hcx]
      exact hink
  · intro cy hcy cx hcx cy' hcy' cx' hcx' v v' hv hv'
    rw [List.mem_range] at hcy hcx hcy' hcx'
    obtain ⟨⟨rfl, rfl⟩, hink⟩ := (hcell cy hcy cx hcx v).mp hv
    obtain ⟨⟨rfl, rfl⟩, hink'⟩ := (hcell cy' hcy' cx' hcx' v').mp hv'
    exact Option.some.inj (hink.symm.trans hink')

theorem textLayer_cons (font : Font) (src : UInt32 → UInt8) (x y : UInt32) (c : UInt8) (str : List UInt8)
    (fg bg : UInt32) (p : ℕ × ℕ) (hfit : (str.length + 1) * font.hdr.width.toNat ≤ 2 ^ 32) :
    font.textLayer src x y (c :: str) fg bg p =
      atop (font.textLayer src (x + font.hdr.width) y str fg bg) (font.textLayer src x y [c] fg bg) p := by
  have hw := font.hdr.width.toNat_lt
  have hx := (UInt32.ofNat p.1 - x).toNat_lt
  have hnext : (UInt32.ofNat p.1 - (x + font.hdr.width)).toNat =
      (2 ^ 32 - font.hdr.width.toNat + (UInt32.ofNat p.1 - x).toNat) % 2 ^ 32 := by
    rw [← UInt32.toNat_sub]
    congr 1
    grind
  unfold atop textLayer
  dsimp only
  rw [hnext, List.length_cons, List.length_singleton, Nat.one_mul]
  rw [Nat.succ_mul] at hfit ⊢
  generalize (UInt32.ofNat p.1 - x).toNat = dx at hx ⊢
  generalize (UInt32.ofNat p.2 - y).toNat = dy
  generalize font.hdr.width.toNat = w at hw hfit ⊢
  by_cases hdy : dy < font.hdr.height.toNat
  · rcases Nat.lt_or_ge dx w with hfirst | hrest
    · -- the other cells are further to the right
      have hout : ¬ (2 ^ 32 - w + dx) % 2 ^ 32 < str.length * w := by
        rw [Nat.mod_eq_of_lt (by omega)]
        omega
      rw [if_pos ⟨by omega, hdy⟩, if_neg fun h => hout h.1, if_pos ⟨hfirst, hdy⟩, Nat.div_eq_of_lt hfirst]
      rfl
    · have hshift : (2 ^ 32 - w + dx) % 2 ^ 32 = dx - w := by
        rw [show 2 ^ 32 - w + dx = dx - w + 2 ^ 32 by omega, Nat.add_mod_right, Nat.mod_eq_of_lt (by omega)]
      rw [hshift, if_neg (fun h => absurd h.1 (by omega) : ¬ (dx < w ∧ _)), Option.or_none]
      by_cases hin : dx < str.length * w + w
      · have hpos : 0 < w := Nat.pos_of_ne_zero (by
          rintro rfl
          omega)
        rw [if_pos ⟨hin, hdy⟩, if_pos ⟨by omega, hdy⟩, Nat.div_eq_sub_div hpos hrest, List.getElem?_cons_succ,
          Nat.mod_eq_sub_mod hrest]
      · rw [if_neg fun h => hin h.1, if_neg fun h => hin (by omega)]
  · rw [if_neg fun h => hdy h.2, if_neg fun h => hdy h.2, if_neg fun h => hdy h.2]
    rfl

/-- **`font_draw_string`** paints the line of text, if the cells do not come round to the first of them. -/
theorem drawStringLoop_paints (hf : f.Regular) (y fg bg : UInt32) {str : List UInt8} {x : UInt32} {d : Drawing}
    (hd : f.OnScreen m₀ d.mem) (hglyphs : font.GlyphsApart f str)
    (hfit : str.length * font.hdr.width.toNat ≤ 2 ^ 32) :
    f.Paints d.mem (drawStringLoop f (some font) y fg bg str x d).mem
      (font.textLayer m₀.bytes x y str fg bg) := by
  induction str generalizing x d with
  | nil =>
      refine (Paints.refl f d.mem).congr fun p _ => if_neg ?_
      rw [List.length_nil, Nat.zero_mul]
      exact fun h => Nat.not_lt_zero _ h.1
  | cons c str ih =>
      obtain ⟨hfirst, hrest⟩ := List.forall_mem_cons.mp hglyphs
      have hchar := fontDrawChar_paints hf x y fg bg hd hfirst
      have htail := ih (x := x + font.hdr.width) (hd.trans hchar.toOnScreen) hrest
        ((Nat.mul_le_mul_right _ (Nat.le_succ _)).trans hfit)
      exact (hchar.trans htail).congr fun p _ => font.textLayer_cons m₀.bytes x y c str fg bg p hfit

end

end Font

/-- The layer of `font_draw_string`; without a font nothing is painted. -/
def stringLayer (fontHdr : Option Font) (src : UInt32 → UInt8) (x y : UInt32) (str : CString) (fg bg : UInt32) :
    ℕ × ℕ → Option UInt32 :=
  match fontHdr with
  | none => fun _ => none
  | some font => font.textLayer src x y str.chars fg bg

/-- The cells of a string do not come round, and its glyphs are not on the screen. -/
def StringFits (f : Framebuffer) (fontHdr : Option Font) (str : CString) : Prop :=
  ∀ font ∈ fontHdr, str.chars.length * font.hdr.width.toNat ≤ 2 ^ 32 ∧ font.GlyphsApart f str.chars

section
variable {f : Framebuffer} {fontHdr : Option Font} {m m₀ : Memory}

theorem drawStringLoop_none (f : Framebuffer) (y fg bg : UInt32) (str : List UInt8) (x : UInt32) (d : Drawing) :
    drawStringLoop f none y fg bg str x d = d := by
  induction str generalizing x with
  | nil => rfl
  | cons c str ih => exact ih _

theorem fontDrawString_paints (hf : f.Regular) {str : CString} (hstr : StringFits f fontHdr str)
    (x y fg bg : UInt32) {d : Drawing} (hd : f.OnScreen m₀ d.mem) :
    f.Paints d.mem (fontDrawString f fontHdr x y str fg bg d).mem (stringLayer fontHdr m₀.bytes x y str fg bg) := by
  unfold fontDrawString stringLayer
  cases fontHdr with
  | none =>
      rw [drawStringLoop_none]
      exact .refl f d.mem
  | some font =>
      obtain ⟨hfit, hglyphs⟩ := hstr font rfl
      exact Font.drawStringLoop_paints hf y fg bg hd hglyphs hfit

/-! ### Runs -/

/-- A call that draws, or a store of a program to memory of its own. -/
inductive DrawOp where
  | putPixel (x y color : UInt32)
  | fillRect (x y w h color : UInt32)
  | clear (color : UInt32)
  | drawString (x y : UInt32) (str : CString) (fg bg : UInt32)
  | flush (x1 y1 x2 y2 : Int32) (colorP : UInt32)
  | render (t : SurfaceTable) (windows : Fin MAX_WINDOWS → Window)
  | store (a : UInt32) (v : UInt8)

/-- What a call does to memory; `none` is undefined behaviour. -/
def DrawOp.exec (f : Framebuffer) (fontHdr : Option Font) (m : Memory) : DrawOp → Option Memory
  | putPixel x y color => some (fbPutPixel f x y color m)
  | fillRect x y w h color => some (fbFillRect f x y w h color m)
  | clear color => some (fbClear f color m)
  | drawString x y str fg bg => some (fontDrawString f fontHdr x y str fg bg ⟨m, []⟩).mem
  | flush x1 y1 x2 y2 colorP => lunaLvglFlush f x1 y1 x2 y2 colorP m
  | render t windows => some (compositorRender f t windows m)
  | store a v => some (m.store a v)

/-- What the code relies on: what it draws from is not on the screen. -/
def DrawOp.Fits (f : Framebuffer) (fontHdr : Option Font) : DrawOp → Prop
  | drawString _ _ str _ _ => StringFits f fontHdr str
  | flush x1 y1 x2 y2 colorP => FlushEnds x1 y1 x2 y2 ∧ BufferApart f x1 y1 x2 y2 colorP
  | render t _ => t.Mapped f
  | store a _ => ¬ f.VisibleByte a
  | _ => True

/-- A canvas, and the bytes that are not on the screen. -/
structure Picture where
  canvas : ℕ × ℕ → UInt32
  source : UInt32 → UInt8

/-- The layer of `fb_fill_rect`, whose sums may wrap around. -/
def rectLayer (x y w h color : UInt32) : ℕ × ℕ → Option UInt32 := fun p =>
  if (x.toNat ≤ p.1 ∧ p.1 < (x + w).toNat) ∧ y.toNat ≤ p.2 ∧ p.2 < (y + h).toNat then some color else none

/-- The layer a call paints. -/
def DrawOp.layer (fontHdr : Option Font) (src : UInt32 → UInt8) : DrawOp → ℕ × ℕ → Option UInt32
  | putPixel x y color => dot x y color
  | fillRect x y w h color => rectLayer x y w h color
  | clear color => fun _ => some color
  | drawString x y str fg bg => stringLayer fontHdr src x y str fg bg
  | flush x1 y1 x2 y2 colorP => flushLayer x1 y1 x2 y2 colorP src
  | render t windows => atop (windowsLayer t windows ⟨src, []⟩) fun _ => some BACKGROUND
  | store _ _ => fun _ => none

def Picture.step (fontHdr : Option Font) (s : Picture) (op : DrawOp) : Picture where
  canvas := onto (op.layer fontHdr s.source) s.canvas
  source :=
    match op with
    | .store a v => Function.update s.source a v
    | _ => s.source

/-- The screen shows the canvas, and the other bytes are those of the picture. -/
structure Framebuffer.Depicts (f : Framebuffer) (m : Memory) (s : Picture) : Prop where
  canvas : ∀ p, f.Visible p → f.screen m p = s.canvas p
  source : ∀ a, ¬ f.VisibleByte a → m.bytes a = s.source a

/-! ### The framebuffer and the picture -/

namespace Framebuffer.Depicts

variable {s : Picture}

theorem onScreen (h : f.Depicts m s) : f.OnScreen ⟨s.source, m.written⟩ m :=
  ⟨⟨[], (List.append_nil _).symm, fun _ ha => absurd ha List.not_mem_nil⟩, h.source⟩

theorem paints {m' : Memory} {L : ℕ × ℕ → Option UInt32} (h : f.Depicts m s) (hpaints : f.Paints m m' L) :
    f.Depicts m' ⟨onto L s.canvas, s.source⟩ := by
  refine ⟨fun p hp => ?_, fun a ha => (hpaints.frame a ha).trans (h.source a ha)⟩
  rw [hpaints.painted p hp]
  unfold onto
  rw [h.canvas p hp]

theorem store (h : f.Depicts m s) {a : UInt32} (ha : ¬ f.VisibleByte a) (v : UInt8) :
    f.Depicts (m.store a v) ⟨s.canvas, Function.update s.source a v⟩ := by
  have hother : ∀ b, b ≠ a → (m.store a v).bytes b = m.bytes b := fun b hb => if_neg hb
  refine ⟨fun p hp => ?_, fun b hb => ?_⟩
  · rw [← h.canvas p hp]
    refine load32_congr fun j hj => hother _ ?_
    rintro rfl
    exact ha ⟨p, hp, mem_addrs.mpr ⟨j, hj, rfl⟩⟩
  · by_cases hab : b = a
    · subst hab
      exact (if_pos rfl).trans (Function.update_self b v s.source).symm
    · rw [hother b hab, h.source b hb]
      exact (Function.update_of_ne hab v s.source).symm

theorem self (f : Framebuffer) (m : Memory) : f.Depicts m ⟨f.screen m, m.bytes⟩ :=
  ⟨fun _ _ => rfl, fun _ _ => rfl⟩

end Framebuffer.Depicts

/-- The compositor draws from surfaces that are not on the screen. -/
theorem compositorRender_layers (hf : f.Regular) {t : SurfaceTable} (ht : t.Mapped f)
    (windows : Fin MAX_WINDOWS → Window) (hm : f.OnScreen m₀ m) :
    f.Paints m (compositorRender f t windows m)
      (atop (windowsLayer t windows m₀) fun _ => some BACKGROUND) := by
  have hclear := hf.clear BACKGROUND m
  refine hclear.trans (Paints.foldl (hm.trans hclear.toOnScreen) fun z _ m₁ h₁ => ?_)
  exact Paints.foldl h₁ fun i _ m₂ h₂ => drawWindow_paints hf ht h₂ z i

/-- **A call** does to the screen what it does to the picture. -/
theorem DrawOp.exec_depicts (hf : f.Regular) {op : DrawOp} (hop : op.Fits f fontHdr) {s : Picture}
    (h : f.Depicts m s) : ∃ m', op.exec f fontHdr m = some m' ∧ f.Depicts m' (s.step fontHdr op) := by
  cases op with
  | putPixel x y color => exact ⟨_, rfl, h.paints (hf.putPixel x y color m)⟩
  | fillRect x y w d color => exact ⟨_, rfl, h.paints (hf.fillRect x y w d color m)⟩
  | clear color => exact ⟨_, rfl, h.paints (hf.clear color m)⟩
  | drawString x y str fg bg =>
      have hpaints := fontDrawString_paints hf hop x y fg bg (d := ⟨m, []⟩) h.onScreen
      exact ⟨_, rfl, h.paints hpaints⟩
  | flush x1 y1 x2 y2 colorP =>
      obtain ⟨m', hflush, hpaints⟩ := lunaLvglFlush_paints hf hop.1 hop.2 h.onScreen
      exact ⟨m', hflush, h.paints hpaints⟩
  | render t windows =>
      have hpaints := compositorRender_layers hf hop windows h.onScreen
      exact ⟨_, rfl, h.paints hpaints⟩
  | store a v => exact ⟨_, rfl, h.store hop v⟩

end

theorem visibleByte_twoByTwo {a : UInt32} (h : twoByTwo.VisibleByte a) : 0xE0000000 ≤ a.toNat := by
  obtain ⟨p, ⟨hcol, hrow⟩, ha⟩ := h
  obtain ⟨j, hj, rfl⟩ := mem_addrs.mp ha
  have hoffset : twoByTwo.offset p = p.2 * 8 + 4 * p.1 := rfl
  have hptr : twoByTwo.ptr.toNat = 0xE0000000 := rfl
  change p.1 < 2 at hcol
  change p.2 < 2 at hrow
  unfold pixelPtr
  rw [UInt32.toNat_add, UInt32.toNat_add, UInt32.toNat_ofNat', UInt32.toNat_ofNat', hptr, hoffset]
  omega

theorem letterA_nonzero : ∀ c ∈ [(65 : UInt8)], c ≠ 0 := by simp

/-- `"A"` -/
def letterA : CString := ⟨[65], letterA_nonzero⟩

/-- A glyph is made and drawn on a screen of one colour, and then one pixel is flushed. -/
def sampleDrawing : List DrawOp :=
  [.clear 1, .store 0x200430 0x80, .drawString 0 0 letterA 7 0, .store 0x1000 5, .flush 1 1 1 1 0x1000]

end LunaOs
