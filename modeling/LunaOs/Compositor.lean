import LunaOs.Framebuffer
import LunaOs.SurfacePixels

/-! # The compositor

`compositor_render` clears the screen and draws the windows from the bottom to the top, clipped by
`fb_put_pixel`.  The coordinates of a pixel are sums of a signed position and an unsigned offset, in 32
bits; on the screen they are the sums of the integers. -/

namespace LunaOs

open ByteMem Painter Framebuffer

def MAX_WINDOWS : ℕ := 16

/-- The colour of the screen where no window shows. -/
def BACKGROUND : UInt32 := 0x00223344

/-- Pixels of this colour are not drawn. -/
def TRANSPARENT : UInt32 := 0x00FF00FF

/-- What `compositor_render` reads of a window. -/
structure Window where
  surfaceId : UInt32
  x : Int32
  y : Int32
  active : Bool
  zOrder : UInt32

/-- The loops over the pixels of a surface. -/
def drawSurface (f : Framebuffer) (win : Window) (s : SharedSurface) (m : Memory) : Memory :=
  (List.range s.height.toNat).foldl (fun m wy =>
    (List.range s.width.toNat).foldl (fun m wx =>
      let color := load32 m.bytes (s.pixelAddr (UInt32.ofNat wx) (UInt32.ofNat wy))
      if color ≠ TRANSPARENT then
        fbPutPixel f (win.x.toUInt32 + UInt32.ofNat wx) (win.y.toUInt32 + UInt32.ofNat wy) color m
      else m) m) m

/-- A window without a surface, or whose surface has no kernel mapping, is not drawn. -/
def drawWindow (f : Framebuffer) (t : SurfaceTable) (win : Window) (m : Memory) : Memory :=
  match surfaceGet t win.surfaceId with
  | none => m
  | some j =>
      let s := t.surfaces j
      if s.virtAddrKernel ≠ 0 then drawSurface f win s m else m

/-- `compositor_render`: the background, then the windows from the lowest `z_order` up. -/
def compositorRender (f : Framebuffer) (t : SurfaceTable) (windows : Fin MAX_WINDOWS → Window)
    (m : Memory) : Memory :=
  (List.range MAX_WINDOWS).foldl (fun m z =>
    (List.finRange MAX_WINDOWS).foldl (fun m i =>
      if (windows i).active ∧ (windows i).zOrder = UInt32.ofNat z then drawWindow f t (windows i) m
      else m) m) (fbClear f BACKGROUND m)

/-! ### What the screen should show -/

/-- Pixel `(wx, wy)` of a surface. -/
def SharedSurface.pixel (s : SharedSurface) (m : Memory) (wx wy : ℕ) : UInt32 :=
  load32 m.bytes (s.virtAddrKernel + UInt32.ofNat (4 * (wy * s.width.toNat + wx)))

/-- Window `i` covers a point of the screen and has an opaque colour there. -/
structure Shows (t : SurfaceTable) (windows : Fin MAX_WINDOWS → Window) (m : Memory)
    (i : Fin MAX_WINDOWS) (p : ℕ × ℕ) (color : UInt32) : Prop where
  active : (windows i).active = true
  zOrder_lt : (windows i).zOrder.toNat < MAX_WINDOWS
  covers : ∃ j, (t.surfaces j).active = true ∧ (t.surfaces j).id = (windows i).surfaceId ∧
    ∃ wx < (t.surfaces j).width.toNat, ∃ wy < (t.surfaces j).height.toNat,
      (p.1 : ℤ) = (windows i).x.toInt + wx ∧ (p.2 : ℤ) = (windows i).y.toInt + wy ∧
      (t.surfaces j).pixel m wx wy = color
  color_ne : color ≠ TRANSPARENT

/-- The colour of the topmost window that shows at `p`: the greatest `z_order`, and among equals the
greatest index. -/
def TopColor (t : SurfaceTable) (windows : Fin MAX_WINDOWS → Window) (m : Memory) (p : ℕ × ℕ)
    (color : UInt32) : Prop :=
  (∃ i, Shows t windows m i p color ∧ ∀ j c, Shows t windows m j p c →
    (windows j).zOrder < (windows i).zOrder ∨ (windows j).zOrder = (windows i).zOrder ∧ j ≤ i) ∨
  (∀ i c, ¬ Shows t windows m i p c) ∧ color = BACKGROUND

/-- The kernel has mapped the pixels of a surface, to memory that is not the screen's. -/
structure SharedSurface.Mapped (f : Framebuffer) (s : SharedSurface) : Prop where
  virt_ne : s.virtAddrKernel ≠ 0
  size_lt : s.width.toNat * s.height.toNat < 2 ^ 30
  apart : ∀ k < 4 * (s.width.toNat * s.height.toNat),
    ¬ f.VisibleByte (s.virtAddrKernel + UInt32.ofNat k)

/-- Active surfaces have distinct ids, and their pixels are not on the screen. -/
structure SurfaceTable.Mapped (f : Framebuffer) (t : SurfaceTable) : Prop where
  distinct : ∀ i j, (t.surfaces i).active = true → (t.surfaces j).active = true →
    (t.surfaces i).id = (t.surfaces j).id → i = j
  mapped : ActiveAll t.surfaces fun s => s.Mapped f

/-! ### A window -/

section
variable {f : Framebuffer} {t : SurfaceTable} {windows : Fin MAX_WINDOWS → Window} {win : Window}
  {s : SharedSurface} {m m₀ : Memory} {p : ℕ × ℕ} {v : UInt32} {wx wy : ℕ} {i : Fin MAX_WINDOWS}

/-- A coordinate on the screen is a sum of integers. -/
theorem coord_iff (x : Int32) {px : ℕ} (hpx : px < 2 ^ 31) (hwx : wx < 2 ^ 31) :
    px = (x.toUInt32 + UInt32.ofNat wx).toNat ↔ (px : ℤ) = x.toInt + wx := by
  have hlt := x.toUInt32.toNat_lt
  have hint : x.toInt = if 2 * x.toUInt32.toNat < 2 ^ 32 then (x.toUInt32.toNat : ℤ)
      else (x.toUInt32.toNat : ℤ) - 2 ^ 32 := BitVec.toInt_eq_toNat_cond x.toBitVec
  rw [hint, UInt32.toNat_add, UInt32.toNat_ofNat']
  split_ifs
  · omega
  · omega

theorem pixelAddr_eq (s : SharedSurface) (wx wy : ℕ) :
    s.pixelAddr (UInt32.ofNat wx) (UInt32.ofNat wy) =
      s.virtAddrKernel + UInt32.ofNat (4 * (wy * s.width.toNat + wx)) := by
  unfold SharedSurface.pixelAddr
  rw [UInt32.ofNat_mul, UInt32.ofNat_add, UInt32.ofNat_mul, UInt32.ofNat_toNat, UInt32.mul_comm]
  rfl

/-- Drawing does not change the pixels of the surfaces. -/
theorem SharedSurface.Mapped.pixel_eq (hs : s.Mapped f) (hm : f.OnScreen m₀ m) (hx : wx < s.width.toNat)
    (hy : wy < s.height.toNat) :
    load32 m.bytes (s.pixelAddr (UInt32.ofNat wx) (UInt32.ofNat wy)) = s.pixel m₀ wx wy := by
  have hindex := s.pixel_index_lt hx hy
  rw [pixelAddr_eq]
  refine load32_congr fun j hj => hm.frame _ ?_
  rw [← add_ofNat_add]
  exact hs.apart _ (by omega)

/-- The layer of one pixel of a surface. -/
def pixelLayer (win : Window) (s : SharedSurface) (m : Memory) (wy wx : ℕ) :
    ℕ × ℕ → Option UInt32 :=
  if s.pixel m wx wy ≠ TRANSPARENT then
    dot (win.x.toUInt32 + UInt32.ofNat wx) (win.y.toUInt32 + UInt32.ofNat wy) (s.pixel m wx wy)
  else fun _ => none

theorem pixelLayer_eq_some (hf : f.Regular) (hs : s.Mapped f) (hp : f.Visible p)
    (hx : wx < s.width.toNat) (hy : wy < s.height.toNat) :
    pixelLayer win s m wy wx p = some v ↔
      (p.1 : ℤ) = win.x.toInt + wx ∧ (p.2 : ℤ) = win.y.toInt + wy ∧ s.pixel m wx wy = v ∧
        v ≠ TRANSPARENT := by
  have hindex := s.pixel_index_lt hx hy
  have hsize := hs.size_lt
  have hwidth := hf.width_lt
  have hheight := hf.height_lt
  have hcol := hp.1
  have hrow := hp.2
  have hwx : wx < 2 ^ 31 := by omega
  have hwy : wy < 2 ^ 31 := by
    have hle : wy * 1 ≤ wy * s.width.toNat := Nat.mul_le_mul_left _ (Nat.zero_lt_of_lt hx)
    omega
  unfold pixelLayer
  by_cases hkey : s.pixel m wx wy = TRANSPARENT
  · rw [if_neg (not_not.mpr hkey)]
    refine iff_of_false (Option.some_ne_none v).symm ?_
    rintro ⟨_, _, rfl, hne⟩
    exact hne hkey
  · rw [if_pos hkey, dot_eq_some, Prod.ext_iff, ← coord_iff win.x (by omega) hwx,
      ← coord_iff win.y (by omega) hwy, and_assoc]
    refine and_congr Iff.rfl (and_congr Iff.rfl ⟨fun hv => ⟨hv, hv ▸ hkey⟩, And.left⟩)

def surfaceLayer (win : Window) (s : SharedSurface) (m : Memory) : ℕ × ℕ → Option UInt32 :=
  stack ((List.range s.height.toNat).map fun wy =>
    stack ((List.range s.width.toNat).map (pixelLayer win s m wy)))

theorem surfaceLayer_eq_some (hf : f.Regular) (hs : s.Mapped f) (hp : f.Visible p) :
    surfaceLayer win s m p = some v ↔
      ∃ wx < s.width.toNat, ∃ wy < s.height.toNat, (p.1 : ℤ) = win.x.toInt + wx ∧
        (p.2 : ℤ) = win.y.toInt + wy ∧ s.pixel m wx wy = v ∧ v ≠ TRANSPARENT := by
  unfold surfaceLayer
  rw [grid_eq_some]
  · constructor
    · rintro ⟨wy, hy, wx, hx, hv⟩
      rw [List.mem_range] at hy hx
      exact ⟨wx, hx, wy, hy, (pixelLayer_eq_some hf hs hp hx hy).mp hv⟩
    · rintro ⟨wx, hx, wy, hy, hv⟩
      exact ⟨wy, List.mem_range.mpr hy, wx, List.mem_range.mpr hx,
        (pixelLayer_eq_some hf hs hp hx hy).mpr hv⟩
  · -- a point of the screen is one pixel of the surface
    intro wy hy wx hx wy' hy' wx' hx' v v' hv hv'
    rw [List.mem_range] at hy hx hy' hx'
    obtain ⟨h1, h2, hv, _⟩ := (pixelLayer_eq_some hf hs hp hx hy).mp hv
    obtain ⟨h3, h4, hv', _⟩ := (pixelLayer_eq_some hf hs hp hx' hy').mp hv'
    obtain rfl : wx = wx' := by omega
    obtain rfl : wy = wy' := by omega
    exact hv.symm.trans hv'

theorem drawSurface_paints (hf : f.Regular) (hs : s.Mapped f) (win : Window) (hm : f.OnScreen m₀ m) :
    f.Paints m (drawSurface f win s m) (surfaceLayer win s m₀) := by
  refine Paints.foldl hm fun wy hy m₁ h₁ => Paints.foldl h₁ fun wx hx m₂ h₂ => ?_
  rw [List.mem_range] at hx hy
  dsimp only
  rw [hs.pixel_eq h₂ hx hy]
  unfold pixelLayer
  split_ifs
  · exact hf.putPixel _ _ _ m₂
  · exact .refl f m₂

/-- The layer of a turn of the loops over the windows. -/
def windowLayer (t : SurfaceTable) (windows : Fin MAX_WINDOWS → Window) (m : Memory) (z : ℕ)
    (i : Fin MAX_WINDOWS) : ℕ × ℕ → Option UInt32 :=
  if (windows i).active ∧ (windows i).zOrder = UInt32.ofNat z then
    match surfaceGet t (windows i).surfaceId with
    | none => fun _ => none
    | some j => surfaceLayer (windows i) (t.surfaces j) m
  else fun _ => none

theorem windowLayer_eq_some (hf : f.Regular) (ht : t.Mapped f) (hp : f.Visible p) {z : ℕ}
    (hz : z < MAX_WINDOWS) :
    windowLayer t windows m z i p = some v ↔
      (windows i).zOrder.toNat = z ∧ Shows t windows m i p v := by
  have hofNat : (UInt32.ofNat z).toNat = z :=
    UInt32.toNat_ofNat_of_lt' (Nat.lt_trans hz (by decide))
  unfold windowLayer
  constructor
  · intro hv
    split_ifs at hv with hactive
    have horder : (windows i).zOrder.toNat = z := (congrArg UInt32.toNat hactive.2).trans hofNat
    cases hget : surfaceGet t (windows i).surfaceId with
    | none =>
        rw [hget] at hv
        cases hv
    | some j =>
        rw [hget] at hv
        obtain ⟨hj, hid⟩ := surfaceGet_some hget
        obtain ⟨wx, hx, wy, hy, hcol, hrow, hcolor, hne⟩ :=
          (surfaceLayer_eq_some hf (ht.mapped j hj) hp).mp hv
        exact ⟨horder, hactive.1, horder.symm ▸ hz,
          ⟨j, hj, hid, wx, hx, wy, hy, hcol, hrow, hcolor⟩, hne⟩
  · rintro ⟨rfl, hshows⟩
    obtain ⟨j, hj, hid, wx, hx, wy, hy, hcol, hrow, hcolor⟩ := hshows.covers
    rw [if_pos ⟨hshows.active, UInt32.toNat_inj.mp hofNat.symm⟩, surfaceGet_eq ht.distinct hj hid]
    exact (surfaceLayer_eq_some hf (ht.mapped j hj) hp).mpr
      ⟨wx, hx, wy, hy, hcol, hrow, hcolor, hshows.color_ne⟩

theorem drawWindow_paints (hf : f.Regular) (ht : t.Mapped f) (hm : f.OnScreen m₀ m) (z : ℕ)
    (i : Fin MAX_WINDOWS) :
    f.Paints m (if (windows i).active ∧ (windows i).zOrder = UInt32.ofNat z then
      drawWindow f t (windows i) m else m) (windowLayer t windows m₀ z i) := by
  unfold windowLayer
  split_ifs
  · unfold drawWindow
    cases hget : surfaceGet t (windows i).surfaceId with
    | none => exact .refl f m
    | some j =>
        have hs := ht.mapped j (surfaceGet_some hget).1
        dsimp only
        rw [if_pos hs.virt_ne]
        exact drawSurface_paints hf hs (windows i) hm
  · exact .refl f m

/-! ### The screen -/

/-- The windows, those with the greater `z_order` over the others. -/
def windowsLayer (t : SurfaceTable) (windows : Fin MAX_WINDOWS → Window) (m : Memory) :
    ℕ × ℕ → Option UInt32 :=
  stack ((List.range MAX_WINDOWS).map fun z =>
    stack ((List.finRange MAX_WINDOWS).map (windowLayer t windows m z)))

theorem compositorRender_paints (hf : f.Regular) (ht : t.Mapped f)
    (windows : Fin MAX_WINDOWS → Window) (m : Memory) :
    f.Paints m (compositorRender f t windows m)
      (atop (windowsLayer t windows m) fun _ => some BACKGROUND) := by
  have hclear := hf.clear BACKGROUND m
  refine hclear.trans (Paints.foldl hclear.toOnScreen fun z _ m₁ h₁ => ?_)
  exact Paints.foldl h₁ fun i _ m₂ h₂ => drawWindow_paints hf ht h₂ z i

/-- A window that shows is in the layer of its `z_order`. -/
theorem Shows.layer_ne (h : Shows t windows m i p v) (hf : f.Regular) (ht : t.Mapped f)
    (hp : f.Visible p) : windowLayer t windows m (windows i).zOrder.toNat i p ≠ none := by
  rw [(windowLayer_eq_some hf ht hp h.zOrder_lt).mpr ⟨rfl, h⟩]
  exact Option.some_ne_none v

theorem windowsLayer_eq_none (hf : f.Regular) (ht : t.Mapped f) (hp : f.Visible p)
    (h : windowsLayer t windows m p = none) : ∀ i c, ¬ Shows t windows m i p c := by
  intro i c hshows
  have hrow := stack_eq_none.mp h _ (List.mem_map_of_mem (List.mem_range.mpr hshows.zOrder_lt))
  exact hshows.layer_ne hf ht hp (stack_eq_none.mp hrow _ (List.mem_map_of_mem (List.mem_finRange i)))

theorem windowsLayer_top (hf : f.Regular) (ht : t.Mapped f) (hp : f.Visible p)
    (h : windowsLayer t windows m p = some v) :
    ∃ i, Shows t windows m i p v ∧ ∀ j c, Shows t windows m j p c →
      (windows j).zOrder < (windows i).zOrder ∨ (windows j).zOrder = (windows i).zOrder ∧ j ≤ i := by
  obtain ⟨z, hz, hrow, hgreatest⟩ := stack_top List.pairwise_lt_range _ h
  obtain ⟨i, _, hi, hlast⟩ := stack_top (List.pairwise_lt_finRange _) _ hrow
  rw [List.mem_range] at hz
  obtain ⟨rfl, hshows⟩ := (windowLayer_eq_some hf ht hp hz).mp hi
  refine ⟨i, hshows, fun j c hj => ?_⟩
  have hlayer := hj.layer_ne hf ht hp
  -- the row of window `j` is not empty, and so not above that of `i`
  have hne : stack ((List.finRange MAX_WINDOWS).map
      (windowLayer t windows m (windows j).zOrder.toNat)) p ≠ none := fun hnone =>
    hlayer (stack_eq_none.mp hnone _ (List.mem_map_of_mem (List.mem_finRange j)))
  rcases hgreatest _ (List.mem_range.mpr hj.zOrder_lt) hne with heq | hlt
  · rw [heq] at hlayer
    exact .inr ⟨UInt32.toNat_inj.mp heq, (hlast j (List.mem_finRange j) hlayer).elim le_of_eq le_of_lt⟩
  · exact .inl (UInt32.lt_iff_toNat_lt.mpr hlt)

/-- **`compositor_render` is the painter's algorithm**: every pixel of the screen has the colour of the
topmost window that shows there, and no other byte is written. -/
theorem compositorRender_topColor (f : Framebuffer) (hf : f.Regular) (t : SurfaceTable) (ht : t.Mapped f)
    (windows : Fin MAX_WINDOWS → Window) (m : Memory) :
    (∀ p, f.Visible p → TopColor t windows m p (f.screen (compositorRender f t windows m) p)) ∧
      f.OnScreen m (compositorRender f t windows m) := by
  have hpaints := compositorRender_paints hf ht windows m
  refine ⟨fun p hp => ?_, hpaints.toOnScreen⟩
  rw [hpaints.painted p hp]
  unfold onto atop
  cases hlayer : windowsLayer t windows m p with
  | none => exact .inr ⟨windowsLayer_eq_none hf ht hp hlayer, rfl⟩
  | some v => exact .inl (windowsLayer_top hf ht hp hlayer)

end

/-- A screen of two rows of two pixels. -/
def twoByTwo : Framebuffer := ⟨0xE0000000, 8, 2, 2⟩

/-- A surface of two white pixels in the first slot. -/
def whitePixels : SurfaceTable := ⟨fun i => ⟨1, 7, 2, 1, 8, 0xD0000000, 0, 0, i.val == 0⟩, 2⟩

/-- Its window hangs over the left edge of the screen. -/
def leftWindow : Fin MAX_WINDOWS → Window := fun i => ⟨1, -1, 0, i.val == 0, 3⟩

theorem twoByTwo_regular : twoByTwo.Regular := by
  constructor <;> decide

theorem whitePixels_mapped : whitePixels.Mapped twoByTwo := by
  refine ⟨fun i j hi hj _ => Fin.ext ((beq_iff_eq.mp hi).trans (beq_iff_eq.mp hj).symm), fun _ _ => ?_⟩
  refine ⟨(by decide : (0xD0000000 : UInt32) ≠ 0), (by decide : 2 * 1 < 2 ^ 30), ?_⟩
  rintro k hk ⟨p, ⟨hcol, hrow⟩, ha⟩
  obtain ⟨j, hj, ha⟩ := mem_addrs.mp ha
  change k < 8 at hk
  change p.1 < 2 at hcol
  change p.2 < 2 at hrow
  have hsum : (0xD0000000 + k) % 2 ^ 32 =
      ((0xE0000000 + (p.2 * 8 + 4 * p.1)) % 2 ^ 32 + j) % 2 ^ 32 := by
    have hnat := congrArg UInt32.toNat ha
    unfold pixelPtr at hnat
    rw [UInt32.toNat_add, UInt32.toNat_add, UInt32.toNat_add, UInt32.toNat_ofNat',
      UInt32.toNat_ofNat', UInt32.toNat_ofNat', Nat.add_mod_mod, Nat.add_mod_mod,
      Nat.add_mod_mod] at hnat
    exact hnat.symm
  omega

theorem load32_white (a : UInt32) : load32 (fun _ => 0xFF) a = 0xFFFFFFFF := by
  have hbyte : (0xFF : UInt8).toNat = 255 := rfl
  unfold load32
  rw [hbyte]
  decide

/-- What is on the screen of the window is white. -/
theorem compositorRender_topColor_corner :
    twoByTwo.screen (compositorRender twoByTwo whitePixels leftWindow ⟨fun _ => 0xFF, []⟩) (0, 0) =
        0xFFFFFFFF ∧
      twoByTwo.OnScreen ⟨fun _ => 0xFF, []⟩
        (compositorRender twoByTwo whitePixels leftWindow ⟨fun _ => 0xFF, []⟩) := by
  obtain ⟨hcolor, hscreen⟩ := compositorRender_topColor twoByTwo twoByTwo_regular whitePixels
    whitePixels_mapped leftWindow ⟨fun _ => 0xFF, []⟩
  refine ⟨?_, hscreen⟩
  rcases hcolor (0, 0) (by constructor <;> decide) with ⟨i, hshows, _⟩ | ⟨hnone, _⟩
  · obtain ⟨_, _, _, _, _, _, _, _, _, hwhite⟩ := hshows.covers
    exact hwhite.symm.trans (load32_white _)
  · refine absurd ?_ (hnone ⟨0, by decide⟩ 0xFFFFFFFF)
    exact ⟨rfl, by decide, ⟨⟨0, by decide⟩, rfl, rfl, 1, by decide, 0, by decide, by decide, by decide,
      load32_white _⟩, by decide⟩

end LunaOs
