import LunaOs.SurfaceLife

/-! # The pixels of a surface

`surface_create` computes the size of a surface from the product of width and height, in 32 bits;
`compositor_render` reads it row by row, with width and height apart.  The two agree as long as the size
in bytes, rounded up to pages, does not wrap, and is not zero. -/

namespace LunaOs

/-- `&s->virt_addr_kernel[wy * s->width + wx]` -/
def SharedSurface.pixelAddr (s : SharedSurface) (wx wy : UInt32) : UInt32 :=
  s.virtAddrKernel + (wy * s.width + wx) * 4

/-- The addresses `compositor_render` reads of a surface that a window shows. -/
def SharedSurface.pixelReads (s : SharedSurface) : List UInt32 :=
  (List.range s.height.toNat).flatMap fun wy =>
    (List.range s.width.toNat).map fun wx => s.pixelAddr (UInt32.ofNat wx) (UInt32.ofNat wy)

/-- The four bytes at a physical address lie in the pages of the surface. -/
def SharedSurface.Covers (s : SharedSurface) (phys : UInt32) : Prop :=
  s.physBase.toNat ≤ phys.toNat ∧ phys.toNat + 4 ≤ s.physBase.toNat + 4096 * s.pages

/-- A run of `n` frames is free. -/
def Pmm.HasRun (p : Pmm) (n : ℕ) : Prop :=
  ∃ start, start + n ≤ FRAMES_TOTAL ∧ ∀ f, start ≤ f → f < start + n → f ∈ p.clearFrames

/-- The frames that the pixels of a surface take. -/
def surfaceNeed (w h : UInt32) : ℕ := (4 * (w.toNat * h.toNat) + 4095) / 4096

/-- Every pixel the compositor reads of a new surface lies in its pages, and the kernel panics only
where memory has no room for the pixels. -/
def SurfaceFits (t : SurfaceTable) (p : Pmm) (pid w h : UInt32) : Prop :=
  (∀ i t' p', surfaceCreate t p pid w h = .ok (some i, t', p') →
    ∀ addr ∈ (t'.surfaces i).pixelReads, (t'.surfaces i).Covers (addr - 0xC0000000)) ∧
  ∀ e, surfaceCreate t p pid w h = .error e → ¬ p.HasRun (surfaceNeed w h)

/-! ### What the compositor reads -/

theorem SharedSurface.pixel_index_lt (s : SharedSurface) {wx wy : ℕ} (hx : wx < s.width.toNat)
    (hy : wy < s.height.toNat) : wy * s.width.toNat + wx < s.width.toNat * s.height.toNat :=
  calc wy * s.width.toNat + wx
    _ < wy * s.width.toNat + s.width.toNat := Nat.add_lt_add_left hx _
    _ = (wy + 1) * s.width.toNat := (Nat.succ_mul _ _).symm
    _ ≤ s.height.toNat * s.width.toNat := Nat.mul_le_mul_right _ hy
    _ = s.width.toNat * s.height.toNat := Nat.mul_comm _ _

theorem SharedSurface.mem_pixelReads {s : SharedSurface} {addr : UInt32} :
    addr ∈ s.pixelReads ↔
      ∃ k < s.width.toNat * s.height.toNat, addr = s.virtAddrKernel + UInt32.ofNat k * 4 := by
  have hindex : ∀ wx wy : ℕ, UInt32.ofNat wy * s.width + UInt32.ofNat wx =
      UInt32.ofNat (wy * s.width.toNat + wx) := by
    intro wx wy
    rw [UInt32.ofNat_add, UInt32.ofNat_mul, UInt32.ofNat_toNat]
  simp only [pixelReads, pixelAddr, List.mem_flatMap, List.mem_map, List.mem_range, hindex]
  constructor
  · rintro ⟨wy, hwy, wx, hwx, rfl⟩
    exact ⟨wy * s.width.toNat + wx, s.pixel_index_lt hwx hwy, rfl⟩
  · rintro ⟨k, hk, rfl⟩
    have hpos : 0 < s.width.toNat := Nat.pos_of_mul_pos_right (Nat.zero_lt_of_lt hk)
    refine ⟨k / s.width.toNat, Nat.div_lt_of_lt_mul hk, k % s.width.toNat, Nat.mod_lt _ hpos, ?_⟩
    rw [Nat.div_add_mod']

/-! ### Sizes -/

theorem surfacePages_toNat (w h : UInt32) :
    (surfacePages w h).toNat = (4 * (w.toNat * h.toNat) + 4095) % 2 ^ 32 / 4096 := by
  have hfour : (4 : UInt32).toNat = 4 := rfl
  have hround : (4095 : UInt32).toNat = 4095 := rfl
  have hpage : (4096 : UInt32).toNat = 4096 := rfl
  unfold surfacePages
  rw [UInt32.toNat_div, UInt32.toNat_add, UInt32.toNat_mul, UInt32.toNat_mul, hfour, hround, hpage]
  omega

theorem surfaceNeed_eq {w h : UInt32} (hfit : 4 * (w.toNat * h.toNat) + 4095 < 2 ^ 32) :
    surfaceNeed w h = (surfacePages w h).toNat := by
  rw [surfacePages_toNat, Nat.mod_eq_of_lt hfit, surfaceNeed]

theorem pmmAllocFrames_eq_error {p : Pmm} {n : UInt32} {e : PmmPanic} :
    pmmAllocFrames p n = .error e ↔ e = .noContiguousFrames ∧ (n.toNat = 0 ∨ ¬ p.HasRun n.toNat) := by
  rcases Nat.eq_zero_or_pos n.toNat with hzero | hpos
  · obtain rfl : n = 0 := UInt32.toNat_inj.mp hzero
    rw [pmmAllocFrames_zero]
    simp [eq_comm]
  · rcases pmmAllocFrames_cases p hpos with ⟨start, hle, hclear, heq⟩ | ⟨heq, hnone⟩
    · rw [heq]
      have hrun : p.HasRun n.toNat := ⟨start, hle, hclear⟩
      simp [hrun, hpos.ne']
    · have hrun : ¬ p.HasRun n.toNat := by
        rintro ⟨start, hle, hclear⟩
        obtain ⟨f, h1, h2, hnot⟩ := hnone start hle
        exact hnot (hclear f h1 h2)
      rw [heq]
      simp [hrun, eq_comm]

theorem surfaceCreate_eq_error {t : SurfaceTable} {p : Pmm} {pid w h : UInt32} {e : PmmPanic}
    {i : Fin MAX_SURFACES} (hslot : t.freeSlot = some i) :
    surfaceCreate t p pid w h = .error e ↔ pmmAllocFrames p (surfacePages w h) = .error e := by
  unfold surfaceCreate
  rw [hslot]
  cases pmmAllocFrames p (surfacePages w h) with
  | error e' => simp [bind, Except.bind]
  | ok r => simp [bind, Except.bind]

theorem surfaceCreate_returns {t : SurfaceTable} {p : Pmm} {pid w h : UInt32} {i : Fin MAX_SURFACES}
    (hslot : t.freeSlot = some i) (hpos : (surfacePages w h).toNat ≠ 0)
    (hrun : p.HasRun (surfacePages w h).toNat) :
    ∃ slot t' p', surfaceCreate t p pid w h = .ok (slot, t', p') := by
  cases hcall : surfaceCreate t p pid w h with
  | error e =>
      have herr := (surfaceCreate_eq_error hslot).mp hcall
      rcases (pmmAllocFrames_eq_error.mp herr).2 with hzero | hno
      · exact absurd hzero hpos
      · exact absurd hrun hno
  | ok r =>
      obtain ⟨slot, t', p'⟩ := r
      exact ⟨slot, t', p', rfl⟩

/-! ### Where the two sizes agree -/

section
variable {s : SharedSurface} {start : ℕ}

theorem SharedSurface.OwnsRun.physBase_toNat (hrun : s.OwnsRun start) (hstart : start < FRAMES_TOTAL) :
    s.physBase.toNat = start * 4096 := by
  rw [hrun.physBase_eq]
  exact frameAddr_toNat hstart

/-- The place of the `k`-th pixel, past the end of memory too. -/
theorem pixel_phys (hrun : s.OwnsRun start) (hstart : start < FRAMES_TOTAL)
    (hvirt : s.virtAddrKernel = s.physBase + 0xC0000000) (k : ℕ) :
    (s.virtAddrKernel + UInt32.ofNat k * 4 - 0xC0000000).toNat =
      (4096 * start + 4 * k) % 2 ^ 32 := by
  have hbase := hrun.physBase_toNat hstart
  have hfour : (4 : UInt32).toNat = 4 := rfl
  have hcancel : s.virtAddrKernel + UInt32.ofNat k * 4 - 0xC0000000 =
      s.physBase + UInt32.ofNat k * 4 := by
    rw [hvirt, UInt32.add_assoc, UInt32.add_comm 0xC0000000, ← UInt32.add_assoc, UInt32.add_sub_cancel]
  rw [hcancel, UInt32.toNat_add, UInt32.toNat_mul, UInt32.toNat_ofNat', hbase, hfour]
  omega

/-- **The compositor stays in the pages of a surface** exactly if the size did not wrap. -/
theorem pixelReads_covered_iff (hrun : s.OwnsRun start) (hstart : start < FRAMES_TOTAL)
    (hvirt : s.virtAddrKernel = s.physBase + 0xC0000000) (hpages : s.pages ≠ 0) :
    (∀ addr ∈ s.pixelReads, s.Covers (addr - 0xC0000000)) ↔
      4 * (s.width.toNat * s.height.toNat) + 4095 < 2 ^ 32 := by
  have hle := hrun.le_total
  have htotal := framesTotal_eq
  have hpos : 0 < s.pages := Nat.pos_of_ne_zero hpages
  have hbase := hrun.physBase_toNat hstart
  have hsize : s.pages = _ := surfacePages_toNat s.width s.height
  change start + s.pages ≤ _ at hle
  have hread : ∀ k, s.Covers (s.virtAddrKernel + UInt32.ofNat k * 4 - 0xC0000000) ↔
      4096 * start ≤ (4096 * start + 4 * k) % 2 ^ 32 ∧
      (4096 * start + 4 * k) % 2 ^ 32 + 4 ≤ 4096 * start + 4096 * s.pages := by
    intro k
    unfold SharedSurface.Covers
    rw [pixel_phys hrun hstart hvirt k, hbase, Nat.mul_comm start]
  constructor
  · intro hcovered
    by_contra hwrap
    -- the first pixel past the pages
    have hmem := (SharedSurface.mem_pixelReads (s := s)).mpr ⟨1024 * s.pages, by omega, rfl⟩
    have hlast := (hread _).mp (hcovered _ hmem)
    omega
  · intro hfit addr haddr
    obtain ⟨k, hk, rfl⟩ := SharedSurface.mem_pixelReads.mp haddr
    rw [hread]
    omega

end

section
variable {t : SurfaceTable} {p : Pmm} {pid w h : UInt32}

theorem surfaceFits_of_panic {e : PmmPanic} (herr : surfaceCreate t p pid w h = .error e) :
    SurfaceFits t p pid w h ↔ ¬ p.HasRun (surfaceNeed w h) := by
  unfold SurfaceFits
  rw [herr]
  simp

theorem surfaceFits_of_ok {t' : SurfaceTable} {p' : Pmm} {slot : Option (Fin MAX_SURFACES)}
    (hslot : t.freeSlot ≠ none) (hok : surfaceCreate t p pid w h = .ok (slot, t', p')) :
    SurfaceFits t p pid w h ↔ 4 * (w.toNat * h.toNat) + 4095 < 2 ^ 32 := by
  rcases surfaceCreate_ok hok with ⟨_, hnone, _⟩ |
    ⟨i, s, start, rfl, _, _, rfl, hrun, hstart, rfl, rfl, _, _, hvirt, halloc, _, _⟩
  · exact absurd hnone hslot
  · have hpages : s.pages ≠ 0 := by
      intro hzero
      have herr := (pmmAllocFrames_eq_error (p := p)).mpr ⟨rfl, .inl hzero⟩
      rw [herr] at halloc
      cases halloc
    rw [← pixelReads_covered_iff hrun hstart hvirt hpages]
    unfold SurfaceFits
    rw [hok]
    simp

end

/-- **Surfaces are large enough for the compositor**, and requests panic only for want of memory, exactly
if no slot is free, or the size in bytes is neither zero nor wraps when it is rounded up to pages, or
there is room neither for the pixels nor for the size that the 32-bit arithmetic makes of them. -/
theorem surfaceFits_iff (t : SurfaceTable) (p : Pmm) (pid w h : UInt32) :
    SurfaceFits t p pid w h ↔
      t.freeSlot = none ∨
      (1 ≤ w.toNat * h.toNat ∧ 4 * (w.toNat * h.toNat) + 4095 < 2 ^ 32) ∨
      (¬ p.HasRun ((4 * (w.toNat * h.toNat) + 4095) / 4096) ∧
        ((4 * (w.toNat * h.toNat) + 4095) % 2 ^ 32 < 4096 ∨
          ¬ p.HasRun ((4 * (w.toNat * h.toNat) + 4095) % 2 ^ 32 / 4096))) := by
  have hpages := surfacePages_toNat w h
  have hneed : (4 * (w.toNat * h.toNat) + 4095) / 4096 = surfaceNeed w h := rfl
  rw [hneed, ← hpages]
  cases hslot : t.freeSlot with
  | none =>
      have hnull : surfaceCreate t p pid w h = .ok (none, t, p) := by
        unfold surfaceCreate
        rw [hslot]
      simp [SurfaceFits, hnull]
  | some i =>
      by_cases hroom : (surfacePages w h).toNat = 0 ∨ ¬ p.HasRun (surfacePages w h).toNat
      · -- a panic: excused only if there is no room for the pixels
        have herr : surfaceCreate t p pid w h = .error .noContiguousFrames :=
          (surfaceCreate_eq_error hslot).mpr (pmmAllocFrames_eq_error.mpr ⟨rfl, hroom⟩)
        rw [surfaceFits_of_panic herr]
        constructor
        · intro hno
          refine .inr (.inr ⟨hno, hroom.imp_left fun hzero => ?_⟩)
          omega
        · rintro (hnone | ⟨hpos, hfit⟩ | ⟨hno, _⟩)
          · cases hnone
          · rw [surfaceNeed_eq hfit]
            exact hroom.resolve_left (by omega)
          · exact hno
      · obtain ⟨hpos, hrun⟩ := not_or.mp hroom
        rw [not_not] at hrun
        obtain ⟨slot, t', p', hok⟩ := surfaceCreate_returns hslot hpos hrun
        rw [surfaceFits_of_ok (by simp [hslot]) hok]
        constructor
        · exact fun hfit => .inr (.inl ⟨by omega, hfit⟩)
        · rintro (hnone | ⟨_, hfit⟩ | ⟨_, hsmall | hno⟩)
          · cases hnone
          · exact hfit
          · omega
          · exact absurd hrun hno

/-- A request of 32768 by 32769 pixels is given 32 pages, the size of its first row. -/
theorem surfaceFits_wraps : ¬ SurfaceFits bootSurfaces emptyPmm 7 32768 32769 := by
  intro hfits
  have hmade : (surfaceCreate bootSurfaces emptyPmm 7 32768 32769).toOption.isSome = true := by
    decide +kernel
  cases hcall : surfaceCreate bootSurfaces emptyPmm 7 32768 32769 with
  | error e => simp [hcall, Except.toOption] at hmade
  | ok r =>
      have hslot : bootSurfaces.freeSlot ≠ none := by decide
      have hfit := (surfaceFits_of_ok hslot hcall).mp hfits
      exact absurd hfit (by decide)

end LunaOs
