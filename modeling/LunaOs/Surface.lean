import LunaOs.PmmCounter
import Mathlib.Order.Interval.Finset.Nat

/-! # The shared surfaces of `ipc/shared_surface.c`

A table of 32 slots.  A surface owns a run of frames from `pmm_alloc_frames`, and the kernel reads
its pixels at `phys_base + 0xC0000000`.  The page count is computed in 32 bits, once when the surface
is made and once more when it is destroyed. -/

namespace LunaOs

def MAX_SURFACES : ℕ := 32

/-- `SharedSurface` -/
structure SharedSurface where
  id : UInt32
  ownerPid : UInt32
  width : UInt32
  height : UInt32
  pitch : UInt32
  virtAddrKernel : UInt32
  virtAddrUser : UInt32
  physBase : UInt32
  active : Bool

/-- The static state of `shared_surface.c`. -/
structure SurfaceTable where
  surfaces : Fin MAX_SURFACES → SharedSurface
  nextSurfaceId : UInt32

def surfaceInit (t : SurfaceTable) : SurfaceTable :=
  { t with surfaces := fun _ => ⟨0, 0, 0, 0, 0, 0, 0, 0, false⟩ }

/-- `(w * h * 4 + 4095) / 4096` -/
def surfacePages (w h : UInt32) : UInt32 := (w * h * 4 + 4095) / 4096

/-- The first slot that is not active. -/
def SurfaceTable.freeSlot (t : SurfaceTable) : Option (Fin MAX_SURFACES) :=
  (List.finRange MAX_SURFACES).find? fun i => !(t.surfaces i).active

/-- The new surface, or `none` for `NULL`, when no slot is free. -/
def surfaceCreate (t : SurfaceTable) (p : Pmm) (pid w h : UInt32) :
    Except PmmPanic (Option (Fin MAX_SURFACES) × SurfaceTable × Pmm) :=
  match t.freeSlot with
  | none => .ok (none, t, p)
  | some i => do
      let (physBase, p) ← pmmAllocFrames p (surfacePages w h)
      let s : SharedSurface :=
        { id := t.nextSurfaceId, ownerPid := pid, width := w, height := h, pitch := w * 4,
          virtAddrKernel := physBase + 0xC0000000, virtAddrUser := 0, physBase, active := true }
      .ok (some i, ⟨Function.update t.surfaces i s, t.nextSurfaceId + 1⟩, p)

/-- The first active slot with the id. -/
def surfaceGet (t : SurfaceTable) (id : UInt32) : Option (Fin MAX_SURFACES) :=
  (List.finRange MAX_SURFACES).find? fun i => (t.surfaces i).active && (t.surfaces i).id == id

/-- The frame of page `j` of a surface. -/
def SharedSurface.page (s : SharedSurface) (j : ℕ) : UInt32 := s.physBase + UInt32.ofNat j * 4096

/-- `surface_destroy`: the pages are freed one by one. -/
def surfaceDestroy (t : SurfaceTable) (p : Pmm) (id : UInt32) : SurfaceTable × Pmm :=
  match surfaceGet t id with
  | none => (t, p)
  | some i =>
      let s := t.surfaces i
      let pages := List.range (surfacePages s.width s.height).toNat
      ({ t with surfaces := Function.update t.surfaces i { s with active := false } },
        pages.foldl (fun p j => pmmFreeFrame p (s.page j)) p)

/-! ### Frames of the surfaces -/

/-- An active surface owns the run of frames its fields describe. -/
structure SharedSurface.OwnsRun (s : SharedSurface) (start : ℕ) : Prop where
  physBase_eq : s.physBase = frameAddr start
  le_total : start + (surfacePages s.width s.height).toNat ≤ FRAMES_TOTAL

theorem SharedSurface.OwnsRun.page {s : SharedSurface} {start : ℕ} (h : s.OwnsRun start) {j : ℕ}
    (hj : j < (surfacePages s.width s.height).toNat) : s.page j = frameAddr (start + j) := by
  have hle := h.le_total
  unfold SharedSurface.page
  rw [h.physBase_eq, frameAddr_add (by omega)]

theorem SharedSurface.OwnsRun.clearFrames_release {s : SharedSurface} {start : ℕ} (h : s.OwnsRun start)
    (p : Pmm) :
    ((List.range (surfacePages s.width s.height).toNat).foldl
        (fun p j => pmmFreeFrame p (s.page j)) p).clearFrames =
      p.clearFrames ∪ Finset.Ico start (start + (surfacePages s.width s.height).toNat) := by
  have hle := h.le_total
  have hframe : ∀ j < (surfacePages s.width s.height).toNat, frameOf (s.page j) = start + j := by
    intro j hj
    rw [h.page hj, frameOf_frameAddr (by omega)]
  rw [Pmm.clearFrames_foldl_freeFrame]
  congr 1
  ext f
  simp only [List.mem_toFinset, List.mem_map, List.mem_range, Finset.mem_Ico]
  constructor
  · rintro ⟨j, hj, rfl⟩
    rw [hframe j hj]
    omega
  · rintro ⟨h1, h2⟩
    refine ⟨f - start, by omega, ?_⟩
    rw [hframe _ (by omega)]
    omega

/-- A new surface stands in a slot that was free and owns frames that were clear. -/
theorem surfaceCreate_ok {t t' : SurfaceTable} {p p' : Pmm} {pid w h : UInt32}
    {slot : Option (Fin MAX_SURFACES)} (hok : surfaceCreate t p pid w h = .ok (slot, t', p')) :
    (slot = none ∧ t.freeSlot = none ∧ t' = t ∧ p' = p) ∨
    ∃ i s start, slot = some i ∧ t.freeSlot = some i ∧ s.active = true ∧
      t' = ⟨Function.update t.surfaces i s, t.nextSurfaceId + 1⟩ ∧ s.OwnsRun start ∧
      start < FRAMES_TOTAL ∧ s.width = w ∧ s.height = h ∧ s.id = t.nextSurfaceId ∧ s.ownerPid = pid ∧
      s.virtAddrKernel = s.physBase + 0xC0000000 ∧
      pmmAllocFrames p (surfacePages w h) = .ok (s.physBase, p') ∧
      (∀ f, start ≤ f → f < start + (surfacePages w h).toNat → f ∈ p.clearFrames) ∧
      p'.clearFrames = p.clearFrames \ Finset.Ico start (start + (surfacePages w h).toNat) := by
  unfold surfaceCreate at hok
  cases hslot : t.freeSlot with
  | none =>
      rw [hslot] at hok
      cases hok
      exact .inl ⟨rfl, rfl, rfl, rfl⟩
  | some i =>
      rw [hslot] at hok
      obtain ⟨⟨physBase, pmm⟩, halloc, hret⟩ := bind_eq_ok hok
      cases hret
      obtain ⟨start, hle, hlt, rfl, hclear, hpmm, _⟩ := PmmClient.allocFrames_ok halloc
      have hrun : (List.range' start (surfacePages w h).toNat).toFinset =
          Finset.Ico start (start + (surfacePages w h).toNat) := by
        ext f
        simp [List.mem_range'_1]
      rw [hrun] at hpmm
      exact .inr ⟨i, _, start, rfl, rfl, rfl, rfl, ⟨rfl, hle⟩, hlt, rfl, rfl, rfl, rfl, rfl,
        halloc, hclear, hpmm⟩

theorem surfaceDestroy_cases (t : SurfaceTable) (p : Pmm) (id : UInt32) :
    (surfaceGet t id = none ∧ surfaceDestroy t p id = (t, p)) ∨
    ∃ i, surfaceGet t id = some i ∧ (t.surfaces i).active = true ∧ (t.surfaces i).id = id ∧
      surfaceDestroy t p id =
        ({ t with surfaces := Function.update t.surfaces i { t.surfaces i with active := false } },
          (List.range (surfacePages (t.surfaces i).width (t.surfaces i).height).toNat).foldl
            (fun p j => pmmFreeFrame p ((t.surfaces i).page j)) p) := by
  unfold surfaceDestroy
  cases hget : surfaceGet t id with
  | none => exact .inl ⟨rfl, rfl⟩
  | some i =>
      have hfound := List.find?_some hget
      rw [Bool.and_eq_true, beq_iff_eq] at hfound
      exact .inr ⟨i, rfl, hfound.1, hfound.2, rfl⟩

end LunaOs
