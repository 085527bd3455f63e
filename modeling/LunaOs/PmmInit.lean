import LunaOs.Pmm
import LunaOs.Lib.Runs
import Mathlib.Algebra.BigOperators.Group.Finset.Basic
import Mathlib.Algebra.Order.BigOperators.Group.Finset
import Mathlib.Order.Interval.Finset.Nat

/-! # `pmm_init` over a Multiboot memory map

`pmm_init` starts from a bitmap of ones, clears the bits of the whole frames it counts in each
available entry above 1 MB and finally sets the bits of the kernel image again.  The memory map is
a list of entries, in the order in which the boot loader wrote them; nothing else is known of it.

`free_frames` grows with every release, whether the bit was still set or not.  It therefore exceeds
the number of clear bits by the number of surplus releases. -/

namespace LunaOs

def MB2_MMAP_AVAILABLE : UInt32 := 1

/-- The fields of an entry of the memory map that `pmm_init` reads. -/
structure MmapEntry where
  baseAddr : UInt64
  length : UInt64
  type : UInt32

/-- The physical end of the kernel image.  The linker script places the image at 1 MB and links it
1 MB above 3 GB, so that it ends within the 1 GB that is left; it is not empty. -/
structure KernelImage where
  endPhys : UInt32
  base_lt : 0x100000 < endPhys.toNat
  le_top : endPhys.toNat ≤ 0x40000000

def KERNEL_PHYS_BASE : ℕ := 0x00100000

/-- `k_end_frame` -/
def KernelImage.endFrame (k : KernelImage) : ℕ :=
  ((k.endPhys + UInt32.ofNat FRAME_SIZE - 1) / UInt32.ofNat FRAME_SIZE).toNat

/-- Base and length of an entry once the first megabyte is skipped. -/
def skipLow (base len : UInt64) : Option (UInt64 × UInt64) :=
  if base < 0x100000 then
    let skip := 0x100000 - base
    if skip ≥ len then none else some (base + skip, len - skip)
  else some (base, len)

/-- The frames the loop over one entry visits before it ends or breaks. -/
def entryFrames (e : MmapEntry) : List ℕ :=
  if e.type ≠ MB2_MMAP_AVAILABLE then []
  else
    match skipLow e.baseAddr e.length with
    | none => []
    | some (base, len) =>
        let frameStart := (base / UInt64.ofNat FRAME_SIZE).toUInt32
        let frameCount := (len / UInt64.ofNat FRAME_SIZE).toUInt32
        let frameEnd := frameStart + frameCount
        (List.range' frameStart.toNat (frameEnd.toNat - frameStart.toNat)).takeWhile
          (· < FRAMES_TOTAL)

namespace Pmm

/-- The variables of `pmm.c` before `pmm_init`. -/
def statics : Pmm := ⟨fun _ => 0#32, 0, 0, 0⟩

/-- `frame_clear(f); free_frames++; total_frames++;` -/
def release (p : Pmm) (frame : ℕ) : Pmm :=
  { p with
    bitmap := frameClear p.bitmap frame
    freeFrames := p.freeFrames + 1
    totalFrames := p.totalFrames + 1 }

/-- `if (!frame_test(f)) { frame_set(f); free_frames--; }` -/
def reserve (p : Pmm) (frame : ℕ) : Pmm :=
  if !frameTest p.bitmap frame then p.take frame else p

end Pmm

/-- The frames `pmm_init` marks as used again. -/
def kernelFrames (k : KernelImage) : List ℕ :=
  List.range' (KERNEL_PHYS_BASE / FRAME_SIZE) (k.endFrame + 1 - KERNEL_PHYS_BASE / FRAME_SIZE)

/-- `pmm_init`: all frames used, the available ones freed, then the kernel image reserved. -/
def pmmInit (k : KernelImage) (entries : List MmapEntry) : Pmm :=
  let p := { Pmm.statics with bitmap := fun _ => 0xFFFFFFFF#32, freeFrames := 0 }
  let p := entries.foldl (fun p e => (entryFrames e).foldl Pmm.release p) p
  (kernelFrames k).foldl Pmm.reserve p

/-! ### The frames of an entry -/

/-- `f` is one of the `length / 4096` frames from `base / 4096` on, in the part of an available
entry above 1 MB, the frame numbers narrowed to 32 bits. -/
def MmapEntry.Releases (e : MmapEntry) (f : ℕ) : Prop :=
  e.type = MB2_MMAP_AVAILABLE ∧ f < FRAMES_TOTAL ∧
    (max e.baseAddr.toNat 0x100000 / 4096) % 2 ^ 32 ≤ f ∧
    f < ((max e.baseAddr.toNat 0x100000 / 4096) % 2 ^ 32 +
      (e.baseAddr.toNat + e.length.toNat - max e.baseAddr.toNat 0x100000) / 4096) % 2 ^ 32

instance (e : MmapEntry) (f : ℕ) : Decidable (e.Releases f) :=
  inferInstanceAs (Decidable (_ ∧ _ ∧ _ ∧ _))

theorem skipLow_eq_none {base len : UInt64} (h : skipLow base len = none) :
    base.toNat + len.toNat ≤ 0x100000 := by
  unfold skipLow at h
  dsimp only at h
  split_ifs at h with hlow hskip
  have hbase : base.toNat < 0x100000 := UInt64.lt_iff_toNat_lt.mp hlow
  have hsub : (0x100000 - base).toNat = 0x100000 - base.toNat :=
    UInt64.toNat_sub_of_le _ _ (UInt64.le_of_lt hlow)
  have hle := UInt64.le_iff_toNat_le.mp hskip
  omega

theorem skipLow_eq_some {base len base' len' : UInt64} (h : skipLow base len = some (base', len')) :
    base'.toNat = max base.toNat 0x100000 ∧
      len'.toNat = base.toNat + len.toNat - max base.toNat 0x100000 := by
  unfold skipLow at h
  dsimp only at h
  split_ifs at h with hlow hskip
  · obtain ⟨rfl, rfl⟩ := Prod.mk.inj (Option.some.inj h)
    have hbase : base.toNat < 0x100000 := UInt64.lt_iff_toNat_lt.mp hlow
    have hsub : (0x100000 - base).toNat = 0x100000 - base.toNat :=
      UInt64.toNat_sub_of_le _ _ (UInt64.le_of_lt hlow)
    have hlt := UInt64.lt_iff_toNat_lt.mp (UInt64.not_le.mp hskip)
    rw [UInt64.toNat_add, UInt64.toNat_sub_of_le _ _ (UInt64.le_of_lt (UInt64.not_le.mp hskip)),
      hsub]
    omega
  · obtain ⟨rfl, rfl⟩ := Prod.mk.inj (Option.some.inj h)
    have hbase : ¬ base.toNat < 0x100000 := fun hlt => hlow (UInt64.lt_iff_toNat_lt.mpr hlt)
    omega

theorem mem_takeWhile_range' {s n N f : ℕ} :
    f ∈ (List.range' s n).takeWhile (· < N) ↔ s ≤ f ∧ f < s + n ∧ f < N := by
  induction n generalizing s with
  | zero =>
      simp only [List.range'_zero, List.takeWhile_nil, List.not_mem_nil, false_iff]
      omega
  | succ n ih =>
      rw [List.range'_succ, List.takeWhile_cons]
      by_cases hs : s < N
      · simp only [hs, decide_true, if_true, List.mem_cons, ih]
        omega
      · simp only [hs, decide_false, Bool.false_eq_true, if_false, List.not_mem_nil, false_iff]
        omega

theorem mem_entryFrames {e : MmapEntry} {f : ℕ} : f ∈ entryFrames e ↔ e.Releases f := by
  unfold entryFrames MmapEntry.Releases
  by_cases htype : e.type = MB2_MMAP_AVAILABLE
  · simp only [htype, ne_eq, not_true_eq_false, if_false, true_and]
    cases hskip : skipLow e.baseAddr e.length with
    | none =>
        have hle := skipLow_eq_none hskip
        simp only [List.not_mem_nil, false_iff]
        omega
    | some part =>
        obtain ⟨base, len⟩ := part
        obtain ⟨hbase, hlen⟩ := skipLow_eq_some hskip
        have hsize : (UInt64.ofNat FRAME_SIZE).toNat = 4096 := rfl
        dsimp only
        rw [mem_takeWhile_range', UInt32.toNat_add, UInt64.toNat_toUInt32, UInt64.toNat_toUInt32,
          UInt64.toNat_div, UInt64.toNat_div, hsize, hbase, hlen]
        omega
  · simp [htype]

theorem entryFrames_nodup (e : MmapEntry) : (entryFrames e).Nodup := by
  unfold entryFrames
  split_ifs
  · exact List.nodup_nil
  · split
    · exact List.nodup_nil
    · exact (List.nodup_range' 1).sublist (List.takeWhile_sublist _)

/-- Frames of the kernel image. -/
theorem KernelImage.endFrame_eq (k : KernelImage) :
    k.endFrame = (k.endPhys.toNat + 4095) / 4096 := by
  unfold KernelImage.endFrame
  have htop := k.le_top
  have hsize : (UInt32.ofNat FRAME_SIZE).toNat = 4096 := rfl
  have hadd : (k.endPhys + UInt32.ofNat FRAME_SIZE).toNat = k.endPhys.toNat + 4096 := by
    rw [UInt32.toNat_add, hsize]
    omega
  rw [UInt32.toNat_div, hsize, UInt32.toNat_sub_of_le _ _ (by
    rw [UInt32.le_iff_toNat_le, hadd]
    exact Nat.le_add_left 1 _), hadd]
  rfl

theorem mem_kernelFrames {k : KernelImage} {f : ℕ} :
    f ∈ kernelFrames k ↔ 256 ≤ f ∧ f ≤ k.endFrame := by
  have hbase := k.base_lt
  have hend := k.endFrame_eq
  have hfirst : KERNEL_PHYS_BASE / FRAME_SIZE = 256 := rfl
  rw [kernelFrames, List.mem_range'_1, hfirst]
  omega

/-! ### The bitmap after `pmm_init` -/

namespace Pmm

/-- Every frame marked as used. -/
theorem clearFrames_allUsed (p : Pmm) (h : p.bitmap = fun _ => 0xFFFFFFFF#32) :
    p.clearFrames = ∅ := by
  rw [Finset.eq_empty_iff_forall_notMem]
  intro f hf
  have hset := (mem_clearFrames.mp hf).2
  rw [frameTest_eq, Bitmap.test, h] at hset
  have hall : ∀ i < 32, (0xFFFFFFFF#32).getLsbD i = true := by decide
  rw [hall _ (Nat.mod_lt f (by decide))] at hset
  cases hset

theorem clearFrames_release (p : Pmm) {f : ℕ} (hf : f < FRAMES_TOTAL) :
    (p.release f).clearFrames = insert f p.clearFrames :=
  Bitmap.clearBelow_clear (by decide) _ hf

theorem clearFrames_foldl_release (p : Pmm) {l : List ℕ} (hl : ∀ f ∈ l, f < FRAMES_TOTAL) :
    (l.foldl release p).clearFrames = p.clearFrames ∪ l.toFinset := by
  induction l generalizing p with
  | nil => exact (Finset.union_empty _).symm
  | cons f l ih =>
      rw [List.foldl_cons, ih _ (fun g hg => hl g (List.mem_cons_of_mem _ hg)),
        clearFrames_release p (hl f List.mem_cons_self), List.toFinset_cons,
        Finset.insert_union, Finset.union_insert]

theorem freeFrames_foldl_release (p : Pmm) (l : List ℕ) :
    (l.foldl release p).freeFrames = p.freeFrames + UInt32.ofNat l.length := by
  induction l generalizing p with
  | nil => exact (UInt32.add_zero _).symm
  | cons f l ih =>
      have hrelease : (p.release f).freeFrames = p.freeFrames + 1 := rfl
      rw [List.foldl_cons, ih, hrelease, List.length_cons, Nat.add_comm, UInt32.ofNat_add,
        UInt32.add_assoc]
      rfl

theorem clearFrames_reserve (p : Pmm) (f : ℕ) : (p.reserve f).clearFrames = p.clearFrames.erase f := by
  unfold reserve
  split_ifs with htest
  · exact clearFrames_take p f
  · refine (Finset.erase_eq_of_notMem fun hmem => ?_).symm
    rw [(mem_clearFrames.mp hmem).2] at htest
    exact htest rfl

/-- `free_frames` is the number of clear bits and `surplus`, in 32 bits. -/
def Counts (p : Pmm) (surplus : ℕ) : Prop :=
  p.freeFrames = UInt32.ofNat (p.clearFrames.card + surplus)

theorem Counts.take {p : Pmm} {surplus f : ℕ} (h : p.Counts surplus) (hf : f ∈ p.clearFrames) :
    (p.take f).Counts surplus := by
  unfold Counts at h ⊢
  have hfree : (p.take f).freeFrames = p.freeFrames - 1 := rfl
  have hcard := Finset.card_erase_add_one hf
  rw [hfree, h, clearFrames_take, ← hcard, Nat.add_right_comm, UInt32.ofNat_add]
  exact UInt32.add_sub_cancel _ _

theorem Counts.reserve {p : Pmm} {surplus : ℕ} (h : p.Counts surplus) {f : ℕ}
    (hf : f < FRAMES_TOTAL) : (p.reserve f).Counts surplus := by
  unfold Pmm.reserve
  split_ifs with htest
  · exact h.take (mem_clearFrames.mpr ⟨hf, by simpa using htest⟩)
  · exact h

theorem foldl_reserve {p : Pmm} {surplus : ℕ} (h : p.Counts surplus) {l : List ℕ}
    (hl : ∀ f ∈ l, f < FRAMES_TOTAL) :
    (l.foldl Pmm.reserve p).Counts surplus ∧
      (l.foldl Pmm.reserve p).clearFrames = p.clearFrames \ l.toFinset := by
  induction l generalizing p with
  | nil => exact ⟨h, Finset.sdiff_empty.symm⟩
  | cons f l ih =>
      obtain ⟨hcounts, hclear⟩ :=
        ih (h.reserve (hl f List.mem_cons_self)) (fun g hg => hl g (List.mem_cons_of_mem _ hg))
      refine ⟨hcounts, ?_⟩
      rw [List.foldl_cons, hclear, clearFrames_reserve, List.toFinset_cons, Finset.sdiff_insert,
        Finset.erase_sdiff_comm]

end Pmm

/-- All frames the walk over the map releases, in order. -/
def releases (entries : List MmapEntry) : List ℕ := entries.flatMap entryFrames

theorem mem_releases {entries : List MmapEntry} {f : ℕ} :
    f ∈ releases entries ↔ ∃ e ∈ entries, e.Releases f := by
  simp only [releases, List.mem_flatMap, mem_entryFrames]

theorem count_releases (entries : List MmapEntry) (f : ℕ) :
    (releases entries).count f = entries.countP fun e => e.Releases f := by
  induction entries with
  | nil => rfl
  | cons e entries ih =>
      rw [releases, List.flatMap_cons, List.count_append, List.countP_cons]
      change _ + (releases entries).count f = _
      rw [ih, (entryFrames_nodup e).count]
      simp only [mem_entryFrames, decide_eq_true_eq]
      exact Nat.add_comm _ _

/-- How often frames are released beyond the first time. -/
def surplusReleases (entries : List MmapEntry) : ℕ :=
  ∑ f ∈ Finset.range FRAMES_TOTAL, ((entries.countP fun e => e.Releases f) - 1)

theorem length_releases (entries : List MmapEntry) :
    (releases entries).length = (releases entries).toFinset.card + surplusReleases entries := by
  have hsub : (releases entries).toFinset ⊆ Finset.range FRAMES_TOTAL := by
    intro f hf
    obtain ⟨e, _, he⟩ := mem_releases.mp (List.mem_toFinset.mp hf)
    exact Finset.mem_range.mpr he.2.1
  have hzero : ∀ f ∉ (releases entries).toFinset, (entries.countP fun e => e.Releases f) = 0 := by
    intro f hf
    rw [← count_releases, List.count_eq_zero]
    exact fun hmem => hf (List.mem_toFinset.mpr hmem)
  have hsurplus : surplusReleases entries =
      ∑ f ∈ (releases entries).toFinset, ((releases entries).count f - 1) := by
    unfold surplusReleases
    simp only [count_releases]
    exact (Finset.sum_subset hsub fun f _ hf => by rw [hzero f hf, Nat.zero_sub]).symm
  rw [hsurplus, ← List.sum_toFinset_count_eq_length, Finset.card_eq_sum_ones,
    ← Finset.sum_add_distrib]
  refine Finset.sum_congr rfl fun f hf => ?_
  have hpos := List.count_pos_iff.mpr (List.mem_toFinset.mp hf)
  omega

/-- **`pmm_init`**: the frames left clear are those some entry releases and the kernel image does not
take back, and `free_frames` exceeds their number by the surplus releases. -/
theorem pmmInit_spec (k : KernelImage) (entries : List MmapEntry) :
    (pmmInit k entries).Counts (surplusReleases entries) ∧
      (pmmInit k entries).clearFrames =
        (releases entries).toFinset \ (kernelFrames k).toFinset := by
  have hwalk : ∀ p : Pmm, entries.foldl (fun p e => (entryFrames e).foldl Pmm.release p) p =
      (releases entries).foldl Pmm.release p := fun p => (List.foldl_flatMap ..).symm
  set start : Pmm := { Pmm.statics with bitmap := fun _ => 0xFFFFFFFF#32, freeFrames := 0 }
    with hstart
  have hnone : start.clearFrames = ∅ := Pmm.clearFrames_allUsed start rfl
  have hlt : ∀ f ∈ releases entries, f < FRAMES_TOTAL := by
    intro f hf
    obtain ⟨e, _, he⟩ := mem_releases.mp hf
    exact he.2.1
  have hwalked : ((releases entries).foldl Pmm.release start).clearFrames =
      (releases entries).toFinset := by
    rw [Pmm.clearFrames_foldl_release start hlt, hnone, Finset.empty_union]
  have hcounts : ((releases entries).foldl Pmm.release start).Counts (surplusReleases entries) := by
    unfold Pmm.Counts
    rw [hwalked, ← length_releases, Pmm.freeFrames_foldl_release]
    exact UInt32.zero_add _
  have hkernel : ∀ f ∈ kernelFrames k, f < FRAMES_TOTAL := by
    intro f hf
    have htop := k.le_top
    have hend := k.endFrame_eq
    have hle := (mem_kernelFrames.mp hf).2
    have htotal := framesTotal_eq
    omega
  obtain ⟨hfinal, hclear⟩ := Pmm.foldl_reserve hcounts hkernel
  unfold pmmInit
  dsimp only
  rw [hwalk]
  exact ⟨hfinal, hclear.trans (by rw [hwalked])⟩

theorem mem_clearFrames_pmmInit {k : KernelImage} {entries : List MmapEntry} {f : ℕ} :
    f ∈ (pmmInit k entries).clearFrames ↔
      (∃ e ∈ entries, e.Releases f) ∧ ¬ (256 ≤ f ∧ f ≤ k.endFrame) := by
  rw [(pmmInit_spec k entries).2, Finset.mem_sdiff, List.mem_toFinset, List.mem_toFinset,
    mem_releases, mem_kernelFrames]

/-! ### The counter and the bitmap -/

theorem card_clearFrames_le (p : Pmm) : p.clearFrames.card ≤ FRAMES_TOTAL :=
  (Finset.card_filter_le _ _).trans_eq (Finset.card_range _)

/-- `free_frames` is the number of clear bits. -/
def Pmm.Exact (p : Pmm) : Prop := p.freeFrames.toNat = p.clearFrames.card

theorem Pmm.exact_iff {p : Pmm} {surplus : ℕ} (h : p.Counts surplus) :
    p.Exact ↔ 2 ^ 32 ∣ surplus := by
  have hle := card_clearFrames_le p
  have htotal := framesTotal_eq
  unfold Pmm.Exact
  unfold Pmm.Counts at h
  rw [h, UInt32.toNat_ofNat']
  omega

theorem Pmm.Exact.counts {p : Pmm} (h : p.Exact) : p.Counts 0 := by
  unfold Pmm.Exact at h
  unfold Pmm.Counts
  rw [Nat.add_zero, ← h, UInt32.ofNat_toNat]

/-- `pmm_alloc_frame` called over and over, as long as it returns. -/
def allocTimes (p : Pmm) (n : ℕ) : Option Pmm :=
  Runs.haltingRun (fun p (_ : Unit) => (pmmAllocFrame p).toOption.map Prod.snd) p
    (List.replicate n ())

theorem Pmm.Exact.take {p : Pmm} (h : p.Exact) {f : ℕ} (hf : f ∈ p.clearFrames) : (p.take f).Exact :=
  (Pmm.exact_iff (h.counts.take hf)).mpr (Nat.dvd_zero _)

/-- An exact counter stays exact. -/
theorem Pmm.Exact.pmmAllocFrame {p p' : Pmm} (h : p.Exact) {phys : UInt32}
    (halloc : pmmAllocFrame p = .ok (phys, p')) : p'.Exact := by
  rcases pmmAllocFrame_cases p with ⟨_, herr⟩ | ⟨_, _, herr⟩ | ⟨f, hf, _, hok⟩
  · rw [herr] at halloc
    cases halloc
  · rw [herr] at halloc
    cases halloc
  · rw [hok] at halloc
    obtain ⟨_, rfl⟩ := Prod.mk.inj (Except.ok.inj halloc)
    exact h.take hf

theorem Pmm.Exact.freeFrames_eq_zero_iff {p : Pmm} (h : p.Exact) :
    p.freeFrames = 0 ↔ p.clearFrames = ∅ := by
  rw [← Finset.card_eq_zero, ← h, ← UInt32.toNat_inj]
  rfl

/-- What an exact counter makes of `pmm_alloc_frame`. -/
theorem Pmm.Exact.panics {p : Pmm} (h : p.Exact) :
    LunaOs.pmmAllocFrame p ≠ .error .bitmapInconsistent ∧
      (LunaOs.pmmAllocFrame p = .error .outOfMemory ↔ p.clearFrames = ∅) := by
  rw [← h.freeFrames_eq_zero_iff]
  rcases pmmAllocFrame_cases p with ⟨hzero, herr⟩ | ⟨hzero, hnone, _⟩ | ⟨f, hf, hzero, hok⟩
  · rw [herr]
    exact ⟨by simp, iff_of_true rfl hzero⟩
  · exact absurd (h.freeFrames_eq_zero_iff.mpr hnone) hzero
  · rw [hok]
    exact ⟨by simp, iff_of_false (by simp) hzero⟩

/-- **`free_frames` is right after `pmm_init`**, and every later allocation panics only when no frame
is clear, exactly when the number of surplus releases is a multiple of 2^32. -/
theorem pmmInit_exact_iff (k : KernelImage) (entries : List MmapEntry) :
    ((pmmInit k entries).freeFrames.toNat = (pmmInit k entries).clearFrames.card ∧
      ∀ n p, allocTimes (pmmInit k entries) n = some p →
        pmmAllocFrame p ≠ .error .bitmapInconsistent ∧
          (pmmAllocFrame p = .error .outOfMemory ↔ p.clearFrames = ∅)) ↔
      2 ^ 32 ∣ surplusReleases entries := by
  rw [← Pmm.exact_iff (pmmInit_spec k entries).1]
  constructor
  · exact fun h => h.1
  · intro hexact
    refine ⟨hexact, fun n p hrun => ?_⟩
    have hp : p.Exact := by
      refine Runs.haltingRun_invariant ?_ hexact hrun
      intro q _ q' hq hstep
      cases halloc : pmmAllocFrame q with
      | error e =>
          rw [halloc] at hstep
          cases hstep
      | ok r =>
          rw [halloc] at hstep
          obtain rfl := Option.some.inj hstep
          exact hq.pmmAllocFrame halloc
    exact hp.panics

/-- At least `n` frames can be allocated one after the other. -/
def Pmm.Room (p : Pmm) (n : ℕ) : Prop := p.Exact ∧ n ≤ p.clearFrames.card

theorem Pmm.Room.mono {p : Pmm} {m n : ℕ} (h : p.Room n) (hle : m ≤ n) : p.Room m :=
  ⟨h.1, hle.trans h.2⟩

theorem Pmm.Room.alloc {p : Pmm} {n : ℕ} (h : p.Room (n + 1)) :
    ∃ phys p', LunaOs.pmmAllocFrame p = .ok (phys, p') ∧ p'.Room n := by
  obtain ⟨hexact, hcard⟩ := h
  rcases pmmAllocFrame_cases p with ⟨hzero, _⟩ | ⟨_, hnone, _⟩ | ⟨f, hf, _, hok⟩
  · rw [hexact.freeFrames_eq_zero_iff.mp hzero, Finset.card_empty] at hcard
    exact absurd hcard (Nat.not_succ_le_zero n)
  · rw [hnone, Finset.card_empty] at hcard
    exact absurd hcard (Nat.not_succ_le_zero n)
  · refine ⟨_, _, hok, hexact.pmmAllocFrame hok, ?_⟩
    obtain ⟨g, hg, _, hclear, _⟩ := pmmAllocFrame_ok hok
    rw [hclear, Finset.card_erase_of_mem hg]
    exact Nat.le_sub_one_of_lt hcard

/-- A kernel image of half a megabyte. -/
def smallKernel : KernelImage := ⟨0x180000, by decide, by decide⟩

/-- One available frame, reported twice. -/
def doubledMap : List MmapEntry := List.replicate 2 ⟨0x200000, 0x1000, MB2_MMAP_AVAILABLE⟩

theorem doubledMap_releases {f : ℕ} :
    (⟨0x200000, 0x1000, MB2_MMAP_AVAILABLE⟩ : MmapEntry).Releases f ↔ f = 512 := by
  have hbase : (0x200000 : UInt64).toNat = 0x200000 := rfl
  have hlen : (0x1000 : UInt64).toNat = 0x1000 := rfl
  have htotal := framesTotal_eq
  unfold MmapEntry.Releases
  rw [hbase, hlen]
  constructor
  · rintro ⟨_, _, h1, h2⟩
    omega
  · rintro rfl
    exact ⟨rfl, by omega, by decide, by decide⟩

theorem doubledMap_clearFrames : (pmmInit smallKernel doubledMap).clearFrames = {512} := by
  have hend : smallKernel.endFrame = 384 := by decide
  ext f
  rw [mem_clearFrames_pmmInit, hend, Finset.mem_singleton]
  constructor
  · rintro ⟨⟨e, he, hf⟩, _⟩
    rw [List.eq_of_mem_replicate he, doubledMap_releases] at hf
    exact hf
  · rintro rfl
    exact ⟨⟨_, List.mem_cons_self, doubledMap_releases.mpr rfl⟩, by omega⟩

theorem doubledMap_surplus : surplusReleases doubledMap = 1 := by
  unfold surplusReleases doubledMap
  rw [Finset.sum_eq_single 512]
  · rw [List.countP_replicate, if_pos (decide_eq_true (doubledMap_releases.mpr rfl))]
  · intro f _ hne
    have hnot : ¬ decide (MmapEntry.Releases ⟨0x200000, 0x1000, MB2_MMAP_AVAILABLE⟩ f) = true :=
      fun hf => hne (doubledMap_releases.mp (of_decide_eq_true hf))
    rw [List.countP_replicate, if_neg hnot, Nat.zero_sub]
  · intro hnotin
    exact absurd (Finset.mem_range.mpr (by decide)) hnotin

theorem doubledMap_freeFrames : (pmmInit smallKernel doubledMap).freeFrames = 2 := by
  have hcounts := (pmmInit_spec smallKernel doubledMap).1
  unfold Pmm.Counts at hcounts
  rw [doubledMap_clearFrames, doubledMap_surplus] at hcounts
  exact hcounts

/-- The one frame can be allocated. -/
theorem doubledMap_alloc : ∃ phys p, pmmAllocFrame (pmmInit smallKernel doubledMap) = .ok (phys, p) := by
  rcases pmmAllocFrame_cases (pmmInit smallKernel doubledMap) with
    ⟨hzero, _⟩ | ⟨_, hnone, _⟩ | ⟨f, _, _, hok⟩
  · rw [doubledMap_freeFrames] at hzero
    exact absurd hzero (by decide)
  · rw [doubledMap_clearFrames] at hnone
    exact absurd hnone (Finset.singleton_ne_empty _)
  · exact ⟨_, _, hok⟩

/-- With one frame reported twice the counter is off by one, and the second allocation finds no frame
and panics over the bitmap. -/
theorem doubledMap_inconsistent :
    (pmmInit smallKernel doubledMap).freeFrames.toNat ≠
        (pmmInit smallKernel doubledMap).clearFrames.card ∧
      ∃ p, allocTimes (pmmInit smallKernel doubledMap) 1 = some p ∧
        pmmAllocFrame p = .error .bitmapInconsistent := by
  refine ⟨by rw [doubledMap_freeFrames, doubledMap_clearFrames]; decide, ?_⟩
  obtain ⟨phys, p, hok⟩ := doubledMap_alloc
  refine ⟨p, Runs.haltingRun_cons.mpr ⟨p, by rw [hok]; rfl, rfl⟩, ?_⟩
  obtain ⟨f, hf, _, hclear, hfree⟩ := pmmAllocFrame_ok hok
  rw [doubledMap_clearFrames, Finset.mem_singleton] at hf
  rw [doubledMap_clearFrames, hf, Finset.erase_singleton] at hclear
  rw [doubledMap_freeFrames] at hfree
  rcases pmmAllocFrame_cases p with ⟨hzero, _⟩ | ⟨_, _, herr⟩ | ⟨g, hg, _⟩
  · rw [hfree] at hzero
    exact absurd hzero (by decide)
  · exact herr
  · rw [hclear] at hg
    exact absurd hg (Finset.notMem_empty g)

/-- One megabyte of available memory. -/
def roomyMap : List MmapEntry := [⟨0x200000, 0x100000, MB2_MMAP_AVAILABLE⟩]

theorem roomyMap_releases {f : ℕ} :
    (⟨0x200000, 0x100000, MB2_MMAP_AVAILABLE⟩ : MmapEntry).Releases f ↔ 512 ≤ f ∧ f < 768 := by
  have hbase : (0x200000 : UInt64).toNat = 0x200000 := rfl
  have hlen : (0x100000 : UInt64).toNat = 0x100000 := rfl
  have htotal := framesTotal_eq
  unfold MmapEntry.Releases
  rw [hbase, hlen]
  constructor
  · rintro ⟨_, _, h1, h2⟩
    omega
  · rintro ⟨h1, h2⟩
    exact ⟨rfl, by omega, by omega, by omega⟩

/-- One entry that releases the frames from `a` to `a + n`, all behind the kernel image. -/
theorem pmmInit_single {k : KernelImage} {e : MmapEntry} {a n : ℕ}
    (he : ∀ f, e.Releases f ↔ a ≤ f ∧ f < a + n) (hk : k.endFrame < a) :
    (pmmInit k [e]).clearFrames = Finset.Ico a (a + n) ∧ (pmmInit k [e]).Room n := by
  have hclear : (pmmInit k [e]).clearFrames = Finset.Ico a (a + n) := by
    ext f
    rw [mem_clearFrames_pmmInit, Finset.mem_Ico]
    constructor
    · rintro ⟨⟨e', he', hf⟩, _⟩
      rw [List.mem_singleton.mp he', he] at hf
      exact hf
    · intro hf
      exact ⟨⟨_, List.mem_cons_self, (he f).mpr hf⟩, by omega⟩
  have hsurplus : surplusReleases [e] = 0 := by
    refine Finset.sum_eq_zero fun f _ => ?_
    have hle : ([e].countP fun e => e.Releases f) ≤ 1 := List.countP_le_length
    omega
  refine ⟨hclear, (Pmm.exact_iff (pmmInit_spec k [e]).1).mpr ?_, ?_⟩
  · rw [hsurplus]
    exact Nat.dvd_zero _
  · rw [hclear, Nat.card_Ico, Nat.add_sub_cancel_left]

theorem roomyMap_room : (pmmInit smallKernel roomyMap).Room 256 :=
  (pmmInit_single (fun _ => roomyMap_releases) (by decide)).2

end LunaOs
