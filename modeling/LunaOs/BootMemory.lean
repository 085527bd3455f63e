import LunaOs.Multiboot
import LunaOs.PmmReserved
import LunaOs.PmmRun

/-! # From the boot information to the frames

`kmain` parses the boot information and hands the entries to `pmm_init`.  A map as firmware reports it
has no overlaps, starts its available entries at a page and has room in the array.  On such a map the
parts fit together: the frames that are free are the frames of available memory with a number above
`k_end_frame` and below 2^20, the counter is their number, all of them can be allocated one by one,
whatever is allocated and freed before, and an allocation of several fails only when no row of them is
left (`boot_memory`). -/

namespace LunaOs

open ByteMem

/-- The entries of all memory-map tags. -/
def reportedMap (mem : UInt32 → UInt8) (tags : List UInt32) : List MmapEntry := tags.flatMap (tagEntries mem)

/-- No two entries share a byte, and available entries start at a page, below 16 TB. -/
structure SoundMap (entries : List MmapEntry) : Prop where
  apart : entries.Pairwise fun e e' => ∀ a, ¬ (e.Covers a ∧ e'.Covers a)
  pages : ∀ e ∈ entries, e.type = MB2_MMAP_AVAILABLE → e.baseAddr.toNat % FRAME_SIZE = 0
  below : ∀ e ∈ entries, e.type = MB2_MMAP_AVAILABLE → e.baseAddr.toNat + e.length.toNat < 2 ^ 44

/-- All bytes of the frame are available, and its number is below 2^20 and above `k_end_frame`, which is itself
reserved. -/
def FreeAtBoot (k : KernelImage) (entries : List MmapEntry) (f : ℕ) : Prop :=
  f < FRAMES_TOTAL ∧ k.endFrame < f ∧ ∀ a, InFrame f a → Available entries a

variable {k : KernelImage} {entries : List MmapEntry}

theorem lastAlloc_foldl {ι : Type} {step : Pmm → ι → Pmm} (hstep : ∀ p i, (step p i).lastAlloc = p.lastAlloc)
    (p : Pmm) (l : List ι) : (l.foldl step p).lastAlloc = p.lastAlloc := by
  induction l generalizing p with
  | nil => rfl
  | cons i l ih => exact (ih (step p i)).trans (hstep p i)

theorem lastAlloc_pmmInit (k : KernelImage) (entries : List MmapEntry) : (pmmInit k entries).lastAlloc = 0 := by
  have hreserve : ∀ (p : Pmm) (f : ℕ), (p.reserve f).lastAlloc = p.lastAlloc := by
    intro p f
    unfold Pmm.reserve
    split_ifs
    · rfl
    · rfl
  have hrelease : ∀ (p : Pmm) (e : MmapEntry),
      ((entryFrames e).foldl Pmm.release p).lastAlloc = p.lastAlloc :=
    fun p e => @lastAlloc_foldl ℕ Pmm.release (fun _ _ => rfl) p (entryFrames e)
  unfold pmmInit
  exact (lastAlloc_foldl hreserve _ _).trans (lastAlloc_foldl hrelease _ _)

namespace SoundMap

/-- At a page boundary rounding changes nothing. -/
theorem releases_iff (h : SoundMap entries) {e : MmapEntry} (he : e ∈ entries) {f : ℕ} :
    e.Releases f ↔ e.type = MB2_MMAP_AVAILABLE ∧ f < FRAMES_TOTAL ∧ 256 ≤ f ∧
      e.baseAddr.toNat ≤ f * 4096 ∧ (f + 1) * 4096 ≤ e.baseAddr.toNat + e.length.toNat := by
  unfold MmapEntry.Releases
  refine and_congr_right fun htype => and_congr_right fun _ => ?_
  have hpage : e.baseAddr.toNat % 4096 = 0 := h.pages e he htype
  have hbelow := h.below e he htype
  have hlen := e.length.toNat_lt
  rcases Nat.le_total e.baseAddr.toNat 0x100000 with hlow | hhigh
  · rw [Nat.max_eq_right hlow]
    omega
  · rw [Nat.max_eq_left hhigh]
    omega

theorem exists_releases (h : SoundMap entries) {f : ℕ} (hf : f < FRAMES_TOTAL) (hlow : 256 ≤ f)
    (havail : ∀ a, InFrame f a → Available entries a) : ∃ e ∈ entries, e.Releases f := by
  -- the entry of the last byte starts at a page, so it has the others too
  have hlast : InFrame f (f * 4096 + 4095) := by
    have hsize : FRAME_SIZE = 4096 := rfl
    unfold InFrame
    rw [hsize]
    omega
  obtain ⟨e, he, htype, hcovers⟩ := havail _ hlast
  unfold MmapEntry.Covers at hcovers
  have hpage : e.baseAddr.toNat % 4096 = 0 := h.pages e he htype
  exact ⟨e, he, (h.releases_iff he).mpr ⟨htype, hf, hlow, by omega, by omega⟩⟩

theorem covers_of_releases (h : SoundMap entries) {e : MmapEntry} (he : e ∈ entries) {f a : ℕ}
    (hf : e.Releases f) (ha : InFrame f a) : e.Covers a := by
  obtain ⟨_, _, _, hstart, hend⟩ := (h.releases_iff he).mp hf
  obtain ⟨h1, h2⟩ : f * 4096 ≤ a ∧ a < (f + 1) * 4096 := ha
  exact ⟨by omega, by omega⟩

theorem mem_clearFrames (h : SoundMap entries) {f : ℕ} :
    f ∈ (pmmInit k entries).clearFrames ↔ FreeAtBoot k entries f := by
  have hend := k.endFrame_eq
  have hbase := k.base_lt
  rw [mem_clearFrames_pmmInit]
  constructor
  · rintro ⟨⟨e, he, hf⟩, hout⟩
    obtain ⟨htype, hlt, hlow, _⟩ := (h.releases_iff he).mp hf
    exact ⟨hlt, by omega, fun a ha => ⟨e, he, htype, h.covers_of_releases he hf ha⟩⟩
  · rintro ⟨hlt, hbehind, havail⟩
    exact ⟨h.exists_releases hlt (by omega) havail, by omega⟩

/-- Of entries apart from each other only one can meet a condition that puts the same byte into it. -/
theorem countP_le_one {l : List MmapEntry}
    (hl : l.Pairwise fun e e' => ∀ a, ¬ (e.Covers a ∧ e'.Covers a)) {q : MmapEntry → Bool} {a : ℕ}
    (hq : ∀ e ∈ l, q e = true → e.Covers a) : l.countP q ≤ 1 := by
  induction hl with
  | nil => exact Nat.zero_le 1
  | @cons e l hhead _ ih =>
      have hrest := ih fun e' he' => hq e' (List.mem_cons_of_mem _ he')
      rw [List.countP_cons]
      by_cases he : q e = true
      · have hzero : l.countP q = 0 := by
          rw [List.countP_eq_zero]
          exact fun e' he' hqe' =>
            hhead e' he' a ⟨hq e List.mem_cons_self he, hq e' (List.mem_cons_of_mem _ he') hqe'⟩
        rw [hzero, if_pos he]
      · rwa [if_neg he]

theorem surplusReleases_eq_zero (h : SoundMap entries) : surplusReleases entries = 0 := by
  unfold surplusReleases
  refine Finset.sum_eq_zero fun f _ => Nat.sub_eq_zero_of_le ?_
  refine countP_le_one h.apart (a := f * 4096) fun e he hf => ?_
  refine h.covers_of_releases he (of_decide_eq_true hf) ⟨le_rfl, ?_⟩
  show f * 4096 < (f + 1) * 4096
  omega

theorem inStep (h : SoundMap entries) (k : KernelImage) : (pmmInit k entries).InStep where
  counted := (Pmm.exact_iff (pmmInit_spec k entries).1).mpr (h.surplusReleases_eq_zero ▸ Nat.dvd_zero _)
  hint := (lastAlloc_pmmInit k entries).trans_le (Nat.zero_le _)

/-- Nothing else claims a byte of an available entry. -/
theorem unclaimed (h : SoundMap entries) {e r : MmapEntry} (he : e ∈ entries) (hr : r ∈ entries)
    (hne : e ≠ r) {a : ℕ} (ha : e.Covers a) : ¬ r.Covers a := by
  have : Std.Symm fun e e' : MmapEntry => ∀ a, ¬ (e.Covers a ∧ e'.Covers a) :=
    ⟨fun _ _ hnot b hb => hnot b hb.symm⟩
  exact fun hra => h.apart.forall he hr hne a ⟨ha, hra⟩

theorem usable (h : SoundMap entries) {f : ℕ} (hf : f ∈ (pmmInit k entries).clearFrames) :
    UsableFrame k entries f := by
  obtain ⟨⟨e, he, hrel⟩, _⟩ := mem_clearFrames_pmmInit.mp hf
  obtain ⟨_, hbehind, havail⟩ := h.mem_clearFrames.mp hf
  have hend := k.endFrame_eq
  have hbase := k.base_lt
  have hfirst : KERNEL_PHYS_BASE = 0x100000 := rfl
  refine ⟨havail, ?_, ?_, ?_⟩
  · rintro a ⟨ha, _⟩
    have ha' : f * 4096 ≤ a := ha
    omega
  · rintro a ⟨ha, _⟩ ⟨_, hlt⟩
    have ha' : f * 4096 ≤ a := ha
    omega
  · intro a ha r hr htype
    exact h.unclaimed he hr (fun heq => htype (heq ▸ hrel.1)) (h.covers_of_releases he hrel ha)

end SoundMap

/-! ### Runs -/

theorem PmmClient.step_pmm {s s' : PmmClient} {op : PmmOp} (h : s.step op = some s') :
    pmmStep s.pmm op = some s'.pmm := by
  unfold PmmClient.step at h
  unfold pmmStep
  cases op with
  | allocFrame =>
      dsimp only at h ⊢
      split at h
      · obtain rfl := Option.some.inj h
        rename_i hok
        rw [hok]
        rfl
      · cases h
  | allocFrames n =>
      dsimp only at h ⊢
      split at h
      · obtain rfl := Option.some.inj h
        rename_i hok
        rw [hok]
        rfl
      · cases h
  | freeFrame phys =>
      dsimp only at h ⊢
      split_ifs at h
      obtain rfl := Option.some.inj h
      rfl

theorem PmmClient.inStep_run {p : Pmm} (h : p.InStep) {ops : List PmmOp} {s : PmmClient}
    (hrun : Runs.haltingRun PmmClient.step ⟨p, []⟩ ops = some s) : s.pmm.InStep := by
  have hkeep : ∀ s op s', s.pmm.InStep → PmmClient.step s op = some s' → s'.pmm.InStep :=
    fun _ _ _ hs hstep => hs.step (PmmClient.step_pmm hstep)
  exact Runs.haltingRun_invariant hkeep h hrun

/-- Entries of 24 bytes are read at the stride that the block says. -/
theorem recordsAt_of_stride {mem : UInt32 → UInt8} {tags : List UInt32}
    (hstride : ∀ t ∈ tags, load32 mem t = MB2_TAG_MMAP → entrySize mem t = 24) :
    tags.flatMap (recordsAt mem 24) = reportedMap mem tags := by
  refine List.flatMap_congr fun t ht => ?_
  unfold tagEntries
  by_cases htype : load32 mem t = MB2_TAG_MMAP
  · rw [hstride t ht htype]
    rfl
  · unfold recordsAt
    rw [if_neg htype, if_neg htype]

/-- **From the bytes of the boot information to the frames**: on a well-formed block whose map is sound,
`kmain` comes to its frames without a fault.  Exactly the available frames above `k_end_frame` and below 2^20
are free, and `free_frames` is their number.  In every run of allocations and releases after that the frames
held are distinct, usable and among them, `pmm_alloc_frame` panics exactly when all of them are held, and
`pmm_alloc_frames` when every row of `n` frames has one that is not among them or is held. -/
theorem boot_memory (mem : UInt32 → UInt8) (phys : UInt32) (tags : List UInt32) (k : KernelImage)
    (hblock : WellFormedBlock mem (phys + KERNEL_VIRT_BASE) tags)
    (hstride : ∀ t ∈ tags, load32 mem t = MB2_TAG_MMAP → entrySize mem t = 24)
    (hroom : (reportedMap mem tags).length ≤ MAX_MMAP_ENTRIES) (hmap : SoundMap (reportedMap mem tags)) :
    ∃ turns w, parseMultiboot2 mem phys turns = some (.ok w) ∧
      (∀ f, f ∈ (pmmInit k w.boot.mmapEntries).clearFrames ↔ FreeAtBoot k (reportedMap mem tags) f) ∧
      (pmmInit k w.boot.mmapEntries).freeFrames.toNat = (pmmInit k w.boot.mmapEntries).clearFrames.card ∧
      ∀ ops s, Runs.haltingRun PmmClient.step ⟨pmmInit k w.boot.mmapEntries, []⟩ ops = some s →
        s.held.Nodup ∧
        (∀ f ∈ s.held, FreeAtBoot k (reportedMap mem tags) f ∧ UsableFrame k (reportedMap mem tags) f) ∧
        ((∃ e, pmmAllocFrame s.pmm = .error e) ↔ ∀ f, FreeAtBoot k (reportedMap mem tags) f → f ∈ s.held) ∧
        ∀ n, 1 ≤ n.toNat → ((∃ e, pmmAllocFrames s.pmm n = .error e) ↔
          ∀ start, start + n.toNat ≤ 2 ^ 20 → ∃ f, start ≤ f ∧ f < start + n.toNat ∧
            (FreeAtBoot k (reportedMap mem tags) f → f ∈ s.held)) := by
  obtain ⟨turns, w, hparse, _, _, hentries⟩ := parseMultiboot2_wellFormed hblock
  have hread : w.boot.mmapEntries = reportedMap mem tags := by
    rw [hentries, recordsAt_of_stride hstride]
    exact List.take_of_length_le hroom
  have hinit := hmap.inStep k
  refine ⟨turns, w, hparse, ?_⟩
  rw [hread]
  refine ⟨fun f => hmap.mem_clearFrames, hinit.counted, fun ops s hrun => ?_⟩
  have howns := PmmClient.owns_run _ hrun
  have hfree : ∀ f, f ∈ (pmmInit k (reportedMap mem tags)).clearFrames ↔
      FreeAtBoot k (reportedMap mem tags) f := fun f => hmap.mem_clearFrames
  refine ⟨howns.nodup, fun f hf => ?_, ?_, fun n hn => ?_⟩
  · have hclear := howns.mem_free f hf
    exact ⟨(hfree f).mp hclear, hmap.usable hclear⟩
  · rw [howns.allocFrame_error_iff (PmmClient.inStep_run hinit hrun)]
    simp only [hfree]
  · rw [howns.allocFrames_error_iff hn]
    simp only [hfree]

theorem reportedMap_small : (reportedMap smallBlock [0xC0010008, 0xC0010030]).map
    (fun e => (e.baseAddr, e.length, e.type)) = [(0x200000, 0x1000, 1)] := by decide +kernel

theorem soundMap_small : SoundMap (reportedMap smallBlock [0xC0010008, 0xC0010030]) := by
  obtain ⟨e, heq⟩ : ∃ e, reportedMap smallBlock [0xC0010008, 0xC0010030] = [e] := by
    refine List.length_eq_one_iff.mp ?_
    have hlength := congrArg List.length reportedMap_small
    rwa [List.length_map] at hlength
  have hmap := reportedMap_small
  rw [heq] at hmap ⊢
  obtain ⟨hbase, hrest⟩ := Prod.mk.inj (List.cons.inj hmap).1
  obtain ⟨hlength, _⟩ := Prod.mk.inj hrest
  refine ⟨List.pairwise_singleton _ _, fun e' he' _ => ?_, fun e' he' _ => ?_⟩
  · rw [List.mem_singleton.mp he', hbase]
    rfl
  · rw [List.mem_singleton.mp he', hbase, hlength]
    decide

theorem boot_memory_small : ∃ turns w, parseMultiboot2 smallBlock 0x10000 turns = some (.ok w) ∧
    ∀ f, f ∈ (pmmInit smallKernel w.boot.mmapEntries).clearFrames ↔
      FreeAtBoot smallKernel (reportedMap smallBlock [0xC0010008, 0xC0010030]) f := by
  obtain ⟨turns, w, hparse, hfree, _⟩ := boot_memory smallBlock 0x10000 _ smallKernel smallBlock_wellFormed
    (forall_of_all (by decide +kernel)) (by decide +kernel) soundMap_small
  exact ⟨turns, w, hparse, hfree⟩

end LunaOs
