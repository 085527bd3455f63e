import LunaOs.PmmOwners

/-! # Which memory `pmm_init` makes available

A frame should be free only when all its bytes are available memory above 1 MB outside the kernel
image and no other entry of the map claims one of them.  `pmm_init` rounds lengths down, clips at
1 MB and takes the kernel image back, which is safe, and rounds bases down, narrows frame numbers to
32 bits and skips entries of other types, which is not. -/

namespace LunaOs

/-- The bytes of an entry. -/
def MmapEntry.Covers (e : MmapEntry) (a : ℕ) : Prop :=
  e.baseAddr.toNat ≤ a ∧ a < e.baseAddr.toNat + e.length.toNat

/-- The byte is in an entry of available memory. -/
def Available (entries : List MmapEntry) (a : ℕ) : Prop :=
  ∃ e ∈ entries, e.type = MB2_MMAP_AVAILABLE ∧ e.Covers a

/-- The bytes of a frame. -/
def InFrame (f a : ℕ) : Prop := f * FRAME_SIZE ≤ a ∧ a < (f + 1) * FRAME_SIZE

/-- A frame that may be handed out. -/
structure UsableFrame (k : KernelImage) (entries : List MmapEntry) (f : ℕ) : Prop where
  available : ∀ a, InFrame f a → Available entries a
  above : ∀ a, InFrame f a → KERNEL_PHYS_BASE ≤ a
  outside : ∀ a, InFrame f a → ¬ (KERNEL_PHYS_BASE ≤ a ∧ a < k.endPhys.toNat)
  unclaimed : ∀ a, InFrame f a → ∀ e ∈ entries, e.type ≠ MB2_MMAP_AVAILABLE → ¬ e.Covers a

/-- A frame the kernel image does not take back. -/
def OutsideKernel (k : KernelImage) (f : ℕ) : Prop := ¬ (256 ≤ f ∧ f ≤ k.endFrame)

/-- What a memory map has to meet for `pmm_init` to be safe. -/
structure MapFits (k : KernelImage) (entries : List MmapEntry) : Prop where
  /-- A base inside a frame that its entry releases: other available entries cover the bytes of the
  frame below it. -/
  base_in_frame : ∀ e ∈ entries, 0x100000 ≤ e.baseAddr.toNat → e.baseAddr.toNat < 2 ^ 44 →
    e.Releases (e.baseAddr.toNat / 4096) → OutsideKernel k (e.baseAddr.toNat / 4096) →
    ∀ a, e.baseAddr.toNat / 4096 * 4096 ≤ a → a < e.baseAddr.toNat → Available entries a
  /-- A base from 16 TB on, whose frame numbers lose their upper bits: the frames they are taken for
  are available memory above 1 MB. -/
  base_narrowed : ∀ e ∈ entries, 2 ^ 44 ≤ e.baseAddr.toNat → ∀ f, e.Releases f → OutsideKernel k f →
    256 ≤ f ∧ ∀ a, InFrame f a → Available entries a
  /-- Entries of other types stay clear of the frames released. -/
  unclaimed : ∀ e ∈ entries, ∀ f, e.Releases f → OutsideKernel k f →
    ∀ r ∈ entries, r.type ≠ MB2_MMAP_AVAILABLE → ∀ a, InFrame f a → ¬ r.Covers a

variable {k : KernelImage} {entries : List MmapEntry} {f : ℕ}

theorem mem_clearFrames_iff_releases :
    f ∈ (pmmInit k entries).clearFrames ↔ (∃ e ∈ entries, e.Releases f) ∧ OutsideKernel k f :=
  mem_clearFrames_pmmInit

theorem MmapEntry.Releases.bounds {e : MmapEntry} (h : e.Releases f)
    (hbase : e.baseAddr.toNat < 2 ^ 44) :
    max e.baseAddr.toNat 0x100000 / 4096 ≤ f ∧
      (f + 1) * 4096 ≤ e.baseAddr.toNat + e.length.toNat := by
  obtain ⟨_, _, hlow, hhigh⟩ := h
  have hnarrow : max e.baseAddr.toNat 0x100000 / 4096 % 2 ^ 32 =
      max e.baseAddr.toNat 0x100000 / 4096 := Nat.mod_eq_of_lt (by omega)
  rw [hnarrow] at hlow hhigh
  have hsum := lt_of_lt_of_le hhigh (Nat.mod_le _ _)
  omega

theorem MapFits.available (h : MapFits k entries) {e : MmapEntry} (he : e ∈ entries)
    (hf : e.Releases f) (hout : OutsideKernel k f) :
    256 ≤ f ∧ ∀ a, InFrame f a → Available entries a := by
  rcases Nat.lt_or_ge e.baseAddr.toNat (2 ^ 44) with hbase | hbase
  · obtain ⟨hlow, hhigh⟩ := hf.bounds hbase
    refine ⟨by omega, fun a ha => ?_⟩
    obtain ⟨ha₁, ha₂⟩ : f * 4096 ≤ a ∧ a < (f + 1) * 4096 := ha
    rcases Nat.lt_or_ge a e.baseAddr.toNat with hbelow | habove
    · -- the frame is the first one and the base lies inside it
      obtain rfl : f = e.baseAddr.toNat / 4096 := by omega
      exact h.base_in_frame e he (by omega) hbase hf hout a ha₁ hbelow
    · exact ⟨e, he, hf.1, habove, by omega⟩
  · exact h.base_narrowed e he hbase f hf hout

theorem MapFits.usable (h : MapFits k entries) (hf : f ∈ (pmmInit k entries).clearFrames) :
    UsableFrame k entries f := by
  obtain ⟨⟨e, he, hrel⟩, hout⟩ := mem_clearFrames_iff_releases.mp hf
  obtain ⟨hlow, havail⟩ := h.available he hrel hout
  have hbase : KERNEL_PHYS_BASE = 0x100000 := rfl
  refine ⟨havail, ?_, ?_, ?_⟩
  · intro a ha
    have ha₁ : f * 4096 ≤ a := ha.1
    omega
  · rintro a ha ⟨_, hlt⟩
    have ha₁ : f * 4096 ≤ a := ha.1
    have hend := k.endFrame_eq
    unfold OutsideKernel at hout
    omega
  · intro a ha r hr htype
    exact h.unclaimed e he f hrel hout r hr htype a ha

theorem MapFits.of_usable
    (h : ∀ f ∈ (pmmInit k entries).clearFrames, UsableFrame k entries f) : MapFits k entries := by
  have husable : ∀ e ∈ entries, ∀ f, e.Releases f → OutsideKernel k f → UsableFrame k entries f :=
    fun e he f hf hout => h f (mem_clearFrames_iff_releases.mpr ⟨⟨e, he, hf⟩, hout⟩)
  refine ⟨?_, ?_, ?_⟩
  · intro e he _ _ hrel hout a ha₁ ha₂
    refine (husable e he _ hrel hout).available a ⟨ha₁, ?_⟩
    show a < (e.baseAddr.toNat / 4096 + 1) * 4096
    omega
  · intro e he _ f hf hout
    have hu := husable e he f hf hout
    refine ⟨?_, hu.available⟩
    have hfirst : KERNEL_PHYS_BASE ≤ f * 4096 := by
      refine hu.above _ ⟨le_rfl, ?_⟩
      show f * 4096 < (f + 1) * 4096
      omega
    have hbase : KERNEL_PHYS_BASE = 0x100000 := rfl
    omega
  · intro e he f hf hout r hr htype a ha
    exact (husable e he f hf hout).unclaimed a ha r hr htype

/-- **Only usable memory is free after `pmm_init`**, and only usable memory is handed out in any later
run, exactly when the memory map fits. -/
theorem pmmInit_usable_iff (k : KernelImage) (entries : List MmapEntry) :
    ((∀ f ∈ (pmmInit k entries).clearFrames, UsableFrame k entries f) ∧
      ∀ ops s, Runs.haltingRun PmmClient.step ⟨pmmInit k entries, []⟩ ops = some s →
        ∀ f ∈ s.held, UsableFrame k entries f) ↔
      MapFits k entries := by
  constructor
  · exact fun h => MapFits.of_usable h.1
  · intro h
    refine ⟨fun f hf => h.usable hf, fun ops s hrun f hf => ?_⟩
    exact h.usable ((PmmClient.owns_run _ hrun).mem_free f hf)

/-- One page of available memory that starts in the middle of a frame. -/
def unalignedMap : List MmapEntry := [⟨0x80000800, 0x1000, MB2_MMAP_AVAILABLE⟩]

/-- The frame is free, and its lower half is in no entry. -/
theorem unalignedMap_unusable :
    0x80000 ∈ (pmmInit smallKernel unalignedMap).clearFrames ∧
      ¬ UsableFrame smallKernel unalignedMap 0x80000 := by
  have hend : smallKernel.endFrame = 384 := by decide
  constructor
  · rw [mem_clearFrames_iff_releases]
    refine ⟨⟨_, List.mem_cons_self, by decide⟩, ?_⟩
    unfold OutsideKernel
    omega
  · intro h
    obtain ⟨e, he, _, hlow, _⟩ := h.available 0x80000000 ⟨by decide, by decide⟩
    obtain rfl := List.mem_singleton.mp he
    exact absurd hlow (by decide)

end LunaOs
