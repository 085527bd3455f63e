import LunaOs.VmmSpaces

/-! # The mapping of the kernel image

`vmm_init` loads CR3 with a directory of zeros: the 4 MB entries that the boot code put into its own
directory are not carried over, and nothing that follows maps the kernel image again. -/

namespace LunaOs

/-- The translation of the processor: the directory in CR3, with an entry of 4 MB or a table. -/
def mmuTranslate (s : Vmm) (vaddr : UInt32) : Option UInt32 :=
  let pd := (s.cr3 &&& ~~~0xFFF) + KERNEL_VIRT_BASE
  let pde := s.mem (wordPtr pd (PD_INDEX vaddr))
  if pde &&& PAGE_PRESENT = 0 then none
  else if pde &&& PAGE_HUGE ≠ 0 then some ((pde &&& ~~~0x3FFFFF) ||| (vaddr &&& 0x3FFFFF))
  else
    let pt := (pde &&& ~~~0xFFF) + KERNEL_VIRT_BASE
    let pte := s.mem (wordPtr pt (PT_INDEX vaddr))
    if pte &&& PAGE_PRESENT = 0 then none else some ((pte &&& ~~~0xFFF) ||| (vaddr &&& 0xFFF))

/-- Every address of the kernel image translates to where the image is. -/
def KernelMapped (k : KernelImage) (s : Vmm) : Prop :=
  ∀ vaddr : UInt32, 0xC0100000 ≤ vaddr → vaddr.toNat < 0xC0000000 + k.endPhys.toNat →
    mmuTranslate s vaddr = some (vaddr - 0xC0000000)

/-- Heap growth, new directories, switches, and mappings and unmappings in the user half. -/
def VmmOp.UserHalfOnly : VmmOp → Prop
  | .mapPage _ vaddr _ _ => vaddr < KERNEL_VIRT_BASE
  | .unmapPage _ vaddr => vaddr < KERNEL_VIRT_BASE
  | _ => True

/-! ### What the processor sees of the address spaces -/

/-- Table entries of directories that no one made huge. -/
def NoHuge (A : PageSpaces) : Prop := ∀ o i u, A.linked o i = some u → u &&& PAGE_HUGE = 0

theorem Represents.mmuTranslate {s : Vmm} {dirs : List UInt32} {A : PageSpaces} {d : ℕ}
    {pd : UInt32} (h : Represents s dirs A) (hA : NoHuge A) (hd : dirs[d]? = some pd)
    (hcr3 : s.cr3 = pd - KERNEL_VIRT_BASE) (vaddr : UInt32) :
    mmuTranslate s vaddr =
      (A.page (A.owner d (dirIx vaddr)) (dirIx vaddr) (tabIx vaddr)).map fun w =>
        (w &&& ~~~0xFFF) ||| (vaddr &&& 0xFFF) := by
  have hroot : (s.cr3 &&& ~~~0xFFF) + KERNEL_VIRT_BASE = pd := by
    obtain ⟨roots, _, _, hdirs, _⟩ := h
    obtain ⟨_, rfl⟩ := dir_eq hdirs hd
    have hphys : framePtr (roots d) - KERNEL_VIRT_BASE = frameAddr (roots d) :=
      UInt32.add_sub_cancel _ _
    rw [hcr3, hphys, frameAddr_mask]
    rfl
  unfold LunaOs.mmuTranslate
  dsimp only
  rw [hroot]
  rcases h.entry_cases hd vaddr with ⟨hlink, habsent⟩ | ⟨pde, hpde, hpresent, hlink, hleaf⟩
  · rw [if_pos habsent, h.page_linked hlink]
    rfl
  · have hhuge : pde &&& PAGE_HUGE = 0 := by
      have hbits := hA _ _ _ hlink
      rw [UInt32.and_assoc] at hbits
      exact hbits
    rw [hpde, if_neg hpresent, if_neg (not_not_intro hhuge), ← hleaf]
    generalize s.mem _ = w
    by_cases hw : w &&& PAGE_PRESENT = 0
    · simp [pageFormat, hw]
    · simp [pageFormat, hw]

/-! ### Runs -/

/-- What holds in every state of such a run: CR3 holds a directory, without 4 MB entries, and no
directory maps the first page of the kernel image to its frame. -/
structure KernelLost (k : KernelImage) (entries : List MmapEntry) (c : VmmClient) (A : PageSpaces) :
    Prop where
  rep : Represents c.vmm c.dirs A
  cr3 : ∃ (d : ℕ) (pd : UInt32), c.dirs[d]? = some pd ∧ c.vmm.cr3 = pd - KERNEL_VIRT_BASE
  noHuge : NoHuge A
  clear : c.vmm.pmm.clearFrames ⊆ (pmmInit k entries).clearFrames
  lost : ∀ o w, A.page o (dirIx 0xC0100000) (tabIx 0xC0100000) = some w →
    w &&& ~~~0xFFF ≠ 0x100000

theorem NoHuge.map {A : PageSpaces} (h : NoHuge A) (d : ℕ) (vaddr paddr flags : UInt32) :
    NoHuge (spaceMap A d vaddr paddr flags) := by
  intro o i u hlink
  rw [spaceMap_linked] at hlink
  split_ifs at hlink
  · obtain rfl := Option.some.inj hlink
    cases hold : A.linked o i with
    | none => exact pdeBits_huge flags
    | some u' => exact h o i u' hold
  · exact h o i u hlink

theorem NoHuge.heap {A : PageSpaces} (h : NoHuge A) (cursor : UInt32) (frames : List ℕ) :
    NoHuge (spaceHeap A cursor frames) := by
  induction frames generalizing A cursor with
  | nil => exact h
  | cons f frames ih => exact ih (h.map _ _ _ _) _

/-- The frame of the kernel image is never handed out, so the heap does not map it. -/
theorem lost_heap {A : PageSpaces} {k : KernelImage} {entries : List MmapEntry} {i j : Fin 1024}
    (h : ∀ o w, A.page o i j = some w → w &&& ~~~0xFFF ≠ 0x100000) (cursor : UInt32)
    {frames : List ℕ} (hframes : ∀ f ∈ frames, f ∈ (pmmInit k entries).clearFrames) :
    ∀ o w, (spaceHeap A cursor frames).page o i j = some w → w &&& ~~~0xFFF ≠ 0x100000 := by
  induction frames generalizing A cursor with
  | nil => exact h
  | cons f frames ih =>
      rw [spaceHeap_cons]
      refine ih ?_ _ fun g hg => hframes g (List.mem_cons_of_mem _ hg)
      intro o w hpage
      rw [spaceMap_page] at hpage
      split_ifs at hpage
      · obtain rfl := Option.some.inj hpage
        have hf := hframes f List.mem_cons_self
        have hout := (mem_clearFrames_pmmInit.mp hf).2
        rw [pteWord_mask (by decide), frameAddr_mask]
        intro heq
        have hnat := congrArg UInt32.toNat heq
        rw [frameAddr_toNat (Pmm.lt_of_mem hf)] at hnat
        change f * 4096 = 0x100000 at hnat
        have hend := k.endFrame_eq
        have hlt := k.base_lt
        omega
      · exact h o w hpage

theorem KernelLost.step {k : KernelImage} {entries : List MmapEntry} {c c' : VmmClient}
    {A : PageSpaces} (h : KernelLost k entries c A) {op : VmmOp} (hop : op.UserHalfOnly)
    (hstep : c.step op = some c') : ∃ A', KernelLost k entries c' A' := by
  obtain ⟨A', hspace, hrep', hsub, hcr3step⟩ := h.rep.step hstep
  have hclear := hsub.trans h.clear
  have hcr3' : ∃ (d : ℕ) (pd : UInt32), c'.dirs[d]? = some pd ∧
      c'.vmm.cr3 = pd - KERNEL_VIRT_BASE := by
    obtain ⟨d₀, pd₀, hd₀, hcr3⟩ := h.cr3
    rcases hcr3step with heq | ⟨d, pd, hd, heq⟩
    · exact ⟨d₀, pd₀, VmmClient.dirs_step hstep hd₀, heq.trans hcr3⟩
    · exact ⟨d, pd, VmmClient.dirs_step hstep hd, heq⟩
  -- a user-half address does not reach the first page of the image
  have hmiss : ∀ vaddr : UInt32, vaddr < KERNEL_VIRT_BASE → dirIx 0xC0100000 ≠ dirIx vaddr := by
    intro vaddr hv heq
    have hk : KernelHalf (dirIx vaddr) := heq ▸ kernelHalf_dirIx.mpr (by decide)
    exact absurd (kernelHalf_dirIx.mp hk) (UInt32.not_le.mpr hv)
  cases op with
  | createUserPd =>
      obtain rfl : A' = A.create KernelHalf := hspace
      exact ⟨_, hrep', hcr3', h.noHuge, hclear, h.lost⟩
  | mapPage d vaddr paddr flags =>
      obtain ⟨_, rfl⟩ := hspace
      refine ⟨_, hrep', hcr3', h.noHuge.map _ _ _ _, hclear, fun o w hpage => ?_⟩
      rw [spaceMap_page, if_neg fun hit => hmiss vaddr hop hit.2.1] at hpage
      exact h.lost o w hpage
  | unmapPage d vaddr =>
      obtain ⟨_, rfl⟩ := hspace
      refine ⟨_, hrep', hcr3', h.noHuge, hclear, fun o w hpage => ?_⟩
      rw [spaceUnmap_page, if_neg fun hit => hmiss vaddr hop hit.2.1] at hpage
      exact h.lost o w hpage
  | switchPd d =>
      obtain rfl : A' = A := hspace
      exact ⟨_, hrep', hcr3', h.noHuge, hclear, h.lost⟩
  | allocFrame =>
      obtain rfl : A' = A := hspace
      exact ⟨_, hrep', hcr3', h.noHuge, hclear, h.lost⟩
  | heapAllocPages n =>
      obtain ⟨frames, _, hframes, rfl⟩ := hspace
      exact ⟨_, hrep', hcr3', h.noHuge.heap _ _, hclear,
        lost_heap h.lost _ fun f hf => h.clear (hframes f hf)⟩

theorem kernelLost_start {k : KernelImage} {entries : List MmapEntry} {mem : UInt32 → UInt32}
    {cr3 : UInt32} {s₀ : Vmm} (hinit : vmmInit (bootVmm k entries mem cr3) = .ok s₀) :
    KernelLost k entries (VmmClient.start s₀) Radix.Spaces.first := by
  obtain ⟨n, _, hpmm, hkernel, hcr3, _⟩ := vmmInit_ok hinit
  refine ⟨represents_start hinit, ⟨0, s₀.kernelPd, rfl, ?_⟩, ?_, ?_, ?_⟩
  · show s₀.cr3 = s₀.kernelPd - KERNEL_VIRT_BASE
    rw [hcr3, hkernel]
    exact (UInt32.add_sub_cancel _ _).symm
  · intro o i u hlink
    cases hlink
  · show s₀.pmm.clearFrames ⊆ _
    rw [hpmm, bootVmm_pmm]
    exact Finset.erase_subset _ _
  · intro o w hpage
    cases hpage

theorem KernelLost.not_mapped {k : KernelImage} {entries : List MmapEntry} {c : VmmClient}
    {A : PageSpaces} (h : KernelLost k entries c A) : mmuTranslate c.vmm 0xC0100000 ≠ some 0x100000 := by
  obtain ⟨d, pd, hd, hcr3⟩ := h.cr3
  rw [h.rep.mmuTranslate h.noHuge hd hcr3]
  intro heq
  obtain ⟨w, hpage, hw⟩ := Option.map_eq_some_iff.mp heq
  rw [show (0xC0100000 : UInt32) &&& 0xFFF = 0 by decide, UInt32.or_zero] at hw
  exact h.lost _ w hpage hw

/-- **The kernel does not stay mapped**: from the moment `vmm_init` loads CR3 and in every state that
follows, the directory in CR3 does not map the kernel image. -/
theorem kernel_not_mapped (k : KernelImage) (entries : List MmapEntry) (mem : UInt32 → UInt32)
    (cr3 : UInt32) (s₀ : Vmm) (hinit : vmmInit (bootVmm k entries mem cr3) = .ok s₀)
    (ops : List VmmOp) (hops : ∀ op ∈ ops, op.UserHalfOnly) (c : VmmClient)
    (hrun : Runs.haltingRun VmmClient.step (VmmClient.start s₀) ops = some c) :
    ¬ KernelMapped k c.vmm := by
  have hlost : ∃ A, KernelLost k entries c A :=
    Runs.haltingRun_invariant_of (fun c => ∃ A, KernelLost k entries c A) (fun _ _ _ h hop hstep => h.elim fun _ hA => hA.step hop hstep)
      ⟨_, kernelLost_start hinit⟩ hops hrun
  obtain ⟨A, hA⟩ := hlost
  intro hmapped
  have hlt := k.base_lt
  have hvaddr : (0xC0100000 : UInt32).toNat < 0xC0000000 + k.endPhys.toNat := by
    have hval : (0xC0100000 : UInt32).toNat = 0xC0100000 := rfl
    omega
  exact hA.not_mapped (hmapped 0xC0100000 (by decide) hvaddr)

theorem kernel_not_mapped_roomyMap :
    ∃ s₀ c, vmmInit (bootVmm smallKernel roomyMap (fun _ => 0) 0) = .ok s₀ ∧
      Runs.haltingRun VmmClient.step (VmmClient.start s₀)
        [.createUserPd, .mapPage 1 0x400000 0x200000 0x007] = some c ∧
      ¬ KernelMapped smallKernel c.vmm := by
  obtain ⟨s₀, c, hinit, hrun, _⟩ := Runnable.returns_roomyMap
    [.createUserPd, .mapPage 1 0x400000 0x200000 0x007] ⟨by decide, trivial⟩ (by decide)
  refine ⟨s₀, c, hinit, hrun, kernel_not_mapped smallKernel roomyMap _ _ s₀ hinit _ ?_ c hrun⟩
  simp [VmmOp.UserHalfOnly]
  decide

/-- Right after `vmm_init` the start of the kernel image is not mapped at all. -/
theorem kernel_unmapped_after_vmmInit :
    ∃ s₀, vmmInit (bootVmm smallKernel roomyMap (fun _ => 0) 0) = .ok s₀ ∧
      mmuTranslate s₀ 0xC0100000 = none := by
  obtain ⟨s₀, _, hinit, _⟩ := Runnable.returns_roomyMap [] trivial (by decide)
  obtain ⟨hrep, ⟨d, pd, hd, hcr3⟩, hhuge, _⟩ := kernelLost_start hinit
  refine ⟨s₀, hinit, ?_⟩
  rw [Represents.mmuTranslate (s := s₀) hrep hhuge hd hcr3]
  rfl

end LunaOs
