import LunaOs.Pmm

/-! # The virtual memory manager of `kernel/vmm.c`

Page directories and page tables are arrays of 1024 words in physical frames, and the code reaches
the frame at `phys` through the pointer `phys + 0xC0000000`.  Memory is the words behind such
pointers, whatever they held before; `pd[i]` is the word at `pd + 4 * i`.  `invlpg` changes no
memory and is left out.

`heap_alloc_pages` of `heap.c` is here as well: it maps one fresh frame after the other at the
cursor. -/

namespace LunaOs

def PAGE_SIZE : UInt32 := 4096

/-- The flags of an entry. -/
def PAGE_PRESENT : UInt32 := 0x001
def PAGE_WRITABLE : UInt32 := 0x002
def PAGE_USER : UInt32 := 0x004
def PAGE_HUGE : UInt32 := 0x080

/-- What the code adds to a physical address to reach it. -/
def KERNEL_VIRT_BASE : UInt32 := 0xC0000000

def PD_INDEX (vaddr : UInt32) : UInt32 := vaddr >>> 22

def PT_INDEX (vaddr : UInt32) : UInt32 := (vaddr >>> 12) &&& 0x3FF

/-- The address of `p[i]` for a pointer `p` to words. -/
def wordPtr (p i : UInt32) : UInt32 := p + 4 * i

/-- `luna_memset(p, 0, PAGE_SIZE)` -/
def memsetPage (mem : UInt32 → UInt32) (p : UInt32) : UInt32 → UInt32 :=
  fun a => if a - p < PAGE_SIZE then 0 else mem a

/-- The memory, the frames, `kernel_pd` and CR3. -/
structure Vmm where
  pmm : Pmm
  mem : UInt32 → UInt32
  kernelPd : UInt32
  cr3 : UInt32

/-- `vmm_init`: a zeroed directory, which is loaded. -/
def vmmInit (s : Vmm) : Except PmmPanic Vmm := do
  let (pdPhys, pmm) ← pmmAllocFrame s.pmm
  let kernelPd := pdPhys + KERNEL_VIRT_BASE
  .ok { pmm, mem := memsetPage s.mem kernelPd, kernelPd, cr3 := pdPhys }

/-- The first part of `vmm_map_page`: the page table, made if the directory entry is not present. -/
def pageTable (s : Vmm) (pd pdi flags : UInt32) : Except PmmPanic (UInt32 × Vmm) :=
  if s.mem (wordPtr pd pdi) &&& PAGE_PRESENT = 0 then do
    let (ptPhys, pmm) ← pmmAllocFrame s.pmm
    let ptVirt := ptPhys + KERNEL_VIRT_BASE
    let mem := memsetPage s.mem ptVirt
    let mem := Function.update mem (wordPtr pd pdi)
      (ptPhys ||| PAGE_PRESENT ||| PAGE_WRITABLE ||| (flags &&& PAGE_USER))
    .ok (ptVirt, { s with pmm, mem })
  else
    let ptPhys := s.mem (wordPtr pd pdi) &&& ~~~0xFFF
    .ok (ptPhys + KERNEL_VIRT_BASE, s)

/-- The word `vmm_map_page` writes into the table. -/
def pteWord (paddr flags : UInt32) : UInt32 := (paddr &&& ~~~0xFFF) ||| PAGE_PRESENT ||| flags

/-- `vmm_map_page`: where there is no table one is made, with the USER bit of this page. -/
def vmmMapPage (s : Vmm) (pd vaddr paddr flags : UInt32) : Except PmmPanic Vmm := do
  let (pt, s) ← pageTable s pd (PD_INDEX vaddr) flags
  .ok { s with
    mem := Function.update s.mem (wordPtr pt (PT_INDEX vaddr)) (pteWord paddr flags) }

/-- `vmm_unmap_page`; the table stays. -/
def vmmUnmapPage (s : Vmm) (pd vaddr : UInt32) : Vmm :=
  let pde := s.mem (wordPtr pd (PD_INDEX vaddr))
  if pde &&& PAGE_PRESENT = 0 then s
  else
    let pt := (pde &&& ~~~0xFFF) + KERNEL_VIRT_BASE
    { s with mem := Function.update s.mem (wordPtr pt (PT_INDEX vaddr)) 0 }

/-- `pd[i] = kernel_pd[i];` -/
def copyEntry (kernelPd pd : UInt32) (mem : UInt32 → UInt32) (i : ℕ) : UInt32 → UInt32 :=
  Function.update mem (wordPtr pd (UInt32.ofNat i)) (mem (wordPtr kernelPd (UInt32.ofNat i)))

/-- The entries 768 to 1023. -/
def copyKernelHalf (kernelPd pd : UInt32) (mem : UInt32 → UInt32) : UInt32 → UInt32 :=
  (List.range' 768 256).foldl (copyEntry kernelPd pd) mem

/-- `vmm_create_user_pd`: the kernel half is copied. -/
def vmmCreateUserPd (s : Vmm) : Except PmmPanic (UInt32 × Vmm) := do
  let (pdPhys, pmm) ← pmmAllocFrame s.pmm
  let pd := pdPhys + KERNEL_VIRT_BASE
  let mem := memsetPage s.mem pd
  let mem := copyKernelHalf s.kernelPd pd mem
  .ok (pd, { s with pmm, mem })

/-- CR3 gets the physical address. -/
def vmmSwitchPd (s : Vmm) (pd : UInt32) : Vmm := { s with cr3 := pd - KERNEL_VIRT_BASE }

/-- `vmm_virt_to_phys`, with 0 for a page that is not mapped. -/
def vmmVirtToPhys (s : Vmm) (pd vaddr : UInt32) : UInt32 :=
  let pde := s.mem (wordPtr pd (PD_INDEX vaddr))
  if pde &&& PAGE_PRESENT = 0 then 0
  else
    let pt := (pde &&& ~~~0xFFF) + KERNEL_VIRT_BASE
    let pte := s.mem (wordPtr pt (PT_INDEX vaddr))
    if pte &&& PAGE_PRESENT = 0 then 0 else (pte &&& ~~~0xFFF) ||| (vaddr &&& 0xFFF)

/-- The loop of `heap_alloc_pages` with `n` turns left; the cursor is the virtual address of the next
page. -/
def heapAllocPages : ℕ → Vmm → UInt32 → Except PmmPanic (Vmm × UInt32)
  | 0, s, cursor => .ok (s, cursor)
  | n + 1, s, cursor => do
      let (phys, pmm) ← pmmAllocFrame s.pmm
      let s ← vmmMapPage { s with pmm } s.kernelPd cursor phys 0x003
      heapAllocPages n s (cursor + PAGE_SIZE)

/-! ### What the calls leave alone -/

/-- No frame is released, and `kernel_pd` and CR3 stay as they are. -/
structure Vmm.Keeps (s s' : Vmm) : Prop where
  shrinks : s.pmm.Shrinks s'.pmm
  kernelPd_eq : s'.kernelPd = s.kernelPd
  cr3_eq : s'.cr3 = s.cr3

theorem Vmm.Keeps.refl (s : Vmm) : s.Keeps s := ⟨.refl _, rfl, rfl⟩

theorem Vmm.Keeps.trans {s s' s'' : Vmm} (h : s.Keeps s') (h' : s'.Keeps s'') : s.Keeps s'' :=
  ⟨h.shrinks.trans h'.shrinks, h'.kernelPd_eq.trans h.kernelPd_eq, h'.cr3_eq.trans h.cr3_eq⟩

theorem pageTable_keeps {s s' : Vmm} {pd pdi flags pt : UInt32}
    (h : pageTable s pd pdi flags = .ok (pt, s')) : s.Keeps s' := by
  unfold pageTable at h
  split_ifs at h
  · obtain ⟨⟨phys, pmm⟩, halloc, hret⟩ := bind_eq_ok h
    obtain ⟨_, rfl⟩ := Prod.mk.inj (Except.ok.inj hret)
    exact ⟨pmmAllocFrame_shrinks halloc, rfl, rfl⟩
  · obtain ⟨_, rfl⟩ := Prod.mk.inj (Except.ok.inj h)
    exact .refl _

theorem vmmMapPage_keeps {s s' : Vmm} {pd vaddr paddr flags : UInt32}
    (h : vmmMapPage s pd vaddr paddr flags = .ok s') : s.Keeps s' := by
  obtain ⟨⟨pt, s₁⟩, htable, hret⟩ := bind_eq_ok h
  obtain ⟨hshrinks, hkernel, hcr3⟩ := pageTable_keeps htable
  obtain rfl := Except.ok.inj hret
  exact ⟨hshrinks, hkernel, hcr3⟩

theorem vmmUnmapPage_keeps (s : Vmm) (pd vaddr : UInt32) : s.Keeps (vmmUnmapPage s pd vaddr) := by
  unfold vmmUnmapPage
  dsimp only
  split_ifs
  · exact .refl s
  · exact ⟨.refl _, rfl, rfl⟩

theorem vmmCreateUserPd_keeps {s s' : Vmm} {pd : UInt32} (h : vmmCreateUserPd s = .ok (pd, s')) :
    s.Keeps s' := by
  obtain ⟨⟨phys, pmm⟩, halloc, hret⟩ := bind_eq_ok h
  obtain ⟨_, rfl⟩ := Prod.mk.inj (Except.ok.inj hret)
  exact ⟨pmmAllocFrame_shrinks halloc, rfl, rfl⟩

theorem heapAllocPages_keeps {n : ℕ} {s s' : Vmm} {cursor cursor' : UInt32}
    (h : heapAllocPages n s cursor = .ok (s', cursor')) : s.Keeps s' := by
  induction n generalizing s cursor with
  | zero =>
      obtain ⟨rfl, _⟩ := Prod.mk.inj (Except.ok.inj h)
      exact .refl s
  | succ n ih =>
      obtain ⟨⟨phys, pmm⟩, halloc, hpage⟩ := bind_eq_ok h
      obtain ⟨s₁, hmap, hrest⟩ := bind_eq_ok hpage
      have hfirst : s.Keeps { s with pmm } := ⟨pmmAllocFrame_shrinks halloc, rfl, rfl⟩
      exact hfirst.trans ((vmmMapPage_keeps hmap).trans (ih hrest))

/-! ### Bits of a word -/

theorem toNat_and_page_mask (w : UInt32) : (w &&& ~~~0xFFF).toNat = w.toNat / 4096 * 4096 := by
  have hmask : ∀ j < 32, (~~~0xFFF#32).getLsbD j = decide (12 ≤ j) := by decide
  exact Bitmap.toNat_and_highMask (x := w.toBitVec) hmask

theorem and_present_eq_zero {w : UInt32} :
    w &&& PAGE_PRESENT = 0 ↔ w.toBitVec.getLsbD 0 = false := by
  rw [← UInt32.toBitVec_inj]
  exact Bitmap.and_one_shiftLeft_eq_zero (j := 0)

theorem or_and (a b m : UInt32) : (a ||| b) &&& m = (a &&& m) ||| (b &&& m) := by
  apply UInt32.toBitVec_inj.mp
  apply BitVec.eq_of_getLsbD_eq
  intro i _
  simp only [UInt32.toBitVec_and, UInt32.toBitVec_or, BitVec.getLsbD_and, BitVec.getLsbD_or]
  exact Bool.and_or_distrib_right _ _ _

theorem and_mask_eq_zero {w : UInt32} (hw : w < 0x1000) : w &&& ~~~0xFFF = 0 := by
  have hlt : w.toNat < 4096 := UInt32.lt_iff_toNat_lt.mp hw
  rw [← UInt32.toNat_inj, toNat_and_page_mask, Nat.div_eq_of_lt hlt]
  rfl

theorem frameAddr_mask (f : ℕ) : frameAddr f &&& ~~~0xFFF = frameAddr f := by
  have hmod : (frameAddr f).toNat = f * 4096 % 2 ^ 32 := UInt32.toNat_ofNat'
  rw [← UInt32.toNat_inj, toNat_and_page_mask, hmod]
  omega

/-- Masks within the page offset find nothing in a frame address. -/
theorem frameAddr_and (f : ℕ) {m : UInt32} (hm : ~~~0xFFF &&& m = 0) : frameAddr f &&& m = 0 := by
  rw [← frameAddr_mask, UInt32.and_assoc, hm, UInt32.and_zero]

/-! ### Entries -/

/-- The word written for a page is present. -/
theorem pteWord_present (paddr flags : UInt32) : pteWord paddr flags &&& PAGE_PRESENT ≠ 0 := by
  rw [ne_eq, and_present_eq_zero, pteWord]
  simp [PAGE_PRESENT]

theorem pteWord_user (paddr flags : UInt32) :
    pteWord paddr flags &&& PAGE_USER = flags &&& PAGE_USER := by
  unfold pteWord
  rw [or_and, or_and, UInt32.and_assoc, show ~~~0xFFF &&& PAGE_USER = 0 by decide,
    show PAGE_PRESENT &&& PAGE_USER = 0 by decide, UInt32.and_zero, UInt32.or_zero, UInt32.zero_or]

/-- Flags below 0x1000 leave the address alone. -/
theorem pteWord_mask {paddr flags : UInt32} (hflags : flags < 0x1000) :
    pteWord paddr flags &&& ~~~0xFFF = paddr &&& ~~~0xFFF := by
  unfold pteWord
  rw [or_and, or_and, and_mask_eq_zero hflags, and_mask_eq_zero (by decide : PAGE_PRESENT < 0x1000),
    UInt32.or_zero, UInt32.or_zero, UInt32.and_assoc]
  rfl

/-- The word written for a table. -/
def pdeWord (f : ℕ) (flags : UInt32) : UInt32 :=
  frameAddr f ||| PAGE_PRESENT ||| PAGE_WRITABLE ||| (flags &&& PAGE_USER)

theorem pdeWord_present (f : ℕ) (flags : UInt32) : pdeWord f flags &&& PAGE_PRESENT ≠ 0 := by
  rw [ne_eq, and_present_eq_zero, pdeWord]
  simp [PAGE_PRESENT]

theorem pdeWord_mask (f : ℕ) (flags : UInt32) : pdeWord f flags &&& ~~~0xFFF = frameAddr f := by
  have huser : flags &&& PAGE_USER &&& ~~~0xFFF = 0 := by
    rw [UInt32.and_assoc, show PAGE_USER &&& ~~~0xFFF = 0 by decide, UInt32.and_zero]
  unfold pdeWord
  rw [or_and, or_and, or_and, huser, frameAddr_mask,
    and_mask_eq_zero (by decide : PAGE_PRESENT < 0x1000),
    and_mask_eq_zero (by decide : PAGE_WRITABLE < 0x1000)]
  simp only [UInt32.or_zero]

/-- The attribute bits of that word. -/
def pdeBits (flags : UInt32) : UInt32 := PAGE_PRESENT ||| PAGE_WRITABLE ||| (flags &&& PAGE_USER)

theorem pdeWord_and_offset (f : ℕ) (flags : UInt32) : pdeWord f flags &&& 0xFFF = pdeBits flags := by
  unfold pdeWord pdeBits
  rw [or_and, or_and, or_and, frameAddr_and f (by decide), UInt32.and_assoc,
    show PAGE_PRESENT &&& 0xFFF = PAGE_PRESENT by decide,
    show PAGE_WRITABLE &&& 0xFFF = PAGE_WRITABLE by decide,
    show PAGE_USER &&& 0xFFF = PAGE_USER by decide, UInt32.zero_or]

theorem pdeBits_user (flags : UInt32) : pdeBits flags &&& PAGE_USER = flags &&& PAGE_USER := by
  unfold pdeBits
  rw [or_and, or_and, UInt32.and_assoc, show PAGE_PRESENT &&& PAGE_USER = 0 by decide,
    show PAGE_WRITABLE &&& PAGE_USER = 0 by decide, show PAGE_USER &&& PAGE_USER = PAGE_USER by decide]
  simp only [UInt32.or_zero, UInt32.zero_or]

/-- `vmm_map_page` links no 4 MB page. -/
theorem pdeBits_huge (flags : UInt32) : pdeBits flags &&& PAGE_HUGE = 0 := by
  unfold pdeBits
  rw [or_and, or_and, UInt32.and_assoc, show PAGE_PRESENT &&& PAGE_HUGE = 0 by decide,
    show PAGE_WRITABLE &&& PAGE_HUGE = 0 by decide, show PAGE_USER &&& PAGE_HUGE = 0 by decide,
    UInt32.and_zero]
  rfl

end LunaOs
