import LunaOs.VmmWords
import LunaOs.PmmInit

/-! # Address spaces in physical frames

The rest of the kernel uses the virtual memory manager through the directories it was given: the
kernel directory and the user directories, in the order in which they were made.  A run may create
directories, map and unmap pages anywhere, grow the heap, switch directories and allocate frames for
other purposes.  Directories and tables are never given back.

Every state of such a run represents a family of address spaces, and each call is one step of that
family.  Two directories share a page of the kernel half when its table was there when the user
directory was made. -/

namespace LunaOs

def HEAP_VIRT_BASE : UInt32 := 0xD0000000

/-- The operations; a directory is given by its number. -/
inductive VmmOp where
  | createUserPd
  | mapPage (d : ℕ) (vaddr paddr flags : UInt32)
  | unmapPage (d : ℕ) (vaddr : UInt32)
  | switchPd (d : ℕ)
  | allocFrame
  | heapAllocPages (n : UInt32)

/-- The memory with the directories that were made. -/
structure VmmClient where
  vmm : Vmm
  dirs : List UInt32
  heapCursor : UInt32

def VmmClient.step (c : VmmClient) : VmmOp → Option VmmClient
  | .createUserPd =>
      match vmmCreateUserPd c.vmm with
      | .ok (pd, vmm) => some { c with vmm, dirs := c.dirs ++ [pd] }
      | .error _ => none
  | .mapPage d vaddr paddr flags => do
      let pd ← c.dirs[d]?
      match vmmMapPage c.vmm pd vaddr paddr flags with
      | .ok vmm => some { c with vmm }
      | .error _ => none
  | .unmapPage d vaddr => do
      let pd ← c.dirs[d]?
      some { c with vmm := vmmUnmapPage c.vmm pd vaddr }
  | .switchPd d => do
      let pd ← c.dirs[d]?
      some { c with vmm := vmmSwitchPd c.vmm pd }
  | .allocFrame =>
      match pmmAllocFrame c.vmm.pmm with
      | .ok (_, pmm) => some { c with vmm := { c.vmm with pmm } }
      | .error _ => none
  | .heapAllocPages n =>
      match heapAllocPages n.toNat c.vmm c.heapCursor with
      | .ok (vmm, heapCursor) => some { c with vmm, heapCursor }
      | .error _ => none

theorem VmmClient.dirs_step {c c' : VmmClient} {op : VmmOp} (hstep : c.step op = some c') {d : ℕ}
    {pd : UInt32} (hd : c.dirs[d]? = some pd) : c'.dirs[d]? = some pd := by
  unfold VmmClient.step at hstep
  cases op with
  | createUserPd =>
      dsimp only at hstep
      split at hstep
      · obtain rfl := Option.some.inj hstep
        have hlt : d < c.dirs.length := (List.getElem?_eq_some_iff.mp hd).1
        exact (List.getElem?_append_left hlt).trans hd
      · cases hstep
  | mapPage d' vaddr paddr flags =>
      obtain ⟨pd', _, hstep⟩ := Option.bind_eq_some_iff.mp hstep
      split at hstep
      · exact Option.some.inj hstep ▸ hd
      · cases hstep
  | unmapPage d' vaddr =>
      obtain ⟨pd', _, hstep⟩ := Option.bind_eq_some_iff.mp hstep
      exact Option.some.inj hstep ▸ hd
  | switchPd d' =>
      obtain ⟨pd', _, hstep⟩ := Option.bind_eq_some_iff.mp hstep
      exact Option.some.inj hstep ▸ hd
  | allocFrame =>
      dsimp only at hstep
      split at hstep
      · exact Option.some.inj hstep ▸ hd
      · cases hstep
  | heapAllocPages n =>
      dsimp only at hstep
      split at hstep
      · exact Option.some.inj hstep ▸ hd
      · cases hstep

/-- What `vmm_init` finds: the physical memory manager after `pmm_init`, any memory, and the boot
directory in CR3. -/
def bootVmm (k : KernelImage) (entries : List MmapEntry) (mem : UInt32 → UInt32) (cr3 : UInt32) :
    Vmm := ⟨pmmInit k entries, mem, 0, cr3⟩

theorem bootVmm_pmm (k : KernelImage) (entries : List MmapEntry) (mem : UInt32 → UInt32)
    (cr3 : UInt32) : (bootVmm k entries mem cr3).pmm = pmmInit k entries := by
  simp only [bootVmm]

/-- After `vmm_init`. -/
def VmmClient.start (vmm : Vmm) : VmmClient := ⟨vmm, [vmm.kernelPd], HEAP_VIRT_BASE⟩

/-! ### The represented address spaces -/

abbrev PageSpaces := Radix.Spaces (Fin 1024) UInt32 UInt32

/-- A page is mapped, with a table if there is none. -/
def spaceMap (A : PageSpaces) (d : ℕ) (vaddr paddr flags : UInt32) : PageSpaces :=
  A.map d (dirIx vaddr) (tabIx vaddr) (pdeBits flags) (pteWord paddr flags)

/-- A page is not mapped any more. -/
def spaceUnmap (A : PageSpaces) (d : ℕ) (vaddr : UInt32) : PageSpaces :=
  A.setPage d (dirIx vaddr) (tabIx vaddr) none

/-- The heap pages at the cursor, one on each frame. -/
def spaceHeap : PageSpaces → UInt32 → List ℕ → PageSpaces
  | A, _, [] => A
  | A, cursor, f :: frames =>
      spaceHeap (spaceMap A 0 cursor (frameAddr f) 0x003) (cursor + PAGE_SIZE) frames

/-- What an operation of the client does to the address spaces; `free` are the frames that are clear
before it. -/
def SpaceStep (free : Finset ℕ) (cursor : UInt32) (A : PageSpaces) : VmmOp → PageSpaces → Prop
  | .createUserPd, A' => A' = A.create KernelHalf
  | .mapPage d vaddr paddr flags, A' => d < A.count ∧ A' = spaceMap A d vaddr paddr flags
  | .unmapPage d vaddr, A' => d < A.count ∧ A' = spaceUnmap A d vaddr
  | .switchPd _, A' => A' = A
  | .allocFrame, A' => A' = A
  | .heapAllocPages n, A' => ∃ frames : List ℕ, frames.length = n.toNat ∧
      (∀ f ∈ frames, f ∈ free) ∧ A' = spaceHeap A cursor frames

/-- The frames that are not free. -/
def inUse (p : Pmm) : Set Frame := {n | (n : ℕ) ∉ p.clearFrames}

/-- The directories `dirs` in the memory of `s` represent `A`. -/
def Represents (s : Vmm) (dirs : List UInt32) (A : PageSpaces) : Prop :=
  ∃ (roots : ℕ → Frame) (table : ℕ → Fin 1024 → Frame),
    Radix.RepBy pageFormat KernelHalf (words s.mem) (inUse s.pmm) roots table A ∧
    (∀ d, dirs[d]? = if d < A.count then some (framePtr (roots d)) else none) ∧
    s.kernelPd = framePtr (roots 0)

theorem inUse_erase {p p' : Pmm} {n : Frame} (h : p'.clearFrames = p.clearFrames.erase n) :
    inUse p' = insert n (inUse p) := by
  ext n'
  rw [Set.mem_insert_iff]
  show (n' : ℕ) ∉ p'.clearFrames ↔ n' = n ∨ (n' : ℕ) ∉ p.clearFrames
  rw [h, Finset.mem_erase, not_and_or, not_not, Fin.ext_iff]

section
variable {s s' : Vmm} {dirs : List UInt32} {A : PageSpaces} {d : ℕ} {pd : UInt32}

theorem dir_eq {roots : ℕ → Frame}
    (hdirs : ∀ d, dirs[d]? = if d < A.count then some (framePtr (roots d)) else none)
    (hd : dirs[d]? = some pd) : d < A.count ∧ pd = framePtr (roots d) := by
  rw [hdirs] at hd
  split_ifs at hd with hlt
  exact ⟨hlt, (Option.some.inj hd).symm⟩

theorem Represents.lt_count (h : Represents s dirs A) (hd : dirs[d]? = some pd) : d < A.count := by
  obtain ⟨_, _, _, hdirs, _⟩ := h
  exact (dir_eq hdirs hd).1

theorem Represents.length_dirs (h : Represents s dirs A) : dirs.length = A.count := by
  obtain ⟨roots, _, _, hdirs, _⟩ := h
  apply le_antisymm
  · rw [← List.getElem?_eq_none_iff, hdirs, if_neg (Nat.lt_irrefl _)]
  · by_contra hlt
    have hnone := hdirs dirs.length
    rw [if_pos (Nat.lt_of_not_le hlt), List.getElem?_eq_none le_rfl] at hnone
    cases hnone

theorem Represents.mapPage (h : Represents s dirs A) (hd : dirs[d]? = some pd)
    {vaddr paddr flags : UInt32} (hok : vmmMapPage s pd vaddr paddr flags = .ok s') :
    Represents s' dirs (spaceMap A d vaddr paddr flags) := by
  obtain ⟨roots, table, hrep, hdirs, hkernel⟩ := h
  obtain ⟨hlt, rfl⟩ := dir_eq hdirs hd
  have hentry := hrep.entry d hlt (dirIx vaddr)
  have hleaf := leaf_pteWord paddr flags
  have hkernel' := (vmmMapPage_keeps hok).kernelPd_eq
  obtain ⟨t, u, hlink, hpmm, hwords⟩ | ⟨hnone, f, hf, hpmm, hwords⟩ := vmmMapPage_ok hok
  · -- the table is there
    obtain ⟨u', hu', _⟩ := Option.map_eq_some_iff.mp (hentry ▸ hlink)
    have hmap : spaceMap A d vaddr paddr flags =
        A.setPage d (dirIx vaddr) (tabIx vaddr) (some (pteWord paddr flags)) := by
      unfold spaceMap Radix.Spaces.map
      rw [hu']
    refine ⟨roots, table, ?_, ?_, hkernel'.trans hkernel⟩
    · rw [hpmm, hwords, hmap, ← hleaf]
      exact hrep.put hlt hlink _ _
    · rw [hmap]
      exact hdirs
  · -- a fresh frame becomes the table
    rw [hentry, Option.map_eq_none_iff] at hnone
    have hmap : spaceMap A d vaddr paddr flags =
        (A.link d (dirIx vaddr) (pdeBits flags)).setPage d (dirIx vaddr) (tabIx vaddr)
          (some (pteWord paddr flags)) := by
      unfold spaceMap Radix.Spaces.map
      rw [hnone]
    have hlinked := hrep.link hlt hnone (n := f) (fun hmem => hmem hf) (entry_pdeWord f flags)
    have hput := hlinked.put hlt (t := f) (u := pdeBits flags)
      (by rw [Radix.put_apply, if_pos ⟨rfl, rfl⟩, entry_pdeWord]) (tabIx vaddr) (pteWord paddr flags)
    rw [hleaf, ← hmap, ← hwords, ← inUse_erase hpmm] at hput
    refine ⟨roots, _, hput, ?_, hkernel'.trans hkernel⟩
    rw [hmap]
    exact hdirs

theorem Represents.unmapPage (h : Represents s dirs A) (hd : dirs[d]? = some pd) (vaddr : UInt32) :
    Represents (vmmUnmapPage s pd vaddr) dirs (spaceUnmap A d vaddr) := by
  obtain ⟨roots, table, hrep, hdirs, hkernel⟩ := h
  obtain ⟨hlt, rfl⟩ := dir_eq hdirs hd
  have hentry := hrep.entry d hlt (dirIx vaddr)
  rcases vmmUnmapPage_words s (roots d) vaddr with ⟨hnone, hsame⟩ | ⟨t, u, hlink, mem, hs, hwords⟩
  · -- no table: the page was not mapped
    rw [hentry, Option.map_eq_none_iff] at hnone
    have hpage := hrep.page_linked _ _ (tabIx vaddr) hnone
    rw [hsame, spaceUnmap, Radix.Spaces.setPage_eq_self hpage]
    exact ⟨roots, table, hrep, hdirs, hkernel⟩
  · rw [hs]
    refine ⟨roots, table, ?_, hdirs, hkernel⟩
    show Radix.RepBy _ _ (words mem) _ _ _ _
    rw [hwords, spaceUnmap, ← pageFormat.leaf_zero]
    exact hrep.put hlt hlink _ _

theorem Represents.createUserPd (h : Represents s dirs A) (hok : vmmCreateUserPd s = .ok (pd, s')) :
    Represents s' (dirs ++ [pd]) (A.create KernelHalf) := by
  have hlen := h.length_dirs
  obtain ⟨roots, table, hrep, hdirs, hkernel⟩ := h
  have hkernel' := (vmmCreateUserPd_keeps hok).kernelPd_eq
  obtain ⟨n, hn, rfl, hpmm, hother, hcopy⟩ :=
    vmmCreateUserPd_ok hok hkernel (hrep.root_used 0 hrep.count_pos)
  refine ⟨Function.update roots A.count n, table, ?_, ?_, ?_⟩
  · rw [inUse_erase hpmm]
    exact hrep.create (fun hmem => hmem hn) hother hcopy
  · intro d
    show (dirs ++ [framePtr n])[d]? = if d < A.count + 1 then _ else none
    rcases Nat.lt_trichotomy d A.count with hlt | rfl | hgt
    · rw [List.getElem?_append_left (hlen ▸ hlt), hdirs, if_pos hlt, if_pos (by omega),
        Function.update_of_ne hlt.ne]
    · rw [← hlen, List.getElem?_concat_length, if_pos (Nat.lt_succ_self _), Function.update_self]
    · rw [List.getElem?_eq_none (by simp; omega), if_neg (by omega)]
  · rw [hkernel', hkernel, Function.update_of_ne hrep.count_pos.ne]

theorem Represents.alloc (h : Represents s dirs A) {phys : UInt32} {pmm : Pmm}
    (hok : pmmAllocFrame s.pmm = .ok (phys, pmm)) : Represents { s with pmm } dirs A := by
  obtain ⟨roots, table, hrep, hdirs, hkernel⟩ := h
  obtain ⟨n, _, _, hpmm⟩ := pmmAllocFrame_frame hok
  refine ⟨roots, table, ?_, hdirs, hkernel⟩
  rw [inUse_erase hpmm]
  exact hrep.mono (Set.subset_insert _ _)

theorem Represents.kernel_dir (h : Represents s dirs A) : dirs[0]? = some s.kernelPd := by
  obtain ⟨roots, _, hrep, hdirs, hkernel⟩ := h
  rw [hdirs, if_pos hrep.count_pos, hkernel]

/-- **`heap_alloc_pages`** maps consecutive pages of the kernel directory, each on a frame that was
clear. -/
theorem Represents.heapAllocPages (h : Represents s dirs A) {n : ℕ} {cursor cursor' : UInt32}
    (hok : heapAllocPages n s cursor = .ok (s', cursor')) :
    ∃ frames : List ℕ, frames.length = n ∧ (∀ f ∈ frames, f ∈ s.pmm.clearFrames) ∧
      Represents s' dirs (spaceHeap A cursor frames) := by
  induction n generalizing s A cursor with
  | zero =>
      obtain ⟨rfl, _⟩ := Prod.mk.inj (Except.ok.inj hok)
      exact ⟨[], rfl, by simp, h⟩
  | succ n ih =>
      obtain ⟨⟨phys, pmm⟩, halloc, hpage⟩ := bind_eq_ok hok
      dsimp only at hpage
      obtain ⟨s₁, hmap, hrest⟩ := bind_eq_ok hpage
      obtain ⟨f, hf, rfl, _⟩ := pmmAllocFrame_frame halloc
      have h₁ := h.alloc halloc
      obtain ⟨frames, hlen, hframes, hrep⟩ := ih (h₁.mapPage h₁.kernel_dir hmap) hrest
      have hshrinks := (pmmAllocFrame_shrinks halloc).trans (vmmMapPage_keeps hmap).shrinks
      refine ⟨f :: frames, by rw [List.length_cons, hlen], ?_, hrep⟩
      intro g hg
      rcases List.mem_cons.mp hg with rfl | hg
      · exact hf
      · exact hshrinks (hframes g hg)

/-- After `vmm_init` there is one directory, empty. -/
theorem represents_start {s s' : Vmm} (hok : vmmInit s = .ok s') :
    Represents s' [s'.kernelPd] Radix.Spaces.first := by
  obtain ⟨n, hn, hpmm, hkernel, _, hwords⟩ := vmmInit_ok hok
  refine ⟨fun _ => n, fun _ _ => n, ?_, ?_, hkernel⟩
  · rw [hwords, inUse_erase hpmm]
    exact Radix.RepBy.first rfl (Set.mem_insert _ _)
  · intro d
    rw [hkernel]
    cases d with
    | zero => rfl
    | succ d => exact (if_neg (by simp [Radix.Spaces.first])).symm

/-- CR3 keeps its directory or takes another one of the client. -/
def Cr3Step (c c' : VmmClient) : Prop :=
  c'.vmm.cr3 = c.vmm.cr3 ∨
    ∃ (d : ℕ) (pd : UInt32), c.dirs[d]? = some pd ∧ c'.vmm.cr3 = pd - KERNEL_VIRT_BASE

/-- **Every step of the client is a step of the address spaces.** -/
theorem Represents.step {c c' : VmmClient} (h : Represents c.vmm c.dirs A) {op : VmmOp}
    (hstep : c.step op = some c') :
    ∃ A', SpaceStep c.vmm.pmm.clearFrames c.heapCursor A op A' ∧ Represents c'.vmm c'.dirs A' ∧
      c'.vmm.pmm.clearFrames ⊆ c.vmm.pmm.clearFrames ∧ Cr3Step c c' := by
  unfold VmmClient.step at hstep
  cases op with
  | createUserPd =>
      dsimp only at hstep
      split at hstep
      · rename_i pd vmm hok
        obtain rfl := Option.some.inj hstep
        have hkeeps := vmmCreateUserPd_keeps hok
        exact ⟨_, rfl, h.createUserPd hok, hkeeps.shrinks, .inl hkeeps.cr3_eq⟩
      · cases hstep
  | mapPage d vaddr paddr flags =>
      obtain ⟨pd, hd, hstep⟩ := Option.bind_eq_some_iff.mp hstep
      split at hstep
      · rename_i vmm hok
        obtain rfl := Option.some.inj hstep
        have hkeeps := vmmMapPage_keeps hok
        exact ⟨_, ⟨h.lt_count hd, rfl⟩, h.mapPage hd hok, hkeeps.shrinks, .inl hkeeps.cr3_eq⟩
      · cases hstep
  | unmapPage d vaddr =>
      obtain ⟨pd, hd, hstep⟩ := Option.bind_eq_some_iff.mp hstep
      obtain rfl := Option.some.inj hstep
      have hkeeps := vmmUnmapPage_keeps c.vmm pd vaddr
      exact ⟨_, ⟨h.lt_count hd, rfl⟩, h.unmapPage hd vaddr, hkeeps.shrinks, .inl hkeeps.cr3_eq⟩
  | switchPd d =>
      obtain ⟨pd, hd, hstep⟩ := Option.bind_eq_some_iff.mp hstep
      obtain rfl := Option.some.inj hstep
      exact ⟨A, rfl, h, Finset.Subset.refl _, .inr ⟨d, pd, hd, rfl⟩⟩
  | allocFrame =>
      dsimp only at hstep
      split at hstep
      · rename_i phys pmm hok
        obtain rfl := Option.some.inj hstep
        exact ⟨A, rfl, h.alloc hok, pmmAllocFrame_shrinks hok, .inl rfl⟩
      · cases hstep
  | heapAllocPages n =>
      dsimp only at hstep
      split at hstep
      · rename_i vmm cursor hok
        obtain rfl := Option.some.inj hstep
        have hkeeps := heapAllocPages_keeps hok
        obtain ⟨frames, hlen, hframes, hrep⟩ := h.heapAllocPages hok
        exact ⟨_, ⟨frames, hlen, hframes, rfl⟩, hrep, hkeeps.shrinks, .inl hkeeps.cr3_eq⟩
      · cases hstep

/-- A translation is what the address spaces say of the page. -/
theorem Represents.virtToPhys (h : Represents s dirs A) (hd : dirs[d]? = some pd) (vaddr : UInt32) :
    vmmVirtToPhys s pd vaddr =
      pageAddr (A.page (A.owner d (dirIx vaddr)) (dirIx vaddr) (tabIx vaddr)) vaddr := by
  obtain ⟨roots, table, hrep, hdirs, _⟩ := h
  obtain ⟨hlt, rfl⟩ := dir_eq hdirs hd
  rw [vmmVirtToPhys_eq, hrep.walk hlt]
  congr 1
  unfold Radix.Spaces.walk
  cases hlink : A.linked (A.owner d (dirIx vaddr)) (dirIx vaddr) with
  | none =>
      rw [hrep.page_linked _ _ _ hlink]
      rfl
  | some u =>
      cases A.page (A.owner d (dirIx vaddr)) (dirIx vaddr) (tabIx vaddr) with
      | none => rfl
      | some w => rfl

/-- The words that the walk for an address comes to: directory entry and table entry. -/
theorem Represents.entry_cases (h : Represents s dirs A) (hd : dirs[d]? = some pd) (vaddr : UInt32) :
    (A.linked (A.owner d (dirIx vaddr)) (dirIx vaddr) = none ∧
      s.mem (wordPtr pd (PD_INDEX vaddr)) &&& PAGE_PRESENT = 0) ∨
    ∃ pde, s.mem (wordPtr pd (PD_INDEX vaddr)) = pde ∧ pde &&& PAGE_PRESENT ≠ 0 ∧
      A.linked (A.owner d (dirIx vaddr)) (dirIx vaddr) = some (pde &&& 0xFFF) ∧
      pageFormat.leaf (s.mem (wordPtr ((pde &&& ~~~0xFFF) + KERNEL_VIRT_BASE) (PT_INDEX vaddr))) =
        A.page (A.owner d (dirIx vaddr)) (dirIx vaddr) (tabIx vaddr) := by
  obtain ⟨roots, table, hrep, hdirs, _⟩ := h
  obtain ⟨hlt, rfl⟩ := dir_eq hdirs hd
  have hentry := hrep.entry d hlt (dirIx vaddr)
  rw [PD_INDEX_eq, PT_INDEX_eq, mem_wordPtr s.mem]
  cases hlink : A.linked (A.owner d (dirIx vaddr)) (dirIx vaddr) with
  | none =>
      rw [hlink] at hentry
      exact .inl ⟨rfl, entry_eq_none.mp hentry⟩
  | some u =>
      rw [hlink] at hentry
      obtain ⟨hpresent, hptr, rfl⟩ := entry_eq_some hentry
      refine .inr ⟨_, rfl, hpresent, rfl, ?_⟩
      rw [← hptr, mem_wordPtr s.mem]
      exact hrep.leaf _ _ (tabIx vaddr) (hlink ▸ Option.some_ne_none _)

/-- A directory entry is absent where the address spaces have no table. -/
theorem Represents.absent_iff (h : Represents s dirs A) (hd : dirs[d]? = some pd) (vaddr : UInt32) :
    s.mem (wordPtr pd (PD_INDEX vaddr)) &&& PAGE_PRESENT = 0 ↔
      A.linked (A.owner d (dirIx vaddr)) (dirIx vaddr) = none := by
  rcases h.entry_cases hd vaddr with ⟨hlink, habsent⟩ | ⟨pde, rfl, hpresent, hlink, _⟩
  · exact iff_of_true habsent hlink
  · exact iff_of_false hpresent (hlink ▸ Option.some_ne_none _)

theorem Represents.owner_zero (h : Represents s dirs A) (i : Fin 1024) : A.owner 0 i = 0 := by
  obtain ⟨_, _, hrep, _⟩ := h
  exact hrep.owner_zero i

theorem Represents.count_pos (h : Represents s dirs A) : 0 < A.count := by
  obtain ⟨_, _, hrep, _⟩ := h
  exact hrep.count_pos

theorem Represents.page_linked (h : Represents s dirs A) {o : ℕ} {i : Fin 1024}
    (hnone : A.linked o i = none) (k : Fin 1024) : A.page o i k = none := by
  obtain ⟨_, _, hrep, _⟩ := h
  exact hrep.page_linked o i k hnone

/-- A table belongs to a directory, which uses it. -/
theorem Represents.linked_owner (h : Represents s dirs A) {o : ℕ} {i : Fin 1024}
    (hlink : A.linked o i ≠ none) : o < A.count ∧ A.owner o i = o := by
  obtain ⟨_, _, hrep, _⟩ := h
  exact ⟨hrep.linked_lt o i hlink, hrep.linked_owner o i hlink⟩

/-- A part without a table belongs to its own directory. -/
theorem Represents.owner_of_none (h : Represents s dirs A) (hd : d < A.count) {i : Fin 1024}
    (hnone : A.linked 0 i = none) : A.owner d i = d := by
  obtain ⟨_, _, hrep, _⟩ := h
  rcases hrep.owner_cases d hd i with heq | ⟨_, _, hlink⟩
  · exact heq
  · exact absurd hnone hlink

theorem Represents.owner_of_user (h : Represents s dirs A) (hd : d < A.count) {i : Fin 1024}
    (hi : ¬ KernelHalf i) : A.owner d i = d := by
  obtain ⟨_, _, hrep, _⟩ := h
  exact hrep.owner_of_not_shared hd hi

end

/-! ### Pages of the address spaces -/

theorem spaceMap_page (A : PageSpaces) (d : ℕ) (vaddr paddr flags : UInt32) (o : ℕ)
    (j l : Fin 1024) :
    (spaceMap A d vaddr paddr flags).page o j l =
      if o = A.owner d (dirIx vaddr) ∧ j = dirIx vaddr ∧ l = tabIx vaddr then
        some (pteWord paddr flags)
      else A.page o j l := by
  unfold spaceMap
  rw [Radix.Spaces.map_page]
  rfl

theorem spaceMap_owner (A : PageSpaces) (d : ℕ) (vaddr paddr flags : UInt32) :
    (spaceMap A d vaddr paddr flags).owner = A.owner := Radix.Spaces.map_owner ..

theorem spaceMap_count (A : PageSpaces) (d : ℕ) (vaddr paddr flags : UInt32) :
    (spaceMap A d vaddr paddr flags).count = A.count := Radix.Spaces.map_count ..

theorem spaceUnmap_page (A : PageSpaces) (d : ℕ) (vaddr : UInt32) (o : ℕ) (j l : Fin 1024) :
    (spaceUnmap A d vaddr).page o j l =
      if o = A.owner d (dirIx vaddr) ∧ j = dirIx vaddr ∧ l = tabIx vaddr then none
      else A.page o j l := rfl

theorem spaceHeap_cons (A : PageSpaces) (cursor : UInt32) (f : ℕ) (frames : List ℕ) :
    spaceHeap A cursor (f :: frames) =
      spaceHeap (spaceMap A 0 cursor (frameAddr f) 0x003) (cursor + PAGE_SIZE) frames := rfl

theorem spaceMap_linked (A : PageSpaces) (d : ℕ) (vaddr paddr flags : UInt32) (o : ℕ)
    (j : Fin 1024) :
    (spaceMap A d vaddr paddr flags).linked o j =
      if o = A.owner d (dirIx vaddr) ∧ j = dirIx vaddr then
        some ((A.linked o j).getD (pdeBits flags))
      else A.linked o j := Radix.Spaces.map_linked ..

theorem spaceMap_page_ne_none {A : PageSpaces} (d : ℕ) (vaddr paddr flags : UInt32) {o : ℕ}
    {j l : Fin 1024} (h : A.page o j l ≠ none) :
    (spaceMap A d vaddr paddr flags).page o j l ≠ none := by
  rw [spaceMap_page]
  split_ifs
  · exact Option.some_ne_none _
  · exact h

theorem spaceHeap_page_ne_none {A : PageSpaces} (cursor : UInt32) (frames : List ℕ) {o : ℕ}
    {j l : Fin 1024} (h : A.page o j l ≠ none) : (spaceHeap A cursor frames).page o j l ≠ none := by
  induction frames generalizing A cursor with
  | nil => exact h
  | cons f frames ih => exact ih _ (spaceMap_page_ne_none _ _ _ _ h)

/-- The heap maps pages of the kernel directory only. -/
theorem spaceHeap_page_of_ne {A : PageSpaces} (howner : ∀ i, A.owner 0 i = 0) (cursor : UInt32)
    (frames : List ℕ) {o : ℕ} (ho : o ≠ 0) : (spaceHeap A cursor frames).page o = A.page o := by
  induction frames generalizing A cursor with
  | nil => rfl
  | cons f frames ih =>
      have howner' : ∀ i, (spaceMap A 0 cursor (frameAddr f) 0x003).owner 0 i = 0 := by
        rw [spaceMap_owner]
        exact howner
      refine (ih howner' _).trans ?_
      funext j l
      rw [spaceMap_page, howner, if_neg fun h => ho h.1]

/-! ### Runs that return -/

theorem vmmInit_returns {s : Vmm} {n : ℕ} (h : s.pmm.Room (n + 1)) :
    ∃ s', vmmInit s = .ok s' ∧ s'.pmm.Room n := by
  obtain ⟨phys, p', hok, hroom⟩ := h.alloc
  unfold vmmInit
  rw [hok]
  exact ⟨_, rfl, hroom⟩

theorem vmmCreateUserPd_returns {s : Vmm} {n : ℕ} (h : s.pmm.Room (n + 1)) :
    ∃ pd s', vmmCreateUserPd s = .ok (pd, s') ∧ s'.pmm.Room n := by
  obtain ⟨phys, p', hok, hroom⟩ := h.alloc
  unfold vmmCreateUserPd
  rw [hok]
  exact ⟨_, _, rfl, hroom⟩

theorem vmmMapPage_returns {s : Vmm} {n : ℕ} (h : s.pmm.Room (n + 1))
    (pd vaddr paddr flags : UInt32) :
    ∃ s', vmmMapPage s pd vaddr paddr flags = .ok s' ∧ s'.pmm.Room n := by
  unfold vmmMapPage pageTable
  split_ifs
  · obtain ⟨phys, p', hok, hroom⟩ := h.alloc
    rw [hok]
    exact ⟨_, rfl, hroom⟩
  · exact ⟨_, rfl, h.mono (Nat.le_succ n)⟩

/-- Directories are created, and pages mapped in directories that exist. -/
def Runnable : ℕ → List VmmOp → Prop
  | _, [] => True
  | n, .createUserPd :: ops => Runnable (n + 1) ops
  | n, .mapPage d _ _ _ :: ops => d < n ∧ Runnable n ops
  | _, _ :: _ => False

/-- How many directories there are after such a run. -/
def dirCount : ℕ → List VmmOp → ℕ
  | n, [] => n
  | n, .createUserPd :: ops => dirCount (n + 1) ops
  | n, _ :: ops => dirCount n ops

theorem Runnable.returns {c : VmmClient} {ops : List VmmOp} (hops : Runnable c.dirs.length ops)
    (hroom : c.vmm.pmm.Room ops.length) :
    ∃ c', Runs.haltingRun VmmClient.step c ops = some c' ∧
      c'.dirs.length = dirCount c.dirs.length ops := by
  induction ops generalizing c with
  | nil => exact ⟨c, rfl, rfl⟩
  | cons op ops ih =>
      cases op with
      | createUserPd =>
          obtain ⟨pd, s', hok, hroom'⟩ := vmmCreateUserPd_returns hroom
          have hstep : c.step .createUserPd = some { c with vmm := s', dirs := c.dirs ++ [pd] } := by
            unfold VmmClient.step
            dsimp only
            rw [hok]
          have hlen : (c.dirs ++ [pd]).length = c.dirs.length + 1 := List.length_append
          obtain ⟨c', hc', hcount⟩ := ih (c := { c with vmm := s', dirs := c.dirs ++ [pd] })
            (hlen ▸ hops) hroom'
          exact ⟨c', Runs.haltingRun_cons.mpr ⟨_, hstep, hc'⟩, hcount.trans (by rw [hlen]; rfl)⟩
      | mapPage d vaddr paddr flags =>
          obtain ⟨hd, hops⟩ := hops
          obtain ⟨s', hok, hroom'⟩ :=
            vmmMapPage_returns hroom c.dirs[d] vaddr paddr flags
          have hstep : c.step (.mapPage d vaddr paddr flags) = some { c with vmm := s' } := by
            unfold VmmClient.step
            dsimp only
            rw [List.getElem?_eq_getElem hd, Option.bind_eq_bind, Option.bind_some, hok]
          obtain ⟨c', hc', hcount⟩ := ih (c := { c with vmm := s' }) hops hroom'
          exact ⟨c', Runs.haltingRun_cons.mpr ⟨_, hstep, hc'⟩, hcount⟩
      | unmapPage d vaddr => exact absurd hops id
      | switchPd d => exact absurd hops id
      | allocFrame => exact absurd hops id
      | heapAllocPages n => exact absurd hops id

/-- With a megabyte of memory `vmm_init` and a short run of such operations return. -/
theorem Runnable.returns_roomyMap (ops : List VmmOp) (hops : Runnable 1 ops)
    (hlen : ops.length ≤ 255) :
    ∃ s₀ c, vmmInit (bootVmm smallKernel roomyMap (fun _ => 0) 0) = .ok s₀ ∧
      Runs.haltingRun VmmClient.step (VmmClient.start s₀) ops = some c ∧
      c.dirs.length = dirCount 1 ops := by
  have hroom : (bootVmm smallKernel roomyMap (fun _ => 0) 0).pmm.Room (ops.length + 1) := by
    rw [bootVmm_pmm]
    exact roomyMap_room.mono (by omega)
  obtain ⟨s₀, hinit, hroom₀⟩ := vmmInit_returns hroom
  obtain ⟨c, hc⟩ := Runnable.returns (c := VmmClient.start s₀) hops hroom₀
  exact ⟨s₀, c, hinit, hc⟩

end LunaOs
