import LunaOs.HeapCalls

/-! # The pages under the heap

Every page between the start of the heap and the cursor is mapped in the kernel directory: the cursor
moves past a page only after `vmm_map_page`, and nothing unmaps pages again. -/

namespace LunaOs

/-- The directory has a table entry for the page of `vaddr`. -/
def PageMapped (s : Vmm) (pd vaddr : UInt32) : Prop :=
  let pde := s.mem (wordPtr pd (PD_INDEX vaddr))
  let pte := s.mem (wordPtr ((pde &&& ~~~0xFFF) + KERNEL_VIRT_BASE) (PT_INDEX vaddr))
  pde &&& PAGE_PRESENT ≠ 0 ∧ pte &&& PAGE_PRESENT ≠ 0

theorem Represents.pageMapped {s : Vmm} {dirs : List UInt32} {A : PageSpaces} {d : ℕ} {pd : UInt32}
    (h : Represents s dirs A) (hd : dirs[d]? = some pd) {vaddr : UInt32}
    (hpage : A.page (A.owner d (dirIx vaddr)) (dirIx vaddr) (tabIx vaddr) ≠ none) :
    PageMapped s pd vaddr := by
  unfold PageMapped
  dsimp only
  rcases h.entry_cases hd vaddr with ⟨hlink, _⟩ | ⟨pde, hpde, hpresent, _, hleaf⟩
  · exact absurd (h.page_linked hlink _) hpage
  · rw [hpde]
    refine ⟨hpresent, fun habsent => hpage ?_⟩
    rw [← hleaf]
    exact if_pos habsent

/-- Each page that the heap maps is there. -/
theorem spaceHeap_page {A : PageSpaces} (howner : ∀ i, A.owner 0 i = 0) {cursor : UInt32}
    (frames : List ℕ) (hcursor : cursor.toNat % 4096 = 0)
    (hroom : cursor.toNat + frames.length * 4096 < 2 ^ 32) {vaddr : UInt32} (hle : cursor ≤ vaddr)
    (hlt : vaddr.toNat < cursor.toNat + frames.length * 4096) :
    (spaceHeap A cursor frames).page 0 (dirIx vaddr) (tabIx vaddr) ≠ none := by
  induction frames generalizing A cursor with
  | nil =>
      rw [UInt32.le_iff_toNat_le] at hle
      rw [List.length_nil] at hlt
      omega
  | cons f frames ih =>
      rw [List.length_cons] at hroom hlt
      rw [UInt32.le_iff_toNat_le] at hle
      have hpage : PAGE_SIZE.toNat = 4096 := rfl
      have hnext : (cursor + PAGE_SIZE).toNat = cursor.toNat + 4096 := by
        rw [UInt32.toNat_add, hpage]
        omega
      rw [spaceHeap_cons]
      by_cases hfirst : vaddr.toNat < cursor.toNat + 4096
      · have hdir : dirIx vaddr = dirIx cursor := by
          apply Fin.ext
          show vaddr.toNat / 2 ^ 22 = cursor.toNat / 2 ^ 22
          omega
        have htab : tabIx vaddr = tabIx cursor := by
          apply Fin.ext
          show vaddr.toNat / 4096 % 1024 = cursor.toNat / 4096 % 1024
          omega
        refine spaceHeap_page_ne_none _ _ ?_
        rw [hdir, htab, spaceMap_page, howner, if_pos ⟨rfl, rfl, rfl⟩]
        exact Option.some_ne_none _
      · refine ih ?_ (by omega) (by omega) (by rw [UInt32.le_iff_toNat_le]; omega) (by omega)
        rw [spaceMap_owner]
        exact howner

/-! ### Growth -/

/-- The heap takes some pages, or none. -/
def Grows (heap heap' : Heap) : Prop :=
  ∃ n, n * 4096 < 2 ^ 32 ∧
    heapAllocPages n heap.vmm heap.cursor = .ok (heap'.vmm, heap'.cursor)

theorem Grows.same {heap heap' : Heap} (hvmm : heap'.vmm = heap.vmm)
    (hcursor : heap'.cursor = heap.cursor) : Grows heap heap' :=
  ⟨0, by decide, by rw [hvmm, hcursor]; rfl⟩

theorem extendSlab_pages {heap heap' : Heap} {i : Fin NUM_SLABS}
    (hok : extendSlab heap i = .ok heap') :
    heapAllocPages 4 heap.vmm heap.cursor = .ok (heap'.vmm, heap'.cursor) := by
  obtain ⟨⟨vmm, cursor⟩, hpages, hret⟩ := bind_eq_ok hok
  obtain rfl := Except.ok.inj hret
  exact hpages

theorem extendSlab_grows {heap heap' : Heap} {i : Fin NUM_SLABS}
    (hok : extendSlab heap i = .ok heap') : Grows heap heap' :=
  ⟨4, by decide, extendSlab_pages hok⟩

theorem kMalloc_grows {heap heap' : Heap} {size p : UInt32}
    (hok : kMalloc heap size = .ok (p, heap')) : Grows heap heap' := by
  rcases kMalloc_cases hok with ⟨_, _, rfl⟩ | ⟨_, i, mid, _, hmid, _, rfl⟩ | ⟨_, _, hlarge⟩
  · exact .same rfl rfl
  · rcases refill_cases hmid with ⟨_, hext⟩ | ⟨_, rfl⟩
    · obtain ⟨n, hn, hpages⟩ := extendSlab_grows hext
      exact ⟨n, hn, hpages⟩
    · exact .same rfl rfl
  · obtain ⟨⟨vmm, cursor⟩, hpages, hret⟩ := bind_eq_ok hlarge
    obtain ⟨_, rfl⟩ := Prod.mk.inj (Except.ok.inj hret)
    refine ⟨_, ?_, hpages⟩
    have hlt := (size + LARGE_HDR_SIZE + PAGE_SIZE - 1).toNat_lt
    rw [UInt32.toNat_div]
    show (size + LARGE_HDR_SIZE + PAGE_SIZE - 1).toNat / 4096 * 4096 < 2 ^ 32
    omega

theorem kFree_same (heap : Heap) (p : UInt32) :
    (kFree heap p).vmm = heap.vmm ∧ (kFree heap p).cursor = heap.cursor := by
  unfold kFree
  split_ifs
  · exact ⟨rfl, rfl⟩
  · exact ⟨rfl, rfl⟩
  · split <;> exact ⟨rfl, rfl⟩

/-- All pages up to the cursor are mapped. -/
def HeapMapped (heap : Heap) : Prop :=
  ∃ A, Represents heap.vmm [heap.vmm.kernelPd] A ∧
    ∀ vaddr, HEAP_VIRT_BASE ≤ vaddr → vaddr < heap.cursor →
      A.page 0 (dirIx vaddr) (tabIx vaddr) ≠ none

theorem HeapMapped.pageMapped {heap : Heap} (h : HeapMapped heap) {vaddr : UInt32}
    (hle : HEAP_VIRT_BASE ≤ vaddr) (hlt : vaddr < heap.cursor) :
    PageMapped heap.vmm heap.vmm.kernelPd vaddr := by
  obtain ⟨A, hrep, hpages⟩ := h
  refine hrep.pageMapped (d := 0) rfl ?_
  rw [hrep.owner_zero]
  exact hpages vaddr hle hlt

theorem HeapMapped.grow {heap heap' : Heap} (h : HeapMapped heap) (hgrows : Grows heap heap')
    (hpage : heap.cursor.toNat % 4096 = 0) (hle : heap.cursor ≤ heap'.cursor) :
    HeapMapped heap' := by
  obtain ⟨A, hrep, hpages⟩ := h
  obtain ⟨n, hn, hok⟩ := hgrows
  have hkernel := (heapAllocPages_keeps hok).kernelPd_eq
  obtain ⟨frames, hlen, _, hrep'⟩ := hrep.heapAllocPages hok
  have hcursor := toNat_cursor hok hn hle
  have hlt := heap'.cursor.toNat_lt
  refine ⟨spaceHeap A heap.cursor frames, hkernel ▸ hrep', fun vaddr hlo hhi => ?_⟩
  rcases Nat.lt_or_ge vaddr.toNat heap.cursor.toNat with hold | hnew
  · exact spaceHeap_page_ne_none _ _ (hpages vaddr hlo (UInt32.lt_iff_toNat_lt.mpr hold))
  · rw [UInt32.lt_iff_toNat_lt] at hhi
    exact spaceHeap_page hrep.owner_zero frames hpage (by omega)
      (UInt32.le_iff_toNat_le.mpr hnew) (by omega)

/-! ### Starting the heap -/

/-- The variables of `heap.c` before `heap_init`; `mem` is what the memory held. -/
def Heap.boot (vmm : Vmm) (mem : UInt32 → UInt8) : Heap :=
  ⟨vmm, HEAP_VIRT_BASE, mem, fun _ => ⟨0, 0, 0, 0⟩⟩

theorem heapAllocPages_returns {s : Vmm} {m : ℕ} (n : ℕ) (h : s.pmm.Room (2 * n + m))
    (cursor : UInt32) :
    ∃ s' cursor', heapAllocPages n s cursor = .ok (s', cursor') ∧ s'.pmm.Room m := by
  induction n generalizing s cursor with
  | zero => exact ⟨s, cursor, rfl, by simpa using h⟩
  | succ n ih =>
      obtain ⟨phys, pmm, halloc, hroom⟩ :=
        Pmm.Room.alloc (n := 2 * n + m + 1) (by rwa [show 2 * n + m + 1 + 1 = 2 * (n + 1) + m by omega])
      obtain ⟨s₁, hmap, hroom₁⟩ :=
        vmmMapPage_returns (s := { s with pmm }) hroom s.kernelPd cursor phys 0x003
      obtain ⟨s', cursor', hok, hroom'⟩ := ih hroom₁ (cursor + PAGE_SIZE)
      refine ⟨s', cursor', ?_, hroom'⟩
      unfold heapAllocPages
      rw [halloc]
      show (vmmMapPage { s with pmm } s.kernelPd cursor phys 0x003 >>= _) = _
      rw [hmap]
      exact hok

theorem extendSlab_returns (heap : Heap) {m : ℕ} (h : heap.vmm.pmm.Room (8 + m))
    (i : Fin NUM_SLABS) : ∃ heap', extendSlab heap i = .ok heap' ∧ heap'.vmm.pmm.Room m := by
  obtain ⟨vmm, cursor, hok, hroom⟩ := heapAllocPages_returns (m := m) 4 h heap.cursor
  unfold extendSlab
  rw [show SLAB_PAGES.toNat = 4 from rfl, hok]
  exact ⟨_, rfl, hroom⟩

theorem initCaches_returns (heap : Heap) {m : ℕ} (l : List (Fin NUM_SLABS))
    (h : heap.vmm.pmm.Room (8 * l.length + m)) :
    ∃ heap', l.foldlM initCache heap = .ok heap' ∧ heap'.vmm.pmm.Room m := by
  induction l generalizing heap with
  | nil => exact ⟨heap, rfl, by simpa using h⟩
  | cons i l ih =>
      rw [List.length_cons, show 8 * (l.length + 1) + m = 8 + (8 * l.length + m) by omega] at h
      obtain ⟨heap₁, hok₁, hroom₁⟩ := extendSlab_returns
        { heap with caches := Function.update heap.caches i ⟨0, slabSize i, 0, 0⟩ } h i
      obtain ⟨heap', hok, hroom⟩ := ih heap₁ hroom₁
      refine ⟨heap', ?_, hroom⟩
      rw [List.foldlM_cons, initCache, hok₁]
      exact hok

/-- With a megabyte of memory `heap_init` returns. -/
theorem heapInit_returns_roomyMap (mem : UInt32 → UInt8) :
    ∃ s₀ heap, vmmInit (bootVmm smallKernel roomyMap (fun _ => 0) 0) = .ok s₀ ∧
      heapInit (Heap.boot s₀ mem) = .ok heap := by
  have hroom : (bootVmm smallKernel roomyMap (fun _ => 0) 0).pmm.Room (64 + 1) := by
    rw [bootVmm_pmm]
    exact roomyMap_room.mono (by decide)
  obtain ⟨s₀, hinit, hroom₀⟩ := vmmInit_returns hroom
  obtain ⟨heap, hok, _⟩ := initCaches_returns (m := 0) (Heap.boot s₀ mem)
    (List.finRange NUM_SLABS) (by rw [List.length_finRange]; exact hroom₀)
  exact ⟨s₀, heap, hinit, hok⟩

end LunaOs
