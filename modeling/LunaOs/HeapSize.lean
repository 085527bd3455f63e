import LunaOs.HeapRun

/-! # Requests near the top of the address space

The size with its header, the page count and the cursor are sums of 32-bit words.  A request of more
than `2 ^ 32 - 4104` bytes wraps around before it is divided into pages, so that `k_malloc` takes a
page or none for it; and the cursor wraps around when the pages do not fit below 4 GB. -/

namespace LunaOs

open ByteMem Extents

/-- The pages that `k_malloc` needs for a request. -/
def pagesNeeded (heap : Heap) (size : UInt32) : ℕ :=
  match findCache heap size with
  | some i => if (heap.caches i).freeList = 0 then SLAB_PAGES.toNat else 0
  | none => (size.toNat + 8 + 4095) / 4096

/-- The pages fit between the cursor and 4 GB. -/
def HasRoom (heap : Heap) (size : UInt32) : Prop :=
  size = 0 ∨ heap.cursor.toNat + pagesNeeded heap size * 4096 < 2 ^ 32

/-- There are addresses for the pages that an operation may need. -/
def HeapClient.HasRoom (c : HeapClient) : HeapOp → Prop
  | .malloc size => LunaOs.HasRoom c.heap size
  | _ => True

/-- The cursor did not wrap around, and `b` is a block as good as those before: in mapped pages between
the start of the heap and the cursor, apart from the other blocks and from the free lists. -/
structure MallocSound (c : HeapClient) (heap' : Heap) (b : Block) : Prop where
  cursor_le : c.heap.cursor ≤ heap'.cursor
  blocks : BlocksSafe ⟨heap', b :: c.live⟩

section
variable {heap heap' : Heap} {objects : UInt32 → Option Tag} {nodes : Fin NUM_SLABS → List UInt32}
  {c : HeapClient} {size p : UInt32}

theorem roundsBelow_of_small (h : size.toNat ≤ 1024) : RoundsBelow size := by
  unfold RoundsBelow
  omega

theorem kMalloc_pages (hpos : size ≠ 0) (hround : RoundsBelow size)
    (hok : kMalloc heap size = .ok (p, heap')) :
    heapAllocPages (pagesNeeded heap size) heap.vmm heap.cursor = .ok (heap'.vmm, heap'.cursor) := by
  unfold pagesNeeded
  rcases kMalloc_cases hok with
    ⟨hzero, _⟩ | ⟨_, i, mid, hfind, hmid, _, rfl⟩ | ⟨_, hfind, hlarge⟩
  · exact absurd hzero hpos
  · rw [hfind]
    dsimp only
    rcases refill_cases hmid with ⟨hnull, hext⟩ | ⟨hne, rfl⟩
    · rw [if_pos hnull]
      have hpages := extendSlab_pages hext
      exact hpages
    · rw [if_neg hne]
      rfl
  · rw [hfind]
    obtain ⟨⟨vmm, cursor⟩, hpages, hret⟩ := bind_eq_ok hlarge
    obtain ⟨_, rfl⟩ := Prod.mk.inj (Except.ok.inj hret)
    rw [largePages_toNat hround] at hpages
    exact hpages

theorem pagesNeeded_lt (hround : RoundsBelow size) : pagesNeeded heap size * 4096 < 2 ^ 32 := by
  unfold pagesNeeded
  split
  · split_ifs <;> decide
  · exact hround

theorem HasRoom.roundsBelow (hsized : heap.Sized) (h : HasRoom heap size) : RoundsBelow size := by
  rcases h with rfl | hroom
  · exact roundsBelow_of_small (Nat.zero_le _)
  · unfold pagesNeeded at hroom
    cases hfind : findCache heap size with
    | some i =>
        have hfit := UInt32.le_iff_toNat_le.mp (findCache_eq_some hsized hfind)
        have hslab := (slabSize_bounds i).2.2.1
        exact roundsBelow_of_small (by omega)
    | none =>
        rw [hfind] at hroom
        dsimp only at hroom
        unfold RoundsBelow
        omega

/-- **The cursor does not wrap around** exactly if there is room. -/
theorem hasRoom_iff (hpos : size ≠ 0) (hround : RoundsBelow size)
    (hok : kMalloc heap size = .ok (p, heap')) :
    HasRoom heap size ↔ heap.cursor ≤ heap'.cursor := by
  have hpages := kMalloc_pages hpos hround hok
  have hlt : pagesNeeded heap size * 4096 < 2 ^ 32 := pagesNeeded_lt hround
  constructor
  · intro h
    have hroom := h.resolve_left hpos
    have hcursor := heapAllocPages_cursor hpages
    rw [UInt32.le_iff_toNat_le, hcursor, toNat_add_of_lt hroom]
    exact Nat.le_add_right _ _
  · intro hle
    have hcursor := toNat_cursor hpages hlt hle
    have hend := heap'.cursor.toNat_lt
    exact .inr (by omega)

theorem HeapClient.HasRoom.fits (hsized : c.heap.Sized) {op : HeapOp} (h : c.HasRoom op) :
    c.Fits op := by
  cases op with
  | malloc size =>
      have hround := LunaOs.HasRoom.roundsBelow hsized h
      refine ⟨hround, fun p heap hok => ?_⟩
      by_cases hpos : size = 0
      · obtain ⟨_, _, rfl⟩ := (kMalloc_cases hok).resolve_right (by simp [hpos])
        exact UInt32.le_refl _
      · exact (hasRoom_iff hpos hround hok).mp h
  | free ptr => trivial
  | write ptr off value => trivial

theorem HeapClient.Fits.hasRoom {c' : HeapClient} {op : HeapOp} (h : c.Fits op)
    (hstep : c.step op = some c') : c.HasRoom op := by
  cases op with
  | malloc size =>
      obtain ⟨hround, hcursor⟩ := h
      obtain ⟨ptr, heap, hok, _⟩ := HeapClient.step_malloc hstep
      by_cases hpos : size = 0
      · exact .inl hpos
      · exact (hasRoom_iff hpos hround hok).mpr (hcursor ptr heap hok)
  | free ptr => trivial
  | write ptr off value => trivial

theorem RoundsBelow.of_within (hbase : HEAP_VIRT_BASE.toNat ≤ p.toNat)
    (hend : p.toNat + size.toNat ≤ heap'.cursor.toNat) : RoundsBelow size := by
  have hlt := heap'.cursor.toNat_lt
  rw [heapBase_toNat] at hbase
  unfold RoundsBelow
  omega

theorem ClientHolds.mallocSound (h : ClientHolds c objects nodes) (hpos : size ≠ 0)
    (hround : RoundsBelow size) (hok : kMalloc c.heap size = .ok (p, heap'))
    (hle : c.heap.cursor ≤ heap'.cursor) : MallocSound c heap' ⟨p, size⟩ := by
  obtain ⟨objects', nodes', t, h', hsized, hptr, hsize, hkeep⟩ :=
    h.holds.kMalloc h.sized hround hpos hok hle
  have hmapped := h.mapped.grow (kMalloc_grows hok) h.holds.cursor_page hle
  exact ⟨hle, (h.add h' hsized hmapped hptr hsize hkeep).blocksSafe⟩

theorem ClientHolds.mallocSound_iff (h : ClientHolds c objects nodes) (hpos : size ≠ 0)
    (hok : kMalloc c.heap size = .ok (p, heap')) :
    MallocSound c heap' ⟨p, size⟩ ↔ HasRoom c.heap size := by
  constructor
  · intro hsound
    obtain ⟨hbase, hend⟩ := hsound.blocks.within ⟨p, size⟩ List.mem_cons_self
    exact (hasRoom_iff hpos (.of_within hbase hend) hok).mpr hsound.cursor_le
  · intro hroom
    have hround := hroom.roundsBelow h.sized
    exact h.mallocSound hpos hround hok ((hasRoom_iff hpos hround hok).mp hroom)

theorem eachStep_fits (h : ClientHolds c objects nodes) {ops : List HeapOp}
    (hroom : Runs.EachStep HeapClient.step HeapClient.HasRoom c ops) :
    Runs.EachStep HeapClient.step HeapClient.Fits c ops := by
  refine Runs.EachStep.mono_of (fun c => ∃ objects nodes, ClientHolds c objects nodes) ?_ ?_
    ⟨objects, nodes, h⟩ hroom
  · rintro c op c' ⟨objects, nodes, h⟩ hop hstep
    exact h.step (HeapClient.HasRoom.fits h.sized hop) hstep
  · rintro c op c' ⟨objects, nodes, h⟩ hop _
    exact HeapClient.HasRoom.fits h.sized hop

theorem clientHolds_roomyRun {s s₀ : Vmm} {mem : UInt32 → UInt8} (hinit : vmmInit s = .ok s₀)
    (hheap : heapInit (Heap.boot s₀ mem) = .ok heap) {ops : List HeapOp}
    (hroom : Runs.EachStep HeapClient.step HeapClient.HasRoom (HeapClient.start heap) ops)
    (hrun : Runs.haltingRun HeapClient.step (HeapClient.start heap) ops = some c) :
    ∃ objects nodes, ClientHolds c objects nodes := by
  obtain ⟨objects, nodes, h, _⟩ := clientHolds_start hinit hheap
  exact clientHolds_run hinit hheap (eachStep_fits h hroom) hrun

end

/-- After `heap_init` with a megabyte of memory there are frames left for more pages. -/
theorem heapInit_leaves (mem : UInt32 → UInt8) :
    ∃ s₀ heap, vmmInit (bootVmm smallKernel roomyMap (fun _ => 0) 0) = .ok s₀ ∧
      heapInit (Heap.boot s₀ mem) = .ok heap ∧ heap.vmm.pmm.Room 2 := by
  have hroom : (bootVmm smallKernel roomyMap (fun _ => 0) 0).pmm.Room (66 + 1) := by
    rw [bootVmm_pmm]
    exact roomyMap_room.mono (by decide)
  obtain ⟨s₀, hinit, hroom₀⟩ := vmmInit_returns hroom
  obtain ⟨heap, hok, hleft⟩ := initCaches_returns (m := 2) (Heap.boot s₀ mem)
    (List.finRange NUM_SLABS) (by rw [List.length_finRange]; exact hroom₀)
  exact ⟨s₀, heap, hinit, hok, hleft⟩

theorem allocLarge_returns {heap : Heap} {size cursor : UInt32} {vmm : Vmm} {n : ℕ}
    (hn : ((size + LARGE_HDR_SIZE + PAGE_SIZE - 1) / PAGE_SIZE).toNat = n)
    (hok : heapAllocPages n heap.vmm heap.cursor = .ok (vmm, cursor)) :
    ∃ heap', allocLarge heap size = .ok (heap.cursor + LARGE_HDR_SIZE, heap') ∧
      heap'.cursor = cursor := by
  unfold allocLarge
  dsimp only
  rw [hn, hok]
  exact ⟨_, rfl, rfl⟩

end LunaOs
