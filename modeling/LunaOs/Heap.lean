import LunaOs.VmmSpaces
import LunaOs.Lib.ByteMem

/-! # The slab allocator of `kernel/heap.c`

Eight caches of objects of 8 to 1024 bytes, each a free list threaded through the first word of its
objects, and whole pages with an eight byte header for larger requests.  Pages come from
`heap_alloc_pages` at a cursor that only grows.

`mem` are the bytes at virtual addresses, whatever they held before.  Page tables are not among them:
they stay in the frames of the virtual memory manager, which is right where the direct map does not
reach the window of the heap. -/

namespace LunaOs

open ByteMem

def NUM_SLABS : ℕ := 8

def SLAB_SIZES : List UInt32 := [8, 16, 32, 64, 128, 256, 512, 1024]

/-- The cache of the smallest objects. -/
def firstSlab : Fin NUM_SLABS := (0 : Fin 8)

/-- `SLAB_SIZES[i]` -/
def slabSize (i : Fin NUM_SLABS) : UInt32 := SLAB_SIZES.getD i 0

def SLAB_PAGES : UInt32 := 4

/-- `SlabCache` -/
structure SlabCache where
  freeList : UInt32
  objSize : UInt32
  total : UInt32
  used : UInt32

/-- The first word of the header of a large allocation; the second one is its size in bytes. -/
def LARGE_MAGIC : UInt32 := 0xDEADBEEF

/-- `sizeof(LargeHdr)` -/
def LARGE_HDR_SIZE : UInt32 := 8

/-- The static state of `heap.c` with the memory and the page tables under it. -/
structure Heap where
  vmm : Vmm
  cursor : UInt32
  mem : UInt32 → UInt8
  caches : Fin NUM_SLABS → SlabCache

/-- The loop that threads objects onto a free list, at `ptr` with `n` turns left. -/
def threadObjects (obj : UInt32) : ℕ → (UInt32 → UInt8) → UInt32 → UInt32 →
    (UInt32 → UInt8) × UInt32
  | 0, mem, _, freeList => (mem, freeList)
  | n + 1, mem, ptr, freeList => threadObjects obj n (store32 mem ptr freeList) (ptr + obj) ptr

/-- Four more pages for cache `i`. -/
def extendSlab (h : Heap) (i : Fin NUM_SLABS) : Except PmmPanic Heap := do
  let base := h.cursor
  let (vmm, cursor) ← heapAllocPages SLAB_PAGES.toNat h.vmm h.cursor
  let c := h.caches i
  let count := SLAB_PAGES * PAGE_SIZE / c.objSize
  let (mem, freeList) := threadObjects c.objSize count.toNat h.mem base c.freeList
  .ok { vmm, cursor, mem,
        caches := Function.update h.caches i { c with freeList, total := c.total + count } }

/-- One turn of the loop of `heap_init`: an empty cache, extended as `k_malloc` does. -/
def initCache (h : Heap) (i : Fin NUM_SLABS) : Except PmmPanic Heap :=
  extendSlab { h with caches := Function.update h.caches i ⟨0, slabSize i, 0, 0⟩ } i

/-- `heap_init`: every cache gets its first pages. -/
def heapInit (h : Heap) : Except PmmPanic Heap := (List.finRange NUM_SLABS).foldlM initCache h

/-- The smallest cache that fits. -/
def findCache (h : Heap) (size : UInt32) : Option (Fin NUM_SLABS) :=
  (List.finRange NUM_SLABS).find? fun i => size ≤ (h.caches i).objSize

/-- An exhausted cache is extended. -/
def refill (h : Heap) (i : Fin NUM_SLABS) : Except PmmPanic Heap :=
  if (h.caches i).freeList = 0 then extendSlab h i else .ok h

/-- The part of `k_malloc` for a cache whose free list is not empty. -/
def popObject (h : Heap) (i : Fin NUM_SLABS) : UInt32 × Heap :=
  let c := h.caches i
  let obj := c.freeList
  (obj, { h with
    mem := fill h.mem obj c.objSize 0
    caches := Function.update h.caches i
      { c with freeList := load32 h.mem obj, used := c.used + 1 } })

/-- The part of `k_malloc` for large allocations. -/
def allocLarge (h : Heap) (size : UInt32) : Except PmmPanic (UInt32 × Heap) := do
  let total := size + LARGE_HDR_SIZE
  let pages := (total + PAGE_SIZE - 1) / PAGE_SIZE
  let base := h.cursor
  let (vmm, cursor) ← heapAllocPages pages.toNat h.vmm h.cursor
  let mem := store32 h.mem base LARGE_MAGIC
  let mem := store32 mem (base + 4) (pages * PAGE_SIZE)
  .ok (base + LARGE_HDR_SIZE, { h with vmm, cursor, mem })

/-- The pointer is 0 for `NULL`. -/
def kMalloc (h : Heap) (size : UInt32) : Except PmmPanic (UInt32 × Heap) :=
  if size = 0 then .ok (0, h)
  else
    match findCache h size with
    | some i => do
        let h ← refill h i
        .ok (popObject h i)
    | none => allocLarge h size

/-- `k_free`: the header is looked for first, then the first class whose size divides the address. -/
def kFree (h : Heap) (ptr : UInt32) : Heap :=
  if ptr = 0 then h
  else if load32 h.mem (ptr - LARGE_HDR_SIZE) = LARGE_MAGIC then
    { h with mem := store32 h.mem (ptr - LARGE_HDR_SIZE) 0 }
  else
    match (List.finRange NUM_SLABS).find? fun i => ptr % (h.caches i).objSize = 0 with
    | none => h
    | some i =>
        let c := h.caches i
        { h with
          mem := store32 h.mem ptr c.freeList
          caches := Function.update h.caches i { c with freeList := ptr, used := c.used - 1 } }

/-! ### Sizes and addresses -/

theorem slabSize_bounds (i : Fin NUM_SLABS) :
    8 ≤ (slabSize i).toNat ∧ (slabSize i).toNat % 8 = 0 ∧ (slabSize i).toNat ≤ 1024 ∧
      16384 / (slabSize i).toNat * (slabSize i).toNat = 16384 := by
  revert i
  decide

theorem slabSize_pos (i : Fin NUM_SLABS) : 0 < (slabSize i).toNat :=
  Nat.lt_of_lt_of_le (by decide) (slabSize_bounds i).1

theorem heapAllocPages_cursor {n : ℕ} {s s' : Vmm} {cursor cursor' : UInt32}
    (h : heapAllocPages n s cursor = .ok (s', cursor')) :
    cursor' = cursor + UInt32.ofNat (n * 4096) := by
  induction n generalizing s cursor with
  | zero =>
      obtain ⟨_, rfl⟩ := Prod.mk.inj (Except.ok.inj h)
      rw [Nat.zero_mul]
      exact (UInt32.add_zero cursor).symm
  | succ n ih =>
      obtain ⟨⟨phys, pmm⟩, _, h⟩ := bind_eq_ok h
      obtain ⟨s₁, _, h⟩ := bind_eq_ok h
      rw [ih h, UInt32.add_assoc, Nat.succ_mul, Nat.add_comm, UInt32.ofNat_add]
      rfl

/-- The cursor after `n` pages, if it did not wrap around. -/
theorem toNat_cursor {n : ℕ} {s s' : Vmm} {cursor cursor' : UInt32}
    (h : heapAllocPages n s cursor = .ok (s', cursor')) (hn : n * 4096 < 2 ^ 32)
    (hle : cursor ≤ cursor') : cursor'.toNat = cursor.toNat + n * 4096 := by
  have hcursor := cursor.toNat_lt
  rw [UInt32.le_iff_toNat_le, heapAllocPages_cursor h, UInt32.toNat_add, UInt32.toNat_ofNat'] at hle
  rw [heapAllocPages_cursor h, UInt32.toNat_add, UInt32.toNat_ofNat']
  omega

end LunaOs
