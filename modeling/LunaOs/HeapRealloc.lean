import LunaOs.HeapAccount
import LunaOs.HeapSize
import LunaOs.Memory

/-! # `k_realloc`

It allocates, copies and frees.  The heap keeps no sizes of small blocks: the copy is as long as the new
block, whatever the size of the old one, and so reads on behind a block that grows. -/

namespace LunaOs

open ByteMem Extents FreeList

/-- `luna_memcpy(dst, src, n)` -/
def Heap.memcpy (h : Heap) (dst src n : UInt32) : Heap :=
  { h with mem := (lunaMemcpy ⟨h.mem, []⟩ dst src n).bytes }

/-- The pointers are 0 for `NULL`. -/
def kRealloc (h : Heap) (ptr newSize : UInt32) : Except PmmPanic (UInt32 × Heap) :=
  if ptr = 0 then kMalloc h newSize
  else if newSize = 0 then .ok (0, kFree h ptr)
  else do
    let (newPtr, h) ← kMalloc h newSize
    let h := if newPtr ≠ 0 then h.memcpy newPtr ptr newSize else h
    .ok (newPtr, kFree h ptr)

/-- The addresses that `k_realloc` reads or writes when it copies and frees. -/
def kReallocAccesses (h : Heap) (ptr newSize : UInt32) : List UInt32 :=
  match kMalloc h newSize with
  | .ok (newPtr, h) =>
      addrs ptr newSize.toNat ++ addrs newPtr newSize.toNat ++
        kFreeAccesses (h.memcpy newPtr ptr newSize) ptr
  | .error _ => []

/-- A byte of a live block other than `b`. -/
def OtherByte (c : HeapClient) (b : Block) (a : UInt32) : Prop :=
  ∃ b' ∈ c.live, b' ≠ b ∧ b'.span.Contains a.toNat

/-- `k_realloc` of `b` to `n` bytes has returned the block at `p` and the heap `heap'`. -/
structure ReallocFaithful (c : HeapClient) (b : Block) (n p : UInt32) (heap' : Heap) : Prop where
  /-- A block of `n` bytes takes the place of `b`. -/
  sound : MallocSound ⟨c.heap, c.live.eraseP fun b' => b'.ptr = b.ptr⟩ heap' ⟨p, n⟩
  copied : ∀ j < min b.size.toNat n.toNat,
    heap'.mem (p + UInt32.ofNat j) = c.heap.mem (b.ptr + UInt32.ofNat j)
  others : ∀ b' ∈ c.live, b' ≠ b → ∀ j < b'.size.toNat,
    heap'.mem (b'.ptr + UInt32.ofNat j) = c.heap.mem (b'.ptr + UInt32.ofNat j)
  /-- Outside the pages of the heap the call would fault. -/
  accesses : ∀ a ∈ kReallocAccesses c.heap b.ptr n, HEAP_VIRT_BASE ≤ a ∧ a < heap'.cursor
  /-- Other contents of the other blocks give the same block with the same contents. -/
  noLeak : ∀ mem, (∀ a, ¬ OtherByte c b a → mem a = c.heap.mem a) →
    ∃ heap₂, kRealloc { c.heap with mem } b.ptr n = .ok (p, heap₂) ∧
      ∀ j < n.toNat, heap₂.mem (p + UInt32.ofNat j) = heap'.mem (p + UInt32.ofNat j)

/-- The object that `k_malloc` takes lies right below `b`, and the copy makes its last word but one,
which `k_free` takes for the header of `b`, the magic number. -/
def ClearsCopy (c : HeapClient) (b : Block) (n : UInt32) : Prop :=
  b.size ≤ 1024 ∧ ∃ i, findCache c.heap n = some i ∧
    (c.heap.caches i).freeList + (c.heap.caches i).objSize = b.ptr ∧
    (c.heap.caches i).objSize.toNat ≤ n.toNat + 4 ∧
    (c.heap.caches i).objSize.toNat < b.size.toNat + 8 ∧
    load32 c.heap.mem (b.ptr + ((c.heap.caches i).objSize - LARGE_HDR_SIZE)) = LARGE_MAGIC

/-- There is room for the new block; the `n` bytes from the old one on are in the pages of the heap and
in no other live block; and freeing the old block changes neither the other blocks nor the copy. -/
structure ReallocSafe (c : HeapClient) (b : Block) (n : UInt32) : Prop where
  room : HasRoom c.heap n
  own : ∀ b' ∈ c.live, b' ≠ b → b'.span.Apart ⟨b.ptr.toNat, n.toNat⟩
  mapped : b.ptr.toNat + n.toNat ≤ c.heap.cursor.toNat + pagesNeeded c.heap n * 4096
  guarded : FreeGuarded c b
  kept : ¬ ClearsCopy c b n

/-! ### The steps of `k_realloc` -/

section
variable {heap heap' heap₁ : Heap} {ptr p n a : UInt32}

theorem kRealloc_inv (hptr : ptr ≠ 0) (hn : n ≠ 0) (hok : kRealloc heap ptr n = .ok (p, heap')) :
    ∃ heap₁, kMalloc heap n = .ok (p, heap₁) ∧
      heap' = kFree (if p ≠ 0 then heap₁.memcpy p ptr n else heap₁) ptr := by
  unfold kRealloc at hok
  rw [if_neg hptr, if_neg hn] at hok
  obtain ⟨⟨q, heap₁⟩, hmalloc, hret⟩ := bind_eq_ok hok
  obtain ⟨rfl, rfl⟩ := Prod.mk.inj (Except.ok.inj hret)
  exact ⟨heap₁, hmalloc, rfl⟩

theorem kRealloc_of_malloc (hptr : ptr ≠ 0) (hn : n ≠ 0) (hmalloc : kMalloc heap n = .ok (p, heap₁)) :
    kRealloc heap ptr n =
      .ok (p, kFree (if p ≠ 0 then heap₁.memcpy p ptr n else heap₁) ptr) := by
  unfold kRealloc
  rw [if_neg hptr, if_neg hn, hmalloc]
  rfl

theorem kRealloc_eq (hptr : ptr ≠ 0) (hn : n ≠ 0) (hp : p ≠ 0)
    (hmalloc : kMalloc heap n = .ok (p, heap₁)) :
    kRealloc heap ptr n = .ok (p, kFree (heap₁.memcpy p ptr n) ptr) := by
  rw [kRealloc_of_malloc hptr hn hmalloc, if_pos hp]

theorem memcpy_agree (heap : Heap) (src : UInt32) (hend : p.toNat + n.toNat ≤ 2 ^ 32) :
    AgreeOutside ⟨p.toNat, n.toNat⟩ heap.mem (heap.memcpy p src n).mem := by
  intro a ha
  refine (lunaMemcpy_copies ⟨heap.mem, []⟩ p src n).frame a fun hmem => ha ?_
  exact (mem_addrs_range hend).mp hmem

theorem memcpy_copied (heap : Heap) {src : UInt32} {j : ℕ} (hend : p.toNat + n.toNat ≤ 2 ^ 32)
    (hj : j < n.toNat)
    (hsrc : ¬ (⟨p.toNat, n.toNat⟩ : Span).Contains (src + UInt32.ofNat j).toNat) :
    (heap.memcpy p src n).mem (p + UInt32.ofNat j) = heap.mem (src + UInt32.ofNat j) := by
  refine (lunaMemcpy_copies ⟨heap.mem, []⟩ p src n).copied n.toNat_lt.le j hj fun hmem => hsrc ?_
  exact (mem_addrs_range hend).mp hmem

theorem kFree_mem (hsized : heap.Sized) (hptr : ptr ≠ 0) (haligned : ptr.toNat % 8 = 0)
    (hout : ¬ a - ptr < 4) :
    (kFree heap ptr).mem a =
      if load32 heap.mem (ptr - LARGE_HDR_SIZE) = LARGE_MAGIC ∧ a - (ptr - LARGE_HDR_SIZE) < 4 then 0
      else heap.mem a := by
  unfold kFree
  rw [if_neg hptr]
  by_cases hmagic : load32 heap.mem (ptr - LARGE_HDR_SIZE) = LARGE_MAGIC
  · rw [if_pos hmagic]
    dsimp only
    unfold store32
    by_cases hin : a - (ptr - LARGE_HDR_SIZE) < 4
    · rw [if_pos hin, if_pos ⟨hmagic, hin⟩]
      unfold byte
      rw [show (0 : UInt32).toNat = 0 from rfl, Nat.zero_div]
      rfl
    · rw [if_neg hin, if_neg fun h => hin h.2]
  · rw [if_neg hmagic, if_neg fun h => hmagic h.1, find_alignedSlab hsized haligned]
    exact if_neg hout

theorem byte_of_magic (hmagic : load32 heap.mem ptr = LARGE_MAGIC) (hin : a - ptr < 4) :
    heap.mem a = 0xEF ∨ heap.mem a = 0xBE ∨ heap.mem a = 0xAD ∨ heap.mem a = 0xDE := by
  have hlt : (a - ptr).toNat < 4 := UInt32.lt_iff_toNat_lt.mp hin
  have hbyte := byte_load32 heap.mem ptr hlt
  rw [UInt32.ofNat_toNat, UInt32.add_comm, UInt32.sub_add_cancel, hmagic] at hbyte
  rw [← hbyte]
  generalize (a - ptr).toNat = j at hlt
  obtain rfl | rfl | rfl | rfl : j = 0 ∨ j = 1 ∨ j = 2 ∨ j = 3 := by omega
  · exact .inl (by decide)
  · exact .inr (.inl (by decide))
  · exact .inr (.inr (.inl (by decide)))
  · exact .inr (.inr (.inr (by decide)))

end

/-- The heap after the copy: the new object is handed out, and the block there has the copied bytes. -/
structure Copied (c : HeapClient) (b : Block) (n p : UInt32) (heap₁ : Heap)
    (objects objects₁ : UInt32 → Option Tag) (nodes₁ : Fin NUM_SLABS → List UInt32) (t : Tag) :
    Prop where
  malloc : kMalloc c.heap n = .ok (p, heap₁)
  handed : Handed c.heap heap₁ objects objects₁ p n t
  cursor : heap₁.cursor.toNat = c.heap.cursor.toNat + pagesNeeded c.heap n * 4096
  holds : ClientHolds ⟨heap₁.memcpy p b.ptr n, ⟨p, n⟩ :: c.live⟩ objects₁ nodes₁

section
variable {c : HeapClient} {b : Block} {n p : UInt32} {heap' heap₁ : Heap}
  {objects objects₁ : UInt32 → Option Tag} {nodes nodes₁ : Fin NUM_SLABS → List UInt32} {t u : Tag}

theorem ClientHolds.tail {heap : Heap} {b : Block} {live : List Block}
    (h : ClientHolds ⟨heap, b :: live⟩ objects nodes) : ClientHolds ⟨heap, live⟩ objects nodes where
  holds := h.holds
  sized := h.sized
  mapped := h.mapped
  live b' hb' := h.live b' (List.mem_cons_of_mem _ hb')
  nodup := (List.nodup_cons.mp h.nodup).2

theorem ClientHolds.overwrite {heap : Heap} {live : List Block}
    (h : ClientHolds ⟨heap, live⟩ objects nodes) (hb : b ∈ live) {mem : UInt32 → UInt8}
    (hagree : AgreeOutside b.span heap.mem mem) :
    ClientHolds ⟨{ heap with mem }, live⟩ objects nodes := by
  obtain ⟨t, ht, hsize⟩ := h.live b hb
  exact ⟨h.holds.overwrite ht hsize hagree, h.sized, h.mapped, h.live, h.nodup⟩

/-- **`k_malloc` and the copy**, if there is room. -/
theorem ClientHolds.copy (h : ClientHolds c objects nodes) (b : Block) (hpos : n ≠ 0)
    (hroom : HasRoom c.heap n) (hok : kMalloc c.heap n = .ok (p, heap₁)) :
    ∃ objects₁ nodes₁ t, Copied c b n p heap₁ objects objects₁ nodes₁ t := by
  have hround := hroom.roundsBelow h.sized
  have hle := (hasRoom_iff hpos hround hok).mp hroom
  have hcursor := toNat_cursor (kMalloc_pages hpos hround hok) (pagesNeeded_lt hround) hle
  have hmapped := h.mapped.grow (kMalloc_grows hok) h.holds.cursor_page hle
  obtain ⟨objects₁, nodes₁, t, h₁, hsized, hnew⟩ :=
    h.holds.kMalloc_handed h.sized hround hpos hok hle
  have hclient := h.add h₁ hsized hmapped hnew.tag hnew.size_eq hnew.kept
  have hend := (h₁.obj.payload_sub hnew.tag hnew.size_eq).1.2.trans (h₁.obj.bounds hnew.tag).2
  have hlt := heap₁.cursor.toNat_lt
  exact ⟨objects₁, nodes₁, t, hok, hnew, hcursor,
    hclient.overwrite List.mem_cons_self (memcpy_agree heap₁ b.ptr (hend.trans hlt.le))⟩

namespace Copied

theorem bounds (h : Copied c b n p heap₁ objects objects₁ nodes₁ t) :
    (⟨p.toNat, n.toNat⟩ : Span).Sub (t.span p) ∧ HEAP_VIRT_BASE.toNat ≤ p.toNat ∧
      p.toNat + n.toNat ≤ heap₁.cursor.toNat := by
  have hobj := h.holds.holds.obj
  have hsub := (hobj.payload_sub h.handed.tag h.handed.size_eq).1
  exact ⟨hsub, (hobj.lt_top h.handed.tag).1, hsub.2.trans (hobj.bounds h.handed.tag).2⟩

theorem ne_zero (h : Copied c b n p heap₁ objects objects₁ nodes₁ t) : p ≠ 0 :=
  h.holds.holds.obj.ne_zero h.handed.tag

theorem addr (h : Copied c b n p heap₁ objects objects₁ nodes₁ t) {j : ℕ} (hj : j < n.toNat) :
    (p + UInt32.ofNat j).toNat = p.toNat + j ∧ (t.span p).Contains (p + UInt32.ofNat j).toNat :=
  h.holds.holds.obj.payload_byte h.handed.tag h.handed.size_eq hj

theorem apart (h : Copied c b n p heap₁ objects objects₁ nodes₁ t) {q : UInt32}
    (hq : objects q = some u) (hlive : u.size?.isSome) :
    objects₁ q = some u ∧ (u.span q).Apart (t.span p) := by
  obtain ⟨hne, hq₁⟩ := h.handed.kept q u hq hlive
  exact ⟨hq₁, h.holds.holds.obj.apart hne hq₁ h.handed.tag⟩

theorem unchanged (h : Copied c b n p heap₁ objects objects₁ nodes₁ t) {q a : UInt32}
    (hq : objects q = some u) (hlive : u.size?.isSome) (ha : (u.span q).Contains a.toNat) :
    (heap₁.memcpy p b.ptr n).mem a = c.heap.mem a := by
  obtain ⟨hsub, _, hend⟩ := h.bounds
  have hlt := heap₁.cursor.toNat_lt
  rw [← h.handed.frame q u hq hlive a ha]
  exact memcpy_agree heap₁ b.ptr (hend.trans hlt.le) a
    (((h.apart hq hlive).2.sub (.refl _) hsub).not_contains ha)

theorem moved (h : Copied c b n p heap₁ objects objects₁ nodes₁ t) {q : UInt32}
    (hq : objects q = some u) (hlive : u.size?.isSome) {j : ℕ} (hj : j < n.toNat)
    (ha : (u.span q).Contains (b.ptr + UInt32.ofNat j).toNat) :
    (heap₁.memcpy p b.ptr n).mem (p + UInt32.ofNat j) = c.heap.mem (b.ptr + UInt32.ofNat j) := by
  obtain ⟨hsub, _, hend⟩ := h.bounds
  have hlt := heap₁.cursor.toNat_lt
  rw [← h.handed.frame q u hq hlive _ ha]
  exact memcpy_copied heap₁ (hend.trans hlt.le) hj
    (((h.apart hq hlive).2.sub (.refl _) hsub).not_contains ha)

end Copied

theorem Objects.word_sub {mem : UInt32 → UInt8} {top : ℕ} {q : UInt32} (h : Objects mem objects top)
    (hq : objects q = some u) {w a : ℕ} (hw : w % 8 = 0) (hle : w ≤ a) (hlt : a < w + 8)
    (hin : (u.span q).Contains a) : (⟨w, 8⟩ : Span).Sub (u.span q) := by
  have haligned := h.aligned q u hq
  -- the size of a slab and that of a page are multiples of 8
  have hspan : (u.span q).start % 8 = 0 ∧ (u.span q).len % 8 = 0 := by
    cases u with
    | free i => exact ⟨haligned, (slabSize_bounds i).2.1⟩
    | small i s => exact ⟨haligned, (slabSize_bounds i).2.1⟩
    | large pages s =>
        constructor
        · show (q.toNat - 8) % 8 = 0
          omega
        · show pages * 4096 % 8 = 0
          omega
  obtain ⟨hstart, hlen⟩ := hspan
  obtain ⟨hlo, hhi⟩ := hin
  constructor
  · show (u.span q).start ≤ w
    omega
  · show w + 8 ≤ (u.span q).start + (u.span q).len
    omega

theorem Objects.size_pos {mem : UInt32 → UInt8} {top : ℕ} {q size : UInt32} (h : Objects mem objects top)
    (hq : objects q = some u) (hsize : u.size? = some size) : 0 < size.toNat := by
  have hvalid := h.valid q u hq
  cases u with
  | free i => cases hsize
  | small i s =>
      obtain rfl := Option.some.inj hsize
      exact hvalid.1
  | large pages s =>
      obtain rfl := Option.some.inj hsize
      exact (Nat.zero_le _).trans_lt hvalid.1

/-! ### What `k_free` does to the copy -/

namespace Copied

theorem link_contains (h : Copied c b n p heap₁ objects objects₁ nodes₁ t)
    (hb : objects b.ptr = some u) (hlive : u.size?.isSome) {a : UInt32} (hin : a - b.ptr < 4) :
    (u.span b.ptr).Contains a.toNat := by
  have hobj := h.holds.holds.obj
  have hb₁ := (h.apart hb hlive).1
  have haligned := hobj.aligned _ _ hb₁
  have hptr := b.ptr.toNat_lt
  obtain ⟨hlo, hhi⟩ := hobj.word_sub hb₁ haligned le_rfl (by omega) (hobj.contains hb₁)
  dsimp only at hlo hhi
  obtain ⟨h1, h2⟩ := (sub_lt_four_iff (by omega)).mp hin
  exact ⟨hlo.trans h1, by omega⟩

theorem free_mem (h : Copied c b n p heap₁ objects objects₁ nodes₁ t) (hb : objects b.ptr = some u)
    (hlive : u.size?.isSome) {a : UInt32} (hout : ¬ (u.span b.ptr).Contains a.toNat) :
    (kFree (heap₁.memcpy p b.ptr n) b.ptr).mem a =
      if load32 (heap₁.memcpy p b.ptr n).mem (b.ptr - LARGE_HDR_SIZE) = LARGE_MAGIC ∧
          a - (b.ptr - LARGE_HDR_SIZE) < 4 then 0
      else (heap₁.memcpy p b.ptr n).mem a := by
  have hobj := h.holds.holds.obj
  have hb₁ := (h.apart hb hlive).1
  exact kFree_mem h.holds.sized (hobj.ne_zero hb₁) (hobj.aligned _ _ hb₁) fun hin =>
    hout (h.link_contains hb hlive hin)

theorem result (h : Copied c b n p heap₁ objects objects₁ nodes₁ t) (hb : objects b.ptr = some u)
    (hlive : u.size?.isSome) {j : ℕ} (hj : j < n.toNat) :
    (kFree (heap₁.memcpy p b.ptr n) b.ptr).mem (p + UInt32.ofNat j) =
      if load32 (heap₁.memcpy p b.ptr n).mem (b.ptr - LARGE_HDR_SIZE) = LARGE_MAGIC ∧
          p + UInt32.ofNat j - (b.ptr - LARGE_HDR_SIZE) < 4 then 0
      else (heap₁.memcpy p b.ptr n).mem (p + UInt32.ofNat j) :=
  h.free_mem hb hlive ((h.apart hb hlive).2.symm.not_contains (h.addr hj).2)

theorem word_below (h : Copied c b n p heap₁ objects objects₁ nodes₁ t) (hb : objects b.ptr = some u)
    (hsize : u.size? = some b.size) {s : UInt32} (hs : 8 ≤ s.toNat) (hmod : s.toNat % 8 = 0)
    (hadj : p.toNat + s.toNat = b.ptr.toNat) (hcopied : s.toNat ≤ n.toNat + 4)
    (hin : s.toNat < b.size.toNat + 8) :
    load32 (heap₁.memcpy p b.ptr n).mem (b.ptr - LARGE_HDR_SIZE) =
      load32 c.heap.mem (b.ptr + (s - LARGE_HDR_SIZE)) := by
  have hlive : u.size?.isSome := hsize ▸ rfl
  have hobj := h.holds.holds.obj
  have hb₁ := (h.apart hb hlive).1
  have haligned := hobj.aligned _ _ hb₁
  have hptr := b.ptr.toNat_lt
  obtain ⟨hbelow, hbase⟩ := hobj.below_toNat hb₁
  have hsub : (s - LARGE_HDR_SIZE).toNat = s.toNat - 8 := sub_header_toNat hs
  obtain ⟨hlo, hhi⟩ := (hobj.payload_sub hb₁ hsize).1
  have hend := (hobj.bounds hb₁).2
  have htop := hobj.top_lt
  dsimp only at hlo hhi
  have hword := hobj.word_sub hb₁ (w := b.ptr.toNat + (s.toNat - 8)) (by omega) le_rfl (by omega)
    ⟨by omega, by omega⟩
  refine load32_eq_of_bytes fun k hk => ?_
  obtain ⟨hwlo, hwhi⟩ := hword
  dsimp only at hwlo hwhi
  have hsrc : (b.ptr + UInt32.ofNat (s.toNat - 8 + k)).toNat = b.ptr.toNat + (s.toNat - 8 + k) :=
    toNat_add_of_lt (by omega)
  have hdst : b.ptr - LARGE_HDR_SIZE + UInt32.ofNat k = p + UInt32.ofNat (s.toNat - 8 + k) :=
    (add_ofNat_eq_iff (by omega) (by omega)).mpr (by omega)
  have haddr : b.ptr + (s - LARGE_HDR_SIZE) + UInt32.ofNat k =
      b.ptr + UInt32.ofNat (s.toNat - 8 + k) := by
    rw [add_ofNat_add, ← hsub, UInt32.ofNat_toNat]
  rw [hdst, haddr]
  refine h.moved hb hlive (by omega) ?_
  rw [hsrc]
  exact ⟨by omega, by omega⟩

/-- A byte of the copy that `k_free` clears: the new object ends where the old block begins. -/
theorem adjacent (h : Copied c b n p heap₁ objects objects₁ nodes₁ t)
    (hbefore : ClientHolds c objects nodes) (hb : objects b.ptr = some u)
    (hsize : u.size? = some b.size) {j : ℕ} (hj : j < n.toNat)
    (hin : p + UInt32.ofNat j - (b.ptr - LARGE_HDR_SIZE) < 4) :
    b.size.toNat ≤ 1024 ∧ ∃ i, findCache c.heap n = some i ∧ p = (c.heap.caches i).freeList ∧
      p.toNat + (slabSize i).toNat = b.ptr.toNat ∧ (slabSize i).toNat ≤ j + 8 ∧
      ∀ k < (slabSize i).toNat, heap₁.mem (p + UInt32.ofNat k) = 0 := by
  have hlive : u.size?.isSome := hsize ▸ rfl
  have hobj := h.holds.holds.obj
  obtain ⟨hb₁, hapart⟩ := h.apart hb hlive
  obtain ⟨haddr, hcontains⟩ := h.addr hj
  have hptr := b.ptr.toNat_lt
  obtain ⟨hbelow, hbase⟩ := hobj.below_toNat hb₁
  obtain ⟨hlo, hhi⟩ := (sub_lt_four_iff (by omega)).mp hin
  have hcursor := (hbefore.holds.obj.lt_top hb).2
  have hvalid := hobj.valid _ _ hb₁
  -- the header of a large block is its own
  obtain ⟨i', rfl⟩ : ∃ i', u = .small i' b.size := by
    cases u with
    | free i' => cases hsize
    | small i' s =>
        obtain rfl := Option.some.inj hsize
        exact ⟨i', rfl⟩
    | large pages s =>
        obtain ⟨_, hpages, _⟩ := hvalid
        refine absurd hcontains (hapart.not_contains ⟨?_, ?_⟩)
        · show b.ptr.toNat - 8 ≤ (p + UInt32.ofNat j).toNat
          omega
        · show (p + UInt32.ofNat j).toNat < b.ptr.toNat - 8 + pages * 4096
          omega
  have hslab' := slabSize_bounds i'
  have hfit' := UInt32.le_iff_toNat_le.mp hvalid.2
  have htag := h.handed.tag
  have hnew := hobj.valid _ _ htag
  have haligned := hobj.aligned _ _ htag
  have haligned' := hobj.aligned _ _ hb₁
  cases t with
  | free i => cases h.handed.size_eq
  | large pages s =>
      have hle := UInt32.le_iff_toNat_le.mp (h.handed.large pages s rfl)
      omega
  | small i s =>
      obtain rfl := Option.some.inj h.handed.size_eq
      have hslab := slabSize_bounds i
      have hfit := UInt32.le_iff_toNat_le.mp hnew.2
      obtain ⟨hfind, hhead, hzero⟩ := h.handed.small i s rfl
      change b.ptr.toNat + (slabSize i').toNat ≤ p.toNat ∨
        p.toNat + (slabSize i).toNat ≤ b.ptr.toNat at hapart
      refine ⟨by omega, i, hfind, hhead.resolve_left ?_, by omega, by omega, hzero⟩
      rintro ⟨_, hle⟩
      rw [UInt32.le_iff_toNat_le] at hle
      omega

theorem first_object (h : Copied c b n p heap₁ objects objects₁ nodes₁ t)
    (hbefore : ClientHolds c objects nodes) (hb : objects b.ptr = some u) (hlive : u.size?.isSome)
    {i : Fin NUM_SLABS} (hfind : findCache c.heap n = some i)
    (hadj : (c.heap.caches i).freeList + slabSize i = b.ptr) :
    p.toNat + (slabSize i).toNat = b.ptr.toNat := by
  have hobj := h.holds.holds.obj
  have hslab := slabSize_bounds i
  have hfit := UInt32.le_iff_toNat_le.mp (findCache_eq_some hbefore.sized hfind)
  obtain ⟨_, hbase⟩ := hobj.below_toNat (h.apart hb hlive).1
  have htag := h.handed.tag
  cases t with
  | free j => cases h.handed.size_eq
  | large pages s =>
      obtain rfl := Option.some.inj h.handed.size_eq
      have hlarge := (hobj.valid _ _ htag).1
      omega
  | small j s =>
      obtain ⟨hfind', hhead, _⟩ := h.handed.small j s rfl
      obtain rfl := Option.some.inj (hfind.symm.trans hfind')
      rcases hhead with ⟨hnull, _⟩ | hp
      · rw [hnull, UInt32.zero_add] at hadj
        rw [hadj] at hslab
        omega
      · have hend : p.toNat + (slabSize i).toNat ≤ heap₁.cursor.toNat := (hobj.bounds htag).2
        have hlt := heap₁.cursor.toNat_lt
        rw [← hp] at hadj
        rw [← hadj, UInt32.toNat_add]
        omega

/-- The new object is zeroed, and a byte that is not copied stays zero: a word that has become the magic
number is copied up to its last byte. -/
theorem reaches_of_magic (h : Copied c b n p heap₁ objects objects₁ nodes₁ t)
    (hb : objects b.ptr = some u) (hlive : u.size?.isSome) {s : UInt32} (hs : 8 ≤ s.toNat)
    (hadj : p.toNat + s.toNat = b.ptr.toNat) (hzero : ∀ k < s.toNat, heap₁.mem (p + UInt32.ofNat k) = 0)
    (hmagic : load32 (heap₁.memcpy p b.ptr n).mem (b.ptr - LARGE_HDR_SIZE) = LARGE_MAGIC) :
    s.toNat ≤ n.toNat + 4 := by
  have hptr := b.ptr.toNat_lt
  obtain ⟨hbelow, hbase⟩ := h.holds.holds.obj.below_toNat (h.apart hb hlive).1
  by_contra hshort
  have hend : p.toNat + n.toNat ≤ 2 ^ 32 := by omega
  have hlast : b.ptr - LARGE_HDR_SIZE + UInt32.ofNat 3 = p + UInt32.ofNat (s.toNat - 5) :=
    (add_ofNat_eq_iff (by omega) (by omega)).mpr (by omega)
  have hout : ¬ (⟨p.toNat, n.toNat⟩ : Span).Contains (p + UInt32.ofNat (s.toNat - 5)).toNat := by
    rintro ⟨_, hhi⟩
    rw [toNat_add_of_lt (by omega)] at hhi
    dsimp only at hhi
    omega
  have hbyte := byte_load32 (heap₁.memcpy p b.ptr n).mem (b.ptr - LARGE_HDR_SIZE) (j := 3) (by decide)
  rw [hmagic, hlast, memcpy_agree heap₁ b.ptr hend _ hout, hzero _ (by omega)] at hbyte
  exact absurd hbyte (by decide)

/-- **The copy survives `k_free`** exactly if its last word but one is not taken for a header. -/
theorem copied_iff (h : Copied c b n p heap₁ objects objects₁ nodes₁ t)
    (hbefore : ClientHolds c objects nodes) (hb : objects b.ptr = some u)
    (hsize : u.size? = some b.size) :
    (∀ j < min b.size.toNat n.toNat, (kFree (heap₁.memcpy p b.ptr n) b.ptr).mem (p + UInt32.ofNat j) =
      c.heap.mem (b.ptr + UInt32.ofNat j)) ↔ ¬ ClearsCopy c b n := by
  have hlive : u.size?.isSome := hsize ▸ rfl
  have hobj := h.holds.holds.obj
  have hb₁ := (h.apart hb hlive).1
  have hptr := b.ptr.toNat_lt
  obtain ⟨hbelow, hbase⟩ := hobj.below_toNat hb₁
  constructor
  · rintro hcopied ⟨_, i, hfind, hadj, hlen, hin, hmagic⟩
    rw [hbefore.sized i] at hadj hlen hin hmagic
    have hslab := slabSize_bounds i
    have hp := h.first_object hbefore hb hlive hfind hadj
    have hword := h.word_below hb hsize hslab.1 hslab.2.1 hp hlen hin
    rw [hmagic] at hword
    have hsub : (slabSize i - LARGE_HDR_SIZE).toNat = (slabSize i).toNat - 8 := sub_header_toNat hslab.1
    have haddr : p + UInt32.ofNat ((slabSize i).toNat - 8) = b.ptr - LARGE_HDR_SIZE :=
      add_ofNat_eq (by omega)
    have hfirst := hcopied ((slabSize i).toNat - 8) (by omega)
    rw [h.result hb hlive (by omega), haddr, if_pos ⟨hword, by rw [UInt32.sub_self]; decide⟩,
      ← hsub, UInt32.ofNat_toNat] at hfirst
    have hlow := load32_mod c.heap.mem (b.ptr + (slabSize i - LARGE_HDR_SIZE))
    rw [hmagic, ← hfirst] at hlow
    exact absurd hlow (by decide)
  · intro hnot j hj
    have hsrc := (hobj.payload_byte hb₁ hsize (by omega : j < b.size.toNat)).2
    rw [h.result hb hlive (by omega), h.moved hb hlive (by omega) hsrc]
    refine if_neg fun hcleared => hnot ?_
    obtain ⟨hmagic, hin⟩ := hcleared
    obtain ⟨hsmall, i, hfind, hp, hadj, hle, hzero⟩ := h.adjacent hbefore hb hsize (by omega) hin
    have hslab := slabSize_bounds i
    have hlen := h.reaches_of_magic hb hlive hslab.1 hadj hzero hmagic
    refine ⟨by rw [UInt32.le_iff_toNat_le]; exact hsmall, i, hfind, ?_⟩
    rw [hbefore.sized i]
    refine ⟨?_, hlen, by omega, ?_⟩
    · rw [← UInt32.toNat_inj, ← hp, UInt32.toNat_add]
      omega
    · exact (h.word_below hb hsize hslab.1 hslab.2.1 hadj hlen (by omega)).symm.trans hmagic

theorem word_same (h : Copied c b n p heap₁ objects objects₁ nodes₁ t)
    (hbefore : ClientHolds c objects nodes) (hb : objects b.ptr = some u) {b' : Block}
    (hb' : b' ∈ c.live) (hin : b'.span.Contains (b.ptr - LARGE_HDR_SIZE).toNat) :
    load32 (heap₁.memcpy p b.ptr n).mem (b.ptr - LARGE_HDR_SIZE) =
      load32 c.heap.mem (b.ptr - LARGE_HDR_SIZE) := by
  obtain ⟨u', hu', hsize'⟩ := hbefore.live b' hb'
  have hlive' : u'.size?.isSome := hsize' ▸ rfl
  have hobj := hbefore.holds.obj
  obtain ⟨hbelow, hbase⟩ := hobj.below_toNat hb
  have haligned := hobj.aligned _ _ hb
  obtain ⟨hlo, hhi⟩ := (hobj.payload_sub hu' hsize').1
  have hend := (hobj.bounds hu').2
  have htop := hobj.top_lt
  have hword := hobj.word_sub hu' (w := (b.ptr - LARGE_HDR_SIZE).toNat) (by omega) le_rfl (by omega)
    ⟨hlo.trans hin.1, hin.2.trans_le hhi⟩
  obtain ⟨hwlo, hwhi⟩ := hword
  dsimp only at hwlo hwhi
  refine load32_congr fun j hj => h.unchanged hu' hlive' ?_
  rw [toNat_add_of_lt (by omega)]
  exact ⟨by omega, by omega⟩

/-- **Freeing the old block** leaves the other blocks alone exactly if it would have before the copy. -/
theorem guarded_iff (h : Copied c b n p heap₁ objects objects₁ nodes₁ t)
    (hbefore : ClientHolds c objects nodes) (hb : b ∈ c.live) :
    ((∀ b' ∈ c.live, b' ≠ b → ∀ j < b'.size.toNat,
        (kFree (heap₁.memcpy p b.ptr n) b.ptr).mem (b'.ptr + UInt32.ofNat j) =
          c.heap.mem (b'.ptr + UInt32.ofNat j)) ∧
      ∀ a ∈ kFreeAccesses (heap₁.memcpy p b.ptr n) b.ptr, HEAP_VIRT_BASE ≤ a ∧ a < heap₁.cursor) ↔
      FreeGuarded c b := by
  obtain ⟨u, hu, _⟩ := hbefore.live b hb
  have hguard : FreeGuarded ⟨heap₁.memcpy p b.ptr n, c.live⟩ b ↔ FreeGuarded c b := by
    unfold FreeGuarded
    refine or_congr Iff.rfl (and_congr Iff.rfl (not_congr (and_congr_left ?_)))
    rintro ⟨b', hb', hin⟩
    dsimp only
    rw [h.word_same hbefore hu hb' hin]
  rw [← hguard, ← h.holds.tail.freesOwn_iff hb]
  refine and_congr (forall₂_congr fun b' hb' => forall_congr' fun _ => forall₂_congr fun j hj => ?_)
    Iff.rfl
  obtain ⟨u', hu', hsize'⟩ := hbefore.live b' hb'
  have hin := (hbefore.holds.obj.payload_byte hu' hsize' hj).2
  rw [← h.unchanged hu' (hsize' ▸ rfl) hin]

/-- **The copy reads within the heap** exactly if the `n` bytes at the old block end below the cursor. -/
theorem accesses_iff (h : Copied c b n p heap₁ objects objects₁ nodes₁ t) (hpos : n ≠ 0)
    (hb : HEAP_VIRT_BASE.toNat ≤ b.ptr.toNat) :
    (∀ a ∈ kReallocAccesses c.heap b.ptr n, HEAP_VIRT_BASE ≤ a ∧ a < heap₁.cursor) ↔
      b.ptr.toNat + n.toNat ≤ heap₁.cursor.toNat ∧
        ∀ a ∈ kFreeAccesses (heap₁.memcpy p b.ptr n) b.ptr, HEAP_VIRT_BASE ≤ a ∧ a < heap₁.cursor := by
  have hlt := heap₁.cursor.toNat_lt
  have hrange : ∀ q : UInt32, HEAP_VIRT_BASE.toNat ≤ q.toNat →
      ((∀ a ∈ addrs q n.toNat, HEAP_VIRT_BASE ≤ a ∧ a < heap₁.cursor) ↔
        q.toNat + n.toNat ≤ heap₁.cursor.toNat) := by
    intro q hq
    have hupper := addrs_lt_iff q heap₁.cursor n.toNat
    have hn : n.toNat ≠ 0 := fun h0 => hpos (UInt32.toNat_inj.mp h0)
    rw [or_iff_right hn] at hupper
    refine Iff.trans ⟨fun hall a ha => (hall a ha).2, fun hall a ha => ⟨?_, hall a ha⟩⟩ hupper
    have hend := hupper.mp hall
    rw [UInt32.le_iff_toNat_le]
    exact hq.trans ((mem_addrs_range (by omega)).mp ha).1
  have heq : kReallocAccesses c.heap b.ptr n = addrs b.ptr n.toNat ++ addrs p n.toNat ++
      kFreeAccesses (heap₁.memcpy p b.ptr n) b.ptr := by
    unfold kReallocAccesses
    rw [h.malloc]
  obtain ⟨_, hbase, hend⟩ := h.bounds
  rw [heq, List.forall_mem_append, List.forall_mem_append, hrange _ hb, hrange _ hbase,
    and_iff_left hend]

/-! ### Other contents of the other blocks -/

theorem not_otherByte (h : Copied c b n p heap₁ objects objects₁ nodes₁ t)
    (hbefore : ClientHolds c objects nodes) {a : UInt32} (ha : (t.span p).Contains a.toNat) :
    ¬ OtherByte c b a := by
  rintro ⟨b', hb', _, hin⟩
  obtain ⟨u', hu', hsize'⟩ := hbefore.live b' hb'
  have hsub := (hbefore.holds.obj.payload_sub hu' hsize').1
  exact ((h.apart hu' (hsize' ▸ rfl)).2.symm.sub (.refl _) hsub).not_contains ha hin

theorem copy_agree (h : Copied c b n p heap₁ objects objects₁ nodes₁ t)
    (hbefore : ClientHolds c objects nodes) (hpos : n ≠ 0) (hle : c.heap.cursor ≤ heap₁.cursor)
    (hmapped : b.ptr.toNat + n.toNat ≤ heap₁.cursor.toNat)
    (hown : ∀ b' ∈ c.live, b' ≠ b → b'.span.Apart ⟨b.ptr.toNat, n.toNat⟩) {mem : UInt32 → UInt8}
    (hsame : ∀ a, ¬ OtherByte c b a → mem a = c.heap.mem a) :
    ∃ mem₁, kMalloc { c.heap with mem } n = .ok (p, { heap₁ with mem := mem₁ }) ∧
      ∀ a, ¬ OtherByte c b a →
        ({ heap₁ with mem := mem₁ }.memcpy p b.ptr n).mem a = (heap₁.memcpy p b.ptr n).mem a := by
  have hlt := heap₁.cursor.toNat_lt
  have hdiff : ∀ a : UInt32, mem a ≠ c.heap.mem a →
      ∃ q u, objects q = some u ∧ u.size?.isSome ∧ (u.span q).Contains a.toNat := by
    intro a ha
    obtain ⟨b', hb', _, hin⟩ := not_not.mp fun hnot => ha (hsame a hnot)
    obtain ⟨u', hu', hsize'⟩ := hbefore.live b' hb'
    obtain ⟨hlo, hhi⟩ := (hbefore.holds.obj.payload_sub hu' hsize').1
    exact ⟨b'.ptr, u', hu', hsize' ▸ rfl, hlo.trans hin.1, hin.2.trans_le hhi⟩
  obtain ⟨mem₁, hmalloc, hmem₁⟩ :=
    hbefore.holds.kMalloc_congr hbefore.sized hpos h.malloc hle hdiff
  -- the copies read nothing of the other blocks
  have hsource : ∀ j < n.toNat, ¬ OtherByte c b (b.ptr + UInt32.ofNat j) := by
    rintro j hj ⟨b', hb', hbb, hin⟩
    exact (hown b' hb' hbb).not_contains hin (contains_add (by omega) hj)
  have hagree : AgreeOn (fun a => ¬ OtherByte c b a) ⟨mem₁, []⟩ ⟨heap₁.mem, []⟩ :=
    fun a ha => hmem₁ a (hsame a ha)
  exact ⟨mem₁, hmalloc, lunaMemcpy_agree n hagree hsource⟩

theorem word_new (h : Copied c b n p heap₁ objects objects₁ nodes₁ t) (hb : objects b.ptr = some u)
    (hlive : u.size?.isSome) {j : ℕ} (hj : j < n.toNat)
    (hword : p + UInt32.ofNat j - (b.ptr - LARGE_HDR_SIZE) < 4) {k : ℕ} (hk : k < 4) :
    (t.span p).Contains (b.ptr - LARGE_HDR_SIZE + UInt32.ofNat k).toNat := by
  have hobj := h.holds.holds.obj
  have hb₁ := (h.apart hb hlive).1
  have haligned := hobj.aligned _ _ hb₁
  have hlt := b.ptr.toNat_lt
  obtain ⟨hbelow, hbase⟩ := hobj.below_toNat hb₁
  obtain ⟨h1, h2⟩ := (sub_lt_four_iff (by omega)).mp hword
  obtain ⟨hwlo, hwhi⟩ := hobj.word_sub h.handed.tag (w := (b.ptr - LARGE_HDR_SIZE).toNat) (by omega)
    h1 (by omega) (h.addr hj).2
  dsimp only at hwlo hwhi
  rw [toNat_add_of_lt (by omega)]
  exact ⟨by omega, by omega⟩

/-- **No leak**: if the bytes that are copied are in no other block, then what the other blocks contain
makes no difference. -/
theorem noLeak (h : Copied c b n p heap₁ objects objects₁ nodes₁ t)
    (hbefore : ClientHolds c objects nodes) (hb : b ∈ c.live) (hpos : n ≠ 0)
    (hle : c.heap.cursor ≤ heap₁.cursor) (hmapped : b.ptr.toNat + n.toNat ≤ heap₁.cursor.toNat)
    (hown : ∀ b' ∈ c.live, b' ≠ b → b'.span.Apart ⟨b.ptr.toNat, n.toNat⟩) {mem : UInt32 → UInt8}
    (hsame : ∀ a, ¬ OtherByte c b a → mem a = c.heap.mem a) :
    ∃ heap₂, kRealloc { c.heap with mem } b.ptr n = .ok (p, heap₂) ∧ ∀ j < n.toNat,
      heap₂.mem (p + UInt32.ofNat j) =
        (kFree (heap₁.memcpy p b.ptr n) b.ptr).mem (p + UInt32.ofNat j) := by
  obtain ⟨u, hu, hsize⟩ := hbefore.live b hb
  have hlive : u.size?.isSome := hsize ▸ rfl
  have hobj := h.holds.holds.obj
  have hb₁ := (h.apart hu hlive).1
  obtain ⟨mem₁, hmalloc, hagree⟩ := h.copy_agree hbefore hpos hle hmapped hown hsame
  refine ⟨_, kRealloc_eq (hobj.ne_zero hb₁) hpos h.ne_zero hmalloc, fun j hj => ?_⟩
  have hsized : ({ heap₁ with mem := mem₁ }.memcpy p b.ptr n).Sized := h.holds.sized
  have hout : ¬ p + UInt32.ofNat j - b.ptr < 4 := fun hin =>
    (h.apart hu hlive).2.symm.not_contains (h.addr hj).2 (h.link_contains hu hlive hin)
  rw [kFree_mem hsized (hobj.ne_zero hb₁) (hobj.aligned _ _ hb₁) hout,
    h.result hu hlive hj, hagree _ (h.not_otherByte hbefore (h.addr hj).2)]
  by_cases hword : p + UInt32.ofNat j - (b.ptr - LARGE_HDR_SIZE) < 4
  · -- the word that may be cleared lies in the new object
    have hload : load32 ({ heap₁ with mem := mem₁ }.memcpy p b.ptr n).mem (b.ptr - LARGE_HDR_SIZE) =
        load32 (heap₁.memcpy p b.ptr n).mem (b.ptr - LARGE_HDR_SIZE) := by
      refine load32_congr fun k hk => hagree _ (h.not_otherByte hbefore ?_)
      exact h.word_new hu hlive hj hword hk
    rw [hload]
  · rw [if_neg fun hboth => hword hboth.2, if_neg fun hboth => hword hboth.2]

theorem begins_within (hbefore : ClientHolds c objects nodes) (hb : b ∈ c.live) {b' : Block}
    (hb' : b' ∈ c.live) (hbb : b' ≠ b) (hover : ¬ b'.span.Apart ⟨b.ptr.toNat, n.toNat⟩) :
    ∃ j < n.toNat, b.ptr + UInt32.ofNat j = b'.ptr := by
  obtain ⟨u, hu, _⟩ := hbefore.live b hb
  obtain ⟨u', hu', hsize'⟩ := hbefore.live b' hb'
  have hobj := hbefore.holds.obj
  have hptr : b'.ptr ≠ b.ptr := fun heq => hbb (List.inj_on_of_nodup_map hbefore.nodup hb' hb heq)
  have hnot := (hobj.apart hptr hu' hu).symm.not_contains (hobj.contains hu)
  have hsub := (hobj.payload_sub hu' hsize').1
  change ¬ (b'.ptr.toNat + b'.size.toNat ≤ b.ptr.toNat ∨ b.ptr.toNat + n.toNat ≤ b'.ptr.toNat) at hover
  rw [not_or, Nat.not_le, Nat.not_le] at hover
  have hlt : b.ptr.toNat < b'.ptr.toNat := by
    refine Nat.lt_of_not_le fun hle => hnot ?_
    exact ⟨hsub.1.trans hle, hover.1.trans_le hsub.2⟩
  exact ⟨b'.ptr.toNat - b.ptr.toNat, by omega, add_ofNat_eq (by omega)⟩

theorem exists_marker (old : UInt8) : ∃ v : UInt8, (v = 1 ∨ v = 2) ∧ v ≠ old := by
  by_cases hone : old = 1
  · exact ⟨2, .inr rfl, by rw [hone]; decide⟩
  · exact ⟨1, .inl rfl, fun heq => hone heq.symm⟩

theorem not_cleared_of_marker {heap : Heap} {a w : UInt32} (h : heap.mem a = 1 ∨ heap.mem a = 2) :
    ¬ (load32 heap.mem w = LARGE_MAGIC ∧ a - w < 4) := by
  rintro ⟨hmagic, hword⟩
  have hbyte := byte_of_magic hmagic hword
  rcases h with h | h
  · rw [h] at hbyte
    exact absurd hbyte (by decide)
  · rw [h] at hbyte
    exact absurd hbyte (by decide)

/-- **A leak**: a byte of another block among the `n` bytes from the old block on is copied, so that the
result depends on it. -/
theorem own_of_noLeak (h : Copied c b n p heap₁ objects objects₁ nodes₁ t)
    (hbefore : ClientHolds c objects nodes) (hb : b ∈ c.live) (hpos : n ≠ 0)
    (hroom : HasRoom c.heap n)
    (hleak : ∀ mem, (∀ a, ¬ OtherByte c b a → mem a = c.heap.mem a) →
      ∃ heap₂, kRealloc { c.heap with mem } b.ptr n = .ok (p, heap₂) ∧ ∀ j < n.toNat,
        heap₂.mem (p + UInt32.ofNat j) =
          (kFree (heap₁.memcpy p b.ptr n) b.ptr).mem (p + UInt32.ofNat j))
    {b' : Block} (hb' : b' ∈ c.live) (hbb : b' ≠ b) :
    b'.span.Apart ⟨b.ptr.toNat, n.toNat⟩ := by
  obtain ⟨u, hu, hsize⟩ := hbefore.live b hb
  obtain ⟨u', hu', hsize'⟩ := hbefore.live b' hb'
  have hlive : u.size?.isSome := hsize ▸ rfl
  have hlive' : u'.size?.isSome := hsize' ▸ rfl
  have hobj := hbefore.holds.obj
  by_contra hover
  have hpos' := hobj.size_pos hu' hsize'
  obtain ⟨j, hjn, haddr⟩ := begins_within hbefore hb hb' hbb hover
  have hin : (u'.span b'.ptr).Contains (b.ptr + UInt32.ofNat j).toNat := by
    rw [haddr]
    exact hobj.contains hu'
  have hother : OtherByte c b b'.ptr :=
    ⟨b', hb', hbb, le_rfl, Nat.lt_add_of_pos_right hpos'⟩
  obtain ⟨v, hv, hvold⟩ := exists_marker (c.heap.mem b'.ptr)
  obtain ⟨heap₂, hok₂, hsame⟩ := hleak (Function.update c.heap.mem b'.ptr v) fun a ha =>
    Function.update_of_ne (by rintro rfl; exact ha hother) _ _
  have hbefore₂ : ClientHolds ⟨{ c.heap with mem := Function.update c.heap.mem b'.ptr v }, c.live⟩
      objects nodes := by
    refine ClientHolds.overwrite hbefore hb' fun a ha => Function.update_of_ne ?_ _ _
    rintro rfl
    exact ha ⟨le_rfl, Nat.lt_add_of_pos_right hpos'⟩
  obtain ⟨heap₁', hmalloc, rfl⟩ := kRealloc_inv (hobj.ne_zero hu) hpos hok₂
  obtain ⟨objects₂, nodes₂, t₂, h₂⟩ := hbefore₂.copy b hpos hroom hmalloc
  have hcopy₂ := h₂.moved hu' hlive' hjn hin
  dsimp only at hcopy₂
  rw [haddr, Function.update_self] at hcopy₂
  have hkept : ¬ (load32 (heap₁'.memcpy p b.ptr n).mem (b.ptr - LARGE_HDR_SIZE) = LARGE_MAGIC ∧
      p + UInt32.ofNat j - (b.ptr - LARGE_HDR_SIZE) < 4) := not_cleared_of_marker (hcopy₂.symm ▸ hv)
  have hbyte := hsame j hjn
  rw [if_pos h.ne_zero, h₂.result hu hlive hjn, if_neg hkept, hcopy₂, h.result hu hlive hjn,
    h.moved hu' hlive' hjn hin, haddr] at hbyte
  split_ifs at hbyte
  · rcases hv with rfl | rfl
    · exact absurd hbyte (by decide)
    · exact absurd hbyte (by decide)
  · exact hvold hbyte

theorem mallocSound (h : Copied c b n p heap₁ objects objects₁ nodes₁ t) (hb : b ∈ c.live)
    (hle : c.heap.cursor ≤ heap₁.cursor) :
    MallocSound ⟨c.heap, c.live.eraseP fun b' => b'.ptr = b.ptr⟩
      (kFree (heap₁.memcpy p b.ptr n) b.ptr) ⟨p, n⟩ := by
  have hne : p ≠ b.ptr := by
    rintro rfl
    have hmem : b.ptr ∈ c.live.map Block.ptr := List.mem_map_of_mem hb
    exact (List.nodup_cons.mp h.holds.nodup).1 hmem
  obtain ⟨objects', nodes', h'⟩ := h.holds.free (List.mem_cons_of_mem _ hb)
  dsimp only at h'
  rw [List.eraseP_cons_of_neg (by simpa using hne)] at h'
  refine ⟨?_, h'.blocksSafe⟩
  rw [(kFree_same _ _).2]
  exact hle

end Copied

/-- **`k_realloc` is faithful** exactly if the request is safe. -/
theorem ClientHolds.realloc_iff (h : ClientHolds c objects nodes) (hb : b ∈ c.live) (hpos : n ≠ 0)
    (hok : kRealloc c.heap b.ptr n = .ok (p, heap')) :
    ReallocFaithful c b n p heap' ↔ ReallocSafe c b n := by
  obtain ⟨u, hu, hsize⟩ := h.live b hb
  have hbase := (h.holds.obj.lt_top hu).1
  obtain ⟨heap₁, hmalloc, rfl⟩ := kRealloc_inv (h.holds.obj.ne_zero hu) hpos hok
  by_cases hroom : HasRoom c.heap n
  · have hle := (hasRoom_iff hpos (hroom.roundsBelow h.sized) hmalloc).mp hroom
    obtain ⟨objects₁, nodes₁, t, hcopied⟩ := h.copy b hpos hroom hmalloc
    have hcursor : (kFree (heap₁.memcpy p b.ptr n) b.ptr).cursor = heap₁.cursor := (kFree_same _ _).2
    rw [if_pos hcopied.ne_zero]
    constructor
    · intro hfaithful
      have haccesses := hfaithful.accesses
      rw [hcursor, hcopied.accesses_iff hpos hbase] at haccesses
      exact {
        room := hroom
        own := fun b' => hcopied.own_of_noLeak h hb hpos hroom hfaithful.noLeak
        mapped := hcopied.cursor ▸ haccesses.1
        guarded := (hcopied.guarded_iff h hb).mp ⟨hfaithful.others, haccesses.2⟩
        kept := (hcopied.copied_iff h hu hsize).mp hfaithful.copied }
    · intro hsafe
      have hmapped := hsafe.mapped
      rw [← hcopied.cursor] at hmapped
      obtain ⟨hothers, hfree⟩ := (hcopied.guarded_iff h hb).mpr hsafe.guarded
      exact {
        sound := hcopied.mallocSound hb hle
        copied := (hcopied.copied_iff h hu hsize).mpr hsafe.kept
        others := hothers
        accesses := by
          rw [hcursor, hcopied.accesses_iff hpos hbase]
          exact ⟨hmapped, hfree⟩
        noLeak := fun mem hsame => hcopied.noLeak h hb hpos hle hmapped hsafe.own hsame }
  · -- no room: the block that is returned is no block of that size
    refine iff_of_false (fun hfaithful => hroom ?_) fun hsafe => hroom hsafe.room
    obtain ⟨hlo, hhi⟩ := hfaithful.sound.blocks.within ⟨p, n⟩ List.mem_cons_self
    refine (hasRoom_iff hpos (.of_within hlo hhi) hmalloc).mpr ?_
    have hle := hfaithful.sound.cursor_le
    rw [(kFree_same _ _).2] at hle
    split_ifs at hle
    · exact hle
    · exact hle

end

theorem ClientHolds.realloc_returns {c : HeapClient} {objects : UInt32 → Option Tag}
    {nodes : Fin NUM_SLABS → List UInt32} (h : ClientHolds c objects nodes) {ptr : UInt32} (size : UInt32)
    {node : UInt32} {i : Fin NUM_SLABS} {rest : List UInt32} (hptr : ptr ≠ 0) (hpos : size ≠ 0) (hsmall : size ≤ 1024)
    (hclass : classOf size = some i) (hnodes : nodes i = node :: rest) :
    HasRoom c.heap size ∧ ∃ p heap', kRealloc c.heap ptr size = .ok (p, heap') := by
  have hfind : findCache c.heap size = some i := (findCache_eq_classOf h.sized size).trans hclass
  obtain ⟨c', _, hstep, hfits, _⟩ := h.malloc_small hpos hsmall hfind hnodes
  obtain ⟨p, heap₁, hmalloc, _⟩ := HeapClient.step_malloc hstep
  exact ⟨HeapClient.Fits.hasRoom hfits hstep, p, _, kRealloc_of_malloc hptr hpos hmalloc⟩

theorem twoBlocks_nodes :
    ∃ s₀ heap c objects nodes, vmmInit (bootVmm smallKernel roomyMap (fun _ => 0) 0) = .ok s₀ ∧
      heapInit (Heap.boot s₀ (fun _ => 0)) = .ok heap ∧
      Runs.EachStep HeapClient.step HeapClient.HasRoom (HeapClient.start heap) twoBlocks ∧
      Runs.haltingRun HeapClient.step (HeapClient.start heap) twoBlocks = some c ∧
      ClientHolds c objects nodes ∧ c.live = [⟨0xD0003FF0, 8⟩, ⟨0xD0003FF8, 8⟩] ∧
      (∃ n rest, nodes firstSlab = n :: rest) ∧ ∃ n rest, nodes secondSlab = n :: rest := by
  obtain ⟨s₀, heap, hinit, hheap⟩ := heapInit_returns_roomyMap fun _ => 0
  obtain ⟨objects, nodes, h, hnodes⟩ := clientHolds_start hinit hheap
  obtain ⟨n, rest, hsecond⟩ := secondSlab_nodes hinit hheap h
  obtain ⟨c, objects', hfits, hrun, h', hlive⟩ := twoBlocks_from h hnodes
  have hroom : Runs.EachStep HeapClient.step HeapClient.HasRoom (HeapClient.start heap) twoBlocks :=
    Runs.EachStep.mono_of (fun _ => True) (fun _ _ _ _ _ _ => trivial)
      (fun _ _ _ _ hop hstep => HeapClient.Fits.hasRoom hop hstep) trivial hfits
  refine ⟨s₀, heap, c, objects', _, hinit, hheap, hroom, hrun, h', hlive, ?_, n, rest, ?_⟩
  · rw [Function.update_self, slabNodes_succ]
    exact ⟨_, _, rfl⟩
  · rw [Function.update_of_ne (by decide), hsecond]

end LunaOs
