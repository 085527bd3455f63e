import LunaOs.HeapRun

/-! # What `k_free` touches

To tell large blocks from small ones `k_free` reads the word eight bytes below the pointer.  For a
small block that word belongs to the object below, whatever its owner keeps there, and for the lowest
object of the heap it lies below the heap.  A word that happens to be the magic number is cleared. -/

namespace LunaOs

open ByteMem Extents FreeList

/-- The addresses of the bytes of a word. -/
def wordBytes (a : UInt32) : List UInt32 := [a, a + 1, a + 2, a + 3]

/-- The addresses that `k_free` reads or writes: the magic number, and the link of a small object. -/
def kFreeAccesses (h : Heap) (ptr : UInt32) : List UInt32 :=
  if ptr = 0 then []
  else if load32 h.mem (ptr - LARGE_HDR_SIZE) = LARGE_MAGIC then wordBytes (ptr - LARGE_HDR_SIZE)
  else
    match (List.finRange NUM_SLABS).find? fun i => ptr % (h.caches i).objSize = 0 with
    | none => wordBytes (ptr - LARGE_HDR_SIZE)
    | some _ => wordBytes (ptr - LARGE_HDR_SIZE) ++ wordBytes ptr

/-- Freeing `b` leaves the contents of the other live blocks unchanged and stays within the pages of
the heap. -/
def FreesOwnBlock (c : HeapClient) (b : Block) : Prop :=
  (∀ b' ∈ c.live, b' ≠ b → ∀ j < b'.size.toNat,
    (kFree c.heap b.ptr).mem (b'.ptr + UInt32.ofNat j) = c.heap.mem (b'.ptr + UInt32.ofNat j)) ∧
  ∀ a ∈ kFreeAccesses c.heap b.ptr, HEAP_VIRT_BASE ≤ a ∧ a < c.heap.cursor

/-- The block is large; or it is not the lowest object of the heap, and the word below it is not the
magic number within another live block. -/
def FreeGuarded (c : HeapClient) (b : Block) : Prop :=
  1024 < b.size ∨
    b.ptr ≠ HEAP_VIRT_BASE ∧
      ¬ (load32 c.heap.mem (b.ptr - LARGE_HDR_SIZE) = LARGE_MAGIC ∧
        ∃ b' ∈ c.live, b'.span.Contains (b.ptr - LARGE_HDR_SIZE).toNat)

theorem toNat_of_mem_wordBytes {a x : UInt32} (ha : a.toNat + 4 ≤ 2 ^ 32) (hx : x ∈ wordBytes a) :
    a.toNat ≤ x.toNat ∧ x.toNat < a.toNat + 4 := by
  have hadd : ∀ j < 4, (a + UInt32.ofNat j).toNat = a.toNat + j :=
    fun j hj => toNat_add_of_lt (by omega)
  have h1 : (a + 1).toNat = a.toNat + 1 := hadd 1 (by decide)
  have h2 : (a + 2).toNat = a.toNat + 2 := hadd 2 (by decide)
  have h3 : (a + 3).toNat = a.toNat + 3 := hadd 3 (by decide)
  simp only [wordBytes, List.mem_cons, List.not_mem_nil, or_false] at hx
  rcases hx with rfl | rfl | rfl | rfl <;> omega

section
variable {c : HeapClient} {objects : UInt32 → Option Tag} {nodes : Fin NUM_SLABS → List UInt32}
  {b : Block} {t : Tag}

/-- The bytes of another live block are outside the object of `b`. -/
theorem ClientHolds.other_outside (h : ClientHolds c objects nodes) (hb : b ∈ c.live)
    (ht : objects b.ptr = some t) {b' : Block} (hb' : b' ∈ c.live) (hne : b' ≠ b) {j : ℕ}
    (hj : j < b'.size.toNat) :
    (b'.ptr + UInt32.ofNat j).toNat = b'.ptr.toNat + j ∧
      ¬ (t.span b.ptr).Contains (b'.ptr + UInt32.ofNat j).toNat := by
  obtain ⟨t', ht', hsize'⟩ := h.live b' hb'
  obtain ⟨haddr, hin⟩ := h.holds.obj.payload_byte ht' hsize' hj
  have hptr : b'.ptr ≠ b.ptr := by
    intro heq
    exact hne (List.inj_on_of_nodup_map h.nodup hb' hb heq)
  exact ⟨haddr, (h.holds.obj.apart hptr ht' ht).not_contains hin⟩

theorem ClientHolds.freesOwn_large (h : ClientHolds c objects nodes) (hb : b ∈ c.live)
    {pages : ℕ} {size : UInt32} (ht : objects b.ptr = some (.large pages size)) :
    FreesOwnBlock c b := by
  obtain ⟨_, _, hmagic⟩ := h.holds.obj.valid b.ptr _ ht
  obtain ⟨hsub, hle, _, hstart⟩ := h.holds.obj.guard_sub ht rfl
  have hbounds := h.holds.obj.bounds ht
  have hend := hsub.2
  have hne := h.holds.obj.ne_zero ht
  constructor
  · intro b' hb' hbb j hj
    unfold kFree
    rw [if_neg hne, if_pos hmagic]
    exact ((store32_agree c.heap.mem 0 hle).mono hsub) _ (h.other_outside hb ht hb' hbb hj).2
  · intro a ha
    unfold kFreeAccesses at ha
    rw [if_neg hne, if_pos hmagic] at ha
    obtain ⟨h1, h2⟩ := toNat_of_mem_wordBytes hle ha
    rw [UInt32.le_iff_toNat_le, UInt32.lt_iff_toNat_lt]
    dsimp only at hend
    omega

theorem ClientHolds.small_bounds (h : ClientHolds c objects nodes) {i : Fin NUM_SLABS}
    {size : UInt32} (ht : objects b.ptr = some (.small i size)) :
    b.ptr.toNat + 8 ≤ c.heap.cursor.toNat ∧
      (⟨b.ptr.toNat, 4⟩ : Span).Sub ((Tag.small i size).span b.ptr) := by
  have hend : b.ptr.toNat + (slabSize i).toNat ≤ c.heap.cursor.toNat := (h.holds.obj.bounds ht).2
  have hsize := (slabSize_bounds i).1
  refine ⟨by omega, le_rfl, ?_⟩
  show b.ptr.toNat + 4 ≤ b.ptr.toNat + (slabSize i).toNat
  omega

theorem ClientHolds.accesses_small (h : ClientHolds c objects nodes) {i : Fin NUM_SLABS}
    {size : UInt32} (ht : objects b.ptr = some (.small i size)) :
    (∀ a ∈ kFreeAccesses c.heap b.ptr, HEAP_VIRT_BASE ≤ a ∧ a < c.heap.cursor) ↔
      b.ptr ≠ HEAP_VIRT_BASE := by
  obtain ⟨hbelow, hbase⟩ := h.holds.obj.below_toNat ht
  have haligned := h.holds.obj.aligned b.ptr _ ht
  have hcursor := (h.small_bounds ht).1
  have hlt := h.holds.obj.top_lt
  have hmem : b.ptr - LARGE_HDR_SIZE ∈ kFreeAccesses c.heap b.ptr ∧
      ∀ a ∈ kFreeAccesses c.heap b.ptr,
        a ∈ wordBytes (b.ptr - LARGE_HDR_SIZE) ∨ a ∈ wordBytes b.ptr := by
    unfold kFreeAccesses
    rw [if_neg (h.holds.obj.ne_zero ht)]
    split_ifs
    · exact ⟨List.mem_cons_self, fun a ha => .inl ha⟩
    · rw [find_alignedSlab h.sized haligned]
      exact ⟨List.mem_append_left _ List.mem_cons_self, fun a ha => List.mem_append.mp ha⟩
  constructor
  · intro hall heq
    have hlow := (hall _ hmem.1).1
    rw [UInt32.le_iff_toNat_le, hbelow, heq, heapBase_toNat] at hlow
    omega
  · intro hlowest a ha
    have hnat : b.ptr.toNat ≠ 0xD0000000 := fun heq => hlowest (UInt32.toNat_inj.mp heq)
    rw [UInt32.le_iff_toNat_le, UInt32.lt_iff_toNat_lt, heapBase_toNat]
    rcases hmem.2 a ha with hword | hword
    · obtain ⟨h1, h2⟩ := toNat_of_mem_wordBytes (by omega) hword
      omega
    · obtain ⟨h1, h2⟩ := toNat_of_mem_wordBytes (by omega) hword
      omega

theorem ClientHolds.clears_iff (h : ClientHolds c objects nodes) (hb : b ∈ c.live)
    (ht : objects b.ptr = some t)
    (hmagic : load32 c.heap.mem (b.ptr - LARGE_HDR_SIZE) = LARGE_MAGIC) :
    (∀ b' ∈ c.live, b' ≠ b → ∀ j < b'.size.toNat,
      store32 c.heap.mem (b.ptr - LARGE_HDR_SIZE) 0 (b'.ptr + UInt32.ofNat j) =
        c.heap.mem (b'.ptr + UInt32.ofNat j)) ↔
      ¬ ∃ b' ∈ c.live, b'.span.Contains (b.ptr - LARGE_HDR_SIZE).toNat := by
  obtain ⟨hbelow, hbase⟩ := h.holds.obj.below_toNat ht
  have haligned := h.holds.obj.aligned b.ptr _ ht
  have hptr := b.ptr.toNat_lt
  constructor
  · rintro hsame ⟨b', hb', h1, h2⟩
    change b'.ptr.toNat ≤ _ at h1
    change _ < b'.ptr.toNat + b'.size.toNat at h2
    have hbb : b' ≠ b := by
      rintro rfl
      omega
    have haddr : b'.ptr + UInt32.ofNat ((b.ptr - LARGE_HDR_SIZE).toNat - b'.ptr.toNat) =
        b.ptr - LARGE_HDR_SIZE := add_ofNat_eq (by omega)
    have hbyte := hsame b' hb' hbb _
      (by omega : (b.ptr - LARGE_HDR_SIZE).toNat - b'.ptr.toNat < b'.size.toNat)
    rw [haddr] at hbyte
    -- the first byte of the magic number is not zero
    have hzero : store32 c.heap.mem (b.ptr - LARGE_HDR_SIZE) 0 (b.ptr - LARGE_HDR_SIZE) = 0 := by
      have hfirst := store32_apply c.heap.mem (b.ptr - LARGE_HDR_SIZE) 0 (j := 0) (by decide)
      rwa [show UInt32.ofNat 0 = 0 from rfl, UInt32.add_zero] at hfirst
    have hlow := load32_mod c.heap.mem (b.ptr - LARGE_HDR_SIZE)
    rw [hmagic, ← hbyte, hzero] at hlow
    exact absurd hlow (by decide)
  · intro hnone b' hb' hbb j hj
    obtain ⟨haddr, _⟩ := h.other_outside hb ht hb' hbb hj
    refine store32_agree c.heap.mem 0 (by omega) _ fun hin => hnone ⟨b', hb', ?_⟩
    obtain ⟨t', ht', _⟩ := h.live b' hb'
    have haligned' := h.holds.obj.aligned b'.ptr t' ht'
    obtain ⟨h1, h2⟩ := hin
    dsimp only at h1 h2
    rw [haddr] at h1 h2
    constructor
    · show b'.ptr.toNat ≤ (b.ptr - LARGE_HDR_SIZE).toNat
      omega
    · show (b.ptr - LARGE_HDR_SIZE).toNat < b'.ptr.toNat + b'.size.toNat
      omega

/-- A small block: the others keep their contents unless one of them holds the magic number right
below it. -/
theorem ClientHolds.contents_small (h : ClientHolds c objects nodes) (hb : b ∈ c.live)
    {i : Fin NUM_SLABS} {size : UInt32} (ht : objects b.ptr = some (.small i size)) :
    (∀ b' ∈ c.live, b' ≠ b → ∀ j < b'.size.toNat,
      (kFree c.heap b.ptr).mem (b'.ptr + UInt32.ofNat j) =
        c.heap.mem (b'.ptr + UInt32.ofNat j)) ↔
      ¬ (load32 c.heap.mem (b.ptr - LARGE_HDR_SIZE) = LARGE_MAGIC ∧
        ∃ b' ∈ c.live, b'.span.Contains (b.ptr - LARGE_HDR_SIZE).toNat) := by
  have hne := h.holds.obj.ne_zero ht
  by_cases hmagic : load32 c.heap.mem (b.ptr - LARGE_HDR_SIZE) = LARGE_MAGIC
  · have hfree : (kFree c.heap b.ptr).mem = store32 c.heap.mem (b.ptr - LARGE_HDR_SIZE) 0 := by
      unfold kFree
      rw [if_neg hne, if_pos hmagic]
    rw [hfree, h.clears_iff hb ht hmagic, and_iff_right hmagic]
  · refine iff_of_true (fun b' hb' hbb j hj => ?_) fun hboth => hmagic hboth.1
    have hfree : (kFree c.heap b.ptr).mem =
        store32 c.heap.mem b.ptr (c.heap.caches firstSlab).freeList := by
      unfold kFree
      rw [if_neg hne, if_neg hmagic, find_alignedSlab h.sized (h.holds.obj.aligned b.ptr _ ht)]
    obtain ⟨hcursor, hsub⟩ := h.small_bounds ht
    have hlt := h.holds.obj.top_lt
    rw [hfree]
    exact ((store32_agree c.heap.mem _ (by omega)).mono hsub) _
      (h.other_outside hb ht hb' hbb hj).2

theorem ClientHolds.freesOwn_iff (h : ClientHolds c objects nodes) (hb : b ∈ c.live) :
    FreesOwnBlock c b ↔ FreeGuarded c b := by
  obtain ⟨t, ht, hsize⟩ := h.live b hb
  have hvalid := h.holds.obj.valid b.ptr t ht
  have hmax : (1024 : UInt32).toNat = 1024 := rfl
  unfold FreeGuarded
  rw [UInt32.lt_iff_toNat_lt, hmax]
  cases t with
  | free i => cases hsize
  | small i size =>
      obtain rfl := Option.some.inj hsize
      have hle := UInt32.le_iff_toNat_le.mp hvalid.2
      have hslab := (slabSize_bounds i).2.2.1
      have hnot : ¬ 1024 < b.size.toNat := by omega
      unfold FreesOwnBlock
      rw [h.contents_small hb ht, h.accesses_small ht, or_iff_right hnot, and_comm]
  | large pages size =>
      obtain rfl := Option.some.inj hsize
      exact iff_of_true (h.freesOwn_large hb ht) (.inl hvalid.1)

end

theorem freeGuarded_lower {c : HeapClient} (hlive : c.live = [⟨0xD0003FF0, 8⟩, ⟨0xD0003FF8, 8⟩]) :
    FreeGuarded c ⟨0xD0003FF0, 8⟩ := by
  refine .inr ⟨by decide, ?_⟩
  rintro ⟨_, b', hb', hcontains⟩
  rw [hlive] at hb'
  have hall : ∀ b' ∈ ([⟨0xD0003FF0, 8⟩, ⟨0xD0003FF8, 8⟩] : List Block),
      ¬ b'.span.Contains ((0xD0003FF0 : UInt32) - LARGE_HDR_SIZE).toNat := by
    unfold Span.Contains
    decide
  exact hall b' hb' hcontains

theorem step_write {c : HeapClient} {ptr size : UInt32} (hb : (⟨ptr, size⟩ : Block) ∈ c.live)
    (off : UInt32) (value : UInt8) (hoff : off < size) :
    ∃ c', c.step (.write ptr off value) = some c' ∧ c'.live = c.live ∧
      c'.heap.mem = Function.update c.heap.mem (ptr + off) value :=
  ⟨_, if_pos ⟨_, hb, rfl, hoff⟩, rfl, rfl⟩

/-- The owner of the lower block fills its first word with the magic number. -/
def forgeMagic : List HeapOp :=
  [.write 0xD0003FF0 0 0xEF, .write 0xD0003FF0 1 0xBE, .write 0xD0003FF0 2 0xAD,
    .write 0xD0003FF0 3 0xDE]

theorem forgeMagic_run {c : HeapClient} (hb : (⟨0xD0003FF0, 8⟩ : Block) ∈ c.live) :
    ∃ c', Runs.haltingRun HeapClient.step c forgeMagic = some c' ∧ c'.live = c.live ∧
      load32 c'.heap.mem 0xD0003FF0 = LARGE_MAGIC ∧ c'.heap.mem 0xD0003FF0 = 0xEF := by
  obtain ⟨c₁, hstep₁, hlive₁, hmem₁⟩ := step_write hb 0 0xEF (by decide)
  obtain ⟨c₂, hstep₂, hlive₂, hmem₂⟩ := step_write (hlive₁ ▸ hb) 1 0xBE (by decide)
  have hb₂ : (⟨0xD0003FF0, 8⟩ : Block) ∈ c₂.live := by rwa [hlive₂, hlive₁]
  obtain ⟨c₃, hstep₃, hlive₃, hmem₃⟩ := step_write hb₂ 2 0xAD (by decide)
  obtain ⟨c₄, hstep₄, hlive₄, hmem₄⟩ := step_write (hlive₃ ▸ hb₂) 3 0xDE (by decide)
  refine ⟨c₄, ?_, ?_, ?_, ?_⟩
  · exact Runs.haltingRun_cons.mpr ⟨c₁, hstep₁, Runs.haltingRun_cons.mpr ⟨c₂, hstep₂,
      Runs.haltingRun_cons.mpr ⟨c₃, hstep₃, Runs.haltingRun_cons.mpr ⟨c₄, hstep₄, rfl⟩⟩⟩⟩
  · rw [hlive₄, hlive₃, hlive₂, hlive₁]
  · rw [hmem₄, hmem₃, hmem₂, hmem₁]
    simp [load32, LARGE_MAGIC]
  · rw [hmem₄, hmem₃, hmem₂, hmem₁]
    simp

end LunaOs
