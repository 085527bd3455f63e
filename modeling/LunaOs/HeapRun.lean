import LunaOs.HeapFrame
import Mathlib.Tactic.Linarith

/-! # Runs of the allocator

After `heap_init`, clients allocate, free what they hold and write any bytes into it.  The state pairs
the heap with the list of the blocks handed out and not yet freed, as the client knows them: a
pointer and the size it asked for. -/

namespace LunaOs

open ByteMem Extents FreeList

/-- A block of a client, with the size it asked for. -/
structure Block where
  ptr : UInt32
  size : UInt32

/-- The bytes a client may use. -/
def Block.span (b : Block) : Span := ⟨b.ptr.toNat, b.size.toNat⟩

/-- The heap and the blocks that its client holds. -/
structure HeapClient where
  heap : Heap
  live : List Block

inductive HeapOp where
  | malloc (size : UInt32)
  | free (ptr : UInt32)
  | write (ptr off : UInt32) (value : UInt8)

def HeapClient.step (c : HeapClient) : HeapOp → Option HeapClient
  | .malloc size =>
      match kMalloc c.heap size with
      | .ok (ptr, heap) => some ⟨heap, if ptr = 0 then c.live else ⟨ptr, size⟩ :: c.live⟩
      | .error _ => none
  | .free ptr =>
      if ∃ b ∈ c.live, b.ptr = ptr then
        some ⟨kFree c.heap ptr, c.live.eraseP fun b => b.ptr = ptr⟩
      else none
  | .write ptr off value =>
      if ∃ b ∈ c.live, b.ptr = ptr ∧ off < b.size then
        some { c with heap :=
          { c.heap with mem := Function.update c.heap.mem (ptr + off) value } }
      else none

/-- After `heap_init`. -/
def HeapClient.start (heap : Heap) : HeapClient := ⟨heap, []⟩

/-- A request, with its header and rounded up to pages, is below 4 GB, and the cursor does not wrap
around. -/
def HeapClient.Fits (c : HeapClient) : HeapOp → Prop
  | .malloc size => RoundsBelow size ∧
      ∀ ptr heap, kMalloc c.heap size = .ok (ptr, heap) → c.heap.cursor ≤ heap.cursor
  | _ => True

/-- What the client relies on. -/
structure BlocksSafe (c : HeapClient) : Prop where
  disjoint : c.live.Pairwise fun b b' => b.span.Apart b'.span
  aligned : ∀ b ∈ c.live, b.ptr.toNat % 8 = 0
  off_lists : ∀ i, ∃ nodes, Chain (load32 c.heap.mem) 0 (c.heap.caches i).freeList nodes ∧
    ∀ n ∈ nodes, ∀ b ∈ c.live,
      b.span.Apart ⟨n.toNat, (c.heap.caches i).objSize.toNat⟩
  within : ∀ b ∈ c.live, HEAP_VIRT_BASE.toNat ≤ b.ptr.toNat ∧
    b.ptr.toNat + b.size.toNat ≤ c.heap.cursor.toNat
  mapped : ∀ a, HEAP_VIRT_BASE ≤ a → a < c.heap.cursor →
    PageMapped c.heap.vmm c.heap.vmm.kernelPd a

/-- Requests of at most 1024 bytes get zeroed memory. -/
def Zeroes (heap : Heap) : Prop :=
  ∀ size ptr heap', size ≤ 1024 → kMalloc heap size = .ok (ptr, heap') →
    ∀ j < size.toNat, heap'.mem (ptr + UInt32.ofNat j) = 0

/-! ### The blocks of a client are objects -/

/-- The live blocks are objects of their size at different pointers. -/
structure ClientHolds (c : HeapClient) (objects : UInt32 → Option Tag)
    (nodes : Fin NUM_SLABS → List UInt32) : Prop where
  holds : HeapHolds c.heap objects nodes
  sized : c.heap.Sized
  mapped : HeapMapped c.heap
  live : ∀ b ∈ c.live, ∃ t, objects b.ptr = some t ∧ t.size? = some b.size
  nodup : (c.live.map Block.ptr).Nodup

section
variable {mem : UInt32 → UInt8} {objects : UInt32 → Option Tag} {top : ℕ} {p size : UInt32}
  {t : Tag} {nodes : Fin NUM_SLABS → List UInt32}

/-- The bytes asked for lie within the object, behind the header of a large block. -/
theorem Objects.payload_sub (h : Objects mem objects top) (hp : objects p = some t)
    (hsize : t.size? = some size) :
    (⟨p.toNat, size.toNat⟩ : Span).Sub (t.span p) ∧
      ∀ a, t.guard p = some a → a.toNat + 4 ≤ p.toNat := by
  have hbase := (h.lt_top hp).1
  have hvalid := h.valid p t hp
  rw [heapBase_toNat] at hbase
  cases t with
  | free i => cases hsize
  | small i s =>
      obtain rfl := Option.some.inj hsize
      refine ⟨⟨le_rfl, ?_⟩, fun a ha => by cases ha⟩
      have hle := UInt32.le_iff_toNat_le.mp hvalid.2
      show p.toNat + s.toNat ≤ p.toNat + (slabSize i).toNat
      omega
  | large pages s =>
      obtain rfl := Option.some.inj hsize
      obtain ⟨_, hpages, _⟩ := hvalid
      refine ⟨⟨Nat.sub_le _ _, ?_⟩, fun a ha => ?_⟩
      · show p.toNat + s.toNat ≤ p.toNat - 8 + pages * 4096
        omega
      · obtain rfl := Option.some.inj ha
        rw [sub_header_toNat (by omega)]
        omega

theorem Objects.payload_byte (h : Objects mem objects top) (hp : objects p = some t)
    (hsize : t.size? = some size) {j : ℕ} (hj : j < size.toNat) :
    (p + UInt32.ofNat j).toNat = p.toNat + j ∧ (t.span p).Contains (p + UInt32.ofNat j).toNat := by
  obtain ⟨hlo, hhi⟩ := (h.payload_sub hp hsize).1
  have hend := (h.bounds hp).2
  have hlt := h.top_lt
  dsimp only at hlo hhi
  have haddr : (p + UInt32.ofNat j).toNat = p.toNat + j := toNat_add_of_lt (by omega)
  rw [haddr]
  exact ⟨rfl, by omega, by omega⟩

theorem HeapHolds.overwrite {heap : Heap} (h : HeapHolds heap objects nodes) (hp : objects p = some t)
    (hsize : t.size? = some size) (hagree : AgreeOutside ⟨p.toNat, size.toNat⟩ heap.mem mem) :
    HeapHolds { heap with mem } objects nodes := by
  obtain ⟨hsub, hguard⟩ := h.obj.payload_sub hp hsize
  have hkeep : ∀ q u, objects q = some u → ∀ a, u.guard q = some a →
      load32 mem a = load32 heap.mem a := by
    intro q u hu a ha
    by_cases hqp : q = p
    · subst hqp
      obtain rfl := Option.some.inj (hp.symm.trans hu)
      obtain ⟨_, hle, _⟩ := h.obj.guard_sub hp ha
      exact hagree.load32_eq hle (.inl (hguard a ha))
    · exact h.obj.guard_eq hagree hu ((h.obj.apart hqp hu hp).sub (.refl _) hsub) ha
  exact ⟨h.obj.congr hkeep, h.lists.congr fun n i hn => ⟨hkeep n _ hn n rfl, hn⟩, h.cursor_page⟩

theorem HeapHolds.write {heap : Heap} (h : HeapHolds heap objects nodes) (hp : objects p = some t)
    (hsize : t.size? = some size) {off : UInt32} (hoff : off < size) (value : UInt8) :
    HeapHolds { heap with mem := Function.update heap.mem (p + off) value } objects nodes := by
  obtain ⟨hsub, _⟩ := h.obj.payload_sub hp hsize
  have hbounds := h.obj.bounds hp
  have hlt := h.obj.top_lt
  rw [UInt32.lt_iff_toNat_lt] at hoff
  have hend := hsub.2
  dsimp only at hend
  have hin := contains_add (a := p) (k := size.toNat) (by omega) hoff
  rw [UInt32.ofNat_toNat] at hin
  refine h.overwrite hp hsize fun a ha => Function.update_of_ne ?_ _ _
  rintro rfl
  exact ha hin

/-! ### `heap_init` -/

theorem HeapHolds.reset {heap : Heap} (h : HeapHolds heap objects nodes) (i : Fin NUM_SLABS)
    (c : SlabCache) (hc : c.freeList = 0) :
    HeapHolds { heap with caches := Function.update heap.caches i c } objects
      (Function.update nodes i []) := by
  refine ⟨h.obj, fun j => ?_, h.cursor_page⟩
  dsimp only
  rw [heads_update, hc]
  by_cases hj : j = i
  · rw [hj, Function.update_self, Function.update_self]
    exact ⟨rfl, fun n hn => absurd hn List.not_mem_nil⟩
  · rw [Function.update_of_ne hj, Function.update_of_ne hj]
    exact h.lists j

theorem initCache_holds {heap heap' : Heap} {i : Fin NUM_SLABS}
    (h : HeapHolds heap objects nodes) (hmapped : HeapMapped heap)
    (hroom : heap.cursor.toNat + 16384 < 2 ^ 32) (hok : initCache heap i = .ok heap') :
    ∃ objects', HeapHolds heap' objects'
        (Function.update nodes i (extension heap.cursor i ++ [])) ∧
      HeapMapped heap' ∧ heap'.cursor.toNat = heap.cursor.toNat + 16384 ∧
      ∀ j, (heap'.caches j).objSize = if j = i then slabSize i else (heap.caches j).objSize := by
  set emptied : Heap :=
    { heap with caches := Function.update heap.caches i ⟨0, slabSize i, 0, 0⟩ } with hemptied
  have hcache : ∀ j, (emptied.caches j).objSize =
      if j = i then slabSize i else (heap.caches j).objSize := by
    intro j
    rw [hemptied]
    dsimp only
    split_ifs with hj
    · rw [hj, Function.update_self]
    · rw [Function.update_of_ne hj]
  have hext : extendSlab emptied i = .ok heap' := hok
  have hpages := extendSlab_pages hext
  change heapAllocPages 4 heap.vmm heap.cursor = .ok (heap'.vmm, heap'.cursor) at hpages
  have hcursor : heap'.cursor.toNat = heap.cursor.toNat + 16384 := by
    rw [heapAllocPages_cursor hpages, UInt32.toNat_add, UInt32.toNat_ofNat']
    omega
  have hle : heap.cursor ≤ heap'.cursor := by
    rw [UInt32.le_iff_toNat_le]
    omega
  obtain ⟨objects', h', _, hsizes⟩ :=
    (h.reset i ⟨0, slabSize i, 0, 0⟩ rfl).extendSlab ((hcache i).trans (if_pos rfl)) hok hle
  rw [Function.update_self, Function.update_idem] at h'
  exact ⟨objects', h', hmapped.grow ⟨4, by decide, hpages⟩ h.cursor_page hle, hcursor,
    fun j => (hsizes j).trans (hcache j)⟩

theorem initCaches_holds {heap heap' : Heap} {l : List (Fin NUM_SLABS)}
    (h : HeapHolds heap objects nodes) (hmapped : HeapMapped heap)
    (hroom : heap.cursor.toNat + 16384 * l.length < 2 ^ 32)
    (hok : l.foldlM initCache heap = .ok heap') :
    ∃ objects' nodes', HeapHolds heap' objects' nodes' ∧ HeapMapped heap' ∧
      (∀ j, j ∈ l ∨ (heap.caches j).objSize = slabSize j →
        (heap'.caches j).objSize = slabSize j) ∧
      ∀ j, j ∉ l → nodes' j = nodes j := by
  induction l generalizing heap objects nodes with
  | nil =>
      obtain rfl := Except.ok.inj hok
      exact ⟨objects, nodes, h, hmapped, fun j hj => hj.resolve_left List.not_mem_nil,
        fun _ _ => rfl⟩
  | cons i l ih =>
      rw [List.foldlM_cons] at hok
      obtain ⟨heap₁, hok₁, hrest⟩ := bind_eq_ok hok
      rw [List.length_cons] at hroom
      obtain ⟨objects₁, h₁, hmapped₁, hcursor, hsizes₁⟩ :=
        initCache_holds h hmapped (by linarith) hok₁
      obtain ⟨objects', nodes', h', hmapped', hsizes', hnodes'⟩ :=
        ih h₁ hmapped₁ (by linarith) hrest
      refine ⟨objects', nodes', h', hmapped', fun j hj => hsizes' j ?_, fun j hj => ?_⟩
      · rw [hsizes₁ j]
        by_cases hji : j = i
        · exact .inr (by rw [if_pos hji, hji])
        · rw [if_neg hji]
          exact hj.imp_left fun hmem => (List.mem_cons.mp hmem).resolve_left hji
      · obtain ⟨hji, hjl⟩ := not_or.mp fun hor => hj (List.mem_cons.mpr hor)
        rw [hnodes' j hjl, Function.update_of_ne hji]

/-- Before `heap_init` there is no object. -/
theorem boot_holds {s s₀ : Vmm} (hinit : vmmInit s = .ok s₀) (mem : UInt32 → UInt8) :
    HeapHolds (Heap.boot s₀ mem) (fun _ => none) (fun _ => []) ∧ HeapMapped (Heap.boot s₀ mem) := by
  have hcursor : (Heap.boot s₀ mem).cursor.toNat = 0xD0000000 := rfl
  constructor
  · refine ⟨⟨Placed.empty _ _, le_rfl, ?_, ?_, ?_⟩, ?_, ?_⟩
    · rw [hcursor]
      decide
    · exact fun p t hp => absurd hp.symm (Option.some_ne_none t)
    · exact fun p t hp => absurd hp.symm (Option.some_ne_none t)
    · exact fun i => ⟨rfl, fun n hn => absurd hn List.not_mem_nil⟩
    · rw [hcursor]
  · refine ⟨_, represents_start hinit, fun vaddr hle hlt => ?_⟩
    rw [UInt32.le_iff_toNat_le] at hle
    rw [UInt32.lt_iff_toNat_lt] at hlt
    exact absurd hlt (Nat.not_lt.mpr hle)

/-- After `vmm_init` and `heap_init`; the objects of the first cache are in descending order. -/
theorem clientHolds_start {s s₀ : Vmm} {heap : Heap} (hinit : vmmInit s = .ok s₀)
    (hheap : heapInit (Heap.boot s₀ mem) = .ok heap) :
    ∃ objects nodes, ClientHolds (HeapClient.start heap) objects nodes ∧
      nodes firstSlab = extension HEAP_VIRT_BASE firstSlab := by
  have hcursor : (Heap.boot s₀ mem).cursor.toNat = 0xD0000000 := rfl
  obtain ⟨hobj, hmapped⟩ := boot_holds hinit mem
  unfold heapInit at hheap
  rw [finRange_slabs, List.foldlM_cons] at hheap
  obtain ⟨heap₁, hfirst, hrest⟩ := bind_eq_ok hheap
  obtain ⟨objects₁, h₁, hmapped₁, hcursor₁, hsizes₁⟩ :=
    initCache_holds hobj hmapped (by rw [hcursor]; decide) hfirst
  obtain ⟨objects, nodes, h, hmapped', hsized, hnodes⟩ := initCaches_holds h₁ hmapped₁
    (by rw [hcursor₁, hcursor, laterSlabs_length]; decide) hrest
  refine ⟨objects, nodes, ⟨h, fun j => hsized j ?_, hmapped', fun b hb => absurd hb
    List.not_mem_nil, List.nodup_nil⟩, ?_⟩
  · rcases List.mem_cons.mp (finRange_slabs ▸ List.mem_finRange j) with rfl | hmem
    · exact .inr ((hsizes₁ firstSlab).trans (if_pos rfl))
    · exact .inl hmem
  · rw [hnodes firstSlab firstSlab_notMem, Function.update_self, List.append_nil]
    rfl

end

/-! ### Runs -/

section
variable {objects : UInt32 → Option Tag} {nodes : Fin NUM_SLABS → List UInt32} {c c' : HeapClient}

theorem ptr_ne_of_mem_eraseP {l : List Block} {ptr : UInt32} (hnodup : (l.map Block.ptr).Nodup)
    {b : Block} (hb : b ∈ l.eraseP fun b => b.ptr = ptr) : b.ptr ≠ ptr := by
  induction l with
  | nil => exact absurd hb List.not_mem_nil
  | cons b' l ih =>
      obtain ⟨hnot, hnodup'⟩ := List.nodup_cons.mp hnodup
      by_cases hptr : b'.ptr = ptr
      · rw [List.eraseP_cons_of_pos (by simpa using hptr)] at hb
        rintro rfl
        exact hnot (hptr ▸ List.mem_map_of_mem hb)
      · rw [List.eraseP_cons_of_neg (by simpa using hptr)] at hb
        rcases List.mem_cons.mp hb with rfl | hb
        · exact hptr
        · exact ih hnodup' hb

theorem ClientHolds.add (h : ClientHolds c objects nodes) {objects' : UInt32 → Option Tag}
    {nodes' : Fin NUM_SLABS → List UInt32} {heap : Heap} {ptr size : UInt32} {t : Tag}
    (h' : HeapHolds heap objects' nodes') (hsized : heap.Sized) (hmapped : HeapMapped heap)
    (ht : objects' ptr = some t) (hsize : t.size? = some size)
    (hkeep : ∀ q u, objects q = some u → u.size?.isSome → q ≠ ptr ∧ objects' q = some u) :
    ClientHolds ⟨heap, ⟨ptr, size⟩ :: c.live⟩ objects' nodes' := by
  have hold : ∀ b ∈ c.live, b.ptr ≠ ptr ∧ ∃ u, objects' b.ptr = some u ∧
      u.size? = some b.size := by
    intro b hb
    obtain ⟨u, hu, hus⟩ := h.live b hb
    obtain ⟨hbp, hu'⟩ := hkeep b.ptr u hu (hus ▸ rfl)
    exact ⟨hbp, u, hu', hus⟩
  refine ⟨h', hsized, hmapped, fun b hb => ?_, ?_⟩
  · rcases List.mem_cons.mp hb with rfl | hb
    · exact ⟨t, ht, hsize⟩
    · exact (hold b hb).2
  · refine List.nodup_cons.mpr ⟨fun hmem => ?_, h.nodup⟩
    obtain ⟨b, hb, heq⟩ := List.mem_map.mp hmem
    exact (hold b hb).1 heq

theorem ClientHolds.malloc (h : ClientHolds c objects nodes) {size ptr : UInt32} {heap : Heap}
    (hround : RoundsBelow size) (hok : kMalloc c.heap size = .ok (ptr, heap))
    (hle : c.heap.cursor ≤ heap.cursor) :
    ∃ objects' nodes',
      ClientHolds ⟨heap, if ptr = 0 then c.live else ⟨ptr, size⟩ :: c.live⟩ objects' nodes' := by
  have hmapped := h.mapped.grow (kMalloc_grows hok) h.holds.cursor_page hle
  by_cases hpos : size = 0
  · obtain ⟨_, rfl, rfl⟩ := (kMalloc_cases hok).resolve_right (by simp [hpos])
    exact ⟨objects, nodes, h.holds, h.sized, hmapped, h.live, h.nodup⟩
  · obtain ⟨objects', nodes', t, h', hsized, hptr, hsize, hkeep⟩ :=
      h.holds.kMalloc h.sized hround hpos hok hle
    rw [if_neg (h'.obj.ne_zero hptr)]
    exact ⟨objects', nodes', h.add h' hsized hmapped hptr hsize hkeep⟩

theorem ClientHolds.free (h : ClientHolds c objects nodes) {b : Block} (hb : b ∈ c.live) :
    ∃ objects' nodes',
      ClientHolds ⟨kFree c.heap b.ptr, c.live.eraseP fun b' => b'.ptr = b.ptr⟩
        objects' nodes' := by
  obtain ⟨t, ht, hsize⟩ := h.live b hb
  obtain ⟨new, nodes', h', hsized, _⟩ := h.holds.kFree h.sized ht (hsize ▸ rfl)
  obtain ⟨hvmm, hcursor⟩ := kFree_same c.heap b.ptr
  refine ⟨_, nodes', h', hsized, ?_, fun b' hb' => ?_, ?_⟩
  · exact h.mapped.grow (.same hvmm hcursor) h.holds.cursor_page (hcursor ▸ UInt32.le_refl _)
  · have hne := ptr_ne_of_mem_eraseP h.nodup hb'
    rw [Function.update_of_ne hne]
    exact h.live b' (List.mem_of_mem_eraseP hb')
  · exact h.nodup.sublist (List.eraseP_sublist.map _)

theorem HeapClient.step_malloc {size : UInt32} (hstep : c.step (.malloc size) = some c') :
    ∃ ptr heap, kMalloc c.heap size = .ok (ptr, heap) ∧
      c' = ⟨heap, if ptr = 0 then c.live else ⟨ptr, size⟩ :: c.live⟩ := by
  unfold HeapClient.step at hstep
  dsimp only at hstep
  split at hstep
  · rename_i ptr heap hok
    exact ⟨ptr, heap, hok, (Option.some.inj hstep).symm⟩
  · cases hstep

theorem HeapClient.step_free {ptr : UInt32} (hstep : c.step (.free ptr) = some c') :
    ∃ b ∈ c.live, b.ptr = ptr ∧ c' = ⟨kFree c.heap ptr, c.live.eraseP fun b => b.ptr = ptr⟩ := by
  unfold HeapClient.step at hstep
  dsimp only at hstep
  split_ifs at hstep with hheld
  obtain ⟨b, hb, hptr⟩ := hheld
  exact ⟨b, hb, hptr, (Option.some.inj hstep).symm⟩

theorem HeapClient.step_write {ptr off : UInt32} {value : UInt8}
    (hstep : c.step (.write ptr off value) = some c') :
    ∃ b ∈ c.live, b.ptr = ptr ∧ off < b.size ∧
      c' = { c with heap :=
        { c.heap with mem := Function.update c.heap.mem (ptr + off) value } } := by
  unfold HeapClient.step at hstep
  dsimp only at hstep
  split_ifs at hstep with hheld
  obtain ⟨b, hb, hptr, hoff⟩ := hheld
  exact ⟨b, hb, hptr, hoff, (Option.some.inj hstep).symm⟩

theorem ClientHolds.step (h : ClientHolds c objects nodes) {op : HeapOp} (hfits : c.Fits op)
    (hstep : c.step op = some c') : ∃ objects' nodes', ClientHolds c' objects' nodes' := by
  cases op with
  | malloc size =>
      obtain ⟨hround, hcursor⟩ := hfits
      obtain ⟨ptr, heap, hok, rfl⟩ := HeapClient.step_malloc hstep
      exact h.malloc hround hok (hcursor ptr heap hok)
  | free ptr =>
      obtain ⟨b, hb, rfl, rfl⟩ := HeapClient.step_free hstep
      exact h.free hb
  | write ptr off value =>
      obtain ⟨b, hb, rfl, hoff, rfl⟩ := HeapClient.step_write hstep
      obtain ⟨t, ht, hsize⟩ := h.live b hb
      exact ⟨objects, nodes, h.holds.write ht hsize hoff value, h.sized, h.mapped, h.live, h.nodup⟩

/-- **Every state of a run whose requests fit** is made of objects. -/
theorem clientHolds_run {s s₀ : Vmm} {mem : UInt32 → UInt8} {heap : Heap} (hinit : vmmInit s = .ok s₀)
    (hheap : heapInit (Heap.boot s₀ mem) = .ok heap) {ops : List HeapOp}
    (hfits : Runs.EachStep HeapClient.step HeapClient.Fits (HeapClient.start heap) ops)
    (hrun : Runs.haltingRun HeapClient.step (HeapClient.start heap) ops = some c) :
    ∃ objects nodes, ClientHolds c objects nodes := by
  have hstart : ∃ objects nodes, ClientHolds (HeapClient.start heap) objects nodes := by
    obtain ⟨objects, nodes, h, _⟩ := clientHolds_start hinit hheap
    exact ⟨objects, nodes, h⟩
  refine Runs.haltingRun_invariant_each (fun c => ∃ objects nodes, ClientHolds c objects nodes)
    ?_ hstart hfits hrun
  rintro c op c' ⟨objects, nodes, h⟩ hfits hstep
  exact h.step hfits hstep

theorem ClientHolds.blocksSafe (h : ClientHolds c objects nodes) : BlocksSafe c where
  disjoint := by
    refine (List.pairwise_map.mp h.nodup).imp_of_mem fun {b b'} hb hb' hne => ?_
    obtain ⟨t, ht, hsize⟩ := h.live b hb
    obtain ⟨t', ht', hsize'⟩ := h.live b' hb'
    exact (h.holds.obj.apart hne ht ht').sub (h.holds.obj.payload_sub ht hsize).1
      (h.holds.obj.payload_sub ht' hsize').1
  aligned b hb := by
    obtain ⟨t, ht, _⟩ := h.live b hb
    exact h.holds.obj.aligned b.ptr t ht
  off_lists i := by
    obtain ⟨hchain, hfree⟩ := h.holds.lists i
    refine ⟨nodes i, hchain, fun n hn b hb => ?_⟩
    obtain ⟨t, ht, hsize⟩ := h.live b hb
    have hne := (ne_of_free (hfree n hn) ht (hsize ▸ rfl)).symm
    rw [h.sized i]
    exact (h.holds.obj.apart hne ht (hfree n hn)).sub (h.holds.obj.payload_sub ht hsize).1 (.refl _)
  within b hb := by
    obtain ⟨t, ht, hsize⟩ := h.live b hb
    exact ⟨(h.holds.obj.lt_top ht).1,
      (h.holds.obj.payload_sub ht hsize).1.2.trans (h.holds.obj.bounds ht).2⟩
  mapped _ hle hlt := h.mapped.pageMapped hle hlt

/-- `luna_memset` clears the whole object, of which the request is a part. -/
theorem zeroes_of_sized {heap : Heap} (hsized : heap.Sized) : Zeroes heap := by
  intro size ptr heap' hle hok j hj
  have hpos : size ≠ 0 := by
    rintro rfl
    exact absurd hj (Nat.not_lt_zero j)
  rcases kMalloc_cases hok with
    ⟨hzero, _⟩ | ⟨_, i, mid, hfind, hmid, rfl, rfl⟩ | ⟨_, hfind, _⟩
  · exact absurd hzero hpos
  · have hsize : (mid.caches i).objSize = slabSize i := by
      rcases refill_cases hmid with ⟨_, hext⟩ | ⟨_, rfl⟩
      · obtain ⟨⟨vmm, cursor⟩, _, hret⟩ := bind_eq_ok hext
        obtain rfl := Except.ok.inj hret
        dsimp only
        rw [Function.update_self]
        exact hsized i
      · exact hsized i
    have hfit := UInt32.le_iff_toNat_le.mp (findCache_eq_some hsized hfind)
    unfold popObject
    dsimp only
    rw [hsize]
    exact fill_apply mid.mem 0 (by omega)
  · have hlarge := findCache_eq_none hsized hfind
    rw [UInt32.le_iff_toNat_le] at hle
    exact absurd hlarge (Nat.not_lt.mpr hle)

/-! ### A run of two requests -/

theorem slabNodes_succ (obj : UInt32) (n : ℕ) (ptr : UInt32) :
    slabNodes obj (n + 1) ptr = (ptr + UInt32.ofNat n * obj) :: slabNodes obj n ptr := by
  induction n generalizing ptr with
  | zero =>
      show [ptr] = [ptr + 0 * obj]
      rw [UInt32.zero_mul, UInt32.add_zero]
  | succ n ih =>
      have haddr : ptr + obj + UInt32.ofNat n * obj = ptr + UInt32.ofNat (n + 1) * obj := by
        rw [UInt32.ofNat_add, UInt32.add_mul, UInt32.add_assoc, UInt32.add_comm obj]
        congr 2
        exact (UInt32.one_mul obj).symm
      show slabNodes obj (n + 1) (ptr + obj) ++ [ptr] = _
      rw [ih, haddr]
      rfl

theorem ClientHolds.malloc_small (h : ClientHolds c objects nodes) {i : Fin NUM_SLABS}
    {n size : UInt32} {rest : List UInt32} (hpos : size ≠ 0) (hsmall : size ≤ 1024)
    (hfind : findCache c.heap size = some i) (hnodes : nodes i = n :: rest) :
    ∃ c' objects', c.step (.malloc size) = some c' ∧ c.Fits (.malloc size) ∧
      ClientHolds c' objects' (Function.update nodes i rest) ∧ c'.live = ⟨n, size⟩ :: c.live := by
  have hchain := (h.holds.lists i).1
  rw [hnodes] at hchain
  have hhead : (c.heap.caches i).freeList = n := hchain.1
  have hne : (c.heap.caches i).freeList ≠ 0 := hhead ▸ hchain.2.1
  have hok : kMalloc c.heap size = .ok (n, (popObject c.heap i).2) := by
    unfold kMalloc refill
    rw [if_neg hpos, hfind]
    dsimp only
    rw [if_neg hne, ← hhead]
    rfl
  have hpos' : 0 < size.toNat := Nat.pos_of_ne_zero fun h0 => hpos (UInt32.toNat_inj.mp h0)
  obtain ⟨rest', hrest, hfree, hpop⟩ := h.holds.popObject (h.sized i) hne hpos'
    (findCache_eq_some h.sized hfind)
  rw [hhead] at hrest hfree hpop
  obtain rfl : rest' = rest := (List.cons.inj (hrest.symm.trans hnodes)).2
  refine ⟨⟨(popObject c.heap i).2, ⟨n, size⟩ :: c.live⟩,
    Function.update objects n (some (.small i size)), ?_, ⟨?_, ?_⟩, ?_, rfl⟩
  · unfold HeapClient.step
    dsimp only
    rw [hok]
    dsimp only
    rw [if_neg hchain.2.1]
  · have hle := UInt32.le_iff_toNat_le.mp hsmall
    have hmax : (1024 : UInt32).toNat = 1024 := rfl
    unfold RoundsBelow
    omega
  · intro ptr heap hok'
    rw [hok] at hok'
    obtain ⟨_, rfl⟩ := Prod.mk.inj (Except.ok.inj hok')
    exact UInt32.le_refl _
  · refine h.add hpop (popObject_sized h.sized) (h.mapped.grow (.same rfl rfl) h.holds.cursor_page
      (UInt32.le_refl _)) (Function.update_self ..) rfl fun q u hu hlive => ?_
    have hqn := (ne_of_free hfree hu hlive).symm
    exact ⟨hqn, (Function.update_of_ne hqn _ _).trans hu⟩

end

/-- Two blocks of eight bytes, the second right below the first. -/
def twoBlocks : List HeapOp := [.malloc 8, .malloc 8]

/-- The two blocks come off the list of the first cache; the other lists stay as they are. -/
theorem twoBlocks_from {heap : Heap} {objects : UInt32 → Option Tag}
    {nodes : Fin NUM_SLABS → List UInt32} (h : ClientHolds (HeapClient.start heap) objects nodes)
    (hnodes : nodes firstSlab = extension HEAP_VIRT_BASE firstSlab) :
    ∃ c objects', Runs.EachStep HeapClient.step HeapClient.Fits (HeapClient.start heap) twoBlocks ∧
      Runs.haltingRun HeapClient.step (HeapClient.start heap) twoBlocks = some c ∧
      ClientHolds c objects' (Function.update nodes firstSlab (slabNodes 8 2046 HEAP_VIRT_BASE)) ∧
      c.live = [⟨0xD0003FF0, 8⟩, ⟨0xD0003FF8, 8⟩] := by
  have hlist : nodes firstSlab =
      0xD0003FF8 :: 0xD0003FF0 :: slabNodes 8 2046 HEAP_VIRT_BASE := by
    rw [hnodes]
    show slabNodes 8 (2046 + 1 + 1) HEAP_VIRT_BASE = _
    rw [slabNodes_succ, slabNodes_succ]
    rfl
  have hfind : ∀ heap : Heap, heap.Sized → findCache heap 8 = some firstSlab := by
    intro heap hsized
    refine findFirst (decide_eq_true ?_)
    rw [hsized firstSlab]
    decide
  obtain ⟨c₁, objects₁, hstep₁, hfits₁, h₁, hlive₁⟩ :=
    h.malloc_small (by decide) (by decide) (hfind _ h.sized) hlist
  obtain ⟨c₂, objects₂, hstep₂, hfits₂, h₂, hlive₂⟩ :=
    h₁.malloc_small (by decide) (by decide) (hfind _ h₁.sized) (Function.update_self ..)
  rw [Function.update_idem] at h₂
  refine ⟨c₂, objects₂, fun c hc => ?_, ?_, h₂, ?_⟩
  · obtain rfl := Option.some.inj (hstep₁.symm.trans hc)
    exact ⟨hfits₁, fun c' _ => ⟨hfits₂, trivial⟩⟩
  · exact Runs.haltingRun_cons.mpr ⟨c₁, hstep₁, Runs.haltingRun_cons.mpr ⟨c₂, hstep₂, rfl⟩⟩
  · rw [hlive₂, hlive₁]
    rfl

theorem twoBlocks_run (mem : UInt32 → UInt8) :
    ∃ s₀ heap c objects nodes, vmmInit (bootVmm smallKernel roomyMap (fun _ => 0) 0) = .ok s₀ ∧
      heapInit (Heap.boot s₀ mem) = .ok heap ∧
      Runs.EachStep HeapClient.step HeapClient.Fits (HeapClient.start heap) twoBlocks ∧
      Runs.haltingRun HeapClient.step (HeapClient.start heap) twoBlocks = some c ∧
      ClientHolds c objects nodes ∧ c.live = [⟨0xD0003FF0, 8⟩, ⟨0xD0003FF8, 8⟩] := by
  obtain ⟨s₀, heap, hinit, hheap⟩ := heapInit_returns_roomyMap mem
  obtain ⟨objects, nodes, h, hnodes⟩ := clientHolds_start hinit hheap
  obtain ⟨c, objects', hfits, hrun, h', hlive⟩ := twoBlocks_from h hnodes
  exact ⟨s₀, heap, c, objects', _, hinit, hheap, hfits, hrun, h', hlive⟩

end LunaOs
