import LunaOs.HeapObjects

/-! # What the calls of the allocator do to the objects

One theorem for each function of `heap.c`.  Every block that is freed while the word below it is not
the magic number lands on the list of the smallest cache, whatever cache it came from: all pointers
are multiples of 8. -/

namespace LunaOs

open ByteMem Extents FreeList

/-- The first nodes of the free lists. -/
def heads (caches : Fin NUM_SLABS → SlabCache) : Fin NUM_SLABS → UInt32 :=
  fun i => (caches i).freeList

theorem heads_update (caches : Fin NUM_SLABS → SlabCache) (i : Fin NUM_SLABS) (c : SlabCache) :
    heads (Function.update caches i c) = Function.update (heads caches) i c.freeList := by
  funext j
  unfold heads
  by_cases hj : j = i
  · rw [hj, Function.update_self, Function.update_self]
  · rw [Function.update_of_ne hj, Function.update_of_ne hj]

theorem objSize_update {caches : Fin NUM_SLABS → SlabCache} {i : Fin NUM_SLABS} {c : SlabCache}
    (hc : c.objSize = (caches i).objSize) (j : Fin NUM_SLABS) :
    (Function.update caches i c j).objSize = (caches j).objSize := by
  by_cases hj : j = i
  · rw [hj, Function.update_self, hc]
  · rw [Function.update_of_ne hj]

/-- The memory and the free lists of `h` are those of the objects. -/
structure HeapHolds (h : Heap) (objects : UInt32 → Option Tag)
    (nodes : Fin NUM_SLABS → List UInt32) : Prop where
  obj : Objects h.mem objects h.cursor.toNat
  lists : Lists h.mem (heads h.caches) objects nodes
  cursor_page : h.cursor.toNat % 4096 = 0

/-- `heap_init` has been through all caches. -/
def Heap.Sized (h : Heap) : Prop := ∀ i, (h.caches i).objSize = slabSize i

/-- The size of the header and the request, rounded up to pages, is below 4 GB. -/
def RoundsBelow (size : UInt32) : Prop := (size.toNat + 8 + 4095) / 4096 * 4096 < 2 ^ 32

variable {heap heap' : Heap} {objects : UInt32 → Option Tag}
  {nodes : Fin NUM_SLABS → List UInt32} {i : Fin NUM_SLABS} {p size : UInt32} {t : Tag}

/-! ### `k_malloc` -/

theorem slabNodes_ne_nil (obj ptr : UInt32) {n : ℕ} (hn : n ≠ 0) : slabNodes obj n ptr ≠ [] := by
  obtain ⟨m, rfl⟩ := Nat.exists_eq_succ_of_ne_zero hn
  exact List.append_ne_nil_of_right_ne_nil _ (List.cons_ne_nil _ _)

/-- The nodes of an extension. -/
def extension (cursor : UInt32) (i : Fin NUM_SLABS) : List UInt32 :=
  slabNodes (slabSize i) (16384 / (slabSize i).toNat) cursor

/-- **`extendSlab`** puts four pages of new objects onto the list. -/
theorem HeapHolds.extendSlab (h : HeapHolds heap objects nodes)
    (hsize : (heap.caches i).objSize = slabSize i) (hok : extendSlab heap i = .ok heap')
    (hle : heap.cursor ≤ heap'.cursor) :
    ∃ objects', HeapHolds heap' objects'
        (Function.update nodes i (extension heap.cursor i ++ nodes i)) ∧
      (∀ q u, objects q = some u → objects' q = some u) ∧
      (∀ j, (heap'.caches j).objSize = (heap.caches j).objSize) := by
  obtain ⟨⟨vmm, cursor⟩, hpages, hret⟩ := bind_eq_ok hok
  obtain rfl := Except.ok.inj hret
  have hcursor : cursor.toNat = heap.cursor.toNat + 4 * 4096 :=
    toNat_cursor hpages (by decide) hle
  have hlt := cursor.toNat_lt
  have hpage := h.cursor_page
  have hcount : (SLAB_PAGES * PAGE_SIZE / (heap.caches i).objSize).toNat =
      16384 / (slabSize i).toNat := by
    rw [hsize, UInt32.toNat_div]
    rfl
  have hall := (slabSize_bounds i).2.2.2
  obtain ⟨objects', hobj, hlists, hold⟩ := threadObjects_holds (i := i)
    (16384 / (slabSize i).toNat) h.obj h.lists (by omega) (by omega)
  refine ⟨objects', ⟨?_, ?_, ?_⟩, hold, objSize_update rfl⟩
  · dsimp only
    rw [hcount, hsize, hcursor]
    rw [hall] at hobj
    exact hobj
  · dsimp only
    rw [hcount, hsize, heads_update]
    exact hlists
  · dsimp only
    omega

/-- **`popObject`** takes the first object of the list for a block. -/
theorem HeapHolds.popObject (h : HeapHolds heap objects nodes)
    (hsize : (heap.caches i).objSize = slabSize i) (hne : (heap.caches i).freeList ≠ 0)
    (hpos : 0 < size.toNat) (hfit : size ≤ slabSize i) :
    ∃ rest, nodes i = (heap.caches i).freeList :: rest ∧
      objects (heap.caches i).freeList = some (.free i) ∧
      HeapHolds (popObject heap i).2
        (Function.update objects (heap.caches i).freeList (some (.small i size)))
        (Function.update nodes i rest) := by
  obtain ⟨rest, hnodes, hfree⟩ := h.lists.exists_cons hne
  set p := (heap.caches i).freeList with hp
  refine ⟨rest, hnodes, hfree, ?_⟩
  have hbounds := h.obj.bounds hfree
  have hlt := h.obj.top_lt
  have hagree : AgreeOutside (Tag.span p (.free i)) heap.mem
      (fill heap.mem p (heap.caches i).objSize 0) := by
    rw [hsize]
    refine fill_agree heap.mem 0 ?_
    have hend : p.toNat + (slabSize i).toNat ≤ heap.cursor.toNat := hbounds.2
    omega
  have hsmall : ∀ mem u, some (Tag.small i size) = some u →
      u.Valid mem p ∧ (u.span p).Sub (Tag.span p (.free i)) := by
    rintro mem u hu
    obtain rfl := Option.some.inj hu
    exact ⟨⟨hpos, hfit⟩, .refl _⟩
  have hobj := h.obj.retag hfree (fun _ _ => rfl) (some (.small i size)) (hsmall heap.mem)
  have hlists := (h.lists.pop hnodes (some (.small i size))).of_not_free hobj
    (Function.update_self ..) rfl hagree (some (.small i size))
  rw [Function.update_idem] at hlists
  constructor
  case obj => exact h.obj.retag hfree hagree _ (hsmall _)
  case lists =>
    unfold LunaOs.popObject
    dsimp only
    rw [heads_update]
    exact hlists
  case cursor_page => exact h.cursor_page

theorem largePages_toNat (hround : RoundsBelow size) :
    ((size + LARGE_HDR_SIZE + PAGE_SIZE - 1) / PAGE_SIZE).toNat =
      (size.toNat + 8 + 4095) / 4096 := by
  unfold RoundsBelow at hround
  have hsub : (size + LARGE_HDR_SIZE + PAGE_SIZE - 1).toNat = size.toNat + 8 + 4095 := by
    have hhdr : LARGE_HDR_SIZE.toNat = 8 := rfl
    have hpage : PAGE_SIZE.toNat = 4096 := rfl
    have hone : (1 : UInt32).toNat = 1 := rfl
    have hsize := size.toNat_lt
    rw [UInt32.toNat_sub, UInt32.toNat_add, UInt32.toNat_add, hhdr, hpage, hone]
    omega
  rw [UInt32.toNat_div, hsub]
  rfl

theorem storeHeader (mem : UInt32 → UInt8) (base w : UInt32) {len : ℕ} (hlen : 8 ≤ len)
    (hend : base.toNat + len ≤ 2 ^ 32) :
    AgreeOutside ⟨base.toNat, len⟩ mem (store32 (store32 mem base LARGE_MAGIC) (base + 4) w) ∧
      load32 (store32 (store32 mem base LARGE_MAGIC) (base + 4) w) base = LARGE_MAGIC := by
  have hsecond : (base + 4).toNat = base.toNat + 4 := toNat_add_of_lt (j := 4) (by omega)
  have hagree₁ := store32_agree mem LARGE_MAGIC (a := base) (by omega)
  have hagree₂ := store32_agree (store32 mem base LARGE_MAGIC) w (a := base + 4) (by omega)
  rw [hsecond] at hagree₂
  constructor
  · refine AgreeOutside.trans (hagree₁.mono ⟨le_rfl, ?_⟩) (hagree₂.mono ⟨Nat.le_add_right _ _, ?_⟩)
    · show base.toNat + 4 ≤ base.toNat + len
      omega
    · show base.toNat + 4 + 4 ≤ base.toNat + len
      omega
  · rw [hagree₂.load32_eq (by omega) (.inl le_rfl)]
    exact load32_store32 ..

/-- **`allocLarge`** places the block behind everything else. -/
theorem HeapHolds.allocLarge (h : HeapHolds heap objects nodes) (hround : RoundsBelow size)
    (hlarge : 1024 < size.toNat) (hok : allocLarge heap size = .ok (p, heap'))
    (hle : heap.cursor ≤ heap'.cursor) :
    ∃ pages, heap.cursor.toNat < p.toNat ∧
      HeapHolds heap' (Function.update objects p (some (.large pages size))) nodes ∧
      heap'.caches = heap.caches := by
  obtain ⟨⟨vmm, cursor⟩, hpages, hret⟩ := bind_eq_ok hok
  obtain ⟨rfl, rfl⟩ := Prod.mk.inj (Except.ok.inj hret)
  rw [largePages_toNat hround] at hpages
  unfold RoundsBelow at hround
  set pages := (size.toNat + 8 + 4095) / 4096 with hpagesDef
  have hcursor : cursor.toNat = heap.cursor.toNat + pages * 4096 :=
    toNat_cursor hpages hround hle
  have hlt := cursor.toNat_lt
  have hroom : size.toNat + 8 ≤ pages * 4096 := by omega
  have hpage := h.cursor_page
  have hp : (heap.cursor + LARGE_HDR_SIZE).toNat = heap.cursor.toNat + 8 :=
    toNat_add_of_lt (j := 8) (by omega)
  have hspan : Tag.span (heap.cursor + LARGE_HDR_SIZE) (.large pages size) =
      ⟨heap.cursor.toNat, pages * 4096⟩ := by
    unfold Tag.span
    dsimp only
    rw [hp, Nat.add_sub_cancel]
  have hlen : 8 ≤ pages * 4096 := by omega
  obtain ⟨hagree, hmagic⟩ := storeHeader heap.mem heap.cursor
    ((size + LARGE_HDR_SIZE + PAGE_SIZE - 1) / PAGE_SIZE * PAGE_SIZE) hlen (by omega)
  rw [← hspan] at hagree
  have hvalid : (Tag.large pages size).Valid
      (store32 (store32 heap.mem heap.cursor LARGE_MAGIC) (heap.cursor + 4)
        ((size + LARGE_HDR_SIZE + PAGE_SIZE - 1) / PAGE_SIZE * PAGE_SIZE))
      (heap.cursor + LARGE_HDR_SIZE) := by
    refine ⟨hlarge, hroom, ?_⟩
    rw [UInt32.add_sub_cancel]
    exact hmagic
  refine ⟨pages, by omega, ⟨?_, ?_, ?_⟩, rfl⟩
  · refine h.obj.place ?_ ?_ hlt (by omega) hvalid hagree
    · rw [hspan]
    · rw [hspan]
      exact hcursor.ge
  · refine h.lists.congr fun n j hn => ?_
    have hbounds := (h.obj.bounds hn).2
    have hne : n ≠ heap.cursor + LARGE_HDR_SIZE := by
      rintro rfl
      have hlt' := (h.obj.lt_top hn).2
      omega
    refine ⟨h.obj.guard_eq hagree hn (.inl ?_) rfl, (Function.update_of_ne hne _ _).trans hn⟩
    rw [hspan]
    exact hbounds
  · dsimp only
    omega

theorem popObject_sized (hsized : heap.Sized) : (popObject heap i).2.Sized := by
  intro j
  unfold LunaOs.popObject
  refine (objSize_update ?_ j).trans (hsized j)
  rfl

theorem findCache_eq_some (hsized : heap.Sized) (h : findCache heap size = some i) :
    size ≤ slabSize i := by
  have hfit := List.find?_some h
  rw [hsized i] at hfit
  exact of_decide_eq_true hfit

theorem findCache_eq_none (hsized : heap.Sized) (h : findCache heap size = none) :
    1024 < size.toNat := by
  have hnone := List.find?_eq_none.mp h ⟨7, by decide⟩ (List.mem_finRange _)
  rw [decide_eq_true_eq, hsized, UInt32.le_iff_toNat_le] at hnone
  exact Nat.lt_of_not_le hnone

/-- What `k_malloc` does when it returns: nothing, or it takes an object off the list of a cache, or it
takes pages. -/
theorem kMalloc_cases (hok : kMalloc heap size = .ok (p, heap')) :
    (size = 0 ∧ p = 0 ∧ heap' = heap) ∨
    (size ≠ 0 ∧ ∃ i mid, findCache heap size = some i ∧ refill heap i = .ok mid ∧
      p = (mid.caches i).freeList ∧ heap' = (popObject mid i).2) ∨
    (size ≠ 0 ∧ findCache heap size = none ∧ allocLarge heap size = .ok (p, heap')) := by
  unfold kMalloc at hok
  split_ifs at hok with hzero
  · obtain ⟨rfl, rfl⟩ := Prod.mk.inj (Except.ok.inj hok)
    exact .inl ⟨hzero, rfl, rfl⟩
  · cases hfind : findCache heap size with
    | some i =>
        rw [hfind] at hok
        obtain ⟨mid, hmid, hret⟩ := bind_eq_ok hok
        obtain ⟨rfl, rfl⟩ := Prod.mk.inj (Except.ok.inj hret)
        exact .inr (.inl ⟨hzero, i, mid, rfl, hmid, rfl, rfl⟩)
    | none =>
        rw [hfind] at hok
        exact .inr (.inr ⟨hzero, rfl, hok⟩)

theorem refill_cases (hok : refill heap i = .ok heap') :
    ((heap.caches i).freeList = 0 ∧ extendSlab heap i = .ok heap') ∨
      ((heap.caches i).freeList ≠ 0 ∧ heap' = heap) := by
  unfold refill at hok
  split_ifs at hok with hnull
  · exact .inl ⟨hnull, hok⟩
  · exact .inr ⟨hnull, (Except.ok.inj hok).symm⟩

theorem extension_ne_nil (cursor : UInt32) (i : Fin NUM_SLABS) : extension cursor i ≠ [] := by
  refine slabNodes_ne_nil _ _ fun h0 => ?_
  have hall := (slabSize_bounds i).2.2.2
  rw [h0] at hall
  omega

theorem HeapHolds.refill (h : HeapHolds heap objects nodes) (hsized : heap.Sized)
    (hok : LunaOs.refill heap i = .ok heap') (hle : heap.cursor ≤ heap'.cursor) :
    ∃ objects' nodes', HeapHolds heap' objects' nodes' ∧
      (∀ q u, objects q = some u → objects' q = some u) ∧ heap'.Sized ∧
      (heap'.caches i).freeList ≠ 0 := by
  rcases refill_cases hok with ⟨_, hext⟩ | ⟨hne, rfl⟩
  · obtain ⟨objects', h', hold, hsizes⟩ := h.extendSlab (hsized i) hext hle
    refine ⟨objects', _, h', hold, fun j => (hsizes j).trans (hsized j), fun hnull => ?_⟩
    have hchain := (h'.lists i).1
    obtain ⟨n, rest, hcons⟩ := List.exists_cons_of_ne_nil
      (List.append_ne_nil_of_left_ne_nil (extension_ne_nil heap.cursor i) (nodes i))
    rw [Function.update_self, hcons] at hchain
    exact hchain.2.1 (hchain.1.symm.trans hnull)
  · exact ⟨objects, nodes, h, fun _ _ hu => hu, hsized, hne⟩

/-! ### `k_free` -/

theorem HeapHolds.guard_eq_of_magic (h : HeapHolds heap objects nodes) (hp : objects p = some t)
    (hmagic : load32 heap.mem (p - LARGE_HDR_SIZE) = LARGE_MAGIC) {q a : UInt32} {u : Tag}
    (hqp : q ≠ p) (hq : objects q = some u) (ha : u.guard q = some a) :
    load32 (store32 heap.mem (p - LARGE_HDR_SIZE) 0) a = load32 heap.mem a := by
  obtain ⟨_, hle, haligned, _⟩ := h.obj.guard_sub hq ha
  obtain ⟨hsub, hbase⟩ := h.obj.below_toNat hp
  have hp8 := h.obj.aligned p t hp
  have hplt := p.toNat_lt
  have hne : a ≠ p - LARGE_HDR_SIZE := by
    rintro rfl
    cases u with
    | free i =>
        -- the link of a free object is a multiple of 8, and the magic number is not
        have hvalid : (load32 heap.mem q).toNat % 8 = 0 := h.obj.valid q _ hq
        rw [Option.some.inj ha, hmagic] at hvalid
        exact absurd hvalid (by decide)
    | small i size => cases ha
    | large pages size =>
        have heq : q - LARGE_HDR_SIZE = p - LARGE_HDR_SIZE := Option.some.inj ha
        exact hqp (by
          have hcancel := congrArg (· + LARGE_HDR_SIZE) heq
          simpa only [UInt32.sub_add_cancel] using hcancel)
  have hnat : a.toNat ≠ (p - LARGE_HDR_SIZE).toNat := fun heq => hne (UInt32.toNat_inj.mp heq)
  refine (store32_agree heap.mem 0 (by omega)).load32_eq hle ?_
  show a.toNat + 4 ≤ (p - LARGE_HDR_SIZE).toNat ∨ (p - LARGE_HDR_SIZE).toNat + 4 ≤ a.toNat
  omega

/-- The caches behind the first one. -/
def laterSlabs : List (Fin NUM_SLABS) := (List.finRange 7).map (Fin.succ : Fin 7 → Fin 8)

theorem finRange_slabs : List.finRange NUM_SLABS = firstSlab :: laterSlabs := List.finRange_succ

theorem firstSlab_notMem : firstSlab ∉ laterSlabs := by
  intro hmem
  obtain ⟨j, _, hj⟩ := List.mem_map.mp hmem
  exact Fin.succ_ne_zero j hj

theorem laterSlabs_length : laterSlabs.length = 7 := rfl

theorem findFirst {f : Fin NUM_SLABS → Bool} (h : f firstSlab = true) :
    (List.finRange NUM_SLABS).find? f = some firstSlab :=
  (congrArg (List.find? f) finRange_slabs).trans (List.find?_cons_of_pos h)

theorem find_alignedSlab (hsized : heap.Sized) (hp : p.toNat % 8 = 0) :
    (List.finRange NUM_SLABS).find? (fun i => decide (p % (heap.caches i).objSize = 0)) =
      some firstSlab := by
  refine findFirst (decide_eq_true ?_)
  rw [hsized firstSlab, ← UInt32.toNat_inj, UInt32.toNat_mod]
  exact hp

/-- **`k_free`** of what it takes for a large block: the object is gone. -/
theorem HeapHolds.kFree_header (h : HeapHolds heap objects nodes) (hp : objects p = some t)
    (hlive : t.size?.isSome) (hmagic : load32 heap.mem (p - LARGE_HDR_SIZE) = LARGE_MAGIC) :
    HeapHolds (kFree heap p) (Function.update objects p none) nodes ∧
      (kFree heap p).caches = heap.caches := by
  unfold LunaOs.kFree
  rw [if_neg (h.obj.ne_zero hp), if_pos hmagic]
  refine ⟨⟨?_, ?_, h.cursor_page⟩, rfl⟩
  · refine (h.obj.retag hp (fun _ _ => rfl) none fun u hu => by cases hu).congr ?_
    intro q u hu a ha
    have hqp : q ≠ p := by
      rintro rfl
      rw [Function.update_self] at hu
      cases hu
    rw [Function.update_of_ne hqp] at hu
    exact h.guard_eq_of_magic hp hmagic hqp hu ha
  · refine h.lists.congr fun n i hn => ?_
    have hnp := ne_of_free hn hp hlive
    exact ⟨h.guard_eq_of_magic hp hmagic hnp hn rfl, (Function.update_of_ne hnp _ _).trans hn⟩

/-- **`k_free`** of the others: the object becomes a free one of the smallest cache. -/
theorem HeapHolds.kFree_push (h : HeapHolds heap objects nodes) (hsized : heap.Sized)
    (hp : objects p = some t) (hlive : t.size?.isSome)
    (hmagic : load32 heap.mem (p - LARGE_HDR_SIZE) ≠ LARGE_MAGIC) :
    HeapHolds (kFree heap p) (Function.update objects p (some (.free firstSlab)))
        (Function.update nodes firstSlab (p :: nodes firstSlab)) ∧
      (kFree heap p).caches = Function.update heap.caches firstSlab
        { heap.caches firstSlab with
          freeList := p, used := (heap.caches firstSlab).used - 1 } := by
  have hne := h.obj.ne_zero hp
  unfold LunaOs.kFree
  rw [if_neg hne, if_neg hmagic, find_alignedSlab hsized (h.obj.aligned p t hp)]
  obtain ⟨i, size, rfl⟩ : ∃ i size, t = .small i size := by
    cases t with
    | free i => cases hlive
    | small i size => exact ⟨i, size, rfl⟩
    | large pages size => exact absurd (h.obj.valid p _ hp).2.2 hmagic
  have hsize := slabSize_bounds i
  have hbounds := h.obj.bounds hp
  have hlt := h.obj.top_lt
  have hend : p.toNat + (slabSize i).toNat ≤ heap.cursor.toNat := hbounds.2
  have hagree : AgreeOutside (Tag.span p (.small i size)) heap.mem
      (store32 heap.mem p (heap.caches firstSlab).freeList) := by
    refine (store32_agree heap.mem _ (by omega)).mono ⟨le_rfl, ?_⟩
    show p.toNat + 4 ≤ p.toNat + (slabSize i).toNat
    omega
  have hlink : load32 (store32 heap.mem p (heap.caches firstSlab).freeList) p =
      (heap.caches firstSlab).freeList := load32_store32 ..
  have hvalid : (Tag.free firstSlab).Valid
      (store32 heap.mem p (heap.caches firstSlab).freeList) p := by
    show (load32 _ p).toNat % 8 = 0
    rw [hlink]
    exact h.lists.head_mod h.obj firstSlab
  refine ⟨⟨?_, ?_, h.cursor_page⟩, rfl⟩
  · refine h.obj.retag hp hagree _ fun u hu => ?_
    obtain rfl := Option.some.inj hu
    refine ⟨hvalid, le_rfl, ?_⟩
    show p.toNat + 8 ≤ p.toNat + (slabSize i).toNat
    omega
  · dsimp only
    rw [heads_update]
    exact (h.lists.of_not_free h.obj hp rfl hagree _).push hne hlink

/-- **`k_free`** of a live block: the object is gone, or a free object of the smallest cache. -/
theorem HeapHolds.kFree (h : HeapHolds heap objects nodes) (hsized : heap.Sized)
    (hp : objects p = some t) (hlive : t.size?.isSome) :
    ∃ new nodes', HeapHolds (kFree heap p) (Function.update objects p new) nodes' ∧
      (kFree heap p).Sized ∧ ∀ u, new = some u → u.size? = none := by
  by_cases hmagic : load32 heap.mem (p - LARGE_HDR_SIZE) = LARGE_MAGIC
  · obtain ⟨h', hcaches⟩ := h.kFree_header hp hlive hmagic
    exact ⟨none, nodes, h', fun j => by rw [hcaches]; exact hsized j, fun u hu => by cases hu⟩
  · obtain ⟨h', hcaches⟩ := h.kFree_push hsized hp hlive hmagic
    refine ⟨some (.free firstSlab), _, h', fun j => ?_, fun u hu => ?_⟩
    · rw [hcaches]
      refine (objSize_update ?_ j).trans (hsized j)
      rfl
    · obtain rfl := Option.some.inj hu
      rfl

end LunaOs
