import LunaOs.HeapPages

/-! # What `k_malloc` writes and reads

It writes into pages that it has just mapped and into the free object that it hands out, and reads the
link of that object only.  So the live blocks keep their contents, and what these are makes no
difference to it. -/

namespace LunaOs

open ByteMem Extents FreeList

variable {heap heap' : Heap} {objects : UInt32 → Option Tag} {nodes : Fin NUM_SLABS → List UInt32}
  {i : Fin NUM_SLABS} {p size : UInt32}

/-! ### New pages -/

section
variable {obj ptr : UInt32}

theorem threadObjects_next {n : ℕ} (hroom : ptr.toNat + (n + 1) * obj.toNat < 2 ^ 32) :
    (ptr + obj).toNat = ptr.toNat + obj.toNat ∧ (ptr + obj).toNat + n * obj.toNat < 2 ^ 32 := by
  rw [Nat.succ_mul] at hroom
  have hnext : (ptr + obj).toNat = ptr.toNat + obj.toNat := by
    rw [UInt32.toNat_add]
    omega
  omega

theorem threadObjects_agree (n : ℕ) (mem : UInt32 → UInt8) (freeList : UInt32) (hobj : 4 ≤ obj.toNat)
    (hroom : ptr.toNat + n * obj.toNat < 2 ^ 32) :
    AgreeOutside ⟨ptr.toNat, n * obj.toNat⟩ mem (threadObjects obj n mem ptr freeList).1 := by
  induction n generalizing mem ptr freeList with
  | zero => exact fun _ _ => rfl
  | succ n ih =>
      obtain ⟨hnext, hrest⟩ := threadObjects_next hroom
      have hlast : ptr.toNat + obj.toNat + n * obj.toNat = ptr.toNat + (n + 1) * obj.toNat := by
        rw [Nat.succ_mul]
        omega
      have hstore := store32_agree mem freeList (a := ptr) (by omega)
      refine AgreeOutside.trans (hstore.mono ⟨le_rfl, ?_⟩)
        ((ih (store32 mem ptr freeList) ptr hrest).mono ⟨?_, ?_⟩)
      · show ptr.toNat + 4 ≤ ptr.toNat + (n + 1) * obj.toNat
        omega
      · show ptr.toNat ≤ (ptr + obj).toNat
        omega
      · show (ptr + obj).toNat + n * obj.toNat ≤ ptr.toNat + (n + 1) * obj.toNat
        omega

theorem threadObjects_head (n : ℕ) (mem : UInt32 → UInt8) (freeList : UInt32)
    (hroom : ptr.toNat + (n + 1) * obj.toNat < 2 ^ 32) :
    ptr ≤ (threadObjects obj (n + 1) mem ptr freeList).2 := by
  induction n generalizing mem ptr freeList with
  | zero => exact UInt32.le_refl _
  | succ n ih =>
      obtain ⟨hnext, hrest⟩ := threadObjects_next hroom
      have hle := ih (store32 mem ptr freeList) ptr hrest
      rw [UInt32.le_iff_toNat_le] at hle ⊢
      exact (Nat.le_add_right _ _).trans (hnext.ge.trans hle)

theorem threadObjects_congr (obj : UInt32) (n : ℕ) (mem mem' : UInt32 → UInt8) (ptr freeList : UInt32) :
    (threadObjects obj n mem' ptr freeList).2 = (threadObjects obj n mem ptr freeList).2 ∧
      ∀ a, mem' a = mem a →
        (threadObjects obj n mem' ptr freeList).1 a = (threadObjects obj n mem ptr freeList).1 a := by
  induction n generalizing mem mem' ptr freeList with
  | zero => exact ⟨rfl, fun _ ha => ha⟩
  | succ n ih =>
      obtain ⟨hhead, hmem⟩ :=
        ih (store32 mem ptr freeList) (store32 mem' ptr freeList) (ptr + obj) ptr
      refine ⟨hhead, fun a ha => hmem a ?_⟩
      unfold store32
      rw [ha]

end

/-- The cache after a possible extension: old memory is not written, and the list begins as before or
with a new object. -/
theorem refill_frame {mid : Heap} (hsized : heap.Sized) (hok : refill heap i = .ok mid)
    (hle : heap.cursor ≤ mid.cursor) :
    (∀ a, a < heap.cursor → mid.mem a = heap.mem a) ∧
      ((heap.caches i).freeList = 0 ∧ heap.cursor ≤ (mid.caches i).freeList ∨
        (mid.caches i).freeList = (heap.caches i).freeList) := by
  rcases refill_cases hok with ⟨hnull, hext⟩ | ⟨_, rfl⟩
  · obtain ⟨⟨vmm, cursor⟩, hpages, hret⟩ := bind_eq_ok hext
    obtain rfl := Except.ok.inj hret
    have hcursor : cursor.toNat = heap.cursor.toNat + 4 * 4096 := toNat_cursor hpages (by decide) hle
    have hlt := cursor.toNat_lt
    obtain ⟨hmin, _, _, hall⟩ := slabSize_bounds i
    have hcount : (SLAB_PAGES * PAGE_SIZE / (heap.caches i).objSize).toNat =
        16384 / (slabSize i).toNat := by
      rw [hsized i, UInt32.toNat_div]
      rfl
    obtain ⟨n, hn⟩ : ∃ n, 16384 / (slabSize i).toNat = n + 1 := by
      refine Nat.exists_eq_succ_of_ne_zero fun h0 => ?_
      rw [h0] at hall
      omega
    rw [hn] at hcount hall
    have hroom : heap.cursor.toNat + (n + 1) * (slabSize i).toNat < 2 ^ 32 := by omega
    dsimp only
    rw [hcount, hsized i, Function.update_self]
    refine ⟨fun a ha => threadObjects_agree _ heap.mem _ (by omega) hroom a ?_, .inl ⟨hnull, ?_⟩⟩
    · rw [UInt32.lt_iff_toNat_lt] at ha
      rintro ⟨h1, _⟩
      exact absurd h1 (Nat.not_le.mpr ha)
    · exact threadObjects_head n heap.mem _ hroom
  · exact ⟨fun _ _ => rfl, .inr rfl⟩

theorem refill_congr {mid : Heap} (hok : refill heap i = .ok mid) (mem : UInt32 → UInt8) :
    ∃ mem', refill { heap with mem } i = .ok { mid with mem := mem' } ∧
      ∀ a, mem a = heap.mem a → mem' a = mid.mem a := by
  rcases refill_cases hok with ⟨hnull, hext⟩ | ⟨hne, rfl⟩
  · obtain ⟨⟨vmm, cursor⟩, hpages, hret⟩ := bind_eq_ok hext
    obtain rfl := Except.ok.inj hret
    obtain ⟨hhead, hmem⟩ := threadObjects_congr (heap.caches i).objSize
      (SLAB_PAGES * PAGE_SIZE / (heap.caches i).objSize).toNat heap.mem mem heap.cursor
      (heap.caches i).freeList
    refine ⟨_, ?_, hmem⟩
    unfold refill extendSlab
    dsimp only
    rw [if_pos hnull, hpages, ← hhead]
    rfl
  · refine ⟨mem, ?_, fun _ ha => ha⟩
    unfold refill
    exact if_neg hne

/-! ### The calls -/

theorem popObject_congr {mem : UInt32 → UInt8}
    (hlink : load32 mem (heap.caches i).freeList = load32 heap.mem (heap.caches i).freeList) :
    ∃ mem', popObject { heap with mem } i =
        ((heap.caches i).freeList, { (popObject heap i).2 with mem := mem' }) ∧
      ∀ a, mem a = heap.mem a → mem' a = (popObject heap i).2.mem a := by
  refine ⟨fill mem (heap.caches i).freeList (heap.caches i).objSize 0, ?_, fun a ha => ?_⟩
  · unfold popObject
    dsimp only
    rw [hlink]
  · unfold popObject fill
    dsimp only
    rw [ha]

theorem allocLarge_congr (hok : allocLarge heap size = .ok (p, heap')) (mem : UInt32 → UInt8) :
    ∃ mem', allocLarge { heap with mem } size = .ok (p, { heap' with mem := mem' }) ∧
      ∀ a, mem a = heap.mem a → mem' a = heap'.mem a := by
  obtain ⟨⟨vmm, cursor⟩, hpages, hret⟩ := bind_eq_ok hok
  obtain ⟨rfl, rfl⟩ := Prod.mk.inj (Except.ok.inj hret)
  refine ⟨store32 (store32 mem heap.cursor LARGE_MAGIC) (heap.cursor + 4)
    ((size + LARGE_HDR_SIZE + PAGE_SIZE - 1) / PAGE_SIZE * PAGE_SIZE), ?_, fun a ha => ?_⟩
  · unfold allocLarge
    dsimp only
    rw [hpages]
    rfl
  · unfold store32
    rw [ha]

theorem allocLarge_frame (hround : RoundsBelow size) (hlarge : 1024 < size.toNat)
    (hok : allocLarge heap size = .ok (p, heap')) (hle : heap.cursor ≤ heap'.cursor) :
    (∀ a, a < heap.cursor → heap'.mem a = heap.mem a) ∧ heap.cursor ≤ p := by
  obtain ⟨⟨vmm, cursor⟩, hpages, hret⟩ := bind_eq_ok hok
  obtain ⟨rfl, rfl⟩ := Prod.mk.inj (Except.ok.inj hret)
  rw [largePages_toNat hround] at hpages
  unfold RoundsBelow at hround
  have hcursor : cursor.toNat = heap.cursor.toNat + (size.toNat + 8 + 4095) / 4096 * 4096 :=
    toNat_cursor hpages hround hle
  have hlt := cursor.toNat_lt
  have hp : (heap.cursor + LARGE_HDR_SIZE).toNat = heap.cursor.toNat + 8 :=
    toNat_add_of_lt (j := 8) (by omega)
  refine ⟨fun a ha => ?_, ?_⟩
  · rw [UInt32.lt_iff_toNat_lt] at ha
    refine (storeHeader heap.mem heap.cursor _ le_rfl (by omega)).1 a ?_
    rintro ⟨h1, _⟩
    exact absurd h1 (Nat.not_le.mpr ha)
  · rw [UInt32.le_iff_toNat_le, hp]
    exact Nat.le_add_right _ _

/-- What `k_malloc` hands out: an object with tag `t` at `p`, where there was no live block.  A small one
is the first object of its list, or lies in new pages if there was none, and is zeroed; a large one lies
in new pages. -/
structure Handed (heap heap' : Heap) (objects objects' : UInt32 → Option Tag) (p size : UInt32)
    (t : Tag) : Prop where
  tag : objects' p = some t
  size_eq : t.size? = some size
  kept : ∀ q u, objects q = some u → u.size?.isSome → q ≠ p ∧ objects' q = some u
  frame : ∀ q u, objects q = some u → u.size?.isSome →
    ∀ a : UInt32, (u.span q).Contains a.toNat → heap'.mem a = heap.mem a
  small : ∀ i s, t = .small i s → findCache heap size = some i ∧
    ((heap.caches i).freeList = 0 ∧ heap.cursor ≤ p ∨ p = (heap.caches i).freeList) ∧
    ∀ k < (slabSize i).toNat, heap'.mem (p + UInt32.ofNat k) = 0
  large : ∀ pages s, t = .large pages s → heap.cursor ≤ p

/-- **`k_malloc`** hands out an object. -/
theorem HeapHolds.kMalloc_handed (h : HeapHolds heap objects nodes) (hsized : heap.Sized)
    (hround : RoundsBelow size) (hpos : size ≠ 0) (hok : LunaOs.kMalloc heap size = .ok (p, heap'))
    (hle : heap.cursor ≤ heap'.cursor) :
    ∃ objects' nodes' t, HeapHolds heap' objects' nodes' ∧ heap'.Sized ∧
      Handed heap heap' objects objects' p size t := by
  have hpos' : 0 < size.toNat := Nat.pos_of_ne_zero fun h0 => hpos (UInt32.toNat_inj.mp h0)
  have hbelow : ∀ q u, objects q = some u → ∀ a : UInt32, (u.span q).Contains a.toNat →
      a < heap.cursor := by
    intro q u hu a ha
    rw [UInt32.lt_iff_toNat_lt]
    exact ha.2.trans_le (h.obj.bounds hu).2
  rcases kMalloc_cases hok with
    ⟨hzero, _⟩ | ⟨_, i, mid, hfind, hmid, rfl, rfl⟩ | ⟨_, hfind, hlarge⟩
  · exact absurd hzero hpos
  · obtain ⟨objects₁, nodes₁, h₁, hold, hsizes, hne⟩ := h.refill hsized hmid hle
    obtain ⟨hmem, hhead⟩ := refill_frame hsized hmid hle
    obtain ⟨rest, _, hfree, hpop⟩ := h₁.popObject (hsizes i) hne hpos'
      (findCache_eq_some hsized hfind)
    have hend : (mid.caches i).freeList.toNat + (slabSize i).toNat ≤ mid.cursor.toNat :=
      (h₁.obj.bounds hfree).2
    have hlt := mid.cursor.toNat_lt
    refine ⟨_, _, _, hpop, popObject_sized hsizes, Function.update_self .., rfl,
      fun q u hu hlive => ?_, fun q u hu hlive a ha => ?_, fun j s ht => ?_, fun _ _ ht => ?_⟩
    · have hqp := (ne_of_free hfree (hold q u hu) hlive).symm
      exact ⟨hqp, (Function.update_of_ne hqp _ _).trans (hold q u hu)⟩
    · have hqp := (ne_of_free hfree (hold q u hu) hlive).symm
      rw [← hmem a (hbelow q u hu a ha)]
      refine fill_agree mid.mem 0 ?_ a ?_
      · rw [hsizes i]
        omega
      · rw [hsizes i]
        exact (h₁.obj.apart hqp (hold q u hu) hfree).not_contains ha
    · cases ht
      refine ⟨hfind, hhead, fun k hk => fill_apply mid.mem 0 ?_⟩
      rw [hsizes i]
      exact hk
    · cases ht
  · have hsize := findCache_eq_none hsized hfind
    obtain ⟨pages, hlt, hholds, hcaches⟩ := h.allocLarge hround hsize hlarge hle
    obtain ⟨hmem, hnew⟩ := allocLarge_frame hround hsize hlarge hle
    refine ⟨_, nodes, _, hholds, fun j => by rw [hcaches]; exact hsized j,
      Function.update_self .., rfl, fun q u hu _ => ?_, fun q u hu _ a ha => hmem a (hbelow q u hu a ha),
      fun _ _ ht => ?_, fun _ _ _ => hnew⟩
    · have hqp : q ≠ p := by
        rintro rfl
        have hlt' := (h.obj.lt_top hu).2
        omega
      exact ⟨hqp, (Function.update_of_ne hqp _ _).trans hu⟩
    · cases ht

/-- **`k_malloc`** makes a live block of the size asked for at a pointer where there was none, and
keeps the other blocks. -/
theorem HeapHolds.kMalloc (h : HeapHolds heap objects nodes) (hsized : heap.Sized)
    (hround : RoundsBelow size) (hpos : size ≠ 0) (hok : LunaOs.kMalloc heap size = .ok (p, heap'))
    (hle : heap.cursor ≤ heap'.cursor) :
    ∃ objects' nodes' t, HeapHolds heap' objects' nodes' ∧ heap'.Sized ∧
      objects' p = some t ∧ t.size? = some size ∧
      ∀ q u, objects q = some u → u.size?.isSome → q ≠ p ∧ objects' q = some u := by
  obtain ⟨objects', nodes', t, h', hsized', hnew⟩ := h.kMalloc_handed hsized hround hpos hok hle
  exact ⟨objects', nodes', t, h', hsized', hnew.tag, hnew.size_eq, hnew.kept⟩

/-- **`k_malloc` does not depend on the contents of the live blocks**: with others in their place it
returns the same block, and memory that differs in no other places. -/
theorem HeapHolds.kMalloc_congr (h : HeapHolds heap objects nodes) (hsized : heap.Sized)
    (hpos : size ≠ 0) (hok : LunaOs.kMalloc heap size = .ok (p, heap')) (hle : heap.cursor ≤ heap'.cursor)
    {mem : UInt32 → UInt8}
    (hsame : ∀ a : UInt32, mem a ≠ heap.mem a →
      ∃ q u, objects q = some u ∧ u.size?.isSome ∧ (u.span q).Contains a.toNat) :
    ∃ mem', LunaOs.kMalloc { heap with mem } size = .ok (p, { heap' with mem := mem' }) ∧
      ∀ a, mem a = heap.mem a → mem' a = heap'.mem a := by
  rcases kMalloc_cases hok with
    ⟨hzero, _⟩ | ⟨_, i, mid, hfind, hmid, rfl, rfl⟩ | ⟨_, hfind, hlarge⟩
  · exact absurd hzero hpos
  · obtain ⟨objects₁, nodes₁, h₁, hold, hsizes, hne⟩ := h.refill hsized hmid hle
    obtain ⟨_, _, hfree⟩ := h₁.lists.exists_cons hne
    obtain ⟨mem₁, hrefill, hmem₁⟩ := refill_congr hmid mem
    have hend : (mid.caches i).freeList.toNat + (slabSize i).toNat ≤ mid.cursor.toNat :=
      (h₁.obj.bounds hfree).2
    have hlt := mid.cursor.toNat_lt
    have hmin := (slabSize_bounds i).1
    -- the link of the object that is taken lies in no live block
    have hlink : load32 mem₁ (mid.caches i).freeList = load32 mid.mem (mid.caches i).freeList := by
      refine load32_congr fun j hj => hmem₁ _ ?_
      by_contra hdiff
      obtain ⟨q, u, hu, hlive, hin⟩ := hsame _ hdiff
      have hapart := h₁.obj.apart (ne_of_free hfree (hold q u hu) hlive).symm (hold q u hu) hfree
      exact hapart.not_contains hin (contains_add (a := (mid.caches i).freeList) (by omega) (by omega))
    obtain ⟨mem', hpop, hmem'⟩ := popObject_congr hlink
    refine ⟨mem', ?_, fun a ha => hmem' a (hmem₁ a ha)⟩
    unfold LunaOs.kMalloc
    rw [if_neg hpos, show findCache { heap with mem } size = some i from hfind]
    dsimp only
    rw [hrefill]
    exact congrArg Except.ok hpop
  · obtain ⟨mem', hlarge', hmem'⟩ := allocLarge_congr hlarge mem
    refine ⟨mem', ?_, hmem'⟩
    unfold LunaOs.kMalloc
    rw [if_neg hpos, show findCache { heap with mem } size = none from hfind]
    exact hlarge'

end LunaOs
