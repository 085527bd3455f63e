import LunaOs.HeapFree

/-! # The counters of the caches

`used` of a cache counts the live blocks that it serves, and `total` these and the objects on its list,
as long as `k_free` finds the cache that a block came from.  It looks for the first object size that
the pointer is a multiple of.  That is 8 for every pointer, so a block of more than 8 bytes is put on
the list of the smallest cache and counted there, and a small block above a word that looks like a
header is not put on any list (`accounts_iff`).

With the counters right an extension finds every object of its class live, so that a bound on the
live blocks is one on the objects. -/

namespace LunaOs

open ByteMem Extents FreeList

/-- The class that serves a size: the smallest object size that fits. -/
def classOf (size : UInt32) : Option (Fin NUM_SLABS) :=
  (List.finRange NUM_SLABS).find? fun i => size ≤ slabSize i

/-- The number of live blocks of a class. -/
def liveIn (i : Fin NUM_SLABS) (live : List Block) : ℕ := live.countP fun b => classOf b.size = some i

/-- **The counters are right.** -/
structure Accounts (c : HeapClient) : Prop where
  used_eq : ∀ i, (c.heap.caches i).used.toNat = liveIn i c.live
  total_eq : ∀ i, ∃ nodes, Chain (load32 c.heap.mem) 0 (c.heap.caches i).freeList nodes ∧
    (c.heap.caches i).total.toNat = (c.heap.caches i).used.toNat + nodes.length

/-- Of the small blocks only those of the smallest class are freed, and only above a word that is not
the magic number. -/
def FreesTracked (c : HeapClient) : HeapOp → Prop
  | .free ptr => ∀ b ∈ c.live, b.ptr = ptr →
      1024 < b.size ∨ (b.size ≤ 8 ∧ load32 c.heap.mem (ptr - LARGE_HDR_SIZE) ≠ LARGE_MAGIC)
  | _ => True

/-! ### Classes -/

theorem findCache_eq_classOf {heap : Heap} (hsized : heap.Sized) (size : UInt32) :
    findCache heap size = classOf size := by
  unfold findCache classOf
  exact congrArg (List.find? · _) (funext fun i => by rw [hsized i])

theorem classOf_large {size : UInt32} (h : 1024 < size) : classOf size = none := by
  refine List.find?_eq_none.mpr fun i _ hle => ?_
  have hmax := (slabSize_bounds i).2.2.1
  have hle := UInt32.le_iff_toNat_le.mp (of_decide_eq_true hle)
  have hlt := UInt32.lt_iff_toNat_lt.mp h
  have h1024 : (1024 : UInt32).toNat = 1024 := rfl
  omega

theorem classOf_small {size : UInt32} (h : size ≤ 1024) : ∃ i, classOf size = some i := by
  refine Option.isSome_iff_exists.mp (List.find?_isSome.mpr ⟨⟨7, by decide⟩, List.mem_finRange _, ?_⟩)
  exact decide_eq_true h

theorem classOf_eq_first {size : UInt32} : classOf size = some firstSlab ↔ size ≤ 8 := by
  constructor
  · intro h
    have hfit := List.find?_some h
    exact of_decide_eq_true hfit
  · exact fun h => findFirst (decide_eq_true h)

/-! ### Objects and lists -/

/-- Every object of a cache is in use or on its list. -/
def Balanced (heap : Heap) (nodes : Fin NUM_SLABS → List UInt32) : Prop :=
  ∀ j, (heap.caches j).total.toNat = (heap.caches j).used.toNat + (nodes j).length

/-- The objects of a cache fit into the pages handed out. -/
def TotalsFit (heap : Heap) : Prop :=
  ∀ j, (heap.caches j).total.toNat * (slabSize j).toNat + HEAP_VIRT_BASE.toNat ≤ heap.cursor.toNat

variable {heap heap' : Heap} {objects : UInt32 → Option Tag}
  {nodes : Fin NUM_SLABS → List UInt32} {i : Fin NUM_SLABS} {c c' : HeapClient}

theorem accounts_iff_balanced (h : HeapHolds c.heap objects nodes) :
    Accounts c ↔ (∀ i, (c.heap.caches i).used.toNat = liveIn i c.live) ∧ Balanced c.heap nodes := by
  constructor
  · intro hacc
    refine ⟨hacc.used_eq, fun i => ?_⟩
    obtain ⟨nodes', hchain, htotal⟩ := hacc.total_eq i
    rwa [hchain.unique (h.lists i).1] at htotal
  · rintro ⟨hused, hbal⟩
    exact ⟨hused, fun i => ⟨nodes i, (h.lists i).1, hbal i⟩⟩

theorem slabNodes_length (obj : UInt32) (n : ℕ) (ptr : UInt32) : (slabNodes obj n ptr).length = n := by
  induction n generalizing ptr with
  | zero => rfl
  | succ n ih =>
      show (slabNodes obj n (ptr + obj) ++ [ptr]).length = n + 1
      rw [List.length_append, ih]
      rfl

theorem extendSlab_caches (hok : extendSlab heap i = .ok heap') :
    ∃ freeList, heap'.caches = Function.update heap.caches i
      { heap.caches i with
        freeList, total := (heap.caches i).total + SLAB_PAGES * PAGE_SIZE / (heap.caches i).objSize } := by
  obtain ⟨⟨vmm, cursor⟩, _, hret⟩ := bind_eq_ok hok
  obtain rfl := Except.ok.inj hret
  exact ⟨_, rfl⟩

theorem allocLarge_caches {p size : UInt32} (hok : allocLarge heap size = .ok (p, heap')) :
    heap'.caches = heap.caches := by
  obtain ⟨⟨vmm, cursor⟩, _, hret⟩ := bind_eq_ok hok
  obtain ⟨_, rfl⟩ := Prod.mk.inj (Except.ok.inj hret)
  rfl

theorem slabCount_toNat (i : Fin NUM_SLABS) :
    (SLAB_PAGES * PAGE_SIZE / slabSize i).toNat = 16384 / (slabSize i).toNat := by
  rw [UInt32.toNat_div]
  rfl

/-- An extension adds the objects of four pages to `total`, which does not wrap around. -/
theorem extendSlab_total (hsize : (heap.caches i).objSize = slabSize i) (hfit : TotalsFit heap)
    (hok : extendSlab heap i = .ok heap') (hle : heap.cursor ≤ heap'.cursor) :
    heap'.cursor.toNat = heap.cursor.toNat + 16384 ∧
      ∀ j, (heap'.caches j).used = (heap.caches j).used ∧
        (heap'.caches j).total.toNat = (heap.caches j).total.toNat +
          if j = i then 16384 / (slabSize i).toNat else 0 := by
  have hcursor : heap'.cursor.toNat = heap.cursor.toNat + 4 * 4096 :=
    toNat_cursor (extendSlab_pages hok) (by decide) hle
  obtain ⟨freeList, hcaches⟩ := extendSlab_caches hok
  refine ⟨hcursor, fun j => ?_⟩
  rw [hcaches]
  by_cases hj : j = i
  · subst hj
    have hlt := heap'.cursor.toNat_lt
    have hj := hfit j
    obtain ⟨h8, _, _, hall⟩ := slabSize_bounds j
    have htotal := Nat.mul_le_mul_left (heap.caches j).total.toNat h8
    have hcount := Nat.mul_le_mul_left (16384 / (slabSize j).toNat) h8
    rw [hall] at hcount
    rw [Function.update_self, if_pos rfl, hsize]
    refine ⟨rfl, ?_⟩
    dsimp only
    rw [UInt32.toNat_add, slabCount_toNat]
    refine Nat.mod_eq_of_lt ?_
    rw [heapBase_toNat] at hj
    omega
  · rw [Function.update_of_ne hj, if_neg hj]
    exact ⟨rfl, rfl⟩

theorem TotalsFit.extend (hfit : TotalsFit heap) (hsize : (heap.caches i).objSize = slabSize i)
    (hok : extendSlab heap i = .ok heap') (hle : heap.cursor ≤ heap'.cursor) : TotalsFit heap' := by
  obtain ⟨hcursor, htotals⟩ := extendSlab_total hsize hfit hok hle
  intro j
  have hj := hfit j
  rw [(htotals j).2, hcursor]
  split_ifs with hji
  · subst hji
    rw [Nat.add_mul, (slabSize_bounds j).2.2.2]
    omega
  · rw [Nat.add_zero]
    omega

/-- `popObject` moves the first object of the list over to `used`. -/
theorem popObject_caches (heap : Heap) (i j : Fin NUM_SLABS) :
    ((popObject heap i).2.caches j).total = (heap.caches j).total ∧
      ((popObject heap i).2.caches j).used =
        (heap.caches j).used + if j = i then 1 else 0 := by
  unfold popObject
  dsimp only
  by_cases hj : j = i
  · subst hj
    rw [Function.update_self, if_pos rfl]
    exact ⟨rfl, rfl⟩
  · rw [Function.update_of_ne hj, if_neg hj, UInt32.add_zero]
    exact ⟨rfl, rfl⟩

theorem TotalsFit.kMalloc (hfit : TotalsFit heap) (hsized : heap.Sized) {p size : UInt32}
    (hok : kMalloc heap size = .ok (p, heap')) (hle : heap.cursor ≤ heap'.cursor) :
    TotalsFit heap' := by
  rcases kMalloc_cases hok with ⟨_, _, rfl⟩ | ⟨_, i, mid, _, hmid, _, rfl⟩ | ⟨_, _, hlarge⟩
  · exact hfit
  · have hmidFit : TotalsFit mid := by
      rcases refill_cases hmid with ⟨_, hext⟩ | ⟨_, rfl⟩
      · exact hfit.extend (hsized i) hext hle
      · exact hfit
    intro j
    rw [(popObject_caches mid i j).1]
    exact hmidFit j
  · intro j
    rw [allocLarge_caches hlarge]
    exact (hfit j).trans (UInt32.le_iff_toNat_le.mp hle)

theorem TotalsFit.of_caches (hfit : TotalsFit heap) (hcursor : heap'.cursor = heap.cursor)
    (htotal : ∀ j, (heap'.caches j).total = (heap.caches j).total) : TotalsFit heap' := by
  intro j
  rw [hcursor, htotal]
  exact hfit j

theorem kFree_total (heap : Heap) (ptr : UInt32) (j : Fin NUM_SLABS) :
    ((kFree heap ptr).caches j).total = (heap.caches j).total := by
  unfold kFree
  split_ifs
  · rfl
  · rfl
  · split
    · rfl
    · rename_i i _
      by_cases hj : j = i
      · rw [hj]
        dsimp only
        rw [Function.update_self]
      · dsimp only
        rw [Function.update_of_ne hj]

/-! ### One call -/

theorem refill_balanced (h : HeapHolds heap objects nodes) (hsized : heap.Sized)
    (hfit : TotalsFit heap) (hbal : Balanced heap nodes) (hok : refill heap i = .ok heap')
    (hle : heap.cursor ≤ heap'.cursor) :
    ∃ objects' nodes', HeapHolds heap' objects' nodes' ∧ Balanced heap' nodes' ∧ heap'.Sized ∧
      (heap'.caches i).freeList ≠ 0 ∧ ∀ j, (heap'.caches j).used = (heap.caches j).used := by
  obtain ⟨_, _, _, _, hsized', hne⟩ := h.refill hsized hok hle
  rcases refill_cases hok with ⟨_, hext⟩ | ⟨_, rfl⟩
  · obtain ⟨objects', h', _, _⟩ := h.extendSlab (hsized i) hext hle
    obtain ⟨_, htotals⟩ := extendSlab_total (hsized i) hfit hext hle
    refine ⟨objects', _, h', fun j => ?_, hsized', hne, fun j => (htotals j).1⟩
    rw [(htotals j).1, (htotals j).2, hbal j]
    by_cases hj : j = i
    · subst hj
      rw [if_pos rfl, Function.update_self, List.length_append]
      unfold extension
      rw [slabNodes_length]
      omega
    · rw [if_neg hj, Function.update_of_ne hj, Nat.add_zero]
  · exact ⟨objects, nodes, h, hbal, hsized, hne, fun _ => rfl⟩

/-- An allocation takes one object of its class off the list, which may have been extended. -/
theorem kMalloc_balanced (h : HeapHolds heap objects nodes) (hsized : heap.Sized)
    (hfit : TotalsFit heap) (hbal : Balanced heap nodes) {p size : UInt32} (hround : RoundsBelow size)
    (hpos : size ≠ 0) (hok : kMalloc heap size = .ok (p, heap'))
    (hle : heap.cursor ≤ heap'.cursor) :
    ∃ objects' nodes', HeapHolds heap' objects' nodes' ∧ Balanced heap' nodes' ∧
      ∀ j, (heap'.caches j).used.toNat =
        (heap.caches j).used.toNat + if classOf size = some j then 1 else 0 := by
  rcases kMalloc_cases hok with
    ⟨hzero, _⟩ | ⟨_, i, mid, hfind, hmid, rfl, rfl⟩ | ⟨_, hfind, hlarge⟩
  · exact absurd hzero hpos
  · rw [← findCache_eq_classOf hsized, hfind]
    obtain ⟨objects₁, nodes₁, h₁, hbal₁, hsized₁, hne, hused⟩ :=
      refill_balanced h hsized hfit hbal hmid hle
    have hpos' : 0 < size.toNat := Nat.pos_of_ne_zero fun h0 => hpos (UInt32.toNat_inj.mp h0)
    obtain ⟨rest, hnodes, _, hpop⟩ := h₁.popObject (hsized₁ i) hne hpos'
      (findCache_eq_some hsized hfind)
    have hlen := hbal₁ i
    rw [hnodes, List.length_cons] at hlen
    have hlt := (mid.caches i).total.toNat_lt
    have hcount : ∀ j, ((popObject mid i).2.caches j).used.toNat =
        (mid.caches j).used.toNat + if i = j then 1 else 0 := by
      intro j
      rw [(popObject_caches mid i j).2]
      by_cases hj : j = i
      · subst hj
        rw [if_pos rfl, if_pos rfl, UInt32.toNat_add, show (1 : UInt32).toNat = 1 from rfl]
        omega
      · rw [if_neg hj, if_neg (Ne.symm hj), UInt32.add_zero, Nat.add_zero]
    refine ⟨_, _, hpop, fun j => ?_, fun j => ?_⟩
    · rw [(popObject_caches mid i j).1, hcount j]
      by_cases hj : j = i
      · subst hj
        rw [if_pos rfl, Function.update_self]
        omega
      · rw [if_neg (Ne.symm hj), Function.update_of_ne hj]
        exact hbal₁ j
    · rw [hcount j, hused j]
      simp
  · rw [← findCache_eq_classOf hsized, hfind]
    obtain ⟨pages, _, hholds, hcaches⟩ :=
      h.allocLarge hround (findCache_eq_none hsized hfind) hlarge hle
    refine ⟨_, nodes, hholds, fun j => ?_, fun j => ?_⟩
    · rw [hcaches]
      exact hbal j
    · rw [hcaches]
      simp

theorem kMalloc_total (h : HeapHolds heap objects nodes) (hsized : heap.Sized)
    (hfit : TotalsFit heap) (hbal : Balanced heap nodes) {p size : UInt32}
    (hok : kMalloc heap size = .ok (p, heap')) (hle : heap.cursor ≤ heap'.cursor)
    (j : Fin NUM_SLABS) :
    (heap'.caches j).total = (heap.caches j).total ∨
      (size ≠ 0 ∧ classOf size = some j ∧
        (heap'.caches j).total.toNat =
          (heap.caches j).used.toNat + 16384 / (slabSize j).toNat) := by
  rcases kMalloc_cases hok with
    ⟨_, _, rfl⟩ | ⟨hpos, i, mid, hfind, hmid, _, rfl⟩ | ⟨_, _, hlarge⟩
  · exact .inl rfl
  · rw [(popObject_caches mid i j).1]
    rcases refill_cases hmid with ⟨hnull, hext⟩ | ⟨_, rfl⟩
    · have htotal := ((extendSlab_total (hsized i) hfit hext hle).2 j).2
      by_cases hj : j = i
      · subst hj
        have hnil : nodes j = [] := by
          have hchain := (h.lists j).1
          cases hnodes : nodes j with
          | nil => rfl
          | cons n rest =>
              rw [hnodes] at hchain
              exact absurd (hchain.1.symm.trans hnull) hchain.2.1
        have hfull := hbal j
        rw [hnil, List.length_nil, Nat.add_zero] at hfull
        rw [if_pos rfl, hfull] at htotal
        exact .inr ⟨hpos, (findCache_eq_classOf hsized size).symm.trans hfind, htotal⟩
      · rw [if_neg hj] at htotal
        exact .inl (UInt32.toNat_inj.mp htotal)
    · exact .inl rfl
  · exact .inl (by rw [allocLarge_caches hlarge])

/-- What a run keeps, whatever is freed. -/
def Accountable (c : HeapClient) : Prop :=
  (∃ objects nodes, ClientHolds c objects nodes) ∧ TotalsFit c.heap

theorem Accountable.step (h : Accountable c) {op : HeapOp} (hfits : c.Fits op)
    (hstep : c.step op = some c') : Accountable c' := by
  obtain ⟨⟨objects, nodes, hholds⟩, htotals⟩ := h
  refine ⟨hholds.step hfits hstep, ?_⟩
  cases op with
  | malloc size =>
      obtain ⟨ptr, heap, hok, rfl⟩ := HeapClient.step_malloc hstep
      exact htotals.kMalloc hholds.sized hok (hfits.2 ptr heap hok)
  | free ptr =>
      obtain ⟨_, _, _, rfl⟩ := HeapClient.step_free hstep
      exact htotals.of_caches (kFree_same c.heap ptr).2 (kFree_total c.heap ptr)
  | write ptr off value =>
      obtain ⟨_, _, _, _, rfl⟩ := HeapClient.step_write hstep
      exact htotals

theorem liveIn_cons (i : Fin NUM_SLABS) (b : Block) (live : List Block) :
    liveIn i (b :: live) = liveIn i live + if classOf b.size = some i then 1 else 0 := by
  unfold liveIn
  rw [List.countP_cons]
  simp

theorem liveIn_eraseP {live : List Block} (hnodup : (live.map Block.ptr).Nodup) {b : Block}
    (hb : b ∈ live) (i : Fin NUM_SLABS) :
    liveIn i live = liveIn i (live.eraseP fun b' => b'.ptr = b.ptr) +
      if classOf b.size = some i then 1 else 0 := by
  obtain ⟨a, l₁, l₂, _, ha, hlive, herase⟩ :=
    List.exists_of_eraseP (p := fun b' : Block => b'.ptr = b.ptr) hb (decide_eq_true rfl)
  have hab : a = b := by
    refine List.inj_on_of_nodup_map hnodup ?_ hb (by simpa using ha)
    rw [hlive]
    exact List.mem_append_right _ List.mem_cons_self
  subst hab
  rw [herase, hlive]
  unfold liveIn
  rw [List.countP_append, List.countP_append, List.countP_cons]
  simp [Nat.add_assoc]

/-- **An allocation keeps the counters right.** -/
theorem Accounts.malloc (hacc : Accounts c) (h : ClientHolds c objects nodes)
    (hfit : TotalsFit c.heap) {size ptr : UInt32} {heap : Heap} (hround : RoundsBelow size)
    (hok : kMalloc c.heap size = .ok (ptr, heap)) (hle : c.heap.cursor ≤ heap.cursor) :
    Accounts ⟨heap, if ptr = 0 then c.live else ⟨ptr, size⟩ :: c.live⟩ := by
  obtain ⟨hused, hbal⟩ := (accounts_iff_balanced h.holds).mp hacc
  by_cases hpos : size = 0
  · obtain ⟨_, rfl, rfl⟩ := (kMalloc_cases hok).resolve_right (by simp [hpos])
    exact hacc
  · obtain ⟨objects₁, nodes₁, h₁, hbal₁, hcount⟩ :=
      kMalloc_balanced h.holds h.sized hfit hbal hround hpos hok hle
    obtain ⟨_, _, _, h₂, _, hptr, _, _⟩ := h.holds.kMalloc h.sized hround hpos hok hle
    rw [if_neg (h₂.obj.ne_zero hptr)]
    refine (accounts_iff_balanced (c := ⟨heap, ⟨ptr, size⟩ :: c.live⟩) h₁).mpr ⟨fun j => ?_, hbal₁⟩
    rw [hcount j, hused j, liveIn_cons]

/-- A block that `k_free` takes for a large one leaves all counters as they are. -/
theorem Accounts.free_header_iff (hacc : Accounts c) (h : ClientHolds c objects nodes) {b : Block}
    (hb : b ∈ c.live) (hmagic : load32 c.heap.mem (b.ptr - LARGE_HDR_SIZE) = LARGE_MAGIC) :
    Accounts ⟨kFree c.heap b.ptr, c.live.eraseP fun b' => b'.ptr = b.ptr⟩ ↔ 1024 < b.size := by
  obtain ⟨hused, hbal⟩ := (accounts_iff_balanced h.holds).mp hacc
  obtain ⟨t, ht, hsize⟩ := h.live b hb
  have herase := liveIn_eraseP h.nodup hb
  obtain ⟨h', hcaches⟩ := h.holds.kFree_header ht (hsize ▸ rfl) hmagic
  rw [accounts_iff_balanced (c := ⟨kFree c.heap b.ptr, _⟩) h', hcaches]
  constructor
  · rintro ⟨hall, _⟩
    by_contra hlarge
    obtain ⟨i, hi⟩ := classOf_small (UInt32.not_lt.mp hlarge)
    have hcount := herase i
    have hbefore := hused i
    have hafter : (c.heap.caches i).used.toNat =
      liveIn i (c.live.eraseP fun b' => b'.ptr = b.ptr) := hall i
    rw [hi, if_pos rfl] at hcount
    omega
  · intro hlarge
    refine ⟨fun i => ?_, fun i => ?_⟩
    · rw [hused i, herase i, classOf_large hlarge]
      rfl
    · rw [hcaches]
      exact hbal i

theorem Accounts.free_push_iff (hacc : Accounts c) (h : ClientHolds c objects nodes) {b : Block}
    (hb : b ∈ c.live) (hmagic : load32 c.heap.mem (b.ptr - LARGE_HDR_SIZE) ≠ LARGE_MAGIC) :
    Accounts ⟨kFree c.heap b.ptr, c.live.eraseP fun b' => b'.ptr = b.ptr⟩ ↔ b.size ≤ 8 := by
  obtain ⟨hused, hbal⟩ := (accounts_iff_balanced h.holds).mp hacc
  obtain ⟨t, ht, hsize⟩ := h.live b hb
  have herase := liveIn_eraseP h.nodup hb
  obtain ⟨h', hcaches⟩ := h.holds.kFree_push h.sized ht (hsize ▸ rfl) hmagic
  rw [accounts_iff_balanced (c := ⟨kFree c.heap b.ptr, _⟩) h', ← classOf_eq_first]
  have hlt := (c.heap.caches firstSlab).used.toNat_lt
  have hone : (1 : UInt32).toNat = 1 := rfl
  have hbefore := hused firstSlab
  have hcount := herase firstSlab
  constructor
  · rintro ⟨hall, _⟩
    by_contra hclass
    have hafter := hall firstSlab
    rw [if_neg hclass] at hcount
    dsimp only at hafter
    rw [hcaches, Function.update_self, UInt32.toNat_sub, hone] at hafter
    omega
  · intro hclass
    rw [if_pos hclass] at hcount
    have hafter : ((c.heap.caches firstSlab).used - 1).toNat =
        (c.heap.caches firstSlab).used.toNat - 1 := by
      rw [UInt32.toNat_sub, hone]
      omega
    refine ⟨fun j => ?_, fun j => ?_⟩
    · dsimp only
      by_cases hj : j = firstSlab
      · subst hj
        rw [hcaches, Function.update_self]
        dsimp only
        omega
      · rw [hcaches, Function.update_of_ne hj, hused j, herase j, hclass,
          if_neg fun heq => hj (Option.some.inj heq).symm]
        rfl
    · have hj' := hbal j
      rw [hcaches]
      by_cases hj : j = firstSlab
      · subst hj
        rw [Function.update_self, Function.update_self, List.length_cons]
        dsimp only
        omega
      · rw [Function.update_of_ne hj, Function.update_of_ne hj]
        exact hj'

theorem ClientHolds.magic_of_large (h : ClientHolds c objects nodes) {b : Block} (hb : b ∈ c.live)
    (hlarge : 1024 < b.size) : load32 c.heap.mem (b.ptr - LARGE_HDR_SIZE) = LARGE_MAGIC := by
  obtain ⟨t, ht, hsize⟩ := h.live b hb
  have hvalid := h.holds.obj.valid b.ptr t ht
  cases t with
  | free i => cases hsize
  | small i size =>
      obtain rfl := Option.some.inj hsize
      have hle := UInt32.le_iff_toNat_le.mp hvalid.2
      have hlt := UInt32.lt_iff_toNat_lt.mp hlarge
      have hmax := (slabSize_bounds i).2.2.1
      have h1024 : (1024 : UInt32).toNat = 1024 := rfl
      omega
  | large pages size => exact hvalid.2.2

/-- **Freeing keeps the counters right exactly if the block is large, or of the smallest class and not
above the magic number.** -/
theorem Accounts.free_iff (hacc : Accounts c) (h : ClientHolds c objects nodes) {b : Block}
    (hb : b ∈ c.live) :
    Accounts ⟨kFree c.heap b.ptr, c.live.eraseP fun b' => b'.ptr = b.ptr⟩ ↔
      1024 < b.size ∨ (b.size ≤ 8 ∧ load32 c.heap.mem (b.ptr - LARGE_HDR_SIZE) ≠ LARGE_MAGIC) := by
  by_cases hmagic : load32 c.heap.mem (b.ptr - LARGE_HDR_SIZE) = LARGE_MAGIC
  · rw [hacc.free_header_iff h hb hmagic, or_iff_left fun hcond => hcond.2 hmagic]
  · rw [hacc.free_push_iff h hb hmagic, and_iff_left hmagic,
      or_iff_right fun hlarge => hmagic (h.magic_of_large hb hlarge)]

/-- **One operation keeps the counters right exactly if it meets the condition.** -/
theorem step_accounts_iff {op : HeapOp} (h : Accountable c) (hacc : Accounts c)
    (hfits : c.Fits op) (hstep : c.step op = some c') : Accounts c' ↔ FreesTracked c op := by
  obtain ⟨⟨objects, nodes, hholds⟩, htotals⟩ := h
  cases op with
  | malloc size =>
      obtain ⟨ptr, heap, hok, rfl⟩ := HeapClient.step_malloc hstep
      exact iff_of_true (hacc.malloc hholds htotals hfits.1 hok (hfits.2 ptr heap hok)) trivial
  | free ptr =>
      obtain ⟨b, hb, rfl, rfl⟩ := HeapClient.step_free hstep
      rw [hacc.free_iff hholds hb]
      constructor
      · intro hcond b' hb' hptr
        rwa [List.inj_on_of_nodup_map hholds.nodup hb' hb hptr]
      · exact fun hall => hall b hb rfl
  | write ptr off value =>
      obtain ⟨b, hb, rfl, hoff, rfl⟩ := HeapClient.step_write hstep
      obtain ⟨t, ht, hsize⟩ := hholds.live b hb
      obtain ⟨hused, hbal⟩ := (accounts_iff_balanced hholds.holds).mp hacc
      exact iff_of_true ((accounts_iff_balanced (hholds.holds.write ht hsize hoff value)).mpr
        ⟨hused, hbal⟩) trivial

/-- With at most `N` live blocks of a class its cache has at most `N` objects more than four pages hold. -/
theorem step_total_le {op : HeapOp} {N : ℕ} (h : Accountable c) (hacc : Accounts c)
    (hlive : liveIn i c'.live ≤ N) (hfits : c.Fits op) (hstep : c.step op = some c')
    (htotal : (c.heap.caches i).total.toNat ≤ N + 16384 / (slabSize i).toNat) :
    (c'.heap.caches i).total.toNat ≤ N + 16384 / (slabSize i).toNat := by
  obtain ⟨⟨objects, nodes, hholds⟩, hfit⟩ := h
  obtain ⟨hused, hbal⟩ := (accounts_iff_balanced hholds.holds).mp hacc
  cases op with
  | malloc size =>
      obtain ⟨ptr, heap, hok, rfl⟩ := HeapClient.step_malloc hstep
      have hle := hfits.2 ptr heap hok
      rcases kMalloc_total hholds.holds hholds.sized hfit hbal hok hle i with
        heq | ⟨hpos, hclass, heq⟩
      · dsimp only
        rw [heq]
        exact htotal
      · obtain ⟨_, _, _, h', _, hptr, _, _⟩ :=
          hholds.holds.kMalloc hholds.sized hfits.1 hpos hok hle
        dsimp only at hlive ⊢
        rw [if_neg (h'.obj.ne_zero hptr), liveIn_cons] at hlive
        rw [heq, hused i]
        omega
  | free ptr =>
      obtain ⟨_, _, _, rfl⟩ := HeapClient.step_free hstep
      dsimp only
      rw [kFree_total]
      exact htotal
  | write ptr off value =>
      obtain ⟨_, _, _, _, rfl⟩ := HeapClient.step_write hstep
      exact htotal

/-! ### The first state -/

/-- A cache as `heap_init` leaves it. -/
def Initial (heap : Heap) (nodes : Fin NUM_SLABS → List UInt32) (j : Fin NUM_SLABS) : Prop :=
  (heap.caches j).used = 0 ∧ (heap.caches j).total.toNat = 16384 / (slabSize j).toNat ∧
    (nodes j).length = 16384 / (slabSize j).toNat

theorem initCache_caches (hok : initCache heap i = .ok heap') :
    ∃ freeList, heap'.caches = Function.update heap.caches i
      ⟨freeList, slabSize i, SLAB_PAGES * PAGE_SIZE / slabSize i, 0⟩ := by
  obtain ⟨freeList, hcaches⟩ := extendSlab_caches hok
  refine ⟨freeList, hcaches.trans ?_⟩
  simp

theorem initCaches_counted {l : List (Fin NUM_SLABS)} (h : HeapHolds heap objects nodes)
    (hmapped : HeapMapped heap) (hfit : TotalsFit heap)
    (hroom : heap.cursor.toNat + 16384 * l.length < 2 ^ 32)
    (hok : l.foldlM initCache heap = .ok heap') :
    ∃ objects' nodes', HeapHolds heap' objects' nodes' ∧ TotalsFit heap' ∧
      ∀ j, j ∈ l ∨ Initial heap nodes j → Initial heap' nodes' j := by
  induction l generalizing heap objects nodes with
  | nil =>
      obtain rfl := Except.ok.inj hok
      exact ⟨objects, nodes, h, hfit, fun j hj => hj.resolve_left List.not_mem_nil⟩
  | cons i l ih =>
      rw [List.foldlM_cons] at hok
      obtain ⟨heap₁, hok₁, hrest⟩ := bind_eq_ok hok
      rw [List.length_cons] at hroom
      obtain ⟨objects₁, h₁, hmapped₁, hcursor, _⟩ :=
        initCache_holds h hmapped (by linarith) hok₁
      obtain ⟨freeList, hcaches⟩ := initCache_caches hok₁
      have hbase := h.obj.base_le
      have hfit₁ : TotalsFit heap₁ := by
        intro j
        have hj := hfit j
        rw [hcaches, hcursor]
        by_cases hji : j = i
        · subst hji
          rw [Function.update_self]
          dsimp only
          rw [slabCount_toNat, (slabSize_bounds j).2.2.2]
          omega
        · rw [Function.update_of_ne hji]
          omega
      obtain ⟨objects', nodes', h', hfit', hinitial⟩ :=
        ih h₁ hmapped₁ hfit₁ (by linarith) hrest
      refine ⟨objects', nodes', h', hfit', fun j hj => hinitial j ?_⟩
      by_cases hji : j = i
      · subst hji
        refine .inr ⟨?_, ?_, ?_⟩
        · rw [hcaches, Function.update_self]
        · rw [hcaches, Function.update_self]
          exact slabCount_toNat j
        · rw [Function.update_self, List.append_nil]
          exact slabNodes_length _ _ _
      · rcases hj with hmem | hold
        · exact .inl ((List.mem_cons.mp hmem).resolve_left hji)
        · right
          unfold Initial
          rw [hcaches, Function.update_of_ne hji, Function.update_of_ne hji]
          exact hold

theorem accounts_start {s s₀ : Vmm} {mem : UInt32 → UInt8} {heap : Heap}
    (hinit : vmmInit s = .ok s₀) (hheap : heapInit (Heap.boot s₀ mem) = .ok heap) :
    Accountable (HeapClient.start heap) ∧ Accounts (HeapClient.start heap) ∧
      ∀ i, (heap.caches i).total.toNat = 16384 / (slabSize i).toNat := by
  obtain ⟨hobj, hmapped⟩ := boot_holds hinit mem
  obtain ⟨objects, nodes, hclient, _⟩ := clientHolds_start hinit hheap
  have hempty : TotalsFit (Heap.boot s₀ mem) := by
    intro j
    show 0 * (slabSize j).toNat + HEAP_VIRT_BASE.toNat ≤ HEAP_VIRT_BASE.toNat
    omega
  have hroom : (Heap.boot s₀ mem).cursor.toNat + 16384 * (List.finRange NUM_SLABS).length < 2 ^ 32 := by
    rw [List.length_finRange, show (Heap.boot s₀ mem).cursor.toNat = 0xD0000000 from rfl]
    decide
  obtain ⟨objects', nodes', h', hfit, hinitial⟩ :=
    initCaches_counted hobj hmapped hempty hroom hheap
  have hall : ∀ j, Initial heap nodes' j := fun j => hinitial j (.inl (List.mem_finRange j))
  refine ⟨⟨⟨objects, nodes, hclient⟩, hfit⟩, ?_, fun i => (hall i).2.1⟩
  refine (accounts_iff_balanced (c := HeapClient.start heap) h').mpr ⟨fun i => ?_, fun i => ?_⟩
  · show (heap.caches i).used.toNat = 0
    rw [(hall i).1]
    rfl
  · show (heap.caches i).total.toNat = (heap.caches i).used.toNat + _
    obtain ⟨hused, htotal, hlen⟩ := hall i
    rw [hused, htotal, hlen]
    exact (Nat.zero_add _).symm

/-! ### Runs -/

/-- The cache of objects of 16 bytes. -/
def secondSlab : Fin NUM_SLABS := ⟨1, Nat.succ_lt_succ (Nat.zero_lt_succ 6)⟩

theorem secondSlab_nodes {s s₀ : Vmm} {mem : UInt32 → UInt8} {heap : Heap}
    {objects : UInt32 → Option Tag} {nodes : Fin NUM_SLABS → List UInt32} (hinit : vmmInit s = .ok s₀)
    (hheap : heapInit (Heap.boot s₀ mem) = .ok heap)
    (h : ClientHolds (HeapClient.start heap) objects nodes) : ∃ n rest, nodes secondSlab = n :: rest := by
  obtain ⟨_, hacc, htotal⟩ := accounts_start hinit hheap
  obtain ⟨hused, hbal⟩ := (accounts_iff_balanced h.holds).mp hacc
  have hlen : 1024 = 0 + (nodes secondSlab).length := by
    have hsecond := hbal secondSlab
    rw [hused secondSlab] at hsecond
    exact (htotal secondSlab).symm.trans hsecond
  cases hnodes : nodes secondSlab with
  | nil =>
      rw [hnodes] at hlen
      cases hlen
  | cons n rest => exact ⟨n, rest, rfl⟩

end LunaOs
