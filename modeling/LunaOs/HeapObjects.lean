import LunaOs.Heap
import LunaOs.Lib.FreeList

/-! # The objects of the heap

Which pointers of the heap stand for something, and for what: free objects of a cache and live blocks,
small ones from a cache and large ones with a header.  Everything else (the rest of a page, blocks
that `k_free` took for large ones, freed large blocks) belongs to nobody and is never handed out
again.

Objects do not overlap.  The allocator reads back only two kinds of words, the link of a free object
and the header of a large block, and each lies in its own object, so that a write within one object
leaves the words of the others alone. -/

namespace LunaOs

open ByteMem Extents FreeList

/-- What an object is used for. -/
inductive Tag where
  | free (i : Fin NUM_SLABS)
  | small (i : Fin NUM_SLABS) (size : UInt32)
  | large (pages : ℕ) (size : UInt32)

namespace Tag

/-- The addresses the object at `p` occupies. -/
def span (p : UInt32) : Tag → Span
  | free i => ⟨p.toNat, (slabSize i).toNat⟩
  | small i _ => ⟨p.toNat, (slabSize i).toNat⟩
  | large pages _ => ⟨p.toNat - 8, pages * 4096⟩

/-- The number of bytes asked for, if the object is a live block. -/
def size? : Tag → Option UInt32
  | free _ => none
  | small _ size => some size
  | large _ size => some size

/-- The word of the object that the allocator reads back. -/
def guard (p : UInt32) : Tag → Option UInt32
  | free _ => some p
  | small _ _ => none
  | large _ _ => some (p - LARGE_HDR_SIZE)

/-- What the tag of an object says of its memory. -/
def Valid (mem : UInt32 → UInt8) (p : UInt32) : Tag → Prop
  | free _ => (load32 mem p).toNat % 8 = 0
  | small i size => 0 < size.toNat ∧ size ≤ slabSize i
  | large pages size => 1024 < size.toNat ∧ size.toNat + 8 ≤ pages * 4096 ∧
      load32 mem (p - LARGE_HDR_SIZE) = LARGE_MAGIC

theorem Valid.congr {mem mem' : UInt32 → UInt8} {p : UInt32} {t : Tag} (h : t.Valid mem p)
    (heq : ∀ a, t.guard p = some a → load32 mem' a = load32 mem a) : t.Valid mem' p := by
  cases t with
  | free i =>
      unfold Valid
      rw [heq p rfl]
      exact h
  | small i size => exact h
  | large pages size =>
      unfold Valid
      rw [heq _ rfl]
      exact h

end Tag

def layout (objects : UInt32 → Option Tag) : UInt32 → Option Span :=
  fun p => (objects p).map (Tag.span p)

theorem layout_update (objects : UInt32 → Option Tag) (p : UInt32) (t : Option Tag) :
    layout (Function.update objects p t) =
      Function.update (layout objects) p (t.map (Tag.span p)) := by
  funext q
  unfold layout
  by_cases hq : q = p
  · rw [hq, Function.update_self, Function.update_self]
  · rw [Function.update_of_ne hq, Function.update_of_ne hq]

/-- The objects between the start of the heap and `top`. -/
structure Objects (mem : UInt32 → UInt8) (objects : UInt32 → Option Tag) (top : ℕ) : Prop where
  placed : Placed (layout objects) HEAP_VIRT_BASE.toNat top
  base_le : HEAP_VIRT_BASE.toNat ≤ top
  top_lt : top < 2 ^ 32
  aligned : ∀ p t, objects p = some t → p.toNat % 8 = 0
  valid : ∀ p t, objects p = some t → t.Valid mem p

theorem heapBase_toNat : HEAP_VIRT_BASE.toNat = 0xD0000000 := rfl

theorem sub_header_toNat {p : UInt32} (hp : 8 ≤ p.toNat) :
    (p - LARGE_HDR_SIZE).toNat = p.toNat - 8 :=
  UInt32.toNat_sub_of_le _ _ (UInt32.le_iff_toNat_le.mpr hp)

section
variable {mem mem' : UInt32 → UInt8} {objects : UInt32 → Option Tag} {top top' : ℕ}
  {p q a : UInt32} {t u : Tag} {s : Span}

theorem layout_eq (hp : objects p = some t) : layout objects p = some (t.span p) := by
  unfold layout
  rw [hp]
  rfl

theorem Objects.bounds (h : Objects mem objects top) (hp : objects p = some t) :
    HEAP_VIRT_BASE.toNat ≤ (t.span p).start ∧ (t.span p).start + (t.span p).len ≤ top :=
  h.placed.within p _ (layout_eq hp)

theorem Objects.apart (h : Objects mem objects top) (hne : p ≠ q) (hp : objects p = some t)
    (hq : objects q = some u) : (t.span p).Apart (u.span q) :=
  h.placed.apart p q _ _ hne (layout_eq hp) (layout_eq hq)

theorem Objects.contains (h : Objects mem objects top) (hp : objects p = some t) :
    (t.span p).Contains p.toNat := by
  have hbounds := h.bounds hp
  have hvalid := h.valid p t hp
  rw [heapBase_toNat] at hbounds
  cases t with
  | free i => exact ⟨le_rfl, Nat.lt_add_of_pos_right (slabSize_pos i)⟩
  | small i size => exact ⟨le_rfl, Nat.lt_add_of_pos_right (slabSize_pos i)⟩
  | large pages size =>
      obtain ⟨hsize, hpages, _⟩ := hvalid
      change 0xD0000000 ≤ p.toNat - 8 ∧ _ at hbounds
      refine ⟨Nat.sub_le _ _, ?_⟩
      show p.toNat < p.toNat - 8 + pages * 4096
      omega

theorem Objects.lt_top (h : Objects mem objects top) (hp : objects p = some t) :
    HEAP_VIRT_BASE.toNat ≤ p.toNat ∧ p.toNat < top := by
  obtain ⟨h1, h2⟩ := h.bounds hp
  obtain ⟨h3, h4⟩ := h.contains hp
  exact ⟨h1.trans h3, h4.trans_le h2⟩

theorem Objects.below_toNat (h : Objects mem objects top) (hp : objects p = some t) :
    (p - LARGE_HDR_SIZE).toNat = p.toNat - 8 ∧ 0xD0000000 ≤ p.toNat := by
  have hbase := (h.lt_top hp).1
  rw [heapBase_toNat] at hbase
  exact ⟨sub_header_toNat (by omega), hbase⟩

theorem Objects.ne_zero (h : Objects mem objects top) (hp : objects p = some t) : p ≠ 0 := by
  rintro rfl
  exact absurd (h.lt_top hp).1 (by decide)

theorem Objects.guard_sub (h : Objects mem objects top) (hp : objects p = some t)
    (ha : t.guard p = some a) :
    (⟨a.toNat, 4⟩ : Span).Sub (t.span p) ∧ a.toNat + 4 ≤ 2 ^ 32 ∧ a.toNat % 8 = 0 ∧
      a.toNat = (t.span p).start := by
  obtain ⟨hlo, hhi⟩ := h.bounds hp
  have hlt := h.top_lt
  have haligned := h.aligned p t hp
  have hvalid := h.valid p t hp
  rw [heapBase_toNat] at hlo
  cases t with
  | free i =>
      obtain rfl := Option.some.inj ha
      have hsize := slabSize_bounds i
      change p.toNat + (slabSize i).toNat ≤ top at hhi
      refine ⟨⟨le_rfl, ?_⟩, by omega, haligned, rfl⟩
      show p.toNat + 4 ≤ p.toNat + (slabSize i).toNat
      omega
  | small i size => cases ha
  | large pages size =>
      obtain rfl := Option.some.inj ha
      obtain ⟨hsize, hpages, _⟩ := hvalid
      change 0xD0000000 ≤ p.toNat - 8 at hlo
      change p.toNat - 8 + pages * 4096 ≤ top at hhi
      rw [sub_header_toNat (by omega)]
      refine ⟨⟨le_rfl, ?_⟩, by omega, by omega, rfl⟩
      show p.toNat - 8 + 4 ≤ p.toNat - 8 + pages * 4096
      omega

/-- A write apart from an object leaves its guarded word alone. -/
theorem Objects.guard_eq (h : Objects mem objects top) (hagree : AgreeOutside s mem mem')
    (hq : objects q = some u) (hapart : (u.span q).Apart s) (ha : u.guard q = some a) :
    load32 mem' a = load32 mem a := by
  obtain ⟨hsub, hle, _⟩ := h.guard_sub hq ha
  exact hagree.load32_eq hle (hapart.sub hsub (.refl s))

/-- **The object at `p` changes its tag**, within its addresses, while only these are written. -/
theorem Objects.retag (h : Objects mem objects top) (hp : objects p = some t)
    (hagree : AgreeOutside (t.span p) mem mem') (new : Option Tag)
    (hnew : ∀ u, new = some u → u.Valid mem' p ∧ (u.span p).Sub (t.span p)) :
    Objects mem' (Function.update objects p new) top where
  placed := by
    rw [layout_update]
    refine h.placed.shrink (layout_eq hp) _ fun s hs => ?_
    obtain ⟨u, hu, rfl⟩ := Option.map_eq_some_iff.mp hs
    exact (hnew u hu).2
  base_le := h.base_le
  top_lt := h.top_lt
  aligned q u hu := by
    by_cases hq : q = p
    · rw [hq]
      exact h.aligned p t hp
    · rw [Function.update_of_ne hq] at hu
      exact h.aligned q u hu
  valid q u hu := by
    by_cases hq : q = p
    · rw [hq, Function.update_self] at hu
      rw [hq]
      exact (hnew u hu).1
    · rw [Function.update_of_ne hq] at hu
      exact (h.valid q u hu).congr fun a ha => h.guard_eq hagree hu (h.apart hq hu hp) ha

/-- **A new object behind all others.** -/
theorem Objects.place (h : Objects mem objects top) (hstart : top ≤ (t.span p).start)
    (hend : (t.span p).start + (t.span p).len ≤ top') (htop : top' < 2 ^ 32)
    (haligned : p.toNat % 8 = 0) (hvalid : t.Valid mem' p)
    (hagree : AgreeOutside (t.span p) mem mem') :
    Objects mem' (Function.update objects p (some t)) top' where
  placed := by
    rw [layout_update]
    exact h.placed.place h.base_le hstart hend
  base_le := h.base_le.trans (hstart.trans ((Nat.le_add_right _ _).trans hend))
  top_lt := htop
  aligned q u hu := by
    by_cases hq : q = p
    · rw [hq]
      exact haligned
    · rw [Function.update_of_ne hq] at hu
      exact h.aligned q u hu
  valid q u hu := by
    by_cases hq : q = p
    · rw [hq, Function.update_self] at hu
      obtain rfl := Option.some.inj hu
      rw [hq]
      exact hvalid
    · rw [Function.update_of_ne hq] at hu
      have hapart : (u.span q).Apart (t.span p) := .inl ((h.bounds hu).2.trans hstart)
      exact (h.valid q u hu).congr fun a ha => h.guard_eq hagree hu hapart ha

theorem Objects.congr (h : Objects mem objects top)
    (heq : ∀ q u, objects q = some u → ∀ a, u.guard q = some a → load32 mem' a = load32 mem a) :
    Objects mem' objects top where
  placed := h.placed
  base_le := h.base_le
  top_lt := h.top_lt
  aligned := h.aligned
  valid q u hu := (h.valid q u hu).congr (heq q u hu)

/-! ### The free lists -/

/-- The free lists begin at `heads`, visit `nodes` and end, and their nodes are the free objects of
the cache. -/
def Lists (mem : UInt32 → UInt8) (heads : Fin NUM_SLABS → UInt32) (objects : UInt32 → Option Tag)
    (nodes : Fin NUM_SLABS → List UInt32) : Prop :=
  ∀ i, Chain (load32 mem) 0 (heads i) (nodes i) ∧ ∀ n ∈ nodes i, objects n = some (.free i)

variable {objects' : UInt32 → Option Tag} {heads : Fin NUM_SLABS → UInt32}
  {nodes : Fin NUM_SLABS → List UInt32} {i : Fin NUM_SLABS}

theorem ne_of_free {n : UInt32} (hn : objects n = some (.free i)) (hp : objects p = some t)
    (hlive : t.size?.isSome) : n ≠ p := by
  rintro rfl
  obtain rfl := Option.some.inj (hp.symm.trans hn)
  cases hlive

theorem Lists.congr (h : Lists mem heads objects nodes)
    (heq : ∀ n i, objects n = some (.free i) →
      load32 mem' n = load32 mem n ∧ objects' n = some (.free i)) :
    Lists mem' heads objects' nodes := by
  intro i
  obtain ⟨hchain, hnodes⟩ := h i
  exact ⟨hchain.congr fun n hn => (heq n i (hnodes n hn)).1,
    fun n hn => (heq n i (hnodes n hn)).2⟩

/-- What is known of a pointer that is no node stays with the lists. -/
theorem Lists.of_not_free (h : Lists mem heads objects nodes) (hobj : Objects mem objects top)
    (hp : objects p = some t) (ht : t.size?.isSome) (hagree : AgreeOutside (t.span p) mem mem')
    (new : Option Tag) : Lists mem' heads (Function.update objects p new) nodes := by
  refine h.congr fun n i hn => ?_
  have hne := ne_of_free hn hp ht
  exact ⟨hobj.guard_eq hagree hn (hobj.apart hne hn hp) rfl,
    (Function.update_of_ne hne _ _).trans hn⟩

/-- The object at `p`, which was no node, is pushed onto list `i`. -/
theorem Lists.push (h : Lists mem heads (Function.update objects p (some (.free i))) nodes)
    (hp : p ≠ 0) (hlink : load32 mem p = heads i) :
    Lists mem (Function.update heads i p) (Function.update objects p (some (.free i)))
      (Function.update nodes i (p :: nodes i)) := by
  intro j
  by_cases hj : j = i
  · subst hj
    obtain ⟨hchain, hnodes⟩ := h j
    rw [Function.update_self, Function.update_self]
    refine ⟨hchain.push hp hlink, fun n hn => ?_⟩
    rcases List.mem_cons.mp hn with rfl | hn
    · exact Function.update_self ..
    · exact hnodes n hn
  · rw [Function.update_of_ne hj, Function.update_of_ne hj]
    exact h j

/-- The first node of list `i` is taken off and gets another tag. -/
theorem Lists.pop {rest : List UInt32} (h : Lists mem heads objects nodes)
    (hnodes : nodes i = p :: rest) (new : Option Tag) :
    Lists mem (Function.update heads i (load32 mem p)) (Function.update objects p new)
      (Function.update nodes i rest) := by
  have hfirst := h i
  rw [hnodes] at hfirst
  obtain ⟨hchain, hfree⟩ := hfirst
  have hp := hfree p List.mem_cons_self
  intro j
  by_cases hj : j = i
  · subst hj
    rw [Function.update_self, Function.update_self]
    refine ⟨hchain.2.2, fun n hn => ?_⟩
    have hne : n ≠ p := fun heq => (List.nodup_cons.mp hchain.nodup).1 (heq ▸ hn)
    rw [Function.update_of_ne hne]
    exact hfree n (List.mem_cons_of_mem _ hn)
  · rw [Function.update_of_ne hj, Function.update_of_ne hj]
    obtain ⟨hchain', hfree'⟩ := h j
    refine ⟨hchain', fun n hn => ?_⟩
    have hne : n ≠ p := by
      rintro rfl
      exact hj (Tag.free.inj (Option.some.inj ((hfree' n hn).symm.trans hp)))
    rw [Function.update_of_ne hne]
    exact hfree' n hn

/-- The nodes of a list are links of valid objects, or the list ends. -/
theorem Lists.exists_cons (h : Lists mem heads objects nodes) (hne : heads i ≠ 0) :
    ∃ rest, nodes i = heads i :: rest ∧ objects (heads i) = some (.free i) := by
  obtain ⟨hchain, hfree⟩ := h i
  obtain ⟨rest, hnodes, _⟩ := hchain.exists_cons hne
  exact ⟨rest, hnodes, hfree _ (hnodes ▸ List.mem_cons_self)⟩

theorem Lists.head_mod (h : Lists mem heads objects nodes) (hobj : Objects mem objects top)
    (i : Fin NUM_SLABS) : (heads i).toNat % 8 = 0 := by
  by_cases hnull : heads i = 0
  · rw [hnull]
    rfl
  · obtain ⟨_, _, hfree⟩ := h.exists_cons hnull
    exact hobj.aligned _ _ hfree

/-! ### Threading new objects -/

/-- The objects that the threading loop puts onto the list, the last one first. -/
def slabNodes (obj : UInt32) : ℕ → UInt32 → List UInt32
  | 0, _ => []
  | n + 1, ptr => slabNodes obj n (ptr + obj) ++ [ptr]

theorem threadObjects_holds (n : ℕ) {ptr : UInt32} (hobj : Objects mem objects ptr.toNat)
    (hlists : Lists mem heads objects nodes) (hptr : ptr.toNat % 8 = 0)
    (hroom : ptr.toNat + n * (slabSize i).toNat < 2 ^ 32) :
    ∃ objects',
      Objects (threadObjects (slabSize i) n mem ptr (heads i)).1 objects'
        (ptr.toNat + n * (slabSize i).toNat) ∧
      Lists (threadObjects (slabSize i) n mem ptr (heads i)).1
        (Function.update heads i (threadObjects (slabSize i) n mem ptr (heads i)).2) objects'
        (Function.update nodes i (slabNodes (slabSize i) n ptr ++ nodes i)) ∧
      ∀ q u, objects q = some u → objects' q = some u := by
  induction n generalizing mem objects heads nodes ptr with
  | zero =>
      refine ⟨objects, by rwa [Nat.zero_mul, Nat.add_zero], ?_, fun _ _ hu => hu⟩
      show Lists mem (Function.update heads i (heads i)) objects
        (Function.update nodes i (nodes i))
      rw [Function.update_eq_self, Function.update_eq_self]
      exact hlists
  | succ n ih =>
      have hsize := slabSize_bounds i
      have hbase := hobj.base_le
      rw [heapBase_toNat] at hbase
      rw [Nat.succ_mul] at hroom
      have hnext : (ptr + slabSize i).toNat = ptr.toNat + (slabSize i).toNat := by
        rw [UInt32.toNat_add]
        omega
      have hagree : AgreeOutside (Tag.span ptr (.free i)) mem (store32 mem ptr (heads i)) :=
        (store32_agree mem (heads i) (by omega)).mono ⟨le_rfl, by
          show ptr.toNat + 4 ≤ ptr.toNat + (slabSize i).toNat
          omega⟩
      have hlink : load32 (store32 mem ptr (heads i)) ptr = heads i := load32_store32 mem ptr _
      have hvalid : (Tag.free i).Valid (store32 mem ptr (heads i)) ptr := by
        show (load32 (store32 mem ptr (heads i)) ptr).toNat % 8 = 0
        rw [hlink]
        exact hlists.head_mod hobj i
      have hend : (Tag.span ptr (.free i)).start + (Tag.span ptr (.free i)).len ≤
          (ptr + slabSize i).toNat := hnext.ge
      have hobj' := hobj.place le_rfl hend (ptr + slabSize i).toNat_lt hptr hvalid hagree
      have hold : ∀ q u, objects q = some u →
          Function.update objects ptr (some (.free i)) q = some u := by
        intro q u hu
        have hne : q ≠ ptr := by
          rintro rfl
          exact absurd (hobj.lt_top hu).2 (Nat.lt_irrefl _)
        exact (Function.update_of_ne hne _ _).trans hu
      have hlists' := Lists.push (p := ptr) (i := i) (hlists.congr fun m j hm =>
        ⟨hobj.guard_eq hagree hm (.inl (hobj.bounds hm).2) rfl, hold m _ hm⟩)
        (fun h0 => by rw [h0] at hbase; exact absurd hbase (by decide)) hlink
      obtain ⟨objects', h1, h2, h3⟩ := ih hobj' hlists' (by omega) (by omega)
      rw [Function.update_self, Function.update_idem, Function.update_self, Function.update_idem]
        at h2
      rw [Function.update_self] at h1
      refine ⟨objects', ?_, ?_, fun q u hu => h3 q u (hold q u hu)⟩
      · rw [Nat.succ_mul, Nat.add_comm (n * _), ← Nat.add_assoc, ← hnext]
        exact h1
      · show Lists _ _ objects' (Function.update nodes i
          ((slabNodes (slabSize i) n (ptr + slabSize i) ++ [ptr]) ++ nodes i))
        rw [List.append_assoc]
        exact h2

end

end LunaOs
