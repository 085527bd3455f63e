import LunaOs.FrameOwners
import LunaOs.HeapPages
import LunaOs.VmmTables

/-! # The processes are isolated

In this kernel pages are mapped in two places only: `heap_alloc_pages` maps the heap in the kernel directory,
and `process_spawn_ring3` maps the user stack in the directory it has just made.  So in every run, a process
of ring 3 gets at exactly the sixteen pages of its own stack.  Their frames are its own: none of them is clear
or in a surface, holds a directory or a page table, lies under the heap or under a kernel stack, or belongs to
another process.

A `Layout` records what each frame is used for.  It is not part of the kernel: it exists for the proof, and
every call moves it on. -/

namespace LunaOs

open Runs

/-- The calls that the kernel makes; no code outside `vmm.c`, `heap.c` and `process.c` maps a page. -/
def KernelOp.IsCalled : KernelOp → Prop
  | .createUserPd => False
  | .mapPage _ _ _ _ => False
  | .unmapPage _ _ => False
  | _ => True

/-- `process_spawn_ring3` made this process. -/
def Process.Spawned (p : Process) : Prop := p.userStack = USTACK_VIRT

/-- The sixteen pages below `USTACK_VIRT`. -/
def OnUserStack (vaddr : UInt32) : Prop := USTACK_VIRT - PROCESS_STACK_SIZE ≤ vaddr ∧ vaddr < USTACK_VIRT

/-- What a frame is used for; `userStack d` is the stack mapped in directory `d`. -/
inductive Holder where
  | table
  | heap
  | kernelStack
  | userStack (d : ℕ)

/-- Who holds each frame, and what for. -/
structure Layout where
  dirs : List UInt32
  spaces : PageSpaces
  holder : ℕ → Option Holder
  /-- The first frame of the user stack of a directory. -/
  stack : ℕ → ℕ
  /-- How many pages of that stack are mapped. -/
  mapped : ℕ → ℕ

def Layout.tables (L : Layout) : Set Frame := {n | L.holder n = some .table}

/-- The page table entries of a user stack from frame `start` on, of which `n` pages are mapped: its first page
is page 1007 of table 767. -/
def stackPage (start n : ℕ) (i k : Fin 1024) : Option UInt32 :=
  if i.val = 767 ∧ 1007 ≤ k.val ∧ k.val < 1007 + n then
    some (pteWord (frameAddr (start + (k.val - 1007))) 0x007)
  else none

theorem stackPage_succ (start n : ℕ) (i k : Fin 1024) :
    stackPage start (n + 1) i k = if i.val = 767 ∧ k.val = 1007 + n then
      some (pteWord (frameAddr (start + n)) 0x007)
    else stackPage start n i k := by
  unfold stackPage
  by_cases hlast : i.val = 767 ∧ k.val = 1007 + n
  · rw [if_pos hlast, if_pos ⟨hlast.1, by omega, by omega⟩, hlast.2, Nat.add_sub_cancel_left]
  · have hiff : (i.val = 767 ∧ 1007 ≤ k.val ∧ k.val < 1007 + (n + 1)) ↔
        (i.val = 767 ∧ 1007 ≤ k.val ∧ k.val < 1007 + n) := by omega
    rw [if_neg hlast]
    simp only [hiff]

/-- The page tables are as the layout says. -/
structure Layout.Holds (L : Layout) (s : Vmm) : Prop where
  rep : RepresentsIn s L.dirs L.spaces L.tables
  used : ∀ f, L.holder f ≠ none → f ∉ s.pmm.clearFrames
  heap_page : ∀ i k w, L.spaces.page 0 i k = some w →
    ∃ f < FRAMES_TOTAL, L.holder f = some .heap ∧ w = pteWord (frameAddr f) 0x003
  heap_inj : ∀ i k i' k' w, L.spaces.page 0 i k = some w → L.spaces.page 0 i' k' = some w → i = i' ∧ k = k'
  heap_linked : ∀ i u, L.spaces.linked 0 i = some u → u &&& PAGE_USER = 0
  user_page : ∀ d ≠ 0, ∀ i k, L.spaces.page d i k = stackPage (L.stack d) (L.mapped d) i k
  user_linked : ∀ d ≠ 0, ∀ i u, L.spaces.linked d i = some u → i.val = 767 ∧ u &&& PAGE_USER ≠ 0
  user_stack : ∀ d ≠ 0, ∀ j < L.mapped d,
    L.holder (L.stack d + j) = some (.userStack d) ∧ L.stack d + j < FRAMES_TOTAL

/-- A later layout: what was held stays, and what is new was clear. -/
structure Layout.Extends (L L' : Layout) (p p' : Pmm) : Prop where
  shrinks : p.Shrinks p'
  fresh : ∀ f, L'.holder f = L.holder f ∨ f ∈ p.clearFrames ∧ f ∉ p'.clearFrames
  held : ∀ f h, L.holder f = some h → L'.holder f = some h
  dirs : ∀ (d : ℕ) (pd : UInt32), L.dirs[d]? = some pd → L'.dirs[d]? = some pd
  complete : ∀ d, L.mapped d = 16 → L'.mapped d = 16 ∧ L'.stack d = L.stack d

section
variable {L L' L'' : Layout} {p p' p'' : Pmm} {s s' : Vmm}

theorem Layout.Extends.refl (L : Layout) {p p' : Pmm} (h : p.Shrinks p') : L.Extends L p p' where
  shrinks := h
  fresh := fun _ => .inl rfl
  held := fun _ _ hf => hf
  dirs := fun _ _ hd => hd
  complete := fun _ hd => ⟨hd, rfl⟩

theorem Layout.Extends.trans (h : L.Extends L' p p') (h' : L'.Extends L'' p' p'') : L.Extends L'' p p'' where
  shrinks := h.shrinks.trans h'.shrinks
  fresh := fun f => by
    rcases h'.fresh f with heq | ⟨hmem, hnot⟩
    · rcases h.fresh f with heq' | ⟨hmem, hnot⟩
      · exact .inl (heq.trans heq')
      · exact .inr ⟨hmem, fun hlast => hnot (h'.shrinks hlast)⟩
    · exact .inr ⟨h.shrinks hmem, hnot⟩
  held := fun f hd hf => h'.held f hd (h.held f hd hf)
  dirs := fun d pd hd => h'.dirs d pd (h.dirs d pd hd)
  complete := fun d hd => by
    obtain ⟨h16, hstack⟩ := h.complete d hd
    obtain ⟨h16', hstack'⟩ := h'.complete d h16
    exact ⟨h16', hstack'.trans hstack⟩

theorem Layout.Holds.tables_used (h : L.Holds s) : L.tables ⊆ inUse s.pmm :=
  fun n hn => h.used n (by
    rw [show L.holder n = some .table from hn]
    exact Option.some_ne_none _)

theorem Layout.Holds.represents (h : L.Holds s) : Represents s L.dirs L.spaces := h.rep.represents h.tables_used

theorem Layout.Holds.mapped_count (h : L.Holds s) : L.mapped L.spaces.count = 0 := by
  have hrep := h.represents
  have hpos := hrep.count_pos
  have hlink : L.spaces.linked L.spaces.count ⟨767, by decide⟩ = none := by
    by_contra hsome
    exact Nat.lt_irrefl _ (hrep.linked_owner hsome).1
  have hpage := hrep.page_linked hlink ⟨1007, by decide⟩
  rw [h.user_page _ (by omega)] at hpage
  unfold stackPage at hpage
  by_contra hne
  rw [if_pos ⟨rfl, le_refl _, by dsimp only; omega⟩] at hpage
  cases hpage

/-! ### Taking frames -/

/-- The frames `S` get a use. -/
def Layout.give (L : Layout) (S : Finset ℕ) (h : Holder) : Layout :=
  { L with holder := fun f => if f ∈ S then some h else L.holder f }

theorem Layout.give_holder (L : Layout) (S : Finset ℕ) (h : Holder) (f : ℕ) :
    (L.give S h).holder f = if f ∈ S then some h else L.holder f := rfl

theorem Layout.tables_give (L : Layout) (n : Frame) : (L.give {(n : ℕ)} .table).tables = insert n L.tables := by
  ext m
  show (L.give {(n : ℕ)} .table).holder m = some .table ↔ m = n ∨ L.holder m = some .table
  rw [Layout.give_holder]
  by_cases hm : m = n
  · rw [hm, if_pos (Finset.mem_singleton_self _)]
    exact iff_of_true rfl (.inl rfl)
  · rw [if_neg fun hmem => hm (Fin.ext (Finset.mem_singleton.mp hmem))]
    exact (or_iff_right hm).symm

theorem Layout.Holds.holder_eq_none (h : L.Holds s) {f : ℕ} (hf : f ∈ s.pmm.clearFrames) : L.holder f = none := by
  by_contra hne
  exact h.used f hne hf

theorem Layout.Holds.give_held (h : L.Holds s) {S : Finset ℕ} (hS : S ⊆ s.pmm.clearFrames) (hd : Holder)
    {f : ℕ} {hd' : Holder} (hf : L.holder f = some hd') : (L.give S hd).holder f = some hd' := by
  rw [Layout.give_holder, if_neg, hf]
  intro hmem
  rw [h.holder_eq_none (hS hmem)] at hf
  cases hf

theorem Layout.Holds.give_extends (h : L.Holds s) {S : Finset ℕ} {pmm : Pmm} (hS : S ⊆ s.pmm.clearFrames)
    (hshrinks : s.pmm.Shrinks pmm) (hgone : ∀ f ∈ S, f ∉ pmm.clearFrames) (hd : Holder) :
    L.Extends (L.give S hd) s.pmm pmm where
  shrinks := hshrinks
  fresh := fun f => by
    rw [Layout.give_holder]
    split_ifs with hf
    · exact .inr ⟨hS hf, hgone f hf⟩
    · exact .inl rfl
  held := fun f hd' hf => h.give_held hS hd hf
  dirs := fun _ _ hpd => hpd
  complete := fun _ h16 => ⟨h16, rfl⟩

theorem Layout.Holds.give (h : L.Holds s) {S : Finset ℕ} {pmm : Pmm} (hS : S ⊆ s.pmm.clearFrames)
    (hshrinks : s.pmm.Shrinks pmm) (hgone : ∀ f ∈ S, f ∉ pmm.clearFrames) (hd : Holder) (hne : hd ≠ .table) :
    (L.give S hd).Holds { s with pmm } where
  rep := by
    have htables : (L.give S hd).tables = L.tables := by
      ext n
      show (L.give S hd).holder n = some .table ↔ L.holder n = some .table
      constructor
      · intro hn
        rw [Layout.give_holder] at hn
        split_ifs at hn with hmem
        · exact absurd (Option.some.inj hn) hne
        · exact hn
      · exact h.give_held hS hd
    rw [htables]
    exact h.rep
  used := fun f hf hmem => by
    rw [Layout.give_holder] at hf
    split_ifs at hf with hfS
    · exact hgone f hfS hmem
    · exact h.used f hf (hshrinks hmem)
  heap_page := fun i k w hw => by
    obtain ⟨f, hlt, hf, rfl⟩ := h.heap_page i k w hw
    exact ⟨f, hlt, h.give_held hS hd hf, rfl⟩
  heap_inj := h.heap_inj
  heap_linked := h.heap_linked
  user_page := h.user_page
  user_linked := h.user_linked
  user_stack := fun d hd0 j hj => by
    obtain ⟨hf, hlt⟩ := h.user_stack d hd0 j hj
    exact ⟨h.give_held hS hd hf, hlt⟩

theorem Layout.Holds.congr (h : L.Holds s) (hkernel : s'.kernelPd = s.kernelPd)
    (hwords : ∀ n ∈ L.tables, words s'.mem n = words s.mem n)
    (hused : ∀ f, L.holder f ≠ none → f ∉ s'.pmm.clearFrames) : L.Holds s' :=
  { h with
    rep := h.rep.congr hkernel hwords
    used := hused }

/-! ### Mapping a page -/

theorem Layout.Holds.mapTable (h : L.Holds s) {d : ℕ} {pd : UInt32} (hd : L.dirs[d]? = some pd)
    {vaddr paddr flags : UInt32} (hok : vmmMapPage s pd vaddr paddr flags = .ok s') :
    ∃ holder : ℕ → Option Holder,
      RepresentsIn s' L.dirs (spaceMap L.spaces d vaddr paddr flags) {n | holder n = some .table} ∧
      (∀ f, holder f ≠ none → f ∉ s'.pmm.clearFrames) ∧
      (∀ f hd, L.holder f = some hd → holder f = some hd) ∧
      ∀ f, holder f = L.holder f ∨ f ∈ s.pmm.clearFrames ∧ f ∉ s'.pmm.clearFrames := by
  have hshrinks := (vmmMapPage_keeps hok).shrinks
  rcases h.rep.mapPage h.tables_used hd hok with ⟨_, hrep⟩ | ⟨n, hn, hclear, hrep⟩
  · exact ⟨L.holder, hrep, fun f hf hmem => h.used f hf (hshrinks hmem), fun _ _ hf => hf, fun _ => .inl rfl⟩
  · have hS : ({(n : ℕ)} : Finset ℕ) ⊆ s.pmm.clearFrames := Finset.singleton_subset_iff.mpr hn
    have hgone : ∀ f ∈ ({(n : ℕ)} : Finset ℕ), f ∉ s'.pmm.clearFrames := by
      intro f hf
      rw [Finset.mem_singleton.mp hf, hclear]
      exact Finset.notMem_erase _ _
    have hextends := h.give_extends hS hshrinks hgone .table
    refine ⟨(L.give {(n : ℕ)} .table).holder, ?_, ?_, hextends.held, hextends.fresh⟩
    · rw [← L.tables_give n] at hrep
      exact hrep
    · intro f hf
      rw [Layout.give_holder] at hf
      split_ifs at hf with hfS
      · exact hgone f hfS
      · exact fun hmem => h.used f hf (hshrinks hmem)

theorem pteWord_frame_inj {f g : ℕ} (hf : f < FRAMES_TOTAL) (hg : g < FRAMES_TOTAL) {flags flags' : UInt32}
    (hflags : flags < 0x1000) (hflags' : flags' < 0x1000)
    (h : pteWord (frameAddr f) flags = pteWord (frameAddr g) flags') : f = g := by
  have hmask := congrArg (· &&& ~~~0xFFF) h
  rw [pteWord_mask hflags, pteWord_mask hflags'] at hmask
  have hnat := congrArg UInt32.toNat hmask
  rw [toNat_and_page_mask, toNat_and_page_mask, frameAddr_toNat hf, frameAddr_toNat hg] at hnat
  omega

theorem Layout.Holds.mapHeap (h : L.Holds s) {vaddr : UInt32} {g : ℕ} (hg : L.holder g = some .heap)
    (hlt : g < FRAMES_TOTAL) (hnew : ∀ i k, L.spaces.page 0 i k ≠ some (pteWord (frameAddr g) 0x003))
    (hok : vmmMapPage s s.kernelPd vaddr (frameAddr g) 0x003 = .ok s') :
    ∃ L' : Layout, L'.Holds s' ∧ L.Extends L' s.pmm s'.pmm := by
  obtain ⟨holder, hrep, hused, hheld, hfresh⟩ := h.mapTable h.represents.kernel_dir hok
  have howner : L.spaces.owner 0 (dirIx vaddr) = 0 := h.represents.owner_zero _
  have hpage := spaceMap_page L.spaces 0 vaddr (frameAddr g) 0x003
  have hlinked := spaceMap_linked L.spaces 0 vaddr (frameAddr g) 0x003
  rw [howner] at hpage hlinked
  refine ⟨{ L with spaces := spaceMap L.spaces 0 vaddr (frameAddr g) 0x003, holder }, ?_,
    ⟨(vmmMapPage_keeps hok).shrinks, hfresh, hheld, fun _ _ hd => hd, fun _ h16 => ⟨h16, rfl⟩⟩⟩
  constructor
  case rep => exact hrep
  case used => exact hused
  case heap_page =>
    intro i k w hw
    dsimp only at hw
    rw [hpage] at hw
    split_ifs at hw
    · exact ⟨g, hlt, hheld g _ hg, (Option.some.inj hw).symm⟩
    · obtain ⟨f, hf, hholder, rfl⟩ := h.heap_page i k w hw
      exact ⟨f, hf, hheld f _ hholder, rfl⟩
  case heap_inj =>
    intro i k i' k' w hw hw'
    dsimp only at hw hw'
    rw [hpage] at hw hw'
    split_ifs at hw hw' with hhit hhit'
    · exact ⟨hhit.2.1.trans hhit'.2.1.symm, hhit.2.2.trans hhit'.2.2.symm⟩
    · exact absurd (hw'.trans hw.symm) (hnew i' k')
    · exact absurd (hw.trans hw'.symm) (hnew i k)
    · exact h.heap_inj i k i' k' w hw hw'
  case heap_linked =>
    intro i u hu
    dsimp only at hu
    rw [hlinked] at hu
    split_ifs at hu with hhit
    · obtain rfl := Option.some.inj hu
      cases hold : L.spaces.linked 0 i with
      | none => exact (by decide : pdeBits 0x003 &&& PAGE_USER = 0)
      | some u => exact h.heap_linked i u hold
    · exact h.heap_linked i u hu
  case user_page =>
    intro d hd i k
    dsimp only
    rw [hpage, if_neg fun hhit => hd hhit.1]
    exact h.user_page d hd i k
  case user_linked =>
    intro d hd i u hu
    dsimp only at hu
    rw [hlinked, if_neg fun hhit => hd hhit.1] at hu
    exact h.user_linked d hd i u hu
  case user_stack =>
    intro d hd j hj
    obtain ⟨hf, hflt⟩ := h.user_stack d hd j hj
    exact ⟨hheld _ _ hf, hflt⟩

/-- **The growth of the heap**, page by page. -/
theorem Layout.Holds.heapAllocPages (h : L.Holds s) {n : ℕ} {cursor cursor' : UInt32}
    (hok : heapAllocPages n s cursor = .ok (s', cursor')) :
    ∃ L' : Layout, L'.Holds s' ∧ L.Extends L' s.pmm s'.pmm := by
  induction n generalizing s L cursor with
  | zero =>
      obtain ⟨rfl, _⟩ := Prod.mk.inj (Except.ok.inj hok)
      exact ⟨L, h, Layout.Extends.refl L (Pmm.Shrinks.refl _)⟩
  | succ n ih =>
      obtain ⟨⟨phys, pmm⟩, halloc, hpage⟩ := bind_eq_ok hok
      dsimp only at hpage
      obtain ⟨s₁, hmap, hrest⟩ := bind_eq_ok hpage
      obtain ⟨f, hf, rfl, hclear⟩ := pmmAllocFrame_frame halloc
      have hS : ({(f : ℕ)} : Finset ℕ) ⊆ s.pmm.clearFrames := Finset.singleton_subset_iff.mpr hf
      have hgone : ∀ g ∈ ({(f : ℕ)} : Finset ℕ), g ∉ pmm.clearFrames := by
        intro g hg
        rw [Finset.mem_singleton.mp hg, hclear]
        exact Finset.notMem_erase _ _
      have hshrinks := pmmAllocFrame_shrinks halloc
      have hgive := h.give hS hshrinks hgone .heap (by simp)
      have hholder : (L.give {(f : ℕ)} .heap).holder f = some .heap := if_pos (Finset.mem_singleton_self _)
      have hnew : ∀ i k, (L.give {(f : ℕ)} .heap).spaces.page 0 i k ≠ some (pteWord (frameAddr f) 0x003) := by
        intro i k hw
        obtain ⟨g, hg, hheap, heq⟩ := h.heap_page i k _ hw
        obtain rfl := pteWord_frame_inj f.isLt hg (by decide) (by decide) heq
        rw [h.holder_eq_none hf] at hheap
        cases hheap
      obtain ⟨L₁, h₁, hext⟩ := hgive.mapHeap hholder f.isLt hnew hmap
      obtain ⟨L', h', hext'⟩ := ih h₁ hrest
      exact ⟨L', h', (h.give_extends hS hshrinks hgone .heap).trans (hext.trans hext')⟩

/-! ### Spawning a process -/

theorem stackPage_ix {i : ℕ} (hi : i < 16) :
    (dirIx (USTACK_VIRT - PROCESS_STACK_SIZE + UInt32.ofNat i * 4096)).val = 767 ∧
      (tabIx (USTACK_VIRT - PROCESS_STACK_SIZE + UInt32.ofNat i * 4096)).val = 1007 + i := by
  have hlow : (USTACK_VIRT - PROCESS_STACK_SIZE).toNat = 0xBFFEF000 := by decide
  have hpage : (4096 : UInt32).toNat = 4096 := rfl
  have hva : (USTACK_VIRT - PROCESS_STACK_SIZE + UInt32.ofNat i * 4096).toNat = 0xBFFEF000 + i * 4096 := by
    rw [UInt32.toNat_add, UInt32.toNat_mul, UInt32.toNat_ofNat', hlow, hpage]
    omega
  show (_ : UInt32).toNat / 2 ^ 22 = 767 ∧ (_ : UInt32).toNat / 4096 % 1024 = 1007 + i
  rw [hva]
  omega

theorem Layout.Holds.mapStackPage (h : L.Holds s) {d i : ℕ} {pd : UInt32} (hd : d ≠ 0)
    (hpd : L.dirs[d]? = some pd) (hi : i < 16) (hmapped : L.mapped d = i)
    (hholder : L.holder (L.stack d + i) = some (.userStack d)) (hlt : L.stack d + i < FRAMES_TOTAL)
    (hok : mapStackPage pd (frameAddr (L.stack d)) s i = .ok s') :
    ∃ L' : Layout, L'.Holds s' ∧ L.Extends L' s.pmm s'.pmm ∧ L'.mapped = Function.update L.mapped d (i + 1) ∧
      L'.stack = L.stack := by
  unfold LunaOs.mapStackPage at hok
  obtain ⟨hdirIx, htabIx⟩ := stackPage_ix hi
  set va := USTACK_VIRT - PROCESS_STACK_SIZE + UInt32.ofNat i * 4096 with hva
  rw [frameAddr_add hlt] at hok
  obtain ⟨holder, hrep, hused, hheld, hfresh⟩ := h.mapTable hpd hok
  have howner : L.spaces.owner d (dirIx va) = d := by
    refine h.represents.owner_of_user (h.represents.lt_count hpd) fun hhalf => ?_
    unfold KernelHalf at hhalf
    omega
  have hpage := spaceMap_page L.spaces d va (frameAddr (L.stack d + i)) 0x007
  have hlinked := spaceMap_linked L.spaces d va (frameAddr (L.stack d + i)) 0x007
  rw [howner] at hpage hlinked
  refine ⟨{ L with
    spaces := spaceMap L.spaces d va (frameAddr (L.stack d + i)) 0x007
    holder
    mapped := Function.update L.mapped d (i + 1) }, ?_,
    ⟨(vmmMapPage_keeps hok).shrinks, hfresh, hheld, fun _ _ hd => hd, fun d' h16 => ⟨?_, rfl⟩⟩, rfl, rfl⟩
  · constructor
    case rep => exact hrep
    case used => exact hused
    case heap_page =>
      intro j k w hw
      dsimp only at hw
      rw [hpage, if_neg fun hhit => hd hhit.1.symm] at hw
      obtain ⟨f, hf, hheap, rfl⟩ := h.heap_page j k w hw
      exact ⟨f, hf, hheld f _ hheap, rfl⟩
    case heap_inj =>
      intro j k j' k' w hw hw'
      dsimp only at hw hw'
      rw [hpage, if_neg fun hhit => hd hhit.1.symm] at hw hw'
      exact h.heap_inj j k j' k' w hw hw'
    case heap_linked =>
      intro j u hu
      dsimp only at hu
      rw [hlinked, if_neg fun hhit => hd hhit.1.symm] at hu
      exact h.heap_linked j u hu
    case user_page =>
      intro d' hd' j k
      dsimp only
      rw [hpage, h.user_page d' hd' j k]
      by_cases hdd : d' = d
      · rw [hdd, Function.update_self, stackPage_succ, hmapped]
        have hiff : (j = dirIx va ∧ k = tabIx va) ↔ (j.val = 767 ∧ k.val = 1007 + i) := by
          rw [Fin.ext_iff, Fin.ext_iff, hdirIx, htabIx]
        simp only [true_and, hiff]
      · rw [if_neg fun hc => hdd hc.1, Function.update_of_ne hdd]
    case user_linked =>
      intro d' hd' j u hu
      dsimp only at hu
      rw [hlinked] at hu
      split_ifs at hu with hhit
      · obtain rfl := Option.some.inj hu
        refine ⟨by rw [hhit.2]; exact hdirIx, ?_⟩
        cases hold : L.spaces.linked d' j with
        | none => exact (by decide : pdeBits 0x007 &&& PAGE_USER ≠ 0)
        | some u => exact (h.user_linked d' hd' j u hold).2
      · exact h.user_linked d' hd' j u hu
    case user_stack =>
      intro d' hd' j hj
      dsimp only at hj ⊢
      by_cases hdd : d' = d
      · subst hdd
        rw [Function.update_self] at hj
        rcases Nat.lt_or_ge j i with hold | hnew
        · obtain ⟨hf, hflt⟩ := h.user_stack d' hd' j (by omega)
          exact ⟨hheld _ _ hf, hflt⟩
        · obtain rfl : j = i := by omega
          exact ⟨hheld _ _ hholder, hlt⟩
      · rw [Function.update_of_ne hdd] at hj
        obtain ⟨hf, hflt⟩ := h.user_stack d' hd' j hj
        exact ⟨hheld _ _ hf, hflt⟩
  · dsimp only
    rw [Function.update_of_ne fun heq => by rw [heq] at h16; omega]
    exact h16

theorem Layout.Holds.mapStack (h : L.Holds s) {d : ℕ} {pd : UInt32} (hd : d ≠ 0) (hpd : L.dirs[d]? = some pd)
    {m i : ℕ} (hle : i + m ≤ 16) (hmapped : L.mapped d = i)
    (hholder : ∀ j < 16, L.holder (L.stack d + j) = some (.userStack d) ∧ L.stack d + j < FRAMES_TOTAL)
    (hok : (List.range' i m).foldlM (LunaOs.mapStackPage pd (frameAddr (L.stack d))) s = .ok s') :
    ∃ L' : Layout, L'.Holds s' ∧ L.Extends L' s.pmm s'.pmm ∧ L'.mapped d = i + m ∧ L'.stack d = L.stack d := by
  induction m generalizing s L i with
  | zero =>
      obtain rfl := Except.ok.inj hok
      exact ⟨L, h, Layout.Extends.refl L (Pmm.Shrinks.refl _), hmapped, rfl⟩
  | succ m ih =>
      obtain ⟨s₁, hmap, hrest⟩ := bind_eq_ok hok
      obtain ⟨hfirst, hlt⟩ := hholder i (by omega)
      obtain ⟨L₁, h₁, hext, hmapped₁, hstack₁⟩ := h.mapStackPage hd hpd (by omega) hmapped hfirst hlt hmap
      have hholder₁ : ∀ j < 16, L₁.holder (L₁.stack d + j) = some (.userStack d) ∧
          L₁.stack d + j < FRAMES_TOTAL := by
        intro j hj
        rw [hstack₁]
        exact ⟨hext.held _ _ (hholder j hj).1, (hholder j hj).2⟩
      have hmapped₁ : L₁.mapped d = i + 1 := by rw [hmapped₁, Function.update_self]
      rw [← hstack₁] at hrest
      obtain ⟨L', h', hext', hmapped', hstack'⟩ :=
        ih h₁ (hext.dirs d pd hpd) (by omega) hmapped₁ hholder₁ hrest
      exact ⟨L', h', hext.trans hext', by omega, by rw [hstack', hstack₁]⟩

/-- **`vmm_create_user_pd`**: the new directory maps nothing of its own. -/
theorem Layout.Holds.createUserPd (h : L.Holds s) {pd : UInt32} (hok : vmmCreateUserPd s = .ok (pd, s')) :
    ∃ L' : Layout, L'.Holds s' ∧ L.Extends L' s.pmm s'.pmm ∧ L'.dirs = L.dirs ++ [pd] ∧
      L'.mapped = L.mapped ∧ L'.stack = L.stack := by
  obtain ⟨n, hn, rfl, hclear, hrep⟩ := h.rep.createUserPd h.tables_used hok
  have hS : ({(n : ℕ)} : Finset ℕ) ⊆ s.pmm.clearFrames := Finset.singleton_subset_iff.mpr hn
  have hshrinks := (vmmCreateUserPd_keeps hok).shrinks
  have hgone : ∀ f ∈ ({(n : ℕ)} : Finset ℕ), f ∉ s'.pmm.clearFrames := by
    intro f hf
    rw [Finset.mem_singleton.mp hf, hclear]
    exact Finset.notMem_erase _ _
  have hext := h.give_extends hS hshrinks hgone .table
  rw [← L.tables_give n] at hrep
  refine ⟨{ L.give {(n : ℕ)} .table with
    dirs := L.dirs ++ [framePtr n]
    spaces := L.spaces.create KernelHalf }, ?_, ?_, rfl, rfl, rfl⟩
  · constructor
    case rep => exact hrep
    case used =>
      intro f hf
      rw [Layout.give_holder] at hf
      split_ifs at hf with hfS
      · exact hgone f hfS
      · exact fun hmem => h.used f hf (hshrinks hmem)
    case heap_page =>
      intro i k w hw
      obtain ⟨f, hf, hheap, rfl⟩ := h.heap_page i k w hw
      exact ⟨f, hf, hext.held f _ hheap, rfl⟩
    case heap_inj => exact h.heap_inj
    case heap_linked => exact h.heap_linked
    case user_page => exact h.user_page
    case user_linked => exact h.user_linked
    case user_stack =>
      intro d hd j hj
      obtain ⟨hf, hlt⟩ := h.user_stack d hd j hj
      exact ⟨hext.held _ _ hf, hlt⟩
  · refine ⟨hshrinks, hext.fresh, hext.held, fun d pd hd => ?_, hext.complete⟩
    have hlt : d < L.dirs.length := (List.getElem?_eq_some_iff.mp hd).1
    exact (List.getElem?_append_left hlt).trans hd

theorem push_words (n : Frame) (l : List UInt32) {mem : UInt32 → UInt32} {i : ℕ} (hi : i ≤ 1024)
    (hl : l.length ≤ i) {n' : Frame} (hne : n' ≠ n) :
    words (l.foldl (fun r w => push r.1 r.2 w) (mem, framePtr n + 4 * UInt32.ofNat i)).1 n' = words mem n' := by
  induction l generalizing mem i with
  | nil => rfl
  | cons w l ih =>
      obtain ⟨i, rfl⟩ : ∃ j, i = j + 1 := ⟨i - 1, by rw [List.length_cons] at hl; omega⟩
      rw [List.length_cons] at hl
      have hsp : framePtr n + 4 * UInt32.ofNat (i + 1) - 4 = wordPtr (framePtr n) (UInt32.ofNat i) := by
        have hadd : UInt32.ofNat (i + 1) = UInt32.ofNat i + 1 := UInt32.ofNat_add i 1
        unfold wordPtr
        rw [hadd]
        grind
      have hput := words_update mem n ⟨i, by omega⟩ w
      rw [List.foldl_cons]
      unfold push
      dsimp only
      rw [hsp]
      refine (ih (by omega) (by omega)).trans ?_
      dsimp only at hput
      rw [hput]
      exact Function.update_of_ne hne _ _

/-- The four frames below `top`, reached through the direct map, hold a kernel stack. -/
def Layout.KernelStackAt (L : Layout) (top : UInt32) : Prop :=
  ∃ g, g + 4 ≤ FRAMES_TOTAL ∧ top = frameAddr g + 0xC0000000 + 4 * 4096 ∧
    ∀ j < 4, L.holder (g + j) = some .kernelStack

theorem Layout.Extends.kernelStackAt (h : L.Extends L' p p') {top : UInt32} (ht : L.KernelStackAt top) :
    L'.KernelStackAt top := by
  obtain ⟨g, hle, htop, hholder⟩ := ht
  exact ⟨g, hle, htop, fun j hj => h.held _ _ (hholder j hj)⟩

/-- The run of frames that `pmm_alloc_frames` takes, as a set. -/
theorem allocFrames_run {phys n : UInt32} (h : pmmAllocFrames p n = .ok (phys, p')) :
    ∃ (start : ℕ) (S : Finset ℕ), start + n.toNat ≤ FRAMES_TOTAL ∧ phys = frameAddr start ∧
      (∀ f, f ∈ S ↔ start ≤ f ∧ f < start + n.toNat) ∧ S ⊆ p.clearFrames ∧ ∀ f ∈ S, f ∉ p'.clearFrames := by
  obtain ⟨start, hle, _, rfl, hmem, hclear, _⟩ := PmmClient.allocFrames_ok h
  have hrun : ∀ f, f ∈ (List.range' start n.toNat).toFinset ↔ start ≤ f ∧ f < start + n.toNat := by
    intro f
    rw [List.mem_toFinset, List.mem_range'_1]
  refine ⟨start, _, hle, rfl, hrun, fun f hf => ?_, fun f hf => ?_⟩
  · obtain ⟨h1, h2⟩ := (hrun f).mp hf
    exact hmem f h1 h2
  · rw [hclear, Finset.mem_sdiff]
    exact fun hc => hc.2 hf

/-- **A kernel stack** takes four frames. -/
theorem Layout.Holds.allocKernelStack (h : L.Holds s) {phys : UInt32} (hok : allocKernelStack s = .ok (phys, s')) :
    ∃ L' : Layout, L'.Holds s' ∧ L.Extends L' s.pmm s'.pmm ∧ L'.dirs = L.dirs ∧ L'.spaces = L.spaces ∧
      L'.mapped = L.mapped ∧ L'.KernelStackAt (phys + 0xC0000000 + 4 * 4096) := by
  obtain ⟨pmm, halloc, rfl⟩ := allocKernelStack_ok hok
  obtain ⟨g, S, hle, rfl, hrun, hS, hgone⟩ := allocFrames_run halloc
  have hshrinks := PmmClient.allocFrames_shrinks halloc
  refine ⟨_, h.give hS hshrinks hgone .kernelStack (by simp), h.give_extends hS hshrinks hgone .kernelStack,
    rfl, rfl, rfl, g, hle, rfl, fun j hj => if_pos ?_⟩
  exact (hrun _).mpr ⟨by omega, Nat.add_lt_add_left hj g⟩

/-- The stack of directory `d` starts at frame `u`. -/
def Layout.setStack (L : Layout) (d u : ℕ) : Layout := { L with stack := Function.update L.stack d u }

theorem Layout.setStack_stack (L : Layout) (d u : ℕ) : (L.setStack d u).stack d = u :=
  Function.update_self _ _ _

/-- Where the stack of a directory will be is free to choose until its first page is mapped. -/
theorem Layout.Holds.setStack (h : L.Holds s) {d : ℕ} (hmapped : L.mapped d = 0) (u : ℕ) :
    (L.setStack d u).Holds s := by
  unfold Layout.setStack
  refine { h with user_page := fun d' hd' i k => ?_, user_stack := fun d' hd' j hj => ?_ }
  · rw [h.user_page d' hd' i k]
    by_cases hdd : d' = d
    · have hnone : ∀ start, stackPage start (L.mapped d') i k = none := by
        intro start
        unfold stackPage
        rw [hdd, hmapped]
        exact if_neg (by omega)
      rw [hnone, hnone]
    · dsimp only
      rw [Function.update_of_ne hdd]
  · dsimp only at hj ⊢
    by_cases hdd : d' = d
    · rw [hdd, hmapped] at hj
      exact absurd hj (Nat.not_lt_zero j)
    · rw [Function.update_of_ne hdd]
      exact h.user_stack d' hd' j hj

/-- **The frames of a user stack**, before they are mapped. -/
theorem Layout.Holds.allocStack (h : L.Holds s) {d : ℕ} (hmapped : L.mapped d = 0) {phys : UInt32} {pmm : Pmm}
    (hok : pmmAllocFrames s.pmm (PROCESS_STACK_SIZE / 4096) = .ok (phys, pmm)) :
    ∃ L' : Layout, L'.Holds { s with pmm } ∧ L.Extends L' s.pmm pmm ∧ L'.dirs = L.dirs ∧ L'.mapped = L.mapped ∧
      phys = frameAddr (L'.stack d) ∧
      ∀ j < 16, L'.holder (L'.stack d + j) = some (.userStack d) ∧ L'.stack d + j < FRAMES_TOTAL := by
  obtain ⟨u, S, hle, rfl, hrun, hS, hgone⟩ := allocFrames_run hok
  have hpages : (PROCESS_STACK_SIZE / 4096).toNat = 16 := by decide
  rw [hpages] at hle hrun
  have hshrinks := PmmClient.allocFrames_shrinks hok
  have hgive := h.give hS hshrinks hgone (.userStack d) (by simp)
  have hext := h.give_extends hS hshrinks hgone (.userStack d)
  have hstack := (L.give S (.userStack d)).setStack_stack d u
  have hcomplete : ∀ d', L.mapped d' = 16 →
      L.mapped d' = 16 ∧ (Function.update L.stack d u) d' = L.stack d' := by
    intro d' h16
    refine ⟨h16, Function.update_of_ne (fun heq => ?_) _ _⟩
    rw [heq, hmapped] at h16
    cases h16
  refine ⟨(L.give S (.userStack d)).setStack d u, hgive.setStack hmapped u,
    ⟨hshrinks, hext.fresh, hext.held, hext.dirs, hcomplete⟩, rfl, rfl, by rw [hstack], fun j hj => ?_⟩
  rw [hstack]
  exact ⟨if_pos ((hrun _).mpr ⟨by omega, by omega⟩), by omega⟩

/-- The steps of `process_spawn_ring3`, and the fields of the process that are about memory. -/
theorem processSpawnRing3_made {m m' : ProcessManager} {name : CString} {entry : UInt32} {i : Fin MAX_PROCESSES}
    (h : processSpawnRing3 m name entry = .ok (i, m')) :
    ∃ pd vmm₁ kstackPhys vmm₂ ustackPhys pmm vmm₃,
      vmmCreateUserPd m.vmm = .ok (pd, vmm₁) ∧ allocKernelStack vmm₁ = .ok (kstackPhys, vmm₂) ∧
      pmmAllocFrames vmm₂.pmm (PROCESS_STACK_SIZE / 4096) = .ok (ustackPhys, pmm) ∧
      (List.range (PROCESS_STACK_SIZE / 4096).toNat).foldlM (mapStackPage pd ustackPhys) { vmm₂ with pmm } =
        .ok vmm₃ ∧
      m'.vmm = { vmm₃ with mem := ((firstFrame entry).foldl (fun r w => push r.1 r.2 w)
        (vmm₃.mem, kstackPhys + 0xC0000000 + 4 * 4096)).1 } ∧
      (∀ q, q ≠ i → m'.processTable q = m.processTable q) ∧ (m'.processTable i).pageDir = pd ∧
      (m'.processTable i).kernelStack = kstackPhys + 0xC0000000 + 4 * 4096 := by
  obtain ⟨slot, hslot, h⟩ := bind_eq_ok h
  obtain ⟨⟨pd, vmm₁⟩, hdir, h⟩ := bind_eq_ok h
  obtain ⟨⟨kstackPhys, vmm₂⟩, hstack, h⟩ := bind_eq_ok h
  obtain ⟨⟨ustackPhys, pmm⟩, hustack, h⟩ := bind_eq_ok h
  obtain ⟨vmm₃, hmap, hret⟩ := bind_eq_ok h
  cases hret
  refine ⟨pd, vmm₁, kstackPhys, vmm₂, ustackPhys, pmm, vmm₃, mapError_eq_ok hdir, hstack, mapError_eq_ok hustack,
    mapError_eq_ok hmap, rfl, fun q hq => Function.update_of_ne hq _ _, ?_, ?_⟩
  · dsimp only
    rw [Function.update_self]
  · dsimp only
    rw [Function.update_self]

/-- **`process_spawn_ring3`** adds a directory with a complete stack, and a kernel stack. -/
theorem Layout.Holds.spawn {m m' : ProcessManager} (h : L.Holds m.vmm) {name : CString} {entry : UInt32}
    {i : Fin MAX_PROCESSES} (hok : processSpawnRing3 m name entry = .ok (i, m')) :
    ∃ L' : Layout, L'.Holds m'.vmm ∧ L.Extends L' m.vmm.pmm m'.vmm.pmm ∧ L.dirs.length ≠ 0 ∧
      L'.dirs[L.dirs.length]? = some (m'.processTable i).pageDir ∧ L'.mapped L.dirs.length = 16 ∧
      L'.KernelStackAt (m'.processTable i).kernelStack := by
  obtain ⟨pd, vmm₁, kstackPhys, vmm₂, ustackPhys, pmm, vmm₃, hdir, hkstack, hustack, hmap, hvmm, _, hpd, hkernel⟩ :=
    processSpawnRing3_made hok
  have hlen := h.represents.length_dirs
  have hpos := h.represents.count_pos
  obtain ⟨L₁, h₁, hext₁, hdirs₁, hmapped₁, _⟩ := h.createUserPd hdir
  obtain ⟨L₂, h₂, hext₂, hdirs₂, _, hmapped₂, hkernelAt⟩ := h₁.allocKernelStack hkstack
  have hzero : L₂.mapped L.dirs.length = 0 := by
    rw [hmapped₂, hmapped₁, hlen]
    exact h.mapped_count
  obtain ⟨L₃, h₃, hext₃, hdirs₃, hmapped₃, rfl, hholder⟩ := h₂.allocStack hzero hustack
  have hdir₃ : L₃.dirs[L.dirs.length]? = some pd := by
    rw [hdirs₃, hdirs₂, hdirs₁]
    exact List.getElem?_concat_length
  have hpages : (PROCESS_STACK_SIZE / 4096).toNat = 16 := by decide
  rw [hpages, List.range_eq_range'] at hmap
  have hzero₃ : L₃.mapped L.dirs.length = 0 := by rw [hmapped₃, hzero]
  obtain ⟨L', h', hext', h16, _⟩ := h₃.mapStack (by omega) hdir₃ (by omega) hzero₃ hholder hmap
  have hext : L.Extends L' m.vmm.pmm vmm₃.pmm := hext₁.trans (hext₂.trans (hext₃.trans hext'))
  have hkernelAt' := (hext₃.trans hext').kernelStackAt hkernelAt
  have hmem : L'.Holds m'.vmm := by
    rw [hvmm]
    refine h'.congr rfl (fun n hn => ?_) h'.used
    obtain ⟨g, hle, htop, hstack⟩ := hkernelAt'
    have htop' : kstackPhys + 0xC0000000 + 4 * 4096 =
        framePtr ⟨g + 3, by omega⟩ + 4 * UInt32.ofNat 1024 := by
      unfold framePtr KERNEL_VIRT_BASE
      rw [htop, ← frameAddr_add (by omega)]
      have h3 : UInt32.ofNat 3 = 3 := rfl
      have h1024 : UInt32.ofNat 1024 = 1024 := rfl
      rw [h3, h1024]
      grind
    dsimp only
    rw [htop']
    have hlen : (firstFrame entry).length = 13 := rfl
    refine push_words _ _ (le_refl 1024) (by omega) fun heq => ?_
    have hholder := hstack 3 (by decide)
    rw [show L'.holder (g + 3) = some .table by rw [← show (n : ℕ) = g + 3 from congrArg Fin.val heq]; exact hn]
      at hholder
    cases hholder
  refine ⟨L', hmem, ?_, by omega, ?_, by omega, ?_⟩
  · rw [hvmm]
    exact hext
  · rw [hpd]
    exact hext'.dirs _ _ hdir₃
  · rw [hkernel]
    exact hkernelAt'

end

/-! ### Runs of the kernel -/

section
variable {free : Finset ℕ} {L : Layout} {k k' : Kernel}

/-- What holds of the kernel in every run; `free` is what was clear before `vmm_init`. -/
structure Layout.Describes (free : Finset ℕ) (L : Layout) (k : Kernel) : Prop where
  divides : k.Divides free
  holds : L.Holds k.vmm
  kept : ∀ f, L.holder f ≠ none → f ∈ k.kept free
  process : ∀ i, (k.processTable i).Spawned → ∃ d, d ≠ 0 ∧ L.dirs[d]? = some (k.processTable i).pageDir ∧
    L.mapped d = 16 ∧ L.KernelStackAt (k.processTable i).kernelStack
  process_inj : ∀ i j, (k.processTable i).Spawned → (k.processTable j).Spawned →
    (k.processTable i).pageDir = (k.processTable j).pageDir → i = j

theorem Layout.Describes.extends (h : L.Describes free k) {L' : Layout} {op : KernelOp} (hkeeps : k.Keeps k' op)
    (hholds : L'.Holds k'.vmm) (hext : L.Extends L' k.vmm.pmm k'.vmm.pmm)
    (htable : ∀ i, (k'.processTable i).Spawned → (k.processTable i).Spawned ∧
      (k'.processTable i).pageDir = (k.processTable i).pageDir ∧
      (k'.processTable i).kernelStack = (k.processTable i).kernelStack) : L'.Describes free k' := by
  obtain ⟨hdivides, hkept, htaken⟩ := h.divides.keeps hkeeps
  refine ⟨hdivides, hholds, fun f hf => ?_, fun i hi => ?_, fun i j hi hj heq => ?_⟩
  · rcases hext.fresh f with hsame | ⟨hclear, hnot⟩
    · exact hkept (h.kept f (hsame ▸ hf))
    · exact htaken (Finset.mem_sdiff.mpr ⟨hclear, hnot⟩)
  · obtain ⟨hold, hpd, hstack⟩ := htable i hi
    obtain ⟨d, hd, hdir, h16, hkernel⟩ := h.process i hold
    rw [hpd, hstack]
    exact ⟨d, hd, hext.dirs d _ hdir, (hext.complete d h16).1, hext.kernelStackAt hkernel⟩
  · obtain ⟨hold, hpd, _⟩ := htable i hi
    obtain ⟨hold', hpd', _⟩ := htable j hj
    exact h.process_inj i j hold hold' (by rw [← hpd, ← hpd', heq])

theorem Layout.Describes.surface (h : L.Describes free k) {surfaces : SurfaceTable} {pmm : Pmm}
    (hdivides : Kernel.Divides free { k with vmm := { k.vmm with pmm }, surfaces })
    (hkept : k.kept free ⊆ Kernel.kept free { k with vmm := { k.vmm with pmm }, surfaces }) :
    L.Describes free { k with vmm := { k.vmm with pmm }, surfaces } where
  divides := hdivides
  holds := h.holds.congr rfl (fun _ _ => rfl) fun f hf => (Kernel.mem_kept.mp (hkept (h.kept f hf))).2.1
  kept := fun f hf => hkept (h.kept f hf)
  process := h.process
  process_inj := h.process_inj

theorem processCreate_notSpawned {m m' : ProcessManager} {name : CString} {entry : UInt32} {ring priority : UInt8}
    {i : Fin MAX_PROCESSES} (h : processCreate m name entry ring priority = .ok (i, m')) :
    ¬ (m'.processTable i).Spawned ∧ ∀ j, j ≠ i → m'.processTable j = m.processTable j := by
  obtain ⟨slot, hslot, h⟩ := bind_eq_ok h
  obtain ⟨⟨kstackPhys, vmm⟩, hstack, hret⟩ := bind_eq_ok h
  cases hret
  refine ⟨?_, fun j hj => Function.update_of_ne hj _ _⟩
  dsimp only
  rw [Function.update_self]
  unfold Process.Spawned
  split_ifs
  · exact (by decide : (0 : UInt32) ≠ USTACK_VIRT)
  · exact (by decide : (0 : UInt32) ≠ USTACK_VIRT)

theorem Layout.Describes.spawn (h : L.Describes free k) {name : CString} {entry : UInt32}
    {i : Fin MAX_PROCESSES} {m : ProcessManager} (hok : processSpawnRing3 k.toProcessManager name entry = .ok (i, m)) :
    ∃ L' : Layout, L'.Describes free { k with toProcessManager := m } := by
  have hkeeps : k.Keeps { k with toProcessManager := m } (.processSpawnRing3 name entry) := by
    refine Kernel.keeps_of_exec rfl ?_
    unfold Kernel.exec
    dsimp only
    rw [hok]
    rfl
  obtain ⟨_, _, _, _, _, _, _, _, _, _, _, _, hothers, _⟩ := processSpawnRing3_made hok
  obtain ⟨L', hholds, hext, hne, hdir, h16, hkernel⟩ := h.holds.spawn hok
  obtain ⟨hdivides, hkept, htaken⟩ := h.divides.keeps hkeeps
  -- no process had the directory before
  have hnew : ∀ j, j ≠ i → (k.processTable j).Spawned → (k.processTable j).pageDir ≠ (m.processTable i).pageDir := by
    intro j _ hj heq
    obtain ⟨d, _, hdir', _⟩ := h.process j hj
    have hlt : d < L.dirs.length := (List.getElem?_eq_some_iff.mp hdir').1
    have hsame := hholds.rep.dir_inj (hext.dirs d _ hdir') (heq ▸ hdir)
    omega
  refine ⟨L', hdivides, hholds, fun f hf => ?_, fun j hj => ?_, fun j l hj hl heq => ?_⟩
  · rcases hext.fresh f with hsame | ⟨hclear, hnot⟩
    · exact hkept (h.kept f (hsame ▸ hf))
    · exact htaken (Finset.mem_sdiff.mpr ⟨hclear, hnot⟩)
  · dsimp only at hj ⊢
    by_cases hji : j = i
    · rw [hji]
      exact ⟨L.dirs.length, hne, hdir, h16, hkernel⟩
    · rw [hothers j hji] at hj ⊢
      obtain ⟨d, hd, hdir', h16', hkernel'⟩ := h.process j hj
      exact ⟨d, hd, hext.dirs d _ hdir', (hext.complete d h16').1, hext.kernelStackAt hkernel'⟩
  · dsimp only at hj hl heq
    by_cases hji : j = i
    · by_cases hli : l = i
      · rw [hji, hli]
      · rw [hothers l hli] at hl heq
        exact absurd (heq.symm.trans (by rw [hji])) (hnew l hli hl)
    · rw [hothers j hji] at hj heq
      by_cases hli : l = i
      · exact absurd (heq.trans (by rw [hli])) (hnew j hji hj)
      · rw [hothers l hli] at hl heq
        exact h.process_inj j l hj hl heq

/-- **One call** moves the layout on. -/
theorem Layout.Describes.step (h : L.Describes free k) {op : KernelOp} (hcalled : op.IsCalled)
    (hstep : k.step op = some k') : ∃ L' : Layout, L'.Describes free k' := by
  have hexec := Kernel.step_eq_some.mp hstep
  have hok := hexec
  unfold Kernel.exec at hok
  cases op with
  | createUserPd => exact hcalled.elim
  | mapPage pd vaddr paddr flags => exact hcalled.elim
  | unmapPage pd vaddr => exact hcalled.elim
  | switchPd pd =>
      obtain rfl := Except.ok.inj hok
      have hkeeps := Kernel.keeps_of_exec rfl hexec
      exact ⟨L, h.extends hkeeps (h.holds.congr rfl (fun _ _ => rfl) h.holds.used)
        (Layout.Extends.refl L hkeeps.shrinks) fun _ hi => ⟨hi, rfl, rfl⟩⟩
  | heapAllocPages n =>
      obtain ⟨⟨vmm, cursor⟩, hcall, hret⟩ := bind_eq_ok hok
      obtain rfl := Except.ok.inj hret
      obtain ⟨L', hholds, hext⟩ := h.holds.heapAllocPages (mapError_eq_ok hcall)
      exact ⟨L', h.extends (Kernel.keeps_of_exec rfl hexec) hholds hext fun _ hi => ⟨hi, rfl, rfl⟩⟩
  | processCreate name entry ring priority =>
      obtain ⟨⟨i, m⟩, hcall, hret⟩ := bind_eq_ok hok
      obtain rfl := Except.ok.inj hret
      obtain ⟨_, phys, hstack⟩ := processCreate_ok hcall
      obtain ⟨hnot, hothers⟩ := processCreate_notSpawned hcall
      obtain ⟨L', hholds, hext, _⟩ := h.holds.allocKernelStack hstack
      refine ⟨L', h.extends (Kernel.keeps_of_exec rfl hexec) hholds hext fun j hj => ?_⟩
      have hji : j ≠ i := fun heq => hnot (heq ▸ hj)
      dsimp only at hj ⊢
      rw [hothers j hji] at hj ⊢
      exact ⟨hj, rfl, rfl⟩
  | processSpawnRing3 name entry =>
      obtain ⟨⟨i, m⟩, hcall, hret⟩ := bind_eq_ok hok
      obtain rfl := Except.ok.inj hret
      exact h.spawn hcall
  | processKill pid =>
      obtain rfl := Except.ok.inj hok
      have hkeeps := Kernel.keeps_of_exec rfl hexec
      have hvmm : (processKill k.toProcessManager pid).vmm = k.vmm := processKill_vmm _ _
      refine ⟨L, h.extends hkeeps ?_ (Layout.Extends.refl L hkeeps.shrinks) fun j hj => ?_⟩
      · dsimp only
        rw [hvmm]
        exact h.holds
      · dsimp only at hj ⊢
        unfold processKill at hj ⊢
        split at hj
        · exact ⟨hj, rfl, rfl⟩
        · rename_i i _
          dsimp only at hj ⊢
          by_cases hji : j = i
          · rw [hji, Function.update_self] at hj ⊢
            exact ⟨hj, rfl, rfl⟩
          · rw [Function.update_of_ne hji] at hj ⊢
            exact ⟨hj, rfl, rfl⟩
  | surfaceCreate pid w height =>
      obtain ⟨⟨slot, surfaces, pmm⟩, hcall, hret⟩ := bind_eq_ok hok
      obtain rfl := Except.ok.inj hret
      obtain ⟨hdivides, hkept⟩ := h.divides.surfaceCreate (mapError_eq_ok hcall)
      exact ⟨L, h.surface hdivides hkept⟩
  | surfaceDestroy id =>
      obtain rfl := Except.ok.inj hok
      obtain ⟨hdivides, hkept⟩ := h.divides.surfaceDestroy id
      exact ⟨L, h.surface hdivides hkept⟩

/-- After `vmm_init` there is one directory, and no process of ring 3. -/
theorem Layout.Describes.start {s s₀ : Vmm} (hinit : vmmInit s = .ok s₀)
    {processTable : Fin MAX_PROCESSES → Process} (hnone : ∀ i, ¬ (processTable i).Spawned)
    (pidCounter tssEsp0 : UInt32) (surfaces : SurfaceTable) :
    ∃ L : Layout, L.Describes s.pmm.clearFrames (Kernel.start s₀ processTable pidCounter tssEsp0 surfaces) := by
  obtain ⟨n, hn, hclear, hrep⟩ := representsIn_start hinit
  have hsub : s₀.pmm.clearFrames ⊆ s.pmm.clearFrames := by
    rw [hclear]
    exact Finset.erase_subset _ _
  have hdivides : (Kernel.start s₀ processTable pidCounter tssEsp0 surfaces).Divides s.pmm.clearFrames :=
    { Kernel.Divides.start with
      clear := hsub
      mem := fun _ hi => absurd hi Bool.false_ne_true }
  let L : Layout := ⟨[s₀.kernelPd], Radix.Spaces.first, fun f => if f = n then some .table else none,
    fun _ => 0, fun _ => 0⟩
  have hholder : ∀ f, L.holder f ≠ none → f = n := by
    intro f hf
    by_contra hne
    exact hf (if_neg hne)
  have htables : L.tables = {n} := by
    ext m
    show (if (m : ℕ) = n then some Holder.table else none) = some .table ↔ m = n
    rw [Fin.ext_iff]
    split_ifs with hm
    · exact iff_of_true rfl hm
    · exact iff_of_false (by simp) hm
  have hgone : (n : ℕ) ∉ s₀.pmm.clearFrames := by
    rw [hclear]
    exact Finset.notMem_erase _ _
  refine ⟨L, hdivides, ?_, fun f hf => ?_, fun i hi => absurd hi (hnone i), fun i _ hi => absurd hi (hnone i)⟩
  · constructor
    case rep =>
      rw [htables]
      exact hrep
    case used =>
      intro f hf
      rw [hholder f hf]
      exact hgone
    case heap_page => exact fun _ _ _ hw => absurd hw (by simp [L, Radix.Spaces.first])
    case heap_inj => exact fun _ _ _ _ _ hw => absurd hw (by simp [L, Radix.Spaces.first])
    case heap_linked => exact fun _ _ hu => absurd hu (by simp [L, Radix.Spaces.first])
    case user_page =>
      intro d _ i k
      exact (if_neg (fun hc => Nat.lt_irrefl _ (Nat.lt_of_le_of_lt hc.2.1 hc.2.2))).symm
    case user_linked => exact fun _ _ _ _ hu => absurd hu (by simp [L, Radix.Spaces.first])
    case user_stack => exact fun _ _ j hj => absurd hj (Nat.not_lt_zero j)
  · rw [hholder f hf]
    refine Kernel.mem_kept.mpr ⟨hn, hgone, ?_⟩
    rw [SurfaceTable.mem_frames]
    rintro ⟨i, hi, _⟩
    exact Bool.false_ne_true hi

/-- **Every state of a run** has a layout. -/
theorem Layout.Describes.run (h : L.Describes free k) {ops : List KernelOp} (hops : ∀ op ∈ ops, op.IsCalled)
    (hrun : haltingRun Kernel.step k ops = some k') : ∃ L' : Layout, L'.Describes free k' := by
  refine haltingRun_invariant_of (fun k => ∃ L : Layout, L.Describes free k) ?_ ⟨L, h⟩ hops hrun
  rintro k₁ op k₂ ⟨L₁, h₁⟩ hcalled hstep
  exact h₁.step hcalled hstep

/-! ### What ring 3 gets at -/

/-- The frame holds the directory of the kernel or of a process, or a table that such a directory points to. -/
def Kernel.HoldsTables (k : Kernel) (f : ℕ) : Prop :=
  ∃ pd, (pd = k.vmm.kernelPd ∨ ∃ i, (k.processTable i).Spawned ∧ pd = (k.processTable i).pageDir) ∧
    (pd = frameAddr f + KERNEL_VIRT_BASE ∨
      ∃ i : Fin 1024, k.vmm.mem (wordPtr pd (UInt32.ofNat i)) &&& PAGE_PRESENT ≠ 0 ∧
        frameOf (k.vmm.mem (wordPtr pd (UInt32.ofNat i))) = f)

/-- The frame is under the kernel stack of the process. -/
def Process.HoldsKernelStack (p : Process) (f : ℕ) : Prop :=
  ∃ j < 4, f = frameOf (p.kernelStack - 4 * 4096 - 0xC0000000) + j

/-- The frame is neither free, nor in a surface, nor part of the page tables, nor under the kernel stack of a
process of ring 3. -/
structure Kernel.Private (k : Kernel) (f : ℕ) : Prop where
  clear : f ∉ k.vmm.pmm.clearFrames
  surface : f ∉ k.surfaces.frames
  table : ¬ k.HoldsTables f
  kernelStack : ∀ i, (k.processTable i).Spawned → ¬ (k.processTable i).HoldsKernelStack f

theorem frameOf_pageAddr {f : ℕ} (hf : f < FRAMES_TOTAL) {flags : UInt32} (hflags : flags < 0x1000)
    (vaddr : UInt32) : frameOf (pageAddr (some (pteWord (frameAddr f) flags)) vaddr) = f := by
  have hoffset : vaddr &&& 0xFFF &&& ~~~0xFFF = 0 := by
    rw [UInt32.and_assoc, show (0xFFF &&& ~~~0xFFF : UInt32) = 0 by decide, UInt32.and_zero]
  have hmask : pageAddr (some (pteWord (frameAddr f) flags)) vaddr &&& ~~~0xFFF = frameAddr f &&& ~~~0xFFF := by
    show (pteWord (frameAddr f) flags &&& ~~~0xFFF ||| (vaddr &&& 0xFFF)) &&& ~~~0xFFF = _
    rw [or_and, hoffset, UInt32.or_zero, pteWord_mask hflags, UInt32.and_assoc, UInt32.and_self]
  have hnat := congrArg UInt32.toNat hmask
  rw [toNat_and_page_mask, toNat_and_page_mask, frameAddr_toNat hf] at hnat
  unfold frameOf FRAME_SIZE
  omega

theorem Layout.Describes.private (h : L.Describes free k) {f : ℕ} {hd : Holder} (hf : L.holder f = some hd)
    (hlt : f < FRAMES_TOTAL) (htable : hd ≠ .table) (hstack : hd ≠ .kernelStack) : k.Private f := by
  have hkept := Kernel.mem_kept.mp (h.kept f (by rw [hf]; exact Option.some_ne_none _))
  have hnot : ∀ n : Frame, (n : ℕ) = f → n ∉ L.tables := by
    intro n hn hmem
    have hmem : L.holder n = some .table := hmem
    rw [hn, hf] at hmem
    exact htable (Option.some.inj hmem)
  refine ⟨hkept.2.1, hkept.2.2, ?_, fun i hi => ?_⟩
  · rintro ⟨pd, hpd, hframe⟩
    obtain ⟨d, hdir⟩ : ∃ d : ℕ, L.dirs[d]? = some pd := by
      rcases hpd with rfl | ⟨i, hi, rfl⟩
      · exact ⟨0, h.holds.represents.kernel_dir⟩
      · obtain ⟨d, _, hdir, _⟩ := h.process i hi
        exact ⟨d, hdir⟩
    rcases hframe with hroot | ⟨i, hpresent, hentry⟩
    · obtain ⟨n, hn, hptr⟩ := h.holds.rep.root hdir
      have heq : n = ⟨f, hlt⟩ := framePtr_inj (hptr.symm.trans hroot)
      exact hnot n (congrArg Fin.val heq) hn
    · refine hnot _ ?_ (h.holds.rep.table hdir i hpresent)
      rw [← hentry]
      show (_ : UInt32).toNat / 4096 = (_ : UInt32).toNat / 4096
      rw [toNat_and_page_mask]
      omega
  · rintro ⟨j, hj, hframe⟩
    obtain ⟨d, _, _, _, g, hle, htop, hholder⟩ := h.process i hi
    have hbase : (k.processTable i).kernelStack - 4 * 4096 - 0xC0000000 = frameAddr g := by
      rw [htop]
      grind
    rw [hbase, frameOf_frameAddr (by omega)] at hframe
    have hheld := hholder j hj
    rw [← hframe, hf] at hheld
    exact hstack (Option.some.inj hheld)

theorem onUserStack_iff {vaddr : UInt32} :
    OnUserStack vaddr ↔ (dirIx vaddr).val = 767 ∧ 1007 ≤ (tabIx vaddr).val ∧ (tabIx vaddr).val < 1007 + 16 := by
  have hlow : (USTACK_VIRT - PROCESS_STACK_SIZE).toNat = 0xBFFEF000 := by decide
  have hhigh : USTACK_VIRT.toNat = 0xBFFFF000 := rfl
  unfold OnUserStack
  rw [UInt32.le_iff_toNat_le, UInt32.lt_iff_toNat_lt, hlow, hhigh]
  show _ ↔ vaddr.toNat / 2 ^ 22 = 767 ∧ 1007 ≤ vaddr.toNat / 4096 % 1024 ∧ vaddr.toNat / 4096 % 1024 < 1007 + 16
  omega

theorem RepresentsIn.owner_cases {s : Vmm} {dirs : List UInt32} {A : PageSpaces} {tables : Set Frame} {d : ℕ}
    {pd : UInt32} (h : RepresentsIn s dirs A tables) (hd : dirs[d]? = some pd) (i : Fin 1024) :
    A.owner d i = d ∨ A.owner d i = 0 ∧ 768 ≤ i.val := by
  obtain ⟨_, _, hrep, hdirs, _⟩ := h
  obtain ⟨hlt, _⟩ := dir_eq hdirs hd
  rcases hrep.owner_cases d hlt i with heq | ⟨heq, hhalf, _⟩
  · exact .inl heq
  · exact .inr ⟨heq, hhalf⟩

variable {d : ℕ} {pd : UInt32}

theorem Layout.Describes.stack_page (h : L.Describes free k) (hd : d ≠ 0) (hdir : L.dirs[d]? = some pd)
    (h16 : L.mapped d = 16) {vaddr : UInt32} (hva : OnUserStack vaddr) :
    L.spaces.owner d (dirIx vaddr) = d ∧ L.spaces.page d (dirIx vaddr) (tabIx vaddr) =
      some (pteWord (frameAddr (L.stack d + ((tabIx vaddr).val - 1007))) 0x007) := by
  have hix := onUserStack_iff.mp hva
  constructor
  · rcases h.holds.rep.owner_cases hdir (dirIx vaddr) with heq | ⟨_, hhalf⟩
    · exact heq
    · omega
  · rw [h.holds.user_page d hd]
    unfold stackPage
    rw [if_pos]
    rw [h16]
    exact hix

/-- Ring 3 gets at the pages of the stack only: the entries of the kernel half lack the USER bit. -/
theorem Layout.Describes.accessible_iff (h : L.Describes free k) (hd : d ≠ 0) (hdir : L.dirs[d]? = some pd)
    (h16 : L.mapped d = 16) (vaddr : UInt32) : UserAccessible k.vmm pd vaddr ↔ OnUserStack vaddr := by
  have hrep := h.holds.represents
  rw [hrep.userAccessible hdir vaddr]
  constructor
  · rintro ⟨⟨u, hlink, huser⟩, w, hpage, _⟩
    rcases h.holds.rep.owner_cases hdir (dirIx vaddr) with heq | ⟨heq, _⟩
    · rw [heq, h.holds.user_page d hd] at hpage
      unfold stackPage at hpage
      split_ifs at hpage with hix
      rw [h16] at hix
      exact onUserStack_iff.mpr hix
    · rw [heq] at hlink
      exact absurd (h.holds.heap_linked _ u hlink) huser
  · intro hva
    obtain ⟨howner, hpage⟩ := h.stack_page hd hdir h16 hva
    rw [howner, hpage]
    refine ⟨?_, _, rfl, ?_⟩
    · cases hlink : L.spaces.linked d (dirIx vaddr) with
      | none =>
          rw [hrep.page_linked hlink] at hpage
          cases hpage
      | some u => exact ⟨u, rfl, (h.holds.user_linked d hd _ u hlink).2⟩
    · rw [pteWord_user]
      decide

theorem Layout.Describes.stack_frame (h : L.Describes free k) (hd : d ≠ 0) (hdir : L.dirs[d]? = some pd)
    (h16 : L.mapped d = 16) {vaddr : UInt32} (hva : OnUserStack vaddr) :
    frameOf (vmmVirtToPhys k.vmm pd vaddr) = L.stack d + ((tabIx vaddr).val - 1007) ∧
      L.holder (frameOf (vmmVirtToPhys k.vmm pd vaddr)) = some (.userStack d) ∧
      frameOf (vmmVirtToPhys k.vmm pd vaddr) < FRAMES_TOTAL := by
  obtain ⟨howner, hpage⟩ := h.stack_page hd hdir h16 hva
  have hix := onUserStack_iff.mp hva
  obtain ⟨hheld, hlt⟩ := h.holds.user_stack d hd ((tabIx vaddr).val - 1007) (by omega)
  have hframe : frameOf (vmmVirtToPhys k.vmm pd vaddr) = L.stack d + ((tabIx vaddr).val - 1007) := by
    rw [h.holds.represents.virtToPhys hdir, howner, hpage, frameOf_pageAddr hlt (by decide)]
  rw [hframe]
  exact ⟨rfl, hheld, hlt⟩

theorem Layout.Describes.heap_frame (h : L.Describes free k) {vaddr : UInt32}
    (hva : PageMapped k.vmm k.vmm.kernelPd vaddr) :
    L.spaces.page 0 (dirIx vaddr) (tabIx vaddr) =
        some (pteWord (frameAddr (frameOf (vmmVirtToPhys k.vmm k.vmm.kernelPd vaddr))) 0x003) ∧
      L.holder (frameOf (vmmVirtToPhys k.vmm k.vmm.kernelPd vaddr)) = some .heap ∧
      frameOf (vmmVirtToPhys k.vmm k.vmm.kernelPd vaddr) < FRAMES_TOTAL := by
  have hrep := h.holds.represents
  have howner := hrep.owner_zero (dirIx vaddr)
  obtain ⟨w, hpage⟩ : ∃ w, L.spaces.page 0 (dirIx vaddr) (tabIx vaddr) = some w := by
    unfold PageMapped at hva
    dsimp only at hva
    rcases hrep.entry_cases hrep.kernel_dir vaddr with ⟨_, habsent⟩ | ⟨pde, hpde, _, _, hleaf⟩
    · exact absurd habsent hva.1
    · rw [howner] at hleaf
      rw [hpde] at hva
      exact ⟨_, hleaf.symm.trans (if_neg hva.2)⟩
  obtain ⟨f, hf, hheap, rfl⟩ := h.holds.heap_page _ _ w hpage
  have hframe : frameOf (vmmVirtToPhys k.vmm k.vmm.kernelPd vaddr) = f := by
    rw [hrep.virtToPhys hrep.kernel_dir, howner, hpage, frameOf_pageAddr hf (by decide)]
  rw [hframe]
  exact ⟨hpage, hheap, hf⟩

end

/-- **The processes are isolated.**  In every run of the kernel, a process of ring 3 gets at the sixteen pages of
its stack and at nothing else.  Each of them lies on a frame that is not free, in no surface, part of no page
table and under no kernel stack; the kernel's own mappings do not come to it; and no other process, and no other
page of this one, has it. -/
theorem processes_isolated (s s₀ : Vmm) (hinit : vmmInit s = .ok s₀) (processTable : Fin MAX_PROCESSES → Process)
    (hnone : ∀ i, ¬ (processTable i).Spawned) (pidCounter tssEsp0 : UInt32) (surfaces : SurfaceTable)
    (ops : List KernelOp) (hops : ∀ op ∈ ops, op.IsCalled) (k : Kernel)
    (hrun : haltingRun Kernel.step (Kernel.start s₀ processTable pidCounter tssEsp0 surfaces) ops = some k)
    (i : Fin MAX_PROCESSES) (hi : (k.processTable i).Spawned) :
    let frame := fun (j : Fin MAX_PROCESSES) (va : UInt32) =>
      frameOf (vmmVirtToPhys k.vmm (k.processTable j).pageDir va)
    (∀ va, UserAccessible k.vmm (k.processTable i).pageDir va ↔ OnUserStack va) ∧
      ∀ va, OnUserStack va →
        k.Private (frame i va) ∧
        (∀ va', PageMapped k.vmm k.vmm.kernelPd va' →
          frameOf (vmmVirtToPhys k.vmm k.vmm.kernelPd va') ≠ frame i va) ∧
        ∀ j va', (k.processTable j).Spawned → OnUserStack va' → frame j va' = frame i va →
          j = i ∧ va'.toNat / 4096 = va.toNat / 4096 := by
  intro frame
  obtain ⟨L₀, h₀⟩ := Layout.Describes.start hinit hnone pidCounter tssEsp0 surfaces
  obtain ⟨L, h⟩ := h₀.run hops hrun
  obtain ⟨d, hd, hdir, h16, _⟩ := h.process i hi
  refine ⟨h.accessible_iff hd hdir h16, fun va hva => ?_⟩
  obtain ⟨hframe, hheld, hlt⟩ := h.stack_frame hd hdir h16 hva
  refine ⟨h.private hheld hlt (by simp) (by simp), fun va' hva' heq => ?_, fun j va' hj hva' heq => ?_⟩
  · have hheap := (h.heap_frame hva').2.1
    rw [heq, hheld] at hheap
    cases hheap
  · obtain ⟨d', hd', hdir', h16', _⟩ := h.process j hj
    obtain ⟨hframe', hheld', _⟩ := h.stack_frame hd' hdir' h16' hva'
    have heq' : frameOf (vmmVirtToPhys k.vmm (k.processTable j).pageDir va') =
        frameOf (vmmVirtToPhys k.vmm (k.processTable i).pageDir va) := heq
    rw [heq', hheld] at hheld'
    obtain rfl := Holder.userStack.inj (Option.some.inj hheld')
    refine ⟨h.process_inj j i hj hi (Option.some.inj (hdir'.symm.trans hdir)), ?_⟩
    rw [heq', hframe] at hframe'
    have hix := onUserStack_iff.mp hva
    have hix' := onUserStack_iff.mp hva'
    have htab : (tabIx va).val = (tabIx va').val := by omega
    have hdirIx : (dirIx va).val = (dirIx va').val := by omega
    change va.toNat / 4096 % 1024 = va'.toNat / 4096 % 1024 at htab
    change va.toNat / 2 ^ 22 = va'.toNat / 2 ^ 22 at hdirIx
    omega

instance (s : Vmm) (pd vaddr : UInt32) : Decidable (PageMapped s pd vaddr) :=
  inferInstanceAs (Decidable (_ ∧ _))

theorem nonzero_nil : ∀ c ∈ ([] : List UInt8), c ≠ 0 := List.forall_mem_nil _

def unnamed : CString := ⟨[], nonzero_nil⟩

/-- A page of the heap and two processes. -/
def twoProcesses : List KernelOp :=
  [.heapAllocPages 1, .processSpawnRing3 unnamed 0x400000, .processSpawnRing3 unnamed 0x400000]

theorem twoProcesses_run : ∃ s₀ k, vmmInit ⟨emptyPmm, fun _ => 0, 0, 0⟩ = .ok s₀ ∧
    haltingRun Kernel.step (Kernel.start s₀ (fun _ => { state := .dead }) 1 0 bootSurfaces) twoProcesses = some k ∧
    (k.processTable ⟨0, by decide⟩).Spawned ∧ PageMapped k.vmm k.vmm.kernelPd HEAP_VIRT_BASE := by
  have hrun : (((vmmInit ⟨emptyPmm, fun _ => 0, 0, 0⟩).toOption.bind fun s₀ =>
      haltingRun Kernel.step (Kernel.start s₀ (fun _ => { state := .dead }) 1 0 bootSurfaces) twoProcesses).map
        fun k => decide ((k.processTable ⟨0, by decide⟩).userStack = USTACK_VIRT ∧
          PageMapped k.vmm k.vmm.kernelPd HEAP_VIRT_BASE)) = some true := by
    decide +kernel
  obtain ⟨k, hk, hprops⟩ := Option.map_eq_some_iff.mp hrun
  obtain ⟨s₀, hinit, hk⟩ := Option.bind_eq_some_iff.mp hk
  obtain ⟨hspawned, hpage⟩ := of_decide_eq_true hprops
  refine ⟨s₀, k, ?_, hk, hspawned, hpage⟩
  cases hv : vmmInit ⟨emptyPmm, fun _ => 0, 0, 0⟩ with
  | error e =>
      rw [hv] at hinit
      cases hinit
  | ok s =>
      rw [hv] at hinit
      rw [Option.some.inj hinit]

theorem processes_isolated_twoProcesses :
    ∃ s₀ k, vmmInit ⟨emptyPmm, fun _ => 0, 0, 0⟩ = .ok s₀ ∧
      haltingRun Kernel.step (Kernel.start s₀ (fun _ => { state := .dead }) 1 0 bootSurfaces) twoProcesses =
        some k ∧
      ∀ va, UserAccessible k.vmm (k.processTable ⟨0, by decide⟩).pageDir va ↔ OnUserStack va := by
  obtain ⟨s₀, k, hinit, hk, hspawned, _⟩ := twoProcesses_run
  have hnone : ∀ i : Fin MAX_PROCESSES, ¬ (({ state := .dead } : Process)).Spawned := fun _ =>
    (by decide : (0 : UInt32) ≠ USTACK_VIRT)
  exact ⟨s₀, k, hinit, hk, (processes_isolated _ s₀ hinit (fun _ => { state := .dead }) hnone 1 0 bootSurfaces
    twoProcesses (by simp [twoProcesses, KernelOp.IsCalled]) k hk _ hspawned).1⟩

end LunaOs
