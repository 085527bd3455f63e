import LunaOs.VmmUser

/-! # The frames of directories and page tables

`Represents` lets directories and tables lie in any frames that are in use.  Here the set of their frames is
named, so that it can be kept apart from the frames of stacks and of the heap: a write to any other frame
leaves every translation as it is. -/

namespace LunaOs

/-- The directories `dirs`, in the frames `tables` with all their tables, represent `A`. -/
def RepresentsIn (s : Vmm) (dirs : List UInt32) (A : PageSpaces) (tables : Set Frame) : Prop :=
  ∃ (roots : ℕ → Frame) (table : ℕ → Fin 1024 → Frame),
    Radix.RepBy pageFormat KernelHalf (words s.mem) tables roots table A ∧
    (∀ d, dirs[d]? = if d < A.count then some (framePtr (roots d)) else none) ∧
    s.kernelPd = framePtr (roots 0)

section
variable {s s' : Vmm} {dirs : List UInt32} {A : PageSpaces} {tables : Set Frame} {d : ℕ} {pd : UInt32}

theorem RepresentsIn.represents (h : RepresentsIn s dirs A tables) (hused : tables ⊆ inUse s.pmm) :
    Represents s dirs A := by
  obtain ⟨roots, table, hrep, hdirs, hkernel⟩ := h
  exact ⟨roots, table, hrep.mono hused, hdirs, hkernel⟩

theorem RepresentsIn.congr (h : RepresentsIn s dirs A tables) (hkernel : s'.kernelPd = s.kernelPd)
    (hwords : ∀ n ∈ tables, words s'.mem n = words s.mem n) : RepresentsIn s' dirs A tables := by
  obtain ⟨roots, table, hrep, hdirs, hroot⟩ := h
  exact ⟨roots, table, hrep.congr hwords, hdirs, hkernel.trans hroot⟩

theorem framePtr_inj {n n' : Frame} (h : framePtr n = framePtr n') : n = n' := by
  have hword : wordPtr (framePtr n) (UInt32.ofNat (0 : Fin 1024)) =
      wordPtr (framePtr n') (UInt32.ofNat (0 : Fin 1024)) := by rw [h]
  exact (wordPtr_inj hword).1

theorem RepresentsIn.dir_inj (h : RepresentsIn s dirs A tables) {d' : ℕ} (hd : dirs[d]? = some pd)
    (hd' : dirs[d']? = some pd) : d = d' := by
  obtain ⟨roots, _, hrep, hdirs, _⟩ := h
  obtain ⟨hlt, rfl⟩ := dir_eq hdirs hd
  obtain ⟨hlt', heq⟩ := dir_eq hdirs hd'
  exact hrep.root_inj d hlt d' hlt' (framePtr_inj heq)

theorem RepresentsIn.root (h : RepresentsIn s dirs A tables) (hd : dirs[d]? = some pd) :
    ∃ n ∈ tables, pd = framePtr n := by
  obtain ⟨roots, _, hrep, hdirs, _⟩ := h
  obtain ⟨hlt, rfl⟩ := dir_eq hdirs hd
  exact ⟨roots d, hrep.root_used d hlt, rfl⟩

theorem RepresentsIn.table (h : RepresentsIn s dirs A tables) (hd : dirs[d]? = some pd) (i : Fin 1024)
    (hpresent : s.mem (wordPtr pd (UInt32.ofNat i)) &&& PAGE_PRESENT ≠ 0) :
    toFrame (s.mem (wordPtr pd (UInt32.ofNat i)) &&& ~~~0xFFF) ∈ tables := by
  obtain ⟨roots, table, hrep, hdirs, _⟩ := h
  obtain ⟨hlt, rfl⟩ := dir_eq hdirs hd
  have hentry := hrep.entry d hlt i
  have hword : pageFormat.entry (words s.mem (roots d) i) =
      some (toFrame (words s.mem (roots d) i &&& ~~~0xFFF), words s.mem (roots d) i &&& 0xFFF) :=
    if_neg hpresent
  rw [hword] at hentry
  obtain ⟨u, hlink, heq⟩ := Option.map_eq_some_iff.mp hentry.symm
  rw [mem_wordPtr s.mem, ← (Prod.mk.inj heq).1]
  exact hrep.table_used _ i (by simp [hlink])

/-- **`vmm_map_page`** adds at most one frame to the tables. -/
theorem RepresentsIn.mapPage (h : RepresentsIn s dirs A tables) (hused : tables ⊆ inUse s.pmm)
    (hd : dirs[d]? = some pd) {vaddr paddr flags : UInt32} (hok : vmmMapPage s pd vaddr paddr flags = .ok s') :
    (s'.pmm.clearFrames = s.pmm.clearFrames ∧ RepresentsIn s' dirs (spaceMap A d vaddr paddr flags) tables) ∨
    ∃ f : Frame, (f : ℕ) ∈ s.pmm.clearFrames ∧ s'.pmm.clearFrames = s.pmm.clearFrames.erase f ∧
      RepresentsIn s' dirs (spaceMap A d vaddr paddr flags) (insert f tables) := by
  obtain ⟨roots, table, hrep, hdirs, hkernel⟩ := h
  obtain ⟨hlt, rfl⟩ := dir_eq hdirs hd
  have hentry := hrep.entry d hlt (dirIx vaddr)
  have hleaf := leaf_pteWord paddr flags
  have hkernel' := (vmmMapPage_keeps hok).kernelPd_eq
  obtain ⟨t, u, hlink, hpmm, hwords⟩ | ⟨hnone, f, hf, hpmm, hwords⟩ := vmmMapPage_ok hok
  · -- the table is there
    left
    obtain ⟨u', hu', _⟩ := Option.map_eq_some_iff.mp (hentry ▸ hlink)
    have hmap : spaceMap A d vaddr paddr flags =
        A.setPage d (dirIx vaddr) (tabIx vaddr) (some (pteWord paddr flags)) := by
      unfold spaceMap Radix.Spaces.map
      rw [hu']
    refine ⟨by rw [hpmm], roots, table, ?_, ?_, hkernel'.trans hkernel⟩
    · rw [hwords, hmap, ← hleaf]
      exact hrep.put hlt hlink _ _
    · rw [hmap]
      exact hdirs
  · -- a fresh frame becomes the table
    right
    have hfresh : f ∉ tables := fun hmem => hused hmem hf
    rw [hentry, Option.map_eq_none_iff] at hnone
    have hmap : spaceMap A d vaddr paddr flags =
        (A.link d (dirIx vaddr) (pdeBits flags)).setPage d (dirIx vaddr) (tabIx vaddr)
          (some (pteWord paddr flags)) := by
      unfold spaceMap Radix.Spaces.map
      rw [hnone]
    have hlinked := hrep.link hlt hnone hfresh (entry_pdeWord f flags)
    have hnew : pageFormat.entry (Radix.put (pageFormat.wipe (words s.mem) f) (roots d) (dirIx vaddr)
        (pdeWord f flags) (roots d) (dirIx vaddr)) = some (f, pdeBits flags) := by
      rw [Radix.put_apply, if_pos ⟨rfl, rfl⟩, entry_pdeWord]
    have hput := hlinked.put hlt hnew (tabIx vaddr) (pteWord paddr flags)
    rw [hleaf, ← hmap, ← hwords] at hput
    refine ⟨f, hf, hpmm, roots, _, hput, ?_, hkernel'.trans hkernel⟩
    rw [hmap]
    exact hdirs

/-- **`vmm_create_user_pd`** adds the frame of the new directory. -/
theorem RepresentsIn.createUserPd (h : RepresentsIn s dirs A tables) (hused : tables ⊆ inUse s.pmm)
    (hok : vmmCreateUserPd s = .ok (pd, s')) :
    ∃ n : Frame, (n : ℕ) ∈ s.pmm.clearFrames ∧ pd = framePtr n ∧
      s'.pmm.clearFrames = s.pmm.clearFrames.erase n ∧
      RepresentsIn s' (dirs ++ [pd]) (A.create KernelHalf) (insert n tables) := by
  have hlen := (h.represents hused).length_dirs
  obtain ⟨roots, table, hrep, hdirs, hkernel⟩ := h
  have hkernel' := (vmmCreateUserPd_keeps hok).kernelPd_eq
  have hroot : (roots 0 : ℕ) ∉ s.pmm.clearFrames := hused (hrep.root_used 0 hrep.count_pos)
  obtain ⟨n, hn, rfl, hpmm, hother, hcopy⟩ := vmmCreateUserPd_ok hok hkernel hroot
  refine ⟨n, hn, rfl, hpmm, Function.update roots A.count n, table, ?_, ?_, ?_⟩
  · exact hrep.create (fun hmem => hused hmem hn) hother hcopy
  · intro d
    show (dirs ++ [framePtr n])[d]? = if d < A.count + 1 then _ else none
    rcases Nat.lt_trichotomy d A.count with hlt | rfl | hgt
    · rw [List.getElem?_append_left (hlen ▸ hlt), hdirs, if_pos hlt, if_pos (by omega),
        Function.update_of_ne hlt.ne]
    · rw [← hlen, List.getElem?_concat_length, if_pos (Nat.lt_succ_self _), Function.update_self]
    · rw [List.getElem?_eq_none (by simp; omega), if_neg (by omega)]
  · rw [hkernel', hkernel, Function.update_of_ne hrep.count_pos.ne]

/-- After `vmm_init` the only directory is in a frame that was clear. -/
theorem representsIn_start (hok : vmmInit s = .ok s') :
    ∃ n : Frame, (n : ℕ) ∈ s.pmm.clearFrames ∧ s'.pmm.clearFrames = s.pmm.clearFrames.erase n ∧
      RepresentsIn s' [s'.kernelPd] Radix.Spaces.first {n} := by
  obtain ⟨n, hn, hpmm, hkernel, _, hwords⟩ := vmmInit_ok hok
  refine ⟨n, hn, hpmm, fun _ => n, fun _ _ => n, ?_, ?_, hkernel⟩
  · rw [hwords]
    exact Radix.RepBy.first rfl (Set.mem_singleton n)
  · intro d
    rw [hkernel]
    cases d with
    | zero => rfl
    | succ d => exact (if_neg (by simp [Radix.Spaces.first])).symm

end

end LunaOs
