import LunaOs.VmmSpaces

/-! # User-half translations

In the user half every directory is a partial map of its own, whatever else the kernel does: a
translation is decided by the last call of `vmm_map_page` or `vmm_unmap_page` on that directory and
that page. -/

namespace LunaOs

def SamePage (vaddr vaddr' : UInt32) : Prop := vaddr >>> 12 = vaddr' >>> 12

instance (vaddr vaddr' : UInt32) : Decidable (SamePage vaddr vaddr') :=
  inferInstanceAs (Decidable (_ = _))

/-- The operation maps or unmaps the page of `vaddr` in directory `d`. -/
def VmmOp.Hits (d : ℕ) (vaddr : UInt32) : VmmOp → Prop
  | .mapPage d' vaddr' _ _ => d' = d ∧ SamePage vaddr' vaddr
  | .unmapPage d' vaddr' => d' = d ∧ SamePage vaddr' vaddr
  | _ => False

/-- What the operation makes of the page of `vaddr` in directory `d`, where `e` tells what mapping
an address with flags leaves there. -/
def VmmOp.pageAfter {α : Type*} (e : UInt32 → UInt32 → α) (d : ℕ) (vaddr : UInt32)
    (page : Option α) : VmmOp → Option α
  | .mapPage d' vaddr' paddr flags =>
      if d' = d ∧ SamePage vaddr' vaddr then some (e paddr flags) else page
  | .unmapPage d' vaddr' => if d' = d ∧ SamePage vaddr' vaddr then none else page
  | _ => page

/-- Address and flags of the last `vmm_map_page` of the page, unless it was unmapped since. -/
def lastMapped (ops : List VmmOp) (d : ℕ) (vaddr : UInt32) : Option (UInt32 × UInt32) :=
  ops.foldl (fun page op => op.pageAfter Prod.mk d vaddr page) none

/-- `vmm_map_page` is called with flags below 0x1000. -/
def VmmOp.FlagsOk : VmmOp → Prop
  | .mapPage _ _ _ flags => flags < 0x1000
  | _ => True

theorem VmmOp.pageAfter_of_not_hits {α : Type*} (e : UInt32 → UInt32 → α) {d : ℕ} {vaddr : UInt32}
    (page : Option α) {op : VmmOp} (h : ¬ op.Hits d vaddr) :
    op.pageAfter e d vaddr page = page := by
  cases op with
  | mapPage d' vaddr' paddr flags => exact if_neg h
  | unmapPage d' vaddr' => exact if_neg h
  | createUserPd => rfl
  | switchPd d' => rfl
  | allocFrame => rfl
  | heapAllocPages n => rfl

theorem VmmOp.map_pageAfter {α β : Type*} (e : UInt32 → UInt32 → α) (g : α → β) (d : ℕ)
    (vaddr : UInt32) (page : Option α) (op : VmmOp) :
    (op.pageAfter e d vaddr page).map g =
      op.pageAfter (fun paddr flags => g (e paddr flags)) d vaddr (page.map g) := by
  unfold VmmOp.pageAfter
  cases op with
  | mapPage d' vaddr' paddr flags =>
      dsimp only
      split_ifs <;> rfl
  | unmapPage d' vaddr' =>
      dsimp only
      split_ifs <;> rfl
  | createUserPd => rfl
  | switchPd d' => rfl
  | allocFrame => rfl
  | heapAllocPages n => rfl

theorem lastMapped_flags {ops : List VmmOp} (hops : ∀ op ∈ ops, op.FlagsOk) {d : ℕ}
    {vaddr paddr flags : UInt32} (h : lastMapped ops d vaddr = some (paddr, flags)) :
    flags < 0x1000 := by
  induction ops using List.reverseRecOn with
  | nil => cases h
  | append_singleton ops op ih =>
      have hold := ih fun op' hop' => hops op' (List.mem_append_left _ hop')
      have hop : op.FlagsOk := hops op (List.mem_append_right _ List.mem_cons_self)
      unfold lastMapped at h hold
      rw [List.foldl_append, List.foldl_cons, List.foldl_nil] at h
      unfold VmmOp.pageAfter at h
      cases op with
      | mapPage d' vaddr' paddr' flags' =>
          dsimp only at h
          split_ifs at h with hhit
          · obtain ⟨rfl, rfl⟩ := Prod.mk.inj (Option.some.inj h)
            exact hop
          · exact hold h
      | unmapPage d' vaddr' =>
          dsimp only at h
          split_ifs at h with hhit
          exact hold h
      | createUserPd => exact hold h
      | switchPd d' => exact hold h
      | allocFrame => exact hold h
      | heapAllocPages n => exact hold h

theorem samePage_iff {vaddr vaddr' : UInt32} :
    SamePage vaddr' vaddr ↔ dirIx vaddr = dirIx vaddr' ∧ tabIx vaddr = tabIx vaddr' := by
  have htwelve : (12 : UInt32).toNat % 32 = 12 := rfl
  unfold SamePage
  rw [← UInt32.toNat_inj, UInt32.toNat_shiftRight, UInt32.toNat_shiftRight, htwelve,
    Nat.shiftRight_eq_div_pow, Nat.shiftRight_eq_div_pow, Fin.ext_iff, Fin.ext_iff]
  show _ ↔ vaddr.toNat / 2 ^ 22 = vaddr'.toNat / 2 ^ 22 ∧
    vaddr.toNat / 4096 % 1024 = vaddr'.toNat / 4096 % 1024
  omega

/-! ### Translations along a run -/

section
variable {s : Vmm} {dirs : List UInt32} {A A' : PageSpaces} {free : Finset ℕ} {cursor : UInt32}

theorem Represents.hit_iff (h : Represents s dirs A) {d d' : ℕ} (hd' : d' < A.count)
    {vaddr vaddr' : UInt32} (hv : vaddr < KERNEL_VIRT_BASE) :
    (d = A.owner d' (dirIx vaddr') ∧ dirIx vaddr = dirIx vaddr' ∧ tabIx vaddr = tabIx vaddr') ↔
      d' = d ∧ SamePage vaddr' vaddr := by
  rw [samePage_iff]
  have huser : ¬ KernelHalf (dirIx vaddr) := fun hk =>
    absurd (kernelHalf_dirIx.mp hk) (UInt32.not_le.mpr hv)
  constructor
  · rintro ⟨howner, hdir, htab⟩
    rw [← hdir, h.owner_of_user hd' huser] at howner
    exact ⟨howner.symm, hdir, htab⟩
  · rintro ⟨rfl, hdir, htab⟩
    refine ⟨?_, hdir, htab⟩
    rw [← hdir, h.owner_of_user hd' huser]

/-- **One step**: only operations on the page itself change a user-half page of a user
directory. -/
theorem Represents.page_step (h : Represents s dirs A) {op : VmmOp}
    (hstep : SpaceStep free cursor A op A') {d : ℕ} (hd : d ≠ 0) {vaddr : UInt32}
    (hv : vaddr < KERNEL_VIRT_BASE) :
    A'.page d (dirIx vaddr) (tabIx vaddr) =
      op.pageAfter pteWord d vaddr (A.page d (dirIx vaddr) (tabIx vaddr)) := by
  unfold SpaceStep at hstep
  unfold VmmOp.pageAfter
  cases op with
  | createUserPd =>
      rw [hstep]
      rfl
  | mapPage d' vaddr' paddr flags =>
      obtain ⟨hd', rfl⟩ := hstep
      rw [spaceMap_page]
      simp only [h.hit_iff hd' hv]
  | unmapPage d' vaddr' =>
      obtain ⟨hd', rfl⟩ := hstep
      rw [spaceUnmap_page]
      simp only [h.hit_iff hd' hv]
  | switchPd d' => rw [hstep]
  | allocFrame => rw [hstep]
  | heapAllocPages n =>
      obtain ⟨frames, _, _, rfl⟩ := hstep
      rw [spaceHeap_page_of_ne h.owner_zero _ _ hd]

end

/-- **One run**: a user-half page of a user directory is the last one mapped there. -/
theorem page_run {s₀ : Vmm} (h₀ : Represents s₀ [s₀.kernelPd] Radix.Spaces.first)
    {ops : List VmmOp} {c : VmmClient}
    (hrun : Runs.haltingRun VmmClient.step (VmmClient.start s₀) ops = some c) :
    ∃ A, Represents c.vmm c.dirs A ∧ ∀ d ≠ 0, ∀ vaddr < KERNEL_VIRT_BASE,
      A.page d (dirIx vaddr) (tabIx vaddr) =
        (lastMapped ops d vaddr).map fun m => pteWord m.1 m.2 := by
  refine Runs.haltingRun_history (fun ops c => ∃ A, Represents c.vmm c.dirs A ∧
    ∀ d ≠ 0, ∀ vaddr < KERNEL_VIRT_BASE, A.page d (dirIx vaddr) (tabIx vaddr) =
      (lastMapped ops d vaddr).map fun m => pteWord m.1 m.2) ?_ ⟨_, h₀, fun _ _ _ _ => rfl⟩ hrun
  rintro ops c op c' ⟨A, hrep, hpage⟩ hstep
  obtain ⟨A', hspace, hrep', _⟩ := hrep.step hstep
  refine ⟨A', hrep', fun d hd vaddr hv => ?_⟩
  rw [hrep.page_step hspace hd hv, hpage d hd vaddr hv]
  unfold lastMapped
  rw [List.foldl_append, List.foldl_cons, List.foldl_nil, VmmOp.map_pageAfter]

/-- **Page tables implement independent partial maps**: in every state of every run, a user-half
address translates in a user directory as the last `vmm_map_page` of its page there says, and no
operation elsewhere changes that. -/
theorem vmm_partial_maps (k : KernelImage) (entries : List MmapEntry) (mem : UInt32 → UInt32)
    (cr3 : UInt32) (s₀ : Vmm) (hinit : vmmInit (bootVmm k entries mem cr3) = .ok s₀)
    (ops : List VmmOp) (hops : ∀ op ∈ ops, op.FlagsOk) (c : VmmClient)
    (hrun : Runs.haltingRun VmmClient.step (VmmClient.start s₀) ops = some c)
    (d : ℕ) (hd : 1 ≤ d) (pd : UInt32) (hpd : c.dirs[d]? = some pd) (vaddr : UInt32)
    (hv : vaddr < 0xC0000000) :
    vmmVirtToPhys c.vmm pd vaddr =
      ((lastMapped ops d vaddr).elim 0 fun m => (m.1 &&& ~~~0xFFF) ||| (vaddr &&& 0xFFF)) ∧
    ∀ op c', c.step op = some c' → ¬ op.Hits d vaddr →
      vmmVirtToPhys c'.vmm pd vaddr = vmmVirtToPhys c.vmm pd vaddr := by
  obtain ⟨A, hrep, hpage⟩ := page_run (represents_start hinit) hrun
  have hd0 : d ≠ 0 := Nat.one_le_iff_ne_zero.mp hd
  have huser : ¬ KernelHalf (dirIx vaddr) := fun hk =>
    absurd (kernelHalf_dirIx.mp hk) (UInt32.not_le.mpr hv)
  have hphys : vmmVirtToPhys c.vmm pd vaddr =
      pageAddr (A.page d (dirIx vaddr) (tabIx vaddr)) vaddr := by
    rw [hrep.virtToPhys hpd, hrep.owner_of_user (hrep.lt_count hpd) huser]
  constructor
  · rw [hphys, hpage d hd0 vaddr hv]
    cases hlast : lastMapped ops d vaddr with
    | none => rfl
    | some m =>
        show (pteWord m.1 m.2 &&& ~~~0xFFF) ||| _ = _
        rw [pteWord_mask (lastMapped_flags hops hlast)]
        rfl
  · intro op c' hstep hmiss
    obtain ⟨A', hspace, hrep', _⟩ := hrep.step hstep
    have hpd' : c'.dirs[d]? = some pd := VmmClient.dirs_step hstep hpd
    rw [hphys, hrep'.virtToPhys hpd', hrep'.owner_of_user (hrep'.lt_count hpd') huser,
      hrep.page_step hspace hd0 hv, VmmOp.pageAfter_of_not_hits _ _ hmiss]

theorem vmm_partial_maps_roomyMap :
    ∃ s₀ c pd, vmmInit (bootVmm smallKernel roomyMap (fun _ => 0) 0) = .ok s₀ ∧
      Runs.haltingRun VmmClient.step (VmmClient.start s₀)
        [.createUserPd, .mapPage 1 0x400000 0x200000 0x007] = some c ∧
      c.dirs[1]? = some pd ∧ vmmVirtToPhys c.vmm pd 0x400123 = 0x200123 := by
  obtain ⟨s₀, c, hinit, hrun, hlen⟩ := Runnable.returns_roomyMap
    [.createUserPd, .mapPage 1 0x400000 0x200000 0x007] ⟨by decide, trivial⟩ (by decide)
  have hlt : 1 < c.dirs.length := by
    rw [hlen]
    decide
  have hpd : c.dirs[1]? = some c.dirs[1] := List.getElem?_eq_getElem hlt
  have hflags : ∀ op ∈ [VmmOp.createUserPd, .mapPage 1 0x400000 0x200000 0x007], op.FlagsOk := by
    simp [VmmOp.FlagsOk]
  obtain ⟨htrans, _⟩ := vmm_partial_maps smallKernel roomyMap _ _ s₀ hinit _ hflags c hrun 1 le_rfl
    _ hpd 0x400123 (by decide)
  exact ⟨s₀, c, _, hinit, hrun, hpd, htrans.trans (by decide)⟩

end LunaOs
