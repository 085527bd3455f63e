import LunaOs.DirectMap
import LunaOs.SurfaceLife

/-! # Who holds a frame

The physical memory manager does not record to whom it gave a frame.  Over the runs of all its callers, a
frame that was free at the start is clear, or belongs to exactly one active surface, or is **kept**: it
went to a directory, a page table, a kernel or user stack, or a page of the heap.  A kept frame is never
handed out again, because nothing but `surface_destroy` frees frames.  For the same reason a process that is
killed gives nothing back, and the frames bound how many processes are ever made. -/

namespace LunaOs

open Runs

/-- The frames of the active surfaces. -/
def SurfaceTable.frames (t : SurfaceTable) : Finset ℕ :=
  Finset.univ.biUnion fun i => if (t.surfaces i).active then (t.surfaces i).frames else ∅

/-- The frames out of `free` that are neither clear nor in a surface. -/
def Kernel.kept (free : Finset ℕ) (k : Kernel) : Finset ℕ :=
  free \ (k.vmm.pmm.clearFrames ∪ k.surfaces.frames)

/-- The calls that make and destroy surfaces. -/
def KernelOp.isSurface : KernelOp → Bool
  | .surfaceCreate _ _ _ => true
  | .surfaceDestroy _ => true
  | _ => false

/-- The frames that a call keeps for good, page tables aside. -/
def KernelOp.spends : KernelOp → ℕ
  | .createUserPd => 1
  | .heapAllocPages n => n.toNat
  | .processCreate _ _ _ _ => 4
  | .processSpawnRing3 _ _ => 1 + 4 + (PROCESS_STACK_SIZE / 4096).toNat
  | _ => 0

/-- What holds of the clear frames and the surfaces in every run; `free` is what was clear at the start. -/
structure Kernel.Divides (free : Finset ℕ) (k : Kernel) : Prop where
  clear : k.vmm.pmm.clearFrames ⊆ free
  owns : ActiveAll k.surfaces.surfaces fun s => s.OwnsRun (frameOf s.physBase)
  mem : ActiveAll k.surfaces.surfaces fun s => s.frames ⊆ free
  used : ActiveAll k.surfaces.surfaces fun s => Disjoint s.frames k.vmm.pmm.clearFrames
  disjoint : ActivePairwise k.surfaces.surfaces fun s t => Disjoint s.frames t.frames

theorem SurfaceTable.mem_frames {t : SurfaceTable} {f : ℕ} :
    f ∈ t.frames ↔ ∃ i, (t.surfaces i).active = true ∧ f ∈ (t.surfaces i).frames := by
  unfold SurfaceTable.frames
  simp only [Finset.mem_biUnion, Finset.mem_univ, true_and]
  refine exists_congr fun i => ?_
  split_ifs with hi
  · simp [hi]
  · simp [hi]

theorem Kernel.mem_kept {free : Finset ℕ} {k : Kernel} {f : ℕ} :
    f ∈ k.kept free ↔ f ∈ free ∧ f ∉ k.vmm.pmm.clearFrames ∧ f ∉ k.surfaces.frames := by
  unfold Kernel.kept
  rw [Finset.mem_sdiff, Finset.mem_union, not_or]

/-! ### What a call takes -/

/-- Addresses of frames that were clear before, and are not afterwards. -/
def Taken (p p' : Pmm) (l : List UInt32) : Prop :=
  ∀ phys ∈ l, ∃ f ∈ p.clearFrames, f ∉ p'.clearFrames ∧ phys = frameAddr f

section
variable {p p' q q' : Pmm} {l l' : List UInt32}

theorem Taken.nil (p p' : Pmm) : Taken p p' [] := fun _ hmem => absurd hmem List.not_mem_nil

theorem Taken.mono (h : Taken p p' l) (hbefore : q.Shrinks p) (hafter : p'.Shrinks q') : Taken q q' l := by
  intro phys hphys
  obtain ⟨f, hf, hnot, rfl⟩ := h phys hphys
  exact ⟨f, hbefore hf, fun hmem => hnot (hafter hmem), rfl⟩

theorem Taken.append (h : Taken p p' l) (h' : Taken p p' l') : Taken p p' (l ++ l') := by
  intro phys hphys
  rcases List.mem_append.mp hphys with hl | hl'
  · exact h phys hl
  · exact h' phys hl'

theorem whenOk_ok {ε α : Type} {x : Except ε α} {a : α} (h : x = .ok a) (f : α → List UInt32) :
    whenOk x f = f a := by
  rw [h]
  rfl

theorem freshFrame_taken {phys : UInt32} (h : pmmAllocFrame p = .ok (phys, p')) :
    Taken p p' (freshFrame p) := by
  obtain ⟨f, hf, rfl, hclear, _⟩ := pmmAllocFrame_ok h
  intro a ha
  unfold freshFrame at ha
  rw [whenOk_ok h, List.mem_singleton] at ha
  refine ⟨f, hf, ?_, ha⟩
  rw [hclear]
  exact Finset.notMem_erase f _

theorem freshFrames_taken {phys n : UInt32} (h : pmmAllocFrames p n = .ok (phys, p')) :
    Taken p p' (freshFrames p n) := by
  obtain ⟨start, hle, _, rfl, hmem, hclear, _⟩ := PmmClient.allocFrames_ok h
  intro a ha
  unfold freshFrames at ha
  rw [whenOk_ok h] at ha
  obtain ⟨j, hj, rfl⟩ := List.mem_map.mp ha
  have hlt : j < n.toNat := List.mem_range.mp hj
  refine ⟨start + j, hmem _ (by omega) (by omega), ?_, frameAddr_add (by omega)⟩
  rw [hclear, Finset.mem_sdiff, List.mem_toFinset, List.mem_range'_1]
  omega

theorem createUserPd_taken {s s' : Vmm} {pd : UInt32} (h : vmmCreateUserPd s = .ok (pd, s')) :
    Taken s.pmm s'.pmm (freshFrame s.pmm) := by
  obtain ⟨⟨phys, pmm⟩, halloc, hret⟩ := bind_eq_ok h
  obtain ⟨_, rfl⟩ := Prod.mk.inj (Except.ok.inj hret)
  exact freshFrame_taken halloc

theorem kernelStack_taken {s s' : Vmm} {phys : UInt32} (h : allocKernelStack s = .ok (phys, s')) :
    Taken s.pmm s'.pmm (freshFrames s.pmm 4) := by
  obtain ⟨pmm, halloc, rfl⟩ := allocKernelStack_ok h
  exact freshFrames_taken halloc

theorem freshTable_taken {s s' : Vmm} {pd vaddr paddr flags : UInt32}
    (h : vmmMapPage s pd vaddr paddr flags = .ok s') : Taken s.pmm s'.pmm (freshTable s pd vaddr) := by
  unfold freshTable
  split_ifs with hpresent
  · obtain ⟨⟨pt, s₁⟩, htable, hret⟩ := bind_eq_ok h
    obtain rfl := Except.ok.inj hret
    unfold pageTable at htable
    rw [if_pos hpresent] at htable
    obtain ⟨⟨phys, pmm⟩, halloc, hret⟩ := bind_eq_ok htable
    obtain ⟨_, rfl⟩ := Prod.mk.inj (Except.ok.inj hret)
    exact freshFrame_taken halloc
  · exact Taken.nil _ _

theorem heapTables_taken {n : ℕ} {s s' : Vmm} {cursor cursor' : UInt32}
    (h : heapAllocPages n s cursor = .ok (s', cursor')) : Taken s.pmm s'.pmm (heapTables n s cursor) := by
  induction n generalizing s cursor with
  | zero => exact Taken.nil _ _
  | succ n ih =>
      obtain ⟨⟨phys, pmm⟩, halloc, hpage⟩ := bind_eq_ok h
      obtain ⟨s₁, hmap, hrest⟩ := bind_eq_ok hpage
      unfold heapTables
      rw [whenOk_ok halloc, whenOk_ok hmap]
      have hfirst := pmmAllocFrame_shrinks halloc
      have htable := freshTable_taken hmap
      exact (htable.mono hfirst (heapAllocPages_keeps hrest).shrinks).append
        ((ih hrest).mono (hfirst.trans (vmmMapPage_keeps hmap).shrinks) (Pmm.Shrinks.refl _))

theorem stackTables_taken {pd ustackPhys : UInt32} {is : List ℕ} {s s' : Vmm}
    (h : is.foldlM (mapStackPage pd ustackPhys) s = .ok s') :
    Taken s.pmm s'.pmm (stackTables pd ustackPhys is s) := by
  induction is generalizing s with
  | nil => exact Taken.nil _ _
  | cons i is ih =>
      obtain ⟨s₁, hmap, hrest⟩ := bind_eq_ok h
      unfold stackTables
      rw [whenOk_ok hmap]
      exact ((freshTable_taken hmap).mono (Pmm.Shrinks.refl _) (foldlM_mapStackPage_shrinks hrest)).append
        ((ih hrest).mono (vmmMapPage_keeps hmap).shrinks (Pmm.Shrinks.refl _))

theorem spawnFrames_taken {s s' : ProcessManager} {name : CString} {entry : UInt32}
    {i : Fin MAX_PROCESSES} (h : processSpawnRing3 s name entry = .ok (i, s')) :
    Taken s.vmm.pmm s'.vmm.pmm (spawnFrames s) := by
  obtain ⟨hslot, pd, vmm₁, kstackPhys, vmm₂, ustackPhys, pmm, vmm₃, hdir, hstack, hustack, hmap,
    ⟨mem, heq⟩, _⟩ := processSpawnRing3_ok h
  have hstackShrinks := allocKernelStack_shrinks hstack
  have hmapShrinks := foldlM_mapStackPage_shrinks hmap
  have hrest := (PmmClient.allocFrames_shrinks hustack).trans hmapShrinks
  have hdirShrinks := (vmmCreateUserPd_keeps hdir).shrinks
  unfold spawnFrames
  rw [heq, whenOk_ok hslot, whenOk_ok hdir, whenOk_ok hstack, whenOk_ok hustack]
  dsimp only
  refine Taken.append ?_ (Taken.append ?_ ?_)
  · exact (createUserPd_taken hdir).mono (Pmm.Shrinks.refl _) (hstackShrinks.trans hrest)
  · exact (kernelStack_taken hstack).mono hdirShrinks hrest
  · have hbefore := hdirShrinks.trans (hstackShrinks.trans (PmmClient.allocFrames_shrinks hustack))
    exact (stackTables_taken hmap).mono hbefore (Pmm.Shrinks.refl _)

end

/-! ### What a call keeps -/

section
variable {free : Finset ℕ} {k k' : Kernel}

/-- A call that makes no surface and destroys none, with what it reaches and what it costs. -/
structure Kernel.Keeps (k k' : Kernel) (op : KernelOp) : Prop where
  surfaces_eq : k'.surfaces = k.surfaces
  shrinks : k.vmm.pmm.Shrinks k'.vmm.pmm
  taken : Taken k.vmm.pmm k'.vmm.pmm (k.reaches op)
  spends : k'.vmm.pmm.clearFrames.card + op.spends ≤ k.vmm.pmm.clearFrames.card

theorem Pmm.Shrinks.card_le {p p' : Pmm} (h : p.Shrinks p') : p'.clearFrames.card ≤ p.clearFrames.card :=
  Finset.card_le_card h

/-- The fields of `Keeps`, with the costs of the call evaluated. -/
theorem Kernel.Keeps.of_cost {op : KernelOp} {n : ℕ} (hn : op.spends = n) (hsurfaces : k'.surfaces = k.surfaces)
    (hshrinks : k.vmm.pmm.Shrinks k'.vmm.pmm) (htaken : Taken k.vmm.pmm k'.vmm.pmm (k.reaches op))
    (hcard : k'.vmm.pmm.clearFrames.card + n ≤ k.vmm.pmm.clearFrames.card) : k.Keeps k' op :=
  ⟨hsurfaces, hshrinks, htaken, by rwa [hn]⟩

theorem Kernel.Keeps.of_free {op : KernelOp} (hn : op.spends = 0) (hsurfaces : k'.surfaces = k.surfaces)
    (hshrinks : k.vmm.pmm.Shrinks k'.vmm.pmm) (htaken : Taken k.vmm.pmm k'.vmm.pmm (k.reaches op)) :
    k.Keeps k' op :=
  ⟨hsurfaces, hshrinks, htaken, by
    rw [hn, Nat.add_zero]
    exact hshrinks.card_le⟩

theorem card_allocFrame {p p' : Pmm} {phys : UInt32} (h : pmmAllocFrame p = .ok (phys, p')) :
    p'.clearFrames.card + 1 = p.clearFrames.card := by
  obtain ⟨f, hf, _, hclear, _⟩ := pmmAllocFrame_ok h
  rw [hclear]
  exact Finset.card_erase_add_one hf

theorem card_allocFrames {p p' : Pmm} {phys n : UInt32} (h : pmmAllocFrames p n = .ok (phys, p')) :
    p'.clearFrames.card + n.toNat = p.clearFrames.card := by
  obtain ⟨start, _, _, _, hmem, hclear, _⟩ := PmmClient.allocFrames_ok h
  have hsub : (List.range' start n.toNat).toFinset ⊆ p.clearFrames := by
    intro f hf
    obtain ⟨h1, h2⟩ := List.mem_range'_1.mp (List.mem_toFinset.mp hf)
    exact hmem f h1 h2
  have hcard := Finset.card_sdiff_add_card_eq_card hsub
  rwa [List.toFinset_card_of_nodup List.nodup_range', List.length_range', ← hclear] at hcard

theorem card_createUserPd {s s' : Vmm} {pd : UInt32} (h : vmmCreateUserPd s = .ok (pd, s')) :
    s'.pmm.clearFrames.card + 1 = s.pmm.clearFrames.card := by
  obtain ⟨⟨phys, pmm⟩, halloc, hret⟩ := bind_eq_ok h
  obtain ⟨_, rfl⟩ := Prod.mk.inj (Except.ok.inj hret)
  exact card_allocFrame halloc

theorem card_allocKernelStack {s s' : Vmm} {phys : UInt32} (h : allocKernelStack s = .ok (phys, s')) :
    s'.pmm.clearFrames.card + 4 = s.pmm.clearFrames.card := by
  obtain ⟨pmm, halloc, rfl⟩ := allocKernelStack_ok h
  exact card_allocFrames halloc

theorem card_heapAllocPages {n : ℕ} {s s' : Vmm} {cursor cursor' : UInt32}
    (h : heapAllocPages n s cursor = .ok (s', cursor')) :
    s'.pmm.clearFrames.card + n ≤ s.pmm.clearFrames.card := by
  induction n generalizing s cursor with
  | zero =>
      rw [Nat.add_zero]
      exact (heapAllocPages_keeps h).shrinks.card_le
  | succ n ih =>
      obtain ⟨⟨phys, pmm⟩, halloc, hpage⟩ := bind_eq_ok h
      obtain ⟨s₁, hmap, hrest⟩ := bind_eq_ok hpage
      have hpages := ih hrest
      have htable : s₁.pmm.clearFrames.card ≤ pmm.clearFrames.card := (vmmMapPage_keeps hmap).shrinks.card_le
      have hpage : pmm.clearFrames.card + 1 = s.pmm.clearFrames.card := card_allocFrame halloc
      omega

theorem card_processSpawnRing3 {s s' : ProcessManager} {name : CString} {entry : UInt32}
    {i : Fin MAX_PROCESSES} (h : processSpawnRing3 s name entry = .ok (i, s')) :
    s'.vmm.pmm.clearFrames.card + (1 + 4 + (PROCESS_STACK_SIZE / 4096).toNat) ≤
      s.vmm.pmm.clearFrames.card := by
  obtain ⟨_, pd, vmm₁, kstackPhys, vmm₂, ustackPhys, pmm, vmm₃, hdir, hstack, hustack, hmap,
    ⟨mem, heq⟩, _⟩ := processSpawnRing3_ok h
  have hdirCard := card_createUserPd hdir
  have hstackCard := card_allocKernelStack hstack
  have hustackCard := card_allocFrames hustack
  have hmapCard : vmm₃.pmm.clearFrames.card ≤ pmm.clearFrames.card := (foldlM_mapStackPage_shrinks hmap).card_le
  rw [heq]
  dsimp only
  omega

/-- By cases on the call: only `surface_destroy` frees frames. -/
theorem Kernel.keeps_of_exec {op : KernelOp} (hop : op.isSurface = false) (hok : k.exec op = .ok k') :
    k.Keeps k' op := by
  unfold Kernel.exec at hok
  cases op with
  | createUserPd =>
      obtain ⟨⟨pd, vmm⟩, hcall, hret⟩ := bind_eq_ok hok
      obtain rfl := Except.ok.inj hret
      have hcall := mapError_eq_ok hcall
      exact .of_cost rfl rfl (vmmCreateUserPd_keeps hcall).shrinks (createUserPd_taken hcall)
        (card_createUserPd hcall).le
  | mapPage pd vaddr paddr flags =>
      obtain ⟨vmm, hcall, hret⟩ := bind_eq_ok hok
      obtain rfl := Except.ok.inj hret
      have hcall := mapError_eq_ok hcall
      have hshrinks := (vmmMapPage_keeps hcall).shrinks
      exact .of_free rfl rfl hshrinks (freshTable_taken hcall)
  | unmapPage pd vaddr =>
      obtain rfl := Except.ok.inj hok
      have hshrinks := (vmmUnmapPage_keeps k.vmm pd vaddr).shrinks
      exact .of_free rfl rfl hshrinks (Taken.nil _ _)
  | switchPd pd =>
      obtain rfl := Except.ok.inj hok
      exact .of_free rfl rfl (Pmm.Shrinks.refl _) (Taken.nil _ _)
  | heapAllocPages n =>
      obtain ⟨⟨vmm, cursor⟩, hcall, hret⟩ := bind_eq_ok hok
      obtain rfl := Except.ok.inj hret
      have hcall := mapError_eq_ok hcall
      exact .of_cost rfl rfl (heapAllocPages_keeps hcall).shrinks (heapTables_taken hcall)
        (card_heapAllocPages hcall)
  | processCreate name entry ring priority =>
      obtain ⟨⟨i, s⟩, hcall, hret⟩ := bind_eq_ok hok
      obtain rfl := Except.ok.inj hret
      obtain ⟨hslot, kstackPhys, hstack⟩ := processCreate_ok hcall
      refine .of_cost rfl rfl (allocKernelStack_shrinks hstack) ?_ (card_allocKernelStack hstack).le
      unfold Kernel.reaches
      dsimp only
      rw [whenOk_ok hslot]
      exact kernelStack_taken hstack
  | processSpawnRing3 name entry =>
      obtain ⟨⟨i, s⟩, hcall, hret⟩ := bind_eq_ok hok
      obtain rfl := Except.ok.inj hret
      exact .of_cost rfl rfl (processSpawnRing3_shrinks hcall) (spawnFrames_taken hcall)
        (card_processSpawnRing3 hcall)
  | processKill pid =>
      obtain rfl := Except.ok.inj hok
      have hshrinks : k.vmm.pmm.Shrinks (processKill k.toProcessManager pid).vmm.pmm := by
        rw [processKill_vmm]
        exact Pmm.Shrinks.refl _
      exact .of_free rfl rfl hshrinks (Taken.nil _ _)
  | surfaceCreate pid w height => cases hop
  | surfaceDestroy id => cases hop

/-! ### Runs -/

theorem Kernel.Divides.start {vmm : Vmm} {processTable : Fin MAX_PROCESSES → Process}
    {pidCounter tssEsp0 : UInt32} {surfaces : SurfaceTable} :
    (Kernel.start vmm processTable pidCounter tssEsp0 surfaces).Divides vmm.pmm.clearFrames where
  clear := Finset.Subset.refl _
  owns := fun _ hi => absurd hi Bool.false_ne_true
  mem := fun _ hi => absurd hi Bool.false_ne_true
  used := fun _ hi => absurd hi Bool.false_ne_true
  disjoint := fun _ _ hi => absurd hi Bool.false_ne_true

theorem Kernel.Divides.keeps (h : k.Divides free) {op : KernelOp} (hkeeps : k.Keeps k' op) :
    k'.Divides free ∧ k.kept free ⊆ k'.kept free ∧
      k.vmm.pmm.clearFrames \ k'.vmm.pmm.clearFrames ⊆ k'.kept free := by
  refine ⟨⟨Finset.Subset.trans hkeeps.shrinks h.clear, ?_, ?_, ?_, ?_⟩, ?_, ?_⟩
  · rw [hkeeps.surfaces_eq]
    exact h.owns
  · rw [hkeeps.surfaces_eq]
    exact h.mem
  · rw [hkeeps.surfaces_eq]
    exact h.used.imp fun s hs => hs.mono_right hkeeps.shrinks
  · rw [hkeeps.surfaces_eq]
    exact h.disjoint
  · intro f hf
    obtain ⟨hfree, hclear, hsurface⟩ := Kernel.mem_kept.mp hf
    refine Kernel.mem_kept.mpr ⟨hfree, fun hmem => hclear (hkeeps.shrinks hmem), ?_⟩
    rwa [hkeeps.surfaces_eq]
  · intro f hf
    obtain ⟨hclear, hnot⟩ := Finset.mem_sdiff.mp hf
    refine Kernel.mem_kept.mpr ⟨h.clear hclear, hnot, ?_⟩
    rw [hkeeps.surfaces_eq, SurfaceTable.mem_frames]
    rintro ⟨i, hi, hmem⟩
    exact Finset.disjoint_left.mp (h.used i hi) hmem hclear

/-- The frames of a new surface were clear. -/
theorem Kernel.Divides.surfaceCreate (h : k.Divides free) {pid w height : UInt32}
    {slot : Option (Fin MAX_SURFACES)} {surfaces : SurfaceTable} {pmm : Pmm}
    (hok : surfaceCreate k.surfaces k.vmm.pmm pid w height = .ok (slot, surfaces, pmm)) :
    Kernel.Divides free { k with vmm := { k.vmm with pmm }, surfaces } ∧
      k.kept free ⊆ Kernel.kept free { k with vmm := { k.vmm with pmm }, surfaces } := by
  rcases surfaceCreate_ok hok with ⟨_, _, rfl, rfl⟩ |
    ⟨i, s, start, _, hslot, _, rfl, hrun, hstart, rfl, rfl, _, _, _, _, hclear, hpmm⟩
  · exact ⟨⟨h.clear, h.owns, h.mem, h.used, h.disjoint⟩, Finset.Subset.refl _⟩
  have hframes := hrun.frames_eq hstart
  have hsub : s.frames ⊆ k.vmm.pmm.clearFrames := by
    intro f hf
    rw [hframes, Finset.mem_Ico] at hf
    exact hclear f hf.1 hf.2
  have hpmm : pmm.clearFrames = k.vmm.pmm.clearFrames \ s.frames := by rw [hpmm, hframes]; rfl
  refine ⟨⟨?_, ?_, ?_, ?_, ?_⟩, ?_⟩
  · dsimp only
    rw [hpmm]
    exact Finset.Subset.trans Finset.sdiff_subset h.clear
  · refine h.owns.update fun _ => ?_
    rwa [hrun.physBase_eq, frameOf_frameAddr hstart]
  · exact h.mem.update fun _ => Finset.Subset.trans hsub h.clear
  · dsimp only
    rw [hpmm]
    exact (h.used.imp fun x hx => hx.mono_right Finset.sdiff_subset).update fun _ => Finset.disjoint_sdiff
  · refine h.disjoint.update (fun _ _ hdisjoint => hdisjoint.symm) fun _ j _ hj => ?_
    exact (h.used j hj).symm.mono_left hsub
  · intro f hf
    obtain ⟨hfree, hnot, hsurface⟩ := Kernel.mem_kept.mp hf
    refine Kernel.mem_kept.mpr ⟨hfree, ?_, ?_⟩
    · dsimp only
      rw [hpmm]
      exact fun hmem => hnot (Finset.mem_sdiff.mp hmem).1
    · rw [SurfaceTable.mem_frames]
      rintro ⟨j, hj, hmem⟩
      dsimp only at hj hmem
      by_cases hji : j = i
      · rw [hji, Function.update_self] at hmem
        exact hnot (hsub hmem)
      · rw [Function.update_of_ne hji] at hj hmem
        exact hsurface (SurfaceTable.mem_frames.mpr ⟨j, hj, hmem⟩)

/-- The frames of a surface that is destroyed are clear again, and no others. -/
theorem Kernel.Divides.surfaceDestroy (h : k.Divides free) (id : UInt32) :
    Kernel.Divides free { k with
        vmm := { k.vmm with pmm := (surfaceDestroy k.surfaces k.vmm.pmm id).2 }
        surfaces := (surfaceDestroy k.surfaces k.vmm.pmm id).1 } ∧
      k.kept free ⊆ Kernel.kept free { k with
        vmm := { k.vmm with pmm := (surfaceDestroy k.surfaces k.vmm.pmm id).2 }
        surfaces := (surfaceDestroy k.surfaces k.vmm.pmm id).1 } := by
  rcases surfaceDestroy_cases k.surfaces k.vmm.pmm id with ⟨_, heq⟩ | ⟨i, _, hi, _, heq⟩
  · rw [heq]
    exact ⟨⟨h.clear, h.owns, h.mem, h.used, h.disjoint⟩, Finset.Subset.refl _⟩
  have hrelease := (h.owns i hi).clearFrames_release k.vmm.pmm
  have hgone : ({ k.surfaces.surfaces i with active := false } : SharedSurface).active ≠ true :=
    Bool.false_ne_true
  rw [heq]
  dsimp only
  refine ⟨⟨?_, ?_, ?_, ?_, ?_⟩, ?_⟩
  · dsimp only
    rw [hrelease]
    exact Finset.union_subset h.clear (h.mem i hi)
  · exact h.owns.update fun ha => absurd ha hgone
  · exact h.mem.update fun ha => absurd ha hgone
  · intro j hj
    dsimp only at hj ⊢
    by_cases hji : j = i
    · rw [hji, Function.update_self] at hj
      exact absurd hj hgone
    · rw [Function.update_of_ne hji] at hj ⊢
      rw [hrelease, Finset.disjoint_union_right]
      exact ⟨h.used j hj, h.disjoint j i hj hi hji⟩
  · exact h.disjoint.update (fun _ _ hdisjoint => hdisjoint.symm) fun ha => absurd ha hgone
  · intro f hf
    obtain ⟨hfree, hnot, hsurface⟩ := Kernel.mem_kept.mp hf
    refine Kernel.mem_kept.mpr ⟨hfree, ?_, ?_⟩
    · dsimp only
      rw [hrelease, Finset.mem_union, not_or]
      exact ⟨hnot, fun hmem => hsurface (SurfaceTable.mem_frames.mpr ⟨i, hi, hmem⟩)⟩
    · rw [SurfaceTable.mem_frames]
      rintro ⟨j, hj, hmem⟩
      dsimp only at hj hmem
      by_cases hji : j = i
      · rw [hji, Function.update_self] at hj
        exact absurd hj hgone
      · rw [Function.update_of_ne hji] at hj hmem
        exact hsurface (SurfaceTable.mem_frames.mpr ⟨j, hj, hmem⟩)

theorem Kernel.Divides.step (h : k.Divides free) {op : KernelOp} (hstep : k.step op = some k') :
    k'.Divides free ∧ k.kept free ⊆ k'.kept free := by
  have hok := Kernel.step_eq_some.mp hstep
  by_cases hop : op.isSurface = false
  · obtain ⟨hdivides, hkept, _⟩ := h.keeps (Kernel.keeps_of_exec hop hok)
    exact ⟨hdivides, hkept⟩
  · cases op with
    | surfaceCreate pid w height =>
        obtain ⟨⟨slot, surfaces, pmm⟩, hcall, hret⟩ := bind_eq_ok hok
        obtain rfl := Except.ok.inj hret
        exact h.surfaceCreate (mapError_eq_ok hcall)
    | surfaceDestroy id =>
        obtain rfl := Except.ok.inj hok
        exact h.surfaceDestroy id
    | _ => exact absurd rfl hop

/-- Along a run frames only move to the kept ones. -/
theorem Kernel.Divides.run (h : k.Divides free) {ops : List KernelOp}
    (hrun : haltingRun Kernel.step k ops = some k') : k'.Divides free ∧ k.kept free ⊆ k'.kept free := by
  have hstep : ∀ (k₁ : Kernel) (op : KernelOp) (k₂ : Kernel), k₁.Divides free ∧ k.kept free ⊆ k₁.kept free →
      k₁.step op = some k₂ → k₂.Divides free ∧ k.kept free ⊆ k₂.kept free := by
    intro k₁ op k₂ hk₁ hstep
    obtain ⟨hdivides, hkept⟩ := hk₁.1.step hstep
    exact ⟨hdivides, Finset.Subset.trans hk₁.2 hkept⟩
  exact haltingRun_invariant hstep ⟨h, Finset.Subset.refl _⟩ hrun

/-- What a call takes is added to the frames that are kept. -/
theorem Kernel.Divides.spends (h : k.Divides free) {op : KernelOp} (hstep : k.step op = some k') :
    (k.kept free).card + op.spends ≤ (k'.kept free).card := by
  by_cases hop : op.isSurface = false
  · have hkeeps := Kernel.keeps_of_exec hop (Kernel.step_eq_some.mp hstep)
    obtain ⟨_, hkept, htaken⟩ := h.keeps hkeeps
    have hdisjoint : Disjoint (k.kept free) (k.vmm.pmm.clearFrames \ k'.vmm.pmm.clearFrames) := by
      refine Finset.disjoint_left.mpr fun f hf hmem => ?_
      exact (Kernel.mem_kept.mp hf).2.1 (Finset.mem_sdiff.mp hmem).1
    have hcard := Finset.card_le_card (Finset.union_subset hkept htaken)
    have hsub := Finset.card_sdiff_add_card_eq_card hkeeps.shrinks
    have hspends := hkeeps.spends
    rw [Finset.card_union_of_disjoint hdisjoint] at hcard
    omega
  · have hzero : op.spends = 0 := by
      cases op with
      | surfaceCreate pid w height => rfl
      | surfaceDestroy id => rfl
      | _ => exact absurd rfl hop
    rw [hzero, Nat.add_zero]
    exact Finset.card_le_card (h.step hstep).2

theorem Kernel.Divides.spends_run (h : k.Divides free) {ops : List KernelOp}
    (hrun : haltingRun Kernel.step k ops = some k') :
    (k.kept free).card + (ops.map KernelOp.spends).sum ≤ (k'.kept free).card := by
  induction ops generalizing k with
  | nil =>
      obtain rfl := Option.some.inj hrun
      exact le_refl _
  | cons op ops ih =>
      obtain ⟨k₁, hstep, hrest⟩ := haltingRun_cons.mp hrun
      have hfirst := h.spends hstep
      have hrest := ih (h.step hstep).1 hrest
      rw [List.map_cons, List.sum_cons]
      omega

/-- Every frame has exactly one holder. -/
theorem Kernel.Divides.card (h : k.Divides free) :
    (k.kept free).card + k.vmm.pmm.clearFrames.card + ∑ i, (k.surfaces.surfaces i).activePages =
      free.card := by
  have hframes : k.surfaces.frames ⊆ free := by
    intro f hf
    obtain ⟨i, hi, hmem⟩ := SurfaceTable.mem_frames.mp hf
    exact h.mem i hi hmem
  have hdisjoint : Disjoint k.vmm.pmm.clearFrames k.surfaces.frames := by
    refine Finset.disjoint_left.mpr fun f hclear hf => ?_
    obtain ⟨i, hi, hmem⟩ := SurfaceTable.mem_frames.mp hf
    exact Finset.disjoint_left.mp (h.used i hi) hmem hclear
  have hcard : k.surfaces.frames.card = ∑ i, (k.surfaces.surfaces i).activePages := by
    unfold SurfaceTable.frames
    rw [Finset.card_biUnion]
    · refine Finset.sum_congr rfl fun i _ => ?_
      unfold SharedSurface.activePages
      split_ifs
      · exact SharedSurface.card_frames _
      · rfl
    · intro i _ j _ hij
      unfold Function.onFun
      dsimp only
      split_ifs with hi hj
      · exact h.disjoint i j hi hj hij
      · exact Finset.disjoint_empty_right _
      · exact Finset.disjoint_empty_left _
      · exact Finset.disjoint_empty_left _
  have hsub := Finset.card_sdiff_add_card_eq_card (Finset.union_subset h.clear hframes)
  rw [Finset.card_union_of_disjoint hdisjoint, hcard] at hsub
  unfold Kernel.kept
  omega

end

/-- **A frame has one holder in every run.**  No two active surfaces share a frame, and no surface has one
that is clear.  What any other call obtains from the PMM and addresses was clear before the call and is not
after it; and the frames that it takes are never clear again, in no surface, and obtained by no later call,
whatever happens afterwards. -/
theorem frames_one_owner (vmm : Vmm) (processTable : Fin MAX_PROCESSES → Process)
    (pidCounter tssEsp0 : UInt32) (surfaces : SurfaceTable) (ops : List KernelOp) (k : Kernel)
    (hrun : haltingRun Kernel.step (Kernel.start vmm processTable pidCounter tssEsp0 surfaces) ops = some k) :
    (∀ i j, (k.surfaces.surfaces i).active = true → (k.surfaces.surfaces j).active = true → i ≠ j →
        Disjoint (k.surfaces.surfaces i).frames (k.surfaces.surfaces j).frames) ∧
      (∀ i, (k.surfaces.surfaces i).active = true →
        Disjoint (k.surfaces.surfaces i).frames k.vmm.pmm.clearFrames) ∧
      ∀ op k', op.isSurface = false → k.step op = some k' →
        (∀ phys ∈ k.reaches op,
          ∃ f ∈ k.vmm.pmm.clearFrames \ k'.vmm.pmm.clearFrames, phys = frameAddr f) ∧
        ∀ f ∈ k.vmm.pmm.clearFrames \ k'.vmm.pmm.clearFrames, ∀ ops' s,
          haltingRun Kernel.step k' ops' = some s →
          f ∉ s.vmm.pmm.clearFrames ∧ f ∉ s.surfaces.frames ∧ ∀ op', frameAddr f ∉ s.reaches op' := by
  obtain ⟨hdivides, _⟩ := Kernel.Divides.start.run hrun
  refine ⟨hdivides.disjoint, hdivides.used, fun op k' hop hstep => ?_⟩
  have hkeeps := Kernel.keeps_of_exec hop (Kernel.step_eq_some.mp hstep)
  obtain ⟨hdivides', _, htaken⟩ := hdivides.keeps hkeeps
  refine ⟨fun phys hphys => ?_, fun f hf ops' s hrun' => ?_⟩
  · obtain ⟨f, hf, hnot, rfl⟩ := hkeeps.taken phys hphys
    exact ⟨f, Finset.mem_sdiff.mpr ⟨hf, hnot⟩, rfl⟩
  · have hlt := Pmm.lt_of_mem (Finset.mem_sdiff.mp hf).1
    obtain ⟨_, hclear, hsurface⟩ := Kernel.mem_kept.mp ((hdivides'.run hrun').2 (htaken hf))
    refine ⟨hclear, hsurface, fun op' hreach => ?_⟩
    obtain ⟨g, hg, heq⟩ := Kernel.reaches_within (Finset.Subset.refl _) op' _ hreach
    have hfg := congrArg frameOf heq
    rw [frameOf_frameAddr hlt, frameOf_frameAddr (Pmm.lt_of_mem hg)] at hfg
    exact hclear (hfg ▸ hg)

/-- The manager with every frame clear, and no process and no surface. -/
def emptyKernel : Kernel :=
  Kernel.start ⟨emptyPmm, fun _ => 0, 0, 0⟩ (fun _ => { state := .dead }) 1 0 bootSurfaces

theorem frames_one_owner_twice :
    ∃ k, haltingRun Kernel.step emptyKernel
        [.surfaceCreate 7 64 64, .createUserPd, .surfaceDestroy 1, .surfaceCreate 8 32 32] = some k ∧
      ∀ i, (k.surfaces.surfaces i).active = true →
        Disjoint (k.surfaces.surfaces i).frames k.vmm.pmm.clearFrames := by
  have hrun : (haltingRun Kernel.step emptyKernel
      [.surfaceCreate 7 64 64, .createUserPd, .surfaceDestroy 1, .surfaceCreate 8 32 32]).isSome = true := by
    decide +kernel
  obtain ⟨k, hk⟩ := Option.isSome_iff_exists.mp hrun
  exact ⟨k, hk, (frames_one_owner _ _ _ _ _ _ k hk).2.1⟩

/-- **Nothing that a process got comes back.**  In every run the frames of all processes ever made, also
those that were killed, the clear frames and the pages of the surfaces fit side by side into what was free at
the start. -/
theorem frames_spent (vmm : Vmm) (processTable : Fin MAX_PROCESSES → Process)
    (pidCounter tssEsp0 : UInt32) (surfaces : SurfaceTable) (ops : List KernelOp) (k : Kernel)
    (hrun : haltingRun Kernel.step (Kernel.start vmm processTable pidCounter tssEsp0 surfaces) ops = some k) :
    (ops.map KernelOp.spends).sum + k.vmm.pmm.clearFrames.card +
      ∑ i, (k.surfaces.surfaces i).activePages ≤ vmm.pmm.clearFrames.card := by
  have hstart : (Kernel.start vmm processTable pidCounter tssEsp0 surfaces).Divides vmm.pmm.clearFrames :=
    Kernel.Divides.start
  have hspends := hstart.spends_run hrun
  have hcard := (hstart.run hrun).1.card
  omega

theorem frames_spent_killed :
    ∃ k, haltingRun Kernel.step emptyKernel
        [.processCreate ⟨[], by simp⟩ 0 0 1, .processKill 1, .createUserPd] = some k ∧
      5 + k.vmm.pmm.clearFrames.card + ∑ i, (k.surfaces.surfaces i).activePages ≤
        emptyPmm.clearFrames.card := by
  have hrun : (haltingRun Kernel.step emptyKernel
      [.processCreate ⟨[], by simp⟩ 0 0 1, .processKill 1, .createUserPd]).isSome = true := by
    decide +kernel
  obtain ⟨k, hk⟩ := Option.isSome_iff_exists.mp hrun
  have hspent := frames_spent _ _ _ _ _ _ k hk
  have hsum : ([.processCreate ⟨[], by simp⟩ 0 0 1, .processKill 1, .createUserPd].map
      KernelOp.spends).sum = 5 := rfl
  rw [hsum] at hspent
  exact ⟨k, hk, hspent⟩

end LunaOs
