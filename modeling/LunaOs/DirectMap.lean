import LunaOs.VmmSpaces
import LunaOs.Process
import LunaOs.Surface

/-! # The direct-map window

Page directories, page tables, kernel stacks and surfaces are reached at their physical address plus
0xC0000000.  The window for that ends at 0xD0000000, where the heap starts, so it holds the first
65536 frames.  A run interleaves the callers of the physical memory manager in any order, with any
arguments; `KernelOp` lists them all.

The frames that are reached in this way in some run are exactly the frames that are free when
`vmm_init` has returned. -/

namespace LunaOs

/-- The state of the modules that allocate frames. -/
structure Kernel extends ProcessManager where
  heapCursor : UInt32
  surfaces : SurfaceTable

/-- The calls of the users of frames. -/
inductive KernelOp where
  | createUserPd
  | mapPage (pd vaddr paddr flags : UInt32)
  | unmapPage (pd vaddr : UInt32)
  | switchPd (pd : UInt32)
  | heapAllocPages (n : UInt32)
  | processCreate (name : CString) (entry : UInt32) (ring priority : UInt8)
  | processSpawnRing3 (name : CString) (entry : UInt32)
  | processKill (pid : UInt32)
  | surfaceCreate (pid w h : UInt32)
  | surfaceDestroy (id : UInt32)

def Kernel.exec (k : Kernel) : KernelOp → Except KernelPanic Kernel
  | .createUserPd => do
      let (_, vmm) ← (vmmCreateUserPd k.vmm).mapError .pmm
      .ok { k with vmm }
  | .mapPage pd vaddr paddr flags => do
      let vmm ← (vmmMapPage k.vmm pd vaddr paddr flags).mapError .pmm
      .ok { k with vmm }
  | .unmapPage pd vaddr => .ok { k with vmm := vmmUnmapPage k.vmm pd vaddr }
  | .switchPd pd => .ok { k with vmm := vmmSwitchPd k.vmm pd }
  | .heapAllocPages n => do
      let (vmm, heapCursor) ← (heapAllocPages n.toNat k.vmm k.heapCursor).mapError .pmm
      .ok { k with vmm, heapCursor }
  | .processCreate name entry ring priority => do
      let (_, s) ← processCreate k.toProcessManager name entry ring priority
      .ok { k with toProcessManager := s }
  | .processSpawnRing3 name entry => do
      let (_, s) ← processSpawnRing3 k.toProcessManager name entry
      .ok { k with toProcessManager := s }
  | .processKill pid => .ok { k with toProcessManager := processKill k.toProcessManager pid }
  | .surfaceCreate pid w h => do
      let (_, surfaces, pmm) ← (surfaceCreate k.surfaces k.vmm.pmm pid w h).mapError .pmm
      .ok { k with vmm := { k.vmm with pmm }, surfaces }
  | .surfaceDestroy id =>
      let (surfaces, pmm) := surfaceDestroy k.surfaces k.vmm.pmm id
      .ok { k with vmm := { k.vmm with pmm }, surfaces }

/-- One call; a panic ends the run. -/
def Kernel.step (k : Kernel) (op : KernelOp) : Option Kernel := (k.exec op).toOption

/-- After `vmm_init` and `surface_init`, with any process table: `process_init` leaves no slot dead, so
that no process would be made at all. -/
def Kernel.start (vmm : Vmm) (processTable : Fin MAX_PROCESSES → Process)
    (pidCounter tssEsp0 : UInt32) (surfaces : SurfaceTable) : Kernel :=
  { vmm, processTable, pidCounter, tssEsp0, heapCursor := HEAP_VIRT_BASE,
    surfaces := surfaceInit surfaces }

/-! ### The frames a call reaches

The physical addresses of the frames that a call obtains from the PMM and then addresses at an offset of
0xC0000000, also when it panics later on.  Frames that are only mapped, for the heap or a user stack, are not
among them, nor are the directories and page tables that were there before the call. -/

/-- What is reached after `x`, if `x` does not panic. -/
def whenOk {ε α : Type} (x : Except ε α) (f : α → List UInt32) : List UInt32 :=
  match x with
  | .ok a => f a
  | .error _ => []

theorem mem_whenOk {ε α : Type} {x : Except ε α} {f : α → List UInt32} {phys : UInt32} :
    phys ∈ whenOk x f ↔ ∃ a, x = .ok a ∧ phys ∈ f a := by
  cases x with
  | error e => simp [whenOk]
  | ok a => simp [whenOk]

/-- The frame of `pmm_alloc_frame`. -/
def freshFrame (p : Pmm) : List UInt32 := whenOk (pmmAllocFrame p) fun r => [r.1]

/-- The frames of `pmm_alloc_frames`. -/
def freshFrames (p : Pmm) (n : UInt32) : List UInt32 :=
  whenOk (pmmAllocFrames p n) fun r =>
    (List.range n.toNat).map fun j => r.1 + UInt32.ofNat j * 4096

/-- The page table that `vmm_map_page` makes. -/
def freshTable (s : Vmm) (pd vaddr : UInt32) : List UInt32 :=
  if s.mem (wordPtr pd (PD_INDEX vaddr)) &&& PAGE_PRESENT = 0 then freshFrame s.pmm else []

/-- The page tables that `heap_alloc_pages` makes. -/
def heapTables : ℕ → Vmm → UInt32 → List UInt32
  | 0, _, _ => []
  | n + 1, s, cursor =>
      whenOk (pmmAllocFrame s.pmm) fun r =>
        freshTable { s with pmm := r.2 } s.kernelPd cursor ++
          whenOk (vmmMapPage { s with pmm := r.2 } s.kernelPd cursor r.1 0x003) fun s' =>
            heapTables n s' (cursor + PAGE_SIZE)

/-- The page tables made for the pages `is` of a user stack. -/
def stackTables (pd ustackPhys : UInt32) : List ℕ → Vmm → List UInt32
  | [], _ => []
  | i :: is, s =>
      freshTable s pd (USTACK_VIRT - PROCESS_STACK_SIZE + UInt32.ofNat i * 4096) ++
        whenOk (mapStackPage pd ustackPhys s i) fun s' => stackTables pd ustackPhys is s'

/-- The page directory, the kernel stack and the page tables of `process_spawn_ring3`. -/
def spawnFrames (s : ProcessManager) : List UInt32 :=
  whenOk (allocSlot s) fun _ =>
    freshFrame s.vmm.pmm ++
      whenOk (vmmCreateUserPd s.vmm) fun r =>
        freshFrames r.2.pmm 4 ++
          whenOk (allocKernelStack r.2) fun k =>
            whenOk (pmmAllocFrames k.2.pmm (PROCESS_STACK_SIZE / 4096)) fun u =>
              stackTables r.1 u.1 (List.range (PROCESS_STACK_SIZE / 4096).toNat)
                { k.2 with pmm := u.2 }

/-- The frames that the call obtains and addresses. -/
def Kernel.reaches (k : Kernel) : KernelOp → List UInt32
  | .createUserPd => freshFrame k.vmm.pmm
  | .mapPage pd vaddr _ _ => freshTable k.vmm pd vaddr
  | .heapAllocPages n => heapTables n.toNat k.vmm k.heapCursor
  | .processCreate _ _ _ _ =>
      whenOk (allocSlot k.toProcessManager) fun _ => freshFrames k.vmm.pmm 4
  | .processSpawnRing3 _ _ => spawnFrames k.toProcessManager
  | .surfaceCreate _ w h =>
      if k.surfaces.freeSlot = none then [] else freshFrames k.vmm.pmm (surfacePages w h)
  | _ => []

/-- The sum neither wraps nor falls in the window of the heap. -/
def InDirectMap (phys : UInt32) : Prop :=
  KERNEL_VIRT_BASE ≤ phys + KERNEL_VIRT_BASE ∧ phys + KERNEL_VIRT_BASE < HEAP_VIRT_BASE

/-- The window holds the first 65536 frames. -/
theorem inDirectMap_frameAddr {f : ℕ} (hf : f < FRAMES_TOTAL) :
    InDirectMap (frameAddr f) ↔ f < 65536 := by
  have htotal := framesTotal_eq
  have hbase : KERNEL_VIRT_BASE.toNat = 0xC0000000 := rfl
  have hheap : HEAP_VIRT_BASE.toNat = 0xD0000000 := rfl
  unfold InDirectMap
  rw [UInt32.le_iff_toNat_le, UInt32.lt_iff_toNat_lt, UInt32.toNat_add, frameAddr_toNat hf, hbase,
    hheap]
  omega

/-! ### Allocations only take frames that are clear -/

/-- All these are addresses of frames in `free`. -/
def Within (free : Finset ℕ) (l : List UInt32) : Prop := ∀ phys ∈ l, ∃ f ∈ free, phys = frameAddr f

section
variable {free : Finset ℕ}

theorem Within.append {l l' : List UInt32} (h : Within free l) (h' : Within free l') :
    Within free (l ++ l') := by
  intro phys hphys
  rcases List.mem_append.mp hphys with hl | hl'
  · exact h phys hl
  · exact h' phys hl'

theorem Within.whenOk {ε α : Type} {x : Except ε α} {f : α → List UInt32}
    (h : ∀ a, x = .ok a → Within free (f a)) : Within free (whenOk x f) := by
  intro phys hphys
  obtain ⟨a, ha, hmem⟩ := mem_whenOk.mp hphys
  exact h a ha phys hmem

theorem allocKernelStack_shrinks {s s' : Vmm} {phys : UInt32}
    (h : allocKernelStack s = .ok (phys, s')) : s.pmm.Shrinks s'.pmm := by
  obtain ⟨pmm, halloc, rfl⟩ := allocKernelStack_ok h
  exact PmmClient.allocFrames_shrinks halloc

theorem foldlM_mapStackPage_shrinks {pd ustackPhys : UInt32} {is : List ℕ} {s s' : Vmm}
    (h : is.foldlM (mapStackPage pd ustackPhys) s = .ok s') :
    s.pmm.Shrinks s'.pmm := by
  induction is generalizing s with
  | nil =>
      cases h
      exact Pmm.Shrinks.refl _
  | cons i is ih =>
      obtain ⟨s₁, hmap, h⟩ := bind_eq_ok h
      exact (vmmMapPage_keeps hmap).shrinks.trans (ih h)

theorem processSpawnRing3_shrinks {s s' : ProcessManager} {name : CString} {entry : UInt32}
    {i : Fin MAX_PROCESSES} (h : processSpawnRing3 s name entry = .ok (i, s')) :
    s.vmm.pmm.Shrinks s'.vmm.pmm := by
  obtain ⟨_, pd, vmm₁, kstackPhys, vmm₂, ustackPhys, pmm, vmm₃, hdir, hstack, hustack, hmap,
    ⟨mem, heq⟩, _⟩ := processSpawnRing3_ok h
  rw [heq]
  have h₁ := (vmmCreateUserPd_keeps hdir).shrinks.trans (allocKernelStack_shrinks hstack)
  have h₂ := foldlM_mapStackPage_shrinks hmap
  exact h₁.trans ((PmmClient.allocFrames_shrinks hustack).trans h₂)

theorem freshFrame_within {p : Pmm} (hp : p.clearFrames ⊆ free) : Within free (freshFrame p) := by
  refine Within.whenOk fun r halloc phys hphys => ?_
  obtain ⟨f, hf, heq, _⟩ := pmmAllocFrame_ok halloc
  exact ⟨f, hp hf, (List.mem_singleton.mp hphys).trans heq⟩

theorem freshFrames_within {p : Pmm} (hp : p.clearFrames ⊆ free) (n : UInt32) :
    Within free (freshFrames p n) := by
  refine Within.whenOk fun r halloc phys hphys => ?_
  obtain ⟨start, hle, _, heq, hclear, _⟩ := PmmClient.allocFrames_ok halloc
  obtain ⟨j, hj, rfl⟩ := List.mem_map.mp hphys
  have hlt : j < n.toNat := List.mem_range.mp hj
  rw [heq, frameAddr_add (by omega)]
  exact ⟨start + j, hp (hclear _ (by omega) (by omega)), rfl⟩

theorem freshTable_within {s : Vmm} (hs : s.pmm.clearFrames ⊆ free) (pd vaddr : UInt32) :
    Within free (freshTable s pd vaddr) := by
  unfold freshTable
  split_ifs
  · exact freshFrame_within hs
  · exact fun _ hmem => absurd hmem List.not_mem_nil

theorem heapTables_within {n : ℕ} {s : Vmm} (hs : s.pmm.clearFrames ⊆ free) (cursor : UInt32) :
    Within free (heapTables n s cursor) := by
  induction n generalizing s cursor with
  | zero => exact fun _ hmem => absurd hmem List.not_mem_nil
  | succ n ih =>
      refine Within.whenOk fun r halloc => ?_
      have hr : r.2.clearFrames ⊆ free := Finset.Subset.trans (pmmAllocFrame_shrinks halloc) hs
      have htable := freshTable_within (s := { s with pmm := r.2 }) hr s.kernelPd cursor
      refine htable.append (Within.whenOk fun s' hmap => ?_)
      exact ih (Finset.Subset.trans (vmmMapPage_keeps hmap).shrinks hr) _

theorem stackTables_within {pd ustackPhys : UInt32} {is : List ℕ} {s : Vmm}
    (hs : s.pmm.clearFrames ⊆ free) : Within free (stackTables pd ustackPhys is s) := by
  induction is generalizing s with
  | nil => exact fun _ hmem => absurd hmem List.not_mem_nil
  | cons i is ih =>
      refine (freshTable_within hs _ _).append (Within.whenOk fun s' hmap => ?_)
      exact ih (Finset.Subset.trans (vmmMapPage_keeps hmap).shrinks hs)

theorem spawnFrames_within {s : ProcessManager} (hs : s.vmm.pmm.clearFrames ⊆ free) :
    Within free (spawnFrames s) := by
  refine Within.whenOk fun _ _ => ?_
  refine (freshFrame_within hs).append (Within.whenOk fun r hdir => ?_)
  have hr := Finset.Subset.trans (vmmCreateUserPd_keeps hdir).shrinks hs
  refine (freshFrames_within hr 4).append (Within.whenOk fun k hstack => ?_)
  have hk := Finset.Subset.trans (allocKernelStack_shrinks hstack) hr
  refine Within.whenOk fun u hustack => ?_
  exact stackTables_within (Finset.Subset.trans (PmmClient.allocFrames_shrinks hustack) hk)

theorem Kernel.reaches_within {k : Kernel} (hk : k.vmm.pmm.clearFrames ⊆ free) (op : KernelOp) :
    Within free (k.reaches op) := by
  cases op with
  | createUserPd => exact freshFrame_within hk
  | mapPage pd vaddr paddr flags => exact freshTable_within hk pd vaddr
  | heapAllocPages n => exact heapTables_within hk _
  | processCreate name entry ring priority =>
      exact Within.whenOk fun _ _ => freshFrames_within hk 4
  | processSpawnRing3 name entry => exact spawnFrames_within hk
  | surfaceCreate pid w h =>
      unfold Kernel.reaches
      split_ifs
      · exact fun _ hmem => absurd hmem List.not_mem_nil
      · exact freshFrames_within hk _
  | unmapPage pd vaddr => exact fun _ hmem => absurd hmem List.not_mem_nil
  | switchPd pd => exact fun _ hmem => absurd hmem List.not_mem_nil
  | processKill pid => exact fun _ hmem => absurd hmem List.not_mem_nil
  | surfaceDestroy id => exact fun _ hmem => absurd hmem List.not_mem_nil

/-! ### Runs -/

/-- Frames that are clear or owned by an active surface are in `free`. -/
structure Kernel.Holds (free : Finset ℕ) (k : Kernel) : Prop where
  clear : k.vmm.pmm.clearFrames ⊆ free
  surfaces : ∀ i, (k.surfaces.surfaces i).active = true →
    ∃ start, (k.surfaces.surfaces i).OwnsRun start ∧ ∀ f, start ≤ f →
      f < start + (surfacePages (k.surfaces.surfaces i).width
        (k.surfaces.surfaces i).height).toNat → f ∈ free

variable {k k' : Kernel}

theorem Kernel.Holds.shrinks (h : k.Holds free) (hpmm : k.vmm.pmm.Shrinks k'.vmm.pmm)
    (hsurfaces : k'.surfaces = k.surfaces) : k'.Holds free where
  clear := Finset.Subset.trans hpmm h.clear
  surfaces := by
    rw [hsurfaces]
    exact h.surfaces

theorem Kernel.Holds.surfaceCreate (h : k.Holds free) {pid w height : UInt32}
    {slot : Option (Fin MAX_SURFACES)} {surfaces : SurfaceTable} {pmm : Pmm}
    (hok : surfaceCreate k.surfaces k.vmm.pmm pid w height = .ok (slot, surfaces, pmm)) :
    Kernel.Holds free { k with vmm := { k.vmm with pmm }, surfaces } := by
  rcases surfaceCreate_ok hok with ⟨_, _, rfl, rfl⟩ |
    ⟨i, s, start, _, _, _, rfl, hrun, _, rfl, rfl, _, _, _, _, hclear, hpmm⟩
  · exact ⟨h.clear, h.surfaces⟩
  · refine ⟨?_, fun j hj => ?_⟩
    · show pmm.clearFrames ⊆ free
      rw [hpmm]
      exact Finset.Subset.trans Finset.sdiff_subset h.clear
    · by_cases hij : j = i
      · subst hij
        simp only [Function.update_self]
        exact ⟨start, hrun, fun f h1 h2 => h.clear (hclear f h1 h2)⟩
      · simp only [Function.update_of_ne hij] at hj ⊢
        exact h.surfaces j hj

theorem Kernel.Holds.surfaceDestroy (h : k.Holds free) (id : UInt32) :
    Kernel.Holds free { k with
      vmm := { k.vmm with pmm := (surfaceDestroy k.surfaces k.vmm.pmm id).2 }
      surfaces := (surfaceDestroy k.surfaces k.vmm.pmm id).1 } := by
  rcases surfaceDestroy_cases k.surfaces k.vmm.pmm id with ⟨_, heq⟩ | ⟨i, _, hi, _, heq⟩
  · rw [heq]
    exact ⟨h.clear, h.surfaces⟩
  · obtain ⟨start, hrun, hfree⟩ := h.surfaces i hi
    rw [heq]
    refine ⟨fun f hf => ?_, fun j hj => ?_⟩
    · change f ∈ Pmm.clearFrames (List.foldl _ _ _) at hf
      rw [hrun.clearFrames_release, Finset.mem_union, Finset.mem_Ico] at hf
      rcases hf with hold | ⟨h1, h2⟩
      · exact h.clear hold
      · exact hfree f h1 h2
    · dsimp only at hj ⊢
      by_cases hij : j = i
      · rw [hij, Function.update_self] at hj
        exact absurd hj Bool.false_ne_true
      · rw [Function.update_of_ne hij] at hj ⊢
        exact h.surfaces j hj

theorem Kernel.Holds.exec (h : k.Holds free) {op : KernelOp} (hok : k.exec op = .ok k') :
    k'.Holds free := by
  unfold Kernel.exec at hok
  cases op with
  | createUserPd =>
      obtain ⟨⟨pd, vmm⟩, hcall, hret⟩ := bind_eq_ok hok
      obtain rfl := Except.ok.inj hret
      exact h.shrinks (vmmCreateUserPd_keeps (mapError_eq_ok hcall)).shrinks rfl
  | mapPage pd vaddr paddr flags =>
      obtain ⟨vmm, hcall, hret⟩ := bind_eq_ok hok
      obtain rfl := Except.ok.inj hret
      exact h.shrinks (vmmMapPage_keeps (mapError_eq_ok hcall)).shrinks rfl
  | unmapPage pd vaddr =>
      obtain rfl := Except.ok.inj hok
      exact h.shrinks (vmmUnmapPage_keeps k.vmm pd vaddr).shrinks rfl
  | switchPd pd =>
      obtain rfl := Except.ok.inj hok
      exact h.shrinks (Pmm.Shrinks.refl _) rfl
  | heapAllocPages n =>
      obtain ⟨⟨vmm, cursor⟩, hcall, hret⟩ := bind_eq_ok hok
      obtain rfl := Except.ok.inj hret
      exact h.shrinks (heapAllocPages_keeps (mapError_eq_ok hcall)).shrinks rfl
  | processCreate name entry ring priority =>
      obtain ⟨⟨i, s⟩, hcall, hret⟩ := bind_eq_ok hok
      obtain rfl := Except.ok.inj hret
      obtain ⟨_, kstackPhys, hstack⟩ := processCreate_ok hcall
      exact h.shrinks (allocKernelStack_shrinks hstack) rfl
  | processSpawnRing3 name entry =>
      obtain ⟨⟨i, s⟩, hcall, hret⟩ := bind_eq_ok hok
      obtain rfl := Except.ok.inj hret
      exact h.shrinks (processSpawnRing3_shrinks hcall) rfl
  | processKill pid =>
      obtain rfl := Except.ok.inj hok
      refine h.shrinks ?_ rfl
      show k.vmm.pmm.Shrinks (processKill k.toProcessManager pid).vmm.pmm
      rw [processKill_vmm]
      exact Pmm.Shrinks.refl _
  | surfaceCreate pid w height =>
      obtain ⟨⟨slot, surfaces, pmm⟩, hcall, hret⟩ := bind_eq_ok hok
      obtain rfl := Except.ok.inj hret
      exact h.surfaceCreate (mapError_eq_ok hcall)
  | surfaceDestroy id =>
      obtain rfl := Except.ok.inj hok
      exact h.surfaceDestroy id

theorem Kernel.step_eq_some {op : KernelOp} : k.step op = some k' ↔ k.exec op = .ok k' := by
  unfold Kernel.step
  cases k.exec op with
  | error e => simp [Except.toOption]
  | ok a => simp [Except.toOption]

/-! ### Every free frame is reached -/

/-- A surface can still be made, or the counter covers all clear frames. -/
def Kernel.CanAllocate (k : Kernel) : Prop :=
  k.surfaces.freeSlot ≠ none ∨ k.vmm.pmm.clearFrames.card ≤ k.vmm.pmm.freeFrames.toNat

/-- While the counter is not zero, a new directory takes some clear frame. -/
theorem createUserPd_progress (hk : k.CanAllocate) {f : ℕ} (hf : f ∈ k.vmm.pmm.clearFrames)
    (hcounter : k.vmm.pmm.freeFrames ≠ 0) :
    frameAddr f ∈ k.reaches .createUserPd ∨
      ∃ k', k.step .createUserPd = some k' ∧ k'.CanAllocate ∧ f ∈ k'.vmm.pmm.clearFrames ∧
        k'.vmm.pmm.clearFrames.card < k.vmm.pmm.clearFrames.card := by
  rcases pmmAllocFrame_cases k.vmm.pmm with ⟨hzero, _⟩ | ⟨_, hnone, _⟩ | ⟨g, hg, _, halloc⟩
  · exact absurd hzero hcounter
  · rw [hnone] at hf
    exact absurd hf (Finset.notMem_empty f)
  · obtain ⟨pd, vmm, hdir, hpmm⟩ : ∃ pd vmm, vmmCreateUserPd k.vmm = .ok (pd, vmm) ∧
        vmm.pmm = { k.vmm.pmm.take g with lastAlloc := g + 1 } := by
      unfold vmmCreateUserPd
      rw [halloc]
      exact ⟨_, _, rfl, rfl⟩
    by_cases hfg : f = g
    · left
      rw [hfg]
      exact mem_whenOk.mpr ⟨_, halloc, List.mem_cons_self⟩
    · right
      have hclear : vmm.pmm.clearFrames = k.vmm.pmm.clearFrames.erase g := by
        rw [hpmm]
        exact k.vmm.pmm.clearFrames_take g
      refine ⟨{ k with vmm }, ?_, ?_, ?_, ?_⟩
      · rw [Kernel.step_eq_some]
        unfold Kernel.exec
        rw [hdir]
        rfl
      · refine hk.imp_right fun hle => ?_
        have hone : (1 : UInt32).toNat = 1 := rfl
        have hfree : vmm.pmm.freeFrames = k.vmm.pmm.freeFrames - 1 := by rw [hpmm]; rfl
        have hne : k.vmm.pmm.freeFrames.toNat ≠ 0 := fun h0 => hcounter (UInt32.toNat_inj.mp h0)
        show vmm.pmm.clearFrames.card ≤ vmm.pmm.freeFrames.toNat
        rw [hclear, Finset.card_erase_of_mem hg, hfree, UInt32.toNat_sub_of_le _ _ (by
          rw [UInt32.le_iff_toNat_le, hone]
          omega), hone]
        omega
      · show f ∈ vmm.pmm.clearFrames
        rw [hclear]
        exact Finset.mem_erase.mpr ⟨hfg, hf⟩
      · show vmm.pmm.clearFrames.card < _
        rw [hclear]
        exact Finset.card_erase_lt_of_mem hg

/-- With the counter at zero a surface of one pixel takes some clear frame, and the counter wraps
around. -/
theorem surfaceCreate_progress (hk : k.surfaces.freeSlot ≠ none) {f : ℕ}
    (hf : f ∈ k.vmm.pmm.clearFrames) (hcounter : k.vmm.pmm.freeFrames = 0) :
    frameAddr f ∈ k.reaches (.surfaceCreate 0 1 1) ∨
      ∃ k', k.step (.surfaceCreate 0 1 1) = some k' ∧ k'.CanAllocate ∧
        f ∈ k'.vmm.pmm.clearFrames ∧
        k'.vmm.pmm.clearFrames.card < k.vmm.pmm.clearFrames.card := by
  have hpages : surfacePages 1 1 = 1 := by decide
  have hone : (1 : UInt32).toNat = 1 := rfl
  have hlt := Pmm.lt_of_mem hf
  obtain ⟨i, hi⟩ := Option.ne_none_iff_exists'.mp hk
  rcases pmmAllocFrames_cases k.vmm.pmm (n := 1) (le_of_eq hone.symm) with
    ⟨g, hle, hclear, halloc⟩ | ⟨_, hnone⟩
  · have hg : g ∈ k.vmm.pmm.clearFrames := hclear g (le_refl g) (by omega)
    set pmm := (List.range' g (1 : UInt32).toNat).foldl Pmm.take k.vmm.pmm with hpmm
    obtain ⟨surfaces, hcreate⟩ : ∃ surfaces,
        surfaceCreate k.surfaces k.vmm.pmm 0 1 1 = .ok (some i, surfaces, pmm) := by
      unfold surfaceCreate
      rw [hi, hpages, halloc]
      exact ⟨_, rfl⟩
    by_cases hfg : f = g
    · left
      have hreach : k.reaches (.surfaceCreate 0 1 1) = freshFrames k.vmm.pmm 1 := by
        unfold Kernel.reaches
        dsimp only
        rw [if_neg hk, hpages]
      rw [hreach, hfg]
      refine mem_whenOk.mpr ⟨_, halloc, ?_⟩
      exact List.mem_map.mpr ⟨0, List.mem_range.mpr (by omega), frameAddr_add (j := 0) (by omega)⟩
    · right
      have hclear' : pmm.clearFrames = k.vmm.pmm.clearFrames.erase g := by
        rw [hpmm]
        exact k.vmm.pmm.clearFrames_take g
      refine ⟨{ k with vmm := { k.vmm with pmm }, surfaces }, ?_, .inr ?_, ?_, ?_⟩
      · rw [Kernel.step_eq_some]
        unfold Kernel.exec
        dsimp only
        rw [hcreate]
        rfl
      · have hmax : pmm.freeFrames.toNat = 4294967295 := by
          have hfree : pmm.freeFrames = k.vmm.pmm.freeFrames - 1 := rfl
          rw [hfree, hcounter]
          rfl
        have hall := card_clearFrames_le pmm
        have htotal := framesTotal_eq
        show pmm.clearFrames.card ≤ pmm.freeFrames.toNat
        omega
      · show f ∈ pmm.clearFrames
        rw [hclear']
        exact Finset.mem_erase.mpr ⟨hfg, hf⟩
      · show pmm.clearFrames.card < _
        rw [hclear']
        exact Finset.card_erase_lt_of_mem hg
  · obtain ⟨g, h1, h2, hnot⟩ := hnone f (by omega)
    obtain rfl : g = f := by omega
    exact absurd hf hnot

theorem exists_reaches (hk : k.CanAllocate) {f : ℕ} (hf : f ∈ k.vmm.pmm.clearFrames) :
    ∃ ops s op, Runs.haltingRun Kernel.step k ops = some s ∧ frameAddr f ∈ s.reaches op := by
  induction hn : k.vmm.pmm.clearFrames.card using Nat.strong_induction_on generalizing k with
  | _ n ih =>
      have hstep : ∃ op, frameAddr f ∈ k.reaches op ∨
          ∃ k', k.step op = some k' ∧ k'.CanAllocate ∧ f ∈ k'.vmm.pmm.clearFrames ∧
            k'.vmm.pmm.clearFrames.card < k.vmm.pmm.clearFrames.card := by
        by_cases hcounter : k.vmm.pmm.freeFrames = 0
        · refine ⟨_, surfaceCreate_progress ?_ hf hcounter⟩
          refine hk.resolve_right fun hle => ?_
          rw [hcounter] at hle
          exact absurd (Finset.card_pos.mpr ⟨f, hf⟩) (Nat.not_lt.mpr hle)
        · exact ⟨_, createUserPd_progress hk hf hcounter⟩
      obtain ⟨op, hreach | ⟨k', hop, hk', hf', hlt⟩⟩ := hstep
      · exact ⟨[], k, op, rfl, hreach⟩
      · obtain ⟨ops, s, op', hrun, hreach⟩ := ih _ (hn ▸ hlt) hk' hf' rfl
        exact ⟨op :: ops, s, op', Runs.haltingRun_cons.mpr ⟨k', hop, hrun⟩, hreach⟩

end

/-- The frames reached in some run are exactly the frames that are free after `vmm_init`. -/
theorem reached_iff_free {vmm : Vmm} {processTable : Fin MAX_PROCESSES → Process}
    {pidCounter tssEsp0 : UInt32} {surfaces : SurfaceTable} {phys : UInt32} :
    (∃ ops s op, Runs.haltingRun Kernel.step
        (Kernel.start vmm processTable pidCounter tssEsp0 surfaces) ops = some s ∧
        phys ∈ s.reaches op) ↔
      ∃ f ∈ vmm.pmm.clearFrames, phys = frameAddr f := by
  constructor
  · rintro ⟨ops, s, op, hrun, hphys⟩
    have hstart : (Kernel.start vmm processTable pidCounter tssEsp0 surfaces).Holds
        vmm.pmm.clearFrames := ⟨Finset.Subset.refl _, fun i hi => absurd hi Bool.false_ne_true⟩
    have hs : s.Holds vmm.pmm.clearFrames := Runs.haltingRun_invariant
      (fun k op k' hk hop => hk.exec (Kernel.step_eq_some.mp hop)) hstart hrun
    exact Kernel.reaches_within hs.clear op phys hphys
  · rintro ⟨f, hf, rfl⟩
    have hslot : (surfaceInit surfaces).freeSlot ≠ none := by
      unfold SurfaceTable.freeSlot
      rw [ne_eq, List.find?_eq_none]
      exact fun hnone => hnone ⟨0, by decide⟩ (List.mem_finRange _) rfl
    exact exists_reaches (k := Kernel.start vmm processTable pidCounter tssEsp0 surfaces)
      (.inl hslot) hf

theorem inDirectMap_iff_free {vmm : Vmm} {processTable : Fin MAX_PROCESSES → Process}
    {pidCounter tssEsp0 : UInt32} {surfaces : SurfaceTable} :
    (∀ ops s, Runs.haltingRun Kernel.step
        (Kernel.start vmm processTable pidCounter tssEsp0 surfaces) ops = some s →
        ∀ op, ∀ phys ∈ s.reaches op, InDirectMap phys) ↔
      ∀ f ∈ vmm.pmm.clearFrames, f < 65536 := by
  constructor
  · intro hsound f hf
    obtain ⟨ops, s, op, hrun, hreach⟩ := reached_iff_free.mpr ⟨f, hf, rfl⟩
    exact (inDirectMap_frameAddr (Pmm.lt_of_mem hf)).mp (hsound ops s hrun op _ hreach)
  · intro hlow ops s hrun op phys hphys
    obtain ⟨f, hf, rfl⟩ := reached_iff_free.mp ⟨ops, s, op, hrun, hphys⟩
    exact (inDirectMap_frameAddr (Pmm.lt_of_mem hf)).mpr (hlow f hf)

/-- **The direct-map window is sound in every run** exactly if the memory map makes no frame from
number 65536 on available behind the kernel image, other than the one that `vmm_init` takes. -/
theorem direct_map_sound_iff (k : KernelImage) (entries : List MmapEntry) (mem : UInt32 → UInt32)
    (cr3 : UInt32) (s₀ : Vmm) (hinit : vmmInit (bootVmm k entries mem cr3) = .ok s₀)
    (processTable : Fin MAX_PROCESSES → Process) (pidCounter tssEsp0 : UInt32)
    (surfaces : SurfaceTable) :
    (∀ ops s, Runs.haltingRun Kernel.step
        (Kernel.start s₀ processTable pidCounter tssEsp0 surfaces) ops = some s →
        ∀ op, ∀ phys ∈ s.reaches op, InDirectMap phys) ↔
      ∀ e ∈ entries, ∀ f, e.Releases f → k.endFrame < f → frameAddr f ≠ s₀.cr3 → f < 65536 := by
  obtain ⟨n, _, hclear, _, hcr3, _⟩ := vmmInit_ok hinit
  rw [bootVmm_pmm] at hclear
  rw [inDirectMap_iff_free, hclear, hcr3]
  constructor
  · intro hlow e he f hf hbehind hne
    refine hlow f (Finset.mem_erase.mpr ⟨fun heq => hne (congrArg frameAddr heq), ?_⟩)
    exact mem_clearFrames_pmmInit.mpr ⟨⟨e, he, hf⟩, fun hkernel => by omega⟩
  · intro hmap f hf
    obtain ⟨hne, hfree⟩ := Finset.mem_erase.mp hf
    obtain ⟨⟨e, he, hrel⟩, hkernel⟩ := mem_clearFrames_pmmInit.mp hfree
    by_contra hhigh
    refine hhigh (hmap e he f hrel (by omega) fun heq => hne ?_)
    have hval := congrArg UInt32.toNat heq
    rw [frameAddr_toNat (Pmm.lt_of_mem hfree), frameAddr_toNat n.isLt] at hval
    omega

/-- The tables as they are before the first process and the first surface. -/
def Kernel.boot (vmm : Vmm) : Kernel :=
  Kernel.start vmm (fun _ => {}) 1 0 ⟨fun _ => ⟨0, 0, 0, 0, 0, 0, 0, 0, false⟩, 1⟩

theorem direct_map_sound_iff_roomyMap :
    ∃ s₀, vmmInit (bootVmm smallKernel roomyMap (fun _ => 0) 0) = .ok s₀ ∧
      ∀ ops s, Runs.haltingRun Kernel.step (Kernel.boot s₀) ops = some s →
        ∀ op, ∀ phys ∈ s.reaches op, InDirectMap phys := by
  obtain ⟨s₀, _, hinit, _⟩ := Runnable.returns_roomyMap [] trivial (by decide)
  refine ⟨s₀, hinit, (direct_map_sound_iff smallKernel roomyMap _ _ s₀ hinit _ _ _ _).mpr ?_⟩
  intro e he f hf _ _
  obtain rfl := List.mem_singleton.mp he
  have hbounds := roomyMap_releases.mp hf
  omega

/-- One megabyte of available memory at 256 MB. -/
def highMap : List MmapEntry := [⟨0x10000000, 0x100000, MB2_MMAP_AVAILABLE⟩]

theorem highMap_releases {f : ℕ} :
    (⟨0x10000000, 0x100000, MB2_MMAP_AVAILABLE⟩ : MmapEntry).Releases f ↔
      65536 ≤ f ∧ f < 65536 + 256 := by
  have hbase : (0x10000000 : UInt64).toNat = 0x10000000 := rfl
  have hlen : (0x100000 : UInt64).toNat = 0x100000 := rfl
  have htotal := framesTotal_eq
  unfold MmapEntry.Releases
  rw [hbase, hlen]
  constructor
  · rintro ⟨_, _, h1, h2⟩
    omega
  · rintro ⟨h1, h2⟩
    exact ⟨rfl, by omega, by omega, by omega⟩

/-- Above 256 MB the first user directory is reached at an address of the heap. -/
theorem direct_map_reaches_heap :
    ∃ s₀ phys, vmmInit (bootVmm smallKernel highMap (fun _ => 0) 0) = .ok s₀ ∧
      phys ∈ (Kernel.boot s₀).reaches .createUserPd ∧
      HEAP_VIRT_BASE ≤ phys + KERNEL_VIRT_BASE := by
  obtain ⟨hclear, hroom⟩ := pmmInit_single (k := smallKernel) (fun _ => highMap_releases) (by decide)
  have hboot : (bootVmm smallKernel highMap (fun _ => 0) 0).pmm.Room (255 + 1) := by
    rw [bootVmm_pmm]
    exact hroom
  obtain ⟨s₀, hinit, hroom₀⟩ := vmmInit_returns hboot
  obtain ⟨phys, p, halloc, _⟩ := (hroom₀.mono (by decide : 0 + 1 ≤ 255)).alloc
  obtain ⟨n, _, hclear₀, _⟩ := vmmInit_ok hinit
  obtain ⟨f, hf, rfl, _⟩ := pmmAllocFrame_ok halloc
  rw [hclear₀, bootVmm_pmm, Finset.mem_erase] at hf
  have hmem : f ∈ (pmmInit smallKernel highMap).clearFrames := hf.2
  unfold highMap at hmem
  rw [hclear, Finset.mem_Ico] at hmem
  refine ⟨s₀, frameAddr f, hinit, mem_whenOk.mpr ⟨_, halloc, List.mem_cons_self⟩, ?_⟩
  have hbase : KERNEL_VIRT_BASE.toNat = 0xC0000000 := rfl
  have hheap : HEAP_VIRT_BASE.toNat = 0xD0000000 := rfl
  have hlt := Pmm.lt_of_mem hf.2
  have htotal := framesTotal_eq
  rw [UInt32.le_iff_toNat_le, UInt32.toNat_add, frameAddr_toNat hlt, hbase, hheap]
  omega

end LunaOs
