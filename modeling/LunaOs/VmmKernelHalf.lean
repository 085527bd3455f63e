import LunaOs.VmmSpaces

/-! # The kernel half of the user directories

`vmm_create_user_pd` copies the directory entries of the kernel half once.  Tables that are there by
then are shared, and later mappings in them are seen by every directory.  A kernel mapping that adds
a table after a user directory was made is seen by the kernel directory alone. -/

namespace LunaOs

/-- Kernel mappings, the growth of the heap and the creation of user directories. -/
def VmmOp.KernelHalfOnly : VmmOp → Prop
  | .createUserPd => True
  | .mapPage d vaddr _ _ => d = 0 ∧ KERNEL_VIRT_BASE ≤ vaddr
  | .heapAllocPages _ => True
  | _ => False

/-- Every directory translates the kernel half as the kernel directory does. -/
def KernelHalfAgrees (c : VmmClient) : Prop :=
  ∀ (d : ℕ) (pd : UInt32), c.dirs[d]? = some pd → ∀ vaddr, KERNEL_VIRT_BASE ≤ vaddr →
    vmmVirtToPhys c.vmm pd vaddr = vmmVirtToPhys c.vmm c.vmm.kernelPd vaddr

/-- The kernel directory has a page table for `vaddr`. -/
def KernelTable (s : Vmm) (vaddr : UInt32) : Prop :=
  s.mem (wordPtr s.kernelPd (PD_INDEX vaddr)) &&& PAGE_PRESENT ≠ 0

/-- The addresses of the `n` pages from `cursor` on. -/
def pagesFrom : ℕ → UInt32 → List UInt32
  | 0, _ => []
  | n + 1, cursor => cursor :: pagesFrom n (cursor + PAGE_SIZE)

/-- The pages an operation maps. -/
def VmmOp.mapped (cursor : UInt32) : VmmOp → List UInt32
  | .mapPage _ vaddr _ _ => [vaddr]
  | .heapAllocPages n => pagesFrom n.toNat cursor
  | _ => []

/-- No user directory exists, or the kernel directory has a table for every page of the kernel half
that the operation maps. -/
def KeepsKernelHalf (c : VmmClient) (op : VmmOp) : Prop :=
  c.dirs.length = 1 ∨
    ∀ vaddr ∈ op.mapped c.heapCursor, KERNEL_VIRT_BASE ≤ vaddr → KernelTable c.vmm vaddr

/-! ### Kernel pages of the address spaces -/

/-- A user directory does not share a kernel page that is mapped. -/
def Unshared (A : PageSpaces) : Prop :=
  ∃ d < A.count, ∃ i k, KernelHalf i ∧ A.owner d i ≠ 0 ∧ A.page 0 i k ≠ none

/-- Only the kernel directory has pages, and each of its tables has one. -/
structure KernelSpaces (A : PageSpaces) : Prop where
  owner_zero : ∀ i, A.owner 0 i = 0
  page_user : ∀ o ≠ 0, ∀ i k, A.page o i k = none
  page_of_linked : ∀ i, A.linked 0 i ≠ none → ∃ k, A.page 0 i k ≠ none

/-- `A'` comes from `A` by mapping the pages `vaddrs` of the kernel directory. -/
structure MapsKernel (A A' : PageSpaces) (vaddrs : List UInt32) : Prop where
  count_eq : A'.count = A.count
  owner_eq : A'.owner = A.owner
  page_of_notMem : ∀ i k, (∀ vaddr ∈ vaddrs, dirIx vaddr ≠ i) → A'.page 0 i k = A.page 0 i k
  page_of_mem : ∀ vaddr ∈ vaddrs, A'.page 0 (dirIx vaddr) (tabIx vaddr) ≠ none
  kernel : KernelSpaces A'

theorem KernelSpaces.map {A : PageSpaces} (h : KernelSpaces A) (vaddr paddr flags : UInt32) :
    MapsKernel A (spaceMap A 0 vaddr paddr flags) [vaddr] where
  count_eq := spaceMap_count ..
  owner_eq := spaceMap_owner ..
  page_of_notMem i k hmiss := by
    rw [spaceMap_page, if_neg fun hit => hmiss vaddr List.mem_cons_self hit.2.1.symm]
  page_of_mem v hv := by
    rw [List.mem_singleton.mp hv, spaceMap_page, h.owner_zero, if_pos ⟨rfl, rfl, rfl⟩]
    exact Option.some_ne_none _
  kernel := by
    refine ⟨?_, ?_, ?_⟩
    · rw [spaceMap_owner]
      exact h.owner_zero
    · intro o ho i k
      rw [spaceMap_page, h.owner_zero, if_neg fun hit => ho hit.1]
      exact h.page_user o ho i k
    · intro i hlink
      rw [spaceMap_linked, h.owner_zero] at hlink
      by_cases hi : i = dirIx vaddr
      · refine ⟨tabIx vaddr, ?_⟩
        rw [spaceMap_page, h.owner_zero, if_pos ⟨rfl, hi, rfl⟩]
        exact Option.some_ne_none _
      · rw [if_neg fun hit => hi hit.2] at hlink
        obtain ⟨k, hk⟩ := h.page_of_linked i hlink
        exact ⟨k, spaceMap_page_ne_none _ _ _ _ hk⟩

theorem KernelSpaces.heap {A : PageSpaces} (h : KernelSpaces A) (cursor : UInt32)
    (frames : List ℕ) :
    MapsKernel A (spaceHeap A cursor frames) (pagesFrom frames.length cursor) := by
  induction frames generalizing A cursor with
  | nil => exact ⟨rfl, rfl, fun _ _ _ => rfl, fun _ hv => absurd hv List.not_mem_nil, h⟩
  | cons f frames ih =>
      have hfirst := h.map cursor (frameAddr f) 0x003
      have hrest := ih hfirst.kernel (cursor + PAGE_SIZE)
      constructor
      case count_eq => exact hrest.count_eq.trans hfirst.count_eq
      case owner_eq => exact hrest.owner_eq.trans hfirst.owner_eq
      case page_of_notMem =>
        intro i k hmiss
        refine (hrest.page_of_notMem i k fun v hv => hmiss v (List.mem_cons_of_mem _ hv)).trans ?_
        refine hfirst.page_of_notMem i k fun v hv => ?_
        rw [List.mem_singleton.mp hv]
        exact hmiss cursor List.mem_cons_self
      case page_of_mem =>
        intro v hv
        rcases List.mem_cons.mp hv with rfl | hv
        · rw [spaceHeap_cons]
          exact spaceHeap_page_ne_none _ _ (hfirst.page_of_mem v List.mem_cons_self)
        · exact hrest.page_of_mem v hv
      case kernel => exact hrest.kernel

/-- **Mappings and shares**: where all mapped kernel pages were shared, mapping further ones leaves one
unshared exactly if a user directory exists and one of them has no table yet. -/
theorem MapsKernel.unshared_iff {A A' : PageSpaces} {vaddrs : List UInt32} {s : Vmm}
    {dirs : List UInt32} (h : MapsKernel A A' vaddrs) (hrep : Represents s dirs A)
    (hA : KernelSpaces A) (hshared : ¬ Unshared A) :
    Unshared A' ↔ dirs.length ≠ 1 ∧
      ∃ vaddr ∈ vaddrs, KERNEL_VIRT_BASE ≤ vaddr ∧ A.linked 0 (dirIx vaddr) = none := by
  have hpos := hrep.count_pos
  rw [hrep.length_dirs]
  constructor
  · rintro ⟨d, hd, i, k, hi, howner, hpage⟩
    rw [h.count_eq] at hd
    rw [h.owner_eq] at howner
    have hd0 : d ≠ 0 := fun h0 => howner (h0 ▸ hA.owner_zero i)
    refine ⟨by omega, ?_⟩
    by_cases htouched : ∃ v ∈ vaddrs, dirIx v = i
    · obtain ⟨v, hv, rfl⟩ := htouched
      refine ⟨v, hv, kernelHalf_dirIx.mp hi, ?_⟩
      by_contra hlink
      obtain ⟨k', hk'⟩ := hA.page_of_linked _ hlink
      exact hshared ⟨d, hd, _, k', hi, howner, hk'⟩
    · rw [h.page_of_notMem i k fun v hv heq => htouched ⟨v, hv, heq⟩] at hpage
      exact absurd ⟨d, hd, i, k, hi, howner, hpage⟩ hshared
  · rintro ⟨hcount, v, hv, hkernel, hnone⟩
    have hone : 1 < A.count := by omega
    refine ⟨1, h.count_eq ▸ hone, dirIx v, tabIx v, kernelHalf_dirIx.mpr hkernel, ?_,
      h.page_of_mem v hv⟩
    rw [h.owner_eq, hrep.owner_of_none hone hnone]
    exact Nat.one_ne_zero

theorem unshared_create {A : PageSpaces} {s : Vmm} {dirs : List UInt32} (hrep : Represents s dirs A)
    (hshared : ¬ Unshared A) : ¬ Unshared (A.create KernelHalf) := by
  rintro ⟨d, hd, i, k, hi, howner, hpage⟩
  rcases Nat.lt_succ_iff_lt_or_eq.mp hd with hlt | rfl
  · have hold : (A.create KernelHalf).owner d = A.owner d := Function.update_of_ne hlt.ne _ _
    rw [hold] at howner
    exact hshared ⟨d, hlt, i, k, hi, howner, hpage⟩
  · have hnew : (A.create KernelHalf).owner A.count i =
        if KernelHalf i ∧ (A.linked 0 i).isSome then 0 else A.count := by
      show Function.update A.owner A.count _ A.count i = _
      rw [Function.update_self]
    have hnone : A.linked 0 i = none := by
      by_contra hlink
      rw [hnew, if_pos ⟨hi, Option.isSome_iff_ne_none.mpr hlink⟩] at howner
      exact howner rfl
    exact hpage (hrep.page_linked hnone k)

/-! ### Translations of the kernel half -/

theorem pageAddr_some_ne_zero (w vaddr : UInt32) (hoffset : vaddr &&& 0xFFF ≠ 0) :
    pageAddr (some w) vaddr ≠ 0 := by
  intro hzero
  apply hoffset
  have hmask : ((w &&& ~~~0xFFF) ||| (vaddr &&& 0xFFF)) &&& 0xFFF = 0 := by
    rw [show (w &&& ~~~0xFFF) ||| (vaddr &&& 0xFFF) = 0 from hzero]
    rfl
  rw [or_and, UInt32.and_assoc, show (~~~0xFFF : UInt32) &&& 0xFFF = 0 by decide, UInt32.and_zero,
    UInt32.zero_or, UInt32.and_assoc, show (0xFFF : UInt32) &&& 0xFFF = 0xFFF by decide] at hmask
  exact hmask

theorem kernelHalfAgrees_iff {c : VmmClient} {A : PageSpaces} (hrep : Represents c.vmm c.dirs A)
    (hA : KernelSpaces A) : KernelHalfAgrees c ↔ ¬ Unshared A := by
  constructor
  · rintro hagrees ⟨d, hd, i, k, hi, howner, hpage⟩
    obtain ⟨v, rfl, rfl, hoffset⟩ := exists_vaddr i k
    have hlt : d < c.dirs.length := hrep.length_dirs ▸ hd
    have heq := hagrees d _ (List.getElem?_eq_getElem hlt) v (kernelHalf_dirIx.mp hi)
    rw [hrep.virtToPhys (List.getElem?_eq_getElem hlt), hrep.virtToPhys hrep.kernel_dir,
      hA.page_user _ howner, hA.owner_zero] at heq
    obtain ⟨w, hw⟩ := Option.ne_none_iff_exists'.mp hpage
    rw [hw] at heq
    exact pageAddr_some_ne_zero w v hoffset heq.symm
  · intro hshared d pd hd v hv
    rw [hrep.virtToPhys hd, hrep.virtToPhys hrep.kernel_dir, hA.owner_zero]
    by_cases howner : A.owner d (dirIx v) = 0
    · rw [howner]
    · have hnone : A.page 0 (dirIx v) (tabIx v) = none := by
        by_contra hpage
        exact hshared ⟨d, hrep.lt_count hd, _, _, kernelHalf_dirIx.mpr hv, howner, hpage⟩
      rw [hA.page_user _ howner, hnone]

/-! ### Runs -/

/-- What holds in every state of a run. -/
def KernelRun (_ : List VmmOp) (c : VmmClient) : Prop :=
  ∃ A, Represents c.vmm c.dirs A ∧ KernelSpaces A

theorem keepsKernelHalf_iff {c : VmmClient} {A : PageSpaces} (hrep : Represents c.vmm c.dirs A)
    (op : VmmOp) :
    KeepsKernelHalf c op ↔ ¬ (c.dirs.length ≠ 1 ∧ ∃ vaddr ∈ op.mapped c.heapCursor,
      KERNEL_VIRT_BASE ≤ vaddr ∧ A.linked 0 (dirIx vaddr) = none) := by
  have htable : ∀ vaddr, KernelTable c.vmm vaddr ↔ A.linked 0 (dirIx vaddr) ≠ none := by
    intro vaddr
    unfold KernelTable
    rw [ne_eq, hrep.absent_iff hrep.kernel_dir, hrep.owner_zero]
  unfold KeepsKernelHalf
  simp only [htable]
  constructor
  · rintro (hlen | hkeeps) ⟨hne, vaddr, hv, hkernel, hnone⟩
    · exact hne hlen
    · exact hkeeps vaddr hv hkernel hnone
  · intro hbreaks
    by_cases hlen : c.dirs.length = 1
    · exact .inl hlen
    · exact .inr fun vaddr hv hkernel hnone => hbreaks ⟨hlen, vaddr, hv, hkernel, hnone⟩

/-- **One step** keeps the agreement exactly if it meets the condition. -/
theorem kernelRun_step {h : List VmmOp} {c c' : VmmClient} {op : VmmOp} (hc : KernelRun h c)
    (hop : op.KernelHalfOnly) (hstep : c.step op = some c') :
    KernelRun (h ++ [op]) c' ∧
      (KernelHalfAgrees c → (KernelHalfAgrees c' ↔ KeepsKernelHalf c op)) := by
  obtain ⟨A, hrep, hA⟩ := hc
  obtain ⟨A', hspace, hrep', _⟩ := hrep.step hstep
  -- both kinds of mappings are treated alike
  have hmaps : MapsKernel A A' (op.mapped c.heapCursor) →
      KernelRun (h ++ [op]) c' ∧
        (KernelHalfAgrees c → (KernelHalfAgrees c' ↔ KeepsKernelHalf c op)) := by
    intro hmaps
    refine ⟨⟨A', hrep', hmaps.kernel⟩, fun hagrees => ?_⟩
    rw [kernelHalfAgrees_iff hrep' hmaps.kernel, keepsKernelHalf_iff hrep,
      hmaps.unshared_iff hrep hA ((kernelHalfAgrees_iff hrep hA).mp hagrees)]
  cases op with
  | createUserPd =>
      obtain rfl : A' = A.create KernelHalf := hspace
      have hA' : KernelSpaces (A.create KernelHalf) :=
        ⟨hrep'.owner_zero, hA.page_user, hA.page_of_linked⟩
      refine ⟨⟨_, hrep', hA'⟩, fun hagrees => iff_of_true ?_ ?_⟩
      · rw [kernelHalfAgrees_iff hrep' hA']
        exact unshared_create hrep ((kernelHalfAgrees_iff hrep hA).mp hagrees)
      · exact .inr fun _ hv => absurd hv List.not_mem_nil
  | mapPage d vaddr paddr flags =>
      obtain ⟨rfl, _⟩ := hop
      obtain ⟨_, rfl⟩ := hspace
      exact hmaps (hA.map vaddr paddr flags)
  | heapAllocPages n =>
      obtain ⟨frames, hlen, _, rfl⟩ := hspace
      refine hmaps ?_
      show MapsKernel A _ (pagesFrom n.toNat c.heapCursor)
      rw [← hlen]
      exact hA.heap c.heapCursor frames
  | unmapPage d vaddr => exact absurd hop id
  | switchPd d => exact absurd hop id
  | allocFrame => exact absurd hop id

/-- **The kernel half agrees throughout a run** exactly if every step of the run keeps it. -/
theorem kernel_half_agrees_iff (k : KernelImage) (entries : List MmapEntry)
    (mem : UInt32 → UInt32) (cr3 : UInt32) (s₀ : Vmm)
    (hinit : vmmInit (bootVmm k entries mem cr3) = .ok s₀) (ops : List VmmOp)
    (hops : ∀ op ∈ ops, op.KernelHalfOnly) :
    Runs.Throughout VmmClient.step (fun _ c => KernelHalfAgrees c) [] (VmmClient.start s₀) ops ↔
      Runs.EachStep VmmClient.step KeepsKernelHalf (VmmClient.start s₀) ops := by
  have hA : KernelSpaces Radix.Spaces.first :=
    ⟨fun _ => rfl, fun _ _ _ _ => rfl, fun _ hlink => absurd rfl hlink⟩
  have hrep := represents_start hinit
  refine Runs.throughout_iff KernelRun (fun h c op c' hc hop hstep =>
    (kernelRun_step hc hop hstep).1) (fun h c op c' hc hP hop hstep =>
    (kernelRun_step hc hop hstep).2 hP) ⟨_, hrep, hA⟩ ?_ hops
  rw [kernelHalfAgrees_iff hrep hA]
  rintro ⟨d, _, i, k, _, _, hpage⟩
  exact hpage rfl

/-- A kernel page is mapped before a user directory is made, and another one of its table afterwards. -/
def tableFirst : List VmmOp :=
  [.mapPage 0 0xD0000000 0x200000 0x003, .createUserPd, .mapPage 0 0xD0001000 0x201000 0x003]

theorem kernel_half_agrees_iff_tableFirst :
    ∃ s₀ c, vmmInit (bootVmm smallKernel roomyMap (fun _ => 0) 0) = .ok s₀ ∧
      Runs.haltingRun VmmClient.step (VmmClient.start s₀) tableFirst = some c ∧
      Runs.Throughout VmmClient.step (fun _ c => KernelHalfAgrees c) [] (VmmClient.start s₀) tableFirst := by
  obtain ⟨s₀, c, hinit, hrun, _⟩ := Runnable.returns_roomyMap tableFirst ⟨by decide, by decide, trivial⟩ (by decide)
  have hkernel : ∀ op ∈ tableFirst, op.KernelHalfOnly := by
    simp [tableFirst, VmmOp.KernelHalfOnly]
    decide
  refine ⟨s₀, c, hinit, hrun, (kernel_half_agrees_iff smallKernel roomyMap _ _ s₀ hinit _ hkernel).mpr ?_⟩
  intro c₁ hstep₁
  obtain ⟨A₁, ⟨_, rfl⟩, hrep₁, _⟩ := (represents_start hinit).step hstep₁
  refine ⟨.inl rfl, fun c₂ hstep₂ => ⟨.inl hrep₁.length_dirs, fun c₃ _ => ⟨?_, trivial⟩⟩⟩
  obtain ⟨A₂, rfl, hrep₂, _⟩ := hrep₁.step hstep₂
  refine (keepsKernelHalf_iff hrep₂ _).mpr ?_
  rintro ⟨_, vaddr, hv, _, hnone⟩
  obtain rfl := List.mem_singleton.mp hv
  revert hnone
  decide

/-- The first kernel mapping after a user directory was made is missing there. -/
theorem kernel_half_disagrees :
    ∃ s₀ c pd, vmmInit (bootVmm smallKernel roomyMap (fun _ => 0) 0) = .ok s₀ ∧
      Runs.haltingRun VmmClient.step (VmmClient.start s₀)
        [.createUserPd, .mapPage 0 0xD0000000 0x200000 0x003] = some c ∧
      c.dirs[1]? = some pd ∧ vmmVirtToPhys c.vmm pd 0xD0000123 = 0 ∧
      vmmVirtToPhys c.vmm c.vmm.kernelPd 0xD0000123 = 0x200123 := by
  obtain ⟨s₀, c, hinit, hrun, hlen⟩ := Runnable.returns_roomyMap
    [.createUserPd, .mapPage 0 0xD0000000 0x200000 0x003] ⟨by decide, trivial⟩ (by decide)
  have hlt : 1 < c.dirs.length := by
    rw [hlen]
    decide
  have hpd : c.dirs[1]? = some c.dirs[1] := List.getElem?_eq_getElem hlt
  obtain ⟨c₁, hstep₁, hrest⟩ := Runs.haltingRun_cons.mp hrun
  obtain ⟨c₂, hstep₂, hend⟩ := Runs.haltingRun_cons.mp hrest
  obtain rfl := Option.some.inj hend
  obtain ⟨A₁, rfl, hrep₁, _⟩ := Represents.step (c := VmmClient.start s₀) (represents_start hinit)
    hstep₁
  obtain ⟨A₂, ⟨_, rfl⟩, hrep₂, _⟩ := hrep₁.step hstep₂
  refine ⟨s₀, c₂, _, hinit, hrun, hpd, ?_, ?_⟩
  · rw [hrep₂.virtToPhys hpd]
    rfl
  · rw [hrep₂.virtToPhys hrep₂.kernel_dir]
    rfl

end LunaOs
