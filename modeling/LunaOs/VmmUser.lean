import LunaOs.VmmSpaces

/-! # Accessibility from Ring 3

The processor lets Ring 3 through to a page only if the directory entry and the table entry both
have the USER bit.  `vmm_map_page` writes the table entry with the bit it was asked for, but the
directory entry only when it makes the table, with the bit of the first page mapped there. -/

namespace LunaOs

/-- The page of `vaddr` is accessible from Ring 3 in the directory `pd`. -/
def UserAccessible (s : Vmm) (pd vaddr : UInt32) : Prop :=
  let pde := s.mem (wordPtr pd (PD_INDEX vaddr))
  let pte := s.mem (wordPtr ((pde &&& ~~~0xFFF) + KERNEL_VIRT_BASE) (PT_INDEX vaddr))
  (pde &&& PAGE_PRESENT ≠ 0 ∧ pde &&& PAGE_USER ≠ 0) ∧
    pte &&& PAGE_PRESENT ≠ 0 ∧ pte &&& PAGE_USER ≠ 0

/-- Everything but the growth of the heap, whose frames are not part of the operation. -/
def VmmOp.PagesOnly : VmmOp → Prop
  | .heapAllocPages _ => False
  | _ => True

/-- The address spaces after such an operation. -/
def spaceAfter (A : PageSpaces) : VmmOp → PageSpaces
  | .createUserPd => A.create KernelHalf
  | .mapPage d vaddr paddr flags => spaceMap A d vaddr paddr flags
  | .unmapPage d vaddr => spaceUnmap A d vaddr
  | _ => A

def spacesOf (ops : List VmmOp) : PageSpaces := ops.foldl spaceAfter Radix.Spaces.first

/-- The page of `vaddr` in directory `d` and that of `vaddr'` in `d'` are one: the page number is the
same, and the directories use one table for it. -/
def OnePage (A : PageSpaces) (d : ℕ) (vaddr : UInt32) (d' : ℕ) (vaddr' : UInt32) : Prop :=
  (dirIx vaddr = dirIx vaddr' ∧ tabIx vaddr = tabIx vaddr') ∧
    A.owner d (dirIx vaddr) = A.owner d' (dirIx vaddr')

instance (A : PageSpaces) (d : ℕ) (vaddr : UInt32) (d' : ℕ) (vaddr' : UInt32) :
    Decidable (OnePage A d vaddr d' vaddr') := inferInstanceAs (Decidable (_ ∧ _))

/-- What an operation makes of the flags of a page that the operations selected by `hits` are
about. -/
def VmmOp.flagsAfter (hits : ℕ → UInt32 → Bool) (flags : Option UInt32) : VmmOp → Option UInt32
  | .mapPage d' vaddr' _ flags' => if hits d' vaddr' then some flags' else flags
  | .unmapPage d' vaddr' => if hits d' vaddr' then none else flags
  | _ => flags

/-- The flags of the last `vmm_map_page` of the page, unless it was unmapped since. -/
def lastFlags (ops : List VmmOp) (d : ℕ) (vaddr : UInt32) : Option UInt32 :=
  ops.foldl (VmmOp.flagsAfter fun d' vaddr' => OnePage (spacesOf ops) d vaddr d' vaddr') none

/-- Every page of every directory is accessible exactly if its last mapping was for Ring 3. -/
def UserFollowsMapping (ops : List VmmOp) (c : VmmClient) : Prop :=
  ∀ (d : ℕ) (pd : UInt32), c.dirs[d]? = some pd → ∀ vaddr,
    UserAccessible c.vmm pd vaddr ↔
      ∃ flags, lastFlags ops d vaddr = some flags ∧ flags &&& PAGE_USER ≠ 0

/-- A mapping for Ring 3 finds no directory entry, or one that has the USER bit. -/
def MapsWithUserEntry (c : VmmClient) : VmmOp → Prop
  | .mapPage d vaddr _ flags => flags &&& PAGE_USER ≠ 0 → ∀ pd, c.dirs[d]? = some pd →
      c.vmm.mem (wordPtr pd (PD_INDEX vaddr)) &&& PAGE_PRESENT = 0 ∨
        c.vmm.mem (wordPtr pd (PD_INDEX vaddr)) &&& PAGE_USER ≠ 0
  | _ => True

/-! ### Accessible pages of the address spaces -/

section
variable {s : Vmm} {dirs : List UInt32} {A : PageSpaces} {d : ℕ} {pd : UInt32}

theorem and_offset_user (pde : UInt32) : pde &&& 0xFFF &&& PAGE_USER = pde &&& PAGE_USER := by
  rw [UInt32.and_assoc]
  rfl

theorem Represents.userAccessible (h : Represents s dirs A) (hd : dirs[d]? = some pd)
    (vaddr : UInt32) :
    UserAccessible s pd vaddr ↔
      (∃ u, A.linked (A.owner d (dirIx vaddr)) (dirIx vaddr) = some u ∧ u &&& PAGE_USER ≠ 0) ∧
      ∃ w, A.page (A.owner d (dirIx vaddr)) (dirIx vaddr) (tabIx vaddr) = some w ∧
        w &&& PAGE_USER ≠ 0 := by
  unfold UserAccessible
  dsimp only
  rcases h.entry_cases hd vaddr with ⟨hlink, habsent⟩ | ⟨pde, hpde, hpresent, hlink, hleaf⟩
  · rw [hlink]
    constructor
    · rintro ⟨⟨hpresent, _⟩, _⟩
      exact absurd habsent hpresent
    · rintro ⟨⟨u, hu, _⟩, _⟩
      cases hu
  · rw [hpde, hlink, ← hleaf]
    generalize s.mem _ = w
    simp only [pageFormat, Option.some.injEq, exists_eq_left', and_offset_user]
    by_cases hw : w &&& PAGE_PRESENT = 0
    · simp [hw]
    · simp [hw, hpresent]

theorem Represents.entry_user_iff (h : Represents s dirs A) (hd : dirs[d]? = some pd)
    (vaddr : UInt32) :
    (s.mem (wordPtr pd (PD_INDEX vaddr)) &&& PAGE_PRESENT = 0 ∨
      s.mem (wordPtr pd (PD_INDEX vaddr)) &&& PAGE_USER ≠ 0) ↔
      ∀ u, A.linked (A.owner d (dirIx vaddr)) (dirIx vaddr) = some u → u &&& PAGE_USER ≠ 0 := by
  rcases h.entry_cases hd vaddr with ⟨hlink, habsent⟩ | ⟨pde, hpde, hpresent, hlink, _⟩
  · rw [hlink]
    exact iff_of_true (.inl habsent) fun u hu => absurd hu.symm (Option.some_ne_none u)
  · rw [hpde, hlink, or_iff_right hpresent, ← and_offset_user]
    simp

/-- Pages mapped for Ring 3 have a directory entry for Ring 3. -/
def UserLinked (A : PageSpaces) : Prop :=
  ∀ o i k w u, A.page o i k = some w → w &&& PAGE_USER ≠ 0 → A.linked o i = some u →
    u &&& PAGE_USER ≠ 0

/-- **Mapping a page** keeps this exactly if the page is not for Ring 3 or its directory entry, if
there is one, is. -/
theorem Represents.userLinked_map (h : Represents s dirs A) (hA : UserLinked A)
    (vaddr paddr flags : UInt32) :
    UserLinked (spaceMap A d vaddr paddr flags) ↔
      (flags &&& PAGE_USER ≠ 0 → ∀ u, A.linked (A.owner d (dirIx vaddr)) (dirIx vaddr) = some u →
        u &&& PAGE_USER ≠ 0) := by
  have hword : pteWord paddr flags &&& PAGE_USER ≠ 0 ↔ flags &&& PAGE_USER ≠ 0 := by
    rw [pteWord_user]
  constructor
  · intro hmap hflags u hlink
    refine hmap (A.owner d (dirIx vaddr)) (dirIx vaddr) (tabIx vaddr) (pteWord paddr flags) u ?_
      (hword.mpr hflags) ?_
    · rw [spaceMap_page, if_pos ⟨rfl, rfl, rfl⟩]
    · rw [spaceMap_linked, if_pos ⟨rfl, rfl⟩, hlink]
      rfl
  · intro hflags o i k w u hpage hw hlink
    rw [spaceMap_page] at hpage
    rw [spaceMap_linked] at hlink
    split_ifs at hpage with hhit
    · -- the page itself
      obtain rfl := Option.some.inj hpage
      rw [if_pos ⟨hhit.1, hhit.2.1⟩] at hlink
      obtain rfl := Option.some.inj hlink
      cases hold : A.linked o i with
      | none =>
          rw [Option.getD_none, pdeBits_user]
          exact hword.mp hw
      | some u' =>
          rw [hhit.1, hhit.2.1] at hold
          exact hflags (hword.mp hw) u' hold
    · -- another page, whose table was there
      cases hold : A.linked o i with
      | none =>
          rw [h.page_linked hold] at hpage
          cases hpage
      | some u' =>
          rw [hold] at hlink
          have hu : u' = u := by
            split_ifs at hlink
            · exact Option.some.inj hlink
            · exact Option.some.inj hlink
          exact hu ▸ hA o i k w u' hpage hw hold

end

/-! ### Runs -/

theorem VmmOp.PagesOnly.spaceStep {op : VmmOp} (hop : op.PagesOnly) {free : Finset ℕ}
    {cursor : UInt32} {A A' : PageSpaces} (h : SpaceStep free cursor A op A') :
    A' = spaceAfter A op := by
  cases op with
  | createUserPd => exact h
  | mapPage d vaddr paddr flags => exact h.2
  | unmapPage d vaddr => exact h.2
  | switchPd d => exact h
  | allocFrame => exact h
  | heapAllocPages n => exact absurd hop id

theorem spacesOf_append (ops : List VmmOp) (op : VmmOp) :
    spacesOf (ops ++ [op]) = spaceAfter (spacesOf ops) op := by
  unfold spacesOf
  rw [List.foldl_append, List.foldl_cons, List.foldl_nil]

/-- What holds in every state of a run: the address spaces are those of the operations, and the USER
bit of a page is that of the flags it was mapped with last.  Directories keep their owners, so that
`own` may be what the owners are later. -/
structure UserRun (ops : List VmmOp) (c : VmmClient) : Prop where
  rep : Represents c.vmm c.dirs (spacesOf ops)
  page : ∀ own : ℕ → Fin 1024 → ℕ, (∀ d < (spacesOf ops).count, own d = (spacesOf ops).owner d) →
    ∀ o vaddr, ((spacesOf ops).page o (dirIx vaddr) (tabIx vaddr)).map (· &&& PAGE_USER) =
      (ops.foldl (VmmOp.flagsAfter fun d' vaddr' =>
        (dirIx vaddr = dirIx vaddr' ∧ tabIx vaddr = tabIx vaddr') ∧ o = own d' (dirIx vaddr'))
        none).map (· &&& PAGE_USER)

theorem UserRun.step {ops : List VmmOp} {c c' : VmmClient} (h : UserRun ops c) {op : VmmOp}
    (hop : op.PagesOnly) (hstep : c.step op = some c') : UserRun (ops ++ [op]) c' := by
  obtain ⟨A', hspace, hrep', _⟩ := h.rep.step hstep
  obtain rfl := hop.spaceStep hspace
  constructor
  case rep =>
    rw [spacesOf_append]
    exact hrep'
  case page =>
    rw [spacesOf_append]
    intro own hown o vaddr
    rw [List.foldl_append, List.foldl_cons, List.foldl_nil]
    cases op with
    | createUserPd =>
        refine h.page own (fun d hd => ?_) o vaddr
        rw [hown d (Nat.lt_succ_of_lt hd)]
        exact Function.update_of_ne hd.ne _ _
    | mapPage d vaddr' paddr flags =>
        have hd := hspace.1
        have hown' : ∀ d < (spacesOf ops).count, own d = (spacesOf ops).owner d := by
          intro d' hd'
          have howner := hown d' ((spaceMap_count ..).symm ▸ hd')
          rwa [spaceAfter, spaceMap_owner] at howner
        have hold := h.page own hown' o vaddr
        rw [spaceAfter, spaceMap_page, VmmOp.flagsAfter, hown' d hd]
        by_cases hhit : o = (spacesOf ops).owner d (dirIx vaddr') ∧
            dirIx vaddr = dirIx vaddr' ∧ tabIx vaddr = tabIx vaddr'
        · rw [if_pos hhit, if_pos (decide_eq_true ⟨hhit.2, hhit.1⟩), Option.map_some,
            Option.map_some, pteWord_user]
        · rw [if_neg hhit, if_neg fun hc => hhit ⟨(of_decide_eq_true hc).2, (of_decide_eq_true hc).1⟩]
          exact hold
    | unmapPage d vaddr' =>
        have hd := hspace.1
        have hown' : ∀ d < (spacesOf ops).count, own d = (spacesOf ops).owner d := hown
        have hold := h.page own hown' o vaddr
        rw [spaceAfter, spaceUnmap_page, VmmOp.flagsAfter, hown' d hd]
        by_cases hhit : o = (spacesOf ops).owner d (dirIx vaddr') ∧
            dirIx vaddr = dirIx vaddr' ∧ tabIx vaddr = tabIx vaddr'
        · rw [if_pos hhit, if_pos (decide_eq_true ⟨hhit.2, hhit.1⟩)]
        · rw [if_neg hhit, if_neg fun hc => hhit ⟨(of_decide_eq_true hc).2, (of_decide_eq_true hc).1⟩]
          exact hold
    | switchPd d => exact h.page own hown o vaddr
    | allocFrame => exact h.page own hown o vaddr
    | heapAllocPages n => exact absurd hop id

theorem userRun_start {s s₀ : Vmm} (hinit : vmmInit s = .ok s₀) :
    UserRun [] (VmmClient.start s₀) := ⟨represents_start hinit, fun _ _ _ _ => rfl⟩

theorem userRun_run {s s₀ : Vmm} (hinit : vmmInit s = .ok s₀) {ops : List VmmOp}
    (hops : ∀ op ∈ ops, op.PagesOnly) {c : VmmClient}
    (hrun : Runs.haltingRun VmmClient.step (VmmClient.start s₀) ops = some c) : UserRun ops c := by
  refine Runs.haltingRun_history (fun ops c => (∀ op ∈ ops, op.PagesOnly) → UserRun ops c) ?_
    (fun _ => userRun_start hinit) hrun hops
  intro ops c op c' h hstep hall
  exact (h fun op' hop' => hall op' (List.mem_append_left _ hop')).step
    (hall op (List.mem_append_right _ List.mem_cons_self)) hstep

theorem UserRun.lastFlags_iff {ops : List VmmOp} {c : VmmClient} (h : UserRun ops c) (d : ℕ)
    (vaddr : UInt32) :
    (∃ flags, lastFlags ops d vaddr = some flags ∧ flags &&& PAGE_USER ≠ 0) ↔
      ∃ w, (spacesOf ops).page ((spacesOf ops).owner d (dirIx vaddr)) (dirIx vaddr) (tabIx vaddr) =
        some w ∧ w &&& PAGE_USER ≠ 0 := by
  have hbits : ∀ x : Option UInt32, (∃ w, x = some w ∧ w &&& PAGE_USER ≠ 0) ↔
      ∃ b, x.map (· &&& PAGE_USER) = some b ∧ b ≠ 0 := by
    intro x
    cases x <;> simp
  rw [hbits, hbits, h.page _ (fun _ _ => rfl)]
  rfl

theorem UserRun.follows_iff {ops : List VmmOp} {c : VmmClient} (h : UserRun ops c) :
    UserFollowsMapping ops c ↔ UserLinked (spacesOf ops) := by
  constructor
  · intro hfollows o i k w u hpage hw hlink
    obtain ⟨vaddr, rfl, rfl, _⟩ := exists_vaddr i k
    obtain ⟨hlt, howner⟩ := h.rep.linked_owner (hlink ▸ Option.some_ne_none u)
    rw [← h.rep.length_dirs] at hlt
    have hiff := hfollows o _ (List.getElem?_eq_getElem hlt) vaddr
    rw [h.rep.userAccessible (List.getElem?_eq_getElem hlt), h.lastFlags_iff, howner] at hiff
    obtain ⟨⟨u', hu', huser⟩, _⟩ := hiff.mpr ⟨w, hpage, hw⟩
    obtain rfl := Option.some.inj (hlink.symm.trans hu')
    exact huser
  · intro hlinked d pd hd vaddr
    rw [h.rep.userAccessible hd, h.lastFlags_iff]
    constructor
    · exact fun hboth => hboth.2
    · rintro ⟨w, hpage, hw⟩
      refine ⟨?_, w, hpage, hw⟩
      cases hlink : (spacesOf ops).linked ((spacesOf ops).owner d (dirIx vaddr)) (dirIx vaddr) with
      | none =>
          rw [h.rep.page_linked hlink] at hpage
          cases hpage
      | some u => exact ⟨u, rfl, hlinked _ _ _ w u hpage hw hlink⟩

/-- **One step** keeps accessibility right exactly if it maps with a fitting directory entry. -/
theorem UserRun.follows_step {ops : List VmmOp} {c c' : VmmClient} (h : UserRun ops c)
    (hfollows : UserFollowsMapping ops c) {op : VmmOp} (hop : op.PagesOnly)
    (hstep : c.step op = some c') :
    UserFollowsMapping (ops ++ [op]) c' ↔ MapsWithUserEntry c op := by
  have hA := h.follows_iff.mp hfollows
  obtain ⟨A', hspace, _⟩ := h.rep.step hstep
  rw [(h.step hop hstep).follows_iff, spacesOf_append]
  cases op with
  | mapPage d vaddr paddr flags =>
      obtain ⟨hd, _⟩ := hspace
      rw [← h.rep.length_dirs] at hd
      have hpd := List.getElem?_eq_getElem hd
      refine (h.rep.userLinked_map hA vaddr paddr flags).trans ?_
      show _ ↔ (flags &&& PAGE_USER ≠ 0 → ∀ pd, c.dirs[d]? = some pd → _)
      refine imp_congr_right fun _ => ?_
      rw [← h.rep.entry_user_iff hpd]
      constructor
      · intro hentry pd hpd'
        obtain rfl := Option.some.inj (hpd.symm.trans hpd')
        exact hentry
      · exact fun hentry => hentry _ hpd
  | createUserPd => exact iff_of_true hA trivial
  | unmapPage d vaddr =>
      refine iff_of_true (fun o i k w u hpage hw hlink => hA o i k w u ?_ hw hlink) trivial
      rw [spaceAfter, spaceUnmap_page] at hpage
      split_ifs at hpage
      exact hpage
  | switchPd d => exact iff_of_true hA trivial
  | allocFrame => exact iff_of_true hA trivial
  | heapAllocPages n => exact absurd hop id

/-- **User accessibility follows the last mapping** throughout a run exactly if every mapping for
Ring 3 finds no directory entry or one for Ring 3. -/
theorem user_follows_mapping_iff (k : KernelImage) (entries : List MmapEntry)
    (mem : UInt32 → UInt32) (cr3 : UInt32) (s₀ : Vmm)
    (hinit : vmmInit (bootVmm k entries mem cr3) = .ok s₀) (ops : List VmmOp)
    (hops : ∀ op ∈ ops, op.PagesOnly) :
    Runs.Throughout VmmClient.step UserFollowsMapping [] (VmmClient.start s₀) ops ↔
      Runs.EachStep VmmClient.step MapsWithUserEntry (VmmClient.start s₀) ops := by
  have hstart := userRun_start hinit
  refine Runs.throughout_iff UserRun (fun h c op c' hc hop hstep => hc.step hop hstep)
    (fun h c op c' hc hfollows hop hstep => hc.follows_step hfollows hop hstep) hstart ?_ hops
  rw [hstart.follows_iff]
  intro o i k w u hpage
  cases hpage

/-- Two pages of one table, the first for Ring 3, the second not. -/
def userFirst : List VmmOp :=
  [.createUserPd, .mapPage 1 0x400000 0x200000 0x007, .mapPage 1 0x401000 0x201000 0x003]

theorem user_follows_mapping_iff_userFirst :
    ∃ s₀ c, vmmInit (bootVmm smallKernel roomyMap (fun _ => 0) 0) = .ok s₀ ∧
      Runs.haltingRun VmmClient.step (VmmClient.start s₀) userFirst = some c ∧
      Runs.Throughout VmmClient.step UserFollowsMapping [] (VmmClient.start s₀) userFirst := by
  obtain ⟨s₀, c, hinit, hrun, _⟩ := Runnable.returns_roomyMap userFirst ⟨by decide, by decide, trivial⟩ (by decide)
  refine ⟨s₀, c, hinit, hrun, (user_follows_mapping_iff smallKernel roomyMap _ _ s₀ hinit _
    (by simp [userFirst, VmmOp.PagesOnly])).mpr ?_⟩
  intro c₁ hstep₁
  refine ⟨trivial, fun c₂ _ => ⟨fun _ pd hpd => ?_, fun c₃ _ => ⟨fun hflags => absurd rfl hflags, trivial⟩⟩⟩
  have hc₁ : UserRun [.createUserPd] c₁ := (userRun_start hinit).step trivial hstep₁
  refine (hc₁.rep.entry_user_iff hpd _).mpr fun u hlink => ?_
  have hnone : (spacesOf [.createUserPd]).linked ((spacesOf [.createUserPd]).owner 1 (dirIx 0x400000))
      (dirIx 0x400000) = none := by decide
  cases hnone.symm.trans hlink

/-- Two pages of one table, the first not for Ring 3, the second for Ring 3. -/
def mixedFlags : List VmmOp :=
  [.createUserPd, .mapPage 1 0x400000 0x200000 0x003, .mapPage 1 0x401000 0x201000 0x007]

/-- The second page was mapped for Ring 3 last and is not accessible. -/
theorem mixedFlags_inaccessible :
    ∃ s₀ c pd, vmmInit (bootVmm smallKernel roomyMap (fun _ => 0) 0) = .ok s₀ ∧
      Runs.haltingRun VmmClient.step (VmmClient.start s₀) mixedFlags = some c ∧
      c.dirs[1]? = some pd ∧ lastFlags mixedFlags 1 0x401000 = some 0x007 ∧
      ¬ UserAccessible c.vmm pd 0x401000 := by
  obtain ⟨s₀, c, hinit, hrun, hlen⟩ := Runnable.returns_roomyMap mixedFlags
    ⟨by decide, by decide, trivial⟩ (by decide)
  have hlt : 1 < c.dirs.length := by
    rw [hlen]
    decide
  have hpd : c.dirs[1]? = some c.dirs[1] := List.getElem?_eq_getElem hlt
  have hc : UserRun mixedFlags c := userRun_run hinit (by simp [mixedFlags, VmmOp.PagesOnly]) hrun
  refine ⟨s₀, c, _, hinit, hrun, hpd, by decide, ?_⟩
  rw [hc.rep.userAccessible hpd]
  rintro ⟨⟨u, hu, huser⟩, _⟩
  have hbits : (spacesOf mixedFlags).linked ((spacesOf mixedFlags).owner 1 (dirIx 0x401000))
      (dirIx 0x401000) = some 0x003 := by decide
  obtain rfl := Option.some.inj (hbits.symm.trans hu)
  exact huser (by decide)

end LunaOs
