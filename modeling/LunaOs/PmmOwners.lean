import LunaOs.PmmInit

/-! # Who owns a frame

A client of the physical memory manager allocates single frames and runs of frames, in any order,
and frees only frames it holds.  The state pairs the manager with the list of the frames handed out
and not yet freed, as the client computes it from the addresses it was given; a frame handed out
twice would stand in it twice.  A panic, or freeing a frame that is not held, ends the run. -/

namespace LunaOs

inductive PmmOp where
  | allocFrame
  | allocFrames (n : UInt32)
  | freeFrame (physAddr : UInt32)

/-- The manager and the frames that were given out. -/
structure PmmClient where
  pmm : Pmm
  held : List ℕ

/-- The frame of a physical address. -/
def frameOf (physAddr : UInt32) : ℕ := physAddr.toNat / FRAME_SIZE

def PmmClient.step (s : PmmClient) : PmmOp → Option PmmClient
  | .allocFrame =>
      match pmmAllocFrame s.pmm with
      | .ok (phys, pmm) => some ⟨pmm, frameOf phys :: s.held⟩
      | .error _ => none
  | .allocFrames n =>
      match pmmAllocFrames s.pmm n with
      | .ok (phys, pmm) => some ⟨pmm, List.range' (frameOf phys) n.toNat ++ s.held⟩
      | .error _ => none
  | .freeFrame phys =>
      if frameOf phys ∈ s.held then
        some ⟨pmmFreeFrame s.pmm phys, s.held.erase (frameOf phys)⟩
      else none

theorem frameOf_frameAddr {f : ℕ} (hf : f < FRAMES_TOTAL) : frameOf (frameAddr f) = f := by
  unfold frameOf
  rw [frameAddr_toNat hf]
  exact Nat.mul_div_cancel f (by decide)

/-! ### The invariant -/

/-- The frames held are distinct, were clear at the start, and are the ones whose bit has been set
since. -/
structure PmmClient.Owns (free : Finset ℕ) (s : PmmClient) : Prop where
  nodup : s.held.Nodup
  mem_free : ∀ f ∈ s.held, f ∈ free
  clear : s.pmm.clearFrames = free \ s.held.toFinset

namespace PmmClient

variable {free : Finset ℕ} {s s' : PmmClient}

theorem Owns.of_clear (h : s.Owns free) {f : ℕ} (hf : f ∈ s.pmm.clearFrames) :
    f ∉ s.held ∧ f ∈ free := by
  rw [h.clear, Finset.mem_sdiff, List.mem_toFinset] at hf
  exact ⟨hf.2, hf.1⟩

/-- Handing out distinct frames that were clear. -/
theorem Owns.handOut (h : s.Owns free) {l : List ℕ} (hl : l.Nodup)
    (hclear : ∀ f ∈ l, f ∈ s.pmm.clearFrames) {pmm : Pmm}
    (hpmm : pmm.clearFrames = s.pmm.clearFrames \ l.toFinset) :
    Owns free ⟨pmm, l ++ s.held⟩ where
  nodup := hl.append h.nodup fun f hf => (h.of_clear (hclear f hf)).1
  mem_free f hf := by
    rcases List.mem_append.mp hf with hl | hheld
    · exact (h.of_clear (hclear f hl)).2
    · exact h.mem_free f hheld
  clear := by
    show pmm.clearFrames = _
    rw [hpmm, h.clear, List.toFinset_append, sdiff_sdiff_left, sup_comm, Finset.sup_eq_union]

theorem Owns.allocFrame (h : s.Owns free) {phys : UInt32} {pmm : Pmm}
    (hok : pmmAllocFrame s.pmm = .ok (phys, pmm)) : Owns free ⟨pmm, frameOf phys :: s.held⟩ := by
  obtain ⟨f, hf, rfl, hpmm, _⟩ := pmmAllocFrame_ok hok
  rw [frameOf_frameAddr (Pmm.lt_of_mem hf)]
  refine h.handOut (l := [f]) (List.nodup_singleton f) ?_ ?_
  · intro g hg
    rw [List.mem_singleton.mp hg]
    exact hf
  · rw [hpmm, Finset.erase_eq]
    rfl

/-- A successful `pmm_alloc_frames`: the run it takes. -/
theorem allocFrames_ok {p pmm : Pmm} {n phys : UInt32} (hok : pmmAllocFrames p n = .ok (phys, pmm)) :
    ∃ start, start + n.toNat ≤ FRAMES_TOTAL ∧ start < FRAMES_TOTAL ∧ phys = frameAddr start ∧
      (∀ f, start ≤ f → f < start + n.toNat → f ∈ p.clearFrames) ∧
      pmm.clearFrames = p.clearFrames \ (List.range' start n.toNat).toFinset ∧
      pmm = (List.range' start n.toNat).foldl Pmm.take p := by
  have hn : 1 ≤ n.toNat := by
    rcases Nat.eq_zero_or_pos n.toNat with hzero | hpos
    · rw [UInt32.toNat_inj.mp (hzero.trans rfl : n.toNat = (0 : UInt32).toNat),
        pmmAllocFrames_zero] at hok
      cases hok
    · exact hpos
  rcases pmmAllocFrames_cases p hn with ⟨start, hle, hclear, heq⟩ | ⟨herr, _⟩
  · rw [heq] at hok
    obtain ⟨rfl, rfl⟩ := Prod.mk.inj (Except.ok.inj hok)
    exact ⟨start, hle, by omega, rfl, hclear, Pmm.clearFrames_foldl_take p _, rfl⟩
  · rw [herr] at hok
    cases hok

theorem allocFrames_shrinks {p p' : Pmm} {n phys : UInt32}
    (h : pmmAllocFrames p n = .ok (phys, p')) : p.Shrinks p' := by
  unfold Pmm.Shrinks
  obtain ⟨_, _, _, _, _, hclear, _⟩ := allocFrames_ok h
  rw [hclear]
  exact Finset.sdiff_subset

theorem Owns.allocFrames (h : s.Owns free) {n phys : UInt32} {pmm : Pmm}
    (hok : pmmAllocFrames s.pmm n = .ok (phys, pmm)) :
    Owns free ⟨pmm, List.range' (frameOf phys) n.toNat ++ s.held⟩ := by
  obtain ⟨start, _, hstart, rfl, hclear, hpmm, _⟩ := allocFrames_ok hok
  rw [frameOf_frameAddr hstart]
  refine h.handOut List.nodup_range' ?_ hpmm
  intro f hf
  obtain ⟨h1, h2⟩ := List.mem_range'_1.mp hf
  exact hclear f h1 h2

theorem Owns.freeFrame (h : s.Owns free) {phys : UInt32} (hheld : frameOf phys ∈ s.held) :
    Owns free ⟨pmmFreeFrame s.pmm phys, s.held.erase (frameOf phys)⟩ where
  nodup := h.nodup.erase _
  mem_free f hf := h.mem_free f (List.mem_of_mem_erase hf)
  clear := by
    show (pmmFreeFrame s.pmm phys).clearFrames = _
    rw [clearFrames_pmmFreeFrame, h.clear]
    change insert (frameOf phys) _ = _
    have hfree := h.mem_free _ hheld
    ext f
    rw [Finset.mem_insert, Finset.mem_sdiff, Finset.mem_sdiff, List.mem_toFinset,
      List.mem_toFinset, h.nodup.mem_erase_iff]
    constructor
    · rintro (rfl | ⟨hf, hnot⟩)
      · exact ⟨hfree, fun hmem => hmem.1 rfl⟩
      · exact ⟨hf, fun hmem => hnot hmem.2⟩
    · rintro ⟨hf, hnot⟩
      by_cases heq : f = frameOf phys
      · exact .inl heq
      · exact .inr ⟨hf, fun hmem => hnot ⟨heq, hmem⟩⟩

theorem Owns.step (h : s.Owns free) {op : PmmOp} (hstep : s.step op = some s') : s'.Owns free := by
  unfold PmmClient.step at hstep
  cases op with
  | allocFrame =>
      dsimp only at hstep
      split at hstep
      · obtain rfl := Option.some.inj hstep
        exact h.allocFrame ‹_›
      · cases hstep
  | allocFrames n =>
      dsimp only at hstep
      split at hstep
      · obtain rfl := Option.some.inj hstep
        exact h.allocFrames ‹_›
      · cases hstep
  | freeFrame phys =>
      dsimp only at hstep
      split_ifs at hstep with hheld
      obtain rfl := Option.some.inj hstep
      exact h.freeFrame hheld

/-- Right after `pmm_init` nothing is held. -/
theorem owns_init (p : Pmm) : Owns p.clearFrames ⟨p, []⟩ where
  nodup := List.nodup_nil
  mem_free _ hf := absurd hf List.not_mem_nil
  clear := Finset.sdiff_empty.symm

theorem owns_run (p : Pmm) {ops : List PmmOp}
    (hrun : Runs.haltingRun PmmClient.step ⟨p, []⟩ ops = some s) : s.Owns p.clearFrames :=
  Runs.haltingRun_invariant (fun _ _ _ h hstep => h.step hstep) (owns_init p) hrun

end PmmClient

/-! ### Ownership along a run -/

/-- **Frame ownership**: in every state of every run the frames handed out and not freed are distinct
and were clear after `pmm_init`; whatever either allocator returns next is the exact address of a
frame nobody holds, or of a run of them. -/
theorem pmm_ownership (k : KernelImage) (entries : List MmapEntry) (ops : List PmmOp) (s : PmmClient)
    (hrun : Runs.haltingRun PmmClient.step ⟨pmmInit k entries, []⟩ ops = some s) :
    s.held.Nodup ∧
    (∀ f ∈ s.held, f < 2 ^ 20 ∧ f ∈ (pmmInit k entries).clearFrames) ∧
    (∀ phys pmm, pmmAllocFrame s.pmm = .ok (phys, pmm) →
      ∃ f < 2 ^ 20, phys.toNat = f * FRAME_SIZE ∧ f ∉ s.held ∧
        f ∈ (pmmInit k entries).clearFrames) ∧
    (∀ n phys pmm, 1 ≤ n.toNat → pmmAllocFrames s.pmm n = .ok (phys, pmm) →
      ∃ start, start + n.toNat ≤ 2 ^ 20 ∧ phys.toNat = start * FRAME_SIZE ∧
        ∀ f, start ≤ f → f < start + n.toNat →
          f ∉ s.held ∧ f ∈ (pmmInit k entries).clearFrames) := by
  have h := PmmClient.owns_run _ hrun
  refine ⟨h.nodup, fun f hf => ⟨Pmm.lt_of_mem (h.mem_free f hf), h.mem_free f hf⟩, ?_, ?_⟩
  · intro phys pmm hok
    obtain ⟨f, hf, rfl, _⟩ := pmmAllocFrame_ok hok
    exact ⟨f, Pmm.lt_of_mem hf, frameAddr_toNat (Pmm.lt_of_mem hf), h.of_clear hf⟩
  · intro n phys pmm _ hok
    obtain ⟨start, hle, hstart, rfl, hclear, _⟩ := PmmClient.allocFrames_ok hok
    exact ⟨start, hle, frameAddr_toNat hstart, fun f h1 h2 => h.of_clear (hclear f h1 h2)⟩

/-- Five frames from 2 MB on. -/
def fiveFrames : List MmapEntry := [⟨0x200000, 0x5000, MB2_MMAP_AVAILABLE⟩]

/-- One frame is allocated and then three; the first of the three is released and allocated again. -/
def fourHeld : List PmmOp := [.allocFrame, .allocFrames 3, .freeFrame 0x201000, .allocFrame]

theorem pmm_ownership_fiveFrames :
    ∃ s, Runs.haltingRun PmmClient.step ⟨pmmInit smallKernel fiveFrames, []⟩ fourHeld = some s ∧
      s.held = [513, 514, 515, 512] ∧ s.held.Nodup ∧
      ∀ phys pmm, pmmAllocFrame s.pmm = .ok (phys, pmm) →
        ∃ f < 2 ^ 20, phys.toNat = f * FRAME_SIZE ∧ f ∉ s.held ∧
          f ∈ (pmmInit smallKernel fiveFrames).clearFrames := by
  have hheld : (Runs.haltingRun PmmClient.step ⟨pmmInit smallKernel fiveFrames, []⟩ fourHeld).map
      PmmClient.held = some [513, 514, 515, 512] := by decide +kernel
  obtain ⟨s, hrun, hs⟩ := Option.map_eq_some_iff.mp hheld
  obtain ⟨hnodup, _, hnext, _⟩ := pmm_ownership smallKernel fiveFrames fourHeld s hrun
  exact ⟨s, hrun, hs, hnodup, hnext⟩

end LunaOs
