import LunaOs.PmmCounter
import Mathlib.Order.Bounds.Defs

/-! # The allocators over whole runs

The searches of `pmm.c` are complete and minimal: `pmm_alloc_frame` returns the first clear frame in
cyclic order from the hint, `pmm_alloc_frames` the lowest run.  Together with the counter, which every
operation keeps equal to the number of clear bits, this settles when they panic.

`allocFramesScan` is `pmm_alloc_frames` with the state it leaves behind when it panics, which
`pmmAllocFrames` drops. -/

namespace LunaOs

/-! ### Cyclic search -/

/-- The frame `k` places behind the hint. -/
def Pmm.cyclic (p : Pmm) (k : ℕ) : ℕ := (p.lastAlloc + k) % FRAMES_TOTAL

/-- What the search of `pmm_alloc_frame` finds, every frame it passes is in use. -/
theorem nextFit_first {bitmap : ℕ → BitVec 32} {last r i f : ℕ}
    (h : nextFit bitmap last r i = some f) :
    ∃ k, i ≤ k ∧ k < i + r ∧ f = (last + k) % FRAMES_TOTAL ∧
      ∀ j, i ≤ j → j < k → frameTest bitmap ((last + j) % FRAMES_TOTAL) = true := by
  induction r generalizing i with
  | zero => exact absurd h (by simp [nextFit])
  | succ r ih =>
      unfold nextFit at h
      dsimp only at h
      split_ifs at h with htest
      · refine ⟨i, le_rfl, by omega, (Option.some.inj h).symm, ?_⟩
        intro j h1 h2
        omega
      · obtain ⟨k, h1, h2, hf, hpassed⟩ := ih h
        refine ⟨k, by omega, by omega, hf, ?_⟩
        intro j hi hj
        rcases Nat.eq_or_lt_of_le hi with rfl | hlt
        · simpa using htest
        · exact hpassed j hlt hj

/-- **`pmm_alloc_frame`** returns the first clear frame in cyclic order from the hint. -/
theorem pmmAllocFrame_first {p p' : Pmm} {phys : UInt32} (h : pmmAllocFrame p = .ok (phys, p')) :
    ∃ k < FRAMES_TOTAL, phys.toNat = p.cyclic k * FRAME_SIZE ∧ p.cyclic k ∈ p.clearFrames ∧
      (∀ j < k, p.cyclic j ∉ p.clearFrames) ∧ p'.lastAlloc = p.cyclic k + 1 := by
  unfold pmmAllocFrame at h
  split_ifs at h
  cases hfit : nextFit p.bitmap p.lastAlloc FRAMES_TOTAL 0 with
  | none =>
      rw [hfit] at h
      cases h
  | some f =>
      rw [hfit] at h
      obtain ⟨rfl, rfl⟩ := Prod.mk.inj (Except.ok.inj h)
      obtain ⟨hlt, hclear⟩ := nextFit_some hfit
      obtain ⟨k, _, hk, rfl, hpassed⟩ := nextFit_first hfit
      refine ⟨k, by omega, frameAddr_toNat hlt, Pmm.mem_clearFrames.mpr ⟨hlt, hclear⟩, ?_, rfl⟩
      intro j hj hmem
      have hset := hpassed j (Nat.zero_le j) hj
      have hfree := (Pmm.mem_clearFrames.mp hmem).2
      rw [Pmm.cyclic, hset] at hfree
      cases hfree

/-! ### Runs of the three operations -/

/-- One call; a panic ends the run. -/
def pmmStep (p : Pmm) : PmmOp → Option Pmm
  | .allocFrame => (pmmAllocFrame p).toOption.map Prod.snd
  | .allocFrames n => (pmmAllocFrames p n).toOption.map Prod.snd
  | .freeFrame phys => some (pmmFreeFrame p phys)

/-- The counter is the number of clear bits, and the hint lies at most one behind the last frame. -/
structure Pmm.InStep (p : Pmm) : Prop where
  counted : p.Exact
  hint : p.lastAlloc ≤ FRAMES_TOTAL

theorem lastAlloc_foldl_take (p : Pmm) (l : List ℕ) : (l.foldl Pmm.take p).lastAlloc = p.lastAlloc := by
  induction l generalizing p with
  | nil => rfl
  | cons f l ih => exact ih (p.take f)

theorem lastAlloc_pmmFreeFrame (p : Pmm) (phys : UInt32) :
    (pmmFreeFrame p phys).lastAlloc = p.lastAlloc := by
  unfold pmmFreeFrame
  dsimp only
  split_ifs <;> rfl

namespace Pmm

variable {p p' : Pmm}

theorem InStep.allocFrame (h : p.InStep) {phys : UInt32} (hok : pmmAllocFrame p = .ok (phys, p')) :
    p'.InStep where
  counted := Exact.pmmAllocFrame h.counted hok
  hint := by
    obtain ⟨k, _, _, hclear, _, hlast⟩ := pmmAllocFrame_first hok
    rw [hlast]
    exact lt_of_mem hclear

theorem InStep.allocFrames (h : p.InStep) {n phys : UInt32}
    (hok : pmmAllocFrames p n = .ok (phys, p')) : p'.InStep where
  counted := h.counted.allocFrames hok
  hint := by
    obtain ⟨start, _, _, _, _, _, rfl⟩ := PmmClient.allocFrames_ok hok
    rw [lastAlloc_foldl_take]
    exact h.hint

theorem InStep.freeFrame (h : p.InStep) (phys : UInt32) : (pmmFreeFrame p phys).InStep where
  counted := h.counted.freeFrame phys
  hint := by
    rw [lastAlloc_pmmFreeFrame]
    exact h.hint

theorem InStep.step (h : p.InStep) {op : PmmOp} (hstep : pmmStep p op = some p') : p'.InStep := by
  cases op with
  | allocFrame =>
      obtain ⟨⟨phys, q⟩, hok, rfl⟩ := toOption_map_eq_some hstep
      exact h.allocFrame hok
  | allocFrames n =>
      obtain ⟨⟨phys, q⟩, hok, rfl⟩ := toOption_map_eq_some hstep
      exact h.allocFrames hok
  | freeFrame phys =>
      obtain rfl := Option.some.inj hstep
      exact h.freeFrame phys

theorem InStep.run (h : p.InStep) {ops : List PmmOp} (hrun : Runs.haltingRun pmmStep p ops = some p') :
    p'.InStep :=
  Runs.haltingRun_invariant (fun _ _ _ hq hstep => hq.step hstep) h hrun

theorem InStep.error_iff (h : p.InStep) :
    (∃ e, LunaOs.pmmAllocFrame p = .error e) ↔ p.clearFrames = ∅ := by
  obtain ⟨hnot, hiff⟩ := Exact.panics h.counted
  rw [← hiff]
  constructor
  · rintro ⟨e, herr⟩
    cases e with
    | outOfMemory => exact herr
    | bitmapInconsistent => exact absurd herr hnot
    | noContiguousFrames =>
        rcases pmmAllocFrame_cases p with ⟨_, hcase⟩ | ⟨_, _, hcase⟩ | ⟨f, _, _, hcase⟩ <;>
          simp [hcase] at herr
  · exact fun herr => ⟨_, herr⟩

end Pmm

/-- **Counter, bitmap and hint stay in step**: in every state of every run the counter is the number of
clear bits and the hint is at most 2^20; there `pmm_alloc_frame` returns the first clear frame in
cyclic order from the hint and panics exactly when no bit is clear, never as inconsistent. -/
theorem pmm_run_inStep (p : Pmm) (hcount : p.freeFrames.toNat = p.clearFrames.card)
    (hhint : p.lastAlloc ≤ 2 ^ 20) (ops : List PmmOp) (s : Pmm)
    (hrun : Runs.haltingRun pmmStep p ops = some s) :
    s.freeFrames.toNat = s.clearFrames.card ∧ s.lastAlloc ≤ 2 ^ 20 ∧
    (∀ phys s', pmmAllocFrame s = .ok (phys, s') →
      ∃ k < 2 ^ 20, phys.toNat = (s.lastAlloc + k) % 2 ^ 20 * FRAME_SIZE ∧
        frameTest s.bitmap ((s.lastAlloc + k) % 2 ^ 20) = false ∧
        ∀ j < k, frameTest s.bitmap ((s.lastAlloc + j) % 2 ^ 20) = true) ∧
    ((∃ e, pmmAllocFrame s = .error e) ↔ s.clearFrames = ∅) ∧
    pmmAllocFrame s ≠ .error .bitmapInconsistent := by
  have h : s.InStep := Pmm.InStep.run ⟨hcount, hhint⟩ hrun
  refine ⟨h.counted, h.hint, ?_, h.error_iff, (Pmm.Exact.panics h.counted).1⟩
  intro phys s' hok
  obtain ⟨k, hk, hphys, hclear, hpassed, _⟩ := pmmAllocFrame_first hok
  refine ⟨k, hk, hphys, (Pmm.mem_clearFrames.mp hclear).2, ?_⟩
  intro j hj
  have hpos : 0 < FRAMES_TOTAL := by decide
  have hlt : s.cyclic j < FRAMES_TOTAL := Nat.mod_lt _ hpos
  by_contra hset
  exact hpassed j hj (Pmm.mem_clearFrames.mpr ⟨hlt, Bool.eq_false_iff.mpr hset⟩)

/-- All frames in use. -/
def fullPmm : Pmm := { Pmm.statics with bitmap := fun _ => 0xFFFFFFFF#32 }

theorem pmm_run_inStep_full :
    ∃ s, Runs.haltingRun pmmStep fullPmm [.freeFrame 0x200000, .freeFrame 0x200000] = some s ∧
      s.freeFrames.toNat = s.clearFrames.card ∧ s.lastAlloc ≤ 2 ^ 20 := by
  have hnone := Pmm.clearFrames_allUsed fullPmm rfl
  have hcount : fullPmm.freeFrames.toNat = fullPmm.clearFrames.card := by
    rw [hnone]
    rfl
  obtain ⟨h1, h2, _⟩ := pmm_run_inStep fullPmm hcount (Nat.zero_le _)
    [.freeFrame 0x200000, .freeFrame 0x200000] _ rfl
  exact ⟨_, rfl, h1, h2⟩

/-! ### The lowest run of frames -/

/-- The loop of `pmm_alloc_frames` on the state, at `f` with `r` turns left. -/
def allocFramesScan (n : ℕ) : ℕ → ℕ → ℕ → ℕ → Pmm → Except PmmPanic UInt32 × Pmm
  | 0, _, _, _, p => (.error .noContiguousFrames, p)
  | r + 1, f, start, run, p =>
      if !frameTest p.bitmap f then
        let start := if run = 0 then f else start
        if run + 1 = n then (.ok (frameAddr start), (List.range' start n).foldl Pmm.take p)
        else allocFramesScan n r (f + 1) start (run + 1) p
      else allocFramesScan n r (f + 1) start 0 p

/-- `pmm_alloc_frames` with the state it leaves, also when it panics. -/
def pmmAllocFramesState (p : Pmm) (n : UInt32) : Except PmmPanic UInt32 × Pmm :=
  allocFramesScan n.toNat FRAMES_TOTAL 0 0 0 p

theorem allocFramesScan_eq (n r f start run : ℕ) (p : Pmm) :
    allocFramesScan n r f start run p =
      match firstFit p.bitmap n r f start run with
      | some s => (.ok (frameAddr s), (List.range' s n).foldl Pmm.take p)
      | none => (.error .noContiguousFrames, p) := by
  induction r generalizing f start run with
  | zero => rfl
  | succ r ih =>
      unfold allocFramesScan firstFit
      dsimp only
      by_cases htest : (!frameTest p.bitmap f) = true
      · rw [if_pos htest, if_pos htest]
        by_cases hn : run + 1 = n
        · rw [if_pos hn, if_pos hn]
        · rw [if_neg hn, if_neg hn]
          apply ih
      · rw [if_neg htest, if_neg htest]
        apply ih

theorem pmmAllocFrames_eq_state (p : Pmm) (n : UInt32) :
    pmmAllocFrames p n = (pmmAllocFramesState p n).1.map fun phys => (phys, (pmmAllocFramesState p n).2) := by
  unfold pmmAllocFrames pmmAllocFramesState
  rw [allocFramesScan_eq]
  cases firstFit p.bitmap n.toNat FRAMES_TOTAL 0 0 0 <;> rfl

/-- Where a run of `n` free frames starts. -/
def FreeRuns (bitmap : ℕ → BitVec 32) (n : ℕ) : Set ℕ :=
  {s | s + n ≤ 2 ^ 20 ∧ ∀ f, s ≤ f → f < s + n → frameTest bitmap f = false}

theorem firstFit_isLeast {bitmap : ℕ → BitVec 32} {n start : ℕ} (hn : 1 ≤ n)
    (h : firstFit bitmap n FRAMES_TOTAL 0 0 0 = some start) : IsLeast (FreeRuns bitmap n) start := by
  rcases firstFit_spec (r := FRAMES_TOTAL) (runSearch_start bitmap hn) with
    ⟨s, hfit, hle, hclear, hleast⟩ | ⟨hfit, _⟩
  · obtain rfl := Option.some.inj (hfit.symm.trans h)
    have htotal := framesTotal_eq
    refine ⟨⟨by omega, hclear⟩, ?_⟩
    intro t ht
    by_contra hlt
    obtain ⟨k, h1, h2, hset⟩ := hleast t (Nat.not_le.mp hlt)
    rw [ht.2 k h1 h2] at hset
    cases hset
  · rw [hfit] at h
    cases h

theorem firstFit_eq_none_iff {bitmap : ℕ → BitVec 32} {n : ℕ} (hn : 1 ≤ n) :
    firstFit bitmap n FRAMES_TOTAL 0 0 0 = none ↔ FreeRuns bitmap n = ∅ := by
  constructor
  · intro h
    rcases firstFit_spec (r := FRAMES_TOTAL) (runSearch_start bitmap hn) with
      ⟨s, hfit, _⟩ | ⟨_, hnone⟩
    · rw [hfit] at h
      cases h
    · apply Set.eq_empty_of_forall_notMem
      rintro s ⟨hle, hclear⟩
      have htotal := framesTotal_eq
      obtain ⟨k, h1, h2, hset⟩ := hnone s (by omega)
      rw [hclear k h1 h2] at hset
      cases hset
  · intro hempty
    cases hfit : firstFit bitmap n FRAMES_TOTAL 0 0 0 with
    | none => rfl
    | some start =>
        have hmem := (firstFit_isLeast hn hfit).1
        rw [hempty] at hmem
        exact absurd hmem (Set.notMem_empty start)

theorem frameTest_foldl_take (p : Pmm) (l : List ℕ) (f : ℕ) :
    frameTest (l.foldl Pmm.take p).bitmap f = (frameTest p.bitmap f || decide (f ∈ l)) := by
  induction l generalizing p with
  | nil => simp
  | cons g l ih =>
      have htake : frameTest (p.take g).bitmap f = (frameTest p.bitmap f || decide (f = g)) := by
        rw [frameTest_eq, frameTest_eq]
        exact Bitmap.test_set (by decide) p.bitmap g f
      rw [List.foldl_cons, ih, htake, Bool.or_assoc]
      simp [List.mem_cons]

theorem freeFrames_foldl_take (p : Pmm) (l : List ℕ) :
    (l.foldl Pmm.take p).freeFrames = p.freeFrames - UInt32.ofNat l.length := by
  induction l generalizing p with
  | nil => simp
  | cons f l ih =>
      have htake : (p.take f).freeFrames = p.freeFrames - 1 := rfl
      rw [List.foldl_cons, ih, htake, List.length_cons, Nat.add_comm, UInt32.ofNat_add]
      have hone : UInt32.ofNat 1 = 1 := rfl
      grind

theorem pmmAllocFramesState_error_iff (p : Pmm) {n : UInt32} (hn : 1 ≤ n.toNat) :
    (∃ e, (pmmAllocFramesState p n).1 = .error e) ↔ FreeRuns p.bitmap n.toNat = ∅ := by
  unfold pmmAllocFramesState
  rw [allocFramesScan_eq, ← firstFit_eq_none_iff hn]
  cases firstFit p.bitmap n.toNat FRAMES_TOTAL 0 0 0 <;> simp

/-- A client gets no frame exactly if it holds all that were free at the start. -/
theorem PmmClient.Owns.allocFrame_error_iff {free : Finset ℕ} {s : PmmClient} (h : s.Owns free)
    (hstep : s.pmm.InStep) : (∃ e, pmmAllocFrame s.pmm = .error e) ↔ ∀ f, f ∈ free → f ∈ s.held := by
  rw [hstep.error_iff, h.clear, Finset.sdiff_eq_empty_iff_subset]
  exact forall_congr' fun f => imp_congr_right fun _ => List.mem_toFinset

/-- A client gets no `n` frames in a row exactly if each such row has a frame that was not free at the start or
is held. -/
theorem PmmClient.Owns.allocFrames_error_iff {free : Finset ℕ} {s : PmmClient} (h : s.Owns free) {n : UInt32}
    (hn : 1 ≤ n.toNat) : (∃ e, pmmAllocFrames s.pmm n = .error e) ↔
      ∀ start, start + n.toNat ≤ 2 ^ 20 →
        ∃ f, start ≤ f ∧ f < start + n.toNat ∧ (f ∈ free → f ∈ s.held) := by
  have hstate : (∃ e, pmmAllocFrames s.pmm n = .error e) ↔ ∃ e, (pmmAllocFramesState s.pmm n).1 = .error e := by
    rw [pmmAllocFrames_eq_state]
    cases (pmmAllocFramesState s.pmm n).1 <;> simp [Except.map]
  have hclear : ∀ f < 2 ^ 20, frameTest s.pmm.bitmap f = false ↔ f ∈ free ∧ f ∉ s.held := by
    intro f hf
    have hmem : f ∈ s.pmm.clearFrames ↔ f < 2 ^ 20 ∧ frameTest s.pmm.bitmap f = false := Pmm.mem_clearFrames
    rw [h.clear, Finset.mem_sdiff, List.mem_toFinset, and_iff_right hf] at hmem
    exact hmem.symm
  rw [hstate, pmmAllocFramesState_error_iff s.pmm hn, Set.eq_empty_iff_forall_notMem]
  refine forall_congr' fun start => ?_
  constructor
  · intro hnot hle
    by_contra hall
    push Not at hall
    exact hnot ⟨hle, fun f h1 h2 => (hclear f (by omega)).mpr (hall f h1 h2)⟩
  · rintro hall ⟨hle, htest⟩
    obtain ⟨f, h1, h2, himp⟩ := hall hle
    obtain ⟨hfree, hheld⟩ := (hclear f (by omega)).mp (htest f h1 h2)
    exact hheld (himp hfree)

/-- **Exact first fit**: `pmm_alloc_frames` returns the lowest run of `n` free frames, sets the bits of
exactly these and lowers the counter by `n`; it panics exactly when there is no such run, with
nothing changed. -/
theorem pmmAllocFrames_firstFit (p : Pmm) (n : UInt32) (hn : 1 ≤ n.toNat) :
    (∀ start, IsLeast (FreeRuns p.bitmap n.toNat) start →
      ∃ phys p', pmmAllocFramesState p n = (.ok phys, p') ∧ phys.toNat = 4096 * start ∧
        (∀ f, frameTest p'.bitmap f =
          (frameTest p.bitmap f || decide (start ≤ f ∧ f < start + n.toNat))) ∧
        p'.freeFrames = p.freeFrames - n) ∧
    ((∃ e, (pmmAllocFramesState p n).1 = .error e) ↔ FreeRuns p.bitmap n.toNat = ∅) ∧
    (FreeRuns p.bitmap n.toNat = ∅ → pmmAllocFramesState p n = (.error .noContiguousFrames, p)) := by
  have herror := pmmAllocFramesState_error_iff p hn
  unfold pmmAllocFramesState at herror ⊢
  rw [allocFramesScan_eq, ← firstFit_eq_none_iff hn] at herror ⊢
  cases hfit : firstFit p.bitmap n.toNat FRAMES_TOTAL 0 0 0 with
  | none =>
      rw [hfit] at herror
      refine ⟨?_, herror, fun _ => rfl⟩
      intro start hleast
      rw [(firstFit_eq_none_iff hn).mp hfit] at hleast
      exact absurd hleast.1 (Set.notMem_empty start)
  | some s =>
      rw [hfit] at herror
      have hs := firstFit_isLeast hn hfit
      refine ⟨?_, herror, nofun⟩
      intro start hleast
      obtain rfl := hs.unique hleast
      have hlt : s < FRAMES_TOTAL := by
        have hle := hs.1.1
        have htotal := framesTotal_eq
        omega
      refine ⟨_, _, rfl, by rw [frameAddr_toNat hlt, Nat.mul_comm], ?_, ?_⟩
      · intro f
        rw [frameTest_foldl_take]
        simp only [List.mem_range'_1]
      · rw [freeFrames_foldl_take, List.length_range', UInt32.ofNat_toNat]

/-- The frames 512, 514 and 515 are free, and 513 is in use. -/
def gapPmm : Pmm := [0x200000, 0x202000, 0x203000].foldl pmmFreeFrame fullPmm

theorem mem_clearFrames_gapPmm {f : ℕ} :
    f < 2 ^ 20 ∧ frameTest gapPmm.bitmap f = false ↔ f = 512 ∨ f = 514 ∨ f = 515 := by
  have hclear : gapPmm.clearFrames = {515, 514, 512} := by
    change (pmmFreeFrame (pmmFreeFrame (pmmFreeFrame fullPmm 0x200000) 0x202000) 0x203000).clearFrames = _
    rw [clearFrames_pmmFreeFrame, clearFrames_pmmFreeFrame, clearFrames_pmmFreeFrame,
      Pmm.clearFrames_allUsed fullPmm rfl]
    rfl
  have hmem : f < 2 ^ 20 ∧ frameTest gapPmm.bitmap f = false ↔ f ∈ gapPmm.clearFrames :=
    Pmm.mem_clearFrames.symm
  rw [hmem, hclear, Finset.mem_insert, Finset.mem_insert, Finset.mem_singleton]
  omega

/-- Two frames are allocated behind the gap. -/
theorem pmmAllocFrames_firstFit_gap :
    ∃ phys p', pmmAllocFramesState gapPmm 2 = (.ok phys, p') ∧ phys.toNat = 4096 * 514 ∧
      frameTest p'.bitmap 512 = false ∧ frameTest p'.bitmap 514 = true ∧ frameTest p'.bitmap 515 = true := by
  have htwo : (2 : UInt32).toNat = 2 := rfl
  have hleast : IsLeast (FreeRuns gapPmm.bitmap (2 : UInt32).toNat) 514 := by
    refine ⟨⟨by decide, fun f h1 h2 => (mem_clearFrames_gapPmm.mpr (by omega)).2⟩, ?_⟩
    rintro s ⟨hle, hfree⟩
    have hfirst := mem_clearFrames_gapPmm.mp ⟨by omega, hfree s le_rfl (by omega)⟩
    have hsecond := mem_clearFrames_gapPmm.mp ⟨by omega, hfree (s + 1) (by omega) (by omega)⟩
    omega
  obtain ⟨hfound, _⟩ := pmmAllocFrames_firstFit gapPmm 2 (by decide)
  obtain ⟨phys, p', hok, hphys, hbits, _⟩ := hfound 514 hleast
  have hlow := (mem_clearFrames_gapPmm.mpr (.inl rfl)).2
  refine ⟨phys, p', hok, hphys, ?_, ?_, ?_⟩
  · rw [hbits, hlow, htwo]
    decide
  · rw [hbits, htwo]
    simp
  · rw [hbits, htwo]
    simp

end LunaOs
