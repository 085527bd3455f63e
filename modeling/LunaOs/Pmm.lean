import LunaOs.Lib.Bitmap

/-! # The physical memory manager of `kernel/pmm.c`

One bit for each 4 KB frame of the 4 GB it supports; a set bit is a frame in use.  `free_frames` is
a separate counter.  `pmm_alloc_frame` searches cyclically from a hint, `pmm_alloc_frames` searches
a run from the bottom, and both end in `kernel_panic`, which does not return, when they find
nothing.

Frame numbers are natural numbers: in every function they stay below `FRAMES_TOTAL`, the bound of
the loops, and so does the sum of hint and loop index below `2 * FRAMES_TOTAL`.  The counters have
the code's width.  Each function comes with one theorem that says what it does to `clearFrames`,
the set of the frames whose bit is clear. -/

namespace LunaOs

def FRAME_SIZE : ℕ := 4096

/-- The frames of 4 GB. -/
def FRAMES_TOTAL : ℕ := 1048576

theorem framesTotal_eq : FRAMES_TOTAL = 1048576 := rfl

/-- What the manager panics with. -/
inductive PmmPanic where
  | outOfMemory
  | bitmapInconsistent
  | noContiguousFrames
deriving DecidableEq

/-- What is passed to `kernel_panic`. -/
def PmmPanic.message : PmmPanic → String
  | .outOfMemory => "PMM: Out of physical memory"
  | .bitmapInconsistent => "PMM: Bitmap inconsistent"
  | .noContiguousFrames => "PMM: No contiguous frames"

/-- The static state of `pmm.c`. -/
structure Pmm where
  bitmap : ℕ → BitVec 32
  totalFrames : UInt32
  freeFrames : UInt32
  lastAlloc : ℕ

def frameSet (bitmap : ℕ → BitVec 32) (frame : ℕ) : ℕ → BitVec 32 :=
  Function.update bitmap (frame / 32) (bitmap (frame / 32) ||| 1#32 <<< (frame % 32))

def frameClear (bitmap : ℕ → BitVec 32) (frame : ℕ) : ℕ → BitVec 32 :=
  Function.update bitmap (frame / 32) (bitmap (frame / 32) &&& ~~~(1#32 <<< (frame % 32)))

def frameTest (bitmap : ℕ → BitVec 32) (frame : ℕ) : Bool :=
  (bitmap (frame / 32) >>> (frame % 32)) &&& 1#32 ≠ 0#32

/-- `frame * FRAME_SIZE`, a physical address. -/
def frameAddr (frame : ℕ) : UInt32 := UInt32.ofNat (frame * FRAME_SIZE)

namespace Pmm

/-- `frame_set(frame); free_frames--;` -/
def take (p : Pmm) (frame : ℕ) : Pmm :=
  { p with bitmap := frameSet p.bitmap frame, freeFrames := p.freeFrames - 1 }

/-- The frames whose bit is clear. -/
def clearFrames (p : Pmm) : Finset ℕ := Bitmap.clearBelow FRAMES_TOTAL p.bitmap

end Pmm

/-! ### Allocation and release -/

/-- The loop of `pmm_alloc_frame` at `i` with `r` turns left: the first frame that is not in use. -/
def nextFit (bitmap : ℕ → BitVec 32) (lastAlloc : ℕ) : ℕ → ℕ → Option ℕ
  | 0, _ => none
  | r + 1, i =>
      let f := (lastAlloc + i) % FRAMES_TOTAL
      if !frameTest bitmap f then some f else nextFit bitmap lastAlloc r (i + 1)

/-- `pmm_alloc_frame`: the counter is looked at first, then the bitmap from the hint on. -/
def pmmAllocFrame (p : Pmm) : Except PmmPanic (UInt32 × Pmm) :=
  if p.freeFrames = 0 then .error .outOfMemory
  else
    match nextFit p.bitmap p.lastAlloc FRAMES_TOTAL 0 with
    | some f => .ok (frameAddr f, { p.take f with lastAlloc := f + 1 })
    | none => .error .bitmapInconsistent

/-- The loop of `pmm_alloc_frames` at `f` with `r` turns left: where the first run of `n` frames
that are not in use starts. -/
def firstFit (bitmap : ℕ → BitVec 32) (n : ℕ) : ℕ → ℕ → ℕ → ℕ → Option ℕ
  | 0, _, _, _ => none
  | r + 1, f, start, run =>
      if !frameTest bitmap f then
        let start := if run = 0 then f else start
        if run + 1 = n then some start else firstFit bitmap n r (f + 1) start (run + 1)
      else firstFit bitmap n r (f + 1) start 0

/-- `pmm_alloc_frames`: the first run of `n` frames. -/
def pmmAllocFrames (p : Pmm) (n : UInt32) : Except PmmPanic (UInt32 × Pmm) :=
  match firstFit p.bitmap n.toNat FRAMES_TOTAL 0 0 0 with
  | some start => .ok (frameAddr start, (List.range' start n.toNat).foldl Pmm.take p)
  | none => .error .noContiguousFrames

/-- `pmm_free_frame`, which changes nothing for a frame that is not used. -/
def pmmFreeFrame (p : Pmm) (physAddr : UInt32) : Pmm :=
  let f := physAddr.toNat / FRAME_SIZE
  if f ≥ FRAMES_TOTAL then p
  else if !frameTest p.bitmap f then p
  else { p with bitmap := frameClear p.bitmap f, freeFrames := p.freeFrames + 1 }

/-! ### The bitmap as a set -/

theorem frameTest_eq (bitmap : ℕ → BitVec 32) (f : ℕ) :
    frameTest bitmap f = Bitmap.test bitmap f := by
  unfold frameTest Bitmap.test
  have hand : ∀ x : BitVec 32, x &&& 1#32 = (BitVec.ofBool (x.getLsbD 0)).setWidth 32 := by
    intro x
    apply BitVec.eq_of_getLsbD_eq
    intro i hi
    rw [BitVec.getLsbD_and, BitVec.getLsbD_one]
    cases i <;> simp
  rw [hand, BitVec.getLsbD_ushiftRight, Nat.add_zero]
  cases (bitmap (f / 32)).getLsbD (f % 32) <;> decide

theorem frameAddr_toNat {f : ℕ} (hf : f < FRAMES_TOTAL) : (frameAddr f).toNat = f * 4096 := by
  have htotal := framesTotal_eq
  have hlt : f * 4096 < 2 ^ 32 := by omega
  exact UInt32.toNat_ofNat_of_lt' hlt

theorem frameAddr_add {start j : ℕ} (h : start + j < FRAMES_TOTAL) :
    frameAddr start + UInt32.ofNat j * 4096 = frameAddr (start + j) := by
  have htotal := framesTotal_eq
  have hsize : (4096 : UInt32).toNat = 4096 := rfl
  rw [← UInt32.toNat_inj, UInt32.toNat_add, UInt32.toNat_mul, UInt32.toNat_ofNat',
    frameAddr_toNat (by omega), frameAddr_toNat h, hsize]
  omega

namespace Pmm

variable {p : Pmm} {f : ℕ}

theorem mem_clearFrames : f ∈ p.clearFrames ↔ f < FRAMES_TOTAL ∧ frameTest p.bitmap f = false := by
  rw [clearFrames, Bitmap.mem_clearBelow, frameTest_eq]

theorem lt_of_mem (h : f ∈ p.clearFrames) : f < FRAMES_TOTAL := (mem_clearFrames.mp h).1

theorem clearFrames_take (p : Pmm) (f : ℕ) : (p.take f).clearFrames = p.clearFrames.erase f :=
  Bitmap.clearBelow_set (by decide) _ _ _

theorem clearFrames_foldl_take (p : Pmm) (l : List ℕ) :
    (l.foldl take p).clearFrames = p.clearFrames \ l.toFinset := by
  induction l generalizing p with
  | nil => exact Finset.sdiff_empty.symm
  | cons f l ih =>
      rw [List.foldl_cons, ih, clearFrames_take, List.toFinset_cons, Finset.sdiff_insert,
        Finset.erase_sdiff_comm]

end Pmm

/-! ### What the allocators return -/

/-- A sequence of calls returns if each of them does. -/
theorem bind_eq_ok {ε α β : Type} {x : Except ε α} {f : α → Except ε β} {b : β}
    (h : (x >>= f) = .ok b) : ∃ a, x = .ok a ∧ f a = .ok b := by
  cases x with
  | error e => cases h
  | ok a => exact ⟨a, rfl, h⟩

theorem toOption_eq_some {ε α : Type} {x : Except ε α} {a : α} (h : x.toOption = some a) :
    x = .ok a := by
  cases x with
  | error e => cases h
  | ok b => exact congrArg Except.ok (Option.some.inj h)

theorem toOption_map_eq_some {ε α β : Type} {x : Except ε α} {f : α → β} {b : β}
    (h : x.toOption.map f = some b) : ∃ a, x = .ok a ∧ f a = b := by
  cases x with
  | error e => cases h
  | ok a => exact ⟨a, rfl, Option.some.inj h⟩

theorem nextFit_some {bitmap : ℕ → BitVec 32} {last r i f : ℕ}
    (h : nextFit bitmap last r i = some f) : f < FRAMES_TOTAL ∧ frameTest bitmap f = false := by
  induction r generalizing i with
  | zero => exact absurd h (by simp [nextFit])
  | succ r ih =>
      unfold nextFit at h
      dsimp only at h
      split_ifs at h with htest
      · obtain rfl := Option.some.inj h
        exact ⟨Nat.mod_lt _ (by decide), by simpa using htest⟩
      · exact ih h

theorem nextFit_none {bitmap : ℕ → BitVec 32} {last r i : ℕ} (h : nextFit bitmap last r i = none)
    {k : ℕ} (hi : i ≤ k) (hk : k < i + r) : frameTest bitmap ((last + k) % FRAMES_TOTAL) = true := by
  induction r generalizing i with
  | zero => omega
  | succ r ih =>
      unfold nextFit at h
      dsimp only at h
      split_ifs at h with htest
      rcases Nat.eq_or_lt_of_le hi with rfl | hlt
      · simpa using htest
      · exact ih h hlt (by omega)

theorem nextFit_eq_none {p : Pmm} (h : nextFit p.bitmap p.lastAlloc FRAMES_TOTAL 0 = none) :
    p.clearFrames = ∅ := by
  rw [Finset.eq_empty_iff_forall_notMem]
  intro f hf
  obtain ⟨hlt, hclear⟩ := Pmm.mem_clearFrames.mp hf
  -- the turn at which the search comes to `f`
  have hpos : 0 < FRAMES_TOTAL := by decide
  obtain ⟨k, hk, hmod⟩ : ∃ k < FRAMES_TOTAL, (p.lastAlloc + k) % FRAMES_TOTAL = f := by
    refine ⟨(f + (FRAMES_TOTAL - p.lastAlloc % FRAMES_TOTAL)) % FRAMES_TOTAL,
      Nat.mod_lt _ hpos, ?_⟩
    have hl := Nat.mod_lt p.lastAlloc hpos
    rw [Nat.add_mod, Nat.mod_mod, ← Nat.add_mod, ← Nat.mod_add_mod,
      show p.lastAlloc % FRAMES_TOTAL + (f + (FRAMES_TOTAL - p.lastAlloc % FRAMES_TOTAL)) =
        f + FRAMES_TOTAL by omega, Nat.add_mod_right, Nat.mod_eq_of_lt hlt]
  have hset := nextFit_none h (Nat.zero_le k) (by omega)
  rw [hmod, hclear] at hset
  exact absurd hset (by decide)

/-- **`pmm_alloc_frame`** takes a frame that was clear, or panics: out of memory when the counter is
zero, inconsistent when the counter is not zero and no frame is clear. -/
theorem pmmAllocFrame_cases (p : Pmm) :
    (p.freeFrames = 0 ∧ pmmAllocFrame p = .error .outOfMemory) ∨
    (p.freeFrames ≠ 0 ∧ p.clearFrames = ∅ ∧ pmmAllocFrame p = .error .bitmapInconsistent) ∨
    ∃ f ∈ p.clearFrames, p.freeFrames ≠ 0 ∧
      pmmAllocFrame p = .ok (frameAddr f, { p.take f with lastAlloc := f + 1 }) := by
  unfold pmmAllocFrame
  by_cases hzero : p.freeFrames = 0
  · exact .inl ⟨hzero, if_pos hzero⟩
  · right
    rw [if_neg hzero]
    cases hfit : nextFit p.bitmap p.lastAlloc FRAMES_TOTAL 0 with
    | none => exact .inl ⟨hzero, nextFit_eq_none hfit, rfl⟩
    | some f => exact .inr ⟨f, Pmm.mem_clearFrames.mpr (nextFit_some hfit), hzero, rfl⟩

/-- A successful `pmm_alloc_frame`. -/
theorem pmmAllocFrame_ok {p p' : Pmm} {phys : UInt32} (h : pmmAllocFrame p = .ok (phys, p')) :
    ∃ f ∈ p.clearFrames, phys = frameAddr f ∧ p'.clearFrames = p.clearFrames.erase f ∧
      p'.freeFrames = p.freeFrames - 1 := by
  rcases pmmAllocFrame_cases p with ⟨_, herr⟩ | ⟨_, _, herr⟩ | ⟨f, hf, _, hok⟩
  · rw [herr] at h
    cases h
  · rw [herr] at h
    cases h
  · rw [hok] at h
    obtain ⟨rfl, rfl⟩ := Prod.mk.inj (Except.ok.inj h)
    exact ⟨f, hf, rfl, p.clearFrames_take f, rfl⟩

/-- No frame has been released. -/
def Pmm.Shrinks (p p' : Pmm) : Prop := p'.clearFrames ⊆ p.clearFrames

theorem Pmm.Shrinks.refl (p : Pmm) : p.Shrinks p := Finset.Subset.refl _

theorem Pmm.Shrinks.trans {p p' p'' : Pmm} (h : p.Shrinks p') (h' : p'.Shrinks p'') :
    p.Shrinks p'' := Finset.Subset.trans h' h

theorem pmmAllocFrame_shrinks {p p' : Pmm} {phys : UInt32}
    (h : pmmAllocFrame p = .ok (phys, p')) : p.Shrinks p' := by
  unfold Pmm.Shrinks
  obtain ⟨f, _, _, hclear, _⟩ := pmmAllocFrame_ok h
  rw [hclear]
  exact Finset.erase_subset _ _

/-- What holds of the search for a run when it comes to `f`: the last `run` frames are not in use,
the one before them is, and no run of `n` frames ends at or before `f`. -/
structure RunSearch (bitmap : ℕ → BitVec 32) (n f start run : ℕ) : Prop where
  start_add : run ≠ 0 → start + run = f
  run_le : run ≤ f
  run_lt : run < n
  run_clear : ∀ k, f - run ≤ k → k < f → frameTest bitmap k = false
  before : run < f → frameTest bitmap (f - run - 1) = true
  none_yet : ∀ s, s + n ≤ f → ∃ k, s ≤ k ∧ k < s + n ∧ frameTest bitmap k = true

theorem runSearch_start (bitmap : ℕ → BitVec 32) {n : ℕ} (hn : 1 ≤ n) :
    RunSearch bitmap n 0 0 0 := by
  refine ⟨absurd rfl, le_rfl, hn, ?_, ?_, ?_⟩
  · intro k _ hk
    exact absurd hk (Nat.not_lt_zero k)
  · intro h
    exact absurd h (Nat.lt_irrefl 0)
  · intro s hs
    omega

theorem RunSearch.inUse {bitmap : ℕ → BitVec 32} {n f start run : ℕ}
    (h : RunSearch bitmap n f start run) (hf : frameTest bitmap f = true) :
    RunSearch bitmap n (f + 1) start 0 where
  start_add := absurd rfl
  run_le := Nat.zero_le _
  run_lt := Nat.zero_lt_of_lt h.run_lt
  run_clear k h1 h2 := by omega
  before _ := hf
  none_yet s hs := by
    rcases Nat.lt_or_ge f (s + n) with hlt | hge
    · have := h.run_lt
      exact ⟨f, by omega, hlt, hf⟩
    · exact h.none_yet s hge

theorem RunSearch.clear {bitmap : ℕ → BitVec 32} {n f start run : ℕ}
    (h : RunSearch bitmap n f start run) (hf : frameTest bitmap f = false) (hne : run + 1 ≠ n) :
    RunSearch bitmap n (f + 1) (if run = 0 then f else start) (run + 1) where
  start_add _ := by
    split_ifs with h0
    · omega
    · have := h.start_add h0
      omega
  run_le := Nat.succ_le_succ h.run_le
  run_lt := Nat.lt_of_le_of_ne h.run_lt hne
  run_clear k h1 h2 := by
    rcases Nat.lt_succ_iff_lt_or_eq.mp h2 with hlt | rfl
    · exact h.run_clear k (by omega) hlt
    · exact hf
  before hlt := by
    rw [show f + 1 - (run + 1) - 1 = f - run - 1 by omega]
    exact h.before (by omega)
  none_yet s hs := by
    rcases Nat.lt_or_ge f (s + n) with hlt | hge
    · -- a run of `n` frames that ends here contains the frame before the present run
      have hrun := h.run_lt
      exact ⟨f - run - 1, by omega, by omega, h.before (by omega)⟩
    · exact h.none_yet s hge

/-- The search finds the first run of clear frames, or there is none. -/
theorem firstFit_spec {bitmap : ℕ → BitVec 32} {n r f start run : ℕ}
    (h : RunSearch bitmap n f start run) :
    (∃ s, firstFit bitmap n r f start run = some s ∧ s + n ≤ f + r ∧
      (∀ k, s ≤ k → k < s + n → frameTest bitmap k = false) ∧
      ∀ t < s, ∃ k, t ≤ k ∧ k < t + n ∧ frameTest bitmap k = true) ∨
    (firstFit bitmap n r f start run = none ∧
      ∀ s, s + n ≤ f + r → ∃ k, s ≤ k ∧ k < s + n ∧ frameTest bitmap k = true) := by
  induction r generalizing f start run with
  | zero => exact .inr ⟨rfl, h.none_yet⟩
  | succ r ih =>
      unfold firstFit
      cases hf : frameTest bitmap f with
      | true =>
          rw [show f + (r + 1) = f + 1 + r by omega]
          exact ih (h.inUse hf)
      | false =>
          simp only [Bool.not_false, if_true]
          by_cases hn : run + 1 = n
          · rw [if_pos hn]
            have hstart : (if run = 0 then f else start) + run = f := by
              split_ifs with h0
              · omega
              · exact h.start_add h0
            refine .inl ⟨_, rfl, by omega, ?_, ?_⟩
            · intro k h1 h2
              rcases Nat.lt_or_ge k f with hlt | hge
              · exact h.run_clear k (by omega) hlt
              · obtain rfl : k = f := by omega
                exact hf
            · exact fun t ht => h.none_yet t (by omega)
          · rw [if_neg hn, show f + (r + 1) = f + 1 + r by omega]
            exact ih (h.clear hf hn)

/-- **`pmm_alloc_frames`** takes a run of `n` frames that were clear, or panics because there is no
such run. -/
theorem pmmAllocFrames_cases (p : Pmm) {n : UInt32} (hn : 1 ≤ n.toNat) :
    (∃ s, s + n.toNat ≤ FRAMES_TOTAL ∧
      (∀ k, s ≤ k → k < s + n.toNat → k ∈ p.clearFrames) ∧
      pmmAllocFrames p n = .ok (frameAddr s, (List.range' s n.toNat).foldl Pmm.take p)) ∨
    (pmmAllocFrames p n = .error .noContiguousFrames ∧
      ∀ s, s + n.toNat ≤ FRAMES_TOTAL → ∃ k, s ≤ k ∧ k < s + n.toNat ∧ k ∉ p.clearFrames) := by
  have hsearch := runSearch_start p.bitmap hn
  unfold pmmAllocFrames
  rcases firstFit_spec (r := FRAMES_TOTAL) hsearch with ⟨s, hfit, hle, hclear, _⟩ | ⟨hfit, hnone⟩
  · rw [Nat.zero_add] at hle
    refine .inl ⟨s, hle, ?_, by rw [hfit]⟩
    intro k h1 h2
    exact Pmm.mem_clearFrames.mpr ⟨by omega, hclear k h1 h2⟩
  · rw [Nat.zero_add] at hnone
    refine .inr ⟨by rw [hfit], ?_⟩
    intro s hs
    obtain ⟨k, h1, h2, hset⟩ := hnone s hs
    refine ⟨k, h1, h2, fun hmem => ?_⟩
    rw [(Pmm.mem_clearFrames.mp hmem).2] at hset
    exact absurd hset (by decide)

/-- A request for no frames never succeeds: the run length is compared after it has grown. -/
theorem pmmAllocFrames_zero (p : Pmm) : pmmAllocFrames p 0 = .error .noContiguousFrames := by
  have hfit : ∀ r f start run, firstFit p.bitmap 0 r f start run = none := by
    intro r
    induction r with
    | zero => exact fun _ _ _ => rfl
    | succ r ih =>
        intro f start run
        unfold firstFit
        split_ifs <;> simp_all
  unfold pmmAllocFrames
  rw [show (0 : UInt32).toNat = 0 from rfl, hfit]

/-- **`pmm_free_frame`** clears the bit of the frame. -/
theorem clearFrames_pmmFreeFrame (p : Pmm) (phys : UInt32) :
    (pmmFreeFrame p phys).clearFrames = insert (phys.toNat / 4096) p.clearFrames := by
  have hlt : phys.toNat / 4096 < FRAMES_TOTAL := by
    have hphys := phys.toNat_lt
    have htotal := framesTotal_eq
    omega
  unfold pmmFreeFrame
  dsimp only [FRAME_SIZE]
  rw [if_neg (Nat.not_le.mpr hlt)]
  split_ifs with htest
  · have hmem : phys.toNat / 4096 ∈ p.clearFrames :=
      Pmm.mem_clearFrames.mpr ⟨hlt, by simpa using htest⟩
    exact (Finset.insert_eq_of_mem hmem).symm
  · exact Bitmap.clearBelow_clear (by decide) _ hlt

end LunaOs
