import LunaOs.Vmm
import LunaOs.Lib.Radix
import Mathlib.Algebra.Group.Nat.Defs

/-! # Page directories and tables as nodes of words

Seen through the pointers of the code, memory is one node of 1024 words for each frame.  Each
function of `vmm.c` gets one theorem that says which words it writes, in terms of the operations on
two-level tables. -/

namespace LunaOs

/-- A frame below 4 GB. -/
abbrev Frame := Fin FRAMES_TOTAL

/-- The frame of a physical address. -/
def toFrame (phys : UInt32) : Frame :=
  ⟨phys.toNat / FRAME_SIZE, Nat.div_lt_of_lt_mul phys.toNat_lt⟩

/-- The pointer through which the code reaches a frame. -/
def framePtr (n : Frame) : UInt32 := frameAddr n + KERNEL_VIRT_BASE

/-- The words of all frames. -/
def words (mem : UInt32 → UInt32) : Frame → Fin 1024 → UInt32 :=
  fun n i => mem (wordPtr (framePtr n) (UInt32.ofNat i))

/-- Directory entries as table and attribute bits, and table entries as they stand. -/
def pageFormat : Radix.Format Frame UInt32 UInt32 UInt32 where
  entry w :=
    if w &&& PAGE_PRESENT = 0 then none else some (toFrame (w &&& ~~~0xFFF), w &&& 0xFFF)
  leaf w := if w &&& PAGE_PRESENT = 0 then none else some w
  zero := 0
  entry_zero := rfl
  leaf_zero := rfl

theorem framePtr_toNat (n : Frame) : (framePtr n).toNat = (n + 0xC0000) % 2 ^ 20 * 4096 := by
  have hn := n.isLt
  have hbase : KERNEL_VIRT_BASE.toNat = 0xC0000000 := rfl
  unfold framePtr
  rw [UInt32.toNat_add, frameAddr_toNat hn, hbase]
  omega

theorem wordPtr_toNat (n : Frame) (i : Fin 1024) :
    (wordPtr (framePtr n) (UInt32.ofNat i)).toNat = (n + 0xC0000) % 2 ^ 20 * 4096 + 4 * i := by
  have hi := i.isLt
  have hfour : (4 : UInt32).toNat = 4 := rfl
  unfold wordPtr
  rw [UInt32.toNat_add, UInt32.toNat_mul, UInt32.toNat_ofNat', framePtr_toNat, hfour]
  omega

theorem wordPtr_inj {n n' : Frame} {i i' : Fin 1024}
    (h : wordPtr (framePtr n) (UInt32.ofNat i) = wordPtr (framePtr n') (UInt32.ofNat i')) :
    n = n' ∧ i = i' := by
  have hn := n.isLt
  have hn' := n'.isLt
  have hi := i.isLt
  have hi' := i'.isLt
  have htotal := framesTotal_eq
  have hnat := congrArg UInt32.toNat h
  rw [wordPtr_toNat, wordPtr_toNat] at hnat
  exact ⟨Fin.ext (by omega), Fin.ext (by omega)⟩

/-- The distance from the start of a frame tells whether a word belongs to it. -/
theorem wordPtr_sub_lt {n n' : Frame} {i : Fin 1024} :
    wordPtr (framePtr n') (UInt32.ofNat i) - framePtr n < PAGE_SIZE ↔ n' = n := by
  have hn := n.isLt
  have hn' := n'.isLt
  have hi := i.isLt
  have htotal := framesTotal_eq
  have hpage : PAGE_SIZE.toNat = 4096 := rfl
  rw [UInt32.lt_iff_toNat_lt, UInt32.toNat_sub, wordPtr_toNat, framePtr_toNat, hpage, Fin.ext_iff]
  omega

theorem words_update (mem : UInt32 → UInt32) (n : Frame) (i : Fin 1024) (w : UInt32) :
    words (Function.update mem (wordPtr (framePtr n) (UInt32.ofNat i)) w) =
      Radix.put (words mem) n i w := by
  funext n' i'
  rw [Radix.put_apply]
  unfold words
  split_ifs with hhit
  · rw [hhit.1, hhit.2, Function.update_self]
  · exact Function.update_of_ne (fun heq => hhit (wordPtr_inj heq)) _ _

theorem words_memsetPage (mem : UInt32 → UInt32) (n : Frame) :
    words (memsetPage mem (framePtr n)) = pageFormat.wipe (words mem) n := by
  funext n' i'
  unfold words memsetPage Radix.Format.wipe
  by_cases heq : n' = n
  · rw [if_pos (wordPtr_sub_lt.mpr heq), heq, Function.update_self]
    rfl
  · rw [if_neg fun hlt => heq (wordPtr_sub_lt.mp hlt), Function.update_of_ne heq]

theorem framePtr_toFrame (w : UInt32) :
    framePtr (toFrame (w &&& ~~~0xFFF)) = (w &&& ~~~0xFFF) + KERNEL_VIRT_BASE := by
  unfold framePtr
  congr 1
  have hw := w.toNat_lt
  have hval : ((toFrame (w &&& ~~~0xFFF) : Frame) : ℕ) = w.toNat / 4096 := by
    show (w &&& ~~~0xFFF).toNat / 4096 = _
    rw [toNat_and_page_mask]
    omega
  rw [← UInt32.toNat_inj, frameAddr_toNat (Fin.isLt _), hval, toNat_and_page_mask]

theorem toFrame_frameAddr (n : Frame) : toFrame (frameAddr n) = n := by
  apply Fin.ext
  show (frameAddr n).toNat / 4096 = n
  rw [frameAddr_toNat n.isLt]
  exact Nat.mul_div_cancel _ (by decide)

/-- `PD_INDEX` as an index. -/
def dirIx (vaddr : UInt32) : Fin 1024 :=
  ⟨vaddr.toNat / 2 ^ 22, Nat.div_lt_of_lt_mul vaddr.toNat_lt⟩

/-- `PT_INDEX` as an index. -/
def tabIx (vaddr : UInt32) : Fin 1024 := ⟨vaddr.toNat / 4096 % 1024, Nat.mod_lt _ (by decide)⟩

theorem PD_INDEX_eq (vaddr : UInt32) : PD_INDEX vaddr = UInt32.ofNat (dirIx vaddr) := by
  have hlt := vaddr.toNat_lt
  have hval : ((dirIx vaddr : Fin 1024) : ℕ) = vaddr.toNat / 2 ^ 22 := rfl
  unfold PD_INDEX
  rw [← UInt32.toNat_inj, UInt32.toNat_ofNat', hval, UInt32.toNat_shiftRight,
    Nat.shiftRight_eq_div_pow]
  have htwo : (22 : UInt32).toNat % 32 = 22 := rfl
  rw [htwo]
  omega

theorem PT_INDEX_eq (vaddr : UInt32) : PT_INDEX vaddr = UInt32.ofNat (tabIx vaddr) := by
  have hval : ((tabIx vaddr : Fin 1024) : ℕ) = vaddr.toNat / 4096 % 1024 := rfl
  have htwelve : (12 : UInt32).toNat % 32 = 12 := rfl
  have hmask : (0x3FF : UInt32).toNat = 2 ^ 10 - 1 := rfl
  unfold PT_INDEX
  rw [← UInt32.toNat_inj, UInt32.toNat_ofNat', hval, UInt32.toNat_and, UInt32.toNat_shiftRight,
    Nat.shiftRight_eq_div_pow, htwelve, hmask, Nat.and_two_pow_sub_one_eq_mod]
  omega

theorem exists_vaddr (i k : Fin 1024) :
    ∃ vaddr, dirIx vaddr = i ∧ tabIx vaddr = k ∧ vaddr &&& 0xFFF ≠ 0 := by
  have hi := i.isLt
  have hk := k.isLt
  have hval : (UInt32.ofNat (i * 2 ^ 22 + k * 4096 + 1)).toNat = i * 2 ^ 22 + k * 4096 + 1 := by
    rw [UInt32.toNat_ofNat']
    omega
  refine ⟨UInt32.ofNat (i * 2 ^ 22 + k * 4096 + 1), Fin.ext ?_, Fin.ext ?_, fun hzero => ?_⟩
  · show (UInt32.ofNat _).toNat / 2 ^ 22 = i
    rw [hval]
    omega
  · show (UInt32.ofNat _).toNat / 4096 % 1024 = k
    rw [hval]
    omega
  · have hnat := congrArg UInt32.toNat hzero
    have hmask : (0xFFF : UInt32).toNat = 2 ^ 12 - 1 := rfl
    rw [UInt32.toNat_and, hval, hmask, Nat.and_two_pow_sub_one_eq_mod] at hnat
    change _ = 0 at hnat
    omega

theorem entry_eq_none {w : UInt32} : pageFormat.entry w = none ↔ w &&& PAGE_PRESENT = 0 := by
  unfold pageFormat
  dsimp only
  split_ifs with h <;> simp [h]

theorem entry_eq_some {w u : UInt32} {t : Frame} (h : pageFormat.entry w = some (t, u)) :
    w &&& PAGE_PRESENT ≠ 0 ∧ framePtr t = (w &&& ~~~0xFFF) + KERNEL_VIRT_BASE ∧
      u = w &&& 0xFFF := by
  unfold pageFormat at h
  dsimp only at h
  split_ifs at h with hpresent
  obtain ⟨rfl, rfl⟩ := Prod.mk.inj (Option.some.inj h)
  exact ⟨hpresent, framePtr_toFrame w, rfl⟩

theorem entry_pdeWord (n : Frame) (flags : UInt32) :
    pageFormat.entry (pdeWord n flags) = some (n, pdeBits flags) := by
  unfold pageFormat
  dsimp only
  rw [if_neg (pdeWord_present n flags), pdeWord_mask, toFrame_frameAddr, pdeWord_and_offset]

theorem leaf_pteWord (paddr flags : UInt32) :
    pageFormat.leaf (pteWord paddr flags) = some (pteWord paddr flags) :=
  if_neg (pteWord_present paddr flags)

/-! ### What the functions do to the words -/

/-- A successful allocation in terms of frames. -/
theorem pmmAllocFrame_frame {p p' : Pmm} {phys : UInt32} (h : pmmAllocFrame p = .ok (phys, p')) :
    ∃ n : Frame, (n : ℕ) ∈ p.clearFrames ∧ phys = frameAddr n ∧
      p'.clearFrames = p.clearFrames.erase n := by
  obtain ⟨f, hf, hphys, hclear, _⟩ := pmmAllocFrame_ok h
  exact ⟨⟨f, Pmm.lt_of_mem hf⟩, hf, hphys, hclear⟩

theorem vmmInit_ok {s s' : Vmm} (h : vmmInit s = .ok s') :
    ∃ n : Frame, (n : ℕ) ∈ s.pmm.clearFrames ∧ s'.pmm.clearFrames = s.pmm.clearFrames.erase n ∧
      s'.kernelPd = framePtr n ∧ s'.cr3 = frameAddr n ∧
      words s'.mem = pageFormat.wipe (words s.mem) n := by
  obtain ⟨⟨phys, pmm⟩, halloc, hret⟩ := bind_eq_ok h
  obtain rfl := Except.ok.inj hret
  obtain ⟨n, hn, rfl, hclear⟩ := pmmAllocFrame_frame halloc
  exact ⟨n, hn, hclear, rfl, rfl, words_memsetPage s.mem n⟩

theorem pageTable_linked {s : Vmm} {n t : Frame} {i : Fin 1024} {u : UInt32}
    (h : pageFormat.entry (words s.mem n i) = some (t, u)) (flags : UInt32) :
    pageTable s (framePtr n) (UInt32.ofNat i) flags = .ok (framePtr t, s) := by
  obtain ⟨hpresent, hptr, _⟩ := entry_eq_some h
  have hmem : s.mem (wordPtr (framePtr n) (UInt32.ofNat i)) &&& PAGE_PRESENT ≠ 0 := hpresent
  unfold pageTable
  rw [if_neg hmem, hptr]
  rfl

theorem pageTable_fresh {s s' : Vmm} {n : Frame} {i : Fin 1024} {pt flags : UInt32}
    (hnone : pageFormat.entry (words s.mem n i) = none)
    (h : pageTable s (framePtr n) (UInt32.ofNat i) flags = .ok (pt, s')) :
    ∃ f : Frame, (f : ℕ) ∈ s.pmm.clearFrames ∧ pt = framePtr f ∧
      s'.pmm.clearFrames = s.pmm.clearFrames.erase f ∧
      words s'.mem = Radix.put (pageFormat.wipe (words s.mem) f) n i (pdeWord f flags) := by
  have habsent : s.mem (wordPtr (framePtr n) (UInt32.ofNat i)) &&& PAGE_PRESENT = 0 :=
    entry_eq_none.mp hnone
  unfold pageTable at h
  rw [if_pos habsent] at h
  obtain ⟨⟨phys, pmm⟩, halloc, hret⟩ := bind_eq_ok h
  obtain ⟨rfl, rfl⟩ := Prod.mk.inj (Except.ok.inj hret)
  obtain ⟨f, hf, rfl, hclear⟩ := pmmAllocFrame_frame halloc
  refine ⟨f, hf, rfl, hclear, ?_⟩
  rw [← words_memsetPage, ← words_update]
  rfl

/-- **`vmm_map_page`** writes the entry into the table of the directory entry, or into a fresh table
that it links there first. -/
theorem vmmMapPage_ok {s s' : Vmm} {n : Frame} {vaddr paddr flags : UInt32}
    (h : vmmMapPage s (framePtr n) vaddr paddr flags = .ok s') :
    (∃ t u, pageFormat.entry (words s.mem n (dirIx vaddr)) = some (t, u) ∧ s'.pmm = s.pmm ∧
      words s'.mem = Radix.put (words s.mem) t (tabIx vaddr) (pteWord paddr flags)) ∨
    (pageFormat.entry (words s.mem n (dirIx vaddr)) = none ∧
      ∃ f : Frame, (f : ℕ) ∈ s.pmm.clearFrames ∧
        s'.pmm.clearFrames = s.pmm.clearFrames.erase f ∧
        words s'.mem = Radix.put (Radix.put (pageFormat.wipe (words s.mem) f) n (dirIx vaddr)
          (pdeWord f flags)) f (tabIx vaddr) (pteWord paddr flags)) := by
  unfold vmmMapPage at h
  rw [PD_INDEX_eq, PT_INDEX_eq] at h
  obtain ⟨⟨pt, s₁⟩, htable, hret⟩ := bind_eq_ok h
  obtain rfl := Except.ok.inj hret
  cases hentry : pageFormat.entry (words s.mem n (dirIx vaddr)) with
  | some tu =>
      obtain ⟨t, u⟩ := tu
      rw [pageTable_linked hentry] at htable
      obtain ⟨rfl, rfl⟩ := Prod.mk.inj (Except.ok.inj htable)
      exact .inl ⟨t, u, rfl, rfl, words_update _ _ _ _⟩
  | none =>
      obtain ⟨f, hf, rfl, hclear, hwords⟩ := pageTable_fresh hentry htable
      refine .inr ⟨rfl, f, hf, hclear, ?_⟩
      rw [← hwords]
      exact words_update _ _ _ _

/-- **`vmm_unmap_page`** clears the entry of the table, if there is one. -/
theorem vmmUnmapPage_words (s : Vmm) (n : Frame) (vaddr : UInt32) :
    (pageFormat.entry (words s.mem n (dirIx vaddr)) = none ∧
      vmmUnmapPage s (framePtr n) vaddr = s) ∨
    ∃ t u, pageFormat.entry (words s.mem n (dirIx vaddr)) = some (t, u) ∧
      ∃ mem, vmmUnmapPage s (framePtr n) vaddr = { s with mem } ∧
        words mem = Radix.put (words s.mem) t (tabIx vaddr) pageFormat.zero := by
  unfold vmmUnmapPage
  dsimp only
  rw [PD_INDEX_eq, PT_INDEX_eq]
  cases hentry : pageFormat.entry (words s.mem n (dirIx vaddr)) with
  | none => exact .inl ⟨rfl, if_pos (entry_eq_none.mp hentry)⟩
  | some tu =>
      obtain ⟨t, u⟩ := tu
      obtain ⟨hpresent, hptr, _⟩ := entry_eq_some hentry
      refine .inr ⟨t, u, rfl, _, if_neg hpresent, ?_⟩
      rw [← words_update, hptr]
      rfl

/-- The kernel half of the directory indices. -/
def KernelHalf (i : Fin 1024) : Prop := 768 ≤ (i : ℕ)

instance : DecidablePred KernelHalf := fun i => inferInstanceAs (Decidable (768 ≤ (i : ℕ)))

theorem kernelHalf_dirIx {vaddr : UInt32} :
    KernelHalf (dirIx vaddr) ↔ KERNEL_VIRT_BASE ≤ vaddr := by
  have hbase : KERNEL_VIRT_BASE.toNat = 0xC0000000 := rfl
  rw [UInt32.le_iff_toNat_le, hbase]
  show 768 ≤ vaddr.toNat / 2 ^ 22 ↔ _
  omega

theorem words_copyEntries (mem : UInt32 → UInt32) {k n : Frame} (hkn : k ≠ n) {c : ℕ}
    (hc : c ≤ 256) (n' : Frame) (i : Fin 1024) :
    words ((List.range' 768 c).foldl (copyEntry (framePtr k) (framePtr n)) mem) n' i =
      if n' = n ∧ KernelHalf i ∧ (i : ℕ) < 768 + c then words mem k i else words mem n' i := by
  induction c generalizing n' i with
  | zero =>
      rw [if_neg fun h => Nat.not_le.mpr h.2.2 h.2.1]
      rfl
  | succ c ih =>
      have hlt : 768 + c < 1024 := by omega
      have hold := ih (by omega)
      rw [List.range'_concat, List.foldl_append, List.foldl_cons, List.foldl_nil, Nat.one_mul]
      set mem' := (List.range' 768 c).foldl (copyEntry (framePtr k) (framePtr n)) mem with hmem'
      have hstep : words (copyEntry (framePtr k) (framePtr n) mem' (768 + c)) =
          Radix.put (words mem') n ⟨768 + c, hlt⟩ (words mem' k ⟨768 + c, hlt⟩) :=
        words_update mem' n ⟨768 + c, hlt⟩ _
      have hsource : words mem' k ⟨768 + c, hlt⟩ = words mem k ⟨768 + c, hlt⟩ := by
        rw [hold, if_neg fun h => hkn h.1]
      rw [hstep, Radix.put_apply, hsource]
      by_cases hhit : n' = n ∧ i = ⟨768 + c, hlt⟩
      · have hin : n' = n ∧ KernelHalf i ∧ (i : ℕ) < 768 + (c + 1) := by
          rw [hhit.2]
          exact ⟨hhit.1, Nat.le_add_right 768 c, Nat.lt_succ_self _⟩
        rw [if_pos hhit, if_pos hin, hhit.2]
      · have hiff : (n' = n ∧ KernelHalf i ∧ (i : ℕ) < 768 + c) ↔
            (n' = n ∧ KernelHalf i ∧ (i : ℕ) < 768 + (c + 1)) := by
          have hne : n' = n → (i : ℕ) ≠ 768 + c := fun hn hi => hhit ⟨hn, Fin.ext hi⟩
          constructor
          · exact fun h => ⟨h.1, h.2.1, by omega⟩
          · exact fun h => ⟨h.1, h.2.1, by have := hne h.1; omega⟩
        rw [if_neg hhit, hold]
        simp only [hiff]

/-- **`vmm_create_user_pd`** wipes a fresh frame and copies the kernel half. -/
theorem vmmCreateUserPd_ok {s s' : Vmm} {k : Frame} {pd : UInt32}
    (h : vmmCreateUserPd s = .ok (pd, s')) (hkernel : s.kernelPd = framePtr k)
    (hk : (k : ℕ) ∉ s.pmm.clearFrames) :
    ∃ n : Frame, (n : ℕ) ∈ s.pmm.clearFrames ∧ pd = framePtr n ∧
      s'.pmm.clearFrames = s.pmm.clearFrames.erase n ∧
      (∀ n' ≠ n, words s'.mem n' = words s.mem n') ∧
      ∀ i, words s'.mem n i = if KernelHalf i then words s.mem k i else pageFormat.zero := by
  obtain ⟨⟨phys, pmm⟩, halloc, hret⟩ := bind_eq_ok h
  obtain ⟨n, hn, rfl, hclear⟩ := pmmAllocFrame_frame halloc
  have hkn : k ≠ n := fun heq => hk (heq ▸ hn)
  obtain ⟨hpd, hs'⟩ := Prod.mk.inj (Except.ok.inj hret)
  change framePtr n = pd at hpd
  have hmem : s'.mem = copyKernelHalf (framePtr k) (framePtr n) (memsetPage s.mem (framePtr n)) := by
    rw [← hs', ← hkernel, framePtr]
  have hwords := words_copyEntries (memsetPage s.mem (framePtr n)) hkn (le_refl 256)
  unfold copyKernelHalf at hmem
  rw [← hmem, words_memsetPage] at hwords
  refine ⟨n, hn, hpd.symm, by rw [← hs']; exact hclear, ?_, ?_⟩
  · intro n' hn'
    funext i
    rw [hwords, if_neg fun hc => hn' hc.1, Radix.Format.wipe, Function.update_of_ne hn']
  · intro i
    rw [hwords, Radix.Format.wipe, Function.update_of_ne hkn, Function.update_self]
    congr 1
    rw [eq_iff_iff]
    exact ⟨fun hc => hc.2.1, fun hc => ⟨rfl, hc, i.isLt⟩⟩

theorem mem_wordPtr (mem : UInt32 → UInt32) (n : Frame) (i : Fin 1024) :
    mem (wordPtr (framePtr n) (UInt32.ofNat i)) = words mem n i := rfl

/-- The address in the page of `w`, 0 without a page. -/
def pageAddr (page : Option UInt32) (vaddr : UInt32) : UInt32 :=
  page.elim 0 fun w => (w &&& ~~~0xFFF) ||| (vaddr &&& 0xFFF)

/-- **`vmm_virt_to_phys`** walks the two levels. -/
theorem vmmVirtToPhys_eq (s : Vmm) (n : Frame) (vaddr : UInt32) :
    vmmVirtToPhys s (framePtr n) vaddr =
      pageAddr ((pageFormat.walk (words s.mem) n (dirIx vaddr) (tabIx vaddr)).map Prod.snd)
        vaddr := by
  unfold vmmVirtToPhys Radix.Format.walk
  dsimp only
  rw [PD_INDEX_eq, PT_INDEX_eq, mem_wordPtr s.mem]
  cases hentry : pageFormat.entry (words s.mem n (dirIx vaddr)) with
  | none =>
      rw [if_pos (entry_eq_none.mp hentry)]
      rfl
  | some tu =>
      obtain ⟨t, u⟩ := tu
      obtain ⟨hpresent, hptr, _⟩ := entry_eq_some hentry
      rw [if_neg hpresent, ← hptr, mem_wordPtr s.mem]
      by_cases hleaf : words s.mem t (tabIx vaddr) &&& PAGE_PRESENT = 0
      · simp [pageFormat, pageAddr, hleaf]
      · simp [pageFormat, pageAddr, hleaf]

end LunaOs
