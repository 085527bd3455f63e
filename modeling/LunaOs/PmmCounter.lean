import LunaOs.PmmOwners

/-! # The counter of free frames

`free_frames` is kept apart from the bitmap: each function changes both.  It equals the number of clear
bits in every state the functions lead to, if it does so in the first. -/

namespace LunaOs

namespace Pmm

variable {p : Pmm}

/-- Taking distinct frames that are clear, one after the other. -/
theorem Exact.foldl_take (h : p.Exact) {l : List ℕ} (hl : l.Nodup)
    (hclear : ∀ f ∈ l, f ∈ p.clearFrames) : (l.foldl Pmm.take p).Exact := by
  induction l generalizing p with
  | nil => exact h
  | cons f l ih =>
      obtain ⟨hnot, hnodup⟩ := List.nodup_cons.mp hl
      apply ih (h.take (hclear f List.mem_cons_self)) hnodup
      intro g hg
      rw [clearFrames_take, Finset.mem_erase]
      exact ⟨fun heq => hnot (heq ▸ hg), hclear g (List.mem_cons_of_mem _ hg)⟩

theorem Exact.allocFrames (h : p.Exact) {n phys : UInt32} {p' : Pmm}
    (hok : pmmAllocFrames p n = .ok (phys, p')) : p'.Exact := by
  obtain ⟨start, _, _, _, hclear, _, rfl⟩ := PmmClient.allocFrames_ok hok
  apply h.foldl_take List.nodup_range'
  intro f hf
  obtain ⟨h1, h2⟩ := List.mem_range'_1.mp hf
  exact hclear f h1 h2

/-- A frame that is clear already is not counted again. -/
theorem freeFrames_pmmFreeFrame (p : Pmm) (phys : UInt32) :
    (pmmFreeFrame p phys).freeFrames =
      if frameOf phys ∈ p.clearFrames then p.freeFrames else p.freeFrames + 1 := by
  have hlt : frameOf phys < FRAMES_TOTAL := by
    have hphys := phys.toNat_lt
    have htotal := framesTotal_eq
    unfold frameOf FRAME_SIZE
    omega
  unfold pmmFreeFrame
  dsimp only
  change (if frameOf phys ≥ FRAMES_TOTAL then p else _).freeFrames = _
  rw [if_neg (Nat.not_le.mpr hlt)]
  simp only [mem_clearFrames, hlt, true_and]
  unfold frameOf
  cases frameTest p.bitmap (phys.toNat / FRAME_SIZE) <;> rfl

theorem Exact.freeFrame (h : p.Exact) (phys : UInt32) : (pmmFreeFrame p phys).Exact := by
  have hle := card_clearFrames_le (pmmFreeFrame p phys)
  have htotal := framesTotal_eq
  unfold Exact at *
  rw [freeFrames_pmmFreeFrame]
  rw [clearFrames_pmmFreeFrame] at hle ⊢
  change _ = (insert (frameOf phys) p.clearFrames).card
  change (insert (frameOf phys) p.clearFrames).card ≤ _ at hle
  by_cases hclear : frameOf phys ∈ p.clearFrames
  · rw [if_pos hclear, Finset.insert_eq_of_mem hclear, h]
  · rw [Finset.card_insert_of_notMem hclear] at hle ⊢
    have hone : (1 : UInt32).toNat = 1 := rfl
    rw [if_neg hclear, UInt32.toNat_add, hone]
    omega

theorem Exact.foldl_freeFrame (h : p.Exact) (l : List ℕ) (addr : ℕ → UInt32) :
    (l.foldl (fun p j => pmmFreeFrame p (addr j)) p).Exact := by
  induction l generalizing p with
  | nil => exact h
  | cons j l ih => exact ih (h.freeFrame (addr j))

theorem clearFrames_foldl_freeFrame (p : Pmm) (l : List ℕ) (addr : ℕ → UInt32) :
    (l.foldl (fun p j => pmmFreeFrame p (addr j)) p).clearFrames =
      p.clearFrames ∪ (l.map fun j => frameOf (addr j)).toFinset := by
  induction l generalizing p with
  | nil => exact (Finset.union_empty _).symm
  | cons j l ih =>
      rw [List.foldl_cons, ih, clearFrames_pmmFreeFrame, List.map_cons, List.toFinset_cons,
        Finset.insert_union, Finset.union_insert]
      rfl

end Pmm

end LunaOs
