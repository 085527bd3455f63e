import Mathlib.Data.List.Range
import Mathlib.Data.Nat.Notation
import Mathlib.Logic.Function.Basic

/-! # Moves done one after another

A move `(d, s)` puts what cell `s` holds into cell `d`.  Done in order, the moves of a list read what the
cells held before the first of them if none reads or writes a cell that an earlier one has written
(`Ordered`): an invariant of the list alone, which separates the cells already written from the ones
still to be read. -/

namespace Moves

variable {α β : Type*}

/-- No move reads or writes a cell that an earlier one has written. -/
def Ordered (moves : List (α × α)) : Prop :=
  moves.Pairwise fun first later => later.1 ≠ first.1 ∧ later.2 ≠ first.1

section
variable {d s : ℕ → α} {n : ℕ}

theorem ordered_range (h : ∀ i j, i < j → j < n → d j ≠ d i ∧ s j ≠ d i) :
    Ordered ((List.range n).map fun j => (d j, s j)) := by
  refine List.pairwise_map.mpr (List.pairwise_lt_range.imp_of_mem ?_)
  intro i j _ hj hlt
  exact h i j hlt (List.mem_range.mp hj)

theorem ordered_range_reverse (h : ∀ i j, i < j → j < n → d i ≠ d j ∧ s i ≠ d j) :
    Ordered ((List.range n).map fun j => (d j, s j)).reverse := by
  refine List.pairwise_reverse.mpr (List.pairwise_map.mpr (List.pairwise_lt_range.imp_of_mem ?_))
  intro i j _ hj hlt
  exact h i j hlt (List.mem_range.mp hj)

end

variable [DecidableEq α] {cells : α → β} {moves : List (α × α)}

/-- The cells after the moves. -/
def run : (α → β) → List (α × α) → α → β
  | cells, [] => cells
  | cells, (d, s) :: moves => run (Function.update cells d (cells s)) moves

theorem run_frame {a : α} (h : ∀ m ∈ moves, a ≠ m.1) : run cells moves a = cells a := by
  induction moves generalizing cells with
  | nil => rfl
  | cons m moves ih =>
      obtain ⟨hm, hmoves⟩ := List.forall_mem_cons.mp h
      rw [run, ih hmoves, Function.update_of_ne hm]

/-- Each destination holds what its source held before the first move. -/
theorem run_moved (h : Ordered moves) : ∀ m ∈ moves, run cells moves m.1 = cells m.2 := by
  induction moves generalizing cells with
  | nil => simp
  | cons first moves ih =>
      obtain ⟨hfirst, hmoves⟩ := List.pairwise_cons.mp h
      intro m hm
      rw [run]
      rcases List.mem_cons.mp hm with rfl | hm
      · rw [run_frame fun later hlater => (hfirst later hlater).1.symm, Function.update_self]
      · rw [ih hmoves m hm, Function.update_of_ne (hfirst m hm).2]

end Moves
