import Mathlib.Data.Int.ModEq
import Mathlib.Data.List.Range
import Mathlib.Data.Fin.Basic
import Mathlib.Logic.Function.Basic
import Mathlib.Tactic.Common

/-! # Circular buffers

A circular buffer of `N` cells is a function `f : Fin N → α`.  Readers and writers are described
by counters that only ever grow: counter `i` stands for the cell `i % N`.  `window f i n` lists
the `n` cells from counter `i` on; it is the first-in first-out content of the buffer when `i`
counts what was read and `i + n` what was written.  The three facts a first-in first-out buffer
needs are that the writer extends the window (`window_snoc`), the reader shortens it
(`window_succ`), and a write outside the window leaves it alone (`window_update`). -/

namespace Ring

variable {α : Type*} {N : ℕ} [NeZero N]

/-- The cell that counter `i` stands for. -/
def cell (N : ℕ) [NeZero N] (i : ℕ) : Fin N := Fin.ofNat N i

@[simp] theorem cell_val (i : ℕ) : (cell N i).val = i % N := rfl

theorem cell_eq_iff {i j : ℕ} : cell N i = cell N j ↔ i % N = j % N := by
  rw [Fin.ext_iff, cell_val, cell_val]

/-- Counters less than one revolution apart stand for different cells. -/
theorem cell_ne {i j : ℕ} (h : i < j) (hN : j < i + N) : cell N i ≠ cell N j := by
  rw [Ne, cell_eq_iff]
  intro he
  have hmod : i ≡ j [MOD N] := he
  have hdvd : N ∣ j - i := (Nat.modEq_iff_dvd' h.le).mp hmod
  have := Nat.le_of_dvd (by omega) hdvd
  omega

/-- The `n` cells from counter `i` on, oldest first. -/
def window (f : Fin N → α) (i n : ℕ) : List α := (List.range n).map fun k => f (cell N (i + k))

@[simp] theorem window_length (f : Fin N → α) (i n : ℕ) : (window f i n).length = n := by
  simp [window]

theorem window_succ (f : Fin N → α) (i n : ℕ) :
    window f i (n + 1) = f (cell N i) :: window f (i + 1) n := by
  simp only [window, List.range_succ_eq_map, List.map_cons, List.map_map, Nat.add_zero]
  congr 1
  apply List.map_congr_left
  intro k _
  simp only [Function.comp_apply]
  congr 2
  omega

theorem window_snoc (f : Fin N → α) (i n : ℕ) :
    window f i (n + 1) = window f i n ++ [f (cell N (i + n))] := by
  simp [window, List.range_succ]

/-- A write to a cell outside the window leaves the window alone. -/
theorem window_update [DecidableEq (Fin N)] (f : Fin N → α) {i n w : ℕ} (a : α) (h : i + n ≤ w)
    (hN : w < i + N) : window (Function.update f (cell N w) a) i n = window f i n := by
  apply List.map_congr_left
  intro k hk
  rw [List.mem_range] at hk
  rw [Function.update_of_ne]
  exact cell_ne (by omega) (by omega)

theorem window_congr (f : Fin N → α) {i j : ℕ} (h : i % N = j % N) (n : ℕ) :
    window f i n = window f j n := by
  apply List.map_congr_left
  intro k _
  congr 1
  rw [cell_eq_iff, Nat.add_mod, h, ← Nat.add_mod]

end Ring
