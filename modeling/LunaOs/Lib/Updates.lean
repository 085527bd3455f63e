import Mathlib.Data.List.Basic
import Mathlib.Logic.Function.Basic

/-! # Tables filled entry by entry

A loop that stores `v n` at place `f n` for each `n` of a list, where the places differ: an entry whose
place is met holds its value afterwards, and all others hold what they held before. -/

namespace Updates

variable {ι κ α : Type*} [DecidableEq κ] {f : ι → κ} {v : ι → α} {l : List ι} {g : κ → α}

/-- `g` with `v n` at `f n` for the `n` of the list, later ones last. -/
def fill (f : ι → κ) (v : ι → α) (l : List ι) (g : κ → α) : κ → α :=
  l.foldl (fun g n => Function.update g (f n) (v n)) g

theorem fill_of_forall_ne {k : κ} (h : ∀ n ∈ l, f n ≠ k) : fill f v l g k = g k := by
  induction l generalizing g with
  | nil => rfl
  | cons n l ih =>
      have hrest := ih (g := Function.update g (f n) (v n)) fun m hm => h m (List.mem_cons_of_mem n hm)
      exact hrest.trans (Function.update_of_ne (h n List.mem_cons_self).symm _ _)

theorem fill_of_mem (hf : Function.Injective f) {n : ι} (hn : n ∈ l) : fill f v l g (f n) = v n := by
  induction l generalizing g with
  | nil => exact absurd hn List.not_mem_nil
  | cons m l ih =>
      by_cases hmem : n ∈ l
      · exact ih hmem
      · obtain rfl : n = m := (List.mem_cons.mp hn).resolve_right hmem
        have hne : ∀ k ∈ l, f k ≠ f n := fun k hk heq => hmem (hf heq ▸ hk)
        exact (fill_of_forall_ne hne).trans (Function.update_self _ _ _)

end Updates
