import Mathlib.Data.List.Basic

/-! # The painter's algorithm

A layer gives a value to some points.  Layers are painted one over the other, and at each point the last
layer with a value there shows.  Where the layers come in an order, it is the greatest of those that have
one. -/

namespace Painter

variable {κ V ι ι' : Type*}

/-- `top` painted over `bottom`. -/
def atop (top bottom : κ → Option V) : κ → Option V := fun p => (top p).or (bottom p)

/-- The layers of a list as one, the last of them on top. -/
def stack : List (κ → Option V) → κ → Option V
  | [] => fun _ => none
  | L :: Ls => atop (stack Ls) L

/-- What is seen of a canvas under a layer. -/
def onto (L : κ → Option V) (canvas : κ → V) : κ → V := fun p => (L p).getD (canvas p)

theorem atop_onto (top bottom : κ → Option V) (canvas : κ → V) (p : κ) :
    onto (atop top bottom) canvas p = onto top (onto bottom canvas) p := by
  unfold onto atop
  cases top p with
  | none => rfl
  | some v => rfl

variable {Ls : List (κ → Option V)} {p : κ} {v : V}

theorem stack_eq_none : stack Ls p = none ↔ ∀ L ∈ Ls, L p = none := by
  induction Ls with
  | nil => simp [stack]
  | cons L Ls ih =>
      rw [List.forall_mem_cons, ← ih]
      show (stack Ls p).or (L p) = none ↔ _
      rw [Option.or_eq_none_iff]
      exact and_comm

theorem exists_of_stack (h : stack Ls p = some v) : ∃ L ∈ Ls, L p = some v := by
  induction Ls with
  | nil => cases h
  | cons L Ls ih =>
      change (stack Ls p).or (L p) = some v at h
      rcases Option.or_eq_some_iff.mp h with hrest | ⟨_, hfirst⟩
      · obtain ⟨L', hL', hv⟩ := ih hrest
        exact ⟨L', List.mem_cons_of_mem _ hL', hv⟩
      · exact ⟨L, List.mem_cons_self, hfirst⟩

theorem grid_eq_some {js : List ι} {is : List ι'} {D : ι → ι' → κ → Option V}
    (huniq : ∀ j ∈ js, ∀ i ∈ is, ∀ j' ∈ js, ∀ i' ∈ is, ∀ v v',
      D j i p = some v → D j' i' p = some v' → v = v') :
    stack (js.map fun j => stack (is.map (D j))) p = some v ↔
      ∃ j ∈ js, ∃ i ∈ is, D j i p = some v := by
  have hex : ∀ v, stack (js.map fun j => stack (is.map (D j))) p = some v →
      ∃ j ∈ js, ∃ i ∈ is, D j i p = some v := by
    intro v h
    obtain ⟨_, hrow, hv⟩ := exists_of_stack h
    obtain ⟨j, hj, rfl⟩ := List.mem_map.mp hrow
    obtain ⟨_, hcell, hv⟩ := exists_of_stack hv
    obtain ⟨i, hi, rfl⟩ := List.mem_map.mp hcell
    exact ⟨j, hj, i, hi, hv⟩
  refine ⟨hex v, ?_⟩
  rintro ⟨j, hj, i, hi, hv⟩
  cases hstack : stack (js.map fun j => stack (is.map (D j))) p with
  | none =>
      have hrow := stack_eq_none.mp hstack _ (List.mem_map_of_mem hj)
      have hnone := stack_eq_none.mp hrow _ (List.mem_map_of_mem hi)
      exact absurd (hv.symm.trans hnone) (Option.some_ne_none v)
  | some v' =>
      obtain ⟨j', hj', i', hi', hv'⟩ := hex v' hstack
      rw [huniq j hj i hi j' hj' i' hi' v v' hv hv']

/-- **The greatest layer with a value shows**, of layers in ascending order. -/
theorem stack_top {r : ι → ι → Prop} {l : List ι} (hsorted : l.Pairwise r) (L : ι → κ → Option V)
    (h : stack (l.map L) p = some v) :
    ∃ i ∈ l, L i p = some v ∧ ∀ j ∈ l, L j p ≠ none → j = i ∨ r j i := by
  induction l with
  | nil => cases h
  | cons i l ih =>
      obtain ⟨hfirst, hrest⟩ := List.pairwise_cons.mp hsorted
      change (stack (l.map L) p).or (L i p) = some v at h
      rcases Option.or_eq_some_iff.mp h with hbehind | ⟨hnone, hv⟩
      · obtain ⟨k, hk, hv, htop⟩ := ih hrest hbehind
        refine ⟨k, List.mem_cons_of_mem _ hk, hv, fun j hj hne => ?_⟩
        rcases List.mem_cons.mp hj with rfl | hj
        · exact .inr (hfirst k hk)
        · exact htop j hj hne
      · refine ⟨i, List.mem_cons_self, hv, fun j hj hne => ?_⟩
        rcases List.mem_cons.mp hj with rfl | hj
        · exact .inl rfl
        · exact absurd (stack_eq_none.mp hnone _ (List.mem_map_of_mem hj)) hne

end Painter
