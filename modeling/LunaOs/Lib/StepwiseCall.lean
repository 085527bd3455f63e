import LunaOs.Lib.Runs
import Mathlib.Logic.Function.Iterate

/-! # Calls that make one access at a time

A call is at a place `π` of its code and works on a store `θ`; `access` makes its next access, and `result` is
what a place says when the call has returned there.  `StepwiseCall` says that one input of a larger system makes
the accesses of a call one by one.  Then a run of that input alone ends where the accesses end, and what the
call returns is emitted once. -/

namespace Runs

variable {σ ι ο π θ ρ : Type*} {step : σ → ι → σ} {out : σ → ι → List ο}

/-- The input `i` makes the next access of a call.  `busy s` is the system with the call at `s`, and `idle q` the
one without it. -/
structure StepwiseCall (step : σ → ι → σ) (out : σ → ι → List ο) (i : ι) (access : π × θ → π × θ)
    (result : π → Option ρ) (returns : ρ → List ο) (busy : π × θ → σ) (idle : θ → σ) : Prop where
  goes_on : ∀ s, result (access s).1 = none → step (busy s) i = busy (access s) ∧ out (busy s) i = []
  ends : ∀ s r, result (access s).1 = some r → step (busy s) i = idle (access s).2 ∧ out (busy s) i = returns r
  /-- A call that has returned makes no access. -/
  stays : ∀ s r, result s.1 = some r → access s = s
  waits : ∀ q, step (idle q) i = idle q ∧ out (idle q) i = []

theorem StepwiseCall.run {i : ι} {access : π × θ → π × θ} {result : π → Option ρ} {returns : ρ → List ο}
    {busy : π × θ → σ} {idle : θ → σ} (h : StepwiseCall step out i access result returns busy idle) {s t : π × θ}
    {r : ρ} (hs : result s.1 = none) {n : ℕ} (hn : access^[n] s = t) (ht : result t.1 = some r) :
    Runs.run step (busy s) (List.replicate n i) = idle t.2 ∧
      outputs step out (busy s) (List.replicate n i) = returns r := by
  induction n generalizing s with
  | zero =>
      obtain rfl : s = t := hn
      cases hs.symm.trans ht
  | succ n ih =>
      rw [Function.iterate_succ_apply] at hn
      rw [List.replicate_succ, run_cons, outputs_cons]
      cases hresult : result (access s).1 with
      | none =>
          obtain ⟨hstep, hout⟩ := h.goes_on s hresult
          rw [hstep, hout, List.nil_append]
          exact ih hresult hn
      | some r' =>
          -- the access that returns: no other follows
          obtain ⟨hstep, hout⟩ := h.ends s r' hresult
          obtain ⟨hrest, hnone⟩ := h.waits (access s).2
          rw [Function.iterate_fixed (h.stays _ _ hresult)] at hn
          subst hn
          obtain rfl := Option.some.inj (hresult.symm.trans ht)
          rw [hstep, hout, run_replicate hrest, outputs_replicate hrest hnone, List.append_nil]
          exact ⟨rfl, rfl⟩

end Runs
