import Mathlib.Logic.Function.Basic
import Mathlib.Data.Nat.Basic

/-! # Placing extents in an address range

A span is an interval of addresses.  A layout gives some keys a span each; it is `Placed` in a range
if the spans lie there and no two of them overlap.  The rules are the changes an allocator makes: a
span shrinks in its place or is given up, and a new one is placed behind all others. -/

namespace Extents

/-- The addresses from `start` to `start + len`. -/
structure Span where
  start : ℕ
  len : ℕ

namespace Span

/-- `a` is an address of `s`. -/
def Contains (s : Span) (a : ℕ) : Prop := s.start ≤ a ∧ a < s.start + s.len

/-- One ends before the other begins. -/
def Apart (s t : Span) : Prop := s.start + s.len ≤ t.start ∨ t.start + t.len ≤ s.start

/-- `s` lies within `t`. -/
def Sub (s t : Span) : Prop := t.start ≤ s.start ∧ s.start + s.len ≤ t.start + t.len

theorem Sub.refl (s : Span) : s.Sub s := ⟨le_rfl, le_rfl⟩

theorem Apart.symm {s t : Span} (h : s.Apart t) : t.Apart s := h.elim .inr .inl

theorem Apart.sub {s s' t t' : Span} (h : s.Apart t) (hs : s'.Sub s) (ht : t'.Sub t) :
    s'.Apart t' := by
  obtain ⟨h1, h2⟩ := hs
  obtain ⟨h3, h4⟩ := ht
  unfold Apart at h ⊢
  omega

theorem Apart.not_contains {s t : Span} (h : s.Apart t) {a : ℕ} (ha : s.Contains a) :
    ¬ t.Contains a := by
  obtain ⟨h1, h2⟩ := ha
  rintro ⟨h3, h4⟩
  unfold Apart at h
  omega

end Span

variable {κ : Type*}

/-- The spans lie between `lo` and `hi`, and no two of them overlap. -/
structure Placed (L : κ → Option Span) (lo hi : ℕ) : Prop where
  within : ∀ k s, L k = some s → lo ≤ s.start ∧ s.start + s.len ≤ hi
  apart : ∀ k k' s s', k ≠ k' → L k = some s → L k' = some s' → s.Apart s'

namespace Placed

theorem empty (lo hi : ℕ) : Placed (fun _ : κ => none) lo hi where
  within _ s h := absurd h.symm (Option.some_ne_none s)
  apart _ _ s _ _ h := absurd h.symm (Option.some_ne_none s)

variable [DecidableEq κ] {L : κ → Option Span} {lo hi hi' : ℕ} {k : κ} {s s' : Span}

/-- One span is replaced by a new one that is apart from the others. -/
theorem update (h : Placed L lo hi) (hle : hi ≤ hi') (new : Option Span)
    (hwithin : ∀ t, new = some t → lo ≤ t.start ∧ t.start + t.len ≤ hi')
    (hapart : ∀ t, new = some t → ∀ k' s', k' ≠ k → L k' = some s' → t.Apart s') :
    Placed (Function.update L k new) lo hi' where
  within k' t ht := by
    by_cases hk : k' = k
    · rw [hk, Function.update_self] at ht
      exact hwithin t ht
    · rw [Function.update_of_ne hk] at ht
      obtain ⟨h1, h2⟩ := h.within k' t ht
      exact ⟨h1, Nat.le_trans h2 hle⟩
  apart k₁ k₂ t₁ t₂ hne h₁ h₂ := by
    by_cases hk₁ : k₁ = k
    · have hk₂ : k₂ ≠ k := fun heq => hne (hk₁.trans heq.symm)
      rw [hk₁, Function.update_self] at h₁
      rw [Function.update_of_ne hk₂] at h₂
      exact hapart t₁ h₁ k₂ t₂ hk₂ h₂
    · rw [Function.update_of_ne hk₁] at h₁
      by_cases hk₂ : k₂ = k
      · rw [hk₂, Function.update_self] at h₂
        exact (hapart t₂ h₂ k₁ t₁ hk₁ h₁).symm
      · rw [Function.update_of_ne hk₂] at h₂
        exact h.apart k₁ k₂ t₁ t₂ hne h₁ h₂

/-- A span shrinks in its place, or is given up. -/
theorem shrink (h : Placed L lo hi) (hk : L k = some s) (new : Option Span)
    (hsub : ∀ t, new = some t → t.Sub s) : Placed (Function.update L k new) lo hi := by
  refine h.update le_rfl new (fun t ht => ?_) fun t ht k' s' hk' hs' => ?_
  · obtain ⟨h1, h2⟩ := hsub t ht
    obtain ⟨h3, h4⟩ := h.within k s hk
    omega
  · exact (h.apart k k' s s' hk'.symm hk hs').sub (hsub t ht) (.refl s')

theorem place (h : Placed L lo hi) (hlo : lo ≤ hi) (hstart : hi ≤ s.start)
    (hend : s.start + s.len ≤ hi') : Placed (Function.update L k (some s)) lo hi' := by
  refine h.update (by omega) (some s) (fun t ht => ?_) fun t ht k' s' _ hs' => ?_
  · obtain rfl := Option.some.inj ht
    omega
  · obtain rfl := Option.some.inj ht
    obtain ⟨_, h2⟩ := h.within k' s' hs'
    exact .inr (Nat.le_trans h2 hstart)

end Placed

end Extents
