import Mathlib.Data.Fintype.Card

/-! # Loops over a finite type of states

A loop is a function `body` that says of each loop state whether the loop is left there, and with
which value, or which state comes next.  `turns body n` is the loop with `n` turns left.  Over a
finite type a loop that is left at all is left before any state comes twice, so that as many turns
as there are states are enough: `loop` gives the value the loop ends with, and `none` says that it
does not end (`loop_eq_none_iff`). -/

namespace Loop

variable {α β : Type*} {body : α → β ⊕ α}

/-- At most `n` turns of a loop whose body leaves with a value or goes on. -/
def turns (body : α → β ⊕ α) : ℕ → α → Option β
  | 0, _ => none
  | n + 1, a =>
      match body a with
      | .inl b => some b
      | .inr a' => turns body n a'

/-- As many turns as there are states: a loop that takes more never ends. -/
def loop [Fintype α] (body : α → β ⊕ α) (a : α) : Option β := turns body (Fintype.card α) a

theorem turns_exit {a : α} {b : β} (h : body a = .inl b) (n : ℕ) :
    turns body (n + 1) a = some b := by
  rw [turns, h]

theorem turns_next {a a' : α} (h : body a = .inr a') (n : ℕ) :
    turns body (n + 1) a = turns body n a' := by
  rw [turns, h]

/-- The loop is left from `a` in the `n`-th turn after this one. -/
def LeftAfter (body : α → β ⊕ α) : ℕ → α → Prop
  | 0, a => ∃ b, body a = .inl b
  | n + 1, a => ∃ a', body a = .inr a' ∧ LeftAfter body n a'

theorem LeftAfter.unique {a : α} {n m : ℕ} (hn : LeftAfter body n a) (hm : LeftAfter body m a) :
    n = m := by
  induction n generalizing m a with
  | zero =>
      cases m with
      | zero => rfl
      | succ m =>
          obtain ⟨b, hb⟩ := hn
          obtain ⟨a', ha', _⟩ := hm
          cases hb.symm.trans ha'
  | succ n ih =>
      obtain ⟨a', ha', hn⟩ := hn
      cases m with
      | zero =>
          obtain ⟨b, hb⟩ := hm
          cases hb.symm.trans ha'
      | succ m =>
          obtain ⟨a'', ha'', hm⟩ := hm
          obtain rfl := Sum.inr.inj (ha'.symm.trans ha'')
          rw [ih hn hm]

/-- A loop left after `n` turns passes states from which it is left after fewer. -/
theorem LeftAfter.exists_of_le {a : α} {n m : ℕ} (hn : LeftAfter body n a) (hle : m ≤ n) :
    ∃ a', LeftAfter body m a' := by
  induction n generalizing a with
  | zero => exact ⟨a, Nat.le_zero.mp hle ▸ hn⟩
  | succ n ih =>
      rcases Nat.of_le_succ hle with hlt | rfl
      · obtain ⟨a', _, hn⟩ := hn
        exact ih hn hlt
      · exact ⟨a, hn⟩

theorem LeftAfter.lt_card [Fintype α] {a : α} {n : ℕ} (h : LeftAfter body n a) :
    n < Fintype.card α := by
  have hstates : ∀ m : Fin (n + 1), ∃ a', LeftAfter body m.val a' := fun m =>
    h.exists_of_le (Nat.lt_succ_iff.mp m.isLt)
  choose state hstate using hstates
  -- states with different numbers of turns left are different
  have hinj : Function.Injective state := by
    intro i j hij
    have hi := hstate i
    rw [hij] at hi
    exact Fin.ext (hi.unique (hstate j))
  have hcard := Fintype.card_le_of_injective state hinj
  rw [Fintype.card_fin] at hcard
  exact hcard

theorem turns_isSome_iff {a : α} {n : ℕ} :
    (turns body n a).isSome ↔ ∃ m < n, LeftAfter body m a := by
  induction n generalizing a with
  | zero => simp [turns]
  | succ n ih =>
      cases h : body a with
      | inl b =>
          rw [turns_exit h]
          exact iff_of_true rfl ⟨0, Nat.succ_pos n, b, h⟩
      | inr a' =>
          rw [turns_next h, ih]
          constructor
          · rintro ⟨m, hlt, hm⟩
            exact ⟨m + 1, Nat.succ_lt_succ hlt, a', h, hm⟩
          · rintro ⟨m, hlt, hm⟩
            cases m with
            | zero =>
                obtain ⟨b, hb⟩ := hm
                cases h.symm.trans hb
            | succ m =>
                obtain ⟨a'', ha'', hm⟩ := hm
                obtain rfl := Sum.inr.inj (h.symm.trans ha'')
                exact ⟨m, Nat.lt_of_succ_lt_succ hlt, hm⟩

theorem turns_mono {a : α} {b : β} {n m : ℕ} (h : turns body n a = some b) (hle : n ≤ m) :
    turns body m a = some b := by
  induction n generalizing m a with
  | zero => cases h
  | succ n ih =>
      obtain ⟨m, rfl⟩ : ∃ k, m = k + 1 := ⟨m - 1, by omega⟩
      cases hbody : body a with
      | inl c =>
          rw [turns_exit hbody] at h ⊢
          exact h
      | inr a' =>
          rw [turns_next hbody] at h ⊢
          exact ih h (Nat.le_of_succ_le_succ hle)

/-- The value a loop ends with does not depend on the turns it is given. -/
theorem turns_unique {a : α} {b c : β} {n m : ℕ} (hb : turns body n a = some b)
    (hc : turns body m a = some c) : b = c := by
  have hmax := turns_mono hb (Nat.le_max_left n m)
  rw [turns_mono hc (Nat.le_max_right n m)] at hmax
  exact (Option.some.inj hmax).symm

variable [Fintype α]

/-- **The bound on the turns loses nothing**: without a value after as many turns as there are states,
there is none after any number of turns. -/
theorem loop_eq_none_iff {a : α} : loop body a = none ↔ ∀ n, turns body n a = none := by
  constructor
  · intro h n
    by_contra hne
    obtain ⟨m, _, hm⟩ := turns_isSome_iff.mp (Option.isSome_iff_ne_none.mpr hne)
    have hsome : (loop body a).isSome := turns_isSome_iff.mpr ⟨m, hm.lt_card, hm⟩
    rw [h] at hsome
    cases hsome
  · exact fun h => h _

theorem loop_eq_of_turns {a : α} {b : β} {n : ℕ} (h : turns body n a = some b) :
    loop body a = some b := by
  cases hloop : loop body a with
  | none =>
      rw [loop_eq_none_iff.mp hloop n] at h
      cases h
  | some c => exact congrArg some (turns_unique hloop h)

theorem loop_exit {a : α} {b : β} (h : body a = .inl b) : loop body a = some b :=
  loop_eq_of_turns (turns_exit h 0)

theorem loop_next {a a' : α} (h : body a = .inr a') : loop body a = loop body a' := by
  cases hloop : loop body a' with
  | some b => exact loop_eq_of_turns ((turns_next h _).trans hloop)
  | none =>
      rw [loop_eq_none_iff] at hloop ⊢
      intro n
      cases n with
      | zero => rfl
      | succ n => rw [turns_next h, hloop]

end Loop
