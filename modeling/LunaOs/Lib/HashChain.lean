import Mathlib.Data.List.Basic
import Mathlib.Data.Nat.Notation
import Mathlib.Data.Set.Basic

/-! # Hash-linked logs

A log is a sequence of entries.  A `Format` says how an entry is read: its `body` is what is
hashed, its `digest` the hash stored beside the body, and `prev` the digest by which it names an
earlier entry, if it names one (`hasPrev`).  The entry at position 0 is the root: nothing is asked
of it.

`Valid` is what a verifier can check without trusting anyone: every other entry stores the hash of
its body and names an entry before it.  Two consequences are proved here.  `walk_agree`: two valid
logs that agree on one digest agree on everything that can be reached from there, or the hash
function has a collision.  `valid_erase_iff`: a valid log without one of its entries is valid
unless some entry named the missing one. -/

namespace HashChain

/-- How the entries `ε` of a log are read. -/
structure Format (ε β δ : Type*) where
  body : ε → β
  digest : ε → δ
  prev : ε → δ
  hasPrev : ε → Prop
  prev_congr : ∀ {x y : ε}, body x = body y → prev x = prev y

/-- Two members of `S` have the same hash. -/
def Collides {β δ : Type*} (hash : β → δ) (S : Set β) : Prop :=
  ∃ x ∈ S, ∃ y ∈ S, x ≠ y ∧ hash x = hash y

variable {ε β δ : Type*} (F : Format ε β δ) (hash : β → δ)

/-- The bodies of the first `n` entries. -/
def bodies (L : ℕ → ε) (n : ℕ) : Set β := {x | ∃ i < n, F.body (L i) = x}

/-- Every entry but the root stores the hash of its body. -/
def Sealed (L : ℕ → ε) (n : ℕ) : Prop :=
  ∀ i, 1 ≤ i → i < n → F.digest (L i) = hash (F.body (L i))

/-- Every entry but the root that names an entry names an earlier one. -/
def Linked (L : ℕ → ε) (n : ℕ) : Prop :=
  ∀ i, 1 ≤ i → i < n → F.hasPrev (L i) → ∃ j < i, F.digest (L j) = F.prev (L i)

/-- What a verifier checks of the first `n` entries. -/
structure Valid (L : ℕ → ε) (n : ℕ) : Prop where
  isSealed : Sealed F hash L n
  linked : Linked F L n

section
variable {F : Format ε β δ} {hash : β → δ} {L L' : ℕ → ε} {n : ℕ}

theorem eq_of_not_collides {S : Set β} (h : ¬ Collides hash S) {x y : β} (hx : x ∈ S) (hy : y ∈ S)
    (hxy : hash x = hash y) : x = y := by
  by_contra hne
  exact h ⟨x, hx, y, hy, hne, hxy⟩

theorem mem_bodies {i : ℕ} (hi : i < n) : F.body (L i) ∈ bodies F L n := ⟨i, hi, rfl⟩

theorem Valid.congr (h : Valid F hash L n) (heq : ∀ i < n, L' i = L i) : Valid F hash L' n := by
  refine ⟨?_, ?_⟩
  · intro i hi hn
    rw [heq i hn]
    exact h.isSealed i hi hn
  · intro i hi hn hprev
    rw [heq i hn] at hprev ⊢
    obtain ⟨j, hj, hd⟩ := h.linked i hi hn hprev
    exact ⟨j, hj, by rw [heq j (by omega)]; exact hd⟩

theorem Valid.mono (h : Valid F hash L n) {m : ℕ} (hmn : m ≤ n) : Valid F hash L m :=
  ⟨fun i hi hm => h.isSealed i hi (hm.trans_le hmn),
    fun i hi hm => h.linked i hi (hm.trans_le hmn)⟩

theorem valid_one : Valid F hash L 1 :=
  ⟨fun i hi hn => absurd hn (by omega), fun i hi hn => absurd hn (by omega)⟩

/-- Extending a valid log by an entry that stores its hash and names an earlier entry. -/
theorem Valid.snoc (h : Valid F hash L n) (hseal : F.digest (L n) = hash (F.body (L n)))
    (hlink : ∃ j < n, F.digest (L j) = F.prev (L n)) : Valid F hash L (n + 1) := by
  refine ⟨?_, ?_⟩
  · intro i hi hn
    rcases Nat.lt_succ_iff_lt_or_eq.mp hn with hlt | rfl
    · exact h.isSealed i hi hlt
    · exact hseal
  · intro i hi hn hprev
    rcases Nat.lt_succ_iff_lt_or_eq.mp hn with hlt | rfl
    · exact h.linked i hi hlt hprev
    · exact hlink

end

/-! ### Tabulated hash values -/

/-- `hash` read from a table where the table has it. -/
def hashVia [DecidableEq β] (table : List (β × δ)) (hash : β → δ) (x : β) : δ :=
  match table.find? fun p => p.1 = x with
  | some p => p.2
  | none => hash x

theorem hashVia_eq [DecidableEq β] {table : List (β × δ)} {hash : β → δ}
    (h : ∀ p ∈ table, hash p.1 = p.2) : hashVia table hash = hash := by
  funext x
  unfold hashVia
  cases hfind : table.find? fun p => p.1 = x with
  | none => rfl
  | some p =>
      obtain rfl : p.1 = x := by simpa using List.find?_some hfind
      exact (h p (List.mem_of_find?_eq_some hfind)).symm

/-! ### Walking back -/

section walk
variable [DecidableEq δ] (L : ℕ → ε)

/-- The earliest entry before `i` that entry `i` names. -/
def parent (i : ℕ) : Option ℕ :=
  (List.range i).find? fun j => F.digest (L j) = F.prev (L i)

/-- The entry `k` steps back from entry `i`. -/
def walk : ℕ → ℕ → Option ℕ
  | 0, i => some i
  | k + 1, i => (parent F L i).bind (walk k)

variable {F L}

theorem parent_spec {i j : ℕ} (h : parent F L i = some j) :
    j < i ∧ F.digest (L j) = F.prev (L i) :=
  ⟨List.mem_range.mp (List.mem_of_find?_eq_some h), by simpa using List.find?_some h⟩

theorem walk_succ {k i j : ℕ} (h : walk F L (k + 1) i = some j) :
    ∃ p, parent F L i = some p ∧ walk F L k p = some j :=
  Option.bind_eq_some_iff.mp h

/-- **Binding**: from entries with one digest, two sealed logs lead back through equal entries, or
two different bodies in them collide. -/
theorem walk_agree {hash : β → δ} {A B : ℕ → ε} {m n : ℕ} (hA : Sealed F hash A m)
    (hB : Sealed F hash B n) (hfree : ¬ Collides hash (bodies F A m ∪ bodies F B n)) {a b : ℕ}
    (ha : a < m) (hb : b < n) (hab : F.digest (A a) = F.digest (B b)) (k : ℕ) {i j : ℕ}
    (hi : walk F A k a = some i) (hj : walk F B k b = some j) (hi0 : i ≠ 0) (hj0 : j ≠ 0) :
    F.body (A i) = F.body (B j) ∧ F.digest (A i) = F.digest (B j) := by
  -- entries past the root with one digest have one body
  have hbody : ∀ {a b : ℕ}, a ≠ 0 → a < m → b ≠ 0 → b < n → F.digest (A a) = F.digest (B b) →
      F.body (A a) = F.body (B b) := by
    intro a b ha0 ha hb0 hb hab
    refine eq_of_not_collides hfree (.inl (mem_bodies ha)) (.inr (mem_bodies hb)) ?_
    rw [← hA a (by omega) ha, hab, hB b (by omega) hb]
  induction k generalizing a b with
  | zero =>
      obtain rfl : a = i := Option.some.inj hi
      obtain rfl : b = j := Option.some.inj hj
      exact ⟨hbody hi0 ha hj0 hb hab, hab⟩
  | succ k ih =>
      obtain ⟨p, hp, hi⟩ := walk_succ hi
      obtain ⟨q, hq, hj⟩ := walk_succ hj
      obtain ⟨hpa, hdp⟩ := parent_spec hp
      obtain ⟨hqb, hdq⟩ := parent_spec hq
      have hprev := F.prev_congr (hbody (by omega) ha (by omega) hb hab)
      exact ih (hpa.trans ha) (hqb.trans hb) (by rw [hdp, hdq, hprev]) hi hj

end walk

/-! ### Erasing an entry -/

/-- The log without entry `k`, the later ones moved down. -/
def erase (L : ℕ → ε) (k : ℕ) : ℕ → ε := fun i => if i < k then L i else L (i + 1)

section erase
variable {F : Format ε β δ} {hash : β → δ} {L : ℕ → ε} {n k : ℕ}

theorem erase_lt {i : ℕ} (h : i < k) : erase L k i = L i := if_pos h

theorem erase_ge {i : ℕ} (h : k ≤ i) : erase L k i = L (i + 1) := if_neg (by omega)

theorem erase_pred {i : ℕ} (h : k < i) : erase L k (i - 1) = L i := by
  rw [erase_ge (by omega)]
  congr 1
  omega

/-- An entry of the erased log is an entry of the log other than `k`. -/
theorem erase_eq (i : ℕ) : ∃ j ≠ k, erase L k i = L j ∧ i ≤ j ∧ j ≤ i + 1 := by
  by_cases h : i < k
  · exact ⟨i, by omega, erase_lt h, by omega, by omega⟩
  · exact ⟨i + 1, by omega, erase_ge (by omega), by omega, by omega⟩

/-- **Erasure**: where digests are distinct, a valid log stays valid without entry `k` exactly when
no later entry names it. -/
theorem valid_erase_iff (h : Valid F hash L n)
    (huniq : ∀ i j, i < n → j < n → F.digest (L i) = F.digest (L j) → i = j)
    (hk : 1 ≤ k) (hkn : k < n) :
    Valid F hash (erase L k) (n - 1) ↔
      ∀ m, k < m → m < n → F.hasPrev (L m) → F.prev (L m) ≠ F.digest (L k) := by
  constructor
  · intro hv m hkm hmn hprev heq
    obtain ⟨j, hj, hd⟩ := hv.linked (m - 1) (by omega) (by omega) (by rwa [erase_pred hkm])
    obtain ⟨j', hne, hj', _, hle⟩ := erase_eq (L := L) (k := k) j
    rw [erase_pred hkm, heq, hj'] at hd
    exact hne (huniq j' k (by omega) hkn hd)
  · intro hnone
    refine ⟨?_, ?_⟩
    · intro i hi hin
      obtain ⟨i', _, hi', _, _⟩ := erase_eq (L := L) (k := k) i
      rw [hi']
      exact h.isSealed i' (by omega) (by omega)
    · intro i hi hin hprev
      by_cases hik : i < k
      · rw [erase_lt hik] at hprev ⊢
        obtain ⟨j, hj, hd⟩ := h.linked i hi (by omega) hprev
        exact ⟨j, hj, by rw [erase_lt (by omega)]; exact hd⟩
      · rw [erase_ge (by omega)] at hprev ⊢
        obtain ⟨j, hj, hd⟩ := h.linked (i + 1) (by omega) (by omega) hprev
        have hjk : j ≠ k := by
          rintro rfl
          exact hnone (i + 1) (by omega) (by omega) hprev hd.symm
        rcases Nat.lt_or_gt_of_ne hjk with hlt | hgt
        · exact ⟨j, by omega, by rw [erase_lt hlt]; exact hd⟩
        · exact ⟨j - 1, by omega, by rw [erase_pred hgt]; exact hd⟩

end erase

end HashChain
