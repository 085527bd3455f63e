import Mathlib.Data.Set.Insert
import Mathlib.Logic.Function.Basic
import Mathlib.Data.Nat.Notation

/-! # Two-level tables that represent a family of address spaces

A store holds nodes, each an array of words.  A directory is a node whose words point to tables, and
a table is a node whose words are the leaves.  `Spaces` is what a family of directories is for: one
partial map for each directory, where a directory may use parts of the map of directory `0` instead
of its own.  `owner d i` says whose part `i` of directory `d` is.

`RepBy` relates the two, and one rule for each operation on the store says which operation on
`Spaces` it implements.  Nodes are never given back: `used` only grows, and a fresh node is one
outside it. -/

namespace Radix

variable {N I W D E : Type*}

/-- How words are read.  A wiped node has no entries and no leaves. -/
structure Format (N W D E : Type*) where
  entry : W → Option (N × D)
  leaf : W → Option E
  zero : W
  entry_zero : entry zero = none
  leaf_zero : leaf zero = none

section
variable [DecidableEq N] [DecidableEq I]

/-- One word of a node is written. -/
def put (m : N → I → W) (n : N) (i : I) (w : W) : N → I → W :=
  Function.update m n (Function.update (m n) i w)

theorem put_apply (m : N → I → W) (n : N) (i : I) (w : W) (n' : N) (i' : I) :
    put m n i w n' i' = if n' = n ∧ i' = i then w else m n' i' := by
  unfold put
  by_cases hn : n' = n
  · subst hn
    by_cases hi : i' = i
    · subst hi
      simp
    · simp [hi]
  · simp [hn]

/-- A node is filled with absent entries. -/
def Format.wipe (F : Format N W D E) (m : N → I → W) (n : N) : N → I → W :=
  Function.update m n fun _ => F.zero

end

/-- Directory entry and leaf that the walk from `root` comes to. -/
def Format.walk (F : Format N W D E) (m : N → I → W) (root : N) (i k : I) : Option (D × E) :=
  (F.entry (m root i)).bind fun t => (F.leaf (m t.1 k)).map fun e => (t.2, e)

/-! ### Families of address spaces -/

/-- Address spaces of two levels, some of which share the lower level with another one. -/
structure Spaces (I D E : Type*) where
  count : ℕ
  owner : ℕ → I → ℕ
  /-- The parts with a table, and what their directory entry says. -/
  linked : ℕ → I → Option D
  page : ℕ → I → I → Option E

namespace Spaces

/-- One directory, empty. -/
def first : Spaces I D E := ⟨1, fun d _ => d, fun _ _ => none, fun _ _ _ => none⟩

/-- What a directory says of a page. -/
def walk (A : Spaces I D E) (d : ℕ) (i k : I) : Option (D × E) :=
  (A.linked (A.owner d i) i).bind fun u => (A.page (A.owner d i) i k).map fun e => (u, e)

/-- A new directory, which uses the shared parts of directory `0` that have a table by now. -/
def create (A : Spaces I D E) (shared : I → Prop) [DecidablePred shared] : Spaces I D E :=
  { A with
    count := A.count + 1
    owner := Function.update A.owner A.count fun i =>
      if shared i ∧ (A.linked 0 i).isSome then 0 else A.count }

section
variable [DecidableEq I]

/-- A part gets a table. -/
def link (A : Spaces I D E) (d : ℕ) (i : I) (u : D) : Spaces I D E :=
  { A with linked := fun o j => if o = A.owner d i ∧ j = i then some u else A.linked o j }

/-- A page is mapped or not. -/
def setPage (A : Spaces I D E) (d : ℕ) (i k : I) (e : Option E) : Spaces I D E :=
  { A with page := fun o j l => if o = A.owner d i ∧ j = i ∧ l = k then e else A.page o j l }

theorem setPage_eq_self {A : Spaces I D E} {d : ℕ} {i k : I} {e : Option E}
    (h : A.page (A.owner d i) i k = e) : A.setPage d i k e = A := by
  have hpage : (A.setPage d i k e).page = A.page := by
    funext o j l
    show (if o = A.owner d i ∧ j = i ∧ l = k then e else A.page o j l) = A.page o j l
    split_ifs with hhit
    · rw [hhit.1, hhit.2.1, hhit.2.2, h]
    · rfl
  calc A.setPage d i k e = { A with page := (A.setPage d i k e).page } := rfl
    _ = A := by rw [hpage]

/-- Map a page; `u` goes into the directory entry if there is no table yet. -/
def map (A : Spaces I D E) (d : ℕ) (i k : I) (u : D) (e : E) : Spaces I D E :=
  match A.linked (A.owner d i) i with
  | none => (A.link d i u).setPage d i k (some e)
  | some _ => A.setPage d i k (some e)

theorem map_count (A : Spaces I D E) (d : ℕ) (i k : I) (u : D) (e : E) :
    (A.map d i k u e).count = A.count := by
  unfold map
  split <;> rfl

theorem map_owner (A : Spaces I D E) (d : ℕ) (i k : I) (u : D) (e : E) :
    (A.map d i k u e).owner = A.owner := by
  unfold map
  split <;> rfl

theorem map_page (A : Spaces I D E) (d : ℕ) (i k : I) (u : D) (e : E) :
    (A.map d i k u e).page = (A.setPage d i k (some e)).page := by
  unfold map
  split <;> rfl

/-- A table that is there stays, and its directory entry with it. -/
theorem map_linked (A : Spaces I D E) (d : ℕ) (i k : I) (u : D) (e : E) (o : ℕ) (j : I) :
    (A.map d i k u e).linked o j =
      if o = A.owner d i ∧ j = i then some ((A.linked o j).getD u) else A.linked o j := by
  unfold map
  cases hlink : A.linked (A.owner d i) i with
  | none =>
      show (if o = A.owner d i ∧ j = i then some u else A.linked o j) = _
      split_ifs with hoj
      · rw [hoj.1, hoj.2, hlink]
        rfl
      · rfl
  | some u' =>
      show A.linked o j = _
      split_ifs with hoj
      · rw [hoj.1, hoj.2, hlink]
        rfl
      · rfl

end

end Spaces

/-! ### Representation -/

/-- The store `m` with the directories `roots` and the tables `table` represents `A`.  Directories
and tables are different nodes in use; part `i` of directory `d` belongs to `d` itself, or to
directory `0` if it is shared and has a table. -/
structure RepBy (F : Format N W D E) (shared : I → Prop) (m : N → I → W) (used : Set N)
    (roots : ℕ → N) (table : ℕ → I → N) (A : Spaces I D E) : Prop where
  count_pos : 0 < A.count
  owner_zero : ∀ i, A.owner 0 i = 0
  owner_cases : ∀ d < A.count, ∀ i,
    A.owner d i = d ∨ A.owner d i = 0 ∧ shared i ∧ A.linked 0 i ≠ none
  linked_lt : ∀ o i, A.linked o i ≠ none → o < A.count
  linked_owner : ∀ o i, A.linked o i ≠ none → A.owner o i = o
  page_linked : ∀ o i k, A.linked o i = none → A.page o i k = none
  root_used : ∀ d < A.count, roots d ∈ used
  root_inj : ∀ d < A.count, ∀ d' < A.count, roots d = roots d' → d = d'
  table_used : ∀ o i, A.linked o i ≠ none → table o i ∈ used
  table_inj : ∀ o i o' i', A.linked o i ≠ none → A.linked o' i' ≠ none →
    table o i = table o' i' → o = o' ∧ i = i'
  root_ne_table : ∀ d < A.count, ∀ o i, A.linked o i ≠ none → roots d ≠ table o i
  entry : ∀ d < A.count, ∀ i, F.entry (m (roots d) i) =
    (A.linked (A.owner d i) i).map fun u => (table (A.owner d i) i, u)
  leaf : ∀ o i k, A.linked o i ≠ none → F.leaf (m (table o i) k) = A.page o i k

section
variable {F : Format N W D E} {shared : I → Prop} {m : N → I → W} {used : Set N}
  {roots : ℕ → N} {table : ℕ → I → N} {A : Spaces I D E} {d : ℕ}

theorem RepBy.owner_of_none (h : RepBy F shared m used roots table A) (hd : d < A.count) {i : I}
    (hnone : A.linked (A.owner d i) i = none) : A.owner d i = d := by
  rcases h.owner_cases d hd i with heq | ⟨heq, _, hlink⟩
  · exact heq
  · rw [heq] at hnone
    exact absurd hnone hlink

theorem RepBy.owner_of_not_shared (h : RepBy F shared m used roots table A) (hd : d < A.count)
    {i : I} (hi : ¬ shared i) : A.owner d i = d := by
  rcases h.owner_cases d hd i with heq | ⟨_, hshared, _⟩
  · exact heq
  · exact absurd hshared hi

/-- **Walks**: the store translates as the address spaces say. -/
theorem RepBy.walk (h : RepBy F shared m used roots table A) (hd : d < A.count) (i k : I) :
    F.walk m (roots d) i k = A.walk d i k := by
  unfold Format.walk Spaces.walk
  rw [h.entry d hd i]
  cases hlink : A.linked (A.owner d i) i with
  | none => rfl
  | some u =>
      have hleaf := h.leaf (A.owner d i) i k (by simp [hlink])
      simp only [Option.map_some, Option.bind_some, hleaf]

theorem RepBy.mono (h : RepBy F shared m used roots table A) {used' : Set N} (hsub : used ⊆ used') :
    RepBy F shared m used' roots table A :=
  { h with
    root_used := fun d hd => hsub (h.root_used d hd)
    table_used := fun o i hlink => hsub (h.table_used o i hlink) }

theorem RepBy.congr (h : RepBy F shared m used roots table A) {m' : N → I → W}
    (hm : ∀ n ∈ used, m' n = m n) : RepBy F shared m' used roots table A :=
  { h with
    entry := fun d hd i => by
      rw [hm _ (h.root_used d hd)]
      exact h.entry d hd i
    leaf := fun o i k hlink => by
      rw [hm _ (h.table_used o i hlink)]
      exact h.leaf o i k hlink }

theorem RepBy.root_ne (h : RepBy F shared m used roots table A) {n : N} (hn : n ∉ used) :
    ∀ d < A.count, roots d ≠ n :=
  fun d hd heq => hn (heq ▸ h.root_used d hd)

theorem RepBy.table_ne (h : RepBy F shared m used roots table A) {n : N} (hn : n ∉ used) :
    ∀ o i, A.linked o i ≠ none → table o i ≠ n :=
  fun o i hlink heq => hn (heq ▸ h.table_used o i hlink)

section
variable [DecidableEq N]

theorem RepBy.first {n : N} (hroot : roots 0 = n) (hn : n ∈ used) :
    RepBy F shared (F.wipe m n) used roots table (Spaces.first : Spaces I D E) where
  count_pos := Nat.one_pos
  owner_zero _ := rfl
  owner_cases _ _ _ := .inl rfl
  linked_lt _ _ hlink := absurd rfl hlink
  linked_owner _ _ _ := rfl
  page_linked _ _ _ _ := rfl
  root_used d hd := by
    obtain rfl : d = 0 := Nat.lt_one_iff.mp hd
    rw [hroot]
    exact hn
  root_inj d hd d' hd' _ := (Nat.lt_one_iff.mp hd).trans (Nat.lt_one_iff.mp hd').symm
  table_used _ _ hlink := absurd rfl hlink
  table_inj _ _ _ _ hlink := absurd rfl hlink
  root_ne_table _ _ _ _ hlink := absurd rfl hlink
  entry d hd i := by
    obtain rfl : d = 0 := Nat.lt_one_iff.mp hd
    rw [hroot, Format.wipe, Function.update_self, F.entry_zero]
    rfl
  leaf _ _ _ hlink := absurd rfl hlink

variable [DecidableEq I]

/-- **Writing a leaf** of a table sets the page. -/
theorem RepBy.put (h : RepBy F shared m used roots table A) (hd : d < A.count) {i : I} {t : N}
    {u : D} (ht : F.entry (m (roots d) i) = some (t, u)) (k : I) (w : W) :
    RepBy F shared (put m t k w) used roots table (A.setPage d i k (F.leaf w)) := by
  rw [h.entry d hd i] at ht
  obtain ⟨u', hlink, heq⟩ := Option.map_eq_some_iff.mp ht
  obtain ⟨rfl, rfl⟩ := Prod.mk.inj heq
  have hsome : A.linked (A.owner d i) i ≠ none := by simp [hlink]
  refine { h with page_linked := ?_, entry := ?_, leaf := ?_ }
  · intro o j l hnone
    show (if _ then _ else _) = _
    rw [if_neg]
    · exact h.page_linked o j l hnone
    · rintro ⟨rfl, rfl, _⟩
      exact hsome hnone
  · intro d' hd' j
    rw [put_apply, if_neg fun hc => h.root_ne_table d' hd' _ _ hsome hc.1]
    exact h.entry d' hd' j
  · intro o j l hoj
    show _ = (if _ then _ else _)
    rw [put_apply]
    by_cases hhit : o = A.owner d i ∧ j = i ∧ l = k
    · obtain ⟨rfl, rfl, rfl⟩ := hhit
      rw [if_pos ⟨rfl, rfl⟩, if_pos ⟨rfl, rfl, rfl⟩]
    · rw [if_neg hhit, if_neg]
      · exact h.leaf o j l hoj
      · rintro ⟨htable, rfl⟩
        obtain ⟨ho, hj⟩ := h.table_inj o j _ _ hoj hsome htable
        exact hhit ⟨ho, hj, rfl⟩

section
variable {i : I} {n : N} {w : W} {u : D}

omit [DecidableEq N] in
theorem RepBy.link_linked (h : RepBy F shared m used roots table A) (hd : d < A.count)
    (hnone : A.linked (A.owner d i) i = none) (o : ℕ) (j : I) :
    (A.link d i u).linked o j = if o = d ∧ j = i then some u else A.linked o j := by
  simp only [Spaces.link, h.owner_of_none hd hnone]

omit [DecidableEq N] in
/-- A part with a table is the new one, or had its table before. -/
theorem RepBy.link_cases (h : RepBy F shared m used roots table A) (hd : d < A.count)
    (hnone : A.linked (A.owner d i) i = none) {o : ℕ} {j : I} (hoj : (A.link d i u).linked o j ≠ none) :
    (o = d ∧ j = i) ∨ (¬ (o = d ∧ j = i) ∧ A.linked o j ≠ none) := by
  rw [h.link_linked hd hnone] at hoj
  by_cases hhit : o = d ∧ j = i
  · exact .inl hhit
  · rw [if_neg hhit] at hoj
    exact .inr ⟨hhit, hoj⟩

theorem RepBy.link_entry (h : RepBy F shared m used roots table A) (hd : d < A.count)
    (hnone : A.linked (A.owner d i) i = none) (hn : n ∉ used) (hw : F.entry w = some (n, u))
    {d' : ℕ} (hd' : d' < A.count) (j : I) :
    F.entry (Radix.put (F.wipe m n) (roots d) i w (roots d') j) =
      ((A.link d i u).linked (A.owner d' j) j).map fun u' =>
        (if A.owner d' j = d ∧ j = i then n else table (A.owner d' j) j, u') := by
  have howner := h.owner_of_none hd hnone
  rw [put_apply, h.link_linked hd hnone]
  by_cases hhit : d' = d ∧ j = i
  · obtain ⟨rfl, rfl⟩ := hhit
    rw [if_pos ⟨rfl, rfl⟩, howner, if_pos ⟨rfl, rfl⟩, hw]
    simp
  · have hmiss : ¬ (roots d' = roots d ∧ j = i) :=
      fun hc => hhit ⟨h.root_inj d' hd' d hd hc.1, hc.2⟩
    -- nobody else uses this part: it had no table
    have hother : ¬ (A.owner d' j = d ∧ j = i) := by
      rintro ⟨ho, rfl⟩
      rcases h.owner_cases d' hd' j with heq | ⟨heq, _, hlink⟩
      · exact hhit ⟨heq.symm.trans ho, rfl⟩
      · rw [← heq, ho, ← howner] at hlink
        exact hlink hnone
    rw [if_neg hmiss, if_neg hother, Format.wipe, Function.update_of_ne (h.root_ne hn d' hd')]
    simp only [hother, if_false]
    exact h.entry d' hd' j

/-- The leaves once the fresh node is linked: it is empty, and the other tables are as before. -/
theorem RepBy.link_leaf (h : RepBy F shared m used roots table A) (hd : d < A.count)
    (hnone : A.linked (A.owner d i) i = none) (hn : n ∉ used) {o : ℕ} {j : I} (k : I)
    (hoj : (A.link d i u).linked o j ≠ none) :
    F.leaf (Radix.put (F.wipe m n) (roots d) i w (if o = d ∧ j = i then n else table o j) k) =
      A.page o j k := by
  rcases h.link_cases hd hnone hoj with hhit | ⟨hmiss, hold⟩
  · rw [if_pos hhit, put_apply, if_neg fun hc => h.root_ne hn d hd hc.1.symm, Format.wipe,
      Function.update_self, F.leaf_zero, hhit.1, hhit.2]
    rw [h.owner_of_none hd hnone] at hnone
    exact (h.page_linked d i k hnone).symm
  · rw [if_neg hmiss, put_apply, if_neg fun hc => h.root_ne_table d hd o j hold hc.1.symm,
      Format.wipe, Function.update_of_ne (h.table_ne hn o j hold)]
    exact h.leaf o j k hold

end

/-- **Linking** a fresh wiped node into an empty entry makes it the table of that part. -/
theorem RepBy.link (h : RepBy F shared m used roots table A) (hd : d < A.count) {i : I}
    (hnone : A.linked (A.owner d i) i = none) {n : N} (hn : n ∉ used) {w : W} {u : D}
    (hw : F.entry w = some (n, u)) :
    RepBy F shared (Radix.put (F.wipe m n) (roots d) i w) (insert n used) roots
      (fun o j => if o = d ∧ j = i then n else table o j) (A.link d i u) := by
  constructor
  case count_pos => exact h.count_pos
  case owner_zero => exact h.owner_zero
  case owner_cases =>
    intro d' hd' j
    rcases h.owner_cases d' hd' j with heq | ⟨heq, hshared, hlink⟩
    · exact .inl heq
    · refine .inr ⟨heq, hshared, ?_⟩
      rw [h.link_linked hd hnone]
      split_ifs
      · exact Option.some_ne_none u
      · exact hlink
  case linked_lt =>
    intro o j hoj
    rcases h.link_cases hd hnone hoj with ⟨rfl, _⟩ | ⟨_, hold⟩
    · exact hd
    · exact h.linked_lt o j hold
  case linked_owner =>
    intro o j hoj
    rcases h.link_cases hd hnone hoj with ⟨rfl, rfl⟩ | ⟨_, hold⟩
    · exact h.owner_of_none hd hnone
    · exact h.linked_owner o j hold
  case page_linked =>
    intro o j k hoj
    rw [h.link_linked hd hnone] at hoj
    split_ifs at hoj
    exact h.page_linked o j k hoj
  case root_used => exact fun d' hd' => .inr (h.root_used d' hd')
  case root_inj => exact h.root_inj
  case table_used =>
    intro o j hoj
    rcases h.link_cases hd hnone hoj with hhit | ⟨hmiss, hold⟩
    · rw [if_pos hhit]
      exact .inl rfl
    · rw [if_neg hmiss]
      exact .inr (h.table_used o j hold)
  case table_inj =>
    intro o j o' j' hoj hoj' heq
    rcases h.link_cases hd hnone hoj with hhit | ⟨hmiss, hold⟩ <;>
      rcases h.link_cases hd hnone hoj' with hhit' | ⟨hmiss', hold'⟩
    · exact ⟨hhit.1.trans hhit'.1.symm, hhit.2.trans hhit'.2.symm⟩
    · rw [if_pos hhit, if_neg hmiss'] at heq
      exact absurd heq.symm (h.table_ne hn o' j' hold')
    · rw [if_neg hmiss, if_pos hhit'] at heq
      exact absurd heq (h.table_ne hn o j hold)
    · rw [if_neg hmiss, if_neg hmiss'] at heq
      exact h.table_inj o j o' j' hold hold' heq
  case root_ne_table =>
    intro d' hd' o j hoj
    rcases h.link_cases hd hnone hoj with hhit | ⟨hmiss, hold⟩
    · rw [if_pos hhit]
      exact h.root_ne hn d' hd'
    · rw [if_neg hmiss]
      exact h.root_ne_table d' hd' o j hold
  case entry => exact fun d' hd' j => h.link_entry hd hnone hn hw hd' j
  case leaf => exact fun o j k hoj => h.link_leaf hd hnone hn k hoj

end

theorem RepBy.linked_count (h : RepBy F shared m used roots table A) (i : I) :
    A.linked A.count i = none := by
  by_contra hlink
  exact Nat.lt_irrefl _ (h.linked_lt _ _ hlink)

theorem Spaces.create_owner (A : Spaces I D E) (shared : I → Prop) [DecidablePred shared] (i : I) :
    (A.create shared).owner A.count i = if shared i ∧ (A.linked 0 i).isSome then 0 else A.count := by
  show Function.update A.owner A.count _ A.count i = _
  rw [Function.update_self]

theorem RepBy.create_entry [DecidablePred shared] (h : RepBy F shared m used roots table A) {words : I → W}
    (hcopy : ∀ i, words i = if shared i then m (roots 0) i else F.zero) (i : I) :
    F.entry (words i) = (A.linked ((A.create shared).owner A.count i) i).map fun u =>
      (table ((A.create shared).owner A.count i) i, u) := by
  rw [hcopy, Spaces.create_owner]
  have hzero := h.entry 0 h.count_pos i
  rw [h.owner_zero] at hzero
  by_cases hi : shared i
  · rw [if_pos hi, hzero]
    cases hlink : A.linked 0 i with
    | none => simp [h.linked_count]
    | some u => simp [hi, hlink]
  · simp [hi, h.linked_count, F.entry_zero]

/-- **A new directory** on a fresh node, with the shared entries of directory `0` copied. -/
theorem RepBy.create [DecidablePred shared] (h : RepBy F shared m used roots table A) {n : N}
    (hn : n ∉ used) {m' : N → I → W} (hother : ∀ n' ≠ n, m' n' = m n')
    (hcopy : ∀ i, m' n i = if shared i then m (roots 0) i else F.zero) :
    RepBy F shared m' (insert n used) (Function.update roots A.count n) table (A.create shared) := by
  have hroot := h.root_ne hn
  have htable := h.table_ne hn
  have hold : ∀ d' < A.count, Function.update roots A.count n d' = roots d' :=
    fun d' hd' => Function.update_of_ne hd'.ne _ _
  have howner : ∀ d' < A.count, (A.create shared).owner d' = A.owner d' :=
    fun d' hd' => Function.update_of_ne hd'.ne _ _
  have hlt : ∀ d' < (A.create shared).count, d' < A.count ∨ d' = A.count :=
    fun d' hd' => Nat.lt_succ_iff_lt_or_eq.mp hd'
  constructor
  case count_pos => exact Nat.succ_pos _
  case owner_zero =>
    intro i
    rw [howner 0 h.count_pos]
    exact h.owner_zero i
  case owner_cases =>
    intro d' hd' i
    rcases hlt d' hd' with hd' | rfl
    · rw [howner d' hd']
      exact h.owner_cases d' hd' i
    · rw [Spaces.create_owner]
      split_ifs with hsh
      · exact .inr ⟨rfl, hsh.1, Option.isSome_iff_ne_none.mp hsh.2⟩
      · exact .inl rfl
  case linked_lt => exact fun o i hlink => Nat.lt_succ_of_lt (h.linked_lt o i hlink)
  case linked_owner =>
    intro o i hlink
    rw [howner o (h.linked_lt o i hlink)]
    exact h.linked_owner o i hlink
  case page_linked => exact h.page_linked
  case root_used =>
    intro d' hd'
    rcases hlt d' hd' with hd' | rfl
    · rw [hold d' hd']
      exact .inr (h.root_used d' hd')
    · rw [Function.update_self]
      exact .inl rfl
  case root_inj =>
    intro d₁ hd₁ d₂ hd₂ heq
    rcases hlt d₁ hd₁ with hd₁ | rfl <;> rcases hlt d₂ hd₂ with hd₂ | rfl
    · rw [hold d₁ hd₁, hold d₂ hd₂] at heq
      exact h.root_inj d₁ hd₁ d₂ hd₂ heq
    · rw [hold d₁ hd₁, Function.update_self] at heq
      exact absurd heq (hroot d₁ hd₁)
    · rw [hold d₂ hd₂, Function.update_self] at heq
      exact absurd heq.symm (hroot d₂ hd₂)
    · rfl
  case table_used => exact fun o i hlink => .inr (h.table_used o i hlink)
  case table_inj => exact h.table_inj
  case root_ne_table =>
    intro d' hd' o i hlink
    rcases hlt d' hd' with hd' | rfl
    · rw [hold d' hd']
      exact h.root_ne_table d' hd' o i hlink
    · rw [Function.update_self]
      exact (htable o i hlink).symm
  case entry =>
    intro d' hd' i
    rcases hlt d' hd' with hd' | rfl
    · rw [hold d' hd', hother _ (hroot d' hd'), howner d' hd']
      exact h.entry d' hd' i
    · rw [Function.update_self]
      exact h.create_entry hcopy i
  case leaf =>
    intro o i k hlink
    rw [hother _ (htable o i hlink)]
    exact h.leaf o i k hlink

end

end Radix
