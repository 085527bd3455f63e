import Mathlib.Data.List.Nodup

/-! # Singly linked lists in memory

`Chain next null head ns`: following `next` from `head` visits the nodes `ns` and then comes to
`null`.  Since a chain ends, it visits no node twice. -/

namespace FreeList

variable {α : Type*} {next next' : α → α} {null head : α} {n : α} {ns : List α}

/-- The links from `head` on run through `l` and end with `null`. -/
def Chain (next : α → α) (null : α) : α → List α → Prop
  | head, [] => head = null
  | head, n :: ns => head = n ∧ n ≠ null ∧ Chain next null (next n) ns

theorem Chain.congr (h : Chain next null head ns) (heq : ∀ n ∈ ns, next' n = next n) :
    Chain next' null head ns := by
  induction ns generalizing head with
  | nil => exact h
  | cons n ns ih =>
      obtain ⟨hhead, hn, hrest⟩ := h
      refine ⟨hhead, hn, ?_⟩
      rw [heq n List.mem_cons_self]
      exact ih hrest fun m hm => heq m (List.mem_cons_of_mem _ hm)

theorem Chain.push (h : Chain next null head ns) (hn : n ≠ null) (hnext : next n = head) :
    Chain next null n (n :: ns) := ⟨rfl, hn, hnext ▸ h⟩

/-- The chain that does not begin with `null` has a first node. -/
theorem Chain.exists_cons (h : Chain next null head ns) (hhead : head ≠ null) :
    ∃ rest, ns = head :: rest ∧ Chain next null (next head) rest := by
  cases ns with
  | nil => exact absurd h hhead
  | cons n ns =>
      obtain ⟨rfl, _, hrest⟩ := h
      exact ⟨ns, rfl, hrest⟩

/-- The nodes are determined by where the chain begins. -/
theorem Chain.unique {ns' : List α} (h : Chain next null head ns) (h' : Chain next null head ns') :
    ns = ns' := by
  induction ns generalizing head ns' with
  | nil =>
      cases ns' with
      | nil => rfl
      | cons n ns' => exact absurd (h'.1.symm.trans h) h'.2.1
  | cons n ns ih =>
      obtain ⟨rfl, hn, hrest⟩ := h
      obtain ⟨rest, rfl, hrest'⟩ := h'.exists_cons hn
      rw [ih hrest hrest']

theorem Chain.suffix {pre : List α} (h : Chain next null head (pre ++ n :: ns)) :
    Chain next null (next n) ns := by
  induction pre generalizing head with
  | nil => exact h.2.2
  | cons m pre ih => exact ih h.2.2

theorem Chain.nodup (h : Chain next null head ns) : ns.Nodup := by
  induction ns generalizing head with
  | nil => exact List.nodup_nil
  | cons n ns ih =>
      obtain ⟨rfl, _, hrest⟩ := h
      refine List.nodup_cons.mpr ⟨fun hmem => ?_, ih hrest⟩
      -- a second visit would go on as the first one did
      obtain ⟨pre, post, rfl⟩ := List.append_of_mem hmem
      have hlen := congrArg List.length (hrest.unique hrest.suffix)
      rw [List.length_append, List.length_cons] at hlen
      omega

end FreeList
