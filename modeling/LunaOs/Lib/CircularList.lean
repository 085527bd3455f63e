import Mathlib.Data.List.Chain
import Mathlib.Data.List.Nodup
import Mathlib.Data.List.Rotate
import Mathlib.Logic.Function.Basic

/-! # Circular singly linked lists

`Circular next head l`: `head` points to the first of the distinct elements `l`, each of them links
to the one after it and the last one links back to the first.  The edits are those of a list that is
reached through its head only: an element is put before the head, an element other than the head is
taken out, and the head moves on. -/

namespace CircularList

variable {α : Type*} {next next' : α → Option α} {head : Option α} {l pre post : List α}
  {a b p q t : α}

/-- Each element of the list links to the one after it. -/
def Links (next : α → Option α) (l : List α) : Prop := l.IsChain fun a b => next a = some b

/-- `l` is the list from `head` on, and its last node leads back to its first. -/
structure Circular (next : α → Option α) (head : Option α) (l : List α) : Prop where
  head_eq : head = l.head?
  nodup : l.Nodup
  links : Links next (l ++ l.head?.toList)

/-! ### Links -/

@[simp] theorem links_singleton : Links next [a] := List.isChain_singleton a

@[simp] theorem links_cons_cons : Links next (a :: b :: l) ↔ next a = some b ∧ Links next (b :: l) :=
  List.isChain_cons_cons

theorem links_split : Links next (pre ++ a :: post) ↔ Links next (pre ++ [a]) ∧ Links next (a :: post) :=
  List.isChain_split

/-- Links only read what is behind the elements before the last. -/
theorem Links.congr (h : Links next (l ++ [t])) (heq : ∀ a ∈ l, next' a = next a) :
    Links next' (l ++ [t]) := by
  induction l with
  | nil => exact links_singleton
  | cons a l ih =>
      have ha := heq a List.mem_cons_self
      have htail := fun b hb => heq b (List.mem_cons_of_mem a hb)
      cases l with
      | nil =>
          obtain ⟨hat, _⟩ := links_cons_cons.mp h
          exact links_cons_cons.mpr ⟨ha.trans hat, links_singleton⟩
      | cons b l =>
          obtain ⟨hab, hrest⟩ := links_cons_cons.mp h
          exact links_cons_cons.mpr ⟨ha.trans hab, ih hrest htail⟩

/-! ### What a circular list says of its elements -/

theorem circular_nil : Circular next none [] := ⟨rfl, List.nodup_nil, List.isChain_nil⟩

theorem circular_singleton (h : next a = some a) : Circular next (some a) [a] :=
  ⟨rfl, List.nodup_singleton a, links_cons_cons.mpr ⟨h, links_singleton⟩⟩

theorem Circular.eq_nil (h : Circular next none l) : l = [] :=
  List.head?_eq_none_iff.mp h.head_eq.symm

theorem Circular.exists_cons (h : Circular next (some a) l) : ∃ rest, l = a :: rest := by
  cases l with
  | nil => cases h.head_eq
  | cons b rest =>
      obtain rfl := Option.some.inj h.head_eq
      exact ⟨rest, rfl⟩

theorem Circular.head_mem (h : Circular next (some a) l) : a ∈ l := by
  obtain ⟨rest, rfl⟩ := h.exists_cons
  exact List.mem_cons_self

theorem Circular.next_eq (h : Circular next head (pre ++ a :: b :: post)) : next a = some b := by
  have hlinks := h.links
  rw [List.append_assoc] at hlinks
  exact (links_cons_cons.mp (links_split.mp hlinks).2).1

theorem Circular.next_last (h : Circular next head (l ++ [t])) : next t = head := by
  have hlinks := h.links
  obtain ⟨a, ha⟩ : ∃ a, (l ++ [t]).head? = some a := by
    cases l with
    | nil => exact ⟨t, rfl⟩
    | cons a l => exact ⟨a, rfl⟩
  rw [ha, List.append_assoc] at hlinks
  rw [h.head_eq, ha]
  exact (links_cons_cons.mp (links_split.mp hlinks).2).1

theorem Circular.ne_head (h : Circular next (some a) (pre ++ p :: b :: post)) : b ≠ a := by
  rintro rfl
  obtain ⟨rest, hrest⟩ := h.exists_cons
  have hnodup := h.nodup
  cases pre with
  | nil =>
      obtain rfl := (List.cons.inj hrest).1
      simp at hnodup
  | cons c pre =>
      obtain rfl := (List.cons.inj hrest).1
      simp at hnodup

/-- No element of a circular list leads out of it. -/
theorem Circular.next_mem (h : Circular next head l) (ha : a ∈ l) : ∃ b ∈ l, next a = some b := by
  obtain ⟨pre, post, rfl⟩ := List.append_of_mem ha
  cases post with
  | cons b post => exact ⟨b, by simp, h.next_eq⟩
  | nil =>
      have hnext := h.next_last
      have hhead := h.head_eq
      cases head with
      | none => simp at hhead
      | some b => exact ⟨b, List.mem_of_mem_head? hhead.symm, hnext⟩

theorem Circular.mem_of_links (h : Circular next head l) (hb : b ∈ l) (hlinks : Links next (b :: post))
    (ha : a ∈ post) : a ∈ l := by
  induction post generalizing b with
  | nil => cases ha
  | cons c post ih =>
      obtain ⟨hbc, hrest⟩ := links_cons_cons.mp hlinks
      obtain ⟨d, hd, hnext⟩ := h.next_mem hb
      obtain rfl := Option.some.inj (hbc.symm.trans hnext)
      rcases List.mem_cons.mp ha with rfl | ha
      · exact hd
      · exact ih hd hrest ha

theorem Circular.mem_of_mem {l' : List α} (h : Circular next head l) (h' : Circular next head l')
    (ha : a ∈ l') : a ∈ l := by
  cases l' with
  | nil => cases ha
  | cons b post =>
      obtain rfl := h'.head_eq
      have hlinks : Links next (b :: (post ++ [b])) := h'.links
      rcases List.mem_cons.mp ha with rfl | ha
      · exact h.head_mem
      · exact h.mem_of_links h.head_mem hlinks (List.mem_append_left _ ha)

/-- **A list that runs off its end is not circular.** -/
theorem not_circular_of_links (hlinks : Links next (b :: post)) (hp : p ∈ b :: post)
    (hnone : next p = none) : ¬ Circular next (some b) l := by
  intro h
  have hmem : p ∈ l := by
    rcases List.mem_cons.mp hp with rfl | hp
    · exact h.head_mem
    · exact h.mem_of_links h.head_mem hlinks hp
  obtain ⟨c, _, hnext⟩ := h.next_mem hmem
  rw [hnone] at hnext
  cases hnext

/-- An element that links to itself is the only one. -/
theorem Circular.eq_singleton (h : Circular next head l) (ha : a ∈ l) (hself : next a = some a) :
    l = [a] := by
  have hnodup := h.nodup
  obtain ⟨pre, post, rfl⟩ := List.append_of_mem ha
  cases post with
  | cons b post =>
      obtain rfl := Option.some.inj (hself.symm.trans h.next_eq)
      simp [List.nodup_append] at hnodup
  | nil =>
      have hhead := h.next_last.symm.trans hself
      cases pre with
      | nil => rfl
      | cons b pre =>
          obtain rfl := Option.some.inj (h.head_eq.symm.trans hhead)
          simp at hnodup

/-! ### Edits -/

theorem Circular.congr (h : Circular next head l) (heq : ∀ a ∈ l, next' a = next a) :
    Circular next' head l := by
  refine ⟨h.head_eq, h.nodup, ?_⟩
  have hlinks := h.links
  cases l with
  | nil => exact List.isChain_nil
  | cons a l => exact hlinks.congr heq

theorem Circular.rotate (h : Circular next head l) : Circular next (head.bind next) (l.rotate 1) := by
  have hnodup : (l.rotate 1).Nodup := List.nodup_rotate.mpr h.nodup
  cases l with
  | nil =>
      rw [h.head_eq]
      exact circular_nil
  | cons a l =>
      have hhead : head = some a := h.head_eq
      have hlinks : Links next (a :: (l ++ [a])) := h.links
      rw [hhead, Option.bind_some]
      rw [List.rotate_cons_succ, List.rotate_zero] at hnodup ⊢
      cases l with
      | nil =>
          obtain ⟨ha, _⟩ := links_cons_cons.mp hlinks
          exact ⟨ha, hnodup, hlinks⟩
      | cons b l =>
          obtain ⟨hab, hrest⟩ := links_cons_cons.mp hlinks
          refine ⟨hab, hnodup, ?_⟩
          show Links next (b :: (l ++ [a]) ++ [b])
          rw [← List.cons_append, List.append_assoc]
          exact links_split.mpr ⟨hrest, links_cons_cons.mpr ⟨hab, links_singleton⟩⟩

section
variable [DecidableEq α]

/-- A new element between the last one and the head. -/
theorem Circular.insert (h : Circular next (some a) (l ++ [t])) (hp : p ∉ l ++ [t]) :
    Circular (Function.update (Function.update next t (some p)) p (some a)) (some a)
      (l ++ [t, p]) := by
  have hsplit : l ++ [t, p] = (l ++ [t]) ++ [p] := by simp
  have hhead : (l ++ [t, p]).head? = some a := by
    rw [hsplit, List.head?_append_of_ne_nil _ (by simp), ← h.head_eq]
  have hlast : t ∉ l := fun ht => (List.nodup_append.mp h.nodup).2.2 t ht t List.mem_cons_self rfl
  have hpt : t ≠ p := fun htp => hp (htp ▸ by simp)
  refine ⟨hhead.symm, ?_, ?_⟩
  · rw [hsplit]
    exact List.nodup_append.mpr ⟨h.nodup, List.nodup_singleton p,
      fun x hx y hy hxy => hp ((hxy.trans (List.mem_singleton.mp hy)) ▸ hx)⟩
  · have hlinks := h.links
    rw [← h.head_eq] at hlinks
    have hold : Links next (l ++ [t]) := by
      rw [List.append_assoc] at hlinks
      exact (links_split.mp hlinks).1
    rw [hhead, List.append_assoc]
    refine links_split.mpr ⟨hold.congr fun x hx => ?_, ?_⟩
    · have hxp : x ≠ p := by
        rintro rfl
        exact hp (List.mem_append_left _ hx)
      have hxt : x ≠ t := by
        rintro rfl
        exact hlast hx
      rw [Function.update_of_ne hxp, Function.update_of_ne hxt]
    · refine links_cons_cons.mpr ⟨?_, links_cons_cons.mpr ⟨?_, links_singleton⟩⟩
      · rw [Function.update_of_ne hpt, Function.update_self]
      · rw [Function.update_self]

theorem Circular.remove (h : Circular next head (pre ++ q :: p :: post)) :
    Circular (Function.update (Function.update next q (next p)) p none) head
      (pre ++ q :: post) := by
  have hnodup : (pre ++ q :: post).Nodup := h.nodup.sublist (by simp)
  have hhead : (pre ++ q :: post).head? = (pre ++ q :: p :: post).head? := by
    cases pre <;> rfl
  obtain ⟨a, ha⟩ : ∃ a, (pre ++ q :: p :: post).head? = some a := by
    cases pre with
    | nil => exact ⟨q, rfl⟩
    | cons b pre => exact ⟨b, rfl⟩
  have hother : ∀ x, x ∈ pre ∨ x ∈ post →
      Function.update (Function.update next q (next p)) p none x = next x := by
    have hdis := h.nodup
    simp only [List.nodup_append, List.nodup_cons, List.mem_cons] at hdis
    intro x hx
    have hxp : x ≠ p := by grind
    have hxq : x ≠ q := by grind
    rw [Function.update_of_ne hxp, Function.update_of_ne hxq]
  have hqp : q ≠ p := by
    have hdis := (List.nodup_append.mp h.nodup).2.1
    exact fun hqp => (List.nodup_cons.mp hdis).1 (hqp ▸ List.mem_cons_self)
  refine ⟨h.head_eq.trans hhead.symm, hnodup, ?_⟩
  have hlinks := h.links
  rw [ha, List.append_assoc] at hlinks
  obtain ⟨hpre, hrest⟩ := links_split.mp hlinks
  obtain ⟨_, hpost⟩ := links_cons_cons.mp hrest
  rw [hhead, ha, List.append_assoc]
  refine links_split.mpr ⟨hpre.congr fun x hx => hother x (.inl hx), ?_⟩
  have hq : Function.update (Function.update next q (next p)) p none q = next p := by
    rw [Function.update_of_ne hqp, Function.update_self]
  -- the element after `p` is the next one of the list or, behind the last, the head
  cases post with
  | nil =>
      obtain ⟨hpa, _⟩ := links_cons_cons.mp hpost
      exact links_cons_cons.mpr ⟨hq.trans hpa, links_singleton⟩
  | cons c post =>
      obtain ⟨hpc, hrest⟩ := links_cons_cons.mp hpost
      exact links_cons_cons.mpr ⟨hq.trans hpc, Links.congr hrest fun x hx => hother x (.inr hx)⟩

/-- **The head of a list with other elements, taken out without a new link of the last one**: what the
next element leads to runs off its end. -/
theorem Circular.not_circular_behead (h : Circular next (some p) l) (hp : next p ≠ some p)
    (l' : List α) : ¬ Circular (Function.update next p none) (next p) l' := by
  obtain ⟨rest, rfl⟩ := h.exists_cons
  cases rest with
  | nil => exact absurd (h.next_last (l := [])) hp
  | cons b rest =>
      have hcons := List.nodup_cons.mp h.nodup
      have hlinks : Links next (p :: ((b :: rest) ++ [p])) := h.links
      obtain ⟨hpb, hrest⟩ := links_cons_cons.mp hlinks
      rw [hpb]
      have hlinks' : Links (Function.update next p none) ((b :: rest) ++ [p]) := by
        refine Links.congr hrest fun x hx => ?_
        have hxp : x ≠ p := by
          rintro rfl
          exact hcons.1 hx
        exact Function.update_of_ne hxp _ _
      exact not_circular_of_links hlinks' (by simp) (Function.update_self _ _ _)

end

end CircularList
