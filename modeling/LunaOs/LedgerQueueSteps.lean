import LunaOs.LedgerQueue
import Mathlib.Logic.Function.Iterate

/-! # Push and pop, one memory access at a time

`ledger_queue_push` reads `head`, reads `tail`, writes the slot and writes `head`;
`ledger_queue_pop` reads `tail`, reads `head`, reads the slot and writes `tail`.  `pushStep` and
`popStep` make one such access, in program order, from a program counter that holds the local
variables.  The compiler barrier of the source keeps the slot access before the index write, so
this is also the order of the object code.

The slot access `lq.events[head] = *ev` is a copy of a whole structure and not one access.  A
`StructCopy` is any way of carrying it out as a sequence of partial copies (field by field, word
by word, byte by byte); what is proved holds for all of them. -/

namespace LunaOs

/-- A structure assignment `*dst = *src` as a sequence of partial copies `piece dst src` that
together make `dst` equal to `src`. -/
structure StructCopy (α : Type) where
  pieces : List (α → α → α)
  copies : ∀ dst src, pieces.foldl (fun d piece => piece d src) dst = src

/-- The program counter of `ledger_queue_push`, named by what it has done. -/
inductive PushPc where
  | entered
  | readHead (head : QueueIndex)
  | copying (head next : QueueIndex) (rest : List (LedgerEvent → LedgerEvent → LedgerEvent))
  | returned (accepted : Bool)

/-- The program counter of `ledger_queue_pop(out)`.  `out` holds the caller's structure. -/
inductive PopPc where
  | entered (out : LedgerEvent)
  | readTail (out : LedgerEvent) (tail : QueueIndex)
  | copying (out : LedgerEvent) (tail : QueueIndex)
      (rest : List (LedgerEvent → LedgerEvent → LedgerEvent))
  | returned (result : Option LedgerEvent)

/-- The return value of a push that has returned. -/
def PushPc.result : PushPc → Option Bool
  | .returned accepted => some accepted
  | _ => none

theorem PushPc.eq_returned {pc : PushPc} {b : Bool} (h : pc.result = some b) : pc = .returned b := by
  cases pc with
  | returned b' => exact congrArg _ (Option.some.inj h)
  | entered => cases h
  | readHead _ => cases h
  | copying _ _ _ => cases h

/-- The return value of a pop that has returned; `none` stands for `false`. -/
def PopPc.result : PopPc → Option (Option LedgerEvent)
  | .returned r => some r
  | _ => none

theorem PopPc.eq_returned {pc : PopPc} {r : Option LedgerEvent} (h : pc.result = some r) : pc = .returned r := by
  cases pc with
  | returned r' => exact congrArg _ (Option.some.inj h)
  | entered _ => cases h
  | readTail _ _ => cases h
  | copying _ _ _ => cases h

section
variable (c : StructCopy LedgerEvent)

/-- The next access of a push of `ev`. -/
def pushStep (ev : LedgerEvent) : PushPc → LedgerQueue → PushPc × LedgerQueue
  | .entered, q => (.readHead q.head, q)
  | .readHead head, q =>
      let next := head.next
      if next = q.tail then (.returned false, q) else (.copying head next c.pieces, q)
  | .copying head next (piece :: rest), q =>
      (.copying head next rest,
        { q with events := Function.update q.events head.slot (piece (q.events head.slot) ev) })
  | .copying _ next [], q => (.returned true, { q with head := next })
  | .returned accepted, q => (.returned accepted, q)

/-- The next access of a pop. -/
def popStep : PopPc → LedgerQueue → PopPc × LedgerQueue
  | .entered out, q => (.readTail out q.tail, q)
  | .readTail out tail, q =>
      if tail = q.head then (.returned none, q) else (.copying out tail c.pieces, q)
  | .copying out tail (piece :: rest), q =>
      (.copying (piece out (q.events tail.slot)) tail rest, q)
  | .copying out tail [], q => (.returned (some out), { q with tail := tail.next })
  | .returned result, q => (.returned result, q)

/-- `n` accesses of a push. -/
def pushSteps (ev : LedgerEvent) : ℕ → PushPc × LedgerQueue → PushPc × LedgerQueue
  | 0, s => s
  | n + 1, s => pushSteps ev n (pushStep c ev s.1 s.2)

/-- `n` accesses of a pop. -/
def popSteps : ℕ → PopPc × LedgerQueue → PopPc × LedgerQueue
  | 0, s => s
  | n + 1, s => popSteps n (popStep c s.1 s.2)

theorem pushSteps_eq_iterate (ev : LedgerEvent) (n : ℕ) (s : PushPc × LedgerQueue) :
    pushSteps c ev n s = (fun s => pushStep c ev s.1 s.2)^[n] s := by
  induction n generalizing s with
  | zero => rfl
  | succ n ih => exact ih _

theorem popSteps_eq_iterate (n : ℕ) (s : PopPc × LedgerQueue) :
    popSteps c n s = (fun s => popStep c s.1 s.2)^[n] s := by
  induction n generalizing s with
  | zero => rfl
  | succ n ih => exact ih _

/-- Every push and pop returns within this many accesses. -/
def accessBound : ℕ := c.pieces.length + 3

end

/-! ### Undisturbed, the accesses make up the operations of the source -/

section
variable {c : StructCopy LedgerEvent}

theorem pushSteps_returned (ev : LedgerEvent) (n : ℕ) (b : Bool) (q : LedgerQueue) :
    pushSteps c ev n (.returned b, q) = (.returned b, q) := by
  induction n with
  | zero => rfl
  | succ n ih => exact ih

theorem popSteps_returned (n : ℕ) (r : Option LedgerEvent) (q : LedgerQueue) :
    popSteps c n (.returned r, q) = (.returned r, q) := by
  induction n with
  | zero => rfl
  | succ n ih => exact ih

/-- Once the copy has begun a push finishes it, publishes and returns `true`. -/
theorem pushSteps_copying (ev : LedgerEvent) (head next : QueueIndex)
    (rest : List (LedgerEvent → LedgerEvent → LedgerEvent)) (q : LedgerQueue) {n : ℕ}
    (hn : rest.length < n) :
    pushSteps c ev n (.copying head next rest, q) = (.returned true,
      { q with
        events := Function.update q.events head.slot
          (rest.foldl (fun d piece => piece d ev) (q.events head.slot))
        head := next }) := by
  induction rest generalizing q n with
  | nil =>
      obtain ⟨m, rfl⟩ : ∃ m, n = m + 1 := ⟨n - 1, by simp at hn; omega⟩
      simp only [pushSteps, pushStep, pushSteps_returned, List.foldl_nil, Function.update_eq_self]
  | cons piece rest ih =>
      obtain ⟨m, rfl⟩ : ∃ m, n = m + 1 := ⟨n - 1, by simp at hn; omega⟩
      simp only [pushSteps, pushStep]
      rw [ih _ (by simpa using hn)]
      simp only [Function.update_self, Function.update_idem, List.foldl_cons]

/-- A push that has read `head` and then finds a free slot puts its event into the slot it knows,
whatever `head` has become by then. -/
theorem pushSteps_readHead (ev : LedgerEvent) {head : QueueIndex} {q : LedgerQueue}
    (hfull : head.next ≠ q.tail) {n : ℕ} (hn : c.pieces.length + 1 < n) :
    pushSteps c ev n (.readHead head, q) = (.returned true,
      { q with events := Function.update q.events head.slot ev, head := head.next }) := by
  obtain ⟨m, rfl⟩ : ∃ m, n = m + 1 := ⟨n - 1, by omega⟩
  simp only [pushSteps, pushStep, hfull, if_false]
  rw [pushSteps_copying ev _ _ _ _ (by omega), c.copies]

theorem pushSteps_readHead_full (ev : LedgerEvent) {head : QueueIndex} {q : LedgerQueue}
    (hfull : head.next = q.tail) {n : ℕ} (hn : 0 < n) :
    pushSteps c ev n (.readHead head, q) = (.returned false, q) := by
  obtain ⟨m, rfl⟩ : ∃ m, n = m + 1 := ⟨n - 1, by omega⟩
  simp only [pushSteps, pushStep, hfull, if_true, pushSteps_returned]

theorem popSteps_copying (out : LedgerEvent) (tail : QueueIndex)
    (rest : List (LedgerEvent → LedgerEvent → LedgerEvent)) (q : LedgerQueue) {n : ℕ}
    (hn : rest.length < n) :
    popSteps c n (.copying out tail rest, q) = (.returned (some
      (rest.foldl (fun d piece => piece d (q.events tail.slot)) out)),
      { q with tail := tail.next }) := by
  induction rest generalizing out n with
  | nil =>
      obtain ⟨m, rfl⟩ : ∃ m, n = m + 1 := ⟨n - 1, by simp at hn; omega⟩
      simp only [popSteps, popStep, popSteps_returned, List.foldl_nil]
  | cons piece rest ih =>
      obtain ⟨m, rfl⟩ : ∃ m, n = m + 1 := ⟨n - 1, by simp at hn; omega⟩
      simp only [popSteps, popStep]
      rw [ih _ (by simpa using hn), List.foldl_cons]

theorem pushSteps_eq_push (ev : LedgerEvent) (q : LedgerQueue) :
    pushSteps c ev (accessBound c) (.entered, q) =
      (.returned (ledgerQueuePush q ev).2, (ledgerQueuePush q ev).1) := by
  show pushSteps c ev (c.pieces.length + 2) (.readHead q.head, q) = _
  by_cases hfull : q.head.next = q.tail
  · rw [pushSteps_readHead_full ev hfull (by omega)]
    simp [ledgerQueuePush, hfull]
  · rw [pushSteps_readHead ev hfull (by omega)]
    simp [ledgerQueuePush, hfull]

theorem popSteps_eq_pop (out : LedgerEvent) (q : LedgerQueue) :
    popSteps c (accessBound c) (.entered out, q) =
      match ledgerQueuePop q with
      | none => (.returned none, q)
      | some (ev, q') => (.returned (some ev), q') := by
  rw [accessBound, popSteps, popSteps]
  simp only [popStep, ledgerQueuePop]
  split_ifs with h
  · exact popSteps_returned _ none q
  · rw [popSteps_copying _ _ _ _ (Nat.lt_succ_self _), c.copies]

end

end LunaOs
