import LunaOs.Lib.Ring
import LunaOs.StringOps

/-! # The ledger event queue of `kernel/ledger_queue.c`

A ring of `LEDGER_QUEUE_SIZE = 1024` slots with a `head` written by the producer and a `tail`
written by the consumer.  One slot always stays free, so that `head = tail` means empty.

Both indices are `uint32_t` and are only ever masked with `QUEUE_MASK`; a `QueueIndex` is such an
index together with the fact that it is a valid subscript of `events`.  `LedgerEvent` leaves out
the field `reserved`, which no function reads or sets.

The abstract queue is a list: `pending q` are the events between `tail` and `head`, oldest first.
`ledgerQueuePush_spec` and `ledgerQueuePop_spec` say what push and pop do to that list. -/

namespace LunaOs

open Ring

/-- Number of slots; a power of two. -/
abbrev LEDGER_QUEUE_SIZE : ℕ := 1024

def QUEUE_MASK : UInt32 := 1023

abbrev LEDGER_TARGET_LEN : ℕ := 64

/-- `LedgerEvent` -/
structure LedgerEvent where
  actionType : UInt8
  streamId : UInt8
  timestamp : UInt64
  vfsNodeId : UInt32
  partialHash : UInt64
  target : Vector UInt8 LEDGER_TARGET_LEN
deriving DecidableEq

/-- The event after `luna_memset(&ev, 0, sizeof(LedgerEvent))`. -/
def LedgerEvent.zero : LedgerEvent := ⟨0, 0, 0, 0, 0, Vector.replicate LEDGER_TARGET_LEN 0⟩

/-! ### Indices -/

/-- A subscript of `events`. -/
structure QueueIndex where
  val : UInt32
  lt : val.toNat < LEDGER_QUEUE_SIZE
deriving DecidableEq

theorem toNat_and_mask (x : UInt32) : (x &&& QUEUE_MASK).toNat = x.toNat % 1024 := by
  have h : QUEUE_MASK.toNat = 2 ^ 10 - 1 := rfl
  rw [UInt32.toNat_and, h, Nat.and_two_pow_sub_one_eq_mod]

theorem toNat_and_mask_lt (x : UInt32) : (x &&& QUEUE_MASK).toNat < LEDGER_QUEUE_SIZE := by
  rw [toNat_and_mask]; exact Nat.mod_lt _ (by decide)

namespace QueueIndex

/-- The slot an index names. -/
def slot (i : QueueIndex) : Fin LEDGER_QUEUE_SIZE := ⟨i.val.toNat, i.lt⟩

/-- `(i + 1) & QUEUE_MASK`. -/
def next (i : QueueIndex) : QueueIndex := ⟨(i.val + 1) &&& QUEUE_MASK, toNat_and_mask_lt _⟩

def zero : QueueIndex := ⟨0, by decide⟩

theorem toNat_lt (i : QueueIndex) : i.val.toNat < 1024 := i.lt

theorem toNat_next (i : QueueIndex) : i.next.val.toNat = (i.val.toNat + 1) % 1024 := by
  have hi := i.toNat_lt
  have h1 : UInt32.toNat 1 = 1 := rfl
  unfold next
  rw [toNat_and_mask, UInt32.toNat_add, h1]
  omega

theorem ext_toNat {i j : QueueIndex} (h : i.val.toNat = j.val.toNat) : i = j := by
  cases i with
  | mk v hv =>
      cases j with
      | mk w hw =>
          obtain rfl : v = w := UInt32.toNat_inj.mp h
          rfl

/-- The index names the cell of the counter `n`. -/
theorem slot_eq_iff (i : QueueIndex) (n : ℕ) :
    i.slot = cell LEDGER_QUEUE_SIZE n ↔ i.val.toNat = n % 1024 := Fin.ext_iff

theorem slot_next {i : QueueIndex} {n : ℕ} (h : i.slot = cell LEDGER_QUEUE_SIZE n) :
    i.next.slot = cell LEDGER_QUEUE_SIZE (n + 1) := by
  rw [slot_eq_iff] at h ⊢
  rw [toNat_next, h]
  omega

end QueueIndex

/-! ### The queue -/

/-- The ring and its two indices. -/
structure LedgerQueue where
  events : Fin LEDGER_QUEUE_SIZE → LedgerEvent
  head : QueueIndex
  tail : QueueIndex

def ledgerQueueInit : LedgerQueue := ⟨fun _ => LedgerEvent.zero, .zero, .zero⟩

/-- Returns the queue and whether the event was accepted. -/
def ledgerQueuePush (q : LedgerQueue) (ev : LedgerEvent) : LedgerQueue × Bool :=
  let head := q.head
  let next := head.next
  if next = q.tail then (q, false)
  else ({ q with events := Function.update q.events head.slot ev, head := next }, true)

/-- Returns the oldest event and the queue without it, or `none` where the source returns
`false`. -/
def ledgerQueuePop (q : LedgerQueue) : Option (LedgerEvent × LedgerQueue) :=
  let tail := q.tail
  if tail = q.head then none
  else some (q.events tail.slot, { q with tail := tail.next })

/-- The number of events that wait. -/
def ledgerQueueDepth (q : LedgerQueue) : UInt32 := (q.head.val - q.tail.val) &&& QUEUE_MASK

/-! ### The list of pending events -/

namespace LedgerQueue

/-- The events between `tail` and `head`, oldest first. -/
def pending (q : LedgerQueue) : List LedgerEvent :=
  window q.events q.tail.val.toNat (ledgerQueueDepth q).toNat

@[simp] theorem pending_length (q : LedgerQueue) :
    q.pending.length = (ledgerQueueDepth q).toNat := window_length _ _ _

theorem depth_toNat (q : LedgerQueue) : (ledgerQueueDepth q).toNat =
    (2 ^ 32 - q.tail.val.toNat + q.head.val.toNat) % 2 ^ 32 % 1024 := by
  unfold ledgerQueueDepth
  rw [toNat_and_mask, UInt32.toNat_sub]

theorem depth_lt (q : LedgerQueue) : (ledgerQueueDepth q).toNat < 1024 := by
  rw [depth_toNat]; omega

/-- When `tail` counts `t` and `head` counts `t + n`, less than a revolution apart, the depth
is `n`. -/
theorem depth_eq {q : LedgerQueue} {t n : ℕ} (ht : q.tail.slot = cell LEDGER_QUEUE_SIZE t)
    (hh : q.head.slot = cell LEDGER_QUEUE_SIZE (t + n)) (hn : n < 1024) :
    (ledgerQueueDepth q).toNat = n := by
  rw [QueueIndex.slot_eq_iff] at ht hh
  rw [depth_toNat, ht, hh]
  omega

theorem tail_slot (q : LedgerQueue) :
    q.tail.slot = cell LEDGER_QUEUE_SIZE q.tail.val.toNat := by
  rw [QueueIndex.slot_eq_iff, Nat.mod_eq_of_lt q.tail.toNat_lt]

theorem head_slot (q : LedgerQueue) : q.head.slot =
    cell LEDGER_QUEUE_SIZE (q.tail.val.toNat + (ledgerQueueDepth q).toNat) := by
  have hh := q.head.toNat_lt
  have ht := q.tail.toNat_lt
  rw [QueueIndex.slot_eq_iff, depth_toNat]
  omega

/-- Counting from any `t` that names the tail cell, the pending events are a window. -/
theorem pending_eq {q : LedgerQueue} {t n : ℕ} (ht : q.tail.slot = cell LEDGER_QUEUE_SIZE t)
    (hh : q.head.slot = cell LEDGER_QUEUE_SIZE (t + n)) (hn : n < 1024) :
    q.pending = window q.events t n := by
  unfold pending
  rw [depth_eq ht hh hn]
  apply window_congr
  rw [q.tail_slot, cell_eq_iff] at ht
  exact ht

theorem full_iff (q : LedgerQueue) : q.head.next = q.tail ↔ q.pending.length = 1023 := by
  have hd := q.depth_lt
  have ht := q.tail.toNat_lt
  have hs := (QueueIndex.slot_eq_iff _ _).mp (QueueIndex.slot_next q.head_slot)
  rw [pending_length]
  constructor
  · intro h
    rw [h] at hs
    omega
  · intro h
    apply QueueIndex.ext_toNat
    omega

theorem empty_iff (q : LedgerQueue) : q.tail = q.head ↔ q.pending = [] := by
  have hd := q.depth_lt
  have ht := q.tail.toNat_lt
  have hs := (QueueIndex.slot_eq_iff _ _).mp q.head_slot
  rw [← List.length_eq_zero_iff, pending_length]
  constructor
  · intro h
    rw [← h] at hs
    omega
  · intro h
    apply QueueIndex.ext_toNat
    omega

@[simp] theorem pending_init : ledgerQueueInit.pending = [] :=
  (empty_iff _).mp rfl

theorem pending_length_le (q : LedgerQueue) : q.pending.length ≤ 1023 := by
  have := q.depth_lt
  rw [pending_length]; omega

theorem not_full_iff (q : LedgerQueue) : q.head.next ≠ q.tail ↔ q.pending.length < 1023 := by
  have := q.pending_length_le
  rw [ne_eq, full_iff]
  omega

/-! ### What the accesses of push and pop do to the pending events -/

/-- The slot at `head` is not pending: writing it changes nothing yet. -/
theorem pending_write (q : LedgerQueue) (ev : LedgerEvent) :
    pending { q with events := Function.update q.events q.head.slot ev } = q.pending := by
  have hd := q.depth_lt
  show window (Function.update q.events q.head.slot ev) q.tail.val.toNat
    (ledgerQueueDepth q).toNat = window q.events q.tail.val.toNat (ledgerQueueDepth q).toNat
  rw [q.head_slot]
  exact window_update q.events ev le_rfl (show _ < _ + 1024 by omega)

/-- Advancing `head` publishes the event in the slot it leaves. -/
theorem pending_publish (q : LedgerQueue) (h : q.pending.length < 1023) :
    pending { q with head := q.head.next } = q.pending ++ [q.events q.head.slot] := by
  rw [pending_length] at h
  rw [pending_eq (q := ⟨q.events, q.head.next, q.tail⟩) (n := (ledgerQueueDepth q).toNat + 1)
    q.tail_slot (QueueIndex.slot_next q.head_slot) (by omega), window_snoc, ← q.head_slot]
  rfl

/-- Writing the free slot and then advancing `head` appends the event. -/
theorem pending_fill (q : LedgerQueue) (ev : LedgerEvent) (h : q.pending.length < 1023) :
    pending ⟨Function.update q.events q.head.slot ev, q.head.next, q.tail⟩ =
      q.pending ++ [ev] := by
  have hwrite := q.pending_write ev
  have hpublish := pending_publish { q with events := Function.update q.events q.head.slot ev }
    (by rw [hwrite]; exact h)
  simpa only [hwrite, Function.update_self] using hpublish

/-- Advancing `tail` gives up the oldest pending event, which is in the slot it leaves. -/
theorem pending_consume (q : LedgerQueue) (h : q.pending ≠ []) :
    q.pending = q.events q.tail.slot :: pending { q with tail := q.tail.next } := by
  have hlt := q.depth_lt
  have hhead := q.head_slot
  have hpos : 0 < (ledgerQueueDepth q).toNat := by
    rw [← pending_length]; exact List.length_pos_of_ne_nil h
  obtain ⟨n, hn⟩ : ∃ n, (ledgerQueueDepth q).toNat = n + 1 :=
    ⟨_, (Nat.succ_pred_eq_of_pos hpos).symm⟩
  rw [hn] at hlt hhead
  rw [pending_eq (q := ⟨q.events, q.head, q.tail.next⟩) (t := q.tail.val.toNat + 1) (n := n)
    (QueueIndex.slot_next q.tail_slot) (by rw [hhead]; congr 1; omega) (by omega)]
  unfold pending
  rw [hn, window_succ, q.tail_slot]

theorem head_slot_ne_tail_slot (q : LedgerQueue) (h : q.pending ≠ []) :
    q.head.slot ≠ q.tail.slot := by
  intro he
  rw [q.tail_slot, QueueIndex.slot_eq_iff, Nat.mod_eq_of_lt q.tail.toNat_lt] at he
  exact h ((empty_iff q).mp (QueueIndex.ext_toNat he.symm))

end LedgerQueue

open LedgerQueue

theorem ledgerQueuePush_spec (q : LedgerQueue) (ev : LedgerEvent) :
    (q.pending.length = 1023 ∧ ledgerQueuePush q ev = (q, false)) ∨
    (q.pending.length < 1023 ∧ (ledgerQueuePush q ev).2 = true ∧
      (ledgerQueuePush q ev).1.pending = q.pending ++ [ev]) := by
  by_cases hfull : q.head.next = q.tail
  · refine .inl ⟨(full_iff q).mp hfull, ?_⟩
    simp [ledgerQueuePush, hfull]
  · have hlt := (not_full_iff q).mp hfull
    refine .inr ⟨hlt, by simp [ledgerQueuePush, hfull], ?_⟩
    have hfill := q.pending_fill ev hlt
    simpa only [ledgerQueuePush, hfull, if_false] using hfill

theorem ledgerQueuePush_snd (q : LedgerQueue) (ev : LedgerEvent) :
    (ledgerQueuePush q ev).2 = true ↔ q.pending.length < 1023 := by
  rcases ledgerQueuePush_spec q ev with ⟨h, he⟩ | ⟨h, he, _⟩
  · rw [he]; simp [h]
  · simp only [he, h]

theorem pending_push (q : LedgerQueue) (ev : LedgerEvent) :
    (ledgerQueuePush q ev).1.pending =
      if q.pending.length < 1023 then q.pending ++ [ev] else q.pending := by
  rcases ledgerQueuePush_spec q ev with ⟨h, he⟩ | ⟨h, _, he⟩
  · rw [he, if_neg (by omega)]
  · rw [he, if_pos h]

/-- A pop takes the oldest pending event, and returns `none` exactly when there is none. -/
theorem ledgerQueuePop_spec (q : LedgerQueue) :
    (q.pending = [] ∧ ledgerQueuePop q = none) ∨
    ∃ ev q', ledgerQueuePop q = some (ev, q') ∧ q.pending = ev :: q'.pending := by
  by_cases hempty : q.tail = q.head
  · refine .inl ⟨(empty_iff q).mp hempty, ?_⟩
    simp [ledgerQueuePop, hempty]
  · have hne : q.pending ≠ [] := fun h => hempty ((empty_iff q).mpr h)
    exact .inr ⟨q.events q.tail.slot, { q with tail := q.tail.next },
      by simp [ledgerQueuePop, hempty], q.pending_consume hne⟩

end LunaOs
