import LunaOs.LedgerQueueSteps
import Mathlib.Data.List.Perm.Subperm

/-! # A push preempted by a push

The source calls `ledger_queue_push` "interrupt context safe".  Here a push of `a` is stopped
after some of its accesses, a push of `b` runs from beginning to end in its place, and the first
push then goes on with the local variables it had.

Both pushes read the same `head`, so both write the same slot and publish the same index: one of
two accepted events is lost, unless neither is accepted because the queue is full. -/

namespace LunaOs

open LedgerQueue

/-- What `fuel` calls of pop return, up to the first that returns `false`. -/
def drain : ℕ → LedgerQueue → List LedgerEvent
  | 0, _ => []
  | fuel + 1, q =>
      match ledgerQueuePop q with
      | none => []
      | some (ev, q') => ev :: drain fuel q'

theorem drain_eq_pending (q : LedgerQueue) {fuel : ℕ} (h : q.pending.length ≤ fuel) :
    drain fuel q = q.pending := by
  induction fuel generalizing q with
  | zero => exact (List.length_eq_zero_iff.mp (Nat.le_zero.mp h)).symm
  | succ fuel ih =>
      unfold drain
      rcases ledgerQueuePop_spec q with ⟨hnil, hpop⟩ | ⟨ev, q', hpop, hcons⟩
      · rw [hpop, hnil]
      · rw [hcons, List.length_cons] at h
        rw [hpop, hcons]
        show ev :: drain fuel q' = ev :: q'.pending
        rw [ih q' (by omega)]

/-- The events of `ledgerQueueDepth q` pops. -/
def drained (q : LedgerQueue) : List LedgerEvent := drain (ledgerQueueDepth q).toNat q

@[simp] theorem drained_eq_pending (q : LedgerQueue) : drained q = q.pending :=
  drain_eq_pending q (pending_length q).le

/-- `LedgerEvent` copied field by field. -/
def eventCopy : StructCopy LedgerEvent where
  pieces := [
    fun dst src => { dst with actionType := src.actionType },
    fun dst src => { dst with streamId := src.streamId },
    fun dst src => { dst with timestamp := src.timestamp },
    fun dst src => { dst with vfsNodeId := src.vfsNodeId },
    fun dst src => { dst with partialHash := src.partialHash },
    fun dst src => { dst with target := src.target }]
  copies _ _ := rfl

/-- What two pushes leave behind: their return values and the queue. -/
structure Preempted where
  first : Option Bool
  second : Bool
  lq : LedgerQueue

section
variable (c : StructCopy LedgerEvent)

/-- The push of `a` makes `n` accesses, a whole push of `b` runs, the push of `a` returns. -/
def preemptedPush (n : ℕ) (a b : LedgerEvent) (q : LedgerQueue) : Preempted :=
  let s := pushSteps c a n (.entered, q)
  let r := ledgerQueuePush s.2 b
  let t := pushSteps c a (accessBound c) (s.1, r.1)
  ⟨t.1.result, r.2, t.2⟩

end

/-- The events accepted by the two pushes. -/
def Preempted.accepted (p : Preempted) (a b : LedgerEvent) : List LedgerEvent :=
  (if p.first = some true then [a] else []) ++ (if p.second then [b] else [])

/-- Every accepted event, those already pending in `q` included, is delivered as often as it was
accepted. -/
def Preempted.DeliveredOnce (p : Preempted) (q : LedgerQueue) (a b : LedgerEvent) : Prop :=
  ∀ ev ∈ q.pending ++ p.accepted a b,
    (drained p.lq).count ev = (q.pending ++ p.accepted a b).count ev

section
variable {c : StructCopy LedgerEvent} {q : LedgerQueue} {a b : LedgerEvent} {n : ℕ}

/-- Where a push that has read `head` and has not returned may be, and what it has done to `q`
by then: the slot it writes holds something that nobody has been told of yet. -/
def Middle (c : StructCopy LedgerEvent) (q : LedgerQueue) : PushPc → LedgerQueue → Prop
  | .entered, _ => False
  | .readHead head, q' => head = q.head ∧ q' = q
  | .copying head next rest, q' =>
      head = q.head ∧ next = q.head.next ∧ q.head.next ≠ q.tail ∧
        rest.length ≤ c.pieces.length ∧
        ∃ slot, q' = { q with events := Function.update q.events q.head.slot slot }
  | .returned _, _ => True

theorem middle_pushStep {pc : PushPc} {q' : LedgerQueue} (h : Middle c q pc q') :
    Middle c q (pushStep c a pc q').1 (pushStep c a pc q').2 := by
  cases pc with
  | entered => exact h.elim
  | readHead head =>
      obtain ⟨rfl, rfl⟩ := h
      by_cases hfull : q'.head.next = q'.tail
      · simp [pushStep, hfull, Middle]
      · simp only [pushStep, hfull, if_false]
        exact ⟨rfl, rfl, hfull, le_rfl, q'.events q'.head.slot,
          by rw [Function.update_eq_self]⟩
  | copying head next rest =>
      obtain ⟨rfl, rfl, hfull, hlen, slot, rfl⟩ := h
      cases rest with
      | nil => trivial
      | cons piece rest =>
          refine ⟨rfl, rfl, hfull, by simp at hlen; omega, piece slot a, ?_⟩
          simp only [pushStep, Function.update_self, Function.update_idem]
  | returned r => trivial

theorem middle_pushSteps {pc : PushPc} {q' : LedgerQueue} (h : Middle c q pc q') :
    Middle c q (pushSteps c a n (pc, q')).1 (pushSteps c a n (pc, q')).2 := by
  induction n generalizing pc q' with
  | zero => exact h
  | succ n ih => exact ih (middle_pushStep h)

theorem preemptedPush_full (hfull : q.head.next = q.tail) (hn : 0 < n)
    (hpc : (pushSteps c a n (.entered, q)).1.result = none) :
    preemptedPush c n a b q = ⟨some false, false, q⟩ := by
  obtain ⟨m, rfl⟩ : ∃ m, n = m + 1 := ⟨n - 1, by omega⟩
  cases m with
  | zero =>
      have hb : ledgerQueuePush q b = (q, false) := by simp [ledgerQueuePush, hfull]
      have hfirst : pushSteps c a 1 (.entered, q) = (.readHead q.head, q) := rfl
      have hlast := pushSteps_readHead_full (c := c) a hfull (n := accessBound c)
        (by rw [accessBound]; omega)
      simp only [preemptedPush, hfirst, hb, hlast]
      rfl
  | succ m =>
      simp [pushSteps, pushStep, hfull, pushSteps_returned, PushPc.result] at hpc

/-- If the queue is not full both pushes are accepted but one event is added. -/
theorem preemptedPush_not_full (hfull : q.head.next ≠ q.tail) (hn : 0 < n)
    (hpc : (pushSteps c a n (.entered, q)).1.result = none) :
    (preemptedPush c n a b q).first = some true ∧ (preemptedPush c n a b q).second = true ∧
      ∃ ev, (preemptedPush c n a b q).lq.pending = q.pending ++ [ev] := by
  obtain ⟨m, rfl⟩ : ∃ m, n = m + 1 := ⟨n - 1, by omega⟩
  have hstart : Middle c q (.readHead q.head) q := ⟨rfl, rfl⟩
  have hmid : Middle c q (pushSteps c a m (.readHead q.head, q)).1
      (pushSteps c a m (.readHead q.head, q)).2 := middle_pushSteps hstart
  have hsplit : pushSteps c a (m + 1) (.entered, q) =
      pushSteps c a m (.readHead q.head, q) := rfl
  have hlt := (not_full_iff q).mp hfull
  unfold preemptedPush
  rw [hsplit] at hpc ⊢
  generalize pushSteps c a m (.readHead q.head, q) = s at hmid hpc
  obtain ⟨pc, q'⟩ := s
  change Middle c q pc q' at hmid
  cases pc with
  | entered => exact hmid.elim
  | readHead head =>
      obtain ⟨rfl, rfl⟩ := hmid
      have hlast := pushSteps_readHead (c := c) a
        (q := ⟨Function.update q'.events q'.head.slot b, q'.head.next, q'.tail⟩) hfull
        (n := accessBound c) (by rw [accessBound]; omega)
      simp only [ledgerQueuePush, hfull, if_false, hlast]
      refine ⟨rfl, trivial, a, ?_⟩
      simp only [Function.update_idem]
      exact pending_fill q' _ hlt
  | copying head next rest =>
      obtain ⟨rfl, rfl, -, hlen, slot, rfl⟩ := hmid
      simp only [ledgerQueuePush, hfull, if_false]
      rw [pushSteps_copying a _ _ _ _ (by rw [accessBound]; omega)]
      refine ⟨rfl, trivial, rest.foldl (fun d piece => piece d a) b, ?_⟩
      simp only [Function.update_idem, Function.update_self]
      exact pending_fill q _ hlt
  | returned r => simp [PushPc.result] at hpc

/-- **A preempted push is safe exactly when the queue is full**, at every point of preemption. -/
theorem preemptedPush_deliveredOnce_iff (hn : 0 < n)
    (hpc : (pushSteps c a n (.entered, q)).1.result = none) :
    (preemptedPush c n a b q).DeliveredOnce q a b ↔ (ledgerQueueDepth q).toNat = 1023 := by
  rw [← pending_length, ← full_iff]
  constructor
  · intro h
    by_contra hfull
    obtain ⟨hfirst, hsecond, ev, hpend⟩ := preemptedPush_not_full (b := b) hfull hn hpc
    have hacc : (preemptedPush c n a b q).accepted a b = [a, b] := by
      simp [Preempted.accepted, hfirst, hsecond]
    unfold Preempted.DeliveredOnce at h
    rw [hacc, drained_eq_pending, hpend] at h
    -- counting, two accepted events do not fit in the one slot
    have hsub : (q.pending ++ [a, b]).Subperm (q.pending ++ [ev]) :=
      List.subperm_ext_iff.mpr fun x hx => (h x hx).ge
    have := hsub.length_le
    simp at this
  · intro hfull
    rw [preemptedPush_full hfull hn hpc]
    intro ev _
    simp [Preempted.accepted]

end

/-- A full queue: 1023 events between `tail = 0` and `head = 1023`. -/
def fullQueue : LedgerQueue := ⟨fun _ => LedgerEvent.zero, ⟨1023, by decide⟩, .zero⟩

theorem preemptedPush_deliveredOnce_fullQueue :
    (preemptedPush eventCopy 1 LedgerEvent.zero LedgerEvent.zero fullQueue).DeliveredOnce fullQueue
      LedgerEvent.zero LedgerEvent.zero :=
  (preemptedPush_deliveredOnce_iff (by decide) rfl).mpr (by decide)

/-- Two events that differ in their action. -/
def readEvent : LedgerEvent := { LedgerEvent.zero with actionType := 2 }

def writeEvent : LedgerEvent := { LedgerEvent.zero with actionType := 3 }

/-- On the empty queue, preempted after it has read `head`: both pushes return `true`, the second
event is overwritten and never delivered. -/
theorem preemptedPush_loses_event :
    (preemptedPush eventCopy 1 readEvent writeEvent ledgerQueueInit).first = some true ∧
    (preemptedPush eventCopy 1 readEvent writeEvent ledgerQueueInit).second = true ∧
    drained (preemptedPush eventCopy 1 readEvent writeEvent ledgerQueueInit).lq = [readEvent] ∧
    ¬ (preemptedPush eventCopy 1 readEvent writeEvent ledgerQueueInit).DeliveredOnce
      ledgerQueueInit readEvent writeEvent := by
  refine ⟨by decide, by decide, by decide, ?_⟩
  intro h
  have := h writeEvent (by decide)
  revert this
  decide

end LunaOs
