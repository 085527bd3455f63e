import LunaOs.LedgerQueueSteps
import LunaOs.Lib.StepwiseCall

/-! # One producer and one consumer

One producer performs pushes and one consumer performs pops on the same queue, each one access at
a time, in any interleaving.  A run is a list of `Move`s: `push ev` and `pop out` start an
operation of an idle side, `producer` and `consumer` let a busy side make its next access.  What
the operations returned is observed as a list of `Obs`.

The invariant `Spsc.Inv` is that the accepted events are the delivered ones followed by the pending
ones.  What makes it inductive is what a side in the middle of an operation may rely on although
the other side moves on: the producer's copy of `head` is still `head` and the queue cannot have
become fuller since it read `tail`; the consumer's copy of `tail` is still `tail` and the slot it
reads is pending, so the producer does not write it.

A run without interleaving is one of the functions of the source (`Spsc.undisturbed_runs`). -/

namespace LunaOs

open Runs LedgerQueue

/-- The queue and the two sides; `none` is a side between two operations. -/
structure Spsc where
  lq : LedgerQueue
  producer : Option (LedgerEvent × PushPc)
  consumer : Option PopPc

/-- A call begins, or a side makes its next access. -/
inductive Move where
  | push (ev : LedgerEvent)
  | producer
  | pop (out : LedgerEvent)
  | consumer

/-- An operation returned: a push of `ev` with `true`, or a pop with `true` and `ev`. -/
inductive Obs where
  | accepted (ev : LedgerEvent)
  | delivered (ev : LedgerEvent)

/-- The events whose push returned `true`, in order. -/
def acceptedOf (os : List Obs) : List LedgerEvent :=
  os.filterMap fun | .accepted ev => some ev | .delivered _ => none

/-- The events pop returned, in order. -/
def deliveredOf (os : List Obs) : List LedgerEvent :=
  os.filterMap fun | .accepted _ => none | .delivered ev => some ev

@[simp] theorem acceptedOf_append (os os' : List Obs) :
    acceptedOf (os ++ os') = acceptedOf os ++ acceptedOf os' := List.filterMap_append

@[simp] theorem deliveredOf_append (os os' : List Obs) :
    deliveredOf (os ++ os') = deliveredOf os ++ deliveredOf os' := List.filterMap_append

@[simp] theorem acceptedOf_accepted (ev : LedgerEvent) : acceptedOf [.accepted ev] = [ev] := rfl

@[simp] theorem deliveredOf_accepted (ev : LedgerEvent) : deliveredOf [.accepted ev] = [] := rfl

@[simp] theorem acceptedOf_delivered (ev : LedgerEvent) : acceptedOf [.delivered ev] = [] := rfl

@[simp] theorem deliveredOf_delivered (ev : LedgerEvent) :
    deliveredOf [.delivered ev] = [ev] := rfl

namespace Spsc

section
variable (c : StructCopy LedgerEvent)

def init : Spsc := ⟨ledgerQueueInit, none, none⟩

/-- The producer makes its next access. -/
def producerStep (s : Spsc) (ev : LedgerEvent) (pc : PushPc) : Spsc :=
  let r := pushStep c ev pc s.lq
  { s with lq := r.2, producer := if r.1.result = none then some (ev, r.1) else none }

/-- The consumer makes its next access. -/
def consumerStep (s : Spsc) (pc : PopPc) : Spsc :=
  let r := popStep c pc s.lq
  { s with lq := r.2, consumer := if r.1.result = none then some r.1 else none }

/-- One access of a side; an idle side begins a call. -/
def step (s : Spsc) : Move → Spsc
  | .push ev =>
      match s.producer with
      | none => { s with producer := some (ev, .entered) }
      | some _ => s
  | .producer =>
      match s.producer with
      | none => s
      | some (ev, pc) => producerStep c s ev pc
  | .pop out =>
      match s.consumer with
      | none => { s with consumer := some (.entered out) }
      | some _ => s
  | .consumer =>
      match s.consumer with
      | none => s
      | some pc => consumerStep c s pc

/-- What the operation that a move completes has returned. -/
def obs (s : Spsc) : Move → List Obs
  | .push _ => []
  | .producer =>
      match s.producer with
      | none => []
      | some (ev, pc) =>
          if (pushStep c ev pc s.lq).1.result = some true then [.accepted ev] else []
  | .pop _ => []
  | .consumer =>
      match s.consumer with
      | none => []
      | some pc =>
          match (popStep c pc s.lq).1.result with
          | some (some ev) => [.delivered ev]
          | _ => []

/-- What a push of `ev` in the middle of its accesses may rely on. -/
def PushOk (q : LedgerQueue) (ev : LedgerEvent) : PushPc → Prop
  | .entered => True
  | .readHead head => head = q.head
  | .copying head next rest =>
      head = q.head ∧ next = q.head.next ∧ q.pending.length < 1023 ∧
        ∃ done old, done ++ rest = c.pieces ∧
          q.events head.slot = done.foldl (fun d piece => piece d ev) old
  | .returned _ => False

/-- What a pop in the middle of its accesses may rely on. -/
def PopOk (q : LedgerQueue) : PopPc → Prop
  | .entered _ => True
  | .readTail _ tail => tail = q.tail
  | .copying out tail rest =>
      tail = q.tail ∧ q.pending ≠ [] ∧
        ∃ done old, done ++ rest = c.pieces ∧
          out = done.foldl (fun d piece => piece d (q.events tail.slot)) old
  | .returned _ => False

/-- The invariant: nothing is lost, duplicated, reordered or torn. -/
structure Inv (s : Spsc) (os : List Obs) : Prop where
  history : acceptedOf os = deliveredOf os ++ s.lq.pending
  producer : ∀ ev pc, s.producer = some (ev, pc) → PushOk c s.lq ev pc
  consumer : ∀ pc, s.consumer = some pc → PopOk c s.lq pc

end

section
variable {c : StructCopy LedgerEvent}

/-- One access of a push keeps what the push relies on; only the access that returns `true`
changes the pending events. -/
theorem pushStep_ok {q : LedgerQueue} {ev : LedgerEvent} {pc : PushPc} (h : PushOk c q ev pc) :
    ((pushStep c ev pc q).1.result = none →
      PushOk c (pushStep c ev pc q).2 ev (pushStep c ev pc q).1) ∧
    (pushStep c ev pc q).2.pending =
      if (pushStep c ev pc q).1.result = some true then q.pending ++ [ev] else q.pending := by
  cases pc with
  | entered => exact ⟨fun _ => rfl, rfl⟩
  | readHead head =>
      obtain rfl : head = q.head := h
      by_cases hfull : q.head.next = q.tail
      · have hstep : pushStep c ev (.readHead q.head) q = (.returned false, q) := by
          simp [pushStep, hfull]
        rw [hstep]
        exact ⟨fun hr => by simp [PushPc.result] at hr, by simp [PushPc.result]⟩
      · have hstep : pushStep c ev (.readHead q.head) q =
            (.copying q.head q.head.next c.pieces, q) := by
          simp [pushStep, hfull]
        rw [hstep]
        refine ⟨fun _ => ⟨rfl, rfl, (not_full_iff q).mp hfull, [], q.events q.head.slot, rfl, rfl⟩, ?_⟩
        simp [PushPc.result]
  | copying head next rest =>
      obtain ⟨rfl, rfl, hlt, done, old, hd, hslot⟩ := h
      cases rest with
      | nil =>
          rw [List.append_nil] at hd
          refine ⟨fun hr => by simp [pushStep, PushPc.result] at hr, ?_⟩
          simp only [pushStep, PushPc.result, if_true]
          rw [pending_publish q hlt, hslot, hd, c.copies]
      | cons piece rest =>
          have hwrite := q.pending_write (piece (q.events q.head.slot) ev)
          refine ⟨fun _ => ⟨rfl, rfl, ?_, done ++ [piece], old, ?_, ?_⟩, ?_⟩
          · exact hwrite ▸ hlt
          · rw [List.append_assoc]; exact hd
          · simp only [pushStep]
            rw [Function.update_self, hslot, List.foldl_append]
            rfl
          · simpa [pushStep, PushPc.result] using hwrite
  | returned b => exact h.elim

theorem popOk_pushStep {q : LedgerQueue} {ev : LedgerEvent} {pc : PushPc} (h : PushOk c q ev pc)
    {pc' : PopPc} (h' : PopOk c q pc') : PopOk c (pushStep c ev pc q).2 pc' := by
  have hpend := (pushStep_ok h).2
  have htail : (pushStep c ev pc q).2.tail = q.tail := by
    cases pc with
    | readHead head => simp only [pushStep]; split_ifs <;> rfl
    | copying head next rest => cases rest <;> rfl
    | _ => rfl
  cases pc' with
  | entered out => trivial
  | readTail out tail => exact h'.trans htail.symm
  | copying out tail rest' =>
      obtain ⟨rfl, hne, done, old, hd, hout⟩ := h'
      have hslot : (pushStep c ev pc q).2.events q.tail.slot = q.events q.tail.slot := by
        cases pc with
        | readHead head => simp only [pushStep]; split_ifs <;> rfl
        | copying head next rest =>
            obtain ⟨rfl, -⟩ := h
            cases rest with
            | nil => rfl
            | cons piece rest =>
                exact Function.update_of_ne (q.head_slot_ne_tail_slot hne).symm _ _
        | _ => rfl
      refine ⟨htail.symm, ?_, done, old, hd, by rw [hslot]; exact hout⟩
      rw [hpend]
      split_ifs <;> simp [hne]
  | returned r => exact h'.elim

/-- One access of a pop keeps what the pop relies on; only the access that returns an event
changes the pending events, and it returns the oldest. -/
theorem popStep_ok {q : LedgerQueue} {pc : PopPc} (h : PopOk c q pc) :
    ((popStep c pc q).1.result = none → PopOk c (popStep c pc q).2 (popStep c pc q).1) ∧
    match (popStep c pc q).1.result with
    | some (some ev) => q.pending = ev :: (popStep c pc q).2.pending
    | _ => (popStep c pc q).2.pending = q.pending := by
  cases pc with
  | entered out => exact ⟨fun _ => rfl, rfl⟩
  | readTail out tail =>
      obtain rfl : tail = q.tail := h
      simp only [popStep]
      split_ifs with hempty
      · exact ⟨fun hr => by simp [PopPc.result] at hr, rfl⟩
      · have hne : q.pending ≠ [] := fun hl => hempty ((empty_iff q).mpr hl)
        exact ⟨fun _ => ⟨rfl, hne, [], out, rfl, rfl⟩, rfl⟩
  | copying out tail rest =>
      obtain ⟨rfl, hne, done, old, hd, hout⟩ := h
      cases rest with
      | nil =>
          rw [List.append_nil] at hd
          refine ⟨fun hr => by simp [popStep, PopPc.result] at hr, ?_⟩
          simp only [popStep, PopPc.result]
          rw [q.pending_consume hne, hout, hd, c.copies]
      | cons piece rest =>
          refine ⟨fun _ => ⟨rfl, hne, done ++ [piece], old, ?_, ?_⟩, rfl⟩
          · rw [List.append_assoc]; exact hd
          · show piece out (q.events q.tail.slot) =
              (done ++ [piece]).foldl (fun d piece => piece d (q.events q.tail.slot)) old
            rw [List.foldl_append, ← hout]
            rfl
  | returned r => exact h.elim

theorem pushOk_popStep {q : LedgerQueue} {pc : PopPc} (h : PopOk c q pc) {ev : LedgerEvent}
    {pc' : PushPc} (h' : PushOk c q ev pc') : PushOk c (popStep c pc q).2 ev pc' := by
  have hpend := (popStep_ok h).2
  have hsame : (popStep c pc q).2.head = q.head ∧ (popStep c pc q).2.events = q.events := by
    cases pc with
    | readTail out tail => simp only [popStep]; split_ifs <;> exact ⟨rfl, rfl⟩
    | copying out tail rest => cases rest <;> exact ⟨rfl, rfl⟩
    | _ => exact ⟨rfl, rfl⟩
  obtain ⟨hhead, hevents⟩ := hsame
  cases pc' with
  | entered => trivial
  | readHead head => exact h'.trans hhead.symm
  | copying head next rest =>
      obtain ⟨rfl, rfl, hlt, hcopy⟩ := h'
      refine ⟨hhead.symm, by rw [hhead], ?_, by rw [hevents]; exact hcopy⟩
      split at hpend
      · rw [hpend, List.length_cons] at hlt; omega
      · rw [hpend]; exact hlt
  | returned b => exact h'.elim

/-! ### The invariant along a run -/

theorem inv_init : Inv c init [] := by
  refine ⟨?_, ?_, ?_⟩
  · simp [acceptedOf, deliveredOf, init]
  · intro ev pc h; simp [init] at h
  · intro pc h; simp [init] at h

theorem producerStep_inv {s : Spsc} {os : List Obs} (h : Inv c s os) {ev : LedgerEvent}
    {pc : PushPc} (hpc : s.producer = some (ev, pc)) :
    Inv c (producerStep c s ev pc) (os ++ obs c s .producer) := by
  have hok := h.producer ev pc hpc
  obtain ⟨hnext, hpend⟩ := pushStep_ok hok
  refine ⟨?_, ?_, ?_⟩
  · simp only [obs, hpc, producerStep, hpend]
    split_ifs with hr
    · rw [acceptedOf_append, deliveredOf_append, h.history, acceptedOf_accepted,
        deliveredOf_accepted, List.append_nil, List.append_assoc]
    · rw [List.append_nil, h.history]
  · intro ev' pc' hpc'
    simp only [producerStep] at hpc'
    split_ifs at hpc' with hr
    obtain ⟨rfl, rfl⟩ : ev = ev' ∧ (pushStep c ev pc s.lq).1 = pc' := by simpa using hpc'
    exact hnext hr
  · intro pc' hpc'
    exact popOk_pushStep hok (h.consumer pc' hpc')

theorem consumerStep_inv {s : Spsc} {os : List Obs} (h : Inv c s os) {pc : PopPc}
    (hpc : s.consumer = some pc) :
    Inv c (consumerStep c s pc) (os ++ obs c s .consumer) := by
  have hok := h.consumer pc hpc
  obtain ⟨hnext, hpend⟩ := popStep_ok hok
  refine ⟨?_, ?_, ?_⟩
  · simp only [obs, hpc, consumerStep]
    split at hpend
    · next ev hr =>
        rw [acceptedOf_append, deliveredOf_append, h.history, hpend, acceptedOf_delivered,
          deliveredOf_delivered, List.append_nil, List.append_assoc, List.singleton_append]
    · rw [hpend, List.append_nil, h.history]
  · intro ev pc' hpc'
    exact pushOk_popStep hok (h.producer ev pc' hpc')
  · intro pc' hpc'
    simp only [consumerStep] at hpc'
    split_ifs at hpc' with hr
    obtain rfl : (popStep c pc s.lq).1 = pc' := by simpa using hpc'
    exact hnext hr

theorem inv_step {s : Spsc} {os : List Obs} (h : Inv c s os) (m : Move) :
    Inv c (step c s m) (os ++ obs c s m) := by
  cases m with
  | push ev =>
      cases hp : s.producer with
      | some _ => simpa [step, obs, hp] using h
      | none =>
          unfold obs
          rw [List.append_nil]
          simp only [step, hp]
          refine ⟨h.history, ?_, h.consumer⟩
          rintro _ _ ⟨⟩
          trivial
  | producer =>
      cases hp : s.producer with
      | none => simpa [step, obs, hp] using h
      | some p =>
          have := producerStep_inv h hp
          simpa only [step, hp] using this
  | pop out =>
      cases hc : s.consumer with
      | some _ => simpa [step, obs, hc] using h
      | none =>
          unfold obs
          rw [List.append_nil]
          simp only [step, hc]
          refine ⟨h.history, h.producer, ?_⟩
          rintro _ ⟨⟩
          trivial
  | consumer =>
      cases hc : s.consumer with
      | none => simpa [step, obs, hc] using h
      | some pc =>
          have := consumerStep_inv h hc
          simpa only [step, hc] using this

end

section
variable (c : StructCopy LedgerEvent) (ms : List Move)

/-- The state after the moves `ms`. -/
def after : Spsc := run (step c) init ms

/-- What has returned along the moves `ms`. -/
def history : List Obs := outputs (step c) (obs c) init ms

theorem inv_after : Inv c (after c ms) (history c ms) := by
  have hstep : ∀ s os m, Inv c s os → Inv c (step c s m) (os ++ obs c s m) :=
    fun _ _ m h => inv_step h m
  exact run_outputs_invariant hstep inv_init ms

/-- **Single producer, single consumer**: in every interleaving the delivered events are a prefix
of the accepted ones, at most 1023 are undelivered, and the depth is their number (between two
operations and in the middle of one). -/
theorem delivered_prefix_accepted :
    deliveredOf (history c ms) <+: acceptedOf (history c ms) ∧
    (acceptedOf (history c ms)).length - (deliveredOf (history c ms)).length ≤ 1023 ∧
    (ledgerQueueDepth (after c ms).lq).toNat =
      (acceptedOf (history c ms)).length - (deliveredOf (history c ms)).length := by
  have h := (inv_after c ms).history
  have hle := (after c ms).lq.pending_length_le
  have hlen := congrArg List.length h
  rw [List.length_append] at hlen
  refine ⟨⟨_, h.symm⟩, by omega, ?_⟩
  rw [← pending_length]
  omega

end

end Spsc

/-! ### Undisturbed operations -/

/-- A whole operation, with the structure that `ledger_queue_pop` is to fill. -/
inductive QueueOp where
  | push (ev : LedgerEvent)
  | pop (out : LedgerEvent)

namespace QueueOp

/-- The function of the source. -/
def exec (q : LedgerQueue) : QueueOp → LedgerQueue
  | push ev => (ledgerQueuePush q ev).1
  | pop _ =>
      match ledgerQueuePop q with
      | none => q
      | some (_, q') => q'

/-- What the function returns. -/
def obs (q : LedgerQueue) : QueueOp → List Obs
  | push ev => if (ledgerQueuePush q ev).2 then [.accepted ev] else []
  | pop _ =>
      match ledgerQueuePop q with
      | none => []
      | some (ev, _) => [.delivered ev]

/-- The operation is started and makes all its accesses; the other side does not move. -/
def moves (c : StructCopy LedgerEvent) : QueueOp → List Move
  | push ev => .push ev :: List.replicate (accessBound c) .producer
  | pop out => .pop out :: List.replicate (accessBound c) .consumer

end QueueOp

namespace Spsc

section
variable {c : StructCopy LedgerEvent}

/-- The accesses of the producer, with the consumer at `k`. -/
theorem producer_call (ev : LedgerEvent) (k : Option PopPc) :
    StepwiseCall (step c) (obs c) .producer (fun s => pushStep c ev s.1 s.2) PushPc.result
      (fun b => if b then [.accepted ev] else []) (fun s => ⟨s.2, some (ev, s.1), k⟩) fun q => ⟨q, none, k⟩ where
  goes_on := by
    rintro ⟨pc, q⟩ hresult
    dsimp only [step, obs, producerStep] at hresult ⊢
    rw [hresult, if_pos rfl, if_neg (Option.some_ne_none true).symm]
    exact ⟨rfl, rfl⟩
  ends := by
    rintro ⟨pc, q⟩ b hresult
    dsimp only [step, obs, producerStep] at hresult ⊢
    rw [hresult, if_neg (Option.some_ne_none b)]
    cases b <;> exact ⟨rfl, rfl⟩
  stays := by
    rintro ⟨pc, q⟩ b hresult
    obtain rfl := PushPc.eq_returned hresult
    rfl
  waits q := ⟨rfl, rfl⟩

/-- The accesses of the consumer, with the producer at `k`. -/
theorem consumer_call (k : Option (LedgerEvent × PushPc)) :
    StepwiseCall (step c) (obs c) .consumer (fun s => popStep c s.1 s.2) PopPc.result
      (fun r => r.toList.map .delivered) (fun s => ⟨s.2, k, some s.1⟩) fun q => ⟨q, k, none⟩ where
  goes_on := by
    rintro ⟨pc, q⟩ hresult
    dsimp only [step, obs, consumerStep] at hresult ⊢
    rw [hresult, if_pos rfl]
    exact ⟨rfl, rfl⟩
  ends := by
    rintro ⟨pc, q⟩ r hresult
    dsimp only [step, obs, consumerStep] at hresult ⊢
    rw [hresult, if_neg (Option.some_ne_none r)]
    cases r <;> exact ⟨rfl, rfl⟩
  stays := by
    rintro ⟨pc, q⟩ r hresult
    obtain rfl := PopPc.eq_returned hresult
    rfl
  waits q := ⟨rfl, rfl⟩

theorem run_moves (q : LedgerQueue) (op : QueueOp) :
    run (step c) ⟨q, none, none⟩ (op.moves c) = ⟨op.exec q, none, none⟩ ∧
      outputs (step c) (obs c) ⟨q, none, none⟩ (op.moves c) = op.obs q := by
  cases op with
  | push ev =>
      have hsteps := (pushSteps_eq_iterate c ev _ _).symm.trans (pushSteps_eq_push ev q)
      exact (producer_call ev none).run rfl hsteps rfl
  | pop out =>
      have hsteps := (popSteps_eq_iterate c _ _).symm.trans (popSteps_eq_pop out q)
      unfold QueueOp.exec QueueOp.obs
      dsimp only
      cases hpop : ledgerQueuePop q with
      | none =>
          rw [hpop] at hsteps
          exact (consumer_call none).run rfl hsteps rfl
      | some r =>
          rw [hpop] at hsteps
          exact (consumer_call none).run rfl hsteps rfl

variable (c) in
/-- **Undisturbed, the accesses make up the functions of the source**: a run in which every operation makes all
its accesses before the next one starts is a run of `ledgerQueuePush` and `ledgerQueuePop`, with the same
queue at the end and the same results. -/
theorem undisturbed_runs (q : LedgerQueue) (ops : List QueueOp) :
    run (step c) ⟨q, none, none⟩ (ops.flatMap (QueueOp.moves c)) = ⟨run QueueOp.exec q ops, none, none⟩ ∧
      outputs (step c) (obs c) ⟨q, none, none⟩ (ops.flatMap (QueueOp.moves c)) =
        outputs QueueOp.exec QueueOp.obs q ops := by
  have hrun : ∀ q (op : QueueOp), run (step c) ⟨q, none, none⟩ (op.moves c) = ⟨op.exec q, none, none⟩ :=
    fun q op => (run_moves q op).1
  have hout : ∀ q (op : QueueOp), outputs (step c) (obs c) ⟨q, none, none⟩ (op.moves c) = op.obs q :=
    fun q op => (run_moves q op).2
  exact ⟨run_flatMap hrun q ops, outputs_flatMap hrun hout q ops⟩

end

end Spsc

end LunaOs
