import LunaOs.Ledger
import LunaOs.Lib.Runs

/-! # Runs of the ledger

A run is a sequence of pushes and flushes.  Whatever the caller of the push is (`ledger_enqueue`
here, the VFS in `LunaOs.Vfs`), the queue and the ledger move by `LedgerState.step`.

Two things are observed: the events the queue `accepted`, and for every turn of the flush loop the
ledger it found and the event it popped (`builds`).  `run_ledger` says that the ledger is the fold
of `finalizeEvent` over the flushed events, and `run_conserves` that the accepted events are the
flushed ones followed by the pending ones.  Every theorem about the ledger is proved of that fold,
for an arbitrary list of events. -/

namespace LunaOs

open Runs

/-- A push of an event, or a flush. -/
inductive LedgerOp where
  | push (ev : LedgerEvent)
  | flush

section
variable (sha256 : List UInt8 → Digest)

namespace LedgerState

def step (s : LedgerState) : LedgerOp → LedgerState
  | .push ev => { s with lq := (ledgerQueuePush s.lq ev).1 }
  | .flush => ledgerFlushTask sha256 s

/-- The event an operation puts on the queue. -/
def acceptedBy (s : LedgerState) : LedgerOp → List LedgerEvent
  | .push ev => if (ledgerQueuePush s.lq ev).2 then [ev] else []
  | .flush => []

/-- The turns of the flush loop: the ledger each of them finds and the event it pops. -/
def flushTurns : ℕ → LedgerState → List (Ledger × LedgerEvent)
  | 0, _ => []
  | fuel + 1, s =>
      match ledgerQueuePop s.lq with
      | none => []
      | some (ev, lq) =>
          (s.ledger, ev) :: flushTurns fuel ⟨lq, finalizeEvent sha256 s.ledger ev⟩

/-- The blocks an operation builds, each with the ledger it is built from. -/
def buildsBy (s : LedgerState) : LedgerOp → List (Ledger × LedgerEvent)
  | .push _ => []
  | .flush => flushTurns sha256 LEDGER_QUEUE_SIZE s

/-- The state after the operations `ops`. -/
def after (s : LedgerState) (ops : List LedgerOp) : LedgerState := run (step sha256) s ops

/-- The events accepted along `ops`, in order. -/
def accepted (s : LedgerState) (ops : List LedgerOp) : List LedgerEvent :=
  outputs (step sha256) acceptedBy s ops

/-- The blocks built along `ops`, in order. -/
def builds (s : LedgerState) (ops : List LedgerOp) : List (Ledger × LedgerEvent) :=
  outputs (step sha256) (buildsBy sha256) s ops

/-- The events flushed along `ops`, in order. -/
def flushed (s : LedgerState) (ops : List LedgerOp) : List LedgerEvent :=
  (builds sha256 s ops).map Prod.snd

end LedgerState

/-- The ledger after the events `evs` have been finalised. -/
def chain (l : Ledger) (evs : List LedgerEvent) : Ledger := run (finalizeEvent sha256) l evs

/-- Each of the events `evs` with the ledger its block is built from. -/
def chainBuilds (l : Ledger) (evs : List LedgerEvent) : List (Ledger × LedgerEvent) :=
  outputs (finalizeEvent sha256) (fun l ev => [(l, ev)]) l evs

end

/-! ### Every run is a fold over the flushed events -/

section
variable {sha256 : List UInt8 → Digest}

@[simp] theorem chain_nil (l : Ledger) : chain sha256 l [] = l := rfl

theorem chain_cons (l : Ledger) (ev : LedgerEvent) (evs : List LedgerEvent) :
    chain sha256 l (ev :: evs) = chain sha256 (finalizeEvent sha256 l ev) evs := rfl

theorem chain_append (l : Ledger) (evs evs' : List LedgerEvent) :
    chain sha256 l (evs ++ evs') = chain sha256 (chain sha256 l evs) evs' := run_append _ _ _ _

theorem chain_snoc (l : Ledger) (evs : List LedgerEvent) (ev : LedgerEvent) :
    chain sha256 l (evs ++ [ev]) = finalizeEvent sha256 (chain sha256 l evs) ev :=
  chain_append l evs [ev]

theorem chainBuilds_map_snd (l : Ledger) (evs : List LedgerEvent) :
    (chainBuilds sha256 l evs).map Prod.snd = evs := by
  induction evs generalizing l with
  | nil => rfl
  | cons ev evs ih => exact congrArg (ev :: ·) (ih _)

theorem chainBuilds_append (l : Ledger) (evs evs' : List LedgerEvent) :
    chainBuilds sha256 l (evs ++ evs') =
      chainBuilds sha256 l evs ++ chainBuilds sha256 (chain sha256 l evs) evs' :=
  outputs_append _ _ _ _ _

/-- The `n`-th block is built from the ledger of the first `n` events. -/
theorem chainBuilds_getElem? (l : Ledger) (evs : List LedgerEvent) {n : ℕ} (hn : n < evs.length) :
    (chainBuilds sha256 l evs)[n]? = some (chain sha256 l (evs.take n), evs[n]) := by
  induction evs generalizing l n with
  | nil => exact absurd hn (Nat.not_lt_zero _)
  | cons ev evs ih =>
      cases n with
      | zero => rfl
      | succ n => exact ih (finalizeEvent sha256 l ev) (Nat.lt_of_succ_lt_succ hn)

theorem flushTurns_eq {fuel : ℕ} (s : LedgerState) (h : s.lq.pending.length ≤ fuel) :
    LedgerState.flushTurns sha256 fuel s = chainBuilds sha256 s.ledger s.lq.pending := by
  induction fuel generalizing s with
  | zero =>
      rw [List.length_eq_zero_iff.mp (Nat.le_zero.mp h)]
      rfl
  | succ fuel ih =>
      unfold LedgerState.flushTurns
      rcases ledgerQueuePop_spec s.lq with ⟨hnil, hpop⟩ | ⟨ev, lq, hpop, hcons⟩
      · rw [hpop, hnil]
        rfl
      · rw [hcons, List.length_cons] at h
        rw [hpop, hcons]
        exact congrArg ((s.ledger, ev) :: ·)
          (ih ⟨lq, finalizeEvent sha256 s.ledger ev⟩ (Nat.le_of_succ_le_succ h))

namespace LedgerState

theorem buildsBy_flush (s : LedgerState) :
    buildsBy sha256 s .flush = chainBuilds sha256 s.ledger s.lq.pending :=
  flushTurns_eq s (s.lq.pending_length_le.trans (by decide))

/-- What one operation does to the ledger. -/
theorem step_ledger (s : LedgerState) (op : LedgerOp) :
    (step sha256 s op).ledger = chain sha256 s.ledger ((buildsBy sha256 s op).map Prod.snd) := by
  cases op with
  | push ev => rfl
  | flush =>
      rw [buildsBy_flush, chainBuilds_map_snd]
      exact (ledgerFlushTask_spec sha256 s).2

theorem step_conserves (s : LedgerState) (op : LedgerOp) :
    s.lq.pending ++ acceptedBy s op =
      (buildsBy sha256 s op).map Prod.snd ++ (step sha256 s op).lq.pending := by
  cases op with
  | push ev =>
      rcases ledgerQueuePush_spec s.lq ev with ⟨_, hpush⟩ | ⟨_, htrue, hpend⟩
      · simp [acceptedBy, buildsBy, step, hpush]
      · simp [acceptedBy, buildsBy, step, htrue, hpend]
  | flush =>
      rw [buildsBy_flush, chainBuilds_map_snd, step, (ledgerFlushTask_spec sha256 s).1]
      rfl

theorem flushed_cons (s : LedgerState) (op : LedgerOp) (ops : List LedgerOp) :
    flushed sha256 s (op :: ops) =
      (buildsBy sha256 s op).map Prod.snd ++ flushed sha256 (step sha256 s op) ops :=
  List.map_append

/-- **The ledger is the fold of the flushed events.** -/
theorem run_ledger (s : LedgerState) (ops : List LedgerOp) :
    (after sha256 s ops).ledger = chain sha256 s.ledger (flushed sha256 s ops) := by
  induction ops generalizing s with
  | nil => rfl
  | cons op ops ih =>
      rw [flushed_cons, chain_append, ← step_ledger]
      exact ih (step sha256 s op)

theorem buildsBy_eq (s : LedgerState) (op : LedgerOp) :
    buildsBy sha256 s op =
      chainBuilds sha256 s.ledger ((buildsBy sha256 s op).map Prod.snd) := by
  cases op with
  | push ev => rfl
  | flush => rw [buildsBy_flush, chainBuilds_map_snd]

/-- The blocks of a run are the blocks of the fold. -/
theorem run_builds (s : LedgerState) (ops : List LedgerOp) :
    builds sha256 s ops = chainBuilds sha256 s.ledger (flushed sha256 s ops) := by
  induction ops generalizing s with
  | nil => rfl
  | cons op ops ih =>
      rw [flushed_cons, chainBuilds_append, ← step_ledger, ← buildsBy_eq, ← ih]
      rfl

/-- **Nothing is lost between the queue and the ledger.** -/
theorem run_conserves (s : LedgerState) (ops : List LedgerOp) :
    s.lq.pending ++ accepted sha256 s ops =
      flushed sha256 s ops ++ (after sha256 s ops).lq.pending := by
  induction ops generalizing s with
  | nil => simp [accepted, flushed, builds, after]
  | cons op ops ih =>
      rw [flushed_cons, List.append_assoc]
      have htail : accepted sha256 s (op :: ops) =
          acceptedBy s op ++ accepted sha256 (step sha256 s op) ops := rfl
      have hstep : s.lq.pending ++ acceptedBy s op =
          (buildsBy sha256 s op).map Prod.snd ++ (step sha256 s op).lq.pending :=
        step_conserves s op
      rw [htail, ← List.append_assoc, hstep, List.append_assoc, ih]
      rfl

end LedgerState

end

/-! ### Calls of `ledger_enqueue` and `ledger_flush_task` -/

/-- The arguments of `ledger_enqueue`, and what the stack holds where its `ev.target` will be. -/
structure Enqueue where
  action : UInt8
  streamId : UInt8
  target : CString
  timestamp : UInt64
  stack : Vector UInt8 LEDGER_TARGET_LEN

def Enqueue.event (e : Enqueue) : LedgerEvent :=
  enqueueEvent e.action e.streamId e.target e.timestamp e.stack

inductive Call where
  | enqueue (e : Enqueue)
  | flush

def Call.op : Call → LedgerOp
  | .enqueue e => .push e.event
  | .flush => .flush

section
variable (sha256 : List UInt8 → Digest)

def callStep (s : LedgerState) : Call → LedgerState
  | .enqueue e => ledgerEnqueue s e.action e.streamId e.target e.timestamp e.stack
  | .flush => ledgerFlushTask sha256 s

/-- The call whose event is accepted, if the call is one of `ledger_enqueue` and it is. -/
def acceptedBy (s : LedgerState) : Call → List Enqueue
  | .enqueue e => if (ledgerQueuePush s.lq e.event).2 then [e] else []
  | .flush => []

variable (prior : LedgerState) (calls : List Call)

/-- The state after `ledger_init`, in whatever state it is called, and then `calls`. -/
def afterCalls : LedgerState := run (callStep sha256) (ledgerInit sha256 prior) calls

/-- The calls of `ledger_enqueue` whose event was accepted, in order. -/
def acceptedCalls : List Enqueue :=
  outputs (callStep sha256) acceptedBy (ledgerInit sha256 prior) calls

/-- The blocks built, each with the ledger it is built from. -/
def callBuilds : List (Ledger × LedgerEvent) :=
  outputs (callStep sha256) (fun s c => LedgerState.buildsBy sha256 s c.op)
    (ledgerInit sha256 prior) calls

/-- The events flushed, in order. -/
def flushedEvents : List LedgerEvent := (callBuilds sha256 prior calls).map Prod.snd

/-- The operations that `calls` come down to. -/
def callOps : List LedgerOp :=
  outputs (callStep sha256) (fun _ c => [c.op]) (ledgerInit sha256 prior) calls

variable {sha256 prior calls}

variable (sha256 prior) in
theorem pending_ledgerInit : (ledgerInit sha256 prior).lq.pending = [] :=
  LedgerQueue.pending_init

theorem callStep_eq (s : LedgerState) (c : Call) :
    callStep sha256 s c = run (LedgerState.step sha256) s [c.op] := by
  cases c <;> rfl

theorem afterCalls_eq : afterCalls sha256 prior calls =
    LedgerState.after sha256 (ledgerInit sha256 prior) (callOps sha256 prior calls) :=
  run_project (p := id) callStep_eq _ _

theorem callBuilds_ops : callBuilds sha256 prior calls =
    LedgerState.builds sha256 (ledgerInit sha256 prior) (callOps sha256 prior calls) := by
  have hout : ∀ (s : LedgerState) (c : Call), (LedgerState.buildsBy sha256 s c.op).map id =
      outputs (LedgerState.step sha256) (LedgerState.buildsBy sha256) s [c.op] := by
    intro s c
    simp
  have h := outputs_project (p := id) callStep_eq hout (ledgerInit sha256 prior) calls
  rwa [List.map_id] at h

theorem afterCalls_ledger : (afterCalls sha256 prior calls).ledger =
    chain sha256 (ledgerGenesis sha256 prior.ledger) (flushedEvents sha256 prior calls) := by
  rw [afterCalls_eq, flushedEvents, callBuilds_ops]
  exact LedgerState.run_ledger _ _

theorem callBuilds_eq : callBuilds sha256 prior calls =
    chainBuilds sha256 (ledgerGenesis sha256 prior.ledger) (flushedEvents sha256 prior calls) := by
  unfold flushedEvents
  rw [callBuilds_ops]
  exact LedgerState.run_builds _ _

/-- The accepted calls are the flushed events and then the pending ones. -/
theorem acceptedCalls_map : (acceptedCalls sha256 prior calls).map Enqueue.event =
    flushedEvents sha256 prior calls ++ (afterCalls sha256 prior calls).lq.pending := by
  have hout : ∀ (s : LedgerState) (c : Call), (acceptedBy s c).map Enqueue.event =
      outputs (LedgerState.step sha256) LedgerState.acceptedBy s [c.op] := by
    intro s c
    cases c with
    | enqueue e =>
        simp only [acceptedBy, outputs_cons, outputs_nil, List.append_nil, Call.op,
          LedgerState.acceptedBy]
        split_ifs <;> rfl
    | flush => rfl
  have hrun : _ ++ LedgerState.accepted sha256 _ (callOps sha256 prior calls) = _ :=
    LedgerState.run_conserves (ledgerInit sha256 prior) _
  rw [pending_ledgerInit, List.nil_append] at hrun
  unfold flushedEvents
  rw [callBuilds_ops, afterCalls_eq]
  exact (outputs_project (p := id) callStep_eq hout _ _).trans hrun

/-! ### The queue as its callers see it -/

/-- A list that holds at most 1023 events and is emptied by a flush. -/
def specStep (pending : List LedgerEvent) : Call → List LedgerEvent
  | .enqueue e => if pending.length < 1023 then pending ++ [e.event] else pending
  | .flush => []

/-- What a flush takes from the list. -/
def specFlushed (pending : List LedgerEvent) : Call → List LedgerEvent
  | .enqueue _ => []
  | .flush => pending

theorem pending_callStep (s : LedgerState) (c : Call) :
    (callStep sha256 s c).lq.pending = specStep s.lq.pending c := by
  cases c with
  | enqueue e => exact pending_push s.lq e.event
  | flush => exact (ledgerFlushTask_spec sha256 s).1

/-- **The ring refines the list**: whatever the hash function, the same events are flushed. -/
theorem flushedEvents_eq :
    flushedEvents sha256 prior calls = outputs specStep specFlushed [] calls := by
  rw [← pending_ledgerInit sha256 prior]
  refine outputs_refines (p := fun s : LedgerState => s.lq.pending) pending_callStep ?_ _ calls
  intro s c
  cases c with
  | enqueue e => rfl
  | flush => exact (congrArg _ (LedgerState.buildsBy_flush s)).trans (chainBuilds_map_snd _ _)

end

end LunaOs
