import LunaOs.Irq
import LunaOs.LedgerRun

/-! # The ledger behind the timer

Events are pushed outside the handlers and flushed inside one: on every tenth tick, in the process that
the tick leaves running.  A run here is any order of pushes, interrupts, yields and changes of the
scheduler.  What is pending at some moment is in the ledger ten ticks later (`ledger_keeps_up`), and if no
more than 1023 events are pushed from one tick to the ninth after it, none is ever refused
(`paced_run_logged`).  Both take it that no tick starts a process: such a tick does not flush, and
`LunaOs.IrqController` says what else becomes of it. -/

namespace LunaOs

open Runs

variable {P : Type} [DecidableEq P] (sha256 : List UInt8 → Digest)

/-- The events of the machine, and the events that other code pushes. -/
inductive LogEvent (P : Type) where
  /-- An interrupt of the hardware, with the processor that it interrupts. -/
  | irq (n : Fin 16) (cpu : Machine Unit)
  /-- `scheduler_yield` -/
  | yield (cpu : Machine Unit)
  /-- `ledger_queue_push`, by `ledger_enqueue` or a function of the VFS. -/
  | push (ev : LedgerEvent)
  /-- The code outside the handlers leaves the scheduler so. -/
  | schedule (scheduler : Scheduler P)
  /-- A new context is stored for a process. -/
  | create (p : P)

def LogEvent.event (m : IrqMachine P) : LogEvent P → IrqEvent P
  | .irq n cpu => .irq n cpu
  | .yield cpu => .yield cpu
  | .push ev =>
      .outside { m.timer with
        ledger := { m.timer.ledger with lq := (ledgerQueuePush m.timer.ledger.lq ev).1 } }
  | .schedule scheduler => .outside { m.timer with scheduler }
  | .create p => .create p

def logStep (upper : SegmentRegister → UInt32) (m : IrqMachine P) (e : LogEvent P) :
    Option (IrqMachine P) :=
  m.step sha256 upper (e.event m)

/-- The handlers take the interrupt for one of the timer. -/
def LogEvent.isTick : LogEvent P → Bool
  | .irq _ cpu => (cpu.cpu.ebx - 32).toUInt8 = 0
  | .yield cpu => (cpu.cpu.ebx - 32).toUInt8 = 0
  | _ => false

/-- The number of runs of `timer_irq_handler`. -/
def ticks (events : List (LogEvent P)) : ℕ := events.countP LogEvent.isTick

def LogEvent.pushed : LogEvent P → List LedgerEvent
  | .push ev => [ev]
  | _ => []

/-- All events pushed, accepted or not. -/
def pushes (events : List (LogEvent P)) : List LedgerEvent := events.flatMap LogEvent.pushed

/-- The event is accepted if it is pushed and there is room for it. -/
def LogEvent.accepted (m : IrqMachine P) : LogEvent P → List LedgerEvent
  | .push ev => if (ledgerQueuePush m.timer.ledger.lq ev).2 then [ev] else []
  | _ => []

/-- The events accepted in a run, in order. -/
def acceptedEvents (upper : SegmentRegister → UInt32) : IrqMachine P → List (LogEvent P) → List LedgerEvent
  | _, [] => []
  | m, e :: events =>
      e.accepted m ++
        match logStep sha256 upper m e with
        | none => []
        | some m' => acceptedEvents upper m' events

/-- A tick does not switch to a process that has never run. -/
def StartsNone (m : IrqMachine P) (e : LogEvent P) : Prop :=
  let never (scheduler : Scheduler P) : Prop :=
    ∀ t prev next, schedulerTick scheduler = .ok (t, some (prev, next)) → m.fresh next = false
  e.isTick = true →
    match e with
    | .irq _ _ => never m.timer.scheduler
    | .yield _ => never (resetSlice m.timer.scheduler)
    | _ => True

/-- From one tick to the ninth after it, no more events are pushed than the queue holds. -/
def Paced (events : List (LogEvent P)) : Prop :=
  ∀ before window after, events = before ++ window ++ after → ticks window ≤ 9 →
    (pushes window).length ≤ 1023

/-! ### Ticks until the next flush -/

/-- The ticks that are left until the count is a multiple of ten.  When the count comes back to 0, only
six ticks have passed since the last multiple. -/
def ticksToFlush (n : UInt64) : ℕ :=
  if n.toNat < 2 ^ 64 - 6 then 10 - n.toNat % 10 else 2 ^ 64 - n.toNat

theorem ticksToFlush_pos (n : UInt64) : 1 ≤ ticksToFlush n := by
  have := n.toNat_lt
  unfold ticksToFlush
  split_ifs
  · omega
  · omega

theorem ticksToFlush_le (n : UInt64) : ticksToFlush n ≤ 10 := by
  unfold ticksToFlush
  split_ifs
  · omega
  · omega

theorem mod_ten_eq_zero_iff (n : UInt64) : n % 10 = 0 ↔ n.toNat % 10 = 0 := by
  rw [← UInt64.toNat_inj, UInt64.toNat_mod]
  rfl

/-- A tick that does not flush is one less to wait for. -/
theorem ticksToFlush_succ {n : UInt64} (h : (n + 1) % 10 ≠ 0) :
    ticksToFlush n = ticksToFlush (n + 1) + 1 := by
  have hlt := n.toNat_lt
  have h1 : UInt64.toNat 1 = 1 := rfl
  rw [ne_eq, mod_ten_eq_zero_iff, UInt64.toNat_add, h1] at h
  unfold ticksToFlush
  rw [UInt64.toNat_add, h1]
  split_ifs <;> omega

/-! ### One event -/

theorem handle_log {m : IrqMachine P} {irq : UInt8} {r : IrqMachine P × List Pic}
    (h : m.handle sha256 irq = some r) :
    (irq ≠ 0 → r.1.timer = m.timer) ∧
      (irq = 0 →
        (∀ t prev next, schedulerTick m.timer.scheduler = .ok (t, some (prev, next)) → m.fresh next = false) →
          r.1.timer.systemTicks = m.timer.systemTicks + 1 ∧
          r.1.timer.ledger = if (m.timer.systemTicks + 1) % 10 = 0 then
            ledgerFlushTask sha256 m.timer.ledger else m.timer.ledger) := by
  have hrest : ∀ s : Timer P, (timerIrqRest sha256 s).systemTicks = s.systemTicks ∧
      (timerIrqRest sha256 s).ledger =
        if s.systemTicks % 10 = 0 then ledgerFlushTask sha256 s.ledger else s.ledger := by
    intro s
    unfold timerIrqRest
    split_ifs
    · exact ⟨rfl, rfl⟩
    · exact ⟨rfl, rfl⟩
  unfold IrqMachine.handle registered at h
  refine ⟨fun hirq => ?_, fun hirq hold => ?_⟩
  · rw [if_neg hirq] at h
    split_ifs at h <;> obtain rfl := Option.some.inj h <;> rfl
  · rw [if_pos hirq] at h
    unfold timerIrqHandler at h
    dsimp only at h
    cases htick : schedulerTick m.timer.scheduler with
    | error e =>
        rw [htick] at h
        cases h
    | ok result =>
        obtain ⟨s, switch⟩ := result
        rw [htick] at h
        cases switch with
        | none =>
            obtain rfl := Option.some.inj h
            exact hrest _
        | some switch =>
            obtain ⟨prev, next⟩ := switch
            replace h : (if m.fresh next = true then some _ else some _) = some r := h
            rw [hold s prev next htick, if_neg Bool.false_ne_true] at h
            obtain rfl := Option.some.inj h
            exact hrest _

/-- What an event that is no tick does: it pushes what it has to push. -/
theorem logStep_quiet {upper : SegmentRegister → UInt32} {m m' : IrqMachine P} {e : LogEvent P}
    (htick : e.isTick = false) (hstep : logStep sha256 upper m e = some m') :
    m'.timer.systemTicks = m.timer.systemTicks ∧
      m'.timer.ledger.ledger = m.timer.ledger.ledger ∧
      m'.timer.ledger.lq.pending = m.timer.ledger.lq.pending ++ e.accepted m := by
  unfold logStep IrqMachine.step at hstep
  cases e with
  | irq n cpu =>
      obtain ⟨r, hhandle, rfl⟩ := Option.map_eq_some_iff.mp hstep
      rw [irqNumber_receivedRegs] at hhandle
      have htimer := (handle_log sha256 hhandle).1 (of_decide_eq_false htick)
      dsimp only
      rw [htimer]
      exact ⟨rfl, rfl, (List.append_nil _).symm⟩
  | yield cpu =>
      obtain ⟨r, hhandle, rfl⟩ := Option.map_eq_some_iff.mp hstep
      rw [irqNumber_receivedRegs] at hhandle
      have htimer := (handle_log sha256 hhandle).1 (of_decide_eq_false htick)
      dsimp only
      rw [htimer]
      exact ⟨rfl, rfl, (List.append_nil _).symm⟩
  | push ev =>
      obtain rfl := Option.some.inj hstep
      refine ⟨rfl, rfl, ?_⟩
      rcases ledgerQueuePush_spec m.timer.ledger.lq ev with ⟨_, hpush⟩ | ⟨_, htrue, hpend⟩
      · simp [LogEvent.accepted, hpush]
      · simp [LogEvent.accepted, hpend, htrue]
  | schedule scheduler =>
      obtain rfl := Option.some.inj hstep
      exact ⟨rfl, rfl, (List.append_nil _).symm⟩
  | create p =>
      obtain rfl := Option.some.inj hstep
      exact ⟨rfl, rfl, (List.append_nil _).symm⟩

theorem logStep_tick {upper : SegmentRegister → UInt32} {m m' : IrqMachine P} {e : LogEvent P}
    (htick : e.isTick = true) (hold : StartsNone m e) (hstep : logStep sha256 upper m e = some m') :
    m'.timer.systemTicks = m.timer.systemTicks + 1 ∧
      m'.timer.ledger = if (m.timer.systemTicks + 1) % 10 = 0 then
        ledgerFlushTask sha256 m.timer.ledger else m.timer.ledger := by
  unfold logStep IrqMachine.step at hstep
  have hnever := hold htick
  cases e with
  | irq n cpu =>
      obtain ⟨r, hhandle, rfl⟩ := Option.map_eq_some_iff.mp hstep
      rw [irqNumber_receivedRegs] at hhandle
      exact (handle_log sha256 hhandle).2 (of_decide_eq_true htick) hnever
  | yield cpu =>
      obtain ⟨r, hhandle, rfl⟩ := Option.map_eq_some_iff.mp hstep
      rw [irqNumber_receivedRegs] at hhandle
      exact (handle_log sha256 hhandle).2 (of_decide_eq_true htick) hnever
  | push ev => cases htick
  | schedule scheduler => cases htick
  | create p => cases htick

omit [DecidableEq P] in
theorem LogEvent.accepted_of_isTick {m : IrqMachine P} {e : LogEvent P} (h : e.isTick = true) :
    e.accepted m = [] := by
  cases e <;> first | rfl | cases h

omit [DecidableEq P] in
theorem LogEvent.pushed_of_isTick {e : LogEvent P} (h : e.isTick = true) : e.pushed = [] := by
  cases e <;> first | rfl | cases h

omit [DecidableEq P] in
theorem LogEvent.accepted_eq_pushed {m : IrqMachine P} {e : LogEvent P}
    (h : m.timer.ledger.lq.pending.length + e.pushed.length ≤ 1023) : e.accepted m = e.pushed := by
  cases e with
  | push ev => exact if_pos ((ledgerQueuePush_snd _ _).mpr (Nat.lt_of_succ_le h))
  | irq n cpu => rfl
  | yield cpu => rfl
  | schedule scheduler => rfl
  | create p => rfl

/-! ### Runs -/

omit [DecidableEq P] in
theorem ticks_cons (e : LogEvent P) (events : List (LogEvent P)) :
    ticks (e :: events) = ticks events + if e.isTick then 1 else 0 := List.countP_cons

omit [DecidableEq P] in
theorem ticks_snoc (events : List (LogEvent P)) (e : LogEvent P) :
    ticks (events ++ [e]) = ticks events + if e.isTick then 1 else 0 := by
  unfold ticks
  rw [List.countP_append, List.countP_singleton]

omit [DecidableEq P] in
theorem pushes_append (events events' : List (LogEvent P)) :
    pushes (events ++ events') = pushes events ++ pushes events' := List.flatMap_append

omit [DecidableEq P] in
theorem pushes_singleton (e : LogEvent P) : pushes [e] = e.pushed := List.flatMap_singleton _ _

theorem acceptedEvents_cons {upper : SegmentRegister → UInt32} {m m' : IrqMachine P} {e : LogEvent P}
    (h : logStep sha256 upper m e = some m') (events : List (LogEvent P)) :
    acceptedEvents sha256 upper m (e :: events) = e.accepted m ++ acceptedEvents sha256 upper m' events := by
  rw [acceptedEvents, h]

/-- Events go from the queue to the ledger, in order; when ten ticks have passed, all that were pending
at the start have gone. -/
theorem run_log {upper : SegmentRegister → UInt32} {events : List (LogEvent P)} {m u : IrqMachine P}
    (hrun : haltingRun (logStep sha256 upper) m events = some u)
    (hold : EachStep (logStep sha256 upper) StartsNone m events) :
    ∃ flushed, u.timer.ledger.ledger = chain sha256 m.timer.ledger.ledger flushed ∧
      m.timer.ledger.lq.pending ++ acceptedEvents sha256 upper m events =
        flushed ++ u.timer.ledger.lq.pending ∧
      (ticksToFlush m.timer.systemTicks ≤ ticks events → m.timer.ledger.lq.pending.length ≤ flushed.length) := by
  induction events generalizing m with
  | nil =>
      obtain rfl := Option.some.inj hrun
      refine ⟨[], rfl, List.append_nil _, fun h => ?_⟩
      have hpos := ticksToFlush_pos m.timer.systemTicks
      exact absurd (hpos.trans h) (Nat.not_succ_le_zero 0)
  | cons e events ih =>
      obtain ⟨m', hstep, hrest⟩ := haltingRun_cons.mp hrun
      obtain ⟨hnone, hold'⟩ := hold m' hstep
      obtain ⟨flushed, hledger, hconserved, hall⟩ := ih hrest hold'
      rw [acceptedEvents_cons sha256 hstep, ticks_cons]
      cases htick : e.isTick with
      | false =>
          obtain ⟨hticks, hkept, hpending⟩ := logStep_quiet sha256 htick hstep
          rw [hkept] at hledger
          rw [hpending, List.append_assoc] at hconserved
          rw [hticks, hpending, List.length_append] at hall
          exact ⟨flushed, hledger, hconserved, fun h => (Nat.le_add_right _ _).trans (hall h)⟩
      | true =>
          obtain ⟨hticks, hlog⟩ := logStep_tick sha256 htick hnone hstep
          rw [LogEvent.accepted_of_isTick htick, List.nil_append]
          by_cases hflush : (m.timer.systemTicks + 1) % 10 = 0
          · rw [if_pos hflush] at hlog
            obtain ⟨hempty, hchain⟩ := ledgerFlushTask_spec sha256 m.timer.ledger
            rw [← hlog] at hempty hchain
            rw [hempty, List.nil_append] at hconserved
            refine ⟨m.timer.ledger.lq.pending ++ flushed, ?_, ?_, fun _ => ?_⟩
            · rw [hledger, hchain, chain_append]
              rfl
            · rw [hconserved, List.append_assoc]
            · rw [List.length_append]
              exact Nat.le_add_right _ _
          · rw [if_neg hflush] at hlog
            rw [hlog] at hledger hconserved
            refine ⟨flushed, hledger, hconserved, fun h => ?_⟩
            rw [ticksToFlush_succ hflush, ← hticks] at h
            have hlater := hall (Nat.le_of_succ_le_succ h)
            rwa [hlog] at hlater

/-- **The ledger keeps up**: from any state, whatever is pushed meanwhile, ten ticks that start no process
bring all that was pending into the ledger, in order and before anything else. -/
theorem ledger_keeps_up (upper : SegmentRegister → UInt32) (events : List (LogEvent P)) (m u : IrqMachine P)
    (hrun : haltingRun (logStep sha256 upper) m events = some u)
    (hold : EachStep (logStep sha256 upper) StartsNone m events) (hticks : 10 ≤ ticks events) :
    ∃ later, u.timer.ledger.ledger =
        chain sha256 m.timer.ledger.ledger (m.timer.ledger.lq.pending ++ later) ∧
      acceptedEvents sha256 upper m events = later ++ u.timer.ledger.lq.pending := by
  obtain ⟨flushed, hledger, hconserved, hall⟩ := run_log sha256 hrun hold
  have hlength := hall ((ticksToFlush_le _).trans hticks)
  obtain ⟨later, rfl⟩ : m.timer.ledger.lq.pending <+: flushed :=
    List.prefix_of_prefix_length_le (hconserved ▸ List.prefix_append _ _) (List.prefix_append _ _) hlength
  rw [List.append_assoc] at hconserved
  exact ⟨later, hledger, List.append_cancel_left hconserved⟩

/-- An interrupt of the timer while the scheduler is not started. -/
def idleTick : LogEvent Bool := .irq timerIrq (interrupted 32)

/-- Before `scheduler_start`, with one event pending. -/
def idleMachine : IrqMachine Bool where
  timer :=
    { readyPair 8 with
      scheduler := { (readyPair 8).scheduler with schedulerActive := false }
      ledger := ⟨(ledgerQueuePush ledgerQueueInit LedgerEvent.zero).1, Ledger.zero⟩ }
  fresh := fun _ => true
  acknowledged := []

theorem idle_run (sha256 : List UInt8 → Digest) (upper : SegmentRegister → UInt32) (n : ℕ)
    (m : IrqMachine Bool) (hidle : m.timer.scheduler.schedulerActive = false)
    (hcurrent : m.timer.scheduler.currentProcess = some false) :
    ∃ u, haltingRun (logStep sha256 upper) m (List.replicate n idleTick) = some u ∧
      EachStep (logStep sha256 upper) StartsNone m (List.replicate n idleTick) := by
  induction n generalizing m with
  | zero => exact ⟨m, rfl, trivial⟩
  | succ n ih =>
      have htick : schedulerTick m.timer.scheduler = .ok (m.timer.scheduler, none) := by
        unfold schedulerTick
        rw [hcurrent, hidle]
        rfl
      obtain ⟨m', hstep, hscheduler⟩ : ∃ m', logStep sha256 upper m idleTick = some m' ∧
          m'.timer.scheduler = m.timer.scheduler := by
        unfold logStep idleTick LogEvent.event IrqMachine.step
        dsimp only
        rw [irqNumber_receivedRegs]
        unfold IrqMachine.handle timerIrqHandler
        dsimp only
        rw [htick]
        exact ⟨_, rfl, timerIrqRest_scheduler sha256 _⟩
      obtain ⟨u, hrun, hold⟩ := ih m' (hscheduler ▸ hidle) (hscheduler ▸ hcurrent)
      refine ⟨u, haltingRun_cons.mpr ⟨m', hstep, hrun⟩, EachStep.cons hstep (fun _ => ?_) hold⟩
      intro t prev next heq
      rw [htick] at heq
      cases heq

theorem ledger_keeps_up_idle : ∃ u later,
    haltingRun (logStep (fun _ => Vector.replicate 32 0) fun _ => 0) idleMachine
      (List.replicate 10 idleTick) = some u ∧
    u.timer.ledger.ledger = chain (fun _ => Vector.replicate 32 0) Ledger.zero
      (idleMachine.timer.ledger.lq.pending ++ later) := by
  obtain ⟨u, hrun, hold⟩ := idle_run (fun _ => Vector.replicate 32 0) (fun _ => 0) 10 idleMachine rfl rfl
  obtain ⟨later, hledger, _⟩ := ledger_keeps_up _ _ _ idleMachine u hrun hold (by decide)
  exact ⟨u, later, hrun, hledger⟩

/-- With the events pushed since the last flush in the queue, a paced run keeps it so. -/
theorem paced_run {upper : SegmentRegister → UInt32} {events : List (LogEvent P)} {m u : IrqMachine P}
    (hrun : haltingRun (logStep sha256 upper) m events = some u)
    (hold : EachStep (logStep sha256 upper) StartsNone m events) (waiting : List (LogEvent P))
    (hpending : m.timer.ledger.lq.pending = pushes waiting)
    (hticks : ticks waiting + ticksToFlush m.timer.systemTicks ≤ 10) (hpaced : Paced (waiting ++ events)) :
    ∃ before after, waiting ++ events = before ++ after ∧ ticks after ≤ 9 ∧
      u.timer.ledger.ledger = chain sha256 m.timer.ledger.ledger (pushes before) ∧
      u.timer.ledger.lq.pending = pushes after := by
  induction events generalizing m waiting with
  | nil =>
      obtain rfl := Option.some.inj hrun
      have hpos := ticksToFlush_pos m.timer.systemTicks
      exact ⟨[], waiting, List.append_nil _, by omega, rfl, hpending⟩
  | cons e events ih =>
      obtain ⟨m', hstep, hrest⟩ := haltingRun_cons.mp hrun
      obtain ⟨hnone, hold'⟩ := hold m' hstep
      have hpos := ticksToFlush_pos m.timer.systemTicks
      have hsplit : waiting ++ e :: events = (waiting ++ [e]) ++ events := by
        rw [List.append_assoc, List.singleton_append]
      have hpushes : pushes (waiting ++ [e]) = pushes waiting ++ e.pushed := by
        rw [pushes_append, pushes_singleton]
      cases htick : e.isTick with
      | false =>
          obtain ⟨hsame, hkept, hpending'⟩ := logStep_quiet sha256 htick hstep
          have hwindow : ticks (waiting ++ [e]) = ticks waiting := by
            rw [ticks_snoc, htick]
            rfl
          -- the window since the last flush bounds what is pending together with the event
          have hroom := hpaced [] (waiting ++ [e]) events hsplit (by omega)
          rw [hpushes, List.length_append, ← hpending] at hroom
          rw [LogEvent.accepted_eq_pushed hroom, hpending, ← hpushes] at hpending'
          obtain ⟨before, after, heq, hafter, hledger, hqueue⟩ := ih hrest hold' (waiting ++ [e]) hpending'
            (by rw [hwindow, hsame]; exact hticks) (hsplit ▸ hpaced)
          exact ⟨before, after, hsplit.trans heq, hafter, hkept ▸ hledger, hqueue⟩
      | true =>
          obtain ⟨hnext, hlog⟩ := logStep_tick sha256 htick hnone hstep
          rw [LogEvent.pushed_of_isTick htick, List.append_nil] at hpushes
          by_cases hflush : (m.timer.systemTicks + 1) % 10 = 0
          · rw [if_pos hflush] at hlog
            obtain ⟨hempty, hchain⟩ := ledgerFlushTask_spec sha256 m.timer.ledger
            rw [← hlog] at hempty hchain
            have hpaced' : Paced events := by
              intro before window after heq
              refine hpaced (waiting ++ [e] ++ before) window after ?_
              rw [hsplit, heq]
              simp only [List.append_assoc]
            obtain ⟨before, after, heq, hafter, hledger, hqueue⟩ := ih hrest hold' [] hempty
              ((Nat.zero_add _).trans_le (ticksToFlush_le _)) hpaced'
            refine ⟨waiting ++ [e] ++ before, after, ?_, hafter, ?_, hqueue⟩
            · rw [hsplit, List.append_assoc _ before, ← heq]
              rfl
            · rw [hledger, hchain, pushes_append, hpushes, ← hpending, chain_append]
              rfl
          · rw [if_neg hflush] at hlog
            have hcount := ticksToFlush_succ hflush
            rw [← hnext] at hcount
            have hwindow : ticks (waiting ++ [e]) = ticks waiting + 1 := by
              rw [ticks_snoc, htick]
              rfl
            obtain ⟨before, after, heq, hafter, hledger, hqueue⟩ := ih hrest hold' (waiting ++ [e])
              (by rw [hlog, hpushes]; exact hpending) (by omega) (hsplit ▸ hpaced)
            rw [hlog] at hledger
            exact ⟨before, after, hsplit.trans heq, hafter, hledger, hqueue⟩

/-- **A paced run is logged whole**: if no more than 1023 events are pushed from one tick to the ninth
after it, and no tick starts a process, every event is accepted, in the ledger are all up to some moment
in order, and in the queue those after it, which is fewer than ten ticks ago. -/
theorem paced_run_logged (upper : SegmentRegister → UInt32) (events : List (LogEvent P)) (m u : IrqMachine P)
    (hrun : haltingRun (logStep sha256 upper) m events = some u)
    (hold : EachStep (logStep sha256 upper) StartsNone m events) (hempty : m.timer.ledger.lq.pending = [])
    (hpaced : Paced events) :
    ∃ before after, events = before ++ after ∧ ticks after ≤ 9 ∧
      u.timer.ledger.ledger = chain sha256 m.timer.ledger.ledger (pushes before) ∧
      u.timer.ledger.lq.pending = pushes after :=
  paced_run sha256 hrun hold [] hempty ((Nat.zero_add _).trans_le (ticksToFlush_le _)) hpaced

omit [DecidableEq P] in
theorem pushes_length_le (events : List (LogEvent P)) : (pushes events).length ≤ events.length := by
  induction events with
  | nil => exact Nat.le_refl 0
  | cons e events ih =>
      have he : e.pushed.length ≤ 1 := by cases e <;> simp [LogEvent.pushed]
      have hcons : pushes (e :: events) = e.pushed ++ pushes events := List.flatMap_cons
      rw [hcons, List.length_append, List.length_cons]
      omega

theorem paced_run_logged_idle : ∃ u before after,
    haltingRun (logStep (fun _ => Vector.replicate 32 0) fun _ => 0)
      { idleMachine with timer := { idleMachine.timer with ledger := ⟨ledgerQueueInit, Ledger.zero⟩ } }
      (.push LedgerEvent.zero :: List.replicate 10 idleTick) = some u ∧
    .push LedgerEvent.zero :: List.replicate 10 idleTick = before ++ after ∧
    u.timer.ledger.ledger = chain (fun _ => Vector.replicate 32 0) Ledger.zero (pushes before) ∧
    u.timer.ledger.lq.pending = pushes after := by
  obtain ⟨u, hrun, hold⟩ := idle_run (fun _ => Vector.replicate 32 0) (fun _ => 0) 10 idleMachine rfl rfl
  obtain ⟨before, after, heq, _, hledger, hqueue⟩ := paced_run_logged _ _
    (.push LedgerEvent.zero :: List.replicate 10 idleTick)
    { idleMachine with timer := { idleMachine.timer with ledger := ⟨ledgerQueueInit, Ledger.zero⟩ } } u
    (haltingRun_cons.mpr ⟨idleMachine, rfl, hrun⟩) (EachStep.cons rfl Bool.noConfusion hold)
    LedgerQueue.pending_init (fun before window after heq _ => by
      have hlength := congrArg List.length heq
      rw [List.length_append, List.length_append, List.length_cons, List.length_replicate] at hlength
      have := pushes_length_le window
      omega)
  exact ⟨u, before, after, haltingRun_cons.mpr ⟨idleMachine, rfl, hrun⟩, heq, hledger, hqueue⟩

end LunaOs
