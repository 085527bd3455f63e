import LunaOs.Ledger
import LunaOs.PmmInit
import LunaOs.Scheduler

/-! # The timer interrupt and `scheduler_yield`

`timer_irq_handler` of `arch/x86/timer.c` counts the tick, runs `scheduler_tick` and flushes the ledger
on every tenth tick.  When the tick switches to another process, the handler goes on only after the
processor has come back to the process it interrupted: `timerIrqHandler` then ends with the switch,
and `timerIrqRest` is what is left.

`scheduler_yield` sets `ticks_run` to 0 and raises interrupt 0x20, which is taken here to run this
handler.  The tick counts first, so it tests 1 against the length of the slice, and gives the processor
away exactly if the slice is a single tick (`yield_switches_iff`). -/

namespace LunaOs

variable {P : Type} [DecidableEq P] (sha256 : List UInt8 → Digest)

/-- `system_ticks` with the scheduler and the ledger. -/
structure Timer (P : Type) where
  systemTicks : UInt64
  scheduler : Scheduler P
  ledger : LedgerState

omit [DecidableEq P] in
/-- `timer_irq_handler` after `scheduler_tick` has returned. -/
def timerIrqRest (s : Timer P) : Timer P :=
  if s.systemTicks % 10 = 0 then { s with ledger := ledgerFlushTask sha256 s.ledger } else s

/-- `timer_irq_handler`: a tick, the scheduler and the ledger, in this order. -/
def timerIrqHandler (s : Timer P) : Except SchedulerFault (Timer P × Option (P × P)) := do
  let s := { s with systemTicks := s.systemTicks + 1 }
  let (scheduler, switch) ← schedulerTick s.scheduler
  let s := { s with scheduler }
  match switch with
  | some switch => .ok (s, some switch)
  | none => .ok (timerIrqRest sha256 s, none)

/-- `if (current_process) current_process->ticks_run = 0;` -/
def resetSlice (s : Scheduler P) : Scheduler P :=
  match s.currentProcess with
  | none => s
  | some c => s.setProc c { s.procs c with ticksRun := 0 }

/-- The slice is reset, and the handler of IRQ 0 runs. -/
def schedulerYield (s : Timer P) : Except SchedulerFault (Timer P × Option (P × P)) :=
  timerIrqHandler sha256 { s with scheduler := resetSlice s.scheduler }

/-! ### The scheduler after an interrupt -/

omit [DecidableEq P] in
theorem timerIrqRest_scheduler (s : Timer P) : (timerIrqRest sha256 s).scheduler = s.scheduler := by
  unfold timerIrqRest
  split_ifs <;> rfl

/-- **The handler does to the scheduler what a tick does.** -/
theorem timerIrqHandler_scheduler {s : Timer P} {s' : Scheduler P} {switch : Option (P × P)}
    (h : schedulerTick s.scheduler = .ok (s', switch)) :
    ∃ t, timerIrqHandler sha256 s = .ok (t, switch) ∧ t.scheduler = s' := by
  unfold timerIrqHandler
  dsimp only
  rw [h]
  cases switch with
  | none => exact ⟨_, rfl, timerIrqRest_scheduler sha256 _⟩
  | some switch => exact ⟨_, rfl, rfl⟩

/-! ### Yielding -/

omit [DecidableEq P] in
theorem pickNextBelow_congr {s s' : Scheduler P} (hqueues : s'.runQueues = s.runQueues)
    (hnext : s'.next = s.next) (hstate : ∀ p, (s'.procs p).state = (s.procs p).state) (n : ℕ) :
    (pickNextBelow n s').1 = (pickNextBelow n s).1 := by
  induction n generalizing s s' with
  | zero => rfl
  | succ n ih =>
      unfold pickNextBelow
      dsimp only
      rw [hqueues]
      cases s.runQueues (Fin.ofNat NUM_PRIO n) with
      | none => exact ih hqueues hnext hstate
      | some p =>
          dsimp only
          rw [hstate p, hnext]
          split_ifs
          · rfl
          · exact ih rfl rfl hstate

theorem resetSlice_eq {s : Scheduler P} {c : P} (hcurrent : s.currentProcess = some c) :
    resetSlice s = s.setProc c { s.procs c with ticksRun := 0 } := by
  unfold resetSlice
  rw [hcurrent]

theorem one_mod_eq_zero_iff {a : UInt32} : (0 + 1) % a = 0 ↔ a = 1 := by
  rw [← UInt32.toNat_inj, ← UInt32.toNat_inj, UInt32.toNat_mod]
  show 1 % a.toNat = 0 ↔ a.toNat = 1
  rw [← Nat.dvd_iff_mod_eq_zero, Nat.dvd_one]

/-- **When `scheduler_yield` gives the processor away**, with another process to give it to: when the
slice of the current process is one tick long. -/
theorem yield_switches_iff (s : Timer P) (c n : P) (hactive : s.scheduler.schedulerActive = true)
    (hcurrent : s.scheduler.currentProcess = some c) (halloc : (s.scheduler.procs c).ticksAlloc ≠ 0)
    (hpick : (pickNext s.scheduler).1 = some n) (hn : n ≠ c) :
    ∃ s' switch, schedulerYield sha256 s = .ok (s', switch) ∧
      (s'.scheduler.currentProcess ≠ some c ↔ (s.scheduler.procs c).ticksAlloc = 1) := by
  have hreset := resetSlice_eq hcurrent
  have hself : (resetSlice s.scheduler).procs c = { s.scheduler.procs c with ticksRun := 0 } := by
    rw [hreset]
    exact Function.update_self _ _ _
  have hstate : ∀ p, ((resetSlice s.scheduler).procs p).state = (s.scheduler.procs p).state := by
    intro p
    by_cases hp : p = c
    · rw [hp, hself]
    · rw [hreset]
      exact congrArg Process.state (Function.update_of_ne hp _ _)
  have hcurrent' : (resetSlice s.scheduler).currentProcess = some c := by rw [hreset]; exact hcurrent
  have hactive' : (resetSlice s.scheduler).schedulerActive = true := by rw [hreset]; exact hactive
  have htick := schedulerTick_eq hcurrent' hactive' (by rw [hself]; exact halloc)
  rw [hself] at htick
  dsimp only at htick
  by_cases hone : (s.scheduler.procs c).ticksAlloc = 1
  · have hpick' : (pickNext (countTick (resetSlice s.scheduler) c)).1 = some n := by
      refine (pickNextBelow_congr ?_ ?_ (fun p => ?_) _).trans hpick
      · rw [hreset]; rfl
      · rw [hreset]; rfl
      · rw [countTick_procs]
        exact hstate p
    rw [if_neg (not_not.mpr (one_mod_eq_zero_iff.mpr hone)), endSlice_of_pickNext hpick' hn] at htick
    obtain ⟨t, hyield, hscheduler⟩ := timerIrqHandler_scheduler sha256
      (s := { s with scheduler := resetSlice s.scheduler }) htick
    refine ⟨t, _, hyield, iff_of_true ?_ hone⟩
    rw [hscheduler, switchTo_currentProcess]
    exact fun heq => hn (Option.some.inj heq)
  · rw [if_pos fun hzero => hone (one_mod_eq_zero_iff.mp hzero)] at htick
    obtain ⟨t, hyield, hscheduler⟩ := timerIrqHandler_scheduler sha256
      (s := { s with scheduler := resetSlice s.scheduler }) htick
    refine ⟨t, _, hyield, iff_of_false (not_not.mpr ?_) hone⟩
    rw [hscheduler]
    exact hcurrent'

/-- Process `false` runs and process `true` is ready, both of level 8. -/
def readyPair (ticksAlloc : UInt32) : Timer Bool where
  systemTicks := 0
  scheduler :=
    { procs := fun p =>
        if p then { priority := 8 } else { priority := 8, state := .running, ticksAlloc }
      next := fun p => some !p
      runQueues := fun k => if k.val = 8 then some true else none
      currentProcess := some false
      schedulerActive := true
      tssEsp0 := 0
      vmm := ⟨Pmm.statics, fun _ => 0, 0, 0⟩ }
  ledger := ⟨ledgerQueueInit, Ledger.zero⟩

theorem yield_switches_iff_readyPair : ∃ s' switch,
    schedulerYield (fun _ => Vector.replicate 32 0) (readyPair 1) = .ok (s', switch) ∧
      s'.scheduler.currentProcess ≠ some false := by
  obtain ⟨s', switch, hyield, hiff⟩ := yield_switches_iff (fun _ => Vector.replicate 32 0) (readyPair 1) false true
    rfl rfl (by decide) (by decide) (by decide)
  exact ⟨s', switch, hyield, hiff.mpr rfl⟩

/-- With the slice of 8 ticks that `process_spawn_ring3` gives, the process that yields goes on. -/
theorem yield_stays : (pickNext (readyPair 8).scheduler).1 = some true ∧ ∃ s' switch,
    schedulerYield (fun _ => Vector.replicate 32 0) (readyPair 8) = .ok (s', switch) ∧
      s'.scheduler.currentProcess = some false :=
  ⟨by decide, _, _, rfl, rfl⟩

end LunaOs
