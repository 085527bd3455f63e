import LunaOs.Lib.Runs
import LunaOs.PmmInit
import LunaOs.Scheduler

/-! # The scheduler on the process table

The processes of the scheduler are the slots of the table in `kernel/process.c`, and both modules
write their states.  `process_spawn_ring3` clears the slot it takes, the scheduler's link included.
A run that marks processes killed keeps them off the processor exactly if it never adds or unblocks
one of them again (`killed_iff`): `scheduler_add` and `scheduler_unblock` make a process ready without
a look at its state. -/

namespace LunaOs

/-- The processes as `process.c` and `scheduler.c` share them. -/
structure Tasks where
  scheduler : Scheduler (Fin MAX_PROCESSES)
  pidCounter : UInt32

/-- What the functions of `process.c` work on. -/
def Tasks.manager (k : Tasks) : ProcessManager :=
  { vmm := k.scheduler.vmm, processTable := k.scheduler.procs, pidCounter := k.pidCounter,
    tssEsp0 := k.scheduler.tssEsp0 }

def Tasks.setManager (k : Tasks) (m : ProcessManager) : Tasks where
  scheduler :=
    { k.scheduler with procs := m.processTable, vmm := m.vmm, tssEsp0 := m.tssEsp0 }
  pidCounter := m.pidCounter

def Tasks.kill (k : Tasks) (pid : UInt32) : Tasks := k.setManager (processKill k.manager pid)

def Tasks.spawnRing3 (k : Tasks) (name : CString) (entry : UInt32) : Except KernelPanic Tasks := do
  let (i, m) ← processSpawnRing3 k.manager name entry
  let k := k.setManager m
  .ok { k with
    scheduler := { k.scheduler with next := Function.update k.scheduler.next i none } }

/-! ### Killed processes -/

inductive KillOp where
  | kill (pid : UInt32)
  | add (p : Fin MAX_PROCESSES)
  | remove (p : Fin MAX_PROCESSES)
  | block (p : Fin MAX_PROCESSES)
  | unblock (p : Fin MAX_PROCESSES)
  | tick

/-- The tasks with the processes that `process_kill` has marked. -/
structure Killing where
  tasks : Tasks
  killed : Finset (Fin MAX_PROCESSES)

/-- The scheduler has done its part. -/
def Killing.withScheduler (c : Killing) (s : Scheduler (Fin MAX_PROCESSES)) : Killing :=
  { c with tasks := { c.tasks with scheduler := s } }

/-- Nothing is left after a fault. -/
def Killing.step (c : Killing) : KillOp → Option Killing
  | .kill pid => some
      { tasks := c.tasks.kill pid
        killed := (processGetByPid c.tasks.manager pid).elim c.killed (insert · c.killed) }
  | .add p => (schedulerAdd c.tasks.scheduler p).toOption.map c.withScheduler
  | .remove p => (schedulerRemove c.tasks.scheduler p).toOption.map c.withScheduler
  | .block p => (schedulerBlock c.tasks.scheduler p).toOption.map c.withScheduler
  | .unblock p => (schedulerUnblock c.tasks.scheduler p).toOption.map c.withScheduler
  | .tick => (schedulerTick c.tasks.scheduler).toOption.map fun r => c.withScheduler r.1

/-- **Killed processes stay killed**: none of them is ready or running, and no tick switches to one. -/
structure KilledStay (c : Killing) : Prop where
  not_runnable : ∀ p ∈ c.killed, ¬ (c.tasks.scheduler.procs p).Runnable
  not_chosen : ∀ p ∈ c.killed, ∀ s' q, schedulerTick c.tasks.scheduler ≠ .ok (s', some (q, p))

/-- No killed process is added or unblocked. -/
def SparesKilled (c : Killing) : KillOp → Prop
  | .add p => p ∉ c.killed
  | .unblock p => p ∉ c.killed
  | _ => True

theorem killedStay_of_not_runnable {c : Killing}
    (h : ∀ p ∈ c.killed, ¬ (c.tasks.scheduler.procs p).Runnable) : KilledStay c := by
  refine ⟨h, fun p hp s' q htick => ?_⟩
  rcases schedulerTick_switch htick with ⟨hnone, _⟩ | ⟨c, n, hswitch, _, hready, _⟩
  · cases hnone
  · obtain ⟨_, rfl⟩ := Prod.mk.inj (Option.some.inj hswitch)
    exact h p hp (.inl hready)

theorem KilledStay.ready_iff {c : Killing} (h : KilledStay c) {s' : Scheduler (Fin MAX_PROCESSES)}
    {p : Fin MAX_PROCESSES} (hstate : ∀ q, (s'.procs q).state =
      if q = p then .ready else (c.tasks.scheduler.procs q).state) :
    KilledStay (c.withScheduler s') ↔ p ∉ c.killed := by
  constructor
  · intro h' hp
    exact h'.not_runnable p hp (.inl ((hstate p).trans (if_pos rfl)))
  · intro hp
    refine killedStay_of_not_runnable fun q hq hrun => h.not_runnable q hq ?_
    have hqp : q ≠ p := by
      rintro rfl
      exact hp hq
    unfold Process.Runnable at hrun
    rwa [show (((c.withScheduler s').tasks.scheduler.procs q)).state = _ from hstate q, if_neg hqp]
      at hrun

theorem KilledStay.of_runnable {c : Killing} (h : KilledStay c) {s' : Scheduler (Fin MAX_PROCESSES)}
    (hrun : ∀ q, (s'.procs q).Runnable → (c.tasks.scheduler.procs q).Runnable) :
    KilledStay (c.withScheduler s') :=
  killedStay_of_not_runnable fun q hq hq' => h.not_runnable q hq (hrun q hq')

theorem KilledStay.kill {c : Killing} (h : KilledStay c) (pid : UInt32) :
    ∀ c', c.step (.kill pid) = some c' → KilledStay c' := by
  rintro c' hstep
  obtain rfl := Option.some.inj hstep
  refine killedStay_of_not_runnable fun q hq => ?_
  show ¬ ((processKill c.tasks.manager pid).processTable q).Runnable
  dsimp only at hq
  unfold processKill
  cases hfind : processGetByPid c.tasks.manager pid with
  | none =>
      rw [hfind] at hq
      exact h.not_runnable q hq
  | some i =>
      rw [hfind] at hq
      dsimp only
      by_cases hqi : q = i
      · subst hqi
        rw [Function.update_self]
        rintro (hready | hrunning)
        · cases hready
        · cases hrunning
      · rw [Function.update_of_ne hqi]
        exact h.not_runnable q ((Finset.mem_insert.mp hq).resolve_left hqi)

/-- **One operation keeps the killed off the processor exactly if it does not add or unblock one.** -/
theorem step_killedStay_iff {c c' : Killing} {op : KillOp} (h : KilledStay c)
    (hstep : c.step op = some c') : KilledStay c' ↔ SparesKilled c op := by
  cases op with
  | kill pid => exact iff_of_true (h.kill pid c' hstep) trivial
  | add p =>
      obtain ⟨s', hok, rfl⟩ := toOption_map_eq_some hstep
      refine h.ready_iff fun q => ?_
      rw [schedulerAdd_ok hok, setState_procs]
  | remove p =>
      obtain ⟨s', hok, rfl⟩ := toOption_map_eq_some hstep
      refine iff_of_true (h.of_runnable fun q hq => ?_) trivial
      rwa [schedulerRemove_ok hok] at hq
  | block p =>
      obtain ⟨s', hok, rfl⟩ := toOption_map_eq_some hstep
      refine iff_of_true (h.of_runnable fun q hq => ?_) trivial
      rw [schedulerRemove_ok hok, setState_procs] at hq
      unfold Process.Runnable at hq
      dsimp only at hq
      split_ifs at hq with hqp
      · rcases hq with hq | hq <;> cases hq
      · exact hq
  | unblock p =>
      obtain ⟨s', hok, rfl⟩ := toOption_map_eq_some hstep
      refine h.ready_iff fun q => ?_
      rw [schedulerAdd_ok hok, setState_procs, setState_procs]
      dsimp only
      split_ifs <;> rfl
  | tick =>
      obtain ⟨r, hok, rfl⟩ := toOption_map_eq_some hstep
      refine iff_of_true (h.of_runnable fun q hq => ?_) trivial
      rcases (schedulerTick_reschedules hok).state_eq q with heq | ⟨hrun, _⟩
      · unfold Process.Runnable at hq ⊢
        rwa [heq] at hq
      · exact hrun

/-- **Throughout a run the killed processes stay off the processor exactly if none of them is added or
unblocked again.** -/
theorem killed_iff (tasks : Tasks) (ops : List KillOp) :
    Runs.Throughout Killing.step (fun _ c => KilledStay c) [] ⟨tasks, ∅⟩ ops ↔
      Runs.EachStep Killing.step SparesKilled ⟨tasks, ∅⟩ ops :=
  Runs.throughout_iff (fun _ _ => True) (P := fun _ c => KilledStay c) (Q := SparesKilled)
    (fun _ _ _ _ _ _ _ => trivial)
    (fun _ _ _ _ _ hstay _ hstep => step_killedStay_iff hstay hstep) trivial
    (killedStay_of_not_runnable fun p hp => absurd hp (Finset.notMem_empty p))
    (fun _ _ => trivial : ∀ _ ∈ ops, True)

def firstSlot : Fin MAX_PROCESSES := ⟨0, Nat.zero_lt_succ 63⟩

/-- The tasks of a table in which every process waits. -/
def allBlocked : Tasks where
  scheduler := bootScheduler (fun _ => { state := .blocked }) ⟨Pmm.statics, fun _ => 0, 0, 0⟩
  pidCounter := 1

/-- A blocked process is killed, and what it waited for wakes it up again. -/
theorem killed_runs_again : ∃ c,
    Runs.haltingRun Killing.step ⟨allBlocked, ∅⟩ [.kill 0, .unblock firstSlot] = some c ∧
      firstSlot ∈ c.killed ∧ (c.tasks.scheduler.procs firstSlot).state = .ready ∧
      ¬ KilledStay c := by
  refine ⟨_, rfl, ?_⟩
  have hkilled : firstSlot ∈
      ((processGetByPid allBlocked.manager 0).elim ∅ (insert · ∅) : Finset (Fin MAX_PROCESSES)) := by
    decide
  exact ⟨hkilled, rfl, fun h => h.not_runnable firstSlot hkilled (.inl rfl)⟩

end LunaOs
