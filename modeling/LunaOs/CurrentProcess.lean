import LunaOs.SchedulerHardware
import LunaOs.Timer

/-! # The two current processes

`kernel/process.c` has a variable `current_proc`, which `process_get_current` returns to the system
calls, and `kernel/scheduler.c` one of its own, `current_process`.  The scheduler writes only its own,
and `process_set_current` is called from nowhere, so `current_proc` keeps its initial value `NULL`:
after every start of the scheduler, in every run, the two differ (`currentAgrees_never`). -/

namespace LunaOs

open Runs

/-- The tasks with `current_proc`. -/
structure TaskSystem where
  tasks : Tasks
  currentProc : Option (Fin MAX_PROCESSES)

namespace TaskSystem

/-- `current_proc` is `NULL` from the start, and `process_init` sets it so. -/
def boot (tasks : Tasks) : TaskSystem := ⟨tasks, none⟩

/-- `current_proc` of `process.c`. -/
def processGetCurrent (k : TaskSystem) : Option (Fin MAX_PROCESSES) := k.currentProc

/-- `current_process` of `scheduler.c`, another variable. -/
def schedulerCurrent (k : TaskSystem) : Option (Fin MAX_PROCESSES) := k.tasks.scheduler.currentProcess

def proc (k : TaskSystem) (p : Fin MAX_PROCESSES) : Process := k.tasks.scheduler.procs p

def withTasks (k : TaskSystem) (tasks : Tasks) : TaskSystem := { k with tasks }

def withScheduler (k : TaskSystem) (s : Scheduler (Fin MAX_PROCESSES)) : TaskSystem :=
  k.withTasks { k.tasks with scheduler := s }

/-! ### The system calls that ask for the current process -/

def sysGetpid (k : TaskSystem) : UInt32 :=
  match k.processGetCurrent with
  | some p => (k.proc p).pid
  | none => 0

/-- `process_kill(p->pid);` -/
def exitKill (k : TaskSystem) : Except SchedulerFault TaskSystem :=
  match k.processGetCurrent with
  | some p => .ok (k.withTasks (k.tasks.kill (k.proc p).pid))
  | none => .error .nullDeref

/-- The interrupt that `scheduler_yield` raises does to the scheduler what a tick does. -/
def sysExit (k : TaskSystem) (code : UInt32) : Except SchedulerFault (UInt32 × TaskSystem) := do
  let k ← k.exitKill
  let (scheduler, _) ← schedulerTick (resetSlice k.tasks.scheduler)
  .ok (code, k.withScheduler scheduler)

end TaskSystem

/-- `process_create` on the tasks; the scheduler's link is cleared with the slot. -/
def Tasks.create (k : Tasks) (name : CString) (entry : UInt32) (ring priority : UInt8) :
    Except KernelPanic Tasks := do
  let (i, m) ← processCreate k.manager name entry ring priority
  let k := k.setManager m
  .ok { k with
    scheduler := { k.scheduler with next := Function.update k.scheduler.next i none } }

/-! ### Runs -/

inductive TaskOp where
  | create (name : CString) (entry : UInt32) (ring priority : UInt8)
  | spawnRing3 (name : CString) (entry : UInt32)
  | add (p : Fin MAX_PROCESSES)
  | start
  | tick

/-- Nothing is left after a panic or a fault. -/
def TaskSystem.step (k : TaskSystem) : TaskOp → Option TaskSystem
  | .create name entry ring priority => (k.tasks.create name entry ring priority).toOption.map k.withTasks
  | .spawnRing3 name entry => (k.tasks.spawnRing3 name entry).toOption.map k.withTasks
  | .add p => (schedulerAdd k.tasks.scheduler p).toOption.map k.withScheduler
  | .start => (schedulerStart k.tasks.scheduler).toOption.map k.withScheduler
  | .tick => (schedulerTick k.tasks.scheduler).toOption.map fun r => k.withScheduler r.1

/-- The system calls act on the process that runs. -/
structure CurrentAgrees (k : TaskSystem) : Prop where
  agree : k.processGetCurrent = k.schedulerCurrent
  getpid : ∀ c, k.schedulerCurrent = some c → k.sysGetpid = (k.proc c).pid
  exit : ∀ c, k.schedulerCurrent = some c → ∃ k', k.exitKill = .ok k' ∧
    ∀ q, (k'.proc q).state = if q = c then .zombie else (k.proc q).state

section
variable {k k' : TaskSystem}

/-- **No operation writes `current_proc`.** -/
theorem TaskSystem.step_currentProc {op : TaskOp} (h : k.step op = some k') :
    k'.currentProc = k.currentProc := by
  cases op with
  | create name entry ring priority =>
      obtain ⟨tasks, _, rfl⟩ := toOption_map_eq_some h
      rfl
  | spawnRing3 name entry =>
      obtain ⟨tasks, _, rfl⟩ := toOption_map_eq_some h
      rfl
  | add p =>
      obtain ⟨s, _, rfl⟩ := toOption_map_eq_some h
      rfl
  | start =>
      obtain ⟨s, _, rfl⟩ := toOption_map_eq_some h
      rfl
  | tick =>
      obtain ⟨r, _, rfl⟩ := toOption_map_eq_some h
      rfl

theorem TaskSystem.start_current (h : k.step .start = some k') : k'.schedulerCurrent ≠ none := by
  obtain ⟨s, hstart, rfl⟩ := toOption_map_eq_some h
  obtain ⟨_, p, _, _, _, rfl⟩ := schedulerStart_cases hstart
  exact Option.some_ne_none p

theorem TaskSystem.step_current {op : TaskOp} (hcurrent : k.schedulerCurrent ≠ none)
    (h : k.step op = some k') : k'.schedulerCurrent ≠ none := by
  cases op with
  | create name entry ring priority =>
      obtain ⟨tasks, hcreate, rfl⟩ := toOption_map_eq_some h
      obtain ⟨⟨i, m⟩, _, hret⟩ := bind_eq_ok hcreate
      cases hret
      exact hcurrent
  | spawnRing3 name entry =>
      obtain ⟨tasks, hspawn, rfl⟩ := toOption_map_eq_some h
      obtain ⟨⟨i, m⟩, _, hret⟩ := bind_eq_ok hspawn
      cases hret
      exact hcurrent
  | add p =>
      obtain ⟨s, hadd, rfl⟩ := toOption_map_eq_some h
      unfold TaskSystem.schedulerCurrent at hcurrent ⊢
      rwa [show (k.withScheduler s).tasks.scheduler.currentProcess = k.tasks.scheduler.currentProcess from
        schedulerAdd_currentProcess hadd]
  | start => exact TaskSystem.start_current h
  | tick =>
      obtain ⟨⟨s, switch⟩, htick, rfl⟩ := toOption_map_eq_some h
      rcases schedulerTick_switch htick with ⟨_, hsame⟩ | ⟨_, n, _, _, _, _, hnext⟩
      · unfold TaskSystem.schedulerCurrent at hcurrent ⊢
        rwa [show ((k.withScheduler s).tasks.scheduler).currentProcess = _ from hsame]
      · unfold TaskSystem.schedulerCurrent
        rw [show ((k.withScheduler s).tasks.scheduler).currentProcess = _ from hnext]
        exact Option.some_ne_none n

theorem TaskSystem.syscalls_of_null (h : k.currentProc = none) :
    k.sysGetpid = 0 ∧ ∀ code, k.sysExit code = .error .nullDeref := by
  unfold TaskSystem.sysGetpid TaskSystem.sysExit TaskSystem.exitKill TaskSystem.processGetCurrent
  rw [h]
  exact ⟨rfl, fun _ => rfl⟩

end

/-- **After a start of the scheduler the system calls never act on the process that runs**: in every run
from the boot there is one, but `current_proc` is still `NULL`. -/
theorem currentAgrees_never (tasks : Tasks) (before after : List TaskOp) (k : TaskSystem)
    (hrun : haltingRun TaskSystem.step (TaskSystem.boot tasks) (before ++ .start :: after) = some k) :
    ¬ CurrentAgrees k ∧ k.sysGetpid = 0 ∧ ∀ code, k.sysExit code = .error .nullDeref := by
  have hnull : k.currentProc = none :=
    haltingRun_invariant (fun k _ _ (h : TaskSystem.currentProc k = none) hstep =>
      (TaskSystem.step_currentProc hstep).trans h) rfl hrun
  obtain ⟨k₁, _, hrest⟩ := haltingRun_append.mp hrun
  obtain ⟨k₂, hstart, hafter⟩ := haltingRun_cons.mp hrest
  have hcurrent : k.schedulerCurrent ≠ none :=
    haltingRun_invariant (fun k _ _ (h : TaskSystem.schedulerCurrent k ≠ none) hstep =>
      TaskSystem.step_current h hstep) (TaskSystem.start_current hstart) hafter
  refine ⟨fun hagrees => hcurrent ?_, TaskSystem.syscalls_of_null hnull⟩
  exact hagrees.agree.symm.trans hnull

/-- The two processes of ring 3 are started and a tick passes. -/
theorem currentAgrees_never_twoUsers :
    ∃ k, haltingRun TaskSystem.step (TaskSystem.boot twoUsers) [.start, .tick] = some k ∧
      ¬ CurrentAgrees k ∧ k.sysGetpid = 0 ∧ ∀ code, k.sysExit code = .error .nullDeref :=
  ⟨_, rfl, currentAgrees_never twoUsers [] [.tick] _ rfl⟩

/-- The process with pid 1 runs, and asks for its pid. -/
theorem getpid_of_running :
    ∃ k, haltingRun TaskSystem.step (TaskSystem.boot twoUsers) [.start, .tick] = some k ∧
      k.schedulerCurrent = some firstSlot ∧ (k.proc firstSlot).pid = 1 ∧
      (k.proc firstSlot).state = .running ∧ k.sysGetpid = 0 ∧ ¬ CurrentAgrees k := by
  refine ⟨_, rfl, rfl, rfl, rfl, rfl, ?_⟩
  intro h
  have hpid := h.getpid firstSlot rfl
  exact absurd hpid (by decide)

end LunaOs
