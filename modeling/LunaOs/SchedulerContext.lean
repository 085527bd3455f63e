import LunaOs.Lib.Handover
import LunaOs.Lib.Runs
import LunaOs.PmmInit
import LunaOs.Scheduler

/-! # Saved contexts over runs of ticks

`context_switch(from, to)` is taken to store the executing context in `from` and to load `to`.  Between
two ticks the context changes in any way, so each tick comes with the context that executes then.  The
processor is a resource that is handed from process to process: what a process is handed back is what
it stored.  But `scheduler_start` makes a process the current one without loading it.  The first switch
stores the context that called `scheduler_start` into this process, so the context that was made for
it is never loaded (`contexts_kept_iff`). -/

namespace LunaOs

open Handover

variable {P : Type} [DecidableEq P]

/-- The scheduler with the context switches so far. -/
structure ContextMachine (P : Type) where
  scheduler : Scheduler P
  switches : List (Handover P CPUContext)

/-- `context_switch(&from->ctx, &to->ctx, NULL)` while `cpu` executes. -/
def contextSwitch (m : ContextMachine P) (source target : P) (cpu : CPUContext) : ContextMachine P :=
  let s := m.scheduler.setProc source { m.scheduler.procs source with ctx := cpu }
  { scheduler := s
    switches := m.switches ++
      [{ giver := source, taker := target, saved := cpu, loaded := (s.procs target).ctx }] }

/-- A tick while `cpu` executes.  Nothing is left after a fault. -/
def ContextMachine.step (m : ContextMachine P) (cpu : CPUContext) : Option (ContextMachine P) :=
  match schedulerTick m.scheduler with
  | .error _ => none
  | .ok (s, none) => some { m with scheduler := s }
  | .ok (s, some (prev, next)) => some (contextSwitch { m with scheduler := s } prev next cpu)

/-- The current process holds the processor, and the others keep what they stored last. -/
structure ContextsStored (init : P → CPUContext) (c : P) (m : ContextMachine P) : Prop where
  passes : Passes c m.switches
  current : m.scheduler.currentProcess = some (holder c m.switches)
  loads : LoadsStored init m.switches
  ctx_eq : ∀ p, (m.scheduler.procs p).ctx = (lastSaved m.switches p).getD (init p)

theorem ContextsStored.step {init : P → CPUContext} {c : P} {m m' : ContextMachine P}
    {cpu : CPUContext} (h : ContextsStored init c m) (hstep : m.step cpu = some m') :
    ContextsStored init c m' := by
  unfold ContextMachine.step at hstep
  cases htick : schedulerTick m.scheduler with
  | error e =>
      rw [htick] at hstep
      cases hstep
  | ok r =>
      obtain ⟨s, switch⟩ := r
      have hctx : ∀ p, (s.procs p).ctx = (lastSaved m.switches p).getD (init p) := by
        intro p
        rw [(schedulerTick_reschedules htick).procs_eq p]
        exact h.ctx_eq p
      rw [htick] at hstep
      rcases schedulerTick_switch htick with ⟨rfl, hcurrent⟩ | ⟨d, n, rfl, hcurrent, _, hne, hcurrent'⟩
      · obtain rfl := Option.some.inj hstep
        exact ⟨h.passes, hcurrent.trans h.current, h.loads, hctx⟩
      · obtain rfl := Option.some.inj hstep
        obtain rfl := Option.some.inj (hcurrent.symm.trans h.current)
        have hloaded : ((s.setProc (holder c m.switches)
            { s.procs (holder c m.switches) with ctx := cpu }).procs n).ctx = (s.procs n).ctx :=
          congrArg Process.ctx (Function.update_of_ne hne _ _)
        refine ⟨passes_append.mpr ⟨h.passes, rfl, hne, trivial⟩, ?_, ?_, fun p => ?_⟩
        · unfold contextSwitch
          dsimp only
          rw [holder_append]
          exact hcurrent'
        · exact (loadsStored_append _ _).mpr ⟨h.loads, hloaded.trans (hctx n)⟩
        · unfold contextSwitch
          dsimp only
          rw [lastSaved_append]
          by_cases hp : p = holder c m.switches
          · unfold Scheduler.setProc
            simp [hp]
          · unfold Scheduler.setProc
            simp [hp, Ne.symm hp, hctx p]

/-- **When each process is first loaded with the context that was made for it**, and later with the one it
was switched out with: when no switch goes back to the process that the start chose, or the context
that executes at the first switch is the one that was made for it. -/
theorem contexts_kept_iff (s s₀ : Scheduler P) (hstart : schedulerStart s = .ok s₀) (c : P)
    (hcurrent : s₀.currentProcess = some c) (cpus : List CPUContext) (m : ContextMachine P)
    (hrun : Runs.haltingRun ContextMachine.step ⟨s₀, []⟩ cpus = some m) :
    InitialThenLast (fun p => (s.procs p).ctx) m.switches ↔
      (∀ switch ∈ m.switches, switch.taker ≠ c) ∨
        ∀ switch rest, m.switches = switch :: rest → switch.saved = (s.procs c).ctx := by
  have hinit : ContextsStored (fun p => (s.procs p).ctx) c ⟨s₀, []⟩ := by
    refine ⟨trivial, hcurrent, fun pre h post heq => by simp at heq, fun p => ?_⟩
    show (s₀.procs p).ctx = (s.procs p).ctx
    rw [(schedulerStart_reschedules hstart).procs_eq p]
  have hstored := Runs.haltingRun_invariant (fun _ _ _ h hstep => h.step hstep) hinit hrun
  exact initialThenLast_iff hstored.passes hstored.loads

/-- Two ready processes of level 8 with slices of one tick, made to begin at 0x1000 and 0x2000. -/
def freshPair : Scheduler Bool where
  procs p := { priority := 8, ticksAlloc := 1, ctx := { eip := if p then 0x2000 else 0x1000 } }
  next p := some !p
  runQueues k := if k.val = 8 then some false else none
  currentProcess := none
  schedulerActive := false
  tssEsp0 := 0
  vmm := ⟨Pmm.statics, fun _ => 0, 0, 0⟩

theorem contexts_kept_iff_freshPair : ∃ s₀ m, schedulerStart freshPair = .ok s₀ ∧
    Runs.haltingRun ContextMachine.step ⟨s₀, []⟩ [{ eip := 0x9000 }] = some m ∧
    (InitialThenLast (fun p => (freshPair.procs p).ctx) m.switches ↔
      (∀ switch ∈ m.switches, switch.taker ≠ false) ∨
        ∀ switch rest, m.switches = switch :: rest → switch.saved = (freshPair.procs false).ctx) :=
  ⟨_, _, rfl, rfl, contexts_kept_iff freshPair _ rfl false rfl [{ eip := 0x9000 }] _ rfl⟩

/-- The context that starts the scheduler, at 0x9000, is what the first process is first loaded with. -/
theorem contexts_not_kept : ∃ s₀ m, schedulerStart freshPair = .ok s₀ ∧
    Runs.haltingRun ContextMachine.step ⟨s₀, []⟩ [{ eip := 0x9000 }, { eip := 0x2004 }] = some m ∧
    ¬ InitialThenLast (fun p => (freshPair.procs p).ctx) m.switches := by
  refine ⟨_, _, rfl, rfl, fun h => ?_⟩
  have hfirst := h.initial [_] _ [] rfl (by decide)
  exact absurd (congrArg CPUContext.eip hfirst) (by decide)

end LunaOs
