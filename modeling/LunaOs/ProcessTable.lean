import LunaOs.Tasks

/-! # Slots of the process table

`alloc_slot` takes a slot only in state `PROC_DEAD`, but `process_init` clears the table, which makes
every state `PROC_READY`, and `process_kill` marks a process `PROC_ZOMBIE`; nothing ever makes a slot
dead.  So the first creation after `process_init` panics over an empty table, and
`process_get_by_pid(0)` finds a process that was never made. -/

namespace LunaOs

open Runs

/-- The calls of a run, with the pids that were issued and the processes that were made and not
killed. -/
structure TableClient where
  manager : ProcessManager
  issued : List UInt32
  live : List (UInt32 × Fin MAX_PROCESSES)

inductive TableOp where
  | create (name : CString) (entry : UInt32) (ring priority : UInt8)
  | spawnRing3 (name : CString) (entry : UInt32)
  | kill (pid : UInt32)

namespace TableClient

/-- The table that `process_init` leaves. -/
def init (s : ProcessManager) : TableClient := ⟨processInit s, [], []⟩

/-- A process was made in slot `r.1`. -/
def made (c : TableClient) (r : Fin MAX_PROCESSES × ProcessManager) : TableClient :=
  let pid := (r.2.processTable r.1).pid
  ⟨r.2, pid :: c.issued, (pid, r.1) :: c.live⟩

/-- Nothing is left after a panic. -/
def step (c : TableClient) : TableOp → Option TableClient
  | .create name entry ring priority =>
      (processCreate c.manager name entry ring priority).toOption.map c.made
  | .spawnRing3 name entry => (processSpawnRing3 c.manager name entry).toOption.map c.made
  | .kill pid => some
      { c with manager := processKill c.manager pid, live := c.live.filter fun x => x.1 ≠ pid }

end TableClient

/-- The creations a run may make next. -/
def creations (s : ProcessManager) :
    TableOp → Option (Except KernelPanic (Fin MAX_PROCESSES × ProcessManager))
  | .create name entry ring priority => some (processCreate s name entry ring priority)
  | .spawnRing3 name entry => some (processSpawnRing3 s name entry)
  | .kill _ => none

/-- The table does what its functions are for. -/
structure TableSound (c : TableClient) : Prop where
  full_only : ∀ op, creations c.manager op = some (.error .processTableFull) →
    c.live.length = MAX_PROCESSES
  fresh_slot : ∀ op i m, creations c.manager op = some (.ok (i, m)) → ∀ x ∈ c.live, x.2 ≠ i
  lookup : ∀ x ∈ c.live, processGetByPid c.manager x.1 = some x.2
  unknown : ∀ pid, pid ∉ c.issued → processGetByPid c.manager pid = none

/-! ### No slot is ever dead -/

/-- No slot is dead, and all hold pid 0. -/
structure NoSlots (s : ProcessManager) : Prop where
  not_dead : ∀ i, (s.processTable i).state ≠ .dead
  pid_zero : ∀ i, (s.processTable i).pid = 0

theorem noSlots_init (s : ProcessManager) : NoSlots (processInit s) :=
  ⟨fun _ h => ProcessState.noConfusion h, fun _ => rfl⟩

section
variable {s : ProcessManager}

theorem NoSlots.creations (h : NoSlots s) (op : TableOp)
    (r : Except KernelPanic (Fin MAX_PROCESSES × ProcessManager)) (hr : creations s op = some r) :
    r = .error .processTableFull := by
  cases op with
  | create name entry ring priority =>
      obtain rfl := Option.some.inj hr
      unfold processCreate
      rw [allocSlot_of_not_dead h.not_dead]
      rfl
  | spawnRing3 name entry =>
      obtain rfl := Option.some.inj hr
      unfold processSpawnRing3
      rw [allocSlot_of_not_dead h.not_dead]
      rfl
  | kill pid => cases hr

theorem NoSlots.kill (h : NoSlots s) (pid : UInt32) : NoSlots (processKill s pid) := by
  unfold processKill
  cases hfind : processGetByPid s pid with
  | none => exact h
  | some i =>
      dsimp only
      refine ⟨fun j => ?_, fun j => ?_⟩
      · by_cases hji : j = i
        · subst hji
          simp
        · simp [Function.update_of_ne hji, h.not_dead j]
      · by_cases hji : j = i
        · subst hji
          simp [h.pid_zero j]
        · simp [Function.update_of_ne hji, h.pid_zero j]

theorem NoSlots.getByPid_zero (h : NoSlots s) : processGetByPid s 0 = some firstSlot := by
  have hfirst : (List.finRange MAX_PROCESSES).head? = some firstSlot := rfl
  obtain ⟨rest, hrest⟩ := List.head?_eq_some_iff.mp hfirst
  unfold processGetByPid
  rw [hrest]
  apply List.find?_cons_of_pos
  simp [h.not_dead, h.pid_zero]

end

/-- No process has been made. -/
structure TableClient.Untouched (c : TableClient) : Prop where
  slots : NoSlots c.manager
  live : c.live = []
  issued : c.issued = []

theorem TableClient.Untouched.step {c c' : TableClient} {op : TableOp} (h : c.Untouched)
    (hstep : c.step op = some c') : c'.Untouched := by
  cases op with
  | create name entry ring priority =>
      obtain ⟨r, hok, _⟩ := toOption_map_eq_some hstep
      have herror := h.slots.creations (.create name entry ring priority) _ rfl
      cases hok.symm.trans herror
  | spawnRing3 name entry =>
      obtain ⟨r, hok, _⟩ := toOption_map_eq_some hstep
      have herror := h.slots.creations (.spawnRing3 name entry) _ rfl
      cases hok.symm.trans herror
  | kill pid =>
      obtain rfl := Option.some.inj hstep
      exact ⟨h.slots.kill pid, by simp [h.live], h.issued⟩

/-- **After `process_init` the table never does what it is for**: at every point of every run a
creation panics although no process has been made, and a process is found for pid 0, which was never
issued. -/
theorem tableSound_never (s : ProcessManager) (ops : List TableOp) (c : TableClient)
    (hrun : haltingRun TableClient.step (TableClient.init s) ops = some c) :
    ¬ TableSound c ∧ c.live = [] ∧ c.issued = [] ∧ processGetByPid c.manager 0 = some firstSlot ∧
      ∀ op r, creations c.manager op = some r → r = .error .processTableFull := by
  obtain ⟨hslots, hlive, hissued⟩ : c.Untouched :=
    haltingRun_invariant (fun _ _ _ h hstep => TableClient.Untouched.step h hstep)
      ⟨noSlots_init s, rfl, rfl⟩ hrun
  refine ⟨fun h => ?_, hlive, hissued, hslots.getByPid_zero, hslots.creations⟩
  have hunknown := h.unknown 0 (by simp [hissued])
  rw [hslots.getByPid_zero] at hunknown
  cases hunknown

theorem tableSound_never_kill :
    ∃ c, haltingRun TableClient.step (TableClient.init allBlocked.manager) [.kill 0] = some c ∧
      ¬ TableSound c ∧ c.live = [] ∧ c.issued = [] ∧ processGetByPid c.manager 0 = some firstSlot ∧
        ∀ op r, creations c.manager op = some r → r = .error .processTableFull :=
  ⟨_, rfl, tableSound_never allBlocked.manager [.kill 0] _ rfl⟩

def shellName : CString := ⟨[115, 104], by simp⟩

/-- The first creation after `process_init`. -/
theorem first_creation_panics :
    processCreate (TableClient.init allBlocked.manager).manager shellName 0x100000 0 8 =
      .error .processTableFull ∧
    (TableClient.init allBlocked.manager).live.length = 0 ∧
    ¬ TableSound (TableClient.init allBlocked.manager) := by
  have hpanic := (noSlots_init allBlocked.manager).creations (.create shellName 0x100000 0 8) _ rfl
  refine ⟨hpanic, rfl, fun h => ?_⟩
  have hfull := h.full_only (.create shellName 0x100000 0 8) (congrArg some hpanic)
  exact absurd hfull (by decide)

end LunaOs
