import LunaOs.PmmOwners
import LunaOs.StringOps
import LunaOs.VmmWords

/-! # The process table of `kernel/process.c`

A pointer to a process is its index in the table.  Both ways of making a process take the first slot
that is `PROC_DEAD` and panic when there is none.  `process_create` gives the process a kernel stack
of four frames, reached at `kstack_phys + 0xC0000000`; `process_spawn_ring3` makes a page directory
first, then the kernel stack, then a user stack that it maps below `0xBFFFF000`, and writes the first
frame of the kernel stack, which the first context switch pops.

The scheduler's link `next` and `current_proc` are not used here. -/

namespace LunaOs

def MAX_PROCESSES : ℕ := 64

def PROCESS_STACK_SIZE : UInt32 := 64 * 1024

inductive ProcessState where
  | ready
  | running
  | blocked
  | zombie
  | dead
deriving DecidableEq

/-- The registers saved on a context switch. -/
structure CPUContext where
  eax : UInt32 := 0
  ebx : UInt32 := 0
  ecx : UInt32 := 0
  edx : UInt32 := 0
  esi : UInt32 := 0
  edi : UInt32 := 0
  ebp : UInt32 := 0
  esp : UInt32 := 0
  eip : UInt32 := 0
  eflags : UInt32 := 0
  cs : UInt32 := 0
  ds : UInt32 := 0
  es : UInt32 := 0
  fs : UInt32 := 0
  gs : UInt32 := 0
  ss : UInt32 := 0

/-- The defaults are what `luna_memset(p, 0, sizeof(Process))` leaves; state 0 is `PROC_READY`. -/
structure Process where
  pid : UInt32 := 0
  name : Vector UInt8 32 := Vector.replicate 32 0
  state : ProcessState := .ready
  ring : UInt8 := 0
  priority : UInt8 := 0
  ctx : CPUContext := {}
  pageDir : UInt32 := 0
  userStack : UInt32 := 0
  kernelStack : UInt32 := 0
  ticksRun : UInt32 := 0
  ticksAlloc : UInt32 := 0

/-- The process table with what the functions on it change elsewhere. -/
structure ProcessManager where
  vmm : Vmm
  processTable : Fin MAX_PROCESSES → Process
  pidCounter : UInt32
  tssEsp0 : UInt32

/-- What these functions panic with. -/
inductive KernelPanic where
  | pmm (e : PmmPanic)
  | processTableFull
deriving DecidableEq

/-- What is passed to `kernel_panic`. -/
def KernelPanic.message : KernelPanic → String
  | .pmm e => e.message
  | .processTableFull => "process_create: process table full"

/-- `process_init`: all bytes are zero, which is READY and not DEAD. -/
def processInit (s : ProcessManager) : ProcessManager := { s with processTable := fun _ => {} }

/-- The first slot with the pid that is not DEAD. -/
def processGetByPid (s : ProcessManager) (pid : UInt32) : Option (Fin MAX_PROCESSES) :=
  (List.finRange MAX_PROCESSES).find? fun i =>
    (s.processTable i).state ≠ .dead ∧ (s.processTable i).pid = pid

/-- The first DEAD slot. -/
def allocSlot (s : ProcessManager) : Except KernelPanic (Fin MAX_PROCESSES) :=
  match (List.finRange MAX_PROCESSES).find? fun i => (s.processTable i).state = .dead with
  | some i => .ok i
  | none => .error .processTableFull

/-- The 16 KB kernel stack: its physical address. -/
def allocKernelStack (vmm : Vmm) : Except KernelPanic (UInt32 × Vmm) := do
  let (kstackPhys, pmm) ← (pmmAllocFrames vmm.pmm 4).mapError .pmm
  .ok (kstackPhys, { vmm with pmm })

/-- `process_create`, with a kernel stack of four frames. -/
def processCreate (s : ProcessManager) (name : CString) (entry : UInt32) (ring priority : UInt8) :
    Except KernelPanic (Fin MAX_PROCESSES × ProcessManager) := do
  let i ← allocSlot s
  let (kstackPhys, vmm) ← allocKernelStack s.vmm
  let p : Process :=
    { pid := s.pidCounter, ring, priority, state := .ready, ticksAlloc := 1 + priority.toUInt32,
      name := lunaStrncpy (Vector.replicate 32 0) name.ptr 31,
      kernelStack := kstackPhys + 0xC0000000 + 4 * 4096 }
  let p : Process :=
    if ring = 0 then
      { p with
        pageDir := s.vmm.kernelPd
        ctx := { esp := p.kernelStack, eip := entry, eflags := 0x202, cs := 0x08,
                 ds := 0x10, es := 0x10, ss := 0x10 } }
    else p
  .ok (i, { s with
    vmm, processTable := Function.update s.processTable i p, pidCounter := s.pidCounter + 1 })

/-- The top of the user stack. -/
def USTACK_VIRT : UInt32 := 0xBFFFF000

/-- `vmm_map_page` for page `i` of the user stack, with the flags present, write and user. -/
def mapStackPage (pd ustackPhys : UInt32) (vmm : Vmm) (i : ℕ) : Except PmmPanic Vmm :=
  vmmMapPage vmm pd (USTACK_VIRT - PROCESS_STACK_SIZE + UInt32.ofNat i * 4096)
    (ustackPhys + UInt32.ofNat i * 4096) 0x007

/-- `*--ksp = w;` -/
def push (mem : UInt32 → UInt32) (ksp w : UInt32) : (UInt32 → UInt32) × UInt32 :=
  (Function.update mem (ksp - 4) w, ksp - 4)

/-- The words of the first frame in the order in which they are pushed: SS, ESP, EFLAGS, CS, EIP, and
eight registers. -/
def firstFrame (entry : UInt32) : List UInt32 :=
  [0x23, USTACK_VIRT, 0x202, 0x1B, entry] ++ List.replicate 8 0

/-- `process_spawn_ring3`, with a directory and a user stack of its own. -/
def processSpawnRing3 (s : ProcessManager) (name : CString) (entry : UInt32) :
    Except KernelPanic (Fin MAX_PROCESSES × ProcessManager) := do
  let i ← allocSlot s
  let (pageDir, vmm) ← (vmmCreateUserPd s.vmm).mapError .pmm
  let (kstackPhys, vmm) ← allocKernelStack vmm
  let kernelStack := kstackPhys + 0xC0000000 + 4 * 4096
  let (ustackPhys, pmm) ← (pmmAllocFrames vmm.pmm (PROCESS_STACK_SIZE / 4096)).mapError .pmm
  let vmm ← ((List.range (PROCESS_STACK_SIZE / 4096).toNat).foldlM
    (mapStackPage pageDir ustackPhys) { vmm with pmm }).mapError .pmm
  let (mem, ksp) := (firstFrame entry).foldl (fun r w => push r.1 r.2 w) (vmm.mem, kernelStack)
  let p : Process :=
    { pid := s.pidCounter, ring := 3, priority := 8, state := .ready, ticksAlloc := 8,
      name := lunaStrncpy (Vector.replicate 32 0) name.ptr 31,
      pageDir, kernelStack, userStack := USTACK_VIRT, ctx := { esp := ksp, eip := entry } }
  .ok (i, { vmm := { vmm with mem }, processTable := Function.update s.processTable i p,
            pidCounter := s.pidCounter + 1, tssEsp0 := kernelStack })

/-- The process becomes a ZOMBIE. -/
def processKill (s : ProcessManager) (pid : UInt32) : ProcessManager :=
  match processGetByPid s pid with
  | none => s
  | some i =>
      { s with processTable :=
          Function.update s.processTable i { s.processTable i with state := .zombie } }

theorem allocSlot_dead {s : ProcessManager} {i : Fin MAX_PROCESSES} (h : allocSlot s = .ok i) :
    (s.processTable i).state = .dead := by
  unfold allocSlot at h
  cases hfind : (List.finRange MAX_PROCESSES).find? (fun i => (s.processTable i).state = .dead) with
  | none =>
      rw [hfind] at h
      cases h
  | some j =>
      rw [hfind] at h
      obtain rfl := Except.ok.inj h
      have hdead := List.find?_some hfind
      exact of_decide_eq_true hdead

theorem allocSlot_of_not_dead {s : ProcessManager} (h : ∀ i, (s.processTable i).state ≠ .dead) :
    allocSlot s = .error .processTableFull := by
  have hnone : (List.finRange MAX_PROCESSES).find? (fun i =>
      decide ((s.processTable i).state = .dead)) = none := by
    rw [List.find?_eq_none]
    intro i _ hdead
    exact h i (of_decide_eq_true hdead)
  unfold allocSlot
  rw [hnone]

/-! ### What a successful call did to the memory managers -/

theorem mapError_eq_ok {ε ε' α : Type} {x : Except ε α} {g : ε → ε'} {a : α}
    (h : x.mapError g = .ok a) : x = .ok a := by
  cases x with
  | error e => cases h
  | ok b => exact congrArg Except.ok (Except.ok.inj h)

theorem allocKernelStack_ok {vmm vmm' : Vmm} {kstackPhys : UInt32}
    (h : allocKernelStack vmm = .ok (kstackPhys, vmm')) :
    ∃ pmm, pmmAllocFrames vmm.pmm 4 = .ok (kstackPhys, pmm) ∧ vmm' = { vmm with pmm } := by
  obtain ⟨⟨phys, pmm⟩, halloc, hret⟩ := bind_eq_ok h
  cases hret
  exact ⟨pmm, mapError_eq_ok halloc, rfl⟩

/-- `process_create` takes the frames of the kernel stack. -/
theorem processCreate_ok {s s' : ProcessManager} {name : CString} {entry : UInt32}
    {ring priority : UInt8} {i : Fin MAX_PROCESSES}
    (h : processCreate s name entry ring priority = .ok (i, s')) :
    allocSlot s = .ok i ∧ ∃ kstackPhys, allocKernelStack s.vmm = .ok (kstackPhys, s'.vmm) := by
  obtain ⟨slot, hslot, h⟩ := bind_eq_ok h
  obtain ⟨⟨kstackPhys, vmm⟩, hstack, hret⟩ := bind_eq_ok h
  cases hret
  exact ⟨hslot, kstackPhys, hstack⟩

/-- `process_spawn_ring3` makes the directory, takes both stacks, maps the second one and writes one
slot. -/
theorem processSpawnRing3_ok {s s' : ProcessManager} {name : CString} {entry : UInt32}
    {i : Fin MAX_PROCESSES} (h : processSpawnRing3 s name entry = .ok (i, s')) :
    allocSlot s = .ok i ∧ ∃ pd vmm₁ kstackPhys vmm₂ ustackPhys pmm vmm₃,
      vmmCreateUserPd s.vmm = .ok (pd, vmm₁) ∧
      allocKernelStack vmm₁ = .ok (kstackPhys, vmm₂) ∧
      pmmAllocFrames vmm₂.pmm (PROCESS_STACK_SIZE / 4096) = .ok (ustackPhys, pmm) ∧
      (List.range (PROCESS_STACK_SIZE / 4096).toNat).foldlM (mapStackPage pd ustackPhys)
        { vmm₂ with pmm } = .ok vmm₃ ∧
      (∃ mem, s'.vmm = { vmm₃ with mem }) ∧ ∀ q, q ≠ i → s'.processTable q = s.processTable q := by
  obtain ⟨slot, hslot, h⟩ := bind_eq_ok h
  obtain ⟨⟨pd, vmm₁⟩, hdir, h⟩ := bind_eq_ok h
  obtain ⟨⟨kstackPhys, vmm₂⟩, hstack, h⟩ := bind_eq_ok h
  obtain ⟨⟨ustackPhys, pmm⟩, hustack, h⟩ := bind_eq_ok h
  obtain ⟨vmm₃, hmap, hret⟩ := bind_eq_ok h
  cases hret
  exact ⟨hslot, pd, vmm₁, kstackPhys, vmm₂, ustackPhys, pmm, vmm₃, mapError_eq_ok hdir, hstack,
    mapError_eq_ok hustack, mapError_eq_ok hmap, ⟨_, rfl⟩, fun q hq => Function.update_of_ne hq _ _⟩

theorem processKill_vmm (s : ProcessManager) (pid : UInt32) : (processKill s pid).vmm = s.vmm := by
  unfold processKill
  split <;> rfl

end LunaOs
