import LunaOs.Tasks

/-! # The processor's registers against the current process

`scheduler_tick` loads the kernel stack of the process it switches to into the TSS, when that process
has ring 3, and its page directory into CR3, when the one it leaves has another.  `scheduler_start`
loads neither, and `process_spawn_ring3` puts the stack of the new process into the TSS although
another one is running.  What the registers hold stays right through a run that begins with a process
they are right for and spawns only while the current process has another ring than 3
(`hardware_matches_iff`). -/

namespace LunaOs

section
variable {P : Type}

/-- The TSS and CR3 are those of the process `c`.  `vmm_switch_pd` loads the physical address of the
directory behind a pointer. -/
structure Loaded (s : Scheduler P) (c : P) : Prop where
  esp0 : (s.procs c).ring = 3 → s.tssEsp0 = (s.procs c).kernelStack
  cr3 : s.vmm.cr3 = (s.procs c).pageDir - KERNEL_VIRT_BASE

variable [DecidableEq P]

theorem switchTo_tssEsp0 (s : Scheduler P) {prev next : P} (h : next ≠ prev) :
    (switchTo s prev next).tssEsp0 =
      if (s.procs next).ring = 3 then (s.procs next).kernelStack else s.tssEsp0 := by
  have hprocs := markSwitch_procs s h next
  have htss : (markSwitch s prev next).tssEsp0 = s.tssEsp0 := by
    unfold markSwitch
    dsimp only
    split_ifs <;> rfl
  have hring : ((markSwitch s prev next).procs next).ring = (s.procs next).ring := by rw [hprocs]
  have hstack : ((markSwitch s prev next).procs next).kernelStack = (s.procs next).kernelStack := by
    rw [hprocs]
  rw [← hring, ← hstack, ← htss]
  unfold switchTo
  dsimp only
  split_ifs <;> rfl

theorem switchTo_cr3 (s : Scheduler P) {prev next : P} (h : next ≠ prev)
    (hcr3 : s.vmm.cr3 = (s.procs prev).pageDir - KERNEL_VIRT_BASE) :
    (switchTo s prev next).vmm.cr3 = (s.procs next).pageDir - KERNEL_VIRT_BASE := by
  have hvmm : (markSwitch s prev next).vmm = s.vmm := by
    unfold markSwitch
    dsimp only
    split_ifs <;> rfl
  have hdir : ∀ q, ((markSwitch s prev next).procs q).pageDir = (s.procs q).pageDir := by
    intro q
    rw [markSwitch_procs s h]
  rw [← hdir next]
  rw [← hdir prev, ← hvmm] at hcr3
  unfold switchTo
  dsimp only
  split_ifs with hring hpd hpd
  · rfl
  · exact hcr3.trans (congrArg (· - KERNEL_VIRT_BASE) (not_not.mp hpd))
  · rfl
  · exact hcr3.trans (congrArg (· - KERNEL_VIRT_BASE) (not_not.mp hpd))

/-- **A switch loads the process it is to.** -/
theorem Loaded.switchTo {s : Scheduler P} {prev next : P} (hs : Loaded s prev) (h : next ≠ prev) :
    Loaded (LunaOs.switchTo s prev next) next := by
  have hprocs := switchTo_procs s h next
  refine ⟨fun hring => ?_, ?_⟩
  · rw [hprocs] at hring ⊢
    rw [switchTo_tssEsp0 s h]
    exact if_pos hring
  · rw [hprocs, switchTo_cr3 s h hs.cr3]

/-- The registers are right for the current process, whose slot is in use. -/
def CurrentLoaded (s : Scheduler P) : Prop :=
  ∀ c, s.currentProcess = some c → Loaded s c ∧ (s.procs c).state ≠ .dead

omit [DecidableEq P] in
theorem CurrentLoaded.advanceFrom {s : Scheduler P} (h : CurrentLoaded s) (n : ℕ) :
    CurrentLoaded (s.advanceFrom n) := by
  intro c hc
  obtain ⟨⟨hesp0, hcr3⟩, hstate⟩ := h c hc
  exact ⟨⟨hesp0, hcr3⟩, hstate⟩

theorem CurrentLoaded.tick {s : Scheduler P} (h : CurrentLoaded s) {r : Scheduler P × Option (P × P)}
    (htick : schedulerTick s = .ok r) : CurrentLoaded r.1 := by
  obtain ⟨s', switch⟩ := r
  rcases schedulerTick_cases htick with ⟨rfl, _⟩ | ⟨c, hcurrent, hcount⟩
  · exact h
  · have hloaded : CurrentLoaded (countTick s c) := by
      intro d hd
      obtain ⟨⟨hesp0, hcr3⟩, hstate⟩ := h d hd
      rw [countTick_procs]
      exact ⟨⟨by rw [countTick_procs]; exact hesp0, by rw [countTick_procs]; exact hcr3⟩, hstate⟩
    rcases hcount with ⟨rfl, _⟩ | hend
    · exact hloaded
    · rcases endSlice_cases (countTick s c) c with
        ⟨k, n, _, _, _, hne, heq⟩ | ⟨k, _, _, _, heq⟩ | ⟨_, heq⟩
      · rw [heq] at hend
        cases hend
        intro d hd
        obtain rfl := Option.some.inj ((switchTo_currentProcess _ _ _).symm.trans hd)
        obtain ⟨hc, _⟩ := (hloaded.advanceFrom k.val) c hcurrent
        refine ⟨hc.switchTo hne, ?_⟩
        dsimp only
        rw [switchTo_procs _ hne]
        dsimp only
        rw [if_pos rfl]
        exact ProcessState.noConfusion
      · rw [heq] at hend
        cases hend
        exact hloaded.advanceFrom _
      · rw [heq] at hend
        cases hend
        exact hloaded.advanceFrom _

end

/-! ### Spawning -/

theorem foldlM_mapStackPage_cr3 {pd ustackPhys : UInt32} {is : List ℕ} {s s' : Vmm}
    (h : is.foldlM (mapStackPage pd ustackPhys) s = .ok s') : s'.cr3 = s.cr3 := by
  induction is generalizing s with
  | nil =>
      cases h
      rfl
  | cons i is ih =>
      obtain ⟨s₁, hmap, h⟩ := bind_eq_ok h
      exact (ih h).trans (vmmMapPage_keeps hmap).cr3_eq

/-- `process_spawn_ring3` writes one slot, which was free, and leaves CR3 alone. -/
theorem processSpawnRing3_frame {s s' : ProcessManager} {name : CString} {entry : UInt32}
    {i : Fin MAX_PROCESSES} (h : processSpawnRing3 s name entry = .ok (i, s')) :
    (s.processTable i).state = .dead ∧ (∀ q, q ≠ i → s'.processTable q = s.processTable q) ∧
      s'.vmm.cr3 = s.vmm.cr3 := by
  obtain ⟨hslot, pd, vmm₁, kstackPhys, vmm₂, ustackPhys, pmm, vmm₃, hdir, hstack, hustack, hmap,
    ⟨mem, heq⟩, hother⟩ := processSpawnRing3_ok h
  refine ⟨allocSlot_dead hslot, hother, ?_⟩
  obtain ⟨pmm₂, _, rfl⟩ := allocKernelStack_ok hstack
  have hfold := foldlM_mapStackPage_cr3 hmap
  have hpd := (vmmCreateUserPd_keeps hdir).cr3_eq
  rw [heq]
  exact hfold.trans hpd

theorem CurrentLoaded.spawnRing3 {k k' : Tasks} (h : CurrentLoaded k.scheduler) {name : CString}
    {entry : UInt32} (hring : ∀ c, k.scheduler.currentProcess = some c → (k.scheduler.procs c).ring ≠ 3)
    (hspawn : k.spawnRing3 name entry = .ok k') : CurrentLoaded k'.scheduler := by
  obtain ⟨⟨i, m⟩, hcall, hret⟩ := bind_eq_ok hspawn
  obtain rfl := Except.ok.inj hret
  obtain ⟨hdead, hother, hcr3⟩ := processSpawnRing3_frame hcall
  intro c hc
  obtain ⟨hloaded, hstate⟩ := h c hc
  have hci : c ≠ i := by
    rintro rfl
    exact hstate hdead
  have hsame : m.processTable c = k.scheduler.procs c := hother c hci
  show (Loaded _ c) ∧ (m.processTable c).state ≠ .dead
  refine ⟨⟨fun hthree => ?_, ?_⟩, hsame ▸ hstate⟩
  · have hthree : (m.processTable c).ring = 3 := hthree
    exact absurd (hsame ▸ hthree) (hring c hc)
  · show m.vmm.cr3 = (m.processTable c).pageDir - KERNEL_VIRT_BASE
    rw [hcr3, hsame]
    exact hloaded.cr3

/-! ### Runs -/

inductive HardwareOp where
  | tick
  | spawnRing3 (name : CString) (entry : UInt32)

def Tasks.step (k : Tasks) : HardwareOp → Option Tasks
  | .tick => (schedulerTick k.scheduler).toOption.map fun r => { k with scheduler := r.1 }
  | .spawnRing3 name entry => (k.spawnRing3 name entry).toOption

/-- Whenever the current process has ring 3, the TSS holds its kernel stack, and CR3 is its directory. -/
def HardwareMatches (k : Tasks) : Prop :=
  ∀ c, k.scheduler.currentProcess = some c → Loaded k.scheduler c

/-- The registers are right for the process that a start makes the current one. -/
def FirstLoaded (s : Scheduler (Fin MAX_PROCESSES)) : Prop :=
  ∀ k p, s.runQueues k = some p → (s.procs p).state = .ready → (∀ j, k < j → ¬ HeadReady s j) →
    Loaded s p

/-- Nothing is spawned while the current process has ring 3. -/
def SpawnsFromKernel (k : Tasks) : HardwareOp → Prop
  | .tick => True
  | .spawnRing3 _ _ => ∀ c, k.scheduler.currentProcess = some c → (k.scheduler.procs c).ring ≠ 3

theorem currentLoaded_start {s s' : Scheduler (Fin MAX_PROCESSES)} (hfirst : FirstLoaded s)
    (hstart : schedulerStart s = .ok s') : CurrentLoaded s' := by
  obtain ⟨k, p, hqueue, hready, habove, rfl⟩ := schedulerStart_cases hstart
  obtain ⟨hesp0, hcr3⟩ := hfirst k p hqueue hready habove
  intro c hc
  obtain rfl := Option.some.inj hc
  rw [setState_procs_self]
  refine ⟨⟨?_, ?_⟩, ProcessState.noConfusion⟩
  · rw [setState_procs_self]
    exact hesp0
  · rw [setState_procs_self]
    exact hcr3

theorem CurrentLoaded.step {k k' : Tasks} {op : HardwareOp} (h : CurrentLoaded k.scheduler)
    (hop : SpawnsFromKernel k op) (hstep : k.step op = some k') : CurrentLoaded k'.scheduler := by
  cases op with
  | tick =>
      obtain ⟨r, hok, rfl⟩ := toOption_map_eq_some hstep
      exact h.tick hok
  | spawnRing3 name entry => exact h.spawnRing3 hop (toOption_eq_some hstep)

theorem firstLoaded_of_start {k : Tasks} {s : Scheduler (Fin MAX_PROCESSES)}
    (hstart : schedulerStart k.scheduler = .ok s) (h : HardwareMatches { k with scheduler := s }) :
    FirstLoaded k.scheduler := by
  obtain ⟨i, p, hqueue, hready, habove, rfl⟩ := schedulerStart_cases hstart
  intro j q hq hqready hqabove
  have hij : i = j := by
    rcases lt_trichotomy i j with hlt | heq | hlt
    · exact absurd ⟨q, hq, hqready⟩ (habove j hlt)
    · exact heq
    · exact absurd ⟨p, hqueue, hready⟩ (hqabove i hlt)
  subst hij
  obtain rfl := Option.some.inj (hqueue.symm.trans hq)
  obtain ⟨hesp0, hcr3⟩ := h p rfl
  dsimp only at hesp0 hcr3
  rw [setState_procs_self] at hesp0 hcr3
  exact ⟨hesp0, hcr3⟩

/-- **The hardware state stays that of the current process**, in all runs after a start in which no process
of ring 3 is the current one when another is spawned, exactly if it is right for the process that the
start chooses. -/
theorem hardware_matches_iff (k : Tasks) (s : Scheduler (Fin MAX_PROCESSES))
    (hstart : schedulerStart k.scheduler = .ok s) :
    (∀ ops k', Runs.EachStep Tasks.step SpawnsFromKernel { k with scheduler := s } ops →
      Runs.haltingRun Tasks.step { k with scheduler := s } ops = some k' → HardwareMatches k') ↔
    FirstLoaded k.scheduler := by
  constructor
  · intro h
    exact firstLoaded_of_start hstart (h [] _ trivial rfl)
  · intro hfirst ops k' hspawn hrun
    have hloaded : CurrentLoaded k'.scheduler :=
      Runs.haltingRun_invariant_each (fun k : Tasks => CurrentLoaded k.scheduler)
        (fun _ _ _ h hop hstep => h.step hop hstep) (currentLoaded_start hfirst hstart) hspawn hrun
    exact fun c hc => (hloaded c hc).1

def secondSlot : Fin MAX_PROCESSES := ⟨1, Nat.succ_lt_succ (Nat.zero_lt_succ 62)⟩

/-- Two processes of ring 3 have been spawned and added; the stack in the TSS is that of the second, and
the kernel's directory is loaded. -/
def twoUsers : Tasks where
  scheduler :=
    { procs := fun p =>
        if p = firstSlot then
          { pid := 1, ring := 3, priority := 8, ticksAlloc := 8, pageDir := 0xC0201000,
            kernelStack := 0xC0206000 }
        else if p = secondSlot then
          { pid := 2, ring := 3, priority := 8, ticksAlloc := 8, pageDir := 0xC0220000,
            kernelStack := 0xC0225000 }
        else { state := .dead }
      next := fun p => some (if p = firstSlot then secondSlot else firstSlot)
      runQueues := fun k => if k.val = 8 then some firstSlot else none
      currentProcess := none
      schedulerActive := false
      tssEsp0 := 0xC0225000
      vmm := ⟨Pmm.statics, fun _ => 0, 0xC0200000, 0x200000⟩ }
  pidCounter := 3

/-- The same with the stack and the directory of the first process loaded. -/
def loadedUsers : Tasks :=
  { twoUsers with
    scheduler :=
      { twoUsers.scheduler with
        tssEsp0 := 0xC0206000
        vmm := ⟨Pmm.statics, fun _ => 0, 0xC0200000, 0x201000⟩ } }

theorem firstLoaded_loadedUsers : FirstLoaded loadedUsers.scheduler := by
  intro k p hqueue _ _
  change (if k.val = 8 then some firstSlot else none) = some p at hqueue
  split_ifs at hqueue
  obtain rfl := Option.some.inj hqueue
  exact ⟨fun _ => rfl, by decide⟩

theorem hardware_matches_iff_loadedUsers : ∃ s, schedulerStart loadedUsers.scheduler = .ok s ∧
    ∀ ops k', Runs.EachStep Tasks.step SpawnsFromKernel { loadedUsers with scheduler := s } ops →
      Runs.haltingRun Tasks.step { loadedUsers with scheduler := s } ops = some k' → HardwareMatches k' :=
  ⟨_, rfl, (hardware_matches_iff loadedUsers _ rfl).mpr firstLoaded_loadedUsers⟩

/-- The first process is the current one with the stack of the second in the TSS. -/
theorem hardware_not_matching : ∃ s, schedulerStart twoUsers.scheduler = .ok s ∧
    s.currentProcess = some firstSlot ∧ (s.procs firstSlot).ring = 3 ∧
    s.tssEsp0 ≠ (s.procs firstSlot).kernelStack ∧ ¬ HardwareMatches { twoUsers with scheduler := s } := by
  have hne : (0xC0225000 : UInt32) ≠ 0xC0206000 := by decide
  exact ⟨_, rfl, rfl, rfl, hne, fun h => hne ((h firstSlot rfl).esp0 rfl)⟩

end LunaOs
