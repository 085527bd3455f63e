import Mathlib.Data.Fintype.Option
import Mathlib.Data.Fintype.Prod
import LunaOs.Lib.Loop
import LunaOs.Process

/-! # The scheduler of `kernel/scheduler.c`

A run queue is the head of a circular list through the field `next` of the processes; `P` is the type
of the pointers to processes other than `NULL`, which is `none`.  The memory of the processes is
finite, so the loops that follow `next` are `Loop.loop`s: they are left within as many turns as there
are loop states or never, which is the fault `noReturn`.  `context_switch` is not in the repository;
it is the last thing `scheduler_tick` does, and the model of the tick reports its two arguments. -/

namespace LunaOs

abbrev NUM_PRIO : ℕ := 16

/-- Why a call does not return. -/
inductive SchedulerFault where
  | nullDeref
  | noReturn
  | divideError
  | kernelPanic (msg : String)
deriving DecidableEq

/-- The run queue of a process: `p->priority & (NUM_PRIO - 1)`. -/
def Process.prio (p : Process) : Fin NUM_PRIO := Fin.ofNat NUM_PRIO (p.priority &&& 15).toNat

/-- The scheduler's variables with the processes it works on and the hardware state it sets. -/
structure Scheduler (P : Type) where
  procs : P → Process
  next : P → Option P
  runQueues : Fin NUM_PRIO → Option P
  currentProcess : Option P
  schedulerActive : Bool
  tssEsp0 : UInt32
  vmm : Vmm

variable {P : Type}

/-- The static variables before any call, with the memory of the processes. -/
def bootScheduler (procs : P → Process) (vmm : Vmm) : Scheduler P :=
  { procs, next := fun _ => none, runQueues := fun _ => none, currentProcess := none,
    schedulerActive := false, tssEsp0 := 0, vmm }

section
variable [DecidableEq P]

def Scheduler.setProc (s : Scheduler P) (p : P) (x : Process) : Scheduler P :=
  { s with procs := Function.update s.procs p x }

/-- `p->state = state;` -/
def Scheduler.setState (s : Scheduler P) (p : P) (state : ProcessState) : Scheduler P :=
  s.setProc p { s.procs p with state }

/-- `while (tail->next != run_queues[prio]) tail = tail->next;` -/
def tailBody (next : P → Option P) (head tail : P) : Except SchedulerFault P ⊕ P :=
  if next tail = some head then .inl (.ok tail)
  else
    match next tail with
    | none => .inl (.error .nullDeref)
    | some p => .inr p

/-- The loop of `scheduler_add` to the last process of a queue. -/
def findTail [Fintype P] (next : P → Option P) (head : P) : Except SchedulerFault P :=
  (Loop.loop (tailBody next head) head).getD (.error .noReturn)

/-- `scheduler_add`: a process goes to the end of the queue of its priority. -/
def schedulerAdd [Fintype P] (s : Scheduler P) (p : P) : Except SchedulerFault (Scheduler P) :=
  let prio := (s.procs p).prio
  match s.runQueues prio with
  | none =>
      .ok ({ s with
        runQueues := Function.update s.runQueues prio (some p)
        next := Function.update s.next p (some p) }.setState p .ready)
  | some head => do
      let tail ← findTail s.next head
      let next := Function.update s.next tail (some p)
      .ok ({ s with next := Function.update next p (some head) }.setState p .ready)

/-- A turn of the loop of `scheduler_remove`, in a state `(prev, cur)`.  The value is `prev` where `cur`
is the process, and nothing when the loop comes back to the head. -/
def scanBody (next : P → Option P) (head p : P) (x : Option P × P) :
    Except SchedulerFault (Option (Option P)) ⊕ (Option P × P) :=
  if x.2 = p then .inl (.ok (some x.1))
  else
    match next x.2 with
    -- `cur` becomes `NULL` and the next turn reads `cur->next`
    | none => .inl (.error .nullDeref)
    | some cur => if cur = head then .inl (.ok none) else .inr (some x.2, cur)

/-- The loop of `scheduler_remove` to the process before `p`, if it is found. -/
def scanQueue [Fintype P] (next : P → Option P) (head p : P) :
    Except SchedulerFault (Option (Option P)) :=
  (Loop.loop (scanBody next head p) (none, head)).getD (.error .noReturn)

/-- What `scheduler_remove` does where `cur` is the process. -/
def unlink (s : Scheduler P) (prio : Fin NUM_PRIO) (prev : Option P) (cur : P) : Scheduler P :=
  let s :=
    if s.next cur = some cur then { s with runQueues := Function.update s.runQueues prio none }
    else
      let s :=
        match prev with
        | some prev => { s with next := Function.update s.next prev (s.next cur) }
        | none => s
      if s.runQueues prio = some cur then
        { s with runQueues := Function.update s.runQueues prio (s.next cur) }
      else s
  { s with next := Function.update s.next cur none }

/-- `scheduler_remove` looks into the queue of the priority only. -/
def schedulerRemove [Fintype P] (s : Scheduler P) (p : P) : Except SchedulerFault (Scheduler P) :=
  let prio := (s.procs p).prio
  match s.runQueues prio with
  | none => .ok s
  | some head => do
      match ← scanQueue s.next head p with
      | none => .ok s
      | some prev => .ok (unlink s prio prev p)

end

/-- The loop of `pick_next` for the levels below `n`. -/
def pickNextBelow : ℕ → Scheduler P → Option P × Scheduler P
  | 0, s => (none, s)
  | n + 1, s =>
      let prio : Fin NUM_PRIO := Fin.ofNat NUM_PRIO n
      match s.runQueues prio with
      | none => pickNextBelow n s
      | some p =>
          let s := { s with runQueues := Function.update s.runQueues prio (s.next p) }
          if (s.procs p).state = .ready then (some p, s) else pickNextBelow n s

/-- `pick_next`, from the highest level down; the head of each queue it looks at moves on. -/
def pickNext (s : Scheduler P) : Option P × Scheduler P := pickNextBelow NUM_PRIO s

/-- Empty queues, and the scheduler is not active. -/
def schedulerInit (s : Scheduler P) : Scheduler P :=
  { s with runQueues := fun _ => none, schedulerActive := false }

section
variable [DecidableEq P]

/-- `current_process->ticks_run++;` -/
def countTick (s : Scheduler P) (c : P) : Scheduler P :=
  s.setProc c { s.procs c with ticksRun := (s.procs c).ticksRun + 1 }

/-- `current_process` and the states of the two processes. -/
def markSwitch (s : Scheduler P) (prev next : P) : Scheduler P :=
  let s := { s with currentProcess := some next }
  let s := s.setState next .running
  if (s.procs prev).state = .running then s.setState prev .ready else s

/-- `scheduler_tick` from where it has found a process to switch to. -/
def switchTo (s : Scheduler P) (prev next : P) : Scheduler P :=
  let s := markSwitch s prev next
  let s := if (s.procs next).ring = 3 then { s with tssEsp0 := (s.procs next).kernelStack } else s
  if (s.procs prev).pageDir ≠ (s.procs next).pageDir then
    { s with vmm := vmmSwitchPd s.vmm (s.procs next).pageDir }
  else s

/-- `scheduler_tick` from where the time-slice is exhausted, with the arguments of `context_switch` when
it comes to that. -/
def endSlice (s : Scheduler P) (c : P) : Scheduler P × Option (P × P) :=
  match pickNext s with
  | (none, s) => (s, none)
  | (some n, s) => if n = c then (s, none) else (switchTo s c n, some (c, n))

/-- `scheduler_tick`, and the pair of a context switch if it comes to one. -/
def schedulerTick (s : Scheduler P) : Except SchedulerFault (Scheduler P × Option (P × P)) :=
  match s.currentProcess with
  | none => .ok (s, none)
  | some c =>
      if !s.schedulerActive then .ok (s, none)
      else
        let s := countTick s c
        if (s.procs c).ticksAlloc = 0 then .error .divideError
        else if (s.procs c).ticksRun % (s.procs c).ticksAlloc ≠ 0 then .ok (s, none)
        else .ok (endSlice s c)

/-- `scheduler_start` up to the jump into the process. -/
def schedulerStart (s : Scheduler P) : Except SchedulerFault (Scheduler P) :=
  let s := { s with schedulerActive := true }
  let (current, s) := pickNext s
  let s := { s with currentProcess := current }
  match current with
  | none => .error (.kernelPanic "scheduler_start: no processes")
  | some c => .ok (s.setState c .running)

/-- BLOCKED, and out of its queue. -/
def schedulerBlock [Fintype P] (s : Scheduler P) (p : P) : Except SchedulerFault (Scheduler P) :=
  schedulerRemove (s.setState p .blocked) p

/-- READY, and into its queue again. -/
def schedulerUnblock [Fintype P] (s : Scheduler P) (p : P) : Except SchedulerFault (Scheduler P) :=
  schedulerAdd (s.setState p .ready) p

/-! ### States and links -/

theorem setState_procs_self (s : Scheduler P) (p : P) (state : ProcessState) :
    (s.setState p state).procs p = { s.procs p with state } := Function.update_self _ _ _

theorem setState_procs_of_ne (s : Scheduler P) {p q : P} (h : q ≠ p) (state : ProcessState) :
    (s.setState p state).procs q = s.procs q := Function.update_of_ne h _ _

/-- A new state is all that changes in a process. -/
theorem setState_procs (s : Scheduler P) (p q : P) (state : ProcessState) :
    (s.setState p state).procs q =
      { s.procs q with state := if q = p then state else (s.procs q).state } := by
  by_cases h : q = p
  · subst h
    rw [setState_procs_self, if_pos rfl]
  · rw [setState_procs_of_ne s h, if_neg h]

@[simp] theorem setState_prio (s : Scheduler P) (p q : P) (state : ProcessState) :
    ((s.setState p state).procs q).prio = (s.procs q).prio := by
  rw [setState_procs]
  rfl

@[simp] theorem countTick_runQueues (s : Scheduler P) (c : P) :
    (countTick s c).runQueues = s.runQueues := rfl

/-- A tick changes the counter of the current process only. -/
theorem countTick_procs (s : Scheduler P) (c q : P) :
    (countTick s c).procs q =
      { s.procs q with
        ticksRun := if q = c then (s.procs q).ticksRun + 1 else (s.procs q).ticksRun } := by
  unfold countTick Scheduler.setProc
  by_cases h : q = c
  · subst h
    rw [if_pos rfl]
    exact Function.update_self _ _ _
  · rw [if_neg h]
    exact Function.update_of_ne h _ _

end

/-! ### The choice of the next process -/

/-- A level that `pick_next` does not pass over. -/
def HeadReady (s : Scheduler P) (k : Fin NUM_PRIO) : Prop :=
  ∃ p, s.runQueues k = some p ∧ (s.procs p).state = .ready

/-- The queues from level `n` on with their heads moved on. -/
def Scheduler.advanceFrom (s : Scheduler P) (n : ℕ) : Scheduler P :=
  { s with runQueues := fun k => if n ≤ k.val then (s.runQueues k).bind s.next else s.runQueues k }

theorem advanceFrom_numPrio (s : Scheduler P) : s.advanceFrom NUM_PRIO = s := by
  unfold Scheduler.advanceFrom
  congr 1
  funext k
  exact if_neg (Nat.not_le.mpr k.isLt)

theorem advanceFrom_runQueues_of_le (s : Scheduler P) {k : Fin NUM_PRIO} {n : ℕ} (h : n ≤ k.val) :
    (s.advanceFrom n).runQueues k = (s.runQueues k).bind s.next := if_pos h

theorem advanceFrom_runQueues_of_lt (s : Scheduler P) {k : Fin NUM_PRIO} {n : ℕ} (h : k.val < n) :
    (s.advanceFrom n).runQueues k = s.runQueues k := if_neg (Nat.not_le.mpr h)

/-- One more level. -/
theorem advanceFrom_step (s : Scheduler P) (k : Fin NUM_PRIO) :
    s.advanceFrom k.val = { s.advanceFrom (k.val + 1) with
      runQueues := Function.update (s.advanceFrom (k.val + 1)).runQueues k
        ((s.runQueues k).bind s.next) } := by
  unfold Scheduler.advanceFrom
  congr 1
  funext j
  by_cases h : j = k
  · subst h
    rw [if_pos (Nat.le_refl _), Function.update_self]
  · rw [Function.update_of_ne h]
    have hne : j.val ≠ k.val := fun hval => h (Fin.ext hval)
    simp only [show k.val ≤ j.val ↔ k.val + 1 ≤ j.val by omega]

theorem advanceFrom_of_none {s : Scheduler P} {k : Fin NUM_PRIO} (h : s.runQueues k = none) :
    s.advanceFrom (k.val + 1) = s.advanceFrom k.val := by
  have hself := (advanceFrom_runQueues_of_lt s (Nat.lt_succ_self k.val)).trans h
  rw [advanceFrom_step s k, h, Option.bind_none, ← hself, Function.update_eq_self]

theorem pickNextBelow_none {s : Scheduler P} {k : Fin NUM_PRIO} (h : s.runQueues k = none) :
    pickNextBelow (k.val + 1) s = pickNextBelow k.val s := by
  have hk : Fin.ofNat NUM_PRIO k.val = k := Fin.ext (Nat.mod_eq_of_lt k.isLt)
  rw [pickNextBelow]
  dsimp only
  rw [hk, h]

theorem pickNextBelow_some {s : Scheduler P} {k : Fin NUM_PRIO} {p : P}
    (h : s.runQueues k = some p) :
    pickNextBelow (k.val + 1) s =
      if (s.procs p).state = .ready then
        (some p, { s with runQueues := Function.update s.runQueues k (s.next p) })
      else pickNextBelow k.val { s with runQueues := Function.update s.runQueues k (s.next p) } := by
  have hk : Fin.ofNat NUM_PRIO k.val = k := Fin.ext (Nat.mod_eq_of_lt k.isLt)
  rw [pickNextBelow]
  dsimp only
  rw [hk, h]

/-- The loop of `pick_next` once no level from `n` on had a head that is ready. -/
theorem pickNextBelow_advanceFrom (s : Scheduler P) {n : ℕ} (hn : n ≤ NUM_PRIO)
    (habove : ∀ k : Fin NUM_PRIO, n ≤ k.val → ¬ HeadReady s k) :
    (∃ k p, s.runQueues k = some p ∧ (s.procs p).state = .ready ∧
      (∀ j, k < j → ¬ HeadReady s j) ∧
      pickNextBelow n (s.advanceFrom n) = (some p, s.advanceFrom k.val)) ∨
    ((∀ k, ¬ HeadReady s k) ∧ pickNextBelow n (s.advanceFrom n) = (none, s.advanceFrom 0)) := by
  induction n with
  | zero => exact .inr ⟨fun k => habove k (Nat.zero_le _), rfl⟩
  | succ n ih =>
      obtain ⟨k, rfl⟩ : ∃ k : Fin NUM_PRIO, n = k.val := ⟨⟨n, hn⟩, rfl⟩
      have hlevel := advanceFrom_runQueues_of_lt s (Nat.lt_succ_self k.val)
      have hbelow : ¬ HeadReady s k → ∀ j : Fin NUM_PRIO, k.val ≤ j.val → ¬ HeadReady s j := by
        intro hnot j hj
        rcases Nat.eq_or_lt_of_le hj with heq | hlt
        · exact Fin.ext heq ▸ hnot
        · exact habove j hlt
      cases hqueue : s.runQueues k with
      | none =>
          have hnot : ¬ HeadReady s k := by
            rintro ⟨p, hp, _⟩
            cases hqueue.symm.trans hp
          rw [pickNextBelow_none (hlevel.trans hqueue), advanceFrom_of_none hqueue]
          exact ih (Nat.le_of_succ_le hn) (hbelow hnot)
      | some p =>
          have hmoved : s.advanceFrom k.val = { s.advanceFrom (k.val + 1) with
              runQueues := Function.update (s.advanceFrom (k.val + 1)).runQueues k (s.next p) } := by
            have hstep := advanceFrom_step s k
            rw [hqueue] at hstep
            exact hstep
          rw [pickNextBelow_some (hlevel.trans hqueue),
            show (s.advanceFrom (k.val + 1)).next p = s.next p from rfl, ← hmoved]
          by_cases hready : (s.procs p).state = .ready
          · exact .inl ⟨k, p, hqueue, hready, fun j hj => habove j hj, if_pos hready⟩
          · have hnot : ¬ HeadReady s k := by
              rintro ⟨q, hq, hstate⟩
              obtain rfl := Option.some.inj (hqueue.symm.trans hq)
              exact hready hstate
            rw [if_neg (show ¬ ((s.advanceFrom (k.val + 1)).procs p).state = .ready from hready)]
            exact ih (Nat.le_of_succ_le hn) (hbelow hnot)

/-- **What `pick_next` returns**: the head of the highest level whose head is ready, after it has moved
on the heads of this level and of all above; all heads are moved on when no head is ready. -/
theorem pickNext_cases (s : Scheduler P) :
    (∃ k p, s.runQueues k = some p ∧ (s.procs p).state = .ready ∧
      (∀ j, k < j → ¬ HeadReady s j) ∧ pickNext s = (some p, s.advanceFrom k.val)) ∨
    ((∀ k, ¬ HeadReady s k) ∧ pickNext s = (none, s.advanceFrom 0)) := by
  have h := pickNextBelow_advanceFrom s (Nat.le_refl _)
    fun k hk => absurd k.isLt (Nat.not_lt.mpr hk)
  rw [advanceFrom_numPrio] at h
  exact h

/-- `PROC_READY` or `PROC_RUNNING`. -/
def Process.Runnable (p : Process) : Prop := p.state = .ready ∨ p.state = .running

/-- What choosing a process does: heads of the run queues move on, and processes that can run change
between ready and running. -/
structure Reschedules (s s' : Scheduler P) : Prop where
  next_eq : s'.next = s.next
  runQueues_eq : ∃ n, s'.runQueues = (s.advanceFrom n).runQueues
  procs_eq : ∀ q, s'.procs q =
    { s.procs q with state := (s'.procs q).state, ticksRun := (s'.procs q).ticksRun }
  state_eq : ∀ q, (s'.procs q).state = (s.procs q).state ∨
    (s.procs q).Runnable ∧ (s'.procs q).Runnable

theorem Reschedules.prio_eq {s s' : Scheduler P} (h : Reschedules s s') (q : P) :
    (s'.procs q).prio = (s.procs q).prio := by
  rw [h.procs_eq q]
  rfl

theorem Reschedules.refl (s : Scheduler P) : Reschedules s s :=
  ⟨rfl, ⟨ NUM_PRIO, by rw [advanceFrom_numPrio]⟩, fun _ => rfl, fun _ => .inl rfl⟩

/-! ### A tick -/

section
variable [DecidableEq P]

theorem markSwitch_procs (s : Scheduler P) {prev next : P} (h : next ≠ prev) (q : P) :
    (markSwitch s prev next).procs q =
      { s.procs q with
        state := if q = next then .running
          else if q = prev ∧ (s.procs prev).state = .running then .ready
          else (s.procs q).state } := by
  unfold markSwitch
  dsimp only
  rw [setState_procs_of_ne _ h.symm]
  by_cases hrun : (s.procs prev).state = .running
  · rw [if_pos hrun, setState_procs, setState_procs]
    by_cases hq : q = prev
    · subst hq
      simp [h.symm, hrun]
    · simp [hq]
  · rw [if_neg hrun, setState_procs]
    simp [hrun]

/-- The processes after a switch: only states have changed. -/
theorem switchTo_procs (s : Scheduler P) {prev next : P} (h : next ≠ prev) (q : P) :
    (switchTo s prev next).procs q =
      { s.procs q with
        state := if q = next then .running
          else if q = prev ∧ (s.procs prev).state = .running then .ready
          else (s.procs q).state } := by
  rw [← markSwitch_procs s h]
  unfold switchTo
  dsimp only
  split_ifs <;> rfl

@[simp] theorem switchTo_next (s : Scheduler P) (prev next : P) :
    (switchTo s prev next).next = s.next := by
  unfold switchTo markSwitch
  dsimp only
  split_ifs <;> rfl

@[simp] theorem switchTo_runQueues (s : Scheduler P) (prev next : P) :
    (switchTo s prev next).runQueues = s.runQueues := by
  unfold switchTo markSwitch
  dsimp only
  split_ifs <;> rfl

@[simp] theorem switchTo_currentProcess (s : Scheduler P) (prev next : P) :
    (switchTo s prev next).currentProcess = some next := by
  unfold switchTo markSwitch
  dsimp only
  split_ifs <;> rfl

@[simp] theorem switchTo_schedulerActive (s : Scheduler P) (prev next : P) :
    (switchTo s prev next).schedulerActive = s.schedulerActive := by
  unfold switchTo markSwitch
  dsimp only
  split_ifs <;> rfl

/-- **The end of a slice**: the highest level with a head that is ready gives the next process; without
one, or when it is the current process, there is no switch. -/
theorem endSlice_cases (s : Scheduler P) (c : P) :
    (∃ k n, s.runQueues k = some n ∧ (s.procs n).state = .ready ∧ (∀ j, k < j → ¬ HeadReady s j) ∧
      n ≠ c ∧ endSlice s c = (switchTo (s.advanceFrom k.val) c n, some (c, n))) ∨
    (∃ k, s.runQueues k = some c ∧ (s.procs c).state = .ready ∧ (∀ j, k < j → ¬ HeadReady s j) ∧
      endSlice s c = (s.advanceFrom k.val, none)) ∨
    ((∀ k, ¬ HeadReady s k) ∧ endSlice s c = (s.advanceFrom 0, none)) := by
  unfold endSlice
  rcases pickNext_cases s with ⟨k, n, hqueue, hready, habove, hpick⟩ | ⟨hnone, hpick⟩
  · rw [hpick]
    by_cases hnc : n = c
    · subst hnc
      exact .inr (.inl ⟨k, hqueue, hready, habove, if_pos rfl⟩)
    · exact .inl ⟨k, n, hqueue, hready, habove, hnc, if_neg hnc⟩
  · rw [hpick]
    exact .inr (.inr ⟨hnone, rfl⟩)

theorem endSlice_of_pickNext {s : Scheduler P} {c n : P} (h : (pickNext s).1 = some n) (hn : n ≠ c) :
    endSlice s c = (switchTo (pickNext s).2 c n, some (c, n)) := by
  have hpick : pickNext s = (some n, (pickNext s).2) := Prod.ext h rfl
  unfold endSlice
  rw [hpick]
  exact if_neg hn

theorem schedulerTick_eq {s : Scheduler P} {c : P} (hcurrent : s.currentProcess = some c)
    (hactive : s.schedulerActive = true) (halloc : (s.procs c).ticksAlloc ≠ 0) :
    schedulerTick s =
      if ((s.procs c).ticksRun + 1) % (s.procs c).ticksAlloc ≠ 0 then .ok (countTick s c, none)
      else .ok (endSlice (countTick s c) c) := by
  unfold schedulerTick
  rw [hcurrent, hactive]
  dsimp only
  rw [countTick_procs, if_pos rfl, if_neg halloc]
  rfl

/-- What a tick that returns does. -/
theorem schedulerTick_cases {s s' : Scheduler P} {switch : Option (P × P)}
    (h : schedulerTick s = .ok (s', switch)) :
    (s' = s ∧ switch = none) ∨
    ∃ c, s.currentProcess = some c ∧
      ((s' = countTick s c ∧ switch = none) ∨ (s', switch) = endSlice (countTick s c) c) := by
  unfold schedulerTick at h
  cases hcurrent : s.currentProcess with
  | none =>
      rw [hcurrent] at h
      cases h
      exact .inl ⟨rfl, rfl⟩
  | some c =>
      rw [hcurrent] at h
      dsimp only at h
      split_ifs at h
      · cases h
        exact .inl ⟨rfl, rfl⟩
      · cases h
        exact .inr ⟨c, rfl, .inl ⟨rfl, rfl⟩⟩
      · exact .inr ⟨c, rfl, .inr (Except.ok.inj h).symm⟩

/-- **The switch of a tick** is from the current process to one that was ready. -/
theorem schedulerTick_switch {s s' : Scheduler P} {switch : Option (P × P)}
    (h : schedulerTick s = .ok (s', switch)) :
    (switch = none ∧ s'.currentProcess = s.currentProcess) ∨
    ∃ c n, switch = some (c, n) ∧ s.currentProcess = some c ∧ (s.procs n).state = .ready ∧ n ≠ c ∧
      s'.currentProcess = some n := by
  rcases schedulerTick_cases h with ⟨rfl, hnone⟩ | ⟨c, hcurrent, ⟨rfl, hnone⟩ | hend⟩
  · exact .inl ⟨hnone, rfl⟩
  · exact .inl ⟨hnone, rfl⟩
  · rcases endSlice_cases (countTick s c) c with
      ⟨k, n, _, hready, _, hne, heq⟩ | ⟨_, _, _, _, heq⟩ | ⟨_, heq⟩
    · rw [heq] at hend
      cases hend
      rw [countTick_procs] at hready
      exact .inr ⟨c, n, rfl, hcurrent, hready, hne, switchTo_currentProcess _ _ _⟩
    · rw [heq] at hend
      cases hend
      exact .inl ⟨rfl, rfl⟩
    · rw [heq] at hend
      cases hend
      exact .inl ⟨rfl, rfl⟩

/-! ### What the operations leave alone -/

/-- A process that is added becomes ready; apart from that only links and heads change. -/
theorem schedulerAdd_eq [Fintype P] {s s' : Scheduler P} {p : P} (h : schedulerAdd s p = .ok s') :
    ∃ runQueues next, s' = ({ s with runQueues, next } : Scheduler P).setState p .ready := by
  unfold schedulerAdd at h
  dsimp only at h
  cases hhead : s.runQueues (s.procs p).prio with
  | none =>
      rw [hhead] at h
      exact ⟨_, _, (Except.ok.inj h).symm⟩
  | some a =>
      rw [hhead] at h
      obtain ⟨t, _, hret⟩ := bind_eq_ok h
      exact ⟨_, _, (Except.ok.inj hret).symm⟩

theorem schedulerAdd_ok [Fintype P] {s s' : Scheduler P} {p : P} (h : schedulerAdd s p = .ok s') :
    s'.procs = (s.setState p .ready).procs := by
  obtain ⟨_, _, rfl⟩ := schedulerAdd_eq h
  rfl

theorem schedulerAdd_currentProcess [Fintype P] {s s' : Scheduler P} {p : P}
    (h : schedulerAdd s p = .ok s') : s'.currentProcess = s.currentProcess := by
  obtain ⟨_, _, rfl⟩ := schedulerAdd_eq h
  rfl

theorem unlink_procs (s : Scheduler P) (k : Fin NUM_PRIO) (prev : Option P) (p : P) :
    (unlink s k prev p).procs = s.procs := by
  unfold unlink
  dsimp only
  split_ifs <;> cases prev <;> rfl

theorem schedulerRemove_ok [Fintype P] {s s' : Scheduler P} {p : P}
    (h : schedulerRemove s p = .ok s') : s'.procs = s.procs := by
  unfold schedulerRemove at h
  dsimp only at h
  cases hhead : s.runQueues (s.procs p).prio with
  | none =>
      rw [hhead] at h
      obtain rfl := Except.ok.inj h
      rfl
  | some a =>
      rw [hhead] at h
      obtain ⟨found, _, hret⟩ := bind_eq_ok h
      cases found with
      | none =>
          obtain rfl := Except.ok.inj hret
          rfl
      | some prev =>
          obtain rfl := Except.ok.inj hret
          exact unlink_procs _ _ _ _

theorem countTick_reschedules (s : Scheduler P) (c : P) : Reschedules s (countTick s c) := by
  refine ⟨rfl, ⟨ NUM_PRIO, by rw [advanceFrom_numPrio]; rfl⟩, fun q => ?_, fun q => .inl ?_⟩ <;>
    rw [countTick_procs]

theorem endSlice_reschedules (s : Scheduler P) (c : P) : Reschedules s (endSlice s c).1 := by
  rcases endSlice_cases s c with ⟨k, n, _, hready, _, hne, hend⟩ | ⟨k, _, _, _, hend⟩ | ⟨_, hend⟩
  · rw [hend]
    have hprocs := switchTo_procs (s.advanceFrom k.val) hne
    refine ⟨switchTo_next _ _ _, ⟨k.val, switchTo_runQueues _ _ _⟩, fun q => ?_, fun q => ?_⟩
    · dsimp only
      rw [hprocs]
      rfl
    · dsimp only
      rw [hprocs]
      dsimp only
      split_ifs with hn hc
      · exact .inr ⟨.inl (hn ▸ hready), .inr rfl⟩
      · exact .inr ⟨.inr (hc.1 ▸ hc.2), .inl rfl⟩
      · exact .inl rfl
  · rw [hend]
    exact ⟨rfl, ⟨k.val, rfl⟩, fun _ => rfl, fun _ => .inl rfl⟩
  · rw [hend]
    exact ⟨rfl, ⟨0, rfl⟩, fun _ => rfl, fun _ => .inl rfl⟩

theorem Reschedules.of_countTick {s s' : Scheduler P} {c : P} (h : Reschedules (countTick s c) s') :
    Reschedules s s' := by
  have hcount := countTick_reschedules s c
  refine ⟨h.next_eq, h.runQueues_eq, fun q => ?_, fun q => ?_⟩
  · rw [h.procs_eq q, hcount.procs_eq q]
  · have hstate : ((countTick s c).procs q).state = (s.procs q).state := by rw [countTick_procs]
    have hq := h.state_eq q
    unfold Process.Runnable at hq ⊢
    rw [hstate] at hq
    exact hq

theorem schedulerTick_reschedules {s : Scheduler P} {r : Scheduler P × Option (P × P)}
    (h : schedulerTick s = .ok r) : Reschedules s r.1 := by
  obtain ⟨s', switch⟩ := r
  rcases schedulerTick_cases h with ⟨rfl, _⟩ | ⟨c, _, ⟨rfl, _⟩ | hend⟩
  · exact .refl _
  · exact countTick_reschedules s c
  · obtain ⟨rfl, _⟩ := Prod.mk.inj hend
    exact (endSlice_reschedules _ c).of_countTick

/-- `scheduler_start` makes the process of `pick_next` the current one. -/
theorem schedulerStart_cases {s s' : Scheduler P} (h : schedulerStart s = .ok s') :
    ∃ k p, s.runQueues k = some p ∧ (s.procs p).state = .ready ∧ (∀ j, k < j → ¬ HeadReady s j) ∧
      s' = { s.advanceFrom k.val with schedulerActive := true, currentProcess := some p }.setState p
        .running := by
  unfold schedulerStart at h
  dsimp only at h
  rcases pickNext_cases { s with schedulerActive := true } with
    ⟨k, p, hqueue, hready, habove, hpick⟩ | ⟨_, hpick⟩
  · rw [hpick] at h
    obtain rfl := Except.ok.inj h
    exact ⟨k, p, hqueue, hready, habove, rfl⟩
  · rw [hpick] at h
    cases h

theorem schedulerStart_returns {s : Scheduler P} {k : Fin NUM_PRIO} (h : HeadReady s k) :
    ∃ s', schedulerStart s = .ok s' := by
  unfold schedulerStart
  dsimp only
  rcases pickNext_cases { s with schedulerActive := true } with ⟨_, _, _, _, _, hpick⟩ | ⟨hnone, _⟩
  · rw [hpick]
    exact ⟨_, rfl⟩
  · exact absurd h (hnone k)

theorem schedulerStart_reschedules {s s' : Scheduler P} (h : schedulerStart s = .ok s') :
    Reschedules s s' := by
  obtain ⟨k, p, _, hready, _, rfl⟩ := schedulerStart_cases h
  refine ⟨rfl, ⟨k.val, rfl⟩, fun q => ?_, fun q => ?_⟩ <;> rw [setState_procs]
  · rfl
  · by_cases hq : q = p
    · subst hq
      exact .inr ⟨.inl hready, .inr (if_pos rfl)⟩
    · exact .inl (if_neg hq)

end

end LunaOs
