import Mathlib.Data.Set.Finite.Lemmas
import LunaOs.SchedulerQueues

/-! # The choice at the end of a slice against the priorities

`pick_next` looks at one process a level, the head, and passes a level whose head is not `PROC_READY`,
whatever waits behind it; the current process itself is `PROC_RUNNING`, so it passes the level of the
current process as well when that is the head.  The process that runs after the end of a slice is of
the highest level with a process that can run exactly if the head of this level is ready, or if no
head is and the current process is already of this level (`priority_respected_iff`). -/

namespace LunaOs

variable {P : Type}

def Queued (s : Scheduler P) (p : P) : Prop := ∃ k l, IsQueue s k l ∧ p ∈ l

/-- The current process can run whenever a queued process can, and no queued process that can run has a
higher priority. -/
structure PriorityRespected (s : Scheduler P) : Prop where
  runnable : ∀ c, s.currentProcess = some c → (∃ p, Queued s p ∧ (s.procs p).Runnable) →
    (s.procs c).Runnable
  highest : ∀ c, s.currentProcess = some c → ∀ p, Queued s p → (s.procs p).Runnable →
    (s.procs p).prio ≤ (s.procs c).prio

/-- The highest level with a queued process that can run. -/
structure HighestRunnable (s : Scheduler P) (L : Fin NUM_PRIO) : Prop where
  exists_runnable : ∃ p, Queued s p ∧ (s.procs p).Runnable ∧ (s.procs p).prio = L
  le : ∀ p, Queued s p → (s.procs p).Runnable → (s.procs p).prio ≤ L

theorem exists_highestRunnable {s : Scheduler P} {p : P} (hp : Queued s p)
    (hrun : (s.procs p).Runnable) : ∃ L, HighestRunnable s L := by
  let levels : Set (Fin NUM_PRIO) :=
    { L | ∃ p, Queued s p ∧ (s.procs p).Runnable ∧ (s.procs p).prio = L }
  obtain ⟨L, hL, hmax⟩ := Set.exists_max_image levels id (Set.toFinite levels)
    ⟨_, p, hp, hrun, rfl⟩
  exact ⟨L, hL, fun q hq hqrun => hmax _ ⟨q, hq, hqrun, rfl⟩⟩

theorem HeadReady.queued {s : Scheduler P} (hqueues : ∀ k, ∃ l, IsQueue s k l) {k : Fin NUM_PRIO} {p : P}
    (hhead : s.runQueues k = some p) : Queued s p ∧ (s.procs p).prio = k := by
  obtain ⟨l, hl⟩ := hqueues k
  have hcirc := hl.circular
  rw [hhead] at hcirc
  exact ⟨⟨k, l, hl, hcirc.head_mem⟩, hl.prio_eq p hcirc.head_mem⟩

/-! ### Queued processes before and after a tick -/

theorem Reschedules.queued_iff {s s' : Scheduler P} (h : Reschedules s s')
    (hqueues : ∀ k, ∃ l, IsQueue s k l) (p : P) : Queued s' p ↔ Queued s p := by
  constructor
  · rintro ⟨k, l', hl', hp⟩
    obtain ⟨l, hl⟩ := hqueues k
    obtain ⟨l'', hl'', hmem⟩ := hl.reschedules h
    exact ⟨k, l, hl, (hmem p).mp (hl''.circular.mem_of_mem hl'.circular hp)⟩
  · rintro ⟨k, l, hl, hp⟩
    obtain ⟨l', hl', hmem⟩ := hl.reschedules h
    exact ⟨k, l', hl', (hmem p).mpr hp⟩

theorem Reschedules.runnable_iff {s s' : Scheduler P} (h : Reschedules s s') (p : P) :
    (s'.procs p).Runnable ↔ (s.procs p).Runnable := by
  rcases h.state_eq p with heq | ⟨hs, hs'⟩
  · unfold Process.Runnable
    rw [heq]
  · exact iff_of_true hs' hs

theorem Reschedules.highestRunnable_iff {s s' : Scheduler P} (h : Reschedules s s')
    (hqueues : ∀ k, ∃ l, IsQueue s k l) (L : Fin NUM_PRIO) :
    HighestRunnable s' L ↔ HighestRunnable s L := by
  have hiff : ∀ p, Queued s' p ∧ (s'.procs p).Runnable ↔ Queued s p ∧ (s.procs p).Runnable :=
    fun p => and_congr (h.queued_iff hqueues p) (h.runnable_iff p)
  constructor
  · rintro ⟨⟨p, hp, hrun, hL⟩, hle⟩
    obtain ⟨hp, hrun⟩ := (hiff p).mp ⟨hp, hrun⟩
    refine ⟨⟨p, hp, hrun, (h.prio_eq p).symm.trans hL⟩, fun q hq hqrun => ?_⟩
    obtain ⟨hq, hqrun⟩ := (hiff q).mpr ⟨hq, hqrun⟩
    exact h.prio_eq q ▸ hle q hq hqrun
  · rintro ⟨⟨p, hp, hrun, hL⟩, hle⟩
    obtain ⟨hp, hrun⟩ := (hiff p).mpr ⟨hp, hrun⟩
    refine ⟨⟨p, hp, hrun, (h.prio_eq p).trans hL⟩, fun q hq hqrun => ?_⟩
    obtain ⟨hq, hqrun⟩ := (hiff q).mp ⟨hq, hqrun⟩
    exact h.prio_eq q ▸ hle q hq hqrun

/-- What the priorities ask of the current process `c`. -/
theorem priorityRespected_iff {s : Scheduler P} {c : P} (hcurrent : s.currentProcess = some c) :
    PriorityRespected s ↔ ∀ L, HighestRunnable s L → (s.procs c).Runnable ∧ L ≤ (s.procs c).prio := by
  constructor
  · rintro ⟨hrun, hle⟩ L ⟨⟨p, hp, hprun, rfl⟩, _⟩
    exact ⟨hrun c hcurrent ⟨p, hp, hprun⟩, hle c hcurrent p hp hprun⟩
  · intro hbest
    have hall : ∀ p, Queued s p → (s.procs p).Runnable →
        (s.procs c).Runnable ∧ (s.procs p).prio ≤ (s.procs c).prio := by
      intro p hp hprun
      obtain ⟨L, hL⟩ := exists_highestRunnable hp hprun
      obtain ⟨hcrun, hlevel⟩ := hbest L hL
      exact ⟨hcrun, (hL.le p hp hprun).trans hlevel⟩
    refine ⟨fun d hd => ?_, fun d hd p hp hprun => ?_⟩
    · obtain rfl := Option.some.inj (hcurrent.symm.trans hd)
      rintro ⟨p, hp, hprun⟩
      exact (hall p hp hprun).1
    · obtain rfl := Option.some.inj (hcurrent.symm.trans hd)
      exact (hall p hp hprun).2

theorem Reschedules.priorityRespected_iff {s s' : Scheduler P} (h : Reschedules s s')
    (hqueues : ∀ k, ∃ l, IsQueue s k l) {c : P} (hcurrent : s'.currentProcess = some c) :
    PriorityRespected s' ↔ ∀ L, HighestRunnable s L → (s.procs c).Runnable ∧ L ≤ (s.procs c).prio := by
  rw [LunaOs.priorityRespected_iff hcurrent, h.prio_eq, h.runnable_iff]
  exact forall_congr' fun L => imp_congr_left (h.highestRunnable_iff hqueues L)

/-! ### The end of a slice -/

variable [DecidableEq P]

/-- **Whom the end of a slice leaves as the current process**: the head of the highest level whose head is
ready or, without one, the process it was. -/
theorem endSlice_current (s : Scheduler P) {c : P} (hcurrent : s.currentProcess = some c) :
    (∃ k n, s.runQueues k = some n ∧ (s.procs n).state = .ready ∧ (∀ j, k < j → ¬ HeadReady s j) ∧
      (endSlice s c).1.currentProcess = some n) ∨
    ((∀ k, ¬ HeadReady s k) ∧ (endSlice s c).1.currentProcess = some c) := by
  rcases endSlice_cases s c with
    ⟨k, n, hqueue, hready, habove, _, hend⟩ | ⟨k, hqueue, hready, habove, hend⟩ | ⟨hnone, hend⟩
  · rw [hend]
    exact .inl ⟨k, n, hqueue, hready, habove, switchTo_currentProcess _ _ _⟩
  · rw [hend]
    exact .inl ⟨k, c, hqueue, hready, habove, hcurrent⟩
  · rw [hend]
    exact .inr ⟨hnone, hcurrent⟩

/-- The condition on a state with current process `c` whose slice ends. -/
def ChoiceSound (s : Scheduler P) (c : P) : Prop :=
  ∀ L, HighestRunnable s L →
    HeadReady s L ∨ (∀ k, ¬ HeadReady s k) ∧ (s.procs c).Runnable ∧ L ≤ (s.procs c).prio

theorem endSlice_priorityRespected_iff {s : Scheduler P} (hqueues : ∀ k, ∃ l, IsQueue s k l) {c : P}
    (hcurrent : s.currentProcess = some c) :
    PriorityRespected (endSlice s c).1 ↔ ChoiceSound s c := by
  have hres := endSlice_reschedules s c
  rcases endSlice_current s hcurrent with ⟨k, n, hqueue, hready, habove, hnext⟩ | ⟨hnone, hnext⟩
  · rw [hres.priorityRespected_iff hqueues hnext]
    obtain ⟨hn, hprio⟩ := HeadReady.queued hqueues hqueue
    have hhead : HeadReady s k := ⟨n, hqueue, hready⟩
    refine forall_congr' fun L => imp_congr_right fun hL => ?_
    have hkL : k ≤ L := hprio ▸ hL.le n hn (.inl hready)
    constructor
    · rintro ⟨_, hLk⟩
      rw [hprio] at hLk
      exact .inl (le_antisymm hkL hLk ▸ hhead)
    · rintro (hL | ⟨hnone, _⟩)
      · refine ⟨.inl hready, ?_⟩
        rw [hprio]
        exact not_lt.mp fun hlt => habove L hlt hL
      · exact absurd hhead (hnone k)
  · rw [hres.priorityRespected_iff hqueues hnext]
    refine forall_congr' fun L => imp_congr_right fun hL => ?_
    constructor
    · exact fun hbest => .inr ⟨hnone, hbest⟩
    · rintro (hL | ⟨_, hbest⟩)
      · exact absurd hL (hnone L)
      · exact hbest

theorem countTick_choiceSound_iff {s : Scheduler P} (hqueues : ∀ k, ∃ l, IsQueue s k l) (c : P) :
    ChoiceSound (countTick s c) c ↔ ChoiceSound s c := by
  have hcount := countTick_reschedules s c
  have hhead : ∀ k, HeadReady (countTick s c) k ↔ HeadReady s k := by
    intro k
    unfold HeadReady
    simp only [countTick_runQueues, countTick_procs]
  unfold ChoiceSound
  simp only [hcount.highestRunnable_iff hqueues, hhead, hcount.runnable_iff, hcount.prio_eq]

/-- **When a tick that ends the slice respects the priorities.** -/
theorem priority_respected_iff (s : Scheduler P) (hqueues : ∀ k, ∃ l, IsQueue s k l) (c : P)
    (hcurrent : s.currentProcess = some c) (hactive : s.schedulerActive = true)
    (halloc : (s.procs c).ticksAlloc ≠ 0)
    (hexhausted : ((s.procs c).ticksRun + 1) % (s.procs c).ticksAlloc = 0) :
    ∃ s' switch, schedulerTick s = .ok (s', switch) ∧ (PriorityRespected s' ↔ ChoiceSound s c) := by
  have hcount := countTick_reschedules s c
  have htick : schedulerTick s = .ok (endSlice (countTick s c) c) := by
    rw [schedulerTick_eq hcurrent hactive halloc]
    exact if_neg (not_not.mpr hexhausted)
  refine ⟨_, _, htick, ?_⟩
  have hiff : ∀ s', s' = (endSlice (countTick s c) c).1 → (PriorityRespected s' ↔ ChoiceSound s c) := by
    rintro s' rfl
    have hqueues' : ∀ k, ∃ l, IsQueue (countTick s c) k l := by
      intro k
      obtain ⟨l, hl⟩ := hqueues k
      obtain ⟨l', hl', _⟩ := hl.reschedules hcount
      exact ⟨l', hl'⟩
    rw [endSlice_priorityRespected_iff hqueues' hcurrent]
    exact countTick_choiceSound_iff hqueues c
  exact hiff _ rfl

/-- A process of level 8 runs and one of level 4 is ready, each of them alone in its queue. -/
def twoLevels : Scheduler Bool where
  procs p := if p then { priority := 4, state := .ready, ticksAlloc := 1 }
    else { priority := 8, state := .running, ticksAlloc := 1 }
  next p := some p
  runQueues k := if k.val = 8 then some false else if k.val = 4 then some true else none
  currentProcess := some false
  schedulerActive := true
  tssEsp0 := 0
  vmm := ⟨Pmm.statics, fun _ => 0, 0, 0⟩

theorem twoLevels_queues (k : Fin NUM_PRIO) : ∃ l, IsQueue twoLevels k l := by
  by_cases h8 : k.val = 8
  · obtain rfl : k = 8 := Fin.ext h8
    exact ⟨[false], CircularList.circular_singleton rfl, by decide⟩
  · by_cases h4 : k.val = 4
    · obtain rfl : k = 4 := Fin.ext h4
      exact ⟨[true], CircularList.circular_singleton rfl, by decide⟩
    · refine ⟨[], ?_, fun p hp => absurd hp List.not_mem_nil⟩
      have hnone : twoLevels.runQueues k = none := (if_neg h8).trans (if_neg h4)
      rw [hnone]
      exact CircularList.circular_nil

/-- The process of level 4 runs, and the one of level 8 is ready. -/
def readyAbove : Scheduler Bool :=
  { twoLevels with
    procs := fun p => { twoLevels.procs p with state := if p then .running else .ready }
    currentProcess := some true }

theorem choiceSound_readyAbove : ChoiceSound readyAbove true := by
  intro L hL
  have hqueued : Queued readyAbove false :=
    ⟨8, [false], ⟨CircularList.circular_singleton rfl, by decide⟩, List.mem_singleton_self false⟩
  have hle := hL.le false hqueued (.inl rfl)
  obtain ⟨p, _, _, hp⟩ := hL.exists_runnable
  refine .inl ⟨false, ?_, rfl⟩
  cases p with
  | false => exact hp ▸ rfl
  | true =>
      rw [← hp] at hle
      exact absurd hle (by decide)

theorem priority_respected_iff_readyAbove : ∃ s' switch,
    schedulerTick readyAbove = .ok (s', switch) ∧ PriorityRespected s' := by
  obtain ⟨s', switch, htick, hiff⟩ := priority_respected_iff readyAbove
    (fun k => (twoLevels_queues k).imp fun _ hl => ⟨hl.1, hl.2⟩) true rfl rfl (by decide) (by decide)
  exact ⟨s', switch, htick, hiff.mpr choiceSound_readyAbove⟩

/-- The end of the slice of the process of level 8 hands the processor to the one of level 4. -/
theorem priority_not_respected : ∃ s' switch,
    schedulerTick twoLevels = .ok (s', switch) ∧ s'.currentProcess = some true ∧
      ¬ PriorityRespected s' := by
  refine ⟨_, _, rfl, rfl, fun h => ?_⟩
  have hqueued : Queued (endSlice (countTick twoLevels false) false).1 false :=
    ⟨8, [false], ⟨CircularList.circular_singleton rfl, by decide⟩, List.mem_singleton_self false⟩
  exact absurd (h.highest true rfl false hqueued (.inl rfl)) (by decide)

end LunaOs
