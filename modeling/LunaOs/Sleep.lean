import Mathlib.Algebra.Order.Group.Nat
import LunaOs.Lib.Runs

/-! # Sleeping, `timer_sleep_ms` of `arch/x86/timer.c`

The loop compares `system_ticks` with a target and halts until the next interrupt.  A counter of 64 bits is
read in two halves, in one order or the other, and an interrupt may come between any two instructions, the
read halves, the comparison and the `hlt` included.  What follows is about the time before the counter
reaches 2^32, while no carry can come between the halves.

The loop trusts its caller to have interrupts on: with the flag clear the processor never comes back from the
`hlt` (`sleep_stuck_iff`). -/

namespace LunaOs

open Runs

/-- The next instruction of the loop. -/
inductive SleepPoint where
  | first
  /-- One half of `system_ticks` is read. -/
  | second (half : UInt32)
  | halt
  | halted
  | returned
deriving DecidableEq

/-- The loop with the tick counter and the interrupt flag. -/
structure Sleeper where
  systemTicks : UInt64
  target : UInt64
  interruptFlag : Bool
  point : SleepPoint

/-- The call, with the flags of its caller. -/
def timerSleepMs (systemTicks : UInt64) (interruptFlag : Bool) (ms : UInt32) : Sleeper :=
  ⟨systemTicks, systemTicks + ms.toUInt64, interruptFlag, .first⟩

/-- The halves of the counter, which are read one at a time. -/
def lowHalf (t : UInt64) : UInt32 := t.toUInt32

def highHalf (t : UInt64) : UInt32 := (t >>> 32).toUInt32

def joinHalves (high low : UInt32) : UInt64 := (high.toUInt64 <<< 32) ||| low.toUInt64

/-- What happens next: a turn of the loop, a tick or another interrupt. -/
inductive SleepEvent where
  /-- The processor executes the next instruction. -/
  | cpu
  /-- The interrupt of the timer, in whatever process its handler ends. -/
  | tick
  /-- Another interrupt. -/
  | other
deriving DecidableEq

section
variable (lowFirst : Bool)

/-- The value that is compared. -/
def readTicks (half : UInt32) (systemTicks : UInt64) : UInt64 :=
  if lowFirst then joinHalves (highHalf systemTicks) half else joinHalves half (lowHalf systemTicks)

namespace Sleeper

def cpu (s : Sleeper) : Sleeper :=
  match s.point with
  | .first => { s with point := .second (if lowFirst then lowHalf s.systemTicks else highHalf s.systemTicks) }
  | .second half =>
      { s with point := if readTicks lowFirst half s.systemTicks < s.target then .halt else .returned }
  | .halt => { s with point := .halted }
  | .halted => s
  | .returned => s

/-- A handler returns behind the `hlt`. -/
def wake (s : Sleeper) : Sleeper :=
  match s.point with
  | .halted => { s with point := .first }
  | _ => s

/-- An interrupt waits while the flag is clear. -/
def step (s : Sleeper) : SleepEvent → Sleeper
  | .cpu => s.cpu lowFirst
  | .tick => if s.interruptFlag then { s with systemTicks := s.systemTicks + 1 }.wake else s
  | .other => if s.interruptFlag then s.wake else s

/-- The interrupt finds the loop halted although the target is reached. -/
def Late (s : Sleeper) (e : SleepEvent) : Prop :=
  e ≠ .cpu ∧ s.interruptFlag = true ∧ s.point = .halted ∧ s.target ≤ s.systemTicks

instance (s : Sleeper) (e : SleepEvent) : Decidable (s.Late e) := inferInstanceAs (Decidable (_ ∧ _))

end Sleeper

/-- The late interrupts of a run. -/
def lateWakes : Sleeper → List SleepEvent → ℕ
  | _, [] => 0
  | s, e :: events => (if s.Late e then 1 else 0) + lateWakes (s.step lowFirst e) events

end

/-! ### The halves -/

theorem toNat_lowHalf {t : UInt64} (h : t.toNat < 4294967296) : (lowHalf t).toNat = t.toNat := by
  unfold lowHalf
  rw [UInt64.toNat_toUInt32, Nat.mod_eq_of_lt h]

theorem highHalf_eq {t : UInt64} (h : t.toNat < 4294967296) : highHalf t = 0 := by
  have hzero : t.toNat >>> 32 = 0 := by
    rw [Nat.shiftRight_eq_div_pow]
    exact Nat.div_eq_of_lt h
  apply UInt32.toNat_inj.mp
  unfold highHalf
  rw [UInt64.toNat_toUInt32, UInt64.toNat_shiftRight]
  show t.toNat >>> 32 % 4294967296 = 0
  rw [hzero]

theorem toNat_joinHalves_zero (low : UInt32) : (joinHalves 0 low).toNat = low.toNat := by
  have hjoin : joinHalves 0 low = low.toUInt64 := by
    unfold joinHalves
    rw [show ((0 : UInt32).toUInt64 <<< 32 : UInt64) = 0 from rfl, UInt64.zero_or]
  rw [hjoin, UInt32.toNat_toUInt64]

section
variable {lowFirst : Bool} {s : Sleeper} {e : SleepEvent} {half : UInt32}

/-- What the read of the first half says about the value. -/
def HalfOf (lowFirst : Bool) (half : UInt32) (seen : ℕ) : Prop :=
  if lowFirst then half.toNat = seen else half = 0

theorem toNat_readTicks {t : UInt64} (ht : t.toNat < 4294967296) {seen : ℕ} (h : HalfOf lowFirst half seen) :
    (readTicks lowFirst half t).toNat = if lowFirst then seen else t.toNat := by
  unfold readTicks
  unfold HalfOf at h
  cases lowFirst with
  | true =>
      rw [if_pos rfl] at h ⊢
      rw [highHalf_eq ht, toNat_joinHalves_zero, h, if_pos rfl]
  | false =>
      rw [if_neg Bool.false_ne_true] at h ⊢
      rw [h, toNat_joinHalves_zero, toNat_lowHalf ht, if_neg Bool.false_ne_true]

theorem halfOf_read {t : UInt64} (ht : t.toNat < 4294967296) :
    HalfOf lowFirst (if lowFirst then lowHalf t else highHalf t) t.toNat := by
  unfold HalfOf
  cases lowFirst with
  | true => exact toNat_lowHalf ht
  | false => exact highHalf_eq ht

/-! ### The steps -/

namespace Sleeper

theorem step_target (s : Sleeper) (e : SleepEvent) : (s.step lowFirst e).target = s.target := by
  unfold step cpu wake
  cases e <;> cases s.point <;> dsimp only <;> split_ifs <;> rfl

theorem step_interruptFlag (s : Sleeper) (e : SleepEvent) : (s.step lowFirst e).interruptFlag = s.interruptFlag := by
  unfold step cpu wake
  cases e <;> cases s.point <;> dsimp only <;> split_ifs <;> rfl

theorem step_systemTicks (s : Sleeper) (e : SleepEvent) : (s.step lowFirst e).systemTicks =
    if e = .tick ∧ s.interruptFlag = true then s.systemTicks + 1 else s.systemTicks := by
  unfold step cpu wake
  cases e <;> cases s.point <;> simp <;> split_ifs <;> rfl

variable (lowFirst) in
/-- An interrupt moves the loop only from the `hlt` to its beginning. -/
theorem step_interrupt_point (s : Sleeper) (he : e ≠ .cpu) : (s.step lowFirst e).point =
    if s.point = .halted ∧ s.interruptFlag = true then .first else s.point := by
  unfold step wake
  cases e <;> cases hp : s.point <;> simp [hp] at he ⊢ <;> split_ifs <;> simp_all

end Sleeper

/-- The counter stays below 2^32. -/
def TicksFit (s : Sleeper) (events : List SleepEvent) : Prop :=
  s.systemTicks.toNat + events.count .tick < 4294967296

theorem TicksFit.toNat_add_one {events : List SleepEvent} (h : TicksFit s (.tick :: events)) :
    (s.systemTicks + 1).toNat = s.systemTicks.toNat + 1 := by
  unfold TicksFit at h
  rw [List.count_cons_self] at h
  rw [UInt64.toNat_add]
  show (s.systemTicks.toNat + 1) % 18446744073709551616 = _
  omega

variable (lowFirst) in
theorem TicksFit.systemTicks_le {events : List SleepEvent} (h : TicksFit s (e :: events)) :
    s.systemTicks ≤ (s.step lowFirst e).systemTicks := by
  rw [Sleeper.step_systemTicks, UInt64.le_iff_toNat_le]
  split_ifs with htick
  · obtain ⟨rfl, _⟩ := htick
    rw [h.toNat_add_one]
    exact Nat.le_succ _
  · exact le_rfl

variable (lowFirst) in
theorem TicksFit.step {events : List SleepEvent} (h : TicksFit s (e :: events)) :
    TicksFit (s.step lowFirst e) events := by
  have hcount := h
  unfold TicksFit at hcount ⊢
  rw [Sleeper.step_systemTicks]
  split_ifs with htick
  · obtain ⟨rfl, _⟩ := htick
    rw [List.count_cons_self] at hcount
    rw [h.toNat_add_one]
    omega
  · have hle := List.count_le_count_cons (a := SleepEvent.tick) (b := e) (l := events)
    omega

theorem TicksFit.lt {events : List SleepEvent} (h : TicksFit s events) : s.systemTicks.toNat < 4294967296 :=
  Nat.lt_of_le_of_lt (Nat.le_add_right _ _) h

/-! ### Not too early -/

/-- What is read is not ahead of the counter, and the loop is left only behind the target. -/
structure Sleeper.Sound (lowFirst : Bool) (s : Sleeper) : Prop where
  half : ∀ half, s.point = .second half → ∃ seen ≤ s.systemTicks.toNat, HalfOf lowFirst half seen
  returned : s.point = .returned → s.target ≤ s.systemTicks

theorem Sleeper.Sound.step {events : List SleepEvent} (h : s.Sound lowFirst) (hfits : TicksFit s (e :: events)) :
    (s.step lowFirst e).Sound lowFirst := by
  have hle := UInt64.le_iff_toNat_le.mp (hfits.systemTicks_le lowFirst)
  by_cases he : e = .cpu
  · subst he
    change (s.cpu lowFirst).Sound lowFirst
    unfold Sleeper.cpu
    cases hp : s.point with
    | first =>
        refine ⟨fun half hhalf => ?_, nofun⟩
        obtain rfl := SleepPoint.second.inj hhalf
        exact ⟨_, le_rfl, halfOf_read hfits.lt⟩
    | second half =>
        obtain ⟨seen, hseen, hhalf⟩ := h.half half hp
        have hvalue := toNat_readTicks hfits.lt hhalf
        dsimp only
        split_ifs with hlt
        · exact ⟨nofun, nofun⟩
        · refine ⟨nofun, fun _ => ?_⟩
          rw [UInt64.not_lt, UInt64.le_iff_toNat_le] at hlt
          rw [UInt64.le_iff_toNat_le]
          split_ifs at hvalue <;> dsimp only <;> omega
    | halt => exact ⟨nofun, nofun⟩
    | halted => exact ⟨h.half, h.returned⟩
    | returned => exact ⟨h.half, h.returned⟩
  · refine ⟨fun half hhalf => ?_, fun hret => ?_⟩
    · rw [Sleeper.step_interrupt_point lowFirst s he] at hhalf
      split_ifs at hhalf
      obtain ⟨seen, hseen, hof⟩ := h.half half hhalf
      exact ⟨seen, hseen.trans hle, hof⟩
    · rw [Sleeper.step_interrupt_point lowFirst s he] at hret
      split_ifs at hret
      rw [Sleeper.step_target, UInt64.le_iff_toNat_le]
      exact (UInt64.le_iff_toNat_le.mp (h.returned hret)).trans hle

theorem Sleeper.Sound.run {events : List SleepEvent} (h : s.Sound lowFirst) (hfits : TicksFit s events) :
    (run (Sleeper.step lowFirst) s events).Sound lowFirst := by
  induction events generalizing s with
  | nil => exact h
  | cons e events ih => exact ih (h.step hfits) (hfits.step lowFirst)

/-! ### Not much too late -/

namespace Sleeper

/-- How many events the loop waits for behind the target. -/
def waits (lowFirst : Bool) (s : Sleeper) : ℕ :=
  match s.point with
  | .returned => 0
  | .second half => if s.target ≤ readTicks lowFirst half s.systemTicks then 1 else 5
  | .first => 2
  | .halted => 3
  | .halt => 4

/-- The target is reached. -/
structure Reached (lowFirst : Bool) (s : Sleeper) : Prop where
  target_le : s.target ≤ s.systemTicks
  flag : s.interruptFlag = true
  sound : s.Sound lowFirst

variable {events : List SleepEvent}

theorem Reached.step (h : s.Reached lowFirst) (hfits : TicksFit s (e :: events)) :
    (s.step lowFirst e).Reached lowFirst where
  target_le := by
    rw [step_target]
    exact UInt64.le_trans h.target_le (hfits.systemTicks_le lowFirst)
  flag := (step_interruptFlag s e).trans h.flag
  sound := h.sound.step hfits

theorem waits_le (s : Sleeper) : s.waits lowFirst ≤ 5 := by
  unfold waits
  split <;> try split_ifs
  all_goals omega

/-- The instruction the loop waits for. -/
theorem Reached.waits_cpu (h : s.Reached lowFirst) (hfits : TicksFit s (.cpu :: events)) :
    (s.step lowFirst .cpu).waits lowFirst =
      if s.waits lowFirst = 3 then 3 else s.waits lowFirst - 1 := by
  have htarget := UInt64.le_iff_toNat_le.mp h.target_le
  change (s.cpu lowFirst).waits lowFirst = _
  unfold cpu waits
  cases hp : s.point with
  | first =>
      have hfresh : s.target ≤ readTicks lowFirst (if lowFirst = true then lowHalf s.systemTicks
          else highHalf s.systemTicks) s.systemTicks := by
        rw [UInt64.le_iff_toNat_le, toNat_readTicks hfits.lt (halfOf_read hfits.lt)]
        split_ifs <;> exact htarget
      dsimp only
      rw [if_pos hfresh]
      rfl
  | second half =>
      dsimp only
      by_cases hfresh : s.target ≤ readTicks lowFirst half s.systemTicks
      · simp [hfresh, UInt64.not_lt.mpr hfresh]
      · simp [hfresh, UInt64.not_le.mp hfresh]
  | halt => rfl
  | halted =>
      dsimp only
      rw [hp]
      rfl
  | returned =>
      dsimp only
      rw [hp]
      rfl

/-- The interrupt the loop waits for. -/
theorem Reached.waits_interrupt (h : s.Reached lowFirst) (hfits : TicksFit s (e :: events)) (he : e ≠ .cpu) :
    (s.step lowFirst e).waits lowFirst ≤ s.waits lowFirst ∧
      (s.waits lowFirst = 3 → (s.step lowFirst e).waits lowFirst = 2) := by
  have hpoint := step_interrupt_point lowFirst s he
  have hle := UInt64.le_iff_toNat_le.mp (hfits.systemTicks_le lowFirst)
  rw [h.flag] at hpoint
  unfold waits
  rw [hpoint, step_target]
  cases hp : s.point with
  | first => simp
  | second half =>
      obtain ⟨seen, _, hhalf⟩ := h.sound.half half hp
      have hvalue := toNat_readTicks hfits.lt hhalf
      have hvalue' := toNat_readTicks (hfits.step lowFirst).lt hhalf
      have hmono : readTicks lowFirst half s.systemTicks ≤ readTicks lowFirst half (s.step lowFirst e).systemTicks := by
        rw [UInt64.le_iff_toNat_le, hvalue, hvalue']
        split_ifs
        · exact le_rfl
        · exact hle
      simp only [reduceCtorEq, false_and, if_false]
      split_ifs with hfresh' hfresh hfresh
      · simp
      · simp
      · exact absurd (UInt64.le_trans hfresh hmono) hfresh'
      · simp
  | halt => simp
  | halted => simp
  | returned => simp

theorem Reached.waits_step_le (h : s.Reached lowFirst) (hfits : TicksFit s (e :: events)) :
    (s.step lowFirst e).waits lowFirst ≤ s.waits lowFirst := by
  by_cases he : e = .cpu
  · subst he
    rw [h.waits_cpu hfits]
    split_ifs <;> omega
  · exact (h.waits_interrupt hfits he).1

theorem run_target (s : Sleeper) (events : List SleepEvent) :
    (run (step lowFirst) s events).target = s.target := by
  induction events generalizing s with
  | nil => rfl
  | cons e events ih => exact (ih _).trans (step_target s e)

/-- Once an interrupt has come behind the target, none is late. -/
theorem Reached.lateWakes_eq_zero (h : s.Reached lowFirst) (hfits : TicksFit s events)
    (hwaits : s.waits lowFirst ≤ 2) : lateWakes lowFirst s events = 0 := by
  induction events generalizing s with
  | nil => rfl
  | cons e events ih =>
      have hnot : ¬ s.Late e := fun hlate => by
        have hthree : s.waits lowFirst = 3 := by
          unfold waits
          rw [hlate.2.2.1]
        omega
      unfold lateWakes
      rw [if_neg hnot, ih (h.step hfits) (hfits.step lowFirst) ((h.waits_step_le hfits).trans hwaits)]

theorem Sound.lateWakes_le (h : s.Sound lowFirst) (hfits : TicksFit s events) : lateWakes lowFirst s events ≤ 1 := by
  induction events generalizing s with
  | nil => exact Nat.zero_le _
  | cons e events ih =>
      unfold lateWakes
      by_cases hlate : s.Late e
      · obtain ⟨he, hflag, hhalted, hreached⟩ := hlate
        have hr : s.Reached lowFirst := ⟨hreached, hflag, h⟩
        have hthree : s.waits lowFirst = 3 := by
          unfold waits
          rw [hhalted]
        have htwo := (hr.waits_interrupt hfits he).2 hthree
        rw [if_pos ⟨he, hflag, hhalted, hreached⟩,
          (hr.step hfits).lateWakes_eq_zero (hfits.step lowFirst) htwo.le]
      · rw [if_neg hlate, Nat.zero_add]
        exact ih (h.step hfits) (hfits.step lowFirst)

/-- The interrupt comes third from the end. -/
def Wanted (l : List SleepEvent) : Prop := ∀ e l', (e :: l') <:+ l → (e = .cpu ↔ l'.length ≠ 2)

/-- **Behind the target** two turns of the processor, an interrupt and two more turns are enough. -/
theorem Reached.returns (h : s.Reached lowFirst) (hfits : TicksFit s events) (he : e ≠ .cpu)
    (hsub : [.cpu, .cpu, e, .cpu, .cpu].Sublist events) :
    (run (Sleeper.step lowFirst) s events).point = .returned := by
  have hwanted : Wanted [.cpu, .cpu, e, .cpu, .cpu] := by
    intro e' l' hl
    simp only [List.suffix_cons_iff, List.cons.injEq, List.suffix_nil] at hl
    rcases hl with ⟨rfl, rfl⟩ | ⟨rfl, rfl⟩ | ⟨rfl, rfl⟩ | ⟨rfl, rfl⟩ | ⟨rfl, rfl⟩ | hl
    · simp
    · simp
    · simp [he]
    · simp
    · simp
    · cases hl
  have hzero := run_of_sublist (Sleeper.step lowFirst) (F := fun s es => s.Reached lowFirst ∧ TicksFit s es)
    (S := fun l s => Wanted l ∧ s.waits lowFirst ≤ l.length) (fun s e es hF => ⟨hF.1.step hF.2, hF.2.step lowFirst⟩)
    (fun l s e es hF hS => ⟨hS.1, (hF.1.waits_step_le hF.2).trans hS.2⟩)
    (fun l s e es hF hS => by
      obtain ⟨hall, hle⟩ := hS
      have hkind := hall e l (List.suffix_refl _)
      rw [List.length_cons] at hle
      refine ⟨fun e' l' hl => hall e' l' (hl.trans (List.suffix_cons _ _)), ?_⟩
      by_cases hcpu : e = .cpu
      · have hne := hkind.mp hcpu
        subst hcpu
        rw [hF.1.waits_cpu hF.2]
        split_ifs <;> omega
      · have htwo : l.length = 2 := not_not.mp (mt hkind.mpr hcpu)
        obtain ⟨hstep, hthree⟩ := hF.1.waits_interrupt hF.2 hcpu
        omega)
    hsub ⟨h, hfits⟩ ⟨hwanted, waits_le s⟩
  have hwaits := Nat.le_zero.mp hzero.2
  unfold waits at hwaits
  split at hwaits
  · assumption
  · split_ifs at hwaits
  all_goals cases hwaits

variable (lowFirst) in
/-- With the flag set every tick counts. -/
theorem run_systemTicks (hflag : s.interruptFlag = true) (hfits : TicksFit s events) :
    (run (step lowFirst) s events).systemTicks.toNat = s.systemTicks.toNat + events.count .tick := by
  induction events generalizing s with
  | nil => rfl
  | cons e events ih =>
      have hrest := ih ((step_interruptFlag s e).trans hflag) (hfits.step lowFirst)
      rw [step_systemTicks, hflag] at hrest
      rw [run_cons, hrest]
      by_cases he : e = .tick
      · subst he
        rw [if_pos ⟨rfl, rfl⟩, hfits.toNat_add_one, List.count_cons_self]
        omega
      · rw [if_neg fun h => he h.1, List.count_cons_of_ne he]

theorem run_interruptFlag (s : Sleeper) (events : List SleepEvent) :
    (run (step lowFirst) s events).interruptFlag = s.interruptFlag := by
  induction events generalizing s with
  | nil => rfl
  | cons e events ih => exact (ih _).trans (step_interruptFlag s e)

end Sleeper

theorem sound_timerSleepMs (systemTicks : UInt64) (interruptFlag : Bool) (ms : UInt32) :
    (timerSleepMs systemTicks interruptFlag ms).Sound lowFirst := ⟨nofun, nofun⟩

theorem toNat_target (systemTicks : UInt64) (interruptFlag : Bool) {ms : UInt32}
    (h : systemTicks.toNat + ms.toNat < 18446744073709551616) :
    (timerSleepMs systemTicks interruptFlag ms).target.toNat = systemTicks.toNat + ms.toNat := by
  unfold timerSleepMs
  dsimp only
  rw [UInt64.toNat_add, UInt32.toNat_toUInt64]
  exact Nat.mod_eq_of_lt h

variable (lowFirst) in
/-- **Not too early**: when the call has returned, it has lasted for `ms` ticks; and not much too late: at
most one interrupt has found the loop halted behind the target. -/
theorem sleep_enough (systemTicks : UInt64) (interruptFlag : Bool) (ms : UInt32) (events : List SleepEvent)
    (hfits : systemTicks.toNat + events.count .tick < 4294967296) :
    let s := timerSleepMs systemTicks interruptFlag ms
    let t := run (Sleeper.step lowFirst) s events
    (t.point = .returned → systemTicks.toNat + ms.toNat ≤ t.systemTicks.toNat) ∧ lateWakes lowFirst s events ≤ 1 := by
  intro s t
  have hsound : s.Sound lowFirst := sound_timerSleepMs _ _ _
  have hms := ms.toNat_lt
  refine ⟨fun hret => ?_, hsound.lateWakes_le hfits⟩
  have hle := UInt64.le_iff_toNat_le.mp ((hsound.run hfits).returned hret)
  rwa [Sleeper.run_target, toNat_target systemTicks interruptFlag (by omega)] at hle

/-- **With interrupts** a call returns: once `ms` ticks have come, two turns of the processor, an interrupt
and two more turns are enough. -/
theorem sleep_returns (systemTicks : UInt64) (ms : UInt32) (pre post : List SleepEvent)
    (hfits : systemTicks.toNat + (pre ++ post).count .tick < 4294967296) (hticks : ms.toNat ≤ pre.count .tick)
    (he : e ≠ .cpu) (hsub : [.cpu, .cpu, e, .cpu, .cpu].Sublist post) :
    (run (Sleeper.step lowFirst) (timerSleepMs systemTicks true ms) (pre ++ post)).point = .returned := by
  have hms := ms.toNat_lt
  rw [List.count_append] at hfits
  have hpre : TicksFit (timerSleepMs systemTicks true ms) pre := Nat.lt_of_le_of_lt (by
    change systemTicks.toNat + _ ≤ _
    omega) hfits
  have hcount := Sleeper.run_systemTicks lowFirst rfl hpre
  have hreached : (run (Sleeper.step lowFirst) (timerSleepMs systemTicks true ms) pre).Reached lowFirst := by
    refine ⟨?_, Sleeper.run_interruptFlag _ _, (sound_timerSleepMs _ _ _).run hpre⟩
    rw [Sleeper.run_target, UInt64.le_iff_toNat_le, hcount, toNat_target systemTicks true (by omega)]
    change _ ≤ systemTicks.toNat + _
    omega
  rw [run_append]
  refine hreached.returns ?_ he hsub
  unfold TicksFit
  rw [hcount]
  change systemTicks.toNat + _ + _ < _
  omega

/-! ### With interrupts off -/

theorem joinHalves_halves (t : UInt64) : joinHalves (highHalf t) (lowHalf t) = t := by
  apply UInt64.toNat_inj.mp
  have ht := t.toNat_lt
  have hhigh : (highHalf t).toUInt64.toNat = t.toNat / 4294967296 := by
    unfold highHalf
    rw [UInt32.toNat_toUInt64, UInt64.toNat_toUInt32, UInt64.toNat_shiftRight]
    show t.toNat >>> 32 % 4294967296 = _
    rw [Nat.shiftRight_eq_div_pow]
    omega
  have hlow : (lowHalf t).toUInt64.toNat = t.toNat % 4294967296 := by
    unfold lowHalf
    rw [UInt32.toNat_toUInt64, UInt64.toNat_toUInt32]
  unfold joinHalves
  rw [UInt64.toNat_or, UInt64.toNat_shiftLeft, hhigh, hlow]
  show (t.toNat / 4294967296) <<< 32 % 18446744073709551616 ||| _ = _
  rw [Nat.shiftLeft_eq, Nat.mod_eq_of_lt (by omega), ← Nat.shiftLeft_eq,
    ← Nat.shiftLeft_add_eq_or_of_lt (Nat.mod_lt _ (by decide)), Nat.shiftLeft_eq]
  omega

/-- With the flag clear nothing but the processor moves, and it finds the target ahead. -/
structure Sleeper.Stuck (lowFirst : Bool) (s : Sleeper) : Prop where
  flag : s.interruptFlag = false
  lt_target : s.systemTicks < s.target
  point : s.point ≠ .returned
  half : ∀ half, s.point = .second half →
    half = if lowFirst then lowHalf s.systemTicks else highHalf s.systemTicks

theorem Sleeper.Stuck.step (h : s.Stuck lowFirst) (e : SleepEvent) : (s.step lowFirst e).Stuck lowFirst := by
  by_cases he : e = .cpu
  · subst he
    change (s.cpu lowFirst).Stuck lowFirst
    unfold Sleeper.cpu
    cases hp : s.point with
    | first => exact ⟨h.flag, h.lt_target, nofun, fun half hhalf => (SleepPoint.second.inj hhalf).symm⟩
    | second half =>
        have hvalue : readTicks lowFirst half s.systemTicks = s.systemTicks := by
          have hhalf := h.half half hp
          unfold readTicks
          split_ifs at hhalf ⊢ <;> rw [hhalf, joinHalves_halves]
        dsimp only
        rw [hvalue, if_pos h.lt_target]
        exact ⟨h.flag, h.lt_target, nofun, nofun⟩
    | halt => exact ⟨h.flag, h.lt_target, nofun, nofun⟩
    | halted => exact h
    | returned => exact absurd hp h.point
  · have hflag : ¬ s.interruptFlag = true := by simp [h.flag]
    have hsame : s.step lowFirst e = s := by
      unfold Sleeper.step
      cases e with
      | cpu => exact absurd rfl he
      | tick => exact if_neg hflag
      | other => exact if_neg hflag
    rw [hsame]
    exact h

theorem Sleeper.Stuck.run_point (h : s.Stuck lowFirst) (events : List SleepEvent) :
    (run (Sleeper.step lowFirst) s events).point ≠ .returned := by
  induction events generalizing s with
  | nil => exact h.point
  | cons e events ih => exact ih (h.step e)

theorem stuck_timerSleepMs {systemTicks : UInt64} {ms : UInt32} (hms : ms ≠ 0)
    (hfits : systemTicks.toNat + ms.toNat < 18446744073709551616) :
    (timerSleepMs systemTicks false ms).Stuck lowFirst := by
  have hpos : ms.toNat ≠ 0 := fun hzero => hms (UInt32.toNat_inj.mp hzero)
  refine ⟨rfl, ?_, nofun, nofun⟩
  rw [UInt64.lt_iff_toNat_lt, toNat_target systemTicks false hfits]
  change systemTicks.toNat < _
  omega

theorem returned_zero (systemTicks : UInt64) (interruptFlag : Bool) :
    (run (Sleeper.step lowFirst) (timerSleepMs systemTicks interruptFlag 0) [.cpu, .cpu]).point = .returned := by
  have htarget : systemTicks + (0 : UInt32).toUInt64 = systemTicks := UInt64.add_zero _
  have hvalue : readTicks lowFirst (if lowFirst then lowHalf systemTicks else highHalf systemTicks) systemTicks =
      systemTicks := by
    unfold readTicks
    split_ifs <;> exact joinHalves_halves systemTicks
  unfold timerSleepMs
  rw [htarget]
  change (if readTicks lowFirst (if lowFirst then lowHalf systemTicks else highHalf systemTicks) systemTicks <
    systemTicks then SleepPoint.halt else SleepPoint.returned) = _
  rw [hvalue, if_neg (UInt64.lt_irrefl _)]

variable (lowFirst) in
/-- **With interrupts off** no order of ticks, other interrupts and turns of the processor brings the call to an
end, unless it is for no time at all. -/
theorem sleep_stuck_iff (systemTicks : UInt64) (ms : UInt32)
    (hfits : systemTicks.toNat + ms.toNat < 18446744073709551616) :
    (∃ events, (run (Sleeper.step lowFirst) (timerSleepMs systemTicks false ms) events).point = .returned) ↔
      ms = 0 := by
  constructor
  · rintro ⟨events, hret⟩
    by_contra hms
    exact (stuck_timerSleepMs hms hfits).run_point events hret
  · rintro rfl
    exact ⟨[.cpu, .cpu], returned_zero systemTicks false⟩

end

/-- Two milliseconds, with a key pressed in the first of them. -/
def shortNap : List SleepEvent := [.cpu, .cpu, .other, .cpu, .tick, .cpu, .cpu, .tick]

theorem sleep_returns_shortNap :
    (run (Sleeper.step true) (timerSleepMs 5 true 2) (shortNap ++ [.cpu, .cpu, .tick, .cpu, .cpu])).point =
      .returned :=
  sleep_returns 5 2 shortNap _ (by decide) (by decide) (by decide : SleepEvent.tick ≠ .cpu) (List.Sublist.refl _)

theorem sleep_enough_shortNap :
    let s := timerSleepMs 5 true 2
    let t := run (Sleeper.step true) s (shortNap ++ [.cpu, .cpu, .tick, .cpu, .cpu])
    5 + 2 ≤ t.systemTicks.toNat ∧ lateWakes true s (shortNap ++ [.cpu, .cpu, .tick, .cpu, .cpu]) ≤ 1 := by
  obtain ⟨henough, hlate⟩ := sleep_enough true 5 true 2 (shortNap ++ [.cpu, .cpu, .tick, .cpu, .cpu]) (by decide)
  exact ⟨henough (by decide), hlate⟩

theorem sleep_stuck_iff_nap :
    (∃ events, (run (Sleeper.step true) (timerSleepMs 7 false 0) events).point = .returned) ∧
      ¬ ∃ events, (run (Sleeper.step true) (timerSleepMs 7 false 2) events).point = .returned := by
  rw [sleep_stuck_iff true 7 0 (by decide), sleep_stuck_iff true 7 2 (by decide)]
  decide

end LunaOs
