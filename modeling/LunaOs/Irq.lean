import LunaOs.InterruptFrame
import LunaOs.Lib.Runs
import LunaOs.Timer

/-! # Ends of interrupt over runs

The handlers of the keyboard and the mouse send an end of interrupt themselves, and `irq_handler` sends
one after every handler.  The handler of the timer may leave through `context_switch`.  A process that
a tick has switched out goes on in its own timer handler, which returns to `irq_handler` and sends what
the interrupt that resumed it is due.  A process that has never run goes on at its entry point, and
nothing is sent.  `irq_handler` takes the number of the interrupt from the frame, and so from the EBX
of the interrupted code.

An interrupt is recorded with what is sent until the processor runs code outside the handlers. -/

namespace LunaOs

variable {P : Type} [DecidableEq P] (sha256 : List UInt8 → Digest)

/-- `pic_send_eoi`, which does what the end of `irq_handler` does. -/
def picSendEoi (irq : UInt8) : List Pic := irqEois irq

/-- `keyboard_callback`, as far as it acknowledges. -/
def keyboardCallback : List Pic := picSendEoi 1

/-- `mouse_callback`, likewise. -/
def mouseCallback : List Pic := picSendEoi 12

/-- The drivers that register a handler. -/
inductive Driver where
  | timer
  | keyboard
  | mouse

/-- `irq_handlers` when `timer_init`, `keyboard_install` and `mouse_install` have registered theirs. -/
def registered (irq : UInt8) : Option Driver :=
  if irq = 0 then some .timer
  else if irq = 1 then some .keyboard
  else if irq = 12 then some .mouse
  else none

/-- The timer with the processes that go on at their entry point when they are switched to, and the
interrupts so far, each with the ends of interrupt sent for it. -/
structure IrqMachine (P : Type) where
  timer : Timer P
  fresh : P → Bool
  acknowledged : List (Fin 16 × List Pic)

/-- `irq_handler` for the number `irq`, up to the code outside the handlers that runs next, with what is
sent until then.  Nothing is left after a fault. -/
def IrqMachine.handle (m : IrqMachine P) (irq : UInt8) : Option (IrqMachine P × List Pic) :=
  match registered irq with
  | none => some (m, irqEois irq)
  | some .keyboard => some (m, keyboardCallback ++ irqEois irq)
  | some .mouse => some (m, mouseCallback ++ irqEois irq)
  | some .timer =>
      match timerIrqHandler sha256 m.timer with
      | .error _ => none
      | .ok (timer, none) => some ({ m with timer }, irqEois irq)
      | .ok (timer, some (prev, next)) =>
          let left := { m with timer, fresh := Function.update m.fresh prev false }
          if m.fresh next then some (left, [])
          -- `next` was switched out in a handler of the timer, where `irq` was 0
          else some ({ left with timer := timerIrqRest sha256 timer }, irqEois 0)

inductive IrqEvent (P : Type) where
  /-- An interrupt of the hardware, with the processor that it interrupts. -/
  | irq (n : Fin 16) (cpu : Machine Unit)
  /-- `scheduler_yield`, whose `int 0x20` enters the stub of interrupt 0. -/
  | yield (cpu : Machine Unit)
  /-- The code outside the handlers leaves the scheduler and the ledger so. -/
  | outside (timer : Timer P)
  /-- A new context is stored for a process. -/
  | create (p : P)

/-- The interrupt of vector 0x20. -/
def timerIrq : Fin 16 := ⟨0, Nat.zero_lt_succ 15⟩

/-- The state after an event, if the handler returns. -/
def IrqMachine.step (upper : SegmentRegister → UInt32) (m : IrqMachine P) :
    IrqEvent P → Option (IrqMachine P)
  | .irq n cpu =>
      (m.handle sha256 (irqNumber (receivedRegs upper (.irq n) cpu))).map fun r =>
        { r.1 with acknowledged := m.acknowledged ++ [(n, r.2)] }
  | .yield cpu =>
      let reset : IrqMachine P :=
        { m with timer := { m.timer with scheduler := resetSlice m.timer.scheduler } }
      (reset.handle sha256 (irqNumber (receivedRegs upper (.irq timerIrq) cpu))).map fun r =>
        { r.1 with acknowledged := m.acknowledged }
  | .outside timer => some { m with timer }
  | .create p => some { m with fresh := Function.update m.fresh p true }

/-- One end of interrupt for the master, and one for the slave if the interrupt comes from it. -/
def Acknowledged (n : Fin 16) (eois : List Pic) : Prop :=
  eois.count .master = 1 ∧ (8 ≤ n.val → eois.count .slave = 1)

/-- The interrupt is taken for one that has no driver with an end of interrupt of its own and that does
not come from the master if the interrupt itself comes from the slave.  If it is taken for the timer,
the tick does not switch to a process that has never run. -/
def AcknowledgesOnce (m : IrqMachine P) : IrqEvent P → Prop
  | .irq n cpu =>
      let irq := (cpu.cpu.ebx - 32).toUInt8
      irq ≠ 1 ∧ irq ≠ 12 ∧ (8 ≤ n.val → 8 ≤ irq) ∧
        (irq = 0 → ∀ s prev next, schedulerTick m.timer.scheduler = .ok (s, some (prev, next)) →
          m.fresh next = false)
  | _ => True

/-! ### One interrupt -/

theorem irqNumber_receivedRegs {W : Type} (upper : SegmentRegister → UInt32) (i : Interrupt)
    (m : Machine W) : irqNumber (receivedRegs upper i m) = (m.cpu.ebx - 32).toUInt8 := by
  rw [receivedRegs_eq]
  rfl

theorem irqEois_count (irq : UInt8) :
    (irqEois irq).count .master = 1 ∧ (irqEois irq).count .slave = if 8 ≤ irq then 1 else 0 := by
  unfold irqEois
  split_ifs <;> decide

theorem acknowledged_irqEois (n : Fin 16) (irq : UInt8) :
    Acknowledged n (irqEois irq) ↔ (8 ≤ n.val → 8 ≤ irq) := by
  obtain ⟨hmaster, hslave⟩ := irqEois_count irq
  unfold Acknowledged
  rw [hmaster, hslave]
  split_ifs with h
  · simp [h]
  · simp [h]

theorem not_acknowledged_append (n : Fin 16) (irq irq' : UInt8) :
    ¬ Acknowledged n (picSendEoi irq ++ irqEois irq') := by
  rintro ⟨hmaster, _⟩
  unfold picSendEoi at hmaster
  rw [List.count_append, (irqEois_count irq).1, (irqEois_count irq').1] at hmaster
  cases hmaster

theorem handle_timer {m : IrqMachine P} {r : IrqMachine P × List Pic}
    (h : m.handle sha256 0 = some r) (n : Fin 16) :
    Acknowledged n r.2 ↔ (8 ≤ n.val → (8 : UInt8) ≤ 0) ∧
      ∀ s prev next, schedulerTick m.timer.scheduler = .ok (s, some (prev, next)) →
        m.fresh next = false := by
  unfold IrqMachine.handle timerIrqHandler registered at h
  dsimp only at h
  rw [if_pos rfl] at h
  dsimp only at h
  cases htick : schedulerTick m.timer.scheduler with
  | error e =>
      rw [htick] at h
      cases h
  | ok result =>
      obtain ⟨s, switch⟩ := result
      rw [htick] at h
      cases switch with
      | none =>
          obtain rfl := Option.some.inj h
          rw [acknowledged_irqEois]
          exact ⟨fun hn => ⟨hn, fun _ _ _ heq => by cases heq⟩, fun hall => hall.1⟩
      | some switch =>
          obtain ⟨prev, next⟩ := switch
          replace h : (if m.fresh next = true then some _ else some _) = some r := h
          split_ifs at h with hfresh
          · obtain rfl := Option.some.inj h
            refine iff_of_false (fun hack => Nat.zero_ne_one hack.1) fun hall => ?_
            rw [hall.2 s prev next rfl] at hfresh
            cases hfresh
          · obtain rfl := Option.some.inj h
            rw [acknowledged_irqEois]
            refine ⟨fun hn => ⟨hn, fun _ _ _ heq => ?_⟩, fun hall => hall.1⟩
            cases heq
            exact Bool.eq_false_iff.mpr hfresh

theorem handle_acknowledged {m : IrqMachine P} {irq : UInt8} {r : IrqMachine P × List Pic}
    (h : m.handle sha256 irq = some r) (n : Fin 16) :
    Acknowledged n r.2 ↔ irq ≠ 1 ∧ irq ≠ 12 ∧ (8 ≤ n.val → 8 ≤ irq) ∧
      (irq = 0 → ∀ s prev next, schedulerTick m.timer.scheduler = .ok (s, some (prev, next)) →
        m.fresh next = false) := by
  by_cases htimer : irq = 0
  · subst htimer
    rw [handle_timer sha256 h n]
    simp
  · unfold IrqMachine.handle registered at h
    rw [if_neg htimer] at h
    split_ifs at h with hkeyboard hmouse
    · obtain rfl := Option.some.inj h
      exact iff_of_false (not_acknowledged_append n 1 irq) fun hall => hall.1 hkeyboard
    · obtain rfl := Option.some.inj h
      exact iff_of_false (not_acknowledged_append n 12 irq) fun hall => hall.2.1 hmouse
    · obtain rfl := Option.some.inj h
      rw [acknowledged_irqEois]
      simp [htimer, hkeyboard, hmouse]

/-! ### Runs -/

/-- **One event keeps all interrupts acknowledged once exactly if it meets the condition.** -/
theorem step_acknowledged_iff {upper : SegmentRegister → UInt32} {m m' : IrqMachine P}
    {e : IrqEvent P} (h : ∀ a ∈ m.acknowledged, Acknowledged a.1 a.2)
    (hstep : m.step sha256 upper e = some m') :
    (∀ a ∈ m'.acknowledged, Acknowledged a.1 a.2) ↔ AcknowledgesOnce m e := by
  unfold IrqMachine.step at hstep
  cases e with
  | irq n cpu =>
      dsimp only at hstep
      obtain ⟨r, hhandle, rfl⟩ := Option.map_eq_some_iff.mp hstep
      rw [irqNumber_receivedRegs] at hhandle
      have hiff := handle_acknowledged sha256 hhandle n
      dsimp only
      rw [List.forall_mem_append, List.forall_mem_singleton, hiff]
      exact ⟨fun hall => hall.2, fun hcond => ⟨h, hcond⟩⟩
  | yield cpu =>
      dsimp only at hstep
      obtain ⟨r, _, rfl⟩ := Option.map_eq_some_iff.mp hstep
      exact iff_of_true h trivial
  | outside timer =>
      obtain rfl := Option.some.inj hstep
      exact iff_of_true h trivial
  | create p =>
      obtain rfl := Option.some.inj hstep
      exact iff_of_true h trivial

/-- **When every interrupt is acknowledged once before other code runs**: when the EBX that is taken for
its number names no keyboard or mouse, none of the master for one of the slave, and the timer only
when the tick does not switch to a process that has never run. -/
theorem irqs_acknowledged_iff (upper : SegmentRegister → UInt32) (timer : Timer P)
    (fresh : P → Bool) (events : List (IrqEvent P)) :
    Runs.Throughout (IrqMachine.step sha256 upper)
        (fun _ m => ∀ a ∈ m.acknowledged, Acknowledged a.1 a.2) [] ⟨timer, fresh, []⟩ events ↔
      Runs.EachStep (IrqMachine.step sha256 upper) AcknowledgesOnce ⟨timer, fresh, []⟩ events :=
  Runs.throughout_iff (fun _ _ => True) (P := fun _ m => ∀ a ∈ m.acknowledged, Acknowledged a.1 a.2)
    (Q := AcknowledgesOnce) (fun _ _ _ _ _ _ _ => trivial)
    (fun _ _ _ _ _ hack _ hstep => step_acknowledged_iff sha256 hack hstep) trivial
    (fun _ ha => absurd ha List.not_mem_nil) (fun _ _ => trivial : ∀ _ ∈ events, True)

/-- A processor in ring 0 with EBX as given. -/
def interrupted (ebx : UInt32) : Machine Unit where
  cpu := { ebx, esp := 0xC0400000, eip := 0xC0100000, eflags := 0x202, cs := 0x08, ss := 0x10 }
  tssEsp0 := 0xC0400000
  cr2 := 0
  mem := fun _ => 0
  world := ()

/-- A key is acknowledged twice, and the tick that switches to a new process not at all. -/
theorem irqs_not_acknowledged : ∃ m,
    Runs.haltingRun (IrqMachine.step (fun _ => Vector.replicate 32 0) fun _ => 0)
      ⟨readyPair 1, fun _ => true, []⟩ [.irq 1 (interrupted 33), .irq 0 (interrupted 32)] = some m ∧
      m.acknowledged = [(1, [.master, .master]), (0, [])] ∧
      ¬ ∀ a ∈ m.acknowledged, Acknowledged a.1 a.2 := by
  have hnumber : ∀ n ebx, irqNumber (receivedRegs (fun _ => 0) (.irq n) (interrupted ebx)) =
      (ebx - 32).toUInt8 := fun n ebx => irqNumber_receivedRegs _ _ _
  have hkey : IrqMachine.step (fun _ => Vector.replicate 32 0) (fun _ => 0)
      ⟨readyPair 1, fun _ => true, []⟩ (.irq 1 (interrupted 33)) =
        some ⟨readyPair 1, fun _ => true, [(1, [.master, .master])]⟩ := by
    unfold IrqMachine.step
    dsimp only
    rw [hnumber]
    rfl
  have htick : ∃ m, IrqMachine.step (fun _ => Vector.replicate 32 0) (fun _ => 0)
      ⟨readyPair 1, fun _ => true, [(1, [.master, .master])]⟩ (.irq 0 (interrupted 32)) = some m ∧
        m.acknowledged = [(1, [.master, .master]), (0, [])] := by
    unfold IrqMachine.step
    dsimp only
    rw [hnumber]
    exact ⟨_, rfl, rfl⟩
  obtain ⟨m, hm, hrecord⟩ := htick
  refine ⟨m, Runs.haltingRun_cons.mpr ⟨_, hkey, Runs.haltingRun_cons.mpr ⟨_, hm, rfl⟩⟩, hrecord,
    fun hall => ?_⟩
  rw [hrecord] at hall
  exact absurd (hall _ List.mem_cons_self).1 (by decide)

end LunaOs
