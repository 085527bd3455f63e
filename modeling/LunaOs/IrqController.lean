import LunaOs.Pic

/-! # The interrupt controllers over runs

The handlers of `Irq.lean` with the two controllers: devices raise their lines, the processor takes the
interrupt that the controllers put to it, and what the handlers send ends the service.  An end of
interrupt too many does nothing, so that the keyboard and the mouse, which send two, do no harm
(`controllers_serve_iff`).  One too few blocks lines: the tick that switches to a new process sends none,
and no interrupt of the hardware comes after it (`stalled`). -/

namespace LunaOs

open Pic8259

variable {P : Type} [DecidableEq P] (sha256 : List UInt8 → Digest)

/-- The machine with the pair of controllers. -/
structure IrqSystem (P : Type) where
  machine : IrqMachine P
  pics : Pair

/-- What happens to the machine and to its devices. -/
inductive SystemEvent (P : Type) where
  /-- A device raises its line. -/
  | request (n : Fin 16)
  /-- The processor, in this state and with interrupts enabled, takes the interrupt that there is. -/
  | interrupt (cpu : Machine Unit)
  /-- `scheduler_yield` -/
  | yield (cpu : Machine Unit)
  /-- The code outside the handlers leaves the scheduler and the ledger so. -/
  | outside (timer : Timer P)
  /-- A new context is stored for a process. -/
  | create (p : P)

/-- The ends of interrupt that a handler sends reach the controllers.  There is no next state where it
does not return. -/
def IrqSystem.step (upper : SegmentRegister → UInt32) (s : IrqSystem P) :
    SystemEvent P → Option (IrqSystem P)
  | .request n => some { s with pics := s.pics.request n }
  | .interrupt cpu =>
      match s.pics.offered with
      | none => some s
      | some n =>
          (s.machine.handle sha256 (irqNumber (receivedRegs upper (.irq n) cpu))).map fun r =>
            { machine := { r.1 with acknowledged := s.machine.acknowledged ++ [(n, r.2)] }
              pics := r.2.foldl sendEoi (s.pics.serve n) }
  | .yield cpu =>
      let reset : IrqMachine P :=
        { s.machine with timer := { s.machine.timer with scheduler := resetSlice s.machine.timer.scheduler } }
      (reset.handle sha256 (irqNumber (receivedRegs upper (.irq timerIrq) cpu))).map fun r =>
        { machine := { r.1 with acknowledged := s.machine.acknowledged }
          pics := r.2.foldl sendEoi s.pics }
  | .outside timer => some { s with machine := { s.machine with timer } }
  | .create p =>
      some { s with machine := { s.machine with fresh := Function.update s.machine.fresh p true } }

/-- The interrupt is not taken for one of the master if it comes from the slave.  If it is taken for the
timer, the tick does not switch to a process that has never run. -/
def EndsService (s : IrqSystem P) : SystemEvent P → Prop
  | .interrupt cpu => ∀ n, s.pics.offered = some n →
      let irq := (cpu.cpu.ebx - 32).toUInt8
      (8 ≤ n.val → 8 ≤ irq) ∧
        (irq = 0 → ∀ t prev next, schedulerTick s.machine.timer.scheduler = .ok (t, some (prev, next)) →
          s.machine.fresh next = false)
  | _ => True

/-! ### Ends of interrupt at the controllers -/

theorem sendEoi_master (p : Pair) : sendEoi p .master = { p with master := p.master.endOfInterrupt } := rfl

theorem sendEoi_slave (p : Pair) : sendEoi p .slave = { p with slave := p.slave.endOfInterrupt } := rfl

theorem foldl_sendEoi (p : Pair) (eois : List Pic) : eois.foldl sendEoi p =
    ⟨Chip.endOfInterrupt^[eois.count .master] p.master, Chip.endOfInterrupt^[eois.count .slave] p.slave⟩ := by
  induction eois generalizing p with
  | nil => rfl
  | cons e eois ih =>
      rw [List.foldl_cons, ih]
      cases e with
      | master =>
          rw [sendEoi_master, List.count_cons_self, List.count_cons_of_ne (by decide), Function.iterate_succ_apply]
      | slave =>
          rw [sendEoi_slave, List.count_cons_self, List.count_cons_of_ne (by decide), Function.iterate_succ_apply]

theorem iterate_endOfInterrupt {c : Chip} (h : c.Idle) (n : ℕ) : Chip.endOfInterrupt^[n] c = c :=
  Function.iterate_fixed h.endOfInterrupt n

theorem iterate_endOfInterrupt_serve {c : Chip} (h : c.Idle) (k : Fin 8) (n : ℕ) :
    (Chip.endOfInterrupt^[n] (c.serve k)).Idle ↔ 0 < n := by
  cases n with
  | zero => exact iff_of_false (Chip.not_idle_serve c k) (Nat.lt_irrefl 0)
  | succ n =>
      have hidle := h.serve_endOfInterrupt k
      rw [Function.iterate_succ_apply, iterate_endOfInterrupt hidle]
      exact iff_of_true hidle (Nat.succ_pos n)

theorem foldl_sendEoi_serve {p : Pair} (h : p.Idle) (n : Fin 16) (eois : List Pic) :
    (eois.foldl sendEoi (p.serve n)).Idle ↔ .master ∈ eois ∧ (8 ≤ n.val → .slave ∈ eois) := by
  rw [foldl_sendEoi]
  unfold Pair.serve Pair.Idle
  by_cases hn : n.val < 8
  · rw [dif_pos hn, iterate_endOfInterrupt_serve h.1, iterate_endOfInterrupt h.2, List.count_pos_iff]
    exact and_congr_right fun _ => iff_of_true h.2 fun h8 => absurd hn (Nat.not_lt.mpr h8)
  · rw [dif_neg hn, iterate_endOfInterrupt_serve h.1, iterate_endOfInterrupt_serve h.2, List.count_pos_iff,
      List.count_pos_iff]
    exact and_congr_right fun _ => ⟨fun h _ => h, fun h => h (Nat.not_lt.mp hn)⟩

/-! ### What the handlers send -/

theorem mem_irqEois (irq : UInt8) : .master ∈ irqEois irq ∧ (.slave ∈ irqEois irq ↔ 8 ≤ irq) := by
  unfold irqEois
  split_ifs with h
  · simp [h]
  · simp [h]

theorem handle_timer_eois {m : IrqMachine P} {r : IrqMachine P × List Pic} (h : m.handle sha256 0 = some r) :
    (∃ t prev next, schedulerTick m.timer.scheduler = .ok (t, some (prev, next)) ∧ m.fresh next = true ∧
        r.2 = []) ∨
      (∀ t prev next, schedulerTick m.timer.scheduler = .ok (t, some (prev, next)) → m.fresh next = false) ∧
        r.2 = [.master] := by
  unfold IrqMachine.handle timerIrqHandler registered at h
  dsimp only at h
  rw [if_pos rfl] at h
  dsimp only at h
  cases htick : schedulerTick m.timer.scheduler with
  | error e =>
      rw [htick] at h
      cases h
  | ok result =>
      obtain ⟨s, switch⟩ := result
      rw [htick] at h
      cases switch with
      | none =>
          obtain rfl := Option.some.inj h
          exact .inr ⟨fun _ _ _ heq => (by cases heq), rfl⟩
      | some switch =>
          obtain ⟨prev, next⟩ := switch
          replace h : (if m.fresh next = true then some _ else some _) = some r := h
          split_ifs at h with hfresh
          · obtain rfl := Option.some.inj h
            exact .inl ⟨s, prev, next, rfl, hfresh, rfl⟩
          · obtain rfl := Option.some.inj h
            refine .inr ⟨fun t prev' next' heq => ?_, rfl⟩
            cases heq
            exact Bool.eq_false_iff.mpr hfresh

/-- The master gets an end of interrupt unless a tick leaves for a new process, and the slave if the
number is one of its own. -/
theorem handle_eois {m : IrqMachine P} {irq : UInt8} {r : IrqMachine P × List Pic}
    (h : m.handle sha256 irq = some r) :
    (.master ∈ r.2 ↔ (irq = 0 → ∀ t prev next, schedulerTick m.timer.scheduler = .ok (t, some (prev, next)) →
      m.fresh next = false)) ∧ (.slave ∈ r.2 ↔ 8 ≤ irq) := by
  by_cases htimer : irq = 0
  · subst htimer
    rcases handle_timer_eois sha256 h with ⟨t, prev, next, htick, hfresh, heois⟩ | ⟨hold, heois⟩
    · rw [heois]
      refine ⟨iff_of_false List.not_mem_nil fun hall => ?_, iff_of_false List.not_mem_nil (by decide)⟩
      exact Bool.noConfusion (hfresh.symm.trans (hall rfl t prev next htick))
    · rw [heois]
      exact ⟨iff_of_true (List.mem_singleton_self _) fun _ => hold, iff_of_false (by decide) (by decide)⟩
  · obtain ⟨hmaster, hslave⟩ := mem_irqEois irq
    unfold IrqMachine.handle registered at h
    rw [if_neg htimer] at h
    refine ⟨iff_of_true ?_ fun hzero => absurd hzero htimer, ?_⟩
    all_goals split_ifs at h with hkeyboard hmouse <;> obtain rfl := Option.some.inj h
    · exact List.mem_append_right _ hmaster
    · exact List.mem_append_right _ hmaster
    · exact hmaster
    · rw [List.mem_append, hslave, hkeyboard]
      decide
    · rw [List.mem_append, hslave, hmouse]
      decide
    · exact hslave

/-! ### Runs -/

/-- **A step leaves the controllers idle exactly if it ends the service.** -/
theorem step_idle_iff {upper : SegmentRegister → UInt32} {s s' : IrqSystem P} {e : SystemEvent P}
    (h : s.pics.Idle) (hstep : s.step sha256 upper e = some s') : s'.pics.Idle ↔ EndsService s e := by
  unfold IrqSystem.step at hstep
  cases e with
  | request n =>
      obtain rfl := Option.some.inj hstep
      refine iff_of_true ?_ trivial
      unfold Pair.request
      split_ifs
      · exact h
      · exact h
  | interrupt cpu =>
      dsimp only at hstep
      unfold EndsService
      dsimp only
      cases hoffered : s.pics.offered with
      | none =>
          rw [hoffered] at hstep
          obtain rfl := Option.some.inj hstep
          exact iff_of_true h fun n hn => absurd hn (by simp)
      | some n =>
          rw [hoffered] at hstep
          obtain ⟨r, hhandle, rfl⟩ := Option.map_eq_some_iff.mp hstep
          rw [irqNumber_receivedRegs] at hhandle
          obtain ⟨hmaster, hslave⟩ := handle_eois sha256 hhandle
          dsimp only
          rw [foldl_sendEoi_serve h, hmaster, hslave]
          constructor
          · rintro ⟨hm, hs⟩ k hk
            obtain rfl := Option.some.inj hk
            exact ⟨hs, hm⟩
          · intro hall
            exact ⟨(hall n rfl).2, (hall n rfl).1⟩
  | yield cpu =>
      dsimp only at hstep
      obtain ⟨r, _, rfl⟩ := Option.map_eq_some_iff.mp hstep
      refine iff_of_true ?_ trivial
      show (r.2.foldl sendEoi s.pics).Idle
      rw [foldl_sendEoi, iterate_endOfInterrupt h.1, iterate_endOfInterrupt h.2]
      exact h
  | outside timer =>
      obtain rfl := Option.some.inj hstep
      exact iff_of_true h trivial
  | create p =>
      obtain rfl := Option.some.inj hstep
      exact iff_of_true h trivial

theorem sendEoi_ready {p : Pair} (h : p.Ready) (eois : List Pic) : (eois.foldl sendEoi p).Ready := by
  induction eois generalizing p with
  | nil => exact h
  | cons e eois ih =>
      refine ih ?_
      cases e with
      | master => exact ⟨(Chip.endOfInterrupt_expects _).trans h.1, h.2⟩
      | slave => exact ⟨h.1, (Chip.endOfInterrupt_expects _).trans h.2⟩

theorem step_ready {upper : SegmentRegister → UInt32} {s s' : IrqSystem P} {e : SystemEvent P}
    (h : s.pics.Ready) (hstep : s.step sha256 upper e = some s') : s'.pics.Ready := by
  unfold IrqSystem.step at hstep
  cases e with
  | request n =>
      obtain rfl := Option.some.inj hstep
      show (s.pics.request n).Ready
      unfold Pair.request
      split_ifs
      · exact h
      · exact h
  | interrupt cpu =>
      dsimp only at hstep
      cases hoffered : s.pics.offered with
      | none =>
          rw [hoffered] at hstep
          obtain rfl := Option.some.inj hstep
          exact h
      | some n =>
          rw [hoffered] at hstep
          obtain ⟨r, _, rfl⟩ := Option.map_eq_some_iff.mp hstep
          refine sendEoi_ready ?_ r.2
          unfold Pair.serve
          split_ifs
          · exact h
          · exact h
  | yield cpu =>
      dsimp only at hstep
      obtain ⟨r, _, rfl⟩ := Option.map_eq_some_iff.mp hstep
      exact sendEoi_ready h r.2
  | outside timer =>
      obtain rfl := Option.some.inj hstep
      exact h
  | create p =>
      obtain rfl := Option.some.inj hstep
      exact h

/-- No interrupt is in service while other code runs, and a request that no mask holds back is taken next,
or one of a higher priority. -/
def Serving (s : IrqSystem P) : Prop :=
  s.pics.Idle ∧ ∀ n, s.pics.Waits n → s.pics.offered.isSome

/-- **When the controllers serve every request throughout a run**: when each handler ends the service of
its interrupt.  It need not send one end of interrupt only. -/
theorem controllers_serve_iff (upper : SegmentRegister → UInt32) (s : IrqSystem P) (hready : s.pics.Ready)
    (hidle : s.pics.Idle) (events : List (SystemEvent P)) :
    Runs.Throughout (IrqSystem.step sha256 upper) (fun _ s => Serving s) [] s events ↔
      Runs.EachStep (IrqSystem.step sha256 upper) EndsService s events := by
  refine Runs.throughout_iff (fun _ s => s.pics.Ready) (P := fun _ s => Serving s)
    (fun _ _ _ _ h _ hstep => step_ready sha256 h hstep) (fun _ s e s' hr hserving _ hstep => ?_) hready
    ⟨hidle, fun _ hn => hidle.offered_of_waits hready hn⟩ (fun _ _ => trivial : ∀ _ ∈ events, True)
  rw [← step_idle_iff sha256 hserving.1 hstep]
  have hready' := step_ready sha256 hr hstep
  exact ⟨fun h => h.1, fun h => ⟨h, fun _ hn => h.offered_of_waits hready' hn⟩⟩

/-- Controllers after the boot, with nothing but the timer unmasked. -/
def bootedPics : Pair :=
  let chip : Chip := ⟨fun _ => false, fun _ => false, 0xFF, 0, 0, 0, .icw2, false, false⟩
  picUnmaskIrq (picRemap ⟨chip, chip⟩ 0x20 0x28) 0

/-- A key is acknowledged twice, and all goes on. -/
theorem controllers_serve_iff_key :
    Runs.Throughout (IrqSystem.step (fun _ => Vector.replicate 32 0) fun _ => 0) (fun _ s => Serving s) []
      ⟨⟨readyPair 1, fun _ => false, []⟩, bootedPics⟩ [.request 0, .interrupt (interrupted 33)] := by
  refine (controllers_serve_iff _ _ _ ⟨rfl, rfl⟩ ⟨fun _ => rfl, fun _ => rfl⟩ _).mpr ?_
  rintro s ⟨⟩
  refine ⟨trivial, fun s' _ => ⟨fun n hn => ?_, trivial⟩⟩
  have hoffered : (bootedPics.request 0).offered = some 0 := by decide
  obtain rfl := Option.some.inj (hoffered.symm.trans hn)
  exact ⟨fun hslave => absurd hslave (by decide), fun htimer => absurd htimer (by decide)⟩

/-! ### The first switch to a new process -/

theorem offered_eq_none {p : Pair} (h : p.master.isr 0 = true) : p.offered = none := by
  unfold Pair.offered
  rw [Chip.offered_eq_none h]
  rfl

def SystemEvent.NoYield : SystemEvent P → Prop
  | .yield _ => False
  | _ => True

theorem step_stalled {upper : SegmentRegister → UInt32} {s s' : IrqSystem P} {e : SystemEvent P}
    (h : s.pics.master.isr 0 = true) (he : e.NoYield) (hstep : s.step sha256 upper e = some s') :
    s'.pics.master.isr 0 = true ∧ s'.machine.acknowledged = s.machine.acknowledged := by
  unfold IrqSystem.step at hstep
  cases e with
  | request n =>
      obtain rfl := Option.some.inj hstep
      refine ⟨?_, rfl⟩
      show (s.pics.request n).master.isr 0 = true
      unfold Pair.request
      split_ifs
      · exact h
      · exact h
  | interrupt cpu =>
      dsimp only at hstep
      rw [offered_eq_none h] at hstep
      obtain rfl := Option.some.inj hstep
      exact ⟨h, rfl⟩
  | yield cpu => exact absurd he id
  | outside timer =>
      obtain rfl := Option.some.inj hstep
      exact ⟨h, rfl⟩
  | create p =>
      obtain rfl := Option.some.inj hstep
      exact ⟨h, rfl⟩

theorem tick_inService {upper : SegmentRegister → UInt32} {s s' : IrqSystem P} {cpu : Machine Unit}
    (hoffered : s.pics.offered = some 0) (hirq : (cpu.cpu.ebx - 32).toUInt8 = 0) {next : P}
    (htick : ∃ ts prev, schedulerTick s.machine.timer.scheduler = .ok (ts, some (prev, next)))
    (hfresh : s.machine.fresh next = true) (hstep : s.step sha256 upper (.interrupt cpu) = some s') :
    s'.pics.master.isr 0 = true ∧ s'.machine.acknowledged = s.machine.acknowledged ++ [(0, [])] := by
  unfold IrqSystem.step at hstep
  dsimp only at hstep
  rw [hoffered] at hstep
  obtain ⟨r, hhandle, rfl⟩ := Option.map_eq_some_iff.mp hstep
  rw [irqNumber_receivedRegs, hirq] at hhandle
  obtain ⟨ts, prev, hts⟩ := htick
  rcases handle_timer_eois sha256 hhandle with ⟨_, _, _, _, _, heois⟩ | ⟨hold, _⟩
  · dsimp only
    rw [heois]
    refine ⟨?_, rfl⟩
    show (s.pics.serve 0).master.isr 0 = true
    exact Function.update_self (0 : Fin 8) true s.pics.master.isr
  · exact Bool.noConfusion (hfresh.symm.trans (hold ts prev next hts))

/-- **The first tick that switches to a new process is the last interrupt**: no end of interrupt is sent for
it, and it stays in service, so that the controllers put no request to the processor any more, whatever the
devices ask for, as long as no code calls `scheduler_yield`. -/
theorem stalled (upper : SegmentRegister → UInt32) (s s' : IrqSystem P) (cpu : Machine Unit)
    (hoffered : s.pics.offered = some 0) (hirq : (cpu.cpu.ebx - 32).toUInt8 = 0) (next : P)
    (htick : ∃ ts prev, schedulerTick s.machine.timer.scheduler = .ok (ts, some (prev, next)))
    (hfresh : s.machine.fresh next = true) (hstep : s.step sha256 upper (.interrupt cpu) = some s')
    (events : List (SystemEvent P)) (hevents : ∀ e ∈ events, e.NoYield) (t : IrqSystem P)
    (hrun : Runs.haltingRun (IrqSystem.step sha256 upper) s' events = some t) :
    s'.machine.acknowledged = s.machine.acknowledged ++ [(0, [])] ∧ t.pics.master.isr 0 = true ∧
      t.pics.offered = none ∧ t.machine.acknowledged = s'.machine.acknowledged := by
  obtain ⟨hservice, hnothing⟩ := tick_inService sha256 hoffered hirq htick hfresh hstep
  have hkeeps : ∀ (u : IrqSystem P) (e : SystemEvent P) (u' : IrqSystem P), u.pics.master.isr 0 = true ∧
      u.machine.acknowledged = s'.machine.acknowledged → e.NoYield → u.step sha256 upper e = some u' →
      u'.pics.master.isr 0 = true ∧ u'.machine.acknowledged = s'.machine.acknowledged := by
    intro u e u' hu he hu'
    obtain ⟨hisr, hack⟩ := step_stalled sha256 hu.1 he hu'
    exact ⟨hisr, hack.trans hu.2⟩
  have hend := Runs.haltingRun_invariant_of _ hkeeps ⟨hservice, rfl⟩ hevents hrun
  exact ⟨hnothing, hend.1, offered_eq_none hend.1, hend.2⟩

theorem stalled_readyPair : ∃ s' t,
    IrqSystem.step (fun _ => Vector.replicate 32 0) (fun _ => 0)
      ⟨⟨readyPair 1, fun _ => true, []⟩, bootedPics.request 0⟩ (.interrupt (interrupted 32)) = some s' ∧
    Runs.haltingRun (IrqSystem.step (fun _ => Vector.replicate 32 0) fun _ => 0) s'
      [.request 0, .request 1, .interrupt (interrupted 32)] = some t ∧
    s'.machine.acknowledged = [(0, [])] ∧ t.pics.master.isr 0 = true ∧
    t.pics.offered = none ∧ t.machine.acknowledged = s'.machine.acknowledged := by
  have hoffered : (bootedPics.request 0).offered = some 0 := by decide
  have htick : ∃ ts prev, schedulerTick (readyPair 1).scheduler = .ok (ts, some (prev, true)) := ⟨_, _, rfl⟩
  have hstep : ∃ s', IrqSystem.step (fun _ => Vector.replicate 32 0) (fun _ => 0)
      ⟨⟨readyPair 1, fun _ => true, []⟩, bootedPics.request 0⟩ (.interrupt (interrupted 32)) = some s' := by
    unfold IrqSystem.step
    dsimp only
    rw [hoffered]
    dsimp only
    rw [irqNumber_receivedRegs]
    exact ⟨_, rfl⟩
  obtain ⟨s', hstep⟩ := hstep
  obtain ⟨hservice, _⟩ := tick_inService _ hoffered rfl htick rfl hstep
  have hlast : IrqSystem.step (fun _ => Vector.replicate 32 0) (fun _ => 0)
      { s' with pics := (s'.pics.request 0).request 1 } (.interrupt (interrupted 32)) =
        some { s' with pics := (s'.pics.request 0).request 1 } := by
    unfold IrqSystem.step
    dsimp only
    rw [offered_eq_none (p := (s'.pics.request 0).request 1) hservice]
  have hrun : Runs.haltingRun (IrqSystem.step (fun _ => Vector.replicate 32 0) fun _ => 0) s'
      [.request 0, .request 1, .interrupt (interrupted 32)] =
        some { s' with pics := (s'.pics.request 0).request 1 } :=
    Runs.haltingRun_cons.mpr ⟨_, rfl, Runs.haltingRun_cons.mpr ⟨_, rfl,
      Runs.haltingRun_cons.mpr ⟨_, hlast, rfl⟩⟩⟩
  exact ⟨s', _, hstep, hrun, stalled _ _ _ s' _ hoffered rfl true htick rfl hstep _
    (by simp [SystemEvent.NoYield]) _ hrun⟩

end LunaOs
