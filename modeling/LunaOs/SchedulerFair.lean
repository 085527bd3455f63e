import Mathlib.Algebra.Order.Group.Nat
import Mathlib.Data.Nat.Count
import LunaOs.SchedulerQueues

/-! # Round robin among processes of one level

A tick ends the slice when `ticks_run`, which counts all ticks a process ever ran, is a multiple of its
`ticks_alloc`.  The processes take turns in the order in which they were added, a turn of `ticks_alloc`
ticks each; only the first turn of a process that comes with a `ticks_run` inside a slice is as long as
the rest of that slice (`round_robin`). -/

namespace LunaOs

open CircularList

variable {P : Type} [DecidableEq P]

/-- `t` ticks in a row. -/
def schedulerTicks : ℕ → Scheduler P → Except SchedulerFault (Scheduler P)
  | 0, s => .ok s
  | t + 1, s => do
      let s ← schedulerTicks t s
      let (s, _) ← schedulerTick s
      .ok s

variable [Fintype P]

/-- The processes `l` are added in this order, the scheduler is started, and `t` ticks follow. -/
def roundRobin (s : Scheduler P) (l : List P) (t : ℕ) : Except SchedulerFault (Scheduler P) := do
  let s ← l.foldlM schedulerAdd s
  let s ← schedulerStart s
  schedulerTicks t s

/-- The current process after `t` ticks. -/
def currentAfter (s : Scheduler P) (l : List P) (t : ℕ) : Option P :=
  match roundRobin s l t with
  | .ok s' => s'.currentProcess
  | .error _ => none

/-- How many of the first `t` ticks have found `p` the current process. -/
def ticksOf (s : Scheduler P) (l : List P) (p : P) (t : ℕ) : ℕ :=
  Nat.count (fun i => currentAfter s l i = some p) t

omit [DecidableEq P] [Fintype P] in
/-- Where in its slice a process is when turn `j` gives it the processor. -/
def turnOffset (s : Scheduler P) (l : List P) (j : ℕ) (p : P) : ℕ :=
  if j < l.length then (s.procs p).ticksRun.toNat % (s.procs p).ticksAlloc.toNat else 0

omit [DecidableEq P] [Fintype P] in
/-- The ticks of turn `j`: a slice, less what the first turn of the process finds used. -/
def turnLength (s : Scheduler P) (l : List P) (j : ℕ) : ℕ :=
  (l[j % l.length]?).elim 0 fun p => (s.procs p).ticksAlloc.toNat - turnOffset s l j p

omit [DecidableEq P] [Fintype P] in
/-- The ticks before turn `j`. -/
def turnStart (s : Scheduler P) (l : List P) : ℕ → ℕ
  | 0 => 0
  | j + 1 => turnStart s l j + turnLength s l j

/-! ### The start -/

variable {s : Scheduler P} {l : List P} {k : Fin NUM_PRIO}

omit [Fintype P] in
theorem setState_of_eq {p : P} {state : ProcessState} (h : (s.procs p).state = state) :
    (s.setState p state).procs = s.procs := by
  funext q
  rw [setState_procs]
  by_cases hq : q = p
  · subst hq
    rw [if_pos rfl, ← h]
  · rw [if_neg hq]

theorem foldlM_add {s' : Scheduler P} {pre post : List P}
    (hqueue : ∀ j, IsQueue s' j (if j = k then pre else [])) (hprocs : s'.procs = s.procs)
    (hnodup : (pre ++ post).Nodup) (hprio : ∀ p ∈ post, (s.procs p).prio = k)
    (hready : ∀ p ∈ post, (s.procs p).state = .ready) :
    ∃ s'', post.foldlM schedulerAdd s' = .ok s'' ∧ s''.procs = s.procs ∧
      ∀ j, IsQueue s'' j (if j = k then pre ++ post else []) := by
  induction post generalizing s' pre with
  | nil =>
      rw [List.append_nil]
      exact ⟨s', rfl, hprocs, hqueue⟩
  | cons p post ih =>
      have hp : ∀ j, p ∉ if j = k then pre else [] := by
        intro j
        split_ifs
        · exact fun hmem => (List.nodup_append.mp hnodup).2.2 p hmem p List.mem_cons_self rfl
        · exact List.not_mem_nil
      have hlevel : (s'.procs p).prio = k := hprocs ▸ hprio p List.mem_cons_self
      obtain ⟨s₁, hadd⟩ := schedulerAdd_returns hqueue p
      have hprocs₁ : s₁.procs = s.procs := by
        rw [schedulerAdd_ok hadd, setState_of_eq (hprocs ▸ hready p List.mem_cons_self), hprocs]
      have hqueue₁ : ∀ j, IsQueue s₁ j (if j = k then pre ++ [p] else []) := by
        intro j
        have hj := schedulerAdd_queues hqueue hp hadd j
        rw [hlevel] at hj
        by_cases hjk : j = k
        · subst hjk
          rw [Function.update_self, if_pos rfl] at hj
          rwa [if_pos rfl]
        · rw [Function.update_of_ne hjk, if_neg hjk] at hj
          rwa [if_neg hjk]
      obtain ⟨s₂, hrest, hprocs₂, hqueue₂⟩ := ih hqueue₁ hprocs₁ (by simpa using hnodup)
        (fun q hq => hprio q (List.mem_cons_of_mem p hq))
        fun q hq => hready q (List.mem_cons_of_mem p hq)
      refine ⟨s₂, ?_, hprocs₂, by simpa using hqueue₂⟩
      rw [List.foldlM_cons, hadd]
      exact hrest

/-! ### A tick -/

/-- After `t` ticks, `e` of them in turn `j`. -/
structure FairState (s : Scheduler P) (l : List P) (k : Fin NUM_PRIO) (j e t : ℕ)
    (s' : Scheduler P) : Prop where
  current : s'.currentProcess = l[j % l.length]?
  active : s'.schedulerActive = true
  queue : ∀ i, IsQueue s' i (if i = k then l.rotate (j + 1) else [])
  state_eq : ∀ p ∈ l, (s'.procs p).state = if s'.currentProcess = some p then .running else .ready
  outside : ∀ p, p ∉ l → (s'.procs p).state = (s.procs p).state
  alloc_eq : ∀ p, (s'.procs p).ticksAlloc = (s.procs p).ticksAlloc
  run_eq : ∀ p ∈ l, (s'.procs p).ticksRun.toNat = (s.procs p).ticksRun.toNat + ticksOf s l p t
  phase : ∀ i p, l[i]? = some p →
    (s'.procs p).ticksRun.toNat % (s.procs p).ticksAlloc.toNat =
      if i = j % l.length then (turnOffset s l j p + e) % (s.procs p).ticksAlloc.toNat
      else if j ≤ i then (s.procs p).ticksRun.toNat % (s.procs p).ticksAlloc.toNat else 0

omit [DecidableEq P] [Fintype P] in
theorem getElem?_injective (hnodup : l.Nodup) {i j : ℕ} {p : P} (hi : l[i]? = some p)
    (hj : l[j]? = some p) : i = j := by
  obtain ⟨hlt, _⟩ := List.getElem?_eq_some_iff.mp hi
  exact (List.getElem?_inj hlt hnodup).mp (hi.trans hj.symm)

omit [DecidableEq P] [Fintype P] in
theorem turnLength_eq {j : ℕ} {p : P} (hp : l[j % l.length]? = some p) :
    turnLength s l j = (s.procs p).ticksAlloc.toNat - turnOffset s l j p := by
  unfold turnLength
  rw [hp]
  rfl

omit [DecidableEq P] [Fintype P] in
theorem turnOffset_lt {j : ℕ} {p : P} (halloc : (s.procs p).ticksAlloc ≠ 0) :
    turnOffset s l j p < (s.procs p).ticksAlloc.toNat := by
  have hpos : 0 < (s.procs p).ticksAlloc.toNat := by
    refine Nat.pos_of_ne_zero fun hzero => halloc ?_
    exact UInt32.toNat_inj.mp hzero
  unfold turnOffset
  split_ifs
  · exact Nat.mod_lt _ hpos
  · exact hpos

omit [DecidableEq P] [Fintype P] in
theorem turnLength_pos (hne : l ≠ []) (hall : ∀ p ∈ l, (s.procs p).ticksAlloc ≠ 0) (j : ℕ) :
    0 < turnLength s l j := by
  obtain ⟨p, hp⟩ : ∃ p, l[j % l.length]? = some p :=
    ⟨_, List.getElem?_eq_getElem (Nat.mod_lt _ (List.length_pos_iff.mpr hne))⟩
  rw [turnLength_eq hp]
  exact Nat.sub_pos_of_lt (turnOffset_lt (hall p (List.mem_of_getElem? hp)))

theorem ticksOf_succ {p q : P} {t : ℕ} (hcurrent : currentAfter s l t = some p) :
    ticksOf s l q (t + 1) = ticksOf s l q t + if q = p then 1 else 0 := by
  unfold ticksOf
  rw [Nat.count_succ, hcurrent]
  simp only [Option.some.injEq, eq_comm]

theorem FairState.countTick {j e t : ℕ} {s' : Scheduler P} {p : P} (h : FairState s l k j e t s')
    (hp : l[j % l.length]? = some p) (hcurrent : currentAfter s l t = some p) (hnodup : l.Nodup)
    (hbound : (s.procs p).ticksRun.toNat + ticksOf s l p (t + 1) < 2 ^ 32) :
    FairState s l k j (e + 1) (t + 1) (LunaOs.countTick s' p) := by
  have hcount := countTick_procs s' p
  have hmem : p ∈ l := List.mem_of_getElem? hp
  have hrun : ((s'.procs p).ticksRun + 1).toNat = (s'.procs p).ticksRun.toNat + 1 := by
    have hold := h.run_eq p hmem
    rw [ticksOf_succ hcurrent, if_pos rfl] at hbound
    rw [UInt32.toNat_add]
    exact Nat.mod_eq_of_lt (by rw [hold]; exact hbound)
  refine ⟨h.current, h.active, fun i => ?_, fun q hq => ?_, fun q hq => ?_, fun q => ?_,
    fun q hq => ?_, fun i q hi => ?_⟩
  · exact (h.queue i).congr rfl (fun _ _ => rfl) fun q _ => (countTick_reschedules s' p).prio_eq q
  · rw [hcount]
    exact h.state_eq q hq
  · rw [hcount]
    exact h.outside q hq
  · rw [hcount]
    exact h.alloc_eq q
  · rw [hcount, ticksOf_succ hcurrent]
    by_cases hqp : q = p
    · subst hqp
      rw [if_pos rfl, if_pos rfl, hrun, h.run_eq q hq]
      rfl
    · rw [if_neg hqp, if_neg hqp]
      exact h.run_eq q hq
  · have hold := h.phase i q hi
    rw [hcount]
    by_cases hqp : q = p
    · subst hqp
      obtain rfl : i = j % l.length := getElem?_injective hnodup hi hp
      rw [if_pos rfl] at hold ⊢
      rw [if_pos rfl, hrun, ← Nat.mod_add_mod, hold, Nat.mod_add_mod]
      rfl
    · have hij : i ≠ j % l.length := by
        rintro rfl
        exact hqp (Option.some.inj (hi.symm.trans hp))
      rw [if_neg hij] at hold ⊢
      rw [if_neg hqp]
      exact hold

theorem FairState.runQueues_eq {j e t : ℕ} {s' : Scheduler P} (h : FairState s l k j e t s')
    (hne : l ≠ []) (i : Fin NUM_PRIO) :
    s'.runQueues i = if i = k then l[(j + 1) % l.length]? else none := by
  rw [(h.queue i).circular.head_eq]
  split_ifs
  · rw [← List.rotate_mod, List.head?_rotate (Nat.mod_lt _ (List.length_pos_iff.mpr hne))]
  · rfl

/-- The queues after their heads have moved on from level `n`, which is not above `k`. -/
theorem FairState.advanceFrom_queue {j e t : ℕ} {s' : Scheduler P} (h : FairState s l k j e t s')
    {n : ℕ} (hn : n ≤ k.val) (i : Fin NUM_PRIO) :
    IsQueue (s'.advanceFrom n) i (if i = k then l.rotate (j + 1 + 1) else []) := by
  have hi := (h.queue i).advanceFrom n
  by_cases hik : i = k
  · subst hik
    rw [if_pos rfl, if_pos hn, List.rotate_rotate] at hi
    rwa [if_pos rfl]
  · rw [if_neg hik, List.rotate_nil, ite_self] at hi
    rwa [if_neg hik]

omit [DecidableEq P] [Fintype P] in
theorem phase_next {j e : ℕ} {p : P} (hp : l[j % l.length]? = some p) (halloc : (s.procs p).ticksAlloc ≠ 0)
    (he : e = turnLength s l j) {i : ℕ} {q : P} (hi : l[i]? = some q) :
    (if i = j % l.length then (turnOffset s l j q + e) % (s.procs q).ticksAlloc.toNat
      else if j ≤ i then (s.procs q).ticksRun.toNat % (s.procs q).ticksAlloc.toNat else 0) =
    if i = (j + 1) % l.length then (turnOffset s l (j + 1) q + 0) % (s.procs q).ticksAlloc.toNat
      else if j + 1 ≤ i then (s.procs q).ticksRun.toNat % (s.procs q).ticksAlloc.toNat else 0 := by
  obtain ⟨hlt, _⟩ := List.getElem?_eq_some_iff.mp hi
  -- an index below the length is its own remainder
  have hsmall : ∀ m, m < l.length → m % l.length = m := fun m hm => Nat.mod_eq_of_lt hm
  by_cases hij : i = j % l.length
  · obtain rfl : p = q := Option.some.inj (hp.symm.trans (hij ▸ hi))
    have hend : (turnOffset s l j p + e) % (s.procs p).ticksAlloc.toNat = 0 := by
      have hoffset := turnOffset_lt (l := l) (j := j) halloc
      rw [he, turnLength_eq hp, Nat.add_sub_cancel' (Nat.le_of_lt hoffset), Nat.mod_self]
    have hji : ¬ j + 1 ≤ i := by
      have hle := Nat.mod_le j l.length
      omega
    rw [if_pos hij, hend, if_neg hji]
    split_ifs with hnext
    · have hlast : ¬ j + 1 < l.length := by
        intro hjl
        rw [hsmall j (by omega)] at hij
        rw [hsmall (j + 1) hjl] at hnext
        omega
      unfold turnOffset
      rw [if_neg hlast, Nat.zero_mod]
    · rfl
  · have hji : j ≠ i := by
      rintro rfl
      exact hij (hsmall j hlt).symm
    rw [if_neg hij]
    by_cases hnext : i = (j + 1) % l.length
    · rw [if_pos hnext]
      unfold turnOffset
      by_cases hjl : j + 1 < l.length
      · rw [hsmall (j + 1) hjl] at hnext
        rw [if_pos hjl, if_pos (by omega), Nat.add_zero, Nat.mod_mod]
      · rw [if_neg hjl, if_neg (by omega), Nat.zero_mod]
    · rw [if_neg hnext]
      simp only [show j ≤ i ↔ j + 1 ≤ i by omega]

theorem FairState.switchTo {j e t : ℕ} {s' : Scheduler P} {p q : P} (h : FairState s l k j e t s')
    (hp : l[j % l.length]? = some p) (hq : l[(j + 1) % l.length]? = some q) (hqp : q ≠ p)
    (halloc : (s.procs p).ticksAlloc ≠ 0) (he : e = turnLength s l j) :
    FairState s l k (j + 1) 0 t (LunaOs.switchTo (s'.advanceFrom k.val) p q) := by
  have hmem : p ∈ l := List.mem_of_getElem? hp
  have hcurrent : s'.currentProcess = some p := h.current.trans hp
  have hrunning : (s'.procs p).state = .running := by
    rw [h.state_eq p hmem, if_pos hcurrent]
  have hprocs := switchTo_procs (s'.advanceFrom k.val) hqp
  refine ⟨(switchTo_currentProcess _ _ _).trans hq.symm, (switchTo_schedulerActive _ _ _).trans h.active,
    fun m => ?_, fun x hx => ?_, fun x hx => ?_, fun x => ?_, fun x hx => ?_, fun m x hm => ?_⟩
  · refine (h.advanceFrom_queue (Nat.le_refl _) m).congr (congrFun (switchTo_runQueues _ _ _) m)
      (fun x _ => congrFun (switchTo_next _ _ _) x) fun x _ => ?_
    rw [hprocs]
    rfl
  · have hold := h.state_eq x hx
    rw [switchTo_currentProcess, hprocs]
    dsimp only
    rw [show (s'.advanceFrom k.val).procs = s'.procs from rfl, hrunning, hold, hcurrent]
    by_cases hxq : x = q
    · rw [if_pos hxq, if_pos (congrArg some hxq.symm)]
    · rw [if_neg hxq, if_neg fun heq => hxq (Option.some.inj heq).symm]
      by_cases hxp : x = p
      · rw [if_pos ⟨hxp, rfl⟩]
      · rw [if_neg fun hand => hxp hand.1, if_neg fun heq => hxp (Option.some.inj heq).symm]
  · have hxq : x ≠ q := fun heq => hx (heq ▸ List.mem_of_getElem? hq)
    have hxp : x ≠ p := fun heq => hx (heq ▸ hmem)
    rw [hprocs]
    dsimp only
    rw [if_neg hxq, if_neg fun hand => hxp hand.1]
    exact h.outside x hx
  · rw [hprocs]
    exact h.alloc_eq x
  · rw [hprocs]
    exact h.run_eq x hx
  · rw [hprocs]
    exact (h.phase m x hm).trans (phase_next hp halloc he hm)

/-- **The end of a turn** is the start of the next one. -/
theorem FairState.endSlice {j e t : ℕ} {s' : Scheduler P} {p : P} (h : FairState s l k j e t s')
    (hp : l[j % l.length]? = some p) (halloc : (s.procs p).ticksAlloc ≠ 0)
    (he : e = turnLength s l j) : FairState s l k (j + 1) 0 t (LunaOs.endSlice s' p).1 := by
  have hmem : p ∈ l := List.mem_of_getElem? hp
  have hne : l ≠ [] := List.ne_nil_of_mem hmem
  have hcurrent : s'.currentProcess = some p := h.current.trans hp
  obtain ⟨q, hq⟩ : ∃ q, l[(j + 1) % l.length]? = some q :=
    ⟨_, List.getElem?_eq_getElem (Nat.mod_lt _ (List.length_pos_iff.mpr hne))⟩
  rcases endSlice_cases s' p with
    ⟨i, n, hqueue, _, _, hnp, hend⟩ | ⟨_, _, hready, _, _⟩ | ⟨hnone, hend⟩
  · rw [h.runQueues_eq hne, hq] at hqueue
    split_ifs at hqueue with hik
    obtain rfl := Option.some.inj hqueue
    subst hik
    rw [hend]
    exact h.switchTo hp hq hnp halloc he
  · rw [h.state_eq p hmem, if_pos hcurrent] at hready
    cases hready
  · -- the head is not ready, so it is the current process: the only one of the queue
    have hqp : q = p := by
      by_contra hqp
      have hready := h.state_eq q (List.mem_of_getElem? hq)
      rw [hcurrent, if_neg fun heq => hqp (Option.some.inj heq).symm] at hready
      refine hnone k ⟨q, ?_, hready⟩
      rw [h.runQueues_eq hne, if_pos rfl, hq]
    rw [hend]
    refine ⟨hcurrent.trans (hqp ▸ hq.symm), h.active, h.advanceFrom_queue (Nat.zero_le _), h.state_eq,
      h.outside, h.alloc_eq, h.run_eq, fun m x hm => ?_⟩
    exact (h.phase m x hm).trans (phase_next hp halloc he hm)

/-- **One more tick.** -/
theorem FairState.tick {j e t : ℕ} {s' : Scheduler P} {p : P} (h : FairState s l k j e t s')
    (hp : l[j % l.length]? = some p) (hcurrent : currentAfter s l t = some p) (hnodup : l.Nodup)
    (hall : ∀ p ∈ l, (s.procs p).ticksAlloc ≠ 0) (he : e < turnLength s l j)
    (hbound : (s.procs p).ticksRun.toNat + ticksOf s l p (t + 1) < 2 ^ 32) :
    ∃ s'' switch j' e', schedulerTick s' = .ok (s'', switch) ∧
      turnStart s l j' + e' = turnStart s l j + e + 1 ∧ e' < turnLength s l j' ∧
      FairState s l k j' e' (t + 1) s'' := by
  have hcount := h.countTick hp hcurrent hnodup hbound
  have halloc := hall p (List.mem_of_getElem? hp)
  have hoffset := turnOffset_lt (l := l) (j := j) halloc
  have hlength := turnLength_eq (s := s) hp
  have hphase := hcount.phase _ p hp
  rw [if_pos rfl, countTick_procs, if_pos rfl] at hphase
  dsimp only at hphase
  have htick := schedulerTick_eq (h.current.trans hp) h.active ((h.alloc_eq p).symm ▸ halloc)
  rw [h.alloc_eq p] at htick
  by_cases hlast : e + 1 = turnLength s l j
  · -- the slice is exhausted
    have hzero : ((s'.procs p).ticksRun + 1) % (s.procs p).ticksAlloc = 0 := by
      apply UInt32.toNat_inj.mp
      rw [UInt32.toNat_mod, hphase, show turnOffset s l j p + (e + 1) = (s.procs p).ticksAlloc.toNat by omega,
        Nat.mod_self]
      rfl
    rw [if_neg (not_not.mpr hzero)] at htick
    have hnext := hcount.endSlice hp halloc hlast
    refine ⟨_, _, j + 1, 0, htick, ?_, ?_, hnext⟩
    · rw [turnStart, ← hlast]
      rfl
    · exact turnLength_pos (List.ne_nil_of_mem (List.mem_of_getElem? hp)) hall _
  · have hnonzero : ((s'.procs p).ticksRun + 1) % (s.procs p).ticksAlloc ≠ 0 := by
      intro hzero
      have hnat := congrArg UInt32.toNat hzero
      rw [UInt32.toNat_mod, hphase, Nat.mod_eq_of_lt (by omega)] at hnat
      have hzero : turnOffset s l j p + (e + 1) = 0 := hnat
      omega
    rw [if_pos hnonzero] at htick
    exact ⟨_, _, j, e + 1, htick, rfl, by omega, hcount⟩

/-! ### Runs -/

theorem roundRobin_succ {t : ℕ} {s' : Scheduler P} (h : roundRobin s l t = .ok s') :
    roundRobin s l (t + 1) = (schedulerTick s').map Prod.fst := by
  obtain ⟨s₁, hadd, h⟩ := bind_eq_ok h
  obtain ⟨s₂, hstart, hticks⟩ := bind_eq_ok h
  unfold roundRobin
  rw [hadd]
  show (schedulerStart s₁ >>= schedulerTicks (t + 1)) = _
  rw [hstart]
  show (schedulerTicks t s₂ >>= _) = _
  rw [hticks]
  show (schedulerTick s' >>= _) = _
  cases schedulerTick s' <;> rfl

/-- The state in which `scheduler_start` leaves the queue of the processes. -/
theorem fairState_started {s₁ : Scheduler P} {a : P} {rest : List P} (hprocs : s₁.procs = s.procs)
    (hqueue : ∀ m, IsQueue s₁ m (if m = k then a :: rest else []))
    (hready : ∀ p ∈ a :: rest, (s.procs p).state = .ready) :
    FairState s (a :: rest) k 0 0 0
      ({ s₁.advanceFrom k.val with schedulerActive := true, currentProcess := some a }.setState a
        .running) := by
  have ha : (a :: rest)[0 % (a :: rest).length]? = some a := by rw [Nat.zero_mod]; rfl
  refine ⟨ha.symm, rfl, fun m => IsQueue.setState ?_ a .running, fun x hx => ?_, fun x hx => ?_, fun x => ?_,
    fun x hx => ?_, fun m x hm => ?_⟩
  · have hm := (hqueue m).advanceFrom k.val
    refine IsQueue.congr (s := s₁.advanceFrom k.val) ?_ rfl (fun _ _ => rfl) fun _ _ => rfl
    by_cases hmk : m = k
    · subst hmk
      rw [if_pos rfl, if_pos (Nat.le_refl _)] at hm
      rw [if_pos rfl]
      exact hm
    · rw [if_neg hmk, List.rotate_nil, ite_self] at hm
      rwa [if_neg hmk]
  · rw [setState_procs]
    show (if x = a then ProcessState.running else (s₁.procs x).state) =
      if some a = some x then .running else .ready
    rw [hprocs, hready x hx]
    simp only [Option.some.injEq, eq_comm]
  · have hxa : x ≠ a := by
      rintro rfl
      exact hx List.mem_cons_self
    rw [setState_procs_of_ne _ hxa]
    exact congrArg (fun f => (f x).state) hprocs
  · rw [setState_procs]
    exact congrArg (fun f => (f x).ticksAlloc) hprocs
  · rw [setState_procs]
    show (s₁.procs x).ticksRun.toNat = (s.procs x).ticksRun.toNat + Nat.count _ 0
    rw [hprocs, Nat.count_zero]
    rfl
  · rw [setState_procs]
    show (s₁.procs x).ticksRun.toNat % _ = _
    rw [hprocs, if_pos (Nat.zero_le m)]
    unfold turnOffset
    rw [if_pos (List.length_pos_iff.mpr (List.cons_ne_nil a rest)), Nat.add_zero, Nat.mod_mod, ite_self]

theorem fairState_start (hne : l ≠ []) (hnodup : l.Nodup) (hempty : ∀ i, s.runQueues i = none)
    (hprio : ∀ p ∈ l, (s.procs p).prio = k) (hready : ∀ p ∈ l, (s.procs p).state = .ready) :
    ∃ s', roundRobin s l 0 = .ok s' ∧ FairState s l k 0 0 0 s' := by
  have hqueue₀ : ∀ j, IsQueue s j (if j = k then [] else []) := by
    intro j
    rw [ite_self]
    refine ⟨?_, fun p hp => absurd hp List.not_mem_nil⟩
    rw [hempty j]
    exact circular_nil
  obtain ⟨s₁, hadd, hprocs, hqueue⟩ := foldlM_add hqueue₀ rfl hnodup hprio hready
  rw [List.nil_append] at hqueue
  obtain ⟨a, rest, rfl⟩ := List.exists_cons_of_ne_nil hne
  have hqueues : ∀ i, s₁.runQueues i = if i = k then some a else none := by
    intro i
    rw [(hqueue i).circular.head_eq]
    split_ifs <;> rfl
  have hheadReady : HeadReady s₁ k :=
    ⟨a, (hqueues k).trans (if_pos rfl), hprocs ▸ hready a List.mem_cons_self⟩
  obtain ⟨s', hstart⟩ := schedulerStart_returns hheadReady
  have hrun : roundRobin s (a :: rest) 0 = .ok s' := by
    unfold roundRobin
    rw [hadd]
    show (schedulerStart s₁ >>= schedulerTicks 0) = _
    rw [hstart]
    rfl
  refine ⟨s', hrun, ?_⟩
  obtain ⟨i, p, hqueue', _, _, rfl⟩ := schedulerStart_cases hstart
  rw [hqueues] at hqueue'
  split_ifs at hqueue' with hik
  obtain rfl := Option.some.inj hqueue'
  subst hik
  exact fairState_started hprocs hqueue hready

/-- **Round robin**: while no tick counter wraps around, the run never faults, its turns follow the order
in which the processes were added, and the current process is the one of them that is running. -/
theorem round_robin (s : Scheduler P) (l : List P) (hne : l ≠ []) (hnodup : l.Nodup)
    (hempty : ∀ i, s.runQueues i = none) (k : Fin NUM_PRIO) (hprio : ∀ p ∈ l, (s.procs p).prio = k)
    (hready : ∀ p ∈ l, (s.procs p).state = .ready) (hall : ∀ p ∈ l, (s.procs p).ticksAlloc ≠ 0)
    (t : ℕ) (hbound : ∀ p ∈ l, (s.procs p).ticksRun.toNat + ticksOf s l p t < 2 ^ 32) :
    ∃ s' j, roundRobin s l t = .ok s' ∧ turnStart s l j ≤ t ∧ t < turnStart s l (j + 1) ∧
      s'.currentProcess = l[j % l.length]? ∧
      ∀ p, (s'.procs p).state = .running ↔
        s'.currentProcess = some p ∨ p ∉ l ∧ (s.procs p).state = .running := by
  have hturns : ∃ s' j e, roundRobin s l t = .ok s' ∧ t = turnStart s l j + e ∧
      e < turnLength s l j ∧ FairState s l k j e t s' := by
    induction t with
    | zero =>
        obtain ⟨s', hrun, hfair⟩ := fairState_start hne hnodup hempty hprio hready
        exact ⟨s', 0, 0, hrun, rfl, turnLength_pos hne hall 0, hfair⟩
    | succ t ih =>
        have hle : ∀ p, ticksOf s l p t ≤ ticksOf s l p (t + 1) := fun p =>
          Nat.count_monotone _ (Nat.le_succ t)
        obtain ⟨s', j, e, hrun, ht, he, hfair⟩ := ih fun p hp =>
          Nat.lt_of_le_of_lt (Nat.add_le_add_left (hle p) _) (hbound p hp)
        obtain ⟨p, hp⟩ : ∃ p, l[j % l.length]? = some p :=
          ⟨_, List.getElem?_eq_getElem (Nat.mod_lt _ (List.length_pos_iff.mpr hne))⟩
        have hcurrent : currentAfter s l t = some p := by
          unfold currentAfter
          rw [hrun]
          exact hfair.current.trans hp
        obtain ⟨s'', switch, j', e', htick, hstart, he', hfair'⟩ :=
          hfair.tick hp hcurrent hnodup hall he (hbound p (List.mem_of_getElem? hp))
        refine ⟨s'', j', e', ?_, by omega, he', hfair'⟩
        rw [roundRobin_succ hrun, htick]
        rfl
  obtain ⟨s', j, e, hrun, ht, he, hfair⟩ := hturns
  refine ⟨s', j, hrun, by omega, by rw [turnStart]; omega, hfair.current, fun p => ?_⟩
  by_cases hp : p ∈ l
  · rw [hfair.state_eq p hp]
    simp [hp]
  · have hcurrent : s'.currentProcess ≠ some p := by
      intro heq
      exact hp (List.mem_of_getElem? (hfair.current.symm.trans heq))
    rw [hfair.outside p hp]
    simp [hp, hcurrent]

/-- Two processes with slices of two ticks; the first one has run for `run` ticks before. -/
def twoSlices (run : UInt32) : Scheduler Bool :=
  bootScheduler (fun p => { priority := 8, ticksRun := if p then 0 else run, ticksAlloc := 2 })
    ⟨Pmm.statics, fun _ => 0, 0, 0⟩

theorem round_robin_twoSlices : ∃ s' j, roundRobin (twoSlices 0) [false, true] 5 = .ok s' ∧
    turnStart (twoSlices 0) [false, true] j ≤ 5 ∧ 5 < turnStart (twoSlices 0) [false, true] (j + 1) ∧
    s'.currentProcess = [false, true][j % 2]? ∧
    ∀ p, (s'.procs p).state = .running ↔ s'.currentProcess = some p ∨
      p ∉ [false, true] ∧ ((twoSlices 0).procs p).state = .running := by
  refine round_robin (twoSlices 0) [false, true] (by decide) (by decide) (fun _ => rfl) 8 (by decide)
    (by decide) (by decide) 5 fun p hp => ?_
  have hcount : ticksOf (twoSlices 0) [false, true] p 5 ≤ 5 := Nat.count_le _
  have hrun : ((twoSlices 0).procs p).ticksRun.toNat = 0 := by
    cases p <;> rfl
  omega

/-- After one tick of its first slice of two the first process has had its turn. -/
theorem first_turn_short :
    currentAfter (twoSlices 1) [false, true] 0 = some false ∧ currentAfter (twoSlices 1) [false, true] 1 = some true ∧
      ((twoSlices 1).procs false).ticksAlloc = 2 := by
  decide

end LunaOs
