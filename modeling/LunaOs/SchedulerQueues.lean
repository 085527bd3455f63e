import LunaOs.Lib.CircularList
import LunaOs.Lib.Runs
import LunaOs.PmmInit
import LunaOs.Scheduler

/-! # The run queues over whole runs

`IsQueue s k l`: the queue of level `k` is the circular list of the processes `l`, which all belong on
this level.  Adding a process and taking one out behind the head keep the queues so, and so do ticks,
which only move heads on.  `scheduler_remove` of a head gives the last process of the list no new
successor: the list then ends at the process that was taken out, unless it was the only one.  A run
keeps the queues intact exactly if it never takes out such a head (`runQueues_intact_iff`). -/

namespace LunaOs

open CircularList

variable {P : Type}

/-- The queue of level `k` runs through `l`. -/
structure IsQueue (s : Scheduler P) (k : Fin NUM_PRIO) (l : List P) : Prop where
  circular : Circular s.next (s.runQueues k) l
  prio_eq : ∀ p ∈ l, (s.procs p).prio = k

theorem IsQueue.congr {s s' : Scheduler P} {k : Fin NUM_PRIO} {l : List P} (h : IsQueue s k l)
    (hhead : s'.runQueues k = s.runQueues k) (hnext : ∀ p ∈ l, s'.next p = s.next p)
    (hprio : ∀ p ∈ l, (s'.procs p).prio = (s.procs p).prio) : IsQueue s' k l := by
  refine ⟨?_, fun p hp => (hprio p hp).trans (h.prio_eq p hp)⟩
  rw [hhead]
  exact h.circular.congr hnext

theorem IsQueue.ne_of_mem {s : Scheduler P} {j k : Fin NUM_PRIO} {l l' : List P} (h : IsQueue s k l)
    (h' : IsQueue s j l') (hne : k ≠ j) {p q : P} (hp : p ∈ l) (hq : q ∈ l') : p ≠ q := by
  rintro rfl
  exact hne ((h.prio_eq p hp).symm.trans (h'.prio_eq p hq))

theorem IsQueue.advanceFrom {s : Scheduler P} {k : Fin NUM_PRIO} {l : List P} (h : IsQueue s k l)
    (n : ℕ) : IsQueue (s.advanceFrom n) k (if n ≤ k.val then l.rotate 1 else l) := by
  have hcirc := h.circular
  by_cases hk : n ≤ k.val
  · rw [if_pos hk]
    refine ⟨?_, fun p hp => h.prio_eq p (List.mem_rotate.mp hp)⟩
    rw [advanceFrom_runQueues_of_le s hk]
    exact hcirc.rotate
  · rw [if_neg hk]
    refine ⟨?_, h.prio_eq⟩
    rw [advanceFrom_runQueues_of_lt s (Nat.not_le.mp hk)]
    exact hcirc

theorem IsQueue.reschedules {s s' : Scheduler P} (h : Reschedules s s') {k : Fin NUM_PRIO} {l : List P}
    (hl : IsQueue s k l) : ∃ l', IsQueue s' k l' ∧ ∀ p, p ∈ l' ↔ p ∈ l := by
  obtain ⟨n, hqueues⟩ := h.runQueues_eq
  have hnext : ∀ p, s'.next p = (s.advanceFrom n).next p := fun p => congrFun h.next_eq p
  refine ⟨_, (hl.advanceFrom n).congr (congrFun hqueues k) (fun p _ => hnext p)
    fun p _ => h.prio_eq p, fun p => ?_⟩
  split_ifs
  · exact List.mem_rotate
  · exact Iff.rfl

variable [DecidableEq P]

theorem IsQueue.setState {s : Scheduler P} {k : Fin NUM_PRIO} {l : List P} (h : IsQueue s k l) (p : P)
    (state : ProcessState) : IsQueue (s.setState p state) k l :=
  h.congr rfl (fun _ _ => rfl) fun q _ => setState_prio s p q state

/-! ### The traversals -/

/-- **The traversal of `scheduler_add`** comes to the last process. -/
theorem findTail_circular [Fintype P] {next : P → Option P} {a t : P} {l : List P}
    (h : Circular next (some a) (l ++ [t])) : findTail next a = .ok t := by
  have hwalk : ∀ post pre x, l ++ [t] = pre ++ x :: post →
      Loop.loop (tailBody next a) x = some (.ok t) := by
    intro post
    induction post with
    | nil =>
        intro pre x heq
        obtain rfl : t = x := List.singleton_inj.mp (List.append_inj' heq rfl).2
        exact Loop.loop_exit (if_pos h.next_last)
    | cons y post ih =>
        intro pre x heq
        rw [heq] at h
        have hya : ¬ next x = some a := by
          rw [h.next_eq]
          exact fun heq => h.ne_head (Option.some.inj heq)
        have hbody : tailBody next a x = .inr y := by
          unfold tailBody
          rw [if_neg hya, h.next_eq]
        rw [Loop.loop_next hbody]
        exact ih (pre ++ [x]) y (by simp [heq])
  obtain ⟨rest, hrest⟩ := h.exists_cons
  unfold findTail
  rw [hwalk rest [] a hrest]
  rfl

theorem scan_found [Fintype P] (next : P → Option P) (a x : P) (last : Option P) :
    Loop.loop (scanBody next a x) (last, x) = some (.ok (some last)) :=
  Loop.loop_exit (if_pos rfl)

/-- The traversal of `scheduler_remove` up to a process that the list has not passed yet. -/
theorem scan_circular [Fintype P] {next : P → Option P} {a p : P} {pre post : List P} {x : P}
    (h : Circular next (some a) (pre ++ x :: post)) (hp : p ∉ pre) :
    Loop.loop (scanBody next a p) (pre.getLast?, x) = some (.ok
      (if p ∈ x :: post then some (pre ++ (x :: post).takeWhile (· ≠ p)).getLast? else none)) := by
  induction post generalizing pre x with
  | nil =>
      by_cases hxp : x = p
      · subst hxp
        rw [scan_found]
        simp
      · have hbody : scanBody next a p (pre.getLast?, x) = .inl (.ok none) := by
          unfold scanBody
          rw [if_neg hxp]
          dsimp only
          rw [h.next_last]
          exact if_pos rfl
        rw [Loop.loop_exit hbody, if_neg]
        simp [Ne.symm hxp]
  | cons y post ih =>
      by_cases hxp : x = p
      · subst hxp
        rw [scan_found]
        simp
      · have hbody : scanBody next a p (pre.getLast?, x) = .inr ((pre ++ [x]).getLast?, y) := by
          unfold scanBody
          rw [if_neg hxp]
          dsimp only
          rw [h.next_eq, List.getLast?_concat]
          exact if_neg h.ne_head
        have hsplit : pre ++ x :: y :: post = (pre ++ [x]) ++ y :: post := by simp
        rw [hsplit] at h
        rw [Loop.loop_next hbody, ih h (by simp [hp, Ne.symm hxp])]
        simp [hxp, Ne.symm hxp]

theorem scanQueue_circular [Fintype P] {next : P → Option P} {a : P} {l : List P}
    (h : Circular next (some a) l) (p : P) :
    scanQueue next a p =
      .ok (if p ∈ l then some (l.takeWhile (· ≠ p)).getLast? else none) := by
  obtain ⟨rest, rfl⟩ := h.exists_cons
  unfold scanQueue
  rw [show (none : Option P) = ([] : List P).getLast? from rfl,
    scan_circular (show Circular next (some a) ([] ++ a :: rest) from h) List.not_mem_nil]
  rfl

/-! ### Adding and removing -/

/-- The process before `p` in its queue is what the traversal of `scheduler_remove` hands on. -/
theorem takeWhile_ne_append {p : P} {pre post : List P} (hp : p ∉ pre) :
    (pre ++ p :: post).takeWhile (· ≠ p) = pre := by
  have hpre : ∀ q ∈ pre, decide (q ≠ p) = true := by
    intro q hq
    exact decide_eq_true fun hqp => hp (hqp ▸ hq)
  rw [List.takeWhile_append_of_pos hpre, List.takeWhile_cons_of_neg (by simp), List.append_nil]

theorem unlink_alone {s : Scheduler P} {k : Fin NUM_PRIO} {prev : Option P} {p : P} (h : s.next p = some p) :
    unlink s k prev p = { s with
      runQueues := Function.update s.runQueues k none, next := Function.update s.next p none } := by
  unfold unlink
  simp [h]

theorem unlink_behind {s : Scheduler P} {k : Fin NUM_PRIO} {q p : P} (h : s.next p ≠ some p)
    (hhead : s.runQueues k ≠ some p) :
    unlink s k (some q) p = { s with
      next := Function.update (Function.update s.next q (s.next p)) p none } := by
  unfold unlink
  simp [h, hhead]

theorem unlink_head {s : Scheduler P} {k : Fin NUM_PRIO} {p : P} (h : s.next p ≠ some p)
    (hhead : s.runQueues k = some p) :
    unlink s k none p = { s with
      runQueues := Function.update s.runQueues k (s.next p)
      next := Function.update s.next p none } := by
  unfold unlink
  simp [h, hhead]

section
variable [Fintype P] {s : Scheduler P} {lists : Fin NUM_PRIO → List P}

theorem schedulerAdd_empty {p : P} (h : s.runQueues (s.procs p).prio = none) :
    schedulerAdd s p = .ok ({ s with
      runQueues := Function.update s.runQueues (s.procs p).prio (some p)
      next := Function.update s.next p (some p) }.setState p .ready) := by
  unfold schedulerAdd
  dsimp only
  rw [h]

theorem schedulerAdd_behind {p a t : P} (h : s.runQueues (s.procs p).prio = some a)
    (htail : findTail s.next a = .ok t) :
    schedulerAdd s p = .ok ({ s with
      next := Function.update (Function.update s.next t (some p)) p (some a) }.setState p .ready) := by
  unfold schedulerAdd
  dsimp only
  rw [h]
  dsimp only
  rw [htail]
  rfl

theorem IsQueue.exists_tail {k : Fin NUM_PRIO} {l : List P} {a : P} (h : IsQueue s k l)
    (hhead : s.runQueues k = some a) : ∃ pre t, l = pre ++ [t] ∧ findTail s.next a = .ok t := by
  have hcirc := h.circular
  rw [hhead] at hcirc
  obtain ⟨rest, rfl⟩ := hcirc.exists_cons
  obtain ⟨pre, t, hsplit⟩ := (List.eq_nil_or_concat' (a :: rest)).resolve_left (by simp)
  rw [hsplit] at hcirc
  exact ⟨pre, t, hsplit, findTail_circular hcirc⟩

theorem schedulerAdd_returns (h : ∀ k, IsQueue s k (lists k)) (p : P) :
    ∃ s', schedulerAdd s p = .ok s' := by
  cases hhead : s.runQueues (s.procs p).prio with
  | none => exact ⟨_, schedulerAdd_empty hhead⟩
  | some a =>
      obtain ⟨_, t, _, htail⟩ := (h _).exists_tail hhead
      exact ⟨_, schedulerAdd_behind hhead htail⟩

theorem schedulerAdd_queues {s' : Scheduler P} {p : P} (h : ∀ k, IsQueue s k (lists k))
    (hp : ∀ k, p ∉ lists k) (hok : schedulerAdd s p = .ok s') (k : Fin NUM_PRIO) :
    IsQueue s' k (Function.update lists (s.procs p).prio (lists (s.procs p).prio ++ [p]) k) := by
  have hprio : ∀ q ∈ lists (s.procs p).prio ++ [p], (s.procs q).prio = (s.procs p).prio := by
    intro q hq
    rcases List.mem_append.mp hq with hq | hq
    · exact (h _).prio_eq q hq
    · rw [List.mem_singleton.mp hq]
  have hne : ∀ q ∈ lists k, q ≠ p := by
    rintro q hq rfl
    exact hp k hq
  cases hhead : s.runQueues (s.procs p).prio with
  | none =>
      have hnil := (h (s.procs p).prio).circular
      rw [hhead] at hnil
      obtain rfl := Except.ok.inj ((schedulerAdd_empty hhead).symm.trans hok)
      refine IsQueue.setState ?_ p .ready
      by_cases hk : k = (s.procs p).prio
      · subst hk
        rw [Function.update_self]
        refine ⟨?_, hprio⟩
        rw [hnil.eq_nil]
        dsimp only
        rw [Function.update_self]
        exact circular_singleton (Function.update_self _ _ _)
      · rw [Function.update_of_ne hk]
        exact (h k).congr (Function.update_of_ne hk _ _)
          (fun q hq => Function.update_of_ne (hne q hq) _ _) fun _ _ => rfl
  | some a =>
      obtain ⟨pre, t, hsplit, htail⟩ := (h _).exists_tail hhead
      have hcirc := (h (s.procs p).prio).circular
      rw [hhead, hsplit] at hcirc
      obtain rfl := Except.ok.inj ((schedulerAdd_behind hhead htail).symm.trans hok)
      refine IsQueue.setState ?_ p .ready
      by_cases hk : k = (s.procs p).prio
      · subst hk
        rw [Function.update_self]
        refine ⟨?_, hprio⟩
        dsimp only
        rw [hhead, hsplit, List.append_assoc]
        exact hcirc.insert (hsplit ▸ hp _)
      · have hmem : t ∈ lists (s.procs p).prio := hsplit ▸ by simp
        have hnt : ∀ q ∈ lists k, q ≠ t := fun q hq => (h k).ne_of_mem (h _) hk hq hmem
        rw [Function.update_of_ne hk]
        refine (h k).congr rfl (fun q hq => ?_) fun _ _ => rfl
        exact (Function.update_of_ne (hne q hq) _ _).trans (Function.update_of_ne (hnt q hq) _ _)

/-- A head that may be taken out: the only process of its queue. -/
def HeadAlone (s : Scheduler P) (p : P) : Prop :=
  s.runQueues (s.procs p).prio = some p → s.next p = some p

theorem schedulerRemove_eq (h : ∀ k, IsQueue s k (lists k)) (p : P) :
    schedulerRemove s p = .ok
      (if p ∈ lists (s.procs p).prio then
        unlink s (s.procs p).prio ((lists (s.procs p).prio).takeWhile (· ≠ p)).getLast? p
      else s) := by
  have hcirc := (h (s.procs p).prio).circular
  unfold schedulerRemove
  dsimp only
  cases hhead : s.runQueues (s.procs p).prio with
  | none =>
      rw [hhead] at hcirc
      rw [hcirc.eq_nil, if_neg List.not_mem_nil]
  | some a =>
      rw [hhead] at hcirc
      dsimp only
      rw [scanQueue_circular hcirc]
      by_cases hp : p ∈ lists (s.procs p).prio
      · rw [if_pos hp, if_pos hp]
        rfl
      · rw [if_neg hp, if_neg hp]
        rfl

omit [Fintype P] in
theorem IsQueue.unlink_other {s' : Scheduler P} {k j : Fin NUM_PRIO} {l l' : List P} {p : P}
    (hk : IsQueue s k l) (hj : IsQueue s j l') (hne : k ≠ j) (hp : p ∈ l')
    (hhead : s'.runQueues k = s.runQueues k) (hnext : ∀ x, x ∉ l' → s'.next x = s.next x)
    (hprocs : s'.procs = s.procs) : IsQueue s' k (l.erase p) := by
  rw [List.erase_of_not_mem fun hmem => hk.ne_of_mem hj hne hmem hp rfl]
  refine hk.congr hhead (fun x hx => hnext x fun hx' => ?_) fun x _ => by rw [hprocs]
  exact hk.ne_of_mem hj hne hx hx' rfl

omit [Fintype P] in
theorem unlink_alone_queues {p : P} {prev : Option P} (h : ∀ k, IsQueue s k (lists k))
    (hp : p ∈ lists (s.procs p).prio) (hself : s.next p = some p) (k : Fin NUM_PRIO) :
    IsQueue (unlink s (s.procs p).prio prev p) k ((lists k).erase p) := by
  rw [unlink_alone hself]
  by_cases hk : k = (s.procs p).prio
  · subst hk
    rw [(h _).circular.eq_singleton hp hself, List.erase_cons_head]
    refine ⟨?_, fun q hq => absurd hq List.not_mem_nil⟩
    dsimp only
    rw [Function.update_self]
    exact circular_nil
  · refine (h k).unlink_other (h _) hk hp (Function.update_of_ne hk _ _) (fun x hx => ?_) rfl
    refine Function.update_of_ne ?_ _ _
    rintro rfl
    exact hx hp

omit [Fintype P] in
theorem unlink_behind_queues {p q : P} {pre post : List P} (h : ∀ k, IsQueue s k (lists k))
    (hsplit : lists (s.procs p).prio = (pre ++ [q]) ++ p :: post) (hpre : p ∉ pre ++ [q])
    (k : Fin NUM_PRIO) :
    IsQueue (unlink s (s.procs p).prio (some q) p) k ((lists k).erase p) := by
  have hcirc := (h (s.procs p).prio).circular
  have hp : p ∈ lists (s.procs p).prio := by simp [hsplit]
  have hq : q ∈ lists (s.procs p).prio := by simp [hsplit]
  have hself : s.next p ≠ some p := by
    intro hself
    have hsingle := hsplit.symm.trans (hcirc.eq_singleton hp hself)
    have hlen := congrArg List.length hsingle
    simp only [List.length_append, List.length_cons, List.length_nil] at hlen
    omega
  have hhead : s.runQueues (s.procs p).prio ≠ some p := by
    intro hhead
    rw [hhead, hsplit] at hcirc
    cases pre with
    | nil => exact hpre (by simpa using (Option.some.inj hcirc.head_eq))
    | cons b pre => exact hpre (by simp [Option.some.inj hcirc.head_eq])
  rw [unlink_behind hself hhead]
  by_cases hk : k = (s.procs p).prio
  · subst hk
    rw [hsplit, List.append_assoc] at hcirc
    refine ⟨?_, fun x hx => (h _).prio_eq x (List.mem_of_mem_erase hx)⟩
    rw [hsplit, List.erase_append_right _ hpre, List.erase_cons_head, List.append_assoc]
    exact hcirc.remove
  · refine (h k).unlink_other (h _) hk hp rfl (fun x hx => ?_) rfl
    have hxp : x ≠ p := by
      rintro rfl
      exact hx hp
    have hxq : x ≠ q := by
      rintro rfl
      exact hx hq
    exact (Function.update_of_ne hxp _ _).trans (Function.update_of_ne hxq _ _)

/-- **Taking out a process that is not the head of a longer queue.** -/
theorem schedulerRemove_keeps {s' : Scheduler P} {p : P} (h : ∀ k, IsQueue s k (lists k))
    (halone : HeadAlone s p) (hok : schedulerRemove s p = .ok s') (k : Fin NUM_PRIO) :
    IsQueue s' k ((lists k).erase p) := by
  obtain rfl := Except.ok.inj ((schedulerRemove_eq h p).symm.trans hok)
  by_cases hp : p ∈ lists (s.procs p).prio
  · rw [if_pos hp]
    have hcirc := (h (s.procs p).prio).circular
    obtain ⟨pre, post, hsplit⟩ := List.append_of_mem hp
    have hpre : p ∉ pre := by
      have hnodup := hcirc.nodup
      rw [hsplit] at hnodup
      exact fun hmem => (List.nodup_append.mp hnodup).2.2 p hmem p List.mem_cons_self rfl
    rw [hsplit, takeWhile_ne_append hpre]
    rcases List.eq_nil_or_concat' pre with rfl | ⟨pre', q, rfl⟩
    · -- the head, which is the only process
      have hhead : s.runQueues (s.procs p).prio = some p := by
        rw [hcirc.head_eq, hsplit]
        rfl
      exact unlink_alone_queues h hp (halone hhead) k
    · rw [List.getLast?_concat]
      exact unlink_behind_queues h hsplit hpre k
  · rw [if_neg hp]
    have hnot : p ∉ lists k := by
      intro hmem
      rw [(h k).prio_eq p hmem] at hp
      exact hp hmem
    rw [List.erase_of_not_mem hnot]
    exact h k

/-- **Taking out the head of a queue with other processes** leaves a list that is not circular. -/
theorem schedulerRemove_breaks {s' : Scheduler P} {p : P} (h : ∀ k, IsQueue s k (lists k))
    (halone : ¬ HeadAlone s p) (hok : schedulerRemove s p = .ok s') (l : List P) :
    ¬ IsQueue s' (s.procs p).prio l := by
  obtain ⟨hhead, hself⟩ := Classical.not_imp.mp halone
  obtain rfl := Except.ok.inj ((schedulerRemove_eq h p).symm.trans hok)
  have hcirc := (h (s.procs p).prio).circular
  rw [hhead] at hcirc
  obtain ⟨rest, hsplit⟩ := hcirc.exists_cons
  rw [if_pos (hsplit ▸ List.mem_cons_self), hsplit, ← List.nil_append (p :: rest),
    takeWhile_ne_append List.not_mem_nil, List.getLast?_nil, unlink_head hself hhead]
  intro hqueue
  have hbroken := hqueue.circular
  dsimp only at hbroken
  rw [Function.update_self] at hbroken
  exact hcirc.not_circular_behead hself l hbroken

end

/-! ### Runs -/

inductive SchedulerOp (P : Type) where
  | add (p : P)
  | remove (p : P)
  | block (p : P)
  | unblock (p : P)
  | start
  | tick

/-- The scheduler with the processes that were added and not since removed. -/
structure SchedulerClient (P : Type) where
  scheduler : Scheduler P
  queued : Finset P

variable [Fintype P]

/-- An operation of the client, who adds only what is not queued and unblocks only what is blocked.
Nothing is left after a fault. -/
def SchedulerClient.step (c : SchedulerClient P) : SchedulerOp P → Option (SchedulerClient P)
  | .add p =>
      if p ∈ c.queued then none
      else (schedulerAdd c.scheduler p).toOption.map fun s => ⟨s, insert p c.queued⟩
  | .remove p => (schedulerRemove c.scheduler p).toOption.map fun s => ⟨s, c.queued.erase p⟩
  | .block p => (schedulerBlock c.scheduler p).toOption.map fun s => ⟨s, c.queued.erase p⟩
  | .unblock p =>
      if (c.scheduler.procs p).state = .blocked then
        (schedulerUnblock c.scheduler p).toOption.map fun s => ⟨s, insert p c.queued⟩
      else none
  | .start => (schedulerStart c.scheduler).toOption.map fun s => ⟨s, c.queued⟩
  | .tick => (schedulerTick c.scheduler).toOption.map fun r => ⟨r.1, c.queued⟩

/-- **The run queues are intact**: circular lists of distinct processes, each on its own level and in one
list only, which hold what was added and not since removed; and the traversals end. -/
structure QueuesIntact (c : SchedulerClient P) : Prop where
  lists : ∃ lists : Fin NUM_PRIO → List P,
    (∀ k, IsQueue c.scheduler k (lists k)) ∧
    (∀ j k p, p ∈ lists j → p ∈ lists k → j = k) ∧
    ∀ p, p ∈ c.queued ↔ ∃ k, p ∈ lists k
  add_ends : ∀ p, ∃ s', schedulerAdd c.scheduler p = .ok s'
  remove_ends : ∀ p, ∃ s', schedulerRemove c.scheduler p = .ok s'

/-- `scheduler_remove`, by itself or from `scheduler_block`, takes no head out of a longer queue. -/
def SparesHeads (c : SchedulerClient P) : SchedulerOp P → Prop
  | .remove p => HeadAlone c.scheduler p
  | .block p => HeadAlone c.scheduler p
  | _ => True

omit [Fintype P] [DecidableEq P] in
/-- No process is queued while it is blocked. -/
def SchedulerClient.QueuedAwake (c : SchedulerClient P) : Prop :=
  ∀ p ∈ c.queued, (c.scheduler.procs p).state ≠ .blocked

theorem queuesIntact_of_lists {c : SchedulerClient P} (lists : Fin NUM_PRIO → List P)
    (h : ∀ k, IsQueue c.scheduler k (lists k)) (hmem : ∀ p, p ∈ c.queued ↔ ∃ k, p ∈ lists k) :
    QueuesIntact c := by
  refine ⟨⟨lists, h, fun j k p hj hk => ?_, hmem⟩, schedulerAdd_returns h, fun p => ?_⟩
  · exact ((h j).prio_eq p hj).symm.trans ((h k).prio_eq p hk)
  · exact ⟨_, schedulerRemove_eq h p⟩

/-! ### What one operation does to the queues -/

theorem QueuesIntact.add {s s' : Scheduler P} {queued : Finset P} {p : P}
    (h : QueuesIntact ⟨s, queued⟩) (hp : p ∉ queued) (hok : schedulerAdd s p = .ok s') :
    QueuesIntact ⟨s', insert p queued⟩ := by
  obtain ⟨lists, hlists, _, hmem⟩ := h.lists
  have hnot : ∀ k, p ∉ lists k := fun k hk => hp ((hmem p).mpr ⟨k, hk⟩)
  refine queuesIntact_of_lists _ (schedulerAdd_queues hlists hnot hok) fun q => ?_
  show q ∈ insert p queued ↔ _
  rw [Finset.mem_insert, hmem q]
  constructor
  · rintro (rfl | ⟨k, hk⟩)
    · exact ⟨(s.procs q).prio, by rw [Function.update_self]; simp⟩
    · refine ⟨k, ?_⟩
      by_cases hlevel : k = (s.procs p).prio
      · subst hlevel
        rw [Function.update_self]
        exact List.mem_append_left _ hk
      · rwa [Function.update_of_ne hlevel]
  · rintro ⟨k, hk⟩
    by_cases hlevel : k = (s.procs p).prio
    · subst hlevel
      rw [Function.update_self] at hk
      rcases List.mem_append.mp hk with hk | hk
      · exact .inr ⟨_, hk⟩
      · exact .inl (List.mem_singleton.mp hk)
    · rw [Function.update_of_ne hlevel] at hk
      exact .inr ⟨k, hk⟩

/-- **Removal keeps the queues intact exactly if it spares the head** of a queue with other processes. -/
theorem QueuesIntact.remove_iff {s s' : Scheduler P} {queued : Finset P} {p : P}
    (h : QueuesIntact ⟨s, queued⟩) (hok : schedulerRemove s p = .ok s') :
    QueuesIntact ⟨s', queued.erase p⟩ ↔ HeadAlone s p := by
  obtain ⟨lists, hlists, _, hmem⟩ := h.lists
  constructor
  · intro hintact
    by_contra halone
    obtain ⟨lists', hlists', _, _⟩ := hintact.lists
    exact schedulerRemove_breaks hlists halone hok _ (hlists' _)
  · intro halone
    refine queuesIntact_of_lists _ (schedulerRemove_keeps hlists halone hok) fun q => ?_
    show q ∈ queued.erase p ↔ _
    rw [Finset.mem_erase, hmem q]
    constructor
    · rintro ⟨hne, k, hk⟩
      exact ⟨k, (List.mem_erase_of_ne hne).mpr hk⟩
    · rintro ⟨k, hk⟩
      obtain ⟨hne, hk⟩ := (hlists k).circular.nodup.mem_erase_iff.mp hk
      exact ⟨hne, k, hk⟩

theorem QueuesIntact.reschedules {s s' : Scheduler P} {queued : Finset P}
    (h : QueuesIntact ⟨s, queued⟩) (hr : Reschedules s s') : QueuesIntact ⟨s', queued⟩ := by
  obtain ⟨lists, hlists, _, hmem⟩ := h.lists
  choose lists' hlists' hmem' using fun k => (hlists k).reschedules hr
  refine queuesIntact_of_lists lists' hlists' fun q => (hmem q).trans ?_
  exact exists_congr fun k => (hmem' k q).symm

theorem QueuesIntact.setState {s : Scheduler P} {queued : Finset P} (h : QueuesIntact ⟨s, queued⟩)
    (p : P) (state : ProcessState) : QueuesIntact ⟨s.setState p state, queued⟩ := by
  obtain ⟨lists, hlists, _, hmem⟩ := h.lists
  exact queuesIntact_of_lists lists (fun k => (hlists k).setState p state) hmem

/-- `scheduler_add` of a process leaves only queued processes that are not blocked. -/
theorem queuedAwake_add {s s' : Scheduler P} {queued : Finset P} {p : P}
    (h : SchedulerClient.QueuedAwake ⟨s, queued⟩) (hok : schedulerAdd s p = .ok s') :
    SchedulerClient.QueuedAwake ⟨s', insert p queued⟩ := by
  intro q hq
  show (s'.procs q).state ≠ .blocked
  rw [schedulerAdd_ok hok, setState_procs]
  dsimp only
  split_ifs with hqp
  · exact ProcessState.noConfusion
  · exact h q ((Finset.mem_insert.mp hq).resolve_left hqp)

omit [Fintype P] [DecidableEq P] in
theorem queuedAwake_reschedules {s s' : Scheduler P} {queued : Finset P}
    (h : SchedulerClient.QueuedAwake ⟨s, queued⟩) (hr : Reschedules s s') :
    SchedulerClient.QueuedAwake ⟨s', queued⟩ := by
  intro q hq
  rcases hr.state_eq q with heq | ⟨_, hready | hrunning⟩
  · exact heq ▸ h q hq
  · exact fun hblocked => ProcessState.noConfusion (hready.symm.trans hblocked)
  · exact fun hblocked => ProcessState.noConfusion (hrunning.symm.trans hblocked)

theorem step_queuedAwake {c c' : SchedulerClient P} {op : SchedulerOp P} (h : c.QueuedAwake)
    (hstep : c.step op = some c') : c'.QueuedAwake := by
  cases op with
  | add p =>
      unfold SchedulerClient.step at hstep
      dsimp only at hstep
      split_ifs at hstep
      obtain ⟨s', hok, rfl⟩ := toOption_map_eq_some hstep
      exact queuedAwake_add h hok
  | remove p =>
      obtain ⟨s', hok, rfl⟩ := toOption_map_eq_some hstep
      intro q hq
      show (s'.procs q).state ≠ .blocked
      rw [schedulerRemove_ok hok]
      exact h q (Finset.mem_of_mem_erase hq)
  | block p =>
      obtain ⟨s', hok, rfl⟩ := toOption_map_eq_some hstep
      intro q hq
      obtain ⟨hne, hq⟩ := Finset.mem_erase.mp hq
      show (s'.procs q).state ≠ .blocked
      rw [schedulerRemove_ok hok, setState_procs_of_ne _ hne]
      exact h q hq
  | unblock p =>
      unfold SchedulerClient.step at hstep
      dsimp only at hstep
      split_ifs at hstep
      obtain ⟨s', hok, rfl⟩ := toOption_map_eq_some hstep
      refine queuedAwake_add (fun q hq => ?_) hok
      show ((c.scheduler.setState p .ready).procs q).state ≠ .blocked
      rw [setState_procs]
      dsimp only
      split_ifs
      · exact ProcessState.noConfusion
      · exact h q hq
  | start =>
      obtain ⟨s', hok, rfl⟩ := toOption_map_eq_some hstep
      exact queuedAwake_reschedules h (schedulerStart_reschedules hok)
  | tick =>
      obtain ⟨r, hok, rfl⟩ := toOption_map_eq_some hstep
      exact queuedAwake_reschedules h (schedulerTick_reschedules hok)

/-- **One operation keeps the queues intact exactly if it spares the heads.** -/
theorem step_intact_iff {c c' : SchedulerClient P} {op : SchedulerOp P} (hawake : c.QueuedAwake)
    (h : QueuesIntact c) (hstep : c.step op = some c') : QueuesIntact c' ↔ SparesHeads c op := by
  cases op with
  | add p =>
      unfold SchedulerClient.step at hstep
      dsimp only at hstep
      split_ifs at hstep with hp
      obtain ⟨s', hok, rfl⟩ := toOption_map_eq_some hstep
      exact iff_of_true (h.add hp hok) trivial
  | remove p =>
      obtain ⟨s', hok, rfl⟩ := toOption_map_eq_some hstep
      exact h.remove_iff hok
  | block p =>
      obtain ⟨s', hok, rfl⟩ := toOption_map_eq_some hstep
      refine ((h.setState p .blocked).remove_iff hok).trans ?_
      unfold HeadAlone
      rw [setState_prio]
      exact Iff.rfl
  | unblock p =>
      unfold SchedulerClient.step at hstep
      dsimp only at hstep
      split_ifs at hstep with hblocked
      obtain ⟨s', hok, rfl⟩ := toOption_map_eq_some hstep
      exact iff_of_true ((h.setState p .ready).add (fun hp => hawake p hp hblocked) hok) trivial
  | start =>
      obtain ⟨s', hok, rfl⟩ := toOption_map_eq_some hstep
      exact iff_of_true (h.reschedules (schedulerStart_reschedules hok)) trivial
  | tick =>
      obtain ⟨r, hok, rfl⟩ := toOption_map_eq_some hstep
      exact iff_of_true (h.reschedules (schedulerTick_reschedules hok)) trivial

theorem queuesIntact_init (s : Scheduler P) : QueuesIntact ⟨schedulerInit s, ∅⟩ := by
  refine queuesIntact_of_lists (fun _ => []) (fun k => ?_) fun p => by simp
  exact ⟨circular_nil, fun p hp => absurd hp List.not_mem_nil⟩

/-- **The run queues stay intact throughout a run from `scheduler_init` exactly if no step takes out the
head of a queue with other processes.** -/
theorem runQueues_intact_iff (s : Scheduler P) (ops : List (SchedulerOp P)) :
    Runs.Throughout SchedulerClient.step (fun _ c => QueuesIntact c) [] ⟨schedulerInit s, ∅⟩ ops ↔
      Runs.EachStep SchedulerClient.step SparesHeads ⟨schedulerInit s, ∅⟩ ops :=
  Runs.throughout_iff (fun _ c => c.QueuedAwake)
    (fun _ _ _ _ hawake _ hstep => step_queuedAwake hawake hstep)
    (fun _ _ _ _ hawake hintact _ hstep => step_intact_iff hawake hintact hstep)
    (fun p hp => absurd hp (Finset.notMem_empty p)) (queuesIntact_init s)
    (fun _ _ => trivial : ∀ _ ∈ ops, True)

/-- Two processes of level 8 are added and the first one, which is the head, is removed.  Then the traversal
for a third one comes to a null link. -/
theorem runQueues_not_intact : ∃ c : SchedulerClient (Fin 3),
    Runs.haltingRun SchedulerClient.step
      ⟨schedulerInit (bootScheduler (fun _ => { priority := 8 }) ⟨Pmm.statics, fun _ => 0, 0, 0⟩), ∅⟩
      [.add 0, .add 1, .remove 0] = some c ∧
    schedulerAdd c.scheduler 2 = .error .nullDeref ∧ ¬ QueuesIntact c := by
  refine ⟨_, rfl, ?_⟩
  refine ⟨rfl, fun h => ?_⟩
  obtain ⟨s', hs'⟩ := h.add_ends 2
  cases hs'

end LunaOs
