import LunaOs.LedgerContents

/-! # The traced file accesses of `kernel/vfs.c`

`vfs_read` and `vfs_write` run the handler of the node and then push an event with the action and
the node's name.  A handler is an arbitrary function on the `W`orld, which stands for all memory
but the static variables of the ledger and its queue; `deref` says what node a pointer (`P`) points
to in a world.  The name and the inode are read after the handler has run.

A push on a full queue is dropped: then the handler has run and no event tells of it.
Of all the other calls the trail tells, in order, as long as the store of blocks is not full (`vfs_traced`). -/

namespace LunaOs

open Runs

abbrev VFS_NAME_LEN : ℕ := 64

/-- The fields of `VFS_Node` that reading and writing use. -/
structure VfsNode (W P B : Type) where
  name : Vector UInt8 VFS_NAME_LEN
  inode : UInt32
  read : Option (P → UInt32 → UInt32 → B → W → UInt32 × W)
  write : Option (P → UInt32 → UInt32 → B → W → UInt32 × W)

/-- The world and the ledger with its queue. -/
structure VfsState (W : Type) where
  world : W
  log : LedgerState

/-- The event of `vfs_read` and `vfs_write`. -/
def vfsEvent (action : UInt8) (name : Vector UInt8 VFS_NAME_LEN) (inode : UInt32) : LedgerEvent :=
  let ev := { LedgerEvent.zero with
    actionType := action
    streamId := LEDGER_STREAM_KERNEL
    vfsNodeId := inode }
  { ev with target := lunaStrncpy ev.target (arrayPtr name) (LEDGER_TARGET_LEN - 1) }

inductive VfsCall (P B : Type) where
  | read (node : Option P) (offset size : UInt32) (buffer : B)
  | write (node : Option P) (offset size : UInt32) (buffer : B)
  | flush

/-- A call that ran its handler. -/
structure Performed where
  action : UInt8
  name : Vector UInt8 VFS_NAME_LEN
  inode : UInt32
  accepted : Bool

/-- The event that a call pushes. -/
def Performed.event (p : Performed) : LedgerEvent := vfsEvent p.action p.name p.inode

/-- What the ledger is to say about the call. -/
def Performed.record (p : Performed) : Record :=
  ⟨p.action, LEDGER_STREAM_KERNEL, 0, targetOf (arrayPtr p.name)⟩

/-- What the blocks after genesis and then the pending events say. -/
def LedgerState.trail (s : LedgerState) : List Record :=
  s.ledger.records ++ s.lq.pending.map LedgerEvent.record

section
variable {W P B : Type} (deref : W → P → VfsNode W P B)

/-- What `vfs_read` and `vfs_write` have in common.  The null pointer is `none`. -/
def vfsAccess (action : UInt8)
    (handler : VfsNode W P B → Option (P → UInt32 → UInt32 → B → W → UInt32 × W))
    (s : VfsState W) (node : Option P) (offset size : UInt32) (buffer : B) :
    UInt32 × VfsState W :=
  match node with
  | none => (0, s)
  | some node =>
      match handler (deref s.world node) with
      | none => (0, s)
      | some run =>
          let (ret, world) := run node offset size buffer s.world
          let ev := vfsEvent action (deref world node).name (deref world node).inode
          (ret, ⟨world, { s.log with lq := (ledgerQueuePush s.log.lq ev).1 }⟩)

/-- `vfs_read`: nothing happens without a node and its handler. -/
def vfsRead (s : VfsState W) (node : Option P) (offset size : UInt32) (buffer : B) :
    UInt32 × VfsState W :=
  vfsAccess deref LEDGER_ACTION_VFS_READ VfsNode.read s node offset size buffer

def vfsWrite (s : VfsState W) (node : Option P) (offset size : UInt32) (buffer : B) :
    UInt32 × VfsState W :=
  vfsAccess deref LEDGER_ACTION_VFS_WRITE VfsNode.write s node offset size buffer

/-- The call that `vfsAccess` performs, if it runs a handler. -/
def performedAccess (action : UInt8)
    (handler : VfsNode W P B → Option (P → UInt32 → UInt32 → B → W → UInt32 × W))
    (s : VfsState W) (node : Option P) (offset size : UInt32) (buffer : B) : List Performed :=
  match node with
  | none => []
  | some node =>
      match handler (deref s.world node) with
      | none => []
      | some run =>
          let world := (run node offset size buffer s.world).2
          let ev := vfsEvent action (deref world node).name (deref world node).inode
          [⟨action, (deref world node).name, (deref world node).inode,
            (ledgerQueuePush s.log.lq ev).2⟩]

def performedBy (s : VfsState W) : VfsCall P B → List Performed
  | .read node offset size buffer =>
      performedAccess deref LEDGER_ACTION_VFS_READ VfsNode.read s node offset size buffer
  | .write node offset size buffer =>
      performedAccess deref LEDGER_ACTION_VFS_WRITE VfsNode.write s node offset size buffer
  | .flush => []

/-- The operations on the queue and the ledger that a call makes. -/
def vfsOps (s : VfsState W) : VfsCall P B → List LedgerOp
  | .flush => [.flush]
  | c => (performedBy deref s c).map fun p => .push p.event

variable (sha256 : List UInt8 → Digest)

def vfsStep (s : VfsState W) : VfsCall P B → VfsState W
  | .read node offset size buffer => (vfsRead deref s node offset size buffer).2
  | .write node offset size buffer => (vfsWrite deref s node offset size buffer).2
  | .flush => { s with log := ledgerFlushTask sha256 s.log }

variable (world : W) (prior : LedgerState) (calls : List (VfsCall P B))

/-- The state after `ledger_init`, in whatever state it is called, and then `calls`. -/
def afterVfs : VfsState W :=
  run (vfsStep deref sha256) ⟨world, ledgerInit sha256 prior⟩ calls

/-- The calls that ran their handlers, in order. -/
def performed : List Performed :=
  outputs (vfsStep deref sha256) (performedBy deref) ⟨world, ledgerInit sha256 prior⟩ calls

/-- Those of them whose event was accepted. -/
def tracedCalls : List Performed :=
  (performed deref sha256 world prior calls).filter Performed.accepted

end

/-! ### What a call leaves behind -/

theorem Performed.event_record (p : Performed) : p.event.record = p.record := rfl

theorem vfsEvent_terminated (action : UInt8) (name : Vector UInt8 VFS_NAME_LEN) (inode : UInt32) :
    (vfsEvent action name inode).Terminated := targetOf_targetOf _

section
variable {W P B : Type} (deref : W → P → VfsNode W P B) (sha256 : List UInt8 → Digest)

section
variable (action : UInt8)
  (handler : VfsNode W P B → Option (P → UInt32 → UInt32 → B → W → UInt32 × W))
  (s : VfsState W) (node : Option P) (offset size : UInt32) (buffer : B)

/-- Either no handler runs and nothing changes, or one call is performed and its event pushed. -/
theorem vfsAccess_cases :
    (performedAccess deref action handler s node offset size buffer = [] ∧
      (vfsAccess deref action handler s node offset size buffer).2 = s) ∨
    ∃ p : Performed, performedAccess deref action handler s node offset size buffer = [p] ∧
      p.accepted = (ledgerQueuePush s.log.lq p.event).2 ∧
      (vfsAccess deref action handler s node offset size buffer).2.log =
        { s.log with lq := (ledgerQueuePush s.log.lq p.event).1 } := by
  unfold vfsAccess performedAccess
  cases node with
  | none => exact .inl ⟨rfl, rfl⟩
  | some node =>
      dsimp only
      cases handler (deref s.world node) with
      | none => exact .inl ⟨rfl, rfl⟩
      | some run => exact .inr ⟨_, rfl, rfl, rfl⟩

theorem vfsAccess_log : (vfsAccess deref action handler s node offset size buffer).2.log =
    run (LedgerState.step sha256) s.log
      ((performedAccess deref action handler s node offset size buffer).map
        fun p => .push p.event) := by
  rcases vfsAccess_cases deref action handler s node offset size buffer with
    ⟨hnone, hstate⟩ | ⟨p, hone, _, hlog⟩
  · rw [hnone, hstate]
    rfl
  · rw [hone, hlog]
    rfl

theorem performedAccess_accepted :
    ((performedAccess deref action handler s node offset size buffer).filter
        Performed.accepted).map Performed.event =
      outputs (LedgerState.step sha256) LedgerState.acceptedBy s.log
        ((performedAccess deref action handler s node offset size buffer).map
          fun p => .push p.event) := by
  rcases vfsAccess_cases deref action handler s node offset size buffer with
    ⟨hnone, _⟩ | ⟨p, hone, haccepted, _⟩
  · rw [hnone]
    rfl
  · rw [hone]
    cases hpush : (ledgerQueuePush s.log.lq p.event).2 <;>
      simp [LedgerState.acceptedBy, haccepted, hpush]

theorem performedAccess_accepted_iff {p : Performed}
    (hp : p ∈ performedAccess deref action handler s node offset size buffer) :
    p.accepted = true ↔ s.log.lq.pending.length < 1023 := by
  rcases vfsAccess_cases deref action handler s node offset size buffer with
    ⟨hnone, _⟩ | ⟨p', hone, haccepted, _⟩
  · rw [hnone] at hp
    exact absurd hp List.not_mem_nil
  · rw [hone, List.mem_singleton] at hp
    rw [hp, haccepted]
    exact ledgerQueuePush_snd _ _

end

theorem vfsStep_log (s : VfsState W) (c : VfsCall P B) :
    (vfsStep deref sha256 s c).log = run (LedgerState.step sha256) s.log (vfsOps deref s c) := by
  cases c with
  | read node offset size buffer => exact vfsAccess_log _ _ _ _ _ _ _ _ _
  | write node offset size buffer => exact vfsAccess_log _ _ _ _ _ _ _ _ _
  | flush => rfl

theorem performedBy_accepted (s : VfsState W) (c : VfsCall P B) :
    ((performedBy deref s c).filter Performed.accepted).map Performed.event =
      outputs (LedgerState.step sha256) LedgerState.acceptedBy s.log (vfsOps deref s c) := by
  cases c with
  | read node offset size buffer => exact performedAccess_accepted _ _ _ _ _ _ _ _ _
  | write node offset size buffer => exact performedAccess_accepted _ _ _ _ _ _ _ _ _
  | flush => rfl

theorem accepted_iff {s : VfsState W} {c : VfsCall P B} {p : Performed}
    (hp : p ∈ performedBy deref s c) : p.accepted = true ↔ s.log.lq.pending.length < 1023 := by
  cases c with
  | read node offset size buffer => exact performedAccess_accepted_iff _ _ _ _ _ _ _ _ hp
  | write node offset size buffer => exact performedAccess_accepted_iff _ _ _ _ _ _ _ _ hp
  | flush => exact absurd hp List.not_mem_nil

/-! ### Runs -/

section
variable (world : W) (prior : LedgerState) (calls : List (VfsCall P B))

/-- The operations that `calls` come down to. -/
def vfsCallOps : List LedgerOp :=
  outputs (vfsStep deref sha256) (vfsOps deref) ⟨world, ledgerInit sha256 prior⟩ calls

theorem afterVfs_log : (afterVfs deref sha256 world prior calls).log =
    LedgerState.after sha256 (ledgerInit sha256 prior)
      (vfsCallOps deref sha256 world prior calls) :=
  run_project (p := VfsState.log) (vfsStep_log deref sha256) _ _

theorem afterVfs_ledger : (afterVfs deref sha256 world prior calls).log.ledger =
    chain sha256 (ledgerGenesis sha256 prior.ledger)
      (LedgerState.flushed sha256 (ledgerInit sha256 prior)
        (vfsCallOps deref sha256 world prior calls)) := by
  rw [afterVfs_log]
  exact LedgerState.run_ledger _ _

theorem tracedCalls_event :
    (tracedCalls deref sha256 world prior calls).map Performed.event =
      LedgerState.flushed sha256 (ledgerInit sha256 prior)
        (vfsCallOps deref sha256 world prior calls) ++
      (afterVfs deref sha256 world prior calls).log.lq.pending := by
  have hrun : _ ++ LedgerState.accepted sha256 _ (vfsCallOps deref sha256 world prior calls) = _ :=
    LedgerState.run_conserves (ledgerInit sha256 prior) _
  rw [pending_ledgerInit, List.nil_append] at hrun
  unfold tracedCalls performed
  rw [outputs_filter, afterVfs_log, ← hrun]
  exact outputs_project (p := VfsState.log) (vfsStep_log deref sha256)
    (performedBy_accepted deref sha256) _ _

theorem records_afterVfs : (afterVfs deref sha256 world prior calls).log.ledger.records =
    ((LedgerState.flushed sha256 (ledgerInit sha256 prior)
      (vfsCallOps deref sha256 world prior calls)).drop
        (recycled (LedgerState.flushed sha256 (ledgerInit sha256 prior)
          (vfsCallOps deref sha256 world prior calls)).length)).map LedgerEvent.record := by
  rw [afterVfs_ledger]
  apply records_chain sha256 rfl
  intro ev hev
  have hmem : ev ∈ (tracedCalls deref sha256 world prior calls).map Performed.event := by
    rw [tracedCalls_event]
    exact List.mem_append_left _ hev
  obtain ⟨p, _, rfl⟩ := List.mem_map.mp hmem
  exact vfsEvent_terminated _ _ _

/-- The blocks after genesis and then the pending events are the accepted calls since the store was last
reset. -/
theorem trail_afterVfs : (afterVfs deref sha256 world prior calls).log.trail =
    ((tracedCalls deref sha256 world prior calls).map Performed.record).drop
      (recycled ((tracedCalls deref sha256 world prior calls).length -
        (afterVfs deref sha256 world prior calls).log.lq.pending.length)) := by
  have haccepted := tracedCalls_event deref sha256 world prior calls
  have hledger := records_afterVfs deref sha256 world prior calls
  set s := afterVfs deref sha256 world prior calls
  set accepted := tracedCalls deref sha256 world prior calls
  set flushed := LedgerState.flushed sha256 (ledgerInit sha256 prior)
    (vfsCallOps deref sha256 world prior calls)
  have hlength : accepted.length - s.log.lq.pending.length = flushed.length := by
    have h := congrArg List.length haccepted
    rw [List.length_map, List.length_append] at h
    exact Nat.sub_eq_of_eq_add h
  have hrecord : accepted.map Performed.record =
      (accepted.map Performed.event).map LedgerEvent.record := by
    rw [List.map_map]
    exact List.map_congr_left fun p _ => p.event_record.symm
  unfold LedgerState.trail
  rw [hrecord, haccepted, hlength, hledger, List.map_append,
    List.drop_append_of_le_length (by rw [List.length_map]; exact recycled_le _),
    ← List.map_drop]

/-- **Traced accesses**, as long as no more than 4095 events have been flushed: the blocks after genesis and
then the pending events are exactly the accepted calls, in order, with their action and the name of their
node.  One more call is accepted exactly when fewer than 1023 events are pending. -/
theorem vfs_traced (hfew : (tracedCalls deref sha256 world prior calls).length -
      (afterVfs deref sha256 world prior calls).log.lq.pending.length ≤ 4095) :
    (afterVfs deref sha256 world prior calls).log.trail =
      (tracedCalls deref sha256 world prior calls).map Performed.record ∧
    ∀ c, performed deref sha256 world prior (calls ++ [c]) =
        performed deref sha256 world prior calls ++
          performedBy deref (afterVfs deref sha256 world prior calls) c ∧
      ∀ p ∈ performedBy deref (afterVfs deref sha256 world prior calls) c,
        p.accepted = true ↔
          (afterVfs deref sha256 world prior calls).log.lq.pending.length < 1023 := by
  constructor
  · rw [trail_afterVfs, recycled_of_le hfew, List.drop_zero]
  · intro c
    refine ⟨?_, fun p hp => accepted_iff deref hp⟩
    unfold performed
    rw [outputs_append]
    exact congrArg (_ ++ ·) (List.append_nil _)

end

end

/-! ### Accesses of which the ledger does not tell -/

/-- A file `a` whose write handler does nothing but return the size. -/
def sampleNode : VfsNode Unit Unit Unit where
  name := (Vector.replicate VFS_NAME_LEN 0).set 0 97
  inode := 1
  read := none
  write := some fun _ _ size _ world => (size, world)

def sampleWrite : VfsCall Unit Unit := .write (some ()) 0 1 ()

/-- Writes that never let the queue be flushed. -/
def writesRun (n : ℕ) : List (VfsCall Unit Unit) := List.replicate n sampleWrite

section
variable (sha256 : List UInt8 → Digest)

/-- The state after `calls` on the one file. -/
def afterWrites (calls : List (VfsCall Unit Unit)) : VfsState Unit :=
  afterVfs (fun _ _ => sampleNode) sha256 () LedgerState.zero calls

def performedWrites (calls : List (VfsCall Unit Unit)) : List Performed :=
  performed (fun _ _ => sampleNode) sha256 () LedgerState.zero calls

theorem writesRun_length (n : ℕ) : (performedWrites sha256 (writesRun n)).length = n ∧
    (afterWrites sha256 (writesRun n)).log.trail.length ≤ 1023 := by
  have hrun : ∀ s : VfsState Unit,
      (outputs (vfsStep (fun _ _ => sampleNode) sha256) (performedBy fun _ _ => sampleNode) s
        (writesRun n)).length = n ∧
      (run (vfsStep (fun _ _ => sampleNode) sha256) s (writesRun n)).log.ledger = s.log.ledger := by
    induction n with
    | zero => exact fun s => ⟨rfl, rfl⟩
    | succ n ih =>
        intro s
        obtain ⟨hlength, hledger⟩ := ih (vfsStep (fun _ _ => sampleNode) sha256 s sampleWrite)
        exact ⟨congrArg (· + 1) hlength, hledger⟩
  obtain ⟨hlength, hledger⟩ := hrun ⟨(), ledgerInit sha256 LedgerState.zero⟩
  refine ⟨hlength, ?_⟩
  have hrecords : (afterWrites sha256 (writesRun n)).log.ledger.records = [] :=
    congrArg Ledger.records hledger
  unfold LedgerState.trail
  rw [hrecords, List.nil_append, List.length_map]
  exact LedgerQueue.pending_length_le _

end

/-- One write that has reached the ledger, and one that waits. -/
theorem vfs_traced_written :
    (afterWrites prefixDigest [sampleWrite, .flush, sampleWrite]).log.trail =
      [(vfsEvent LEDGER_ACTION_VFS_WRITE sampleNode.name 1).record,
        (vfsEvent LEDGER_ACTION_VFS_WRITE sampleNode.name 1).record] := by
  obtain ⟨htrail, _⟩ := vfs_traced (fun _ _ => sampleNode) prefixDigest () LedgerState.zero
    [sampleWrite, .flush, sampleWrite] (by decide +kernel)
  unfold afterWrites
  rw [htrail]
  rfl

/-- 1024 writes without a flush leave at most 1023 events. -/
theorem writes_untraced :
    (afterWrites (sha256Bytes zeroStack) (writesRun 1024)).log.trail ≠
      (performedWrites (sha256Bytes zeroStack) (writesRun 1024)).map Performed.record := by
  obtain ⟨hperformed, htrail⟩ := writesRun_length (sha256Bytes zeroStack) 1024
  intro heq
  rw [heq, List.length_map, hperformed] at htrail
  exact absurd htrail (by decide)

end LunaOs
