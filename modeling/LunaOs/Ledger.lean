import LunaOs.Hash
import LunaOs.LedgerQueue
import LunaOs.Lib.Endian
import Mathlib.Data.List.GetD

/-! # The DAG-ledger of `kernel/ledger.c`

`ledger_enqueue` turns a call into an event and pushes it; `ledger_flush_task` drains the queue and
finalises one block for each event; `ledger_verify_chain` re-hashes every block after genesis and
looks up its first parent.

The hash function is a parameter `sha256`: what is proved of the ledger holds for every function
from byte strings to digests.  `sha256Bytes` is the one the kernel calls.

`ledger_blocks` is modelled as a function on positions, so that it also has blocks behind its end;
`ledger_count` and the stream heads stay below `LEDGER_MAX_BLOCKS` in every run.
On x86 `LedgerBlock` has no padding, and its bytes before `block_hash` are `LedgerBlock.bytes`. -/

namespace LunaOs

open Endian

abbrev LEDGER_MAX_BLOCKS : ℕ := 4096

def LEDGER_ACTION_GENESIS : UInt8 := 0
def LEDGER_ACTION_VFS_READ : UInt8 := 2
def LEDGER_ACTION_VFS_WRITE : UInt8 := 3

def LEDGER_STREAM_KERNEL : UInt8 := 0

/-- `sha256` of `hash.c` on a byte string of known length, for some content of its stack. -/
def sha256Bytes (stk : Hash.Sha256Stack) (bytes : List UInt8) : Digest :=
  Hash.sha256 stk (listPtr bytes) (UInt32.ofNat bytes.length)

/-- A stack that holds zeros. -/
def zeroStack : Hash.Sha256Stack := ⟨Vector.replicate 64 0, Vector.replicate 64 0⟩

/-- A byte function that is easy to follow: the first 31 bytes and a mark. -/
def prefixDigest (bytes : List UInt8) : Digest :=
  Vector.ofFn fun i => if i.val < 31 then bytes.getD i 0 else 1

/-! ### Blocks -/

/-- `LedgerBlock` -/
structure LedgerBlock where
  index : UInt32
  timestamp : UInt64
  actionType : UInt8
  streamId : UInt8
  parentCount : UInt8
  reserved : UInt8
  target : Vector UInt8 LEDGER_TARGET_LEN
  prevHash : Vector Digest 2
  blockHash : Digest
deriving DecidableEq

namespace LedgerBlock

/-- The block after `luna_memset(b, 0, sizeof(LedgerBlock))`. -/
def zero : LedgerBlock where
  index := 0
  timestamp := 0
  actionType := 0
  streamId := 0
  parentCount := 0
  reserved := 0
  target := Vector.replicate LEDGER_TARGET_LEN 0
  prevHash := Vector.replicate 2 (Vector.replicate 32 0)
  blockHash := Vector.replicate 32 0

/-- `prev_hash[0]`, and `prev_hash[1]` below. -/
def prevHash0 (b : LedgerBlock) : Digest := b.prevHash[0]

def prevHash1 (b : LedgerBlock) : Digest := b.prevHash[1]

/-- The bytes the fields before `target` occupy. -/
def header (b : LedgerBlock) : List UInt8 :=
  leBytes 4 b.index.toNat ++ leBytes 8 b.timestamp.toNat ++
    [b.actionType, b.streamId, b.parentCount, b.reserved]

/-- The `sizeof(LedgerBlock) - 32` bytes before `block_hash`. -/
def bytes (b : LedgerBlock) : List UInt8 :=
  b.header ++ (b.target.toList ++ (b.prevHash0.toList ++ b.prevHash1.toList))

/-- The two blocks agree in every field that is hashed. -/
structure SameBody (b b' : LedgerBlock) : Prop where
  index : b.index = b'.index
  timestamp : b.timestamp = b'.timestamp
  actionType : b.actionType = b'.actionType
  streamId : b.streamId = b'.streamId
  parentCount : b.parentCount = b'.parentCount
  reserved : b.reserved = b'.reserved
  target : b.target = b'.target
  prevHash : b.prevHash = b'.prevHash

@[simp] theorem header_length (b : LedgerBlock) : b.header.length = 16 := by simp [header]

theorem index_of_header {b b' : LedgerBlock} (h : b.header = b'.header) : b.index = b'.index := by
  unfold header at h
  rw [List.append_assoc, List.append_assoc] at h
  have h4 := (List.append_inj h (by simp)).1
  exact UInt32.toNat_inj.mp (leBytes_inj b.index.toNat_lt b'.index.toNat_lt h4)

/-- **The hashed bytes determine the hashed fields.** -/
theorem sameBody_of_bytes {b b' : LedgerBlock} (h : b.bytes = b'.bytes) : b.SameBody b' := by
  obtain ⟨hheader, hrest⟩ := List.append_inj h (by simp)
  obtain ⟨htarget, hprev⟩ := List.append_inj hrest (by simp)
  obtain ⟨h0, h1⟩ := List.append_inj hprev (by simp)
  have hindex := index_of_header hheader
  unfold header at hheader
  obtain ⟨hnum, htail⟩ := List.append_inj hheader (by simp)
  have h8 := (List.append_inj hnum (by simp)).2
  have htime : b.timestamp = b'.timestamp :=
    UInt64.toNat_inj.mp (leBytes_inj b.timestamp.toNat_lt b'.timestamp.toNat_lt h8)
  simp only [List.cons.injEq, and_true] at htail
  obtain ⟨haction, hstream, hcount, hreserved⟩ := htail
  refine ⟨hindex, htime, haction, hstream, hcount, hreserved, Vector.toList_inj.mp htarget, ?_⟩
  apply Vector.ext
  intro i hi
  match i, hi with
  | 0, _ => exact Vector.toList_inj.mp h0
  | 1, _ => exact Vector.toList_inj.mp h1

end LedgerBlock

/-- The stream a stream id belongs to, `stream_id & 1`. -/
def lowBit (streamId : UInt8) : Fin 2 :=
  ⟨(streamId &&& 1).toNat, by
    rw [UInt8.toNat_and]
    exact Nat.lt_succ_of_le Nat.and_le_right⟩

/-- The stream that `s` is merged with, `sid ^ 1`. -/
def otherStream (s : Fin 2) : Fin 2 := s ^^^ 1

/-! ### The ledger -/

/-- The statics of `ledger.c`. -/
structure Ledger where
  ledgerBlocks : ℕ → LedgerBlock
  ledgerCount : ℕ
  ledgerHeadIdx : ℕ
  streamHead : Fin 2 → ℕ

/-- The zeroed static storage. -/
def Ledger.zero : Ledger := ⟨fun _ => LedgerBlock.zero, 0, 0, fun _ => 0⟩

/-- `"LUNA_OS_GENESIS"`. -/
def genesisName : CString :=
  ⟨[76, 85, 78, 65, 95, 79, 83, 95, 71, 69, 78, 69, 83, 73, 83], by simp⟩

section
variable (sha256 : List UInt8 → Digest)

/-- The first block, with its hash. -/
def genesisBlock : LedgerBlock :=
  let b := LedgerBlock.zero
  let b := { b with
    index := 0
    timestamp := 0
    actionType := LEDGER_ACTION_GENESIS
    streamId := 0
    parentCount := 0 }
  let b := { b with target := lunaStrncpy b.target genesisName.ptr (LEDGER_TARGET_LEN - 1) }
  { b with blockHash := sha256 b.bytes }

/-- `ledger_genesis`: one block, which is the head of every stream. -/
def ledgerGenesis (l : Ledger) : Ledger where
  ledgerBlocks := Function.update l.ledgerBlocks 0 (genesisBlock sha256)
  ledgerCount := 1
  ledgerHeadIdx := 0
  streamHead := fun _ => 0

/-- `if (ledger_count >= LEDGER_MAX_BLOCKS) ledger_count = 1;` -/
def recycle (l : Ledger) : Ledger :=
  if l.ledgerCount ≥ LEDGER_MAX_BLOCKS then { l with ledgerCount := 1 } else l

/-- The block the loop body writes at `ledger_count`.  The pointer `b` of the source points into
`ledger_blocks`, so a parent hash may be read from the block being built itself. -/
def buildBlock (l : Ledger) (ev : LedgerEvent) : LedgerBlock :=
  let sid := lowBit ev.streamId
  let b := { LedgerBlock.zero with
    index := UInt32.ofNat l.ledgerCount
    timestamp := ev.timestamp
    actionType := ev.actionType
    streamId := ev.streamId }
  let b := { b with target := lunaStrncpy b.target (arrayPtr ev.target) (LEDGER_TARGET_LEN - 1) }
  let ledgerBlocks := Function.update l.ledgerBlocks l.ledgerCount b
  let b := { b with
    parentCount := 1
    prevHash := b.prevHash.set 0 (ledgerBlocks (l.streamHead sid)).blockHash }
  let b :=
    if l.streamHead 0 ≠ l.streamHead 1 then
      let other := otherStream sid
      { b with
        parentCount := 2
        prevHash := b.prevHash.set 1 (ledgerBlocks (l.streamHead other)).blockHash }
    else b
  { b with blockHash := sha256 b.bytes }

/-- The body of the loop of `ledger_flush_task`. -/
def finalizeEvent (l : Ledger) (ev : LedgerEvent) : Ledger :=
  let l := recycle l
  { ledgerBlocks := Function.update l.ledgerBlocks l.ledgerCount (buildBlock sha256 l ev)
    ledgerCount := l.ledgerCount + 1
    ledgerHeadIdx := l.ledgerCount
    streamHead := Function.update l.streamHead (lowBit ev.streamId) l.ledgerCount }

/-- `for (j = j; j < i; j++)` with `r = i - j` turns left: is `prev` the hash of a block? -/
def findParent (ledgerBlocks : ℕ → LedgerBlock) (prev : Digest) : ℕ → ℕ → Bool
  | 0, _ => false
  | r + 1, j =>
      if lunaMemcmp (arrayPtr (ledgerBlocks j).blockHash) (arrayPtr prev) 32 = 0 then true
      else findParent ledgerBlocks prev r (j + 1)

/-- The loop of `ledger_verify_chain` at position `i` with `r` turns left. -/
def verifyLoop (ledgerBlocks : ℕ → LedgerBlock) : ℕ → ℕ → Bool
  | 0, _ => true
  | r + 1, i =>
      let b := ledgerBlocks i
      let recomputed := sha256 b.bytes
      if lunaMemcmp (arrayPtr recomputed) (arrayPtr b.blockHash) 32 ≠ 0 then false
      else if b.parentCount > 0 ∧ findParent ledgerBlocks b.prevHash0 i 0 = false then false
      else verifyLoop ledgerBlocks r (i + 1)

/-- `ledger_verify_chain`, from the block after genesis up. -/
def ledgerVerifyChain (l : Ledger) : Bool := verifyLoop sha256 l.ledgerBlocks (l.ledgerCount - 1) 1

end

/-! ### The functions that share the queue and the ledger -/

/-- The static state of `ledger_queue.c` and `ledger.c`. -/
structure LedgerState where
  lq : LedgerQueue
  ledger : Ledger

/-- The event of `ledger_enqueue`; `stack` is what its uninitialised `ev.target` held before. -/
def enqueueEvent (action streamId : UInt8) (target : CString) (timestamp : UInt64)
    (stack : Vector UInt8 LEDGER_TARGET_LEN) : LedgerEvent where
  actionType := action
  streamId := streamId
  timestamp := timestamp
  vfsNodeId := (fnv1aStr target &&& 0xFFFFFFFF).toUInt32
  partialHash := fnv1aStr target
  target := (lunaStrncpy stack target.ptr (LEDGER_TARGET_LEN - 1)).set (LEDGER_TARGET_LEN - 1) 0

/-- `ledger_enqueue`: the event is dropped if the queue is full. -/
def ledgerEnqueue (s : LedgerState) (action streamId : UInt8) (target : CString)
    (timestamp : UInt64) (stack : Vector UInt8 LEDGER_TARGET_LEN) : LedgerState :=
  { s with lq := (ledgerQueuePush s.lq (enqueueEvent action streamId target timestamp stack)).1 }

section
variable (sha256 : List UInt8 → Digest)

def ledgerInit (s : LedgerState) : LedgerState := ⟨ledgerQueueInit, ledgerGenesis sha256 s.ledger⟩

/-- The loop of `ledger_flush_task`, for at most `fuel` turns. -/
def flushLoop : ℕ → LedgerState → LedgerState
  | 0, s => s
  | fuel + 1, s =>
      match ledgerQueuePop s.lq with
      | none => s
      | some (ev, lq) => flushLoop fuel ⟨lq, finalizeEvent sha256 s.ledger ev⟩

/-- The queue holds fewer than `LEDGER_QUEUE_SIZE` events, so that many turns empty it. -/
def ledgerFlushTask (s : LedgerState) : LedgerState := flushLoop sha256 LEDGER_QUEUE_SIZE s

/-- With a turn for each pending event the loop finalises all of them and stops at the empty
queue. -/
theorem flushLoop_spec {fuel : ℕ} (s : LedgerState) (h : s.lq.pending.length ≤ fuel) :
    (flushLoop sha256 fuel s).lq.pending = [] ∧
    (flushLoop sha256 fuel s).ledger = s.lq.pending.foldl (finalizeEvent sha256) s.ledger := by
  induction fuel generalizing s with
  | zero =>
      have hnil := List.length_eq_zero_iff.mp (Nat.le_zero.mp h)
      exact ⟨hnil, by rw [hnil]; rfl⟩
  | succ fuel ih =>
      unfold flushLoop
      rcases ledgerQueuePop_spec s.lq with ⟨hnil, hpop⟩ | ⟨ev, lq, hpop, hcons⟩
      · rw [hpop]
        exact ⟨hnil, by rw [hnil]; rfl⟩
      · rw [hcons, List.length_cons] at h
        rw [hpop, hcons]
        exact ih ⟨lq, finalizeEvent sha256 s.ledger ev⟩ (Nat.le_of_succ_le_succ h)

/-- **`ledger_flush_task`** finalises the pending events in order and empties the queue. -/
theorem ledgerFlushTask_spec (s : LedgerState) :
    (ledgerFlushTask sha256 s).lq.pending = [] ∧
    (ledgerFlushTask sha256 s).ledger =
      s.lq.pending.foldl (finalizeEvent sha256) s.ledger := by
  have := s.lq.pending_length_le
  exact flushLoop_spec sha256 s (this.trans (by decide))

end

end LunaOs
