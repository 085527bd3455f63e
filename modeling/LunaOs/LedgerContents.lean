import LunaOs.LedgerRun

/-! # What the blocks of a ledger contain

First what one turn of the flush loop writes, then what holds of the ledger after any number of
turns: `WellFormed` for the indices and hashes, `records_chain` for the contents.  When the store
is full the loop starts again behind the genesis block, so the ledger then holds the events since
the last such restart.

`enqueue_conserves` puts this together with the queue for the calls of `ledger_enqueue`. -/

namespace LunaOs

open Runs

/-! ### One turn of the flush loop -/

/-- The position the next block is written to. -/
def slot (l : Ledger) : ℕ := if l.ledgerCount ≥ LEDGER_MAX_BLOCKS then 1 else l.ledgerCount

theorem recycle_eq (l : Ledger) : recycle l = { l with ledgerCount := slot l } := by
  unfold recycle slot
  split_ifs <;> rfl

theorem slot_of_lt {l : Ledger} (h : l.ledgerCount < 4096) : slot l = l.ledgerCount :=
  if_neg (show ¬ 4096 ≤ l.ledgerCount by omega)

theorem slot_of_ge {l : Ledger} (h : 4096 ≤ l.ledgerCount) : slot l = 1 := if_pos h

theorem slot_lt (l : Ledger) : slot l < 4096 := by
  by_cases h : l.ledgerCount < 4096
  · rw [slot_of_lt h]; exact h
  · rw [slot_of_ge (by omega)]; omega

theorem slot_le {l : Ledger} (h : 1 ≤ l.ledgerCount) : slot l ≤ l.ledgerCount := by
  by_cases hlt : l.ledgerCount < 4096
  · exact (slot_of_lt hlt).le
  · rw [slot_of_ge (by omega)]; exact h

theorem slot_pos {l : Ledger} (h : 1 ≤ l.ledgerCount) : 1 ≤ slot l := by
  by_cases hlt : l.ledgerCount < 4096
  · rw [slot_of_lt hlt]; exact h
  · rw [slot_of_ge (by omega)]

section
variable (sha256 : List UInt8 → Digest) (l : Ledger) (ev : LedgerEvent)

@[simp] theorem finalizeEvent_ledgerCount :
    (finalizeEvent sha256 l ev).ledgerCount = slot l + 1 := by
  unfold finalizeEvent
  rw [recycle_eq]

theorem finalizeEvent_streamHead (s : Fin 2) : (finalizeEvent sha256 l ev).streamHead s =
    if s = lowBit ev.streamId then slot l else l.streamHead s := by
  unfold finalizeEvent
  rw [recycle_eq]
  exact Function.update_apply _ _ _ _

/-- The block written by this turn. -/
def newBlock : LedgerBlock := buildBlock sha256 (recycle l) ev

@[simp] theorem finalizeEvent_slot :
    (finalizeEvent sha256 l ev).ledgerBlocks (slot l) = newBlock sha256 l ev := by
  unfold finalizeEvent newBlock
  rw [recycle_eq]
  exact Function.update_self _ _ _

/-- Every other block stays as it is. -/
theorem finalizeEvent_of_ne {i : ℕ} (h : i ≠ slot l) :
    (finalizeEvent sha256 l ev).ledgerBlocks i = l.ledgerBlocks i := by
  unfold finalizeEvent
  rw [recycle_eq]
  exact Function.update_of_ne h _ _

theorem newBlock_blockHash :
    (newBlock sha256 l ev).blockHash = sha256 (newBlock sha256 l ev).bytes := rfl

theorem newBlock_index : (newBlock sha256 l ev).index = UInt32.ofNat (slot l) := by
  unfold newBlock buildBlock
  rw [recycle_eq]
  dsimp only
  split_ifs <;> rfl

theorem newBlock_streamId : (newBlock sha256 l ev).streamId = ev.streamId := by
  unfold newBlock buildBlock
  rw [recycle_eq]
  dsimp only
  split_ifs <;> rfl

theorem buildBlock_parentCount : (buildBlock sha256 l ev).parentCount =
    if l.streamHead 0 ≠ l.streamHead 1 then 2 else 1 := by
  unfold buildBlock
  dsimp only
  split_ifs <;> rfl

theorem newBlock_parentCount : (newBlock sha256 l ev).parentCount =
    if l.streamHead 0 ≠ l.streamHead 1 then 2 else 1 := by
  unfold newBlock
  rw [buildBlock_parentCount, recycle_eq]

/-- The hash the turn reads at position `i`: the slot it writes has just been cleared. -/
def hashAt (l : Ledger) (i : ℕ) : Digest :=
  if i = slot l then LedgerBlock.zero.blockHash else (l.ledgerBlocks i).blockHash

theorem hashAt_of_lt {l : Ledger} {i : ℕ} (h : i < slot l) :
    hashAt l i = (l.ledgerBlocks i).blockHash :=
  if_neg (by omega)

theorem blockHash_update {l : Ledger} {b : LedgerBlock}
    (hb : b.blockHash = LedgerBlock.zero.blockHash) (i : ℕ) :
    (Function.update l.ledgerBlocks (slot l) b i).blockHash = hashAt l i := by
  rw [Function.update_apply, hashAt]
  split_ifs
  · exact hb
  · rfl

theorem newBlock_prevHash_zero : (newBlock sha256 l ev).prevHash0 =
    hashAt l (l.streamHead (lowBit ev.streamId)) := by
  unfold newBlock buildBlock
  rw [recycle_eq]
  dsimp only
  split_ifs
  · refine (Vector.getElem_set_ne (by decide) (by decide) (by decide)).trans ?_
    refine (Vector.getElem_set_self _).trans ?_
    apply blockHash_update
    rfl
  · refine (Vector.getElem_set_self _).trans ?_
    apply blockHash_update
    rfl

theorem newBlock_prevHash_one (h : l.streamHead 0 ≠ l.streamHead 1) :
    (newBlock sha256 l ev).prevHash1 =
      hashAt l (l.streamHead (otherStream (lowBit ev.streamId))) := by
  unfold newBlock buildBlock
  rw [recycle_eq]
  dsimp only
  rw [if_pos h]
  refine (Vector.getElem_set_self _).trans ?_
  apply blockHash_update
  rfl

end

/-! ### The fields copied from the event -/

/-- What an event or a block says about the call that led to it. -/
structure Record where
  action : UInt8
  streamId : UInt8
  timestamp : UInt64
  target : Vector UInt8 LEDGER_TARGET_LEN
deriving DecidableEq

/-- What a block is to say of an event. -/
def LedgerEvent.record (ev : LedgerEvent) : Record :=
  ⟨ev.actionType, ev.streamId, ev.timestamp, ev.target⟩

/-- What a block says. -/
def LedgerBlock.record (b : LedgerBlock) : Record :=
  ⟨b.actionType, b.streamId, b.timestamp, b.target⟩

/-- A string copied into a cleared `target`. -/
def targetOf (src : ConstPtr) : Vector UInt8 LEDGER_TARGET_LEN :=
  lunaStrncpy (Vector.replicate LEDGER_TARGET_LEN 0) src (LEDGER_TARGET_LEN - 1)

/-- The first 63 bytes of a string, padded with zeros. -/
def padTarget (s : CString) : Vector UInt8 LEDGER_TARGET_LEN :=
  Vector.ofFn fun i => if i.val < 63 then s.chars.getD i 0 else 0

theorem arrayPtr_targetOf (src : ConstPtr) {j : ℕ} (hj : j < 64) :
    arrayPtr (targetOf src) j = if j < 63 then cut src j else 0 := by
  have hzero : arrayPtr (Vector.replicate LEDGER_TARGET_LEN 0) j = 0 := by
    rw [arrayPtr_lt _ hj, Vector.getElem_replicate]
  have h := arrayPtr_lunaStrncpy (Vector.replicate LEDGER_TARGET_LEN 0) src 63 hj
  rw [hzero] at h
  exact h

/-- Copying a target again changes nothing. -/
theorem targetOf_targetOf (src : ConstPtr) : targetOf (arrayPtr (targetOf src)) = targetOf src := by
  apply arrayPtr_inj
  intro j hj
  rw [arrayPtr_targetOf _ hj, arrayPtr_targetOf _ hj]
  by_cases hj63 : j < 63
  · rw [if_pos hj63, if_pos hj63, ← cut_cut src]
    apply cut_congr
    intro i hi
    rw [arrayPtr_targetOf _ (by omega), if_pos (by omega)]
  · rw [if_neg hj63, if_neg hj63]

theorem targetOf_eq_padTarget (s : CString) : targetOf s.ptr = padTarget s := by
  apply arrayPtr_inj
  intro j hj
  rw [arrayPtr_targetOf _ hj, CString.cut_ptr, arrayPtr_lt _ hj, padTarget, Vector.getElem_ofFn]
  rfl

theorem enqueueEvent_target (e : Enqueue) : e.event.target = targetOf e.target.ptr := by
  apply arrayPtr_inj
  intro j hj
  have hcopy := arrayPtr_lunaStrncpy e.stack e.target.ptr 63 hj
  rw [arrayPtr_targetOf _ hj, arrayPtr_lt _ hj]
  refine (Vector.getElem_set (by decide) hj).trans ?_
  by_cases hj63 : j < 63
  · rw [if_neg (show ¬ 64 - 1 = j by omega), if_pos hj63]
    rw [if_pos hj63, arrayPtr_lt _ hj] at hcopy
    exact hcopy
  · have hj' : j < 64 := hj
    rw [if_pos (show 64 - 1 = j by omega), if_neg hj63]

/-- The event says what the call said, its target cut to 63 bytes. -/
theorem enqueue_record (e : Enqueue) :
    e.event.record = ⟨e.action, e.streamId, e.timestamp, padTarget e.target⟩ := by
  unfold LedgerEvent.record
  rw [enqueueEvent_target, targetOf_eq_padTarget]
  rfl

/-- An event whose target a copy leaves as it is; every event the kernel pushes is one. -/
def LedgerEvent.Terminated (ev : LedgerEvent) : Prop := targetOf (arrayPtr ev.target) = ev.target

theorem enqueue_terminated (e : Enqueue) : e.event.Terminated := by
  unfold LedgerEvent.Terminated
  rw [enqueueEvent_target, targetOf_targetOf]

theorem newBlock_record (sha256 : List UInt8 → Digest) (l : Ledger) {ev : LedgerEvent}
    (h : ev.Terminated) : (newBlock sha256 l ev).record = ev.record := by
  have htarget : (newBlock sha256 l ev).target = targetOf (arrayPtr ev.target) := by
    unfold newBlock buildBlock
    dsimp only
    split_ifs <;> rfl
  have hrest : (newBlock sha256 l ev).record =
      ⟨ev.actionType, ev.streamId, ev.timestamp, (newBlock sha256 l ev).target⟩ := by
    unfold newBlock buildBlock
    dsimp only
    split_ifs <;> rfl
  rw [hrest, htarget, h]
  rfl

/-! ### The contents of a ledger -/

/-- What the blocks after genesis say, in order. -/
def Ledger.records (l : Ledger) : List Record :=
  (List.range' 1 (l.ledgerCount - 1)).map fun i => (l.ledgerBlocks i).record

/-- The flush loop appends while there is room, and otherwise starts again behind genesis. -/
theorem records_finalizeEvent (sha256 : List UInt8 → Digest) {l : Ledger}
    (hpos : 1 ≤ l.ledgerCount) {ev : LedgerEvent} (h : ev.Terminated) :
    (finalizeEvent sha256 l ev).records =
      if l.ledgerCount < 4096 then l.records ++ [ev.record] else [ev.record] := by
  unfold Ledger.records
  rw [finalizeEvent_ledgerCount, Nat.add_sub_cancel]
  split_ifs with hlt
  · have hslot := slot_of_lt hlt
    obtain ⟨n, hn⟩ : ∃ n, l.ledgerCount = 1 + n := ⟨l.ledgerCount - 1, by omega⟩
    have hold : ∀ i ∈ List.range' 1 n,
        ((finalizeEvent sha256 l ev).ledgerBlocks i).record = (l.ledgerBlocks i).record := by
      intro i hi
      rw [List.mem_range'_1] at hi
      rw [finalizeEvent_of_ne sha256 l ev (by omega)]
    have hnew : ((finalizeEvent sha256 l ev).ledgerBlocks (1 + n)).record = ev.record := by
      rw [← hn, ← hslot, finalizeEvent_slot, newBlock_record sha256 l h]
    rw [hslot, hn, Nat.add_sub_cancel_left, Nat.add_comm 1 n, List.range'_1_concat,
      List.map_append, List.map_congr_left hold]
    exact congrArg (_ ++ [·]) hnew
  · have hslot := slot_of_ge (l := l) (by omega)
    have hnew : ((finalizeEvent sha256 l ev).ledgerBlocks 1).record = ev.record := by
      rw [← hslot, finalizeEvent_slot, newBlock_record sha256 l h]
    rw [hslot]
    exact congrArg ([·]) hnew

/-- How many of `n` events have been recycled when the last of them is finalised. -/
def recycled (n : ℕ) : ℕ := 4095 * ((n - 1) / 4095)

theorem recycled_of_le {n : ℕ} (h : n ≤ 4095) : recycled n = 0 := by
  unfold recycled
  rw [Nat.div_eq_of_lt (by omega)]

theorem recycled_le (n : ℕ) : recycled n ≤ n := by
  unfold recycled
  omega

section
variable (sha256 : List UInt8 → Digest) {l : Ledger}

/-- The count of blocks depends on the number of events alone. -/
theorem chain_ledgerCount (hl : l.ledgerCount = 1) (evs : List LedgerEvent) :
    (chain sha256 l evs).ledgerCount = evs.length - recycled evs.length + 1 := by
  induction evs using List.reverseRecOn with
  | nil => rw [chain_nil, hl]; rfl
  | append_singleton evs ev ih =>
      rw [chain_snoc, finalizeEvent_ledgerCount, List.length_append, List.length_singleton]
      by_cases hlt : (chain sha256 l evs).ledgerCount < 4096
      · rw [slot_of_lt hlt, ih]
        unfold recycled at ih ⊢
        omega
      · rw [slot_of_ge (by omega)]
        unfold recycled at ih ⊢
        omega

/-- **The blocks are the events since the store was last recycled.** -/
theorem records_chain (hl : l.ledgerCount = 1) {evs : List LedgerEvent}
    (h : ∀ ev ∈ evs, ev.Terminated) :
    (chain sha256 l evs).records =
      (evs.drop (recycled evs.length)).map LedgerEvent.record := by
  induction evs using List.reverseRecOn with
  | nil => rw [chain_nil, Ledger.records, hl]; rfl
  | append_singleton evs ev ih =>
      have hcount := chain_ledgerCount sha256 hl evs
      have hrec := ih fun ev' hev => h ev' (List.mem_append_left _ hev)
      rw [chain_snoc, records_finalizeEvent sha256 (by omega) (h ev (by simp)), hrec,
        List.length_append, List.length_singleton]
      split_ifs with hlt
      · have hkeep : recycled (evs.length + 1) = recycled evs.length := by
          unfold recycled at hcount ⊢
          omega
        rw [hkeep, List.drop_append_of_le_length (recycled_le _), List.map_append]
        rfl
      · have hdrop : recycled (evs.length + 1) = evs.length := by
          unfold recycled at hcount ⊢
          omega
        rw [hdrop, List.drop_left]
        rfl

end

/-! ### Indices and hashes -/

/-- What holds of every ledger the kernel produces; in particular every subscript stays inside
`ledger_blocks`. -/
structure Ledger.WellFormed (sha256 : List UInt8 → Digest) (l : Ledger) : Prop where
  count_pos : 1 ≤ l.ledgerCount
  count_le : l.ledgerCount ≤ 4096
  head_lt : ∀ s, l.streamHead s < 4096
  headIdx : l.ledgerHeadIdx + 1 = l.ledgerCount
  index : ∀ i < l.ledgerCount, (l.ledgerBlocks i).index = UInt32.ofNat i
  isSealed : ∀ i < l.ledgerCount, (l.ledgerBlocks i).blockHash = sha256 (l.ledgerBlocks i).bytes
  parentCount : ∀ i, 1 ≤ i → i < l.ledgerCount →
    (l.ledgerBlocks i).parentCount = 1 ∨ (l.ledgerBlocks i).parentCount = 2

section
variable {sha256 : List UInt8 → Digest} {l : Ledger}

theorem wellFormed_genesis (l : Ledger) : (ledgerGenesis sha256 l).WellFormed sha256 where
  count_pos := le_rfl
  count_le := (by decide : 1 ≤ 4096)
  head_lt _ := (by decide : 0 < 4096)
  headIdx := rfl
  index i hi := by
    obtain rfl : i = 0 := Nat.lt_one_iff.mp hi
    rfl
  isSealed i hi := by
    obtain rfl : i = 0 := Nat.lt_one_iff.mp hi
    rfl
  parentCount i h1 hi := absurd hi (Nat.not_lt.mpr h1)

/-- A turn of the flush loop keeps the ledger well formed, recycling or not. -/
theorem Ledger.WellFormed.finalizeEvent (h : l.WellFormed sha256) (ev : LedgerEvent) :
    (finalizeEvent sha256 l ev).WellFormed sha256 := by
  have hslot := slot_le h.count_pos
  have hpos := slot_pos h.count_pos
  -- a block below the new count is the new one or an old one
  have hsplit : ∀ i < slot l + 1, i = slot l ∨ i ≠ slot l ∧ i < l.ledgerCount := by
    intro i hi
    omega
  refine ⟨?_, ?_, ?_, ?_, ?_, ?_, ?_⟩
  · rw [finalizeEvent_ledgerCount]
    omega
  · rw [finalizeEvent_ledgerCount]
    exact slot_lt l
  · intro s
    rw [finalizeEvent_streamHead]
    split_ifs
    · exact slot_lt l
    · exact h.head_lt s
  · rfl
  · intro i hi
    rw [finalizeEvent_ledgerCount] at hi
    rcases hsplit i hi with rfl | ⟨hne, hlt⟩
    · rw [finalizeEvent_slot, newBlock_index]
    · rw [finalizeEvent_of_ne sha256 l ev hne, h.index i hlt]
  · intro i hi
    rw [finalizeEvent_ledgerCount] at hi
    rcases hsplit i hi with rfl | ⟨hne, hlt⟩
    · rw [finalizeEvent_slot, newBlock_blockHash]
    · rw [finalizeEvent_of_ne sha256 l ev hne, h.isSealed i hlt]
  · intro i h1 hi
    rw [finalizeEvent_ledgerCount] at hi
    rcases hsplit i hi with rfl | ⟨hne, hlt⟩
    · rw [finalizeEvent_slot, newBlock_parentCount]
      split_ifs
      · exact .inr rfl
      · exact .inl rfl
    · rw [finalizeEvent_of_ne sha256 l ev hne]
      exact h.parentCount i h1 hlt

theorem Ledger.WellFormed.chain (h : l.WellFormed sha256) (evs : List LedgerEvent) :
    (chain sha256 l evs).WellFormed sha256 :=
  run_invariant (fun _ ev h => h.finalizeEvent ev) h evs

/-- Two blocks of a well-formed ledger have different bodies. -/
theorem Ledger.WellFormed.bytes_inj (h : l.WellFormed sha256) {i j : ℕ} (hi : i < l.ledgerCount)
    (hj : j < l.ledgerCount) (heq : (l.ledgerBlocks i).bytes = (l.ledgerBlocks j).bytes) :
    i = j := by
  have hle := h.count_le
  have hindex := (LedgerBlock.sameBody_of_bytes heq).index
  rw [h.index i hi, h.index j hj] at hindex
  have hnat := congrArg UInt32.toNat hindex
  rw [UInt32.toNat_ofNat_of_lt' (by show i < 2 ^ 32; omega),
    UInt32.toNat_ofNat_of_lt' (by show j < 2 ^ 32; omega)] at hnat
  exact hnat

end

/-! ### Conservation -/

section
variable (sha256 : List UInt8 → Digest) (prior : LedgerState) (calls : List Call)

theorem wellFormed_afterCalls : (afterCalls sha256 prior calls).ledger.WellFormed sha256 := by
  rw [afterCalls_ledger]
  exact (wellFormed_genesis prior.ledger).chain _

/-- Every flushed event and every pending event comes from an accepted call. -/
theorem terminated_of_accepted {ev : LedgerEvent} (hev : ev ∈ flushedEvents sha256 prior calls ++
    (afterCalls sha256 prior calls).lq.pending) : ev.Terminated := by
  rw [← acceptedCalls_map, List.mem_map] at hev
  obtain ⟨e, _, rfl⟩ := hev
  exact enqueue_terminated e

/-- **Event conservation**: a call is accepted exactly when fewer than 1023 events are pending;
the blocks after genesis and then the pending events are exactly the accepted calls in order, with
their action, stream, time and the first 63 bytes of their target; an index is a position. -/
theorem enqueue_conserves (e : Enqueue) (h : (flushedEvents sha256 prior calls).length ≤ 4095) :
    acceptedCalls sha256 prior (calls ++ [.enqueue e]) = acceptedCalls sha256 prior calls ++
      (if (afterCalls sha256 prior calls).lq.pending.length < 1023 then [e] else []) ∧
    (afterCalls sha256 prior calls).ledger.records ++
        (afterCalls sha256 prior calls).lq.pending.map LedgerEvent.record =
      (acceptedCalls sha256 prior calls).map
        (fun e => ⟨e.action, e.streamId, e.timestamp, padTarget e.target⟩) ∧
    ∀ i < (afterCalls sha256 prior calls).ledger.ledgerCount,
      ((afterCalls sha256 prior calls).ledger.ledgerBlocks i).index.toNat = i := by
  refine ⟨?_, ?_, ?_⟩
  · rw [acceptedCalls, outputs_append]
    show _ ++ (acceptedBy (afterCalls sha256 prior calls) (.enqueue e) ++ []) = _
    simp only [acceptedBy, ledgerQueuePush_snd, List.append_nil]
    rfl
  · have hterm : ∀ ev ∈ flushedEvents sha256 prior calls, ev.Terminated := fun ev hev =>
      terminated_of_accepted sha256 prior calls (List.mem_append_left _ hev)
    rw [afterCalls_ledger, records_chain sha256 rfl hterm, recycled_of_le h, List.drop_zero,
      ← List.map_append, ← acceptedCalls_map, List.map_map]
    exact List.map_congr_left fun e _ => enqueue_record e
  · intro i hi
    have hwf := wellFormed_afterCalls sha256 prior calls
    have hle := hwf.count_le
    rw [hwf.index i hi]
    exact UInt32.toNat_ofNat_of_lt' (by show i < 2 ^ 32; omega)

end

/-- The state of the kernel before `ledger_init`. -/
def LedgerState.zero : LedgerState := ⟨ledgerQueueInit, Ledger.zero⟩

/-- A call on stream `streamId` with a one-letter target. -/
def sampleCall (streamId : UInt8) : Enqueue where
  action := LEDGER_ACTION_VFS_WRITE
  streamId := streamId
  target := ⟨[97], by simp⟩
  timestamp := 5
  stack := Vector.replicate LEDGER_TARGET_LEN 255

/-- Two calls, a flush, a call. -/
def sampleRun : List Call :=
  [.enqueue (sampleCall 0), .enqueue (sampleCall 1), .flush, .enqueue (sampleCall 2)]

theorem enqueue_conserves_sampleRun :
    let s := afterCalls prefixDigest LedgerState.zero sampleRun
    acceptedCalls prefixDigest LedgerState.zero (sampleRun ++ [.enqueue (sampleCall 3)]) =
      acceptedCalls prefixDigest LedgerState.zero sampleRun ++
        (if s.lq.pending.length < 1023 then [sampleCall 3] else []) ∧
    s.ledger.records ++ s.lq.pending.map LedgerEvent.record =
      (acceptedCalls prefixDigest LedgerState.zero sampleRun).map
        (fun e => ⟨e.action, e.streamId, e.timestamp, padTarget e.target⟩) ∧
    ∀ i < s.ledger.ledgerCount, (s.ledger.ledgerBlocks i).index.toNat = i :=
  enqueue_conserves prefixDigest LedgerState.zero sampleRun (sampleCall 3) (by decide +kernel)

/-- The run leaves two blocks and a pending event. -/
example : (afterCalls prefixDigest LedgerState.zero sampleRun).ledger.ledgerCount = 3 ∧
    (afterCalls prefixDigest LedgerState.zero sampleRun).lq.pending.length = 1 := by
  decide +kernel

end LunaOs
