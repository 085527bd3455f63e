import LunaOs.LedgerDag

/-! # Recycling the block store

When 4095 events have been flushed the flush loop sets `ledger_count` back to 1.  It leaves the
stream heads where they are, unlike `ledger_genesis`.  A head that is not below the slot being
written makes the new block name a stale block, or itself, as its first parent, and the verifier,
which looks only at earlier blocks, reports tampering.

`recycle_safe_iff` says that nothing else goes wrong: no verification fails, with any hash
function, exactly when every event finds the head of its stream below its slot. -/

namespace LunaOs

open Runs HashChain

/-- A turn of the flush loop finds the head of the stream of its event below the slot it writes. -/
def HeadBelow (build : Ledger × LedgerEvent) : Prop :=
  build.1.streamHead (lowBit build.2.streamId) < slot build.1

/-! ### Heads below their slots: the verifier is content -/

section
variable {sha256 : List UInt8 → Digest} {l : Ledger}

theorem valid_chain_of_headBelow (hpos : 1 ≤ l.ledgerCount)
    (hv : Valid blockFormat sha256 l.ledgerBlocks l.ledgerCount) {evs : List LedgerEvent}
    (h : ∀ b ∈ chainBuilds sha256 l evs, HeadBelow b) :
    Valid blockFormat sha256 (chain sha256 l evs).ledgerBlocks (chain sha256 l evs).ledgerCount := by
  induction evs generalizing l with
  | nil => exact hv
  | cons ev evs ih =>
      have hhead : HeadBelow (l, ev) := h _ (List.mem_cons_self ..)
      refine ih ?_ (valid_finalizeEvent hpos hv hhead) fun b hb => h b (List.mem_cons_of_mem _ hb)
      rw [finalizeEvent_ledgerCount]
      omega

end

/-! ### The positions do not depend on the hash function -/

/-- Two ledgers agree on what decides where blocks go. -/
structure SamePositions (l l' : Ledger) : Prop where
  ledgerCount : l.ledgerCount = l'.ledgerCount
  streamHead : ∀ s, l.streamHead s = l'.streamHead s

section
variable {sha256 sha256' : List UInt8 → Digest} {l l' : Ledger}

theorem SamePositions.slot (h : SamePositions l l') : slot l = slot l' := by
  unfold LunaOs.slot
  rw [h.ledgerCount]

theorem SamePositions.headBelow (h : SamePositions l l') {ev : LedgerEvent} :
    HeadBelow (l, ev) ↔ HeadBelow (l', ev) := by
  rw [HeadBelow, HeadBelow, h.slot, h.streamHead]

theorem SamePositions.finalizeEvent (h : SamePositions l l') (ev : LedgerEvent) :
    SamePositions (finalizeEvent sha256 l ev) (finalizeEvent sha256' l' ev) := by
  refine ⟨?_, ?_⟩
  · rw [finalizeEvent_ledgerCount, finalizeEvent_ledgerCount, h.slot]
  · intro s
    rw [finalizeEvent_streamHead, finalizeEvent_streamHead, h.slot, h.streamHead]

theorem SamePositions.chain (h : SamePositions l l') (evs : List LedgerEvent) :
    SamePositions (chain sha256 l evs) (chain sha256' l' evs) := by
  induction evs generalizing l l' with
  | nil => exact h
  | cons ev evs ih => exact ih (h.finalizeEvent ev)

end

/-! ### A head that is not below its slot -/

/-- What holds of the stream heads even after recycling. -/
structure Ledger.HeadsOk (sha256 : List UInt8 → Digest) (l : Ledger) : Prop where
  index : ∀ s, (l.ledgerBlocks (l.streamHead s)).index = UInt32.ofNat (l.streamHead s)
  isSealed : ∀ s, (l.ledgerBlocks (l.streamHead s)).blockHash =
    sha256 (l.ledgerBlocks (l.streamHead s)).bytes
  newest : ∃ s, l.streamHead s + 1 = l.ledgerCount

section
variable {sha256 : List UInt8 → Digest} {l : Ledger}

theorem headsOk_genesis (l : Ledger) : (ledgerGenesis sha256 l).HeadsOk sha256 :=
  ⟨fun _ => rfl, fun _ => rfl, ⟨0, rfl⟩⟩

theorem Ledger.HeadsOk.finalizeEvent (h : l.HeadsOk sha256) (ev : LedgerEvent) :
    (finalizeEvent sha256 l ev).HeadsOk sha256 := by
  -- a block at a head is the new block or has not been touched
  have hblock : ∀ s, (LunaOs.finalizeEvent sha256 l ev).streamHead s = slot l ∨
      (LunaOs.finalizeEvent sha256 l ev).streamHead s = l.streamHead s ∧
        l.streamHead s ≠ slot l := by
    intro s
    rw [finalizeEvent_streamHead]
    split_ifs
    · exact .inl rfl
    · by_cases heq : l.streamHead s = slot l
      · exact .inl heq
      · exact .inr ⟨rfl, heq⟩
  refine ⟨?_, ?_, ⟨lowBit ev.streamId, ?_⟩⟩
  · intro s
    rcases hblock s with heq | ⟨heq, hne⟩
    · rw [heq, finalizeEvent_slot, newBlock_index]
    · rw [heq, finalizeEvent_of_ne sha256 l ev hne, h.index]
  · intro s
    rcases hblock s with heq | ⟨heq, hne⟩
    · rw [heq, finalizeEvent_slot, newBlock_blockHash]
    · rw [heq, finalizeEvent_of_ne sha256 l ev hne, h.isSealed]
  · rw [finalizeEvent_streamHead, if_pos rfl, finalizeEvent_ledgerCount]

theorem Ledger.HeadsOk.chain (h : l.HeadsOk sha256) (evs : List LedgerEvent) :
    (chain sha256 l evs).HeadsOk sha256 :=
  run_invariant (fun _ ev h => h.finalizeEvent ev) h evs

end

/-- Block `c` names no earlier block as its first parent. -/
structure Ledger.Orphan (l : Ledger) (c : ℕ) : Prop where
  pos : 1 ≤ c
  lt : c < l.ledgerCount
  missing : ∀ j < c, (l.ledgerBlocks j).blockHash ≠ (l.ledgerBlocks c).prevHash0

theorem verify_of_orphan {sha256 : List UInt8 → Digest} {l : Ledger} (hwf : l.WellFormed sha256)
    {c : ℕ} (h : l.Orphan c) : ledgerVerifyChain sha256 l = false := by
  rw [← Bool.not_eq_true, verifyChain_iff_valid]
  intro hv
  have hparent : blockFormat.hasPrev (l.ledgerBlocks c) := by
    show (l.ledgerBlocks c).parentCount > 0
    rcases hwf.parentCount c h.pos h.lt with h1 | h2
    · rw [h1]; decide
    · rw [h2]; decide
  obtain ⟨j, hj, hd⟩ := hv.linked c h.pos h.lt hparent
  exact h.missing j hj hd

theorem prefixDigest_ne_zero (bytes : List UInt8) :
    prefixDigest bytes ≠ LedgerBlock.zero.blockHash := by
  intro h
  have h31 := congrArg (fun d : Digest => d[31]) h
  simp [prefixDigest, LedgerBlock.zero] at h31

theorem prefixDigest_header (b : LedgerBlock) {i : ℕ} (hi : i < b.header.length) :
    arrayPtr (prefixDigest b.bytes) i = b.header[i] := by
  have h16 : i < 16 := by rwa [b.header_length] at hi
  rw [arrayPtr_lt _ (by omega), prefixDigest, Vector.getElem_ofFn, if_pos (show i < 31 by omega),
    LedgerBlock.bytes, List.getD_append _ _ _ _ hi, List.getD_eq_getElem _ _ hi]

/-- `prefixDigest` shows the index. -/
theorem prefixDigest_index {b b' : LedgerBlock} (h : prefixDigest b.bytes = prefixDigest b'.bytes) :
    b.index = b'.index := by
  apply LedgerBlock.index_of_header
  apply List.ext_getElem (by simp)
  intro i hi hi'
  rw [← prefixDigest_header b hi, ← prefixDigest_header b' hi', h]

section
variable {l : Ledger} {ev : LedgerEvent}

/-- A turn that finds the head of its stream at or above its slot builds an orphan. -/
theorem orphan_of_not_headBelow (hwf : l.WellFormed prefixDigest) (hok : l.HeadsOk prefixDigest)
    (h : ¬ HeadBelow (l, ev)) : (finalizeEvent prefixDigest l ev).Orphan (slot l) := by
  have hhead : slot l ≤ l.streamHead (lowBit ev.streamId) := Nat.not_lt.mp h
  have hslot := slot_le hwf.count_pos
  refine ⟨slot_pos hwf.count_pos, ?_, ?_⟩
  · rw [finalizeEvent_ledgerCount]
    exact Nat.lt_succ_self _
  · intro j hj heq
    have hjc : j < l.ledgerCount := by omega
    rw [finalizeEvent_of_ne _ l ev (by omega), finalizeEvent_slot, newBlock_prevHash_zero,
      hwf.isSealed j hjc] at heq
    rcases Nat.eq_or_lt_of_le hhead with hself | hstale
    · -- it reads its own cleared slot
      unfold hashAt at heq
      rw [if_pos hself.symm] at heq
      exact prefixDigest_ne_zero _ heq
    · -- it reads a block of the store before recycling, whose index is its position
      unfold hashAt at heq
      rw [if_neg (by omega), hok.isSealed] at heq
      have hindex := congrArg UInt32.toNat (prefixDigest_index heq)
      have hlt := hwf.head_lt (lowBit ev.streamId)
      rw [hwf.index j hjc, hok.index, UInt32.toNat_ofNat_of_lt' (by show j < 2 ^ 32; omega),
        UInt32.toNat_ofNat_of_lt' (by show _ < 2 ^ 32; omega)] at hindex
      omega

/-- When the store is full, only a stream that was never used is safe. -/
theorem not_headBelow_of_full (hfull : 4096 ≤ l.ledgerCount)
    (hhead : 1 ≤ l.streamHead (lowBit ev.streamId)) : ¬ HeadBelow (l, ev) := by
  show ¬ l.streamHead (lowBit ev.streamId) < slot l
  rw [slot_of_ge hfull]
  omega

/-- There is an orphan, and recycling within `r` turns makes another one. -/
structure Ledger.Doomed (l : Ledger) (r : ℕ) : Prop where
  orphan : ∃ c, l.Orphan c
  heads : (∀ s, 1 ≤ l.streamHead s) ∨ l.ledgerCount + r ≤ 4096

theorem heads_finalizeEvent (hpos : 1 ≤ l.ledgerCount) (h : ∀ s, 1 ≤ l.streamHead s) (s : Fin 2) :
    1 ≤ (finalizeEvent prefixDigest l ev).streamHead s := by
  rw [finalizeEvent_streamHead]
  split_ifs
  · exact slot_pos hpos
  · exact h s

theorem Ledger.Doomed.finalizeEvent {r : ℕ} (hwf : l.WellFormed prefixDigest)
    (hok : l.HeadsOk prefixDigest) (h : l.Doomed (r + 1)) :
    (finalizeEvent prefixDigest l ev).Doomed r := by
  by_cases hlt : l.ledgerCount < 4096
  · have hslot := slot_of_lt hlt
    refine ⟨?_, ?_⟩
    · obtain ⟨c, hc, hcl, hmissing⟩ := h.orphan
      refine ⟨c, hc, ?_, ?_⟩
      · rw [finalizeEvent_ledgerCount]
        omega
      · intro j hj
        rw [finalizeEvent_of_ne _ l ev (by omega), finalizeEvent_of_ne _ l ev (by omega)]
        exact hmissing j hj
    · rcases h.heads with hheads | hcount
      · exact .inl (heads_finalizeEvent hwf.count_pos hheads)
      · right
        rw [finalizeEvent_ledgerCount]
        omega
  · -- recycling: both heads are stale
    have hheads : ∀ s, 1 ≤ l.streamHead s := by
      rcases h.heads with hheads | hcount
      · exact hheads
      · omega
    have hnot : ¬ HeadBelow (l, ev) := not_headBelow_of_full (by omega) (hheads _)
    exact ⟨⟨_, orphan_of_not_headBelow hwf hok hnot⟩,
      .inl (heads_finalizeEvent hwf.count_pos hheads)⟩

/-- The turn that goes wrong dooms the ledger for as long as a flush can last. -/
theorem doomed_of_not_headBelow (hwf : l.WellFormed prefixDigest) (hok : l.HeadsOk prefixDigest)
    (h : ¬ HeadBelow (l, ev)) {r : ℕ} (hr : r ≤ 4094) :
    (finalizeEvent prefixDigest l ev).Doomed r := by
  refine ⟨⟨_, orphan_of_not_headBelow hwf hok h⟩, ?_⟩
  have hhead : slot l ≤ l.streamHead (lowBit ev.streamId) := Nat.not_lt.mp h
  have hpos := slot_pos hwf.count_pos
  rcases Nat.eq_or_lt_of_le hpos with hone | htwo
  · right
    rw [finalizeEvent_ledgerCount]
    omega
  · -- the block before the slot is the newest of the other stream
    left
    have hcount : slot l = l.ledgerCount := by
      by_cases hlt : l.ledgerCount < 4096
      · exact slot_of_lt hlt
      · rw [slot_of_ge (by omega)] at htwo
        omega
    obtain ⟨t, ht⟩ := hok.newest
    intro s
    rw [finalizeEvent_streamHead]
    split_ifs with hs
    · exact hpos
    · have hts : t ≠ lowBit ev.streamId := by
        rintro rfl
        omega
      have hst : s = t := by
        rw [eq_other (Ne.symm hs), eq_other (Ne.symm hts)]
      rw [hst]
      omega

theorem doomed_chain {evs : List LedgerEvent} (hwf : l.WellFormed prefixDigest)
    (hok : l.HeadsOk prefixDigest) (h : l.Doomed evs.length) :
    ∃ c, (chain prefixDigest l evs).Orphan c := by
  induction evs generalizing l with
  | nil => exact h.orphan
  | cons ev evs ih =>
      exact ih (hwf.finalizeEvent ev) (hok.finalizeEvent ev) (h.finalizeEvent hwf hok)

end

/-! ### Runs -/

section
variable {sha256 : List UInt8 → Digest} {prior : LedgerState} {calls : List Call}

theorem mem_callBuilds {b : Ledger × LedgerEvent} (hb : b ∈ callBuilds sha256 prior calls) :
    ∃ pre post, calls = pre ++ .flush :: post ∧
      b ∈ chainBuilds sha256 (afterCalls sha256 prior pre).ledger
        (afterCalls sha256 prior pre).lq.pending := by
  obtain ⟨pre, c, post, rfl, hbuild⟩ := mem_outputs.mp hb
  cases c with
  | enqueue e => exact absurd hbuild List.not_mem_nil
  | flush =>
      refine ⟨pre, post, rfl, ?_⟩
      rw [← LedgerState.buildsBy_flush]
      exact hbuild

theorem mem_chainBuilds {l : Ledger} {evs : List LedgerEvent} {b : Ledger × LedgerEvent} :
    b ∈ chainBuilds sha256 l evs ↔
      ∃ pre ev post, evs = pre ++ ev :: post ∧ b = (chain sha256 l pre, ev) := by
  unfold chainBuilds
  rw [mem_outputs]
  simp only [List.mem_singleton]
  rfl

theorem afterCalls_flush (pre : List Call) :
    (afterCalls sha256 prior (pre ++ [.flush])).ledger =
      chain sha256 (afterCalls sha256 prior pre).ledger
        (afterCalls sha256 prior pre).lq.pending := by
  unfold afterCalls
  rw [run_append]
  exact (ledgerFlushTask_spec sha256 _).2

variable (sha256 prior) in
theorem callBuilds_append (pre post : List Call) :
    ∃ builds, callBuilds sha256 prior (pre ++ post) = callBuilds sha256 prior pre ++ builds :=
  ⟨_, outputs_append _ _ _ _ _⟩

theorem verify_of_headBelow (h : ∀ b ∈ callBuilds sha256 prior calls, HeadBelow b) :
    ledgerVerifyChain sha256 (afterCalls sha256 prior calls).ledger = true := by
  rw [verifyChain_iff_valid, afterCalls_ledger]
  refine valid_chain_of_headBelow (le_refl 1) valid_one fun b hb => h b ?_
  rw [callBuilds_eq]
  exact hb

/-- Where one does not, the verification after its flush fails for `prefixDigest`. -/
theorem verify_of_not_headBelow {b : Ledger × LedgerEvent}
    (hb : b ∈ callBuilds prefixDigest prior calls) (hnot : ¬ HeadBelow b) :
    ∃ pre post, calls = pre ++ .flush :: post ∧
      ledgerVerifyChain prefixDigest
        (afterCalls prefixDigest prior (pre ++ [.flush])).ledger = false := by
  obtain ⟨pre, post, hcalls, hb⟩ := mem_callBuilds hb
  obtain ⟨evs, ev, evs', hpend, rfl⟩ := mem_chainBuilds.mp hb
  refine ⟨pre, post, hcalls, ?_⟩
  have hok : (afterCalls prefixDigest prior pre).ledger.HeadsOk prefixDigest := by
    rw [afterCalls_ledger]
    exact (headsOk_genesis prior.ledger).chain _
  have hwf' := (wellFormed_afterCalls prefixDigest prior pre).chain evs
  have hok' := hok.chain evs
  have hlen := (afterCalls prefixDigest prior pre).lq.pending_length_le
  rw [hpend, List.length_append, List.length_cons] at hlen
  have hdoomed := doomed_of_not_headBelow hwf' hok' hnot (r := evs'.length) (by omega)
  obtain ⟨c, hc⟩ := doomed_chain (hwf'.finalizeEvent ev) (hok'.finalizeEvent ev) hdoomed
  rw [afterCalls_flush, hpend, chain_append, chain_cons]
  exact verify_of_orphan ((hwf'.finalizeEvent ev).chain evs') hc

/-- The turns of two runs with the same calls correspond, whatever the hash functions. -/
theorem exists_same_build (sha256' : List UInt8 → Digest) {b : Ledger × LedgerEvent}
    (hb : b ∈ callBuilds sha256 prior calls) :
    ∃ b' ∈ callBuilds sha256' prior calls, HeadBelow b' ↔ HeadBelow b := by
  rw [callBuilds_eq, mem_chainBuilds] at hb
  obtain ⟨evs, ev, evs', hflushed, rfl⟩ := hb
  have hsame : SamePositions (ledgerGenesis sha256' prior.ledger)
      (ledgerGenesis sha256 prior.ledger) := ⟨rfl, fun _ => rfl⟩
  refine ⟨(chain sha256' (ledgerGenesis sha256' prior.ledger) evs, ev), ?_,
    (hsame.chain evs).headBelow⟩
  rw [callBuilds_eq, mem_chainBuilds]
  rw [flushedEvents_eq] at hflushed
  exact ⟨evs, ev, evs', by rw [flushedEvents_eq, hflushed], rfl⟩

end

/-- **Recycling is safe exactly as long as heads stay below their slots**: every verification after
a flush succeeds, for every hash function, if and only if every event finds the head of its stream
below the slot its block is written to. -/
theorem recycle_safe_iff (prior : LedgerState) (calls : List Call) :
    (∀ sha256 pre, pre ++ [.flush] <+: calls →
      ledgerVerifyChain sha256 (afterCalls sha256 prior (pre ++ [.flush])).ledger = true) ↔
    ∀ sha256, ∀ b ∈ callBuilds sha256 prior calls,
      b.1.streamHead (lowBit b.2.streamId) < (recycle b.1).ledgerCount := by
  have hslot : ∀ b : Ledger × LedgerEvent, HeadBelow b ↔
      b.1.streamHead (lowBit b.2.streamId) < (recycle b.1).ledgerCount := by
    intro b
    rw [recycle_eq, HeadBelow]
  simp only [← hslot]
  constructor
  · intro h sha256 b hb
    by_contra hnot
    obtain ⟨b', hb', hiff⟩ := exists_same_build prefixDigest hb
    obtain ⟨pre, post, rfl, hfalse⟩ := verify_of_not_headBelow hb' fun h' => hnot (hiff.mp h')
    have htrue := h prefixDigest pre ⟨post, by simp⟩
    rw [hfalse] at htrue
    exact absurd htrue (by decide)
  · rintro h sha256 pre ⟨post, rfl⟩
    obtain ⟨builds, hbuilds⟩ := callBuilds_append sha256 prior (pre ++ [.flush]) post
    refine verify_of_headBelow fun b hb => h sha256 b ?_
    rw [hbuilds]
    exact List.mem_append_left _ hb

/-! ### A false alarm -/

/-- `n` calls on stream 0, each flushed at once. -/
def roundsRun (n : ℕ) : List Call :=
  (List.replicate n [Call.enqueue (sampleCall 0), .flush]).flatten

theorem flushedEvents_roundsRun (sha256 : List UInt8 → Digest) (prior : LedgerState) (n : ℕ) :
    flushedEvents sha256 prior (roundsRun n) = List.replicate n (sampleCall 0).event := by
  rw [flushedEvents_eq]
  induction n with
  | zero => rfl
  | succ n ih => exact congrArg ((sampleCall 0).event :: ·) ih

/-- After 4096 events on one stream, and nothing else, the verifier reports tampering. -/
theorem roundsRun_false_alarm :
    (flushedEvents prefixDigest LedgerState.zero (roundsRun 4096)).length = 4096 ∧
    ledgerVerifyChain prefixDigest
      (afterCalls prefixDigest LedgerState.zero (roundsRun 4096)).ledger = false := by
  rw [afterCalls_ledger, flushedEvents_roundsRun]
  refine ⟨List.length_replicate, ?_⟩
  generalize hev : (sampleCall 0).event = ev
  have hgenesis : (ledgerGenesis prefixDigest LedgerState.zero.ledger).WellFormed prefixDigest :=
    wellFormed_genesis _
  have hwf := hgenesis.chain (List.replicate 4095 ev)
  have hheads : (ledgerGenesis prefixDigest LedgerState.zero.ledger).HeadsOk prefixDigest :=
    headsOk_genesis _
  have hok := hheads.chain (List.replicate 4095 ev)
  have hcount := chain_ledgerCount prefixDigest
    (l := ledgerGenesis prefixDigest LedgerState.zero.ledger) rfl (List.replicate 4095 ev)
  rw [List.length_replicate, recycled_of_le le_rfl] at hcount
  have hhead : 1 ≤ (chain prefixDigest (ledgerGenesis prefixDigest LedgerState.zero.ledger)
      (List.replicate 4095 ev)).streamHead (lowBit ev.streamId) := by
    rw [List.replicate_succ', chain_snoc, finalizeEvent_streamHead, if_pos rfl]
    exact slot_pos (hgenesis.chain _).count_pos
  have hnot : ¬ HeadBelow (chain prefixDigest (ledgerGenesis prefixDigest LedgerState.zero.ledger)
      (List.replicate 4095 ev), ev) := not_headBelow_of_full (by omega) hhead
  rw [List.replicate_succ', chain_snoc]
  exact verify_of_orphan (hwf.finalizeEvent ev) (orphan_of_not_headBelow hwf hok hnot)

end LunaOs
