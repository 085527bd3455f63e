import LunaOs.LedgerRecycle

/-! # What a reader of the ledger still sees

`ledger_get_block` is the only way to a block.  When the store is full the flush loop means to recycle
the oldest block; it sets `ledger_count` back to 1, and `ledger_get_block` answers with the blocks below
`ledger_count`.  All but the newest record are out of reach at once, until 4095 events later the store
is full again. -/

namespace LunaOs

open Runs

def ledgerGetCount (l : Ledger) : UInt32 := UInt32.ofNat l.ledgerCount

/-- `none` is `NULL`. -/
def ledgerGetBlock (l : Ledger) (idx : UInt32) : Option LedgerBlock :=
  if idx.toNat ≥ l.ledgerCount then none else some (l.ledgerBlocks idx.toNat)

/-- A reader sees the genesis block and then the newest `LEDGER_MAX_BLOCKS - 1` of the events. -/
structure RetainsNewest (genesis : LedgerBlock) (evs : List LedgerEvent) (l : Ledger) : Prop where
  count : (ledgerGetCount l).toNat = min evs.length (LEDGER_MAX_BLOCKS - 1) + 1
  genesis : ledgerGetBlock l 0 = some genesis
  newest : ∀ idx : UInt32, idx ≠ 0 → (ledgerGetBlock l idx).map LedgerBlock.record =
    ((evs.drop (evs.length - (LEDGER_MAX_BLOCKS - 1))).map LedgerEvent.record)[idx.toNat - 1]?

/-! ### Blocks and records -/

theorem chain_genesis (sha256 : List UInt8 → Digest) {l : Ledger} (hpos : 1 ≤ l.ledgerCount)
    (evs : List LedgerEvent) : (chain sha256 l evs).ledgerBlocks 0 = l.ledgerBlocks 0 := by
  induction evs generalizing l with
  | nil => rfl
  | cons ev evs ih =>
      have hslot := slot_pos hpos
      rw [chain_cons, ih (by simp), finalizeEvent_of_ne sha256 l ev (by omega)]

theorem ledgerGetBlock_record (l : Ledger) {idx : UInt32} (hidx : idx ≠ 0) :
    (ledgerGetBlock l idx).map LedgerBlock.record = l.records[idx.toNat - 1]? := by
  have hpos : idx.toNat ≠ 0 := fun hzero => hidx (UInt32.toNat_inj.mp hzero)
  unfold ledgerGetBlock Ledger.records
  rw [List.getElem?_map]
  split_ifs with hge
  · rw [List.getElem?_eq_none (by simp; omega)]
    rfl
  · rw [List.getElem?_range' (by omega), Nat.one_mul, Nat.add_sub_cancel' (by omega)]
    rfl

section
variable (sha256 : List UInt8 → Digest) {l : Ledger} {evs : List LedgerEvent}

/-- The blocks are as many as a ring of 4095 would hold only right before and right after it starts
again. -/
theorem chain_count_iff (hl : l.ledgerCount = 1) :
    (ledgerGetCount (chain sha256 l evs)).toNat = min evs.length (LEDGER_MAX_BLOCKS - 1) + 1 ↔
      evs.length ≤ 4095 ∨ 4095 ∣ evs.length := by
  have hcount := chain_ledgerCount sha256 hl evs
  have hmax : LEDGER_MAX_BLOCKS = 4096 := rfl
  have hsmall : (ledgerGetCount (chain sha256 l evs)).toNat = (chain sha256 l evs).ledgerCount := by
    apply UInt32.toNat_ofNat_of_lt'
    show (chain sha256 l evs).ledgerCount < 2 ^ 32
    rw [hcount]
    unfold recycled
    omega
  rw [hsmall, hcount, hmax]
  unfold recycled
  omega

/-- **What a chain of events retains**. -/
theorem retainsNewest_chain_iff (hl : l.ledgerCount = 1) (h : ∀ ev ∈ evs, ev.Terminated) :
    RetainsNewest (l.ledgerBlocks 0) evs (chain sha256 l evs) ↔
      evs.length ≤ 4095 ∨ 4095 ∣ evs.length := by
  constructor
  · exact fun hretains => (chain_count_iff sha256 hl).mp hretains.count
  · intro hlen
    have hrecycled : recycled evs.length = evs.length - (LEDGER_MAX_BLOCKS - 1) := by
      have hmax : LEDGER_MAX_BLOCKS = 4096 := rfl
      rw [hmax]
      unfold recycled
      omega
    refine ⟨(chain_count_iff sha256 hl).mpr hlen, ?_, ?_⟩
    · have hcount := chain_ledgerCount sha256 hl evs
      unfold ledgerGetBlock
      rw [if_neg, ← chain_genesis sha256 (by omega) evs]
      · rfl
      · rw [hcount]
        exact Nat.not_le.mpr (Nat.succ_pos _)
    · intro idx hidx
      rw [ledgerGetBlock_record _ hidx, records_chain sha256 hl h, hrecycled]

end

/-- **Retention**: after `n` flushed events a reader sees the genesis block and the newest
`min n 4095` events exactly if `n` is at most 4095 or a multiple of it. -/
theorem retainsNewest_iff (sha256 : List UInt8 → Digest) (prior : LedgerState) (calls : List Call) :
    RetainsNewest (genesisBlock sha256) (flushedEvents sha256 prior calls)
        (afterCalls sha256 prior calls).ledger ↔
      (flushedEvents sha256 prior calls).length ≤ 4095 ∨
        4095 ∣ (flushedEvents sha256 prior calls).length := by
  have hgenesis : genesisBlock sha256 = (ledgerGenesis sha256 prior.ledger).ledgerBlocks 0 := rfl
  rw [afterCalls_ledger, hgenesis]
  apply retainsNewest_chain_iff sha256 (l := ledgerGenesis sha256 prior.ledger) rfl
  exact fun ev hev => terminated_of_accepted sha256 prior calls (List.mem_append_left _ hev)

/-- The event that comes to a full store puts the 4095 before it out of reach. -/
theorem retainsNewest_overflow :
    ¬ RetainsNewest (genesisBlock prefixDigest)
        (flushedEvents prefixDigest LedgerState.zero (roundsRun 4096))
        (afterCalls prefixDigest LedgerState.zero (roundsRun 4096)).ledger := by
  intro hretains
  have hcount := hretains.count
  rw [afterCalls_ledger, chain_count_iff prefixDigest rfl, flushedEvents_roundsRun,
    List.length_replicate] at hcount
  omega

end LunaOs
