import LunaOs.LedgerContents
import LunaOs.LedgerVerify
import Mathlib.Data.Nat.Find
import Mathlib.Logic.Relation

/-! # The parent links of an honest ledger

While the store is not recycled the stream heads are the latest blocks of their streams, so every
block is linked to the latest block of its own stream and, when the streams have parted, to the
latest block of the other one (`Dag`).  The block before a block is always one of these two, which
is why every block is an ancestor of the newest. -/

namespace LunaOs

open Runs HashChain

/-- The latest block before position `n` on stream `s`; genesis if there is none. -/
def Ledger.latest (l : Ledger) (s : Fin 2) (n : ℕ) : ℕ :=
  Nat.findGreatest (fun j => lowBit (l.ledgerBlocks j).streamId = s) (n - 1)

/-- The stream of block `i`. -/
def Ledger.streamOf (l : Ledger) (i : ℕ) : Fin 2 := lowBit (l.ledgerBlocks i).streamId

/-- Block `j` is a parent of block `i`. -/
def Ledger.IsParent (l : Ledger) (i j : ℕ) : Prop :=
  1 ≤ i ∧ i < l.ledgerCount ∧ (j = l.latest (l.streamOf i) i ∨
    (l.ledgerBlocks i).parentCount = 2 ∧ j = l.latest (otherStream (l.streamOf i)) i)

section
variable {l l' : Ledger} {n : ℕ}

theorem latest_lt (s : Fin 2) (hn : 1 ≤ n) : l.latest s n < n := by
  have := Nat.findGreatest_le (P := fun j => lowBit (l.ledgerBlocks j).streamId = s) (n - 1)
  unfold Ledger.latest
  omega

theorem latest_succ (s : Fin 2) (hn : 1 ≤ n) :
    l.latest s (n + 1) = if l.streamOf n = s then n else l.latest s n := by
  obtain ⟨m, rfl⟩ : ∃ m, n = m + 1 := ⟨n - 1, by omega⟩
  exact Nat.findGreatest_succ m

theorem latest_one (s : Fin 2) : l.latest s 1 = 0 := rfl

theorem streamOf_congr {j : ℕ} (h : l'.ledgerBlocks j = l.ledgerBlocks j) :
    l'.streamOf j = l.streamOf j := by
  rw [Ledger.streamOf, h, Ledger.streamOf]

theorem latest_congr (h : ∀ j < n, l'.ledgerBlocks j = l.ledgerBlocks j) (s : Fin 2) :
    l'.latest s n = l.latest s n := by
  induction n with
  | zero => rfl
  | succ n ih =>
      cases n with
      | zero => rfl
      | succ n =>
          have hpos : 1 ≤ n + 1 := Nat.succ_pos n
          have ih := ih fun j hj => h j (Nat.lt_succ_of_lt hj)
          rw [latest_succ s hpos, ih, streamOf_congr (h _ (Nat.lt_succ_self _)),
            ← latest_succ s hpos]

theorem streamOf_latest (s : Fin 2) (h : l.latest s n ≠ 0) : l.streamOf (l.latest s n) = s :=
  Nat.findGreatest_of_ne_zero rfl h

theorem le_latest {s : Fin 2} {j : ℕ} (hj : l.streamOf j = s) (hn : j < n) :
    j ≤ l.latest s n :=
  Nat.le_findGreatest (by omega) hj

end

theorem eq_other : ∀ {s t : Fin 2}, s ≠ t → t = otherStream s := by decide

/-- The two streams have parted exactly when a stream and the other one have. -/
theorem heads_ne_iff (f : Fin 2 → ℕ) (s : Fin 2) : f 0 ≠ f 1 ↔ f s ≠ f (otherStream s) := by
  match s with
  | 0 => exact Iff.rfl
  | 1 => exact ne_comm

/-! ### The invariant -/

/-- Block `i` is linked to the latest block of its own stream and, when the streams have parted, to
the latest block of the other one. -/
structure Ledger.LinksAt (l : Ledger) (i : ℕ) : Prop where
  first : (l.ledgerBlocks i).prevHash0 =
    (l.ledgerBlocks (l.latest (l.streamOf i) i)).blockHash
  parentCount : (l.ledgerBlocks i).parentCount = if l.latest 0 i ≠ l.latest 1 i then 2 else 1
  second : l.latest 0 i ≠ l.latest 1 i → (l.ledgerBlocks i).prevHash1 =
    (l.ledgerBlocks (l.latest (otherStream (l.streamOf i)) i)).blockHash

/-- How an honest ledger is linked. -/
structure Ledger.Dag (l : Ledger) : Prop where
  heads : ∀ s, l.streamHead s = l.latest s l.ledgerCount
  links : ∀ i, 1 ≤ i → i < l.ledgerCount → l.LinksAt i

theorem Ledger.LinksAt.congr {l l' : Ledger} {i : ℕ} (hi : 1 ≤ i) (h : l.LinksAt i)
    (heq : ∀ j ≤ i, l'.ledgerBlocks j = l.ledgerBlocks j) : l'.LinksAt i := by
  have hlatest : ∀ s, l'.latest s i = l.latest s i := latest_congr fun j hj => heq j hj.le
  have hblock : ∀ s, l'.ledgerBlocks (l.latest s i) = l.ledgerBlocks (l.latest s i) :=
    fun s => heq _ (latest_lt s hi).le
  have hstream := streamOf_congr (heq i le_rfl)
  refine ⟨?_, ?_, ?_⟩
  · rw [heq i le_rfl, hstream, hlatest, hblock, h.first]
  · rw [heq i le_rfl, hlatest, hlatest, h.parentCount]
  · intro hne
    rw [hlatest, hlatest] at hne
    rw [heq i le_rfl, hstream, hlatest, hblock, h.second hne]

section
variable {sha256 : List UInt8 → Digest} {l : Ledger} {ev : LedgerEvent}

theorem dag_genesis (l : Ledger) : (ledgerGenesis sha256 l).Dag where
  heads _ := rfl
  links _ h1 hi := absurd hi (Nat.not_lt.mpr h1)

/-- A turn of the flush loop that does not recycle keeps the links. -/
theorem Ledger.Dag.finalizeEvent (h : l.Dag) (hpos : 1 ≤ l.ledgerCount)
    (hlt : l.ledgerCount < 4096) : (finalizeEvent sha256 l ev).Dag := by
  have hslot := slot_of_lt hlt
  generalize hl' : LunaOs.finalizeEvent sha256 l ev = l'
  have hcount : l'.ledgerCount = l.ledgerCount + 1 := by
    rw [← hl', finalizeEvent_ledgerCount, hslot]
  have hold : ∀ i < l.ledgerCount, l'.ledgerBlocks i = l.ledgerBlocks i := by
    intro i hi
    rw [← hl', finalizeEvent_of_ne sha256 l ev (by omega)]
  have hnew : l'.ledgerBlocks l.ledgerCount = newBlock sha256 l ev := by
    rw [← hl', ← hslot, finalizeEvent_slot]
  have hstream : l'.streamOf l.ledgerCount = lowBit ev.streamId := by
    unfold Ledger.streamOf
    rw [hnew, newBlock_streamId]
  have hhead : ∀ s, l.streamHead s = l'.latest s l.ledgerCount := fun s => by
    rw [h.heads s, latest_congr hold s]
  have hhash : ∀ s, hashAt l (l.streamHead s) = (l'.ledgerBlocks (l.streamHead s)).blockHash := by
    intro s
    have hs : l.streamHead s < l.ledgerCount := (h.heads s).trans_lt (latest_lt s hpos)
    rw [hold _ hs, hashAt_of_lt (by omega)]
  refine ⟨?_, ?_⟩
  · intro s
    rw [hcount, latest_succ s hpos, hstream, ← hl', finalizeEvent_streamHead, hslot, hl', hhead s]
    simp only [eq_comm]
  · intro i h1 hi
    rw [hcount] at hi
    rcases Nat.lt_succ_iff_lt_or_eq.mp hi with hlt | rfl
    · exact (h.links i h1 hlt).congr h1 fun j hj => hold j (by omega)
    · refine ⟨?_, ?_, ?_⟩
      · rw [hnew, newBlock_prevHash_zero, hstream, ← hhead, hhash]
      · rw [hnew, newBlock_parentCount, ← hhead, ← hhead]
      · intro hne
        rw [← hhead, ← hhead] at hne
        rw [hnew, newBlock_prevHash_one sha256 l ev hne, hstream, ← hhead, hhash]

variable (sha256) in
theorem dag_chain (hdag : l.Dag) (hl : l.ledgerCount = 1) {evs : List LedgerEvent}
    (hlen : evs.length ≤ 4095) : (chain sha256 l evs).Dag := by
  induction evs using List.reverseRecOn with
  | nil => exact hdag
  | append_singleton evs ev ih =>
      rw [List.length_append, List.length_singleton] at hlen
      have hcount := chain_ledgerCount sha256 hl evs
      rw [recycled_of_le (by omega)] at hcount
      rw [chain_snoc]
      exact (ih (by omega)).finalizeEvent (by omega) (by omega)

/-! ### Every block is an ancestor of the newest -/

theorem Ledger.Dag.isParent_pred (h : l.Dag) {i : ℕ} (h1 : 1 ≤ i) (hi : i < l.ledgerCount) :
    l.IsParent i (i - 1) := by
  refine ⟨h1, hi, ?_⟩
  rcases Nat.eq_or_lt_of_le h1 with rfl | hlt
  · exact .inl (latest_one _).symm
  · obtain ⟨n, rfl⟩ : ∃ n, i = n + 1 := ⟨i - 1, by omega⟩
    have hn : 1 ≤ n := by omega
    rw [Nat.add_sub_cancel]
    by_cases hs : l.streamOf n = l.streamOf (n + 1)
    · exact .inl (by rw [latest_succ _ hn, if_pos hs])
    · -- on the other stream, so the streams have parted
      have hother := eq_other (Ne.symm hs)
      have hown : l.latest (l.streamOf (n + 1)) (n + 1) < n := by
        rw [latest_succ _ hn, if_neg hs]
        exact latest_lt _ hn
      have hlast : l.latest (otherStream (l.streamOf (n + 1))) (n + 1) = n := by
        rw [latest_succ _ hn, if_pos hother]
      have hne : l.latest 0 (n + 1) ≠ l.latest 1 (n + 1) := by
        rw [heads_ne_iff (fun s => l.latest s (n + 1)) (l.streamOf (n + 1)), hlast]
        exact hown.ne
      refine .inr ⟨?_, hlast.symm⟩
      rw [(h.links _ h1 hi).parentCount, if_pos hne]

theorem Ledger.Dag.ancestor (h : l.Dag) {j : ℕ} (hj : j < l.ledgerCount) :
    Relation.ReflTransGen l.IsParent (l.ledgerCount - 1) j := by
  obtain ⟨d, hd⟩ : ∃ d, l.ledgerCount - 1 = j + d := ⟨l.ledgerCount - 1 - j, by omega⟩
  induction d generalizing j with
  | zero => rw [hd]; exact .refl
  | succ d ih =>
      have hpred := h.isParent_pred (i := j + 1) (by omega) (by omega)
      rw [Nat.add_sub_cancel] at hpred
      exact (ih (j := j + 1) (by omega) (by omega)).tail hpred

/-! ### The verifier accepts it -/

/-- A turn of the flush loop keeps the ledger verified when the stream head it reads lies below the
slot it writes. -/
theorem valid_finalizeEvent (hpos : 1 ≤ l.ledgerCount)
    (hv : Valid blockFormat sha256 l.ledgerBlocks l.ledgerCount)
    (hhead : l.streamHead (lowBit ev.streamId) < slot l) :
    Valid blockFormat sha256 (finalizeEvent sha256 l ev).ledgerBlocks
      (finalizeEvent sha256 l ev).ledgerCount := by
  rw [finalizeEvent_ledgerCount]
  have hbelow := (hv.mono (slot_le hpos)).congr fun i hi =>
    finalizeEvent_of_ne sha256 l ev (Nat.ne_of_lt hi)
  refine hbelow.snoc ?_ ⟨l.streamHead (lowBit ev.streamId), hhead, ?_⟩
  · rw [finalizeEvent_slot]
    exact newBlock_blockHash sha256 l ev
  · rw [finalizeEvent_slot, finalizeEvent_of_ne sha256 l ev (Nat.ne_of_lt hhead)]
    exact ((newBlock_prevHash_zero sha256 l ev).trans (hashAt_of_lt hhead)).symm

variable (sha256) in
theorem valid_chain (hdag : l.Dag) (hl : l.ledgerCount = 1) {evs : List LedgerEvent}
    (hlen : evs.length ≤ 4095) :
    Valid blockFormat sha256 (chain sha256 l evs).ledgerBlocks (chain sha256 l evs).ledgerCount := by
  induction evs using List.reverseRecOn with
  | nil =>
      rw [chain_nil, hl]
      exact valid_one
  | append_singleton evs ev ih =>
      rw [List.length_append, List.length_singleton] at hlen
      have hcount := chain_ledgerCount sha256 hl evs
      rw [recycled_of_le (by omega)] at hcount
      have hslot : slot (chain sha256 l evs) = (chain sha256 l evs).ledgerCount :=
        slot_of_lt (by omega)
      have hlinked : (chain sha256 l evs).Dag := dag_chain sha256 hdag hl (by omega)
      rw [chain_snoc]
      refine valid_finalizeEvent (by omega) (ih (by omega)) ?_
      rw [hlinked.heads, hslot]
      exact latest_lt _ (by omega)

/-! ### Honest runs -/

variable (sha256) in
/-- Block `i` is the one that the `i`-th turn of the flush loop built. -/
theorem chain_block (hl : l.ledgerCount = 1) {evs : List LedgerEvent} (hlen : evs.length ≤ 4095)
    {n : ℕ} (hn : n < evs.length) : (chain sha256 l evs).ledgerBlocks (n + 1) =
      buildBlock sha256 (chain sha256 l (evs.take n)) evs[n] := by
  induction evs using List.reverseRecOn with
  | nil => exact absurd hn (Nat.not_lt_zero _)
  | append_singleton evs ev ih =>
      rw [List.length_append, List.length_singleton] at hlen hn
      have hcount := chain_ledgerCount sha256 hl evs
      rw [recycled_of_le (by omega)] at hcount
      have hslot := slot_of_lt (l := chain sha256 l evs) (by omega)
      rw [chain_snoc]
      rcases Nat.lt_succ_iff_lt_or_eq.mp hn with hlt | rfl
      · rw [finalizeEvent_of_ne sha256 _ ev (by omega), ih (by omega) hlt,
          List.take_append_of_le_length hlt.le, List.getElem_append_left hlt]
      · have hpos : evs.length + 1 = slot (chain sha256 l evs) := by omega
        rw [hpos, finalizeEvent_slot, newBlock, recycle_eq, hslot, List.take_left]
        simp

end

section
variable (sha256 : List UInt8 → Digest) (prior : LedgerState) (calls : List Call)

theorem dag_afterCalls (h : (flushedEvents sha256 prior calls).length ≤ 4095) :
    (afterCalls sha256 prior calls).ledger.Dag := by
  rw [afterCalls_ledger]
  exact dag_chain sha256 (dag_genesis prior.ledger) rfl h

theorem valid_afterCalls (h : (flushedEvents sha256 prior calls).length ≤ 4095) :
    Valid blockFormat sha256 (afterCalls sha256 prior calls).ledger.ledgerBlocks
      (afterCalls sha256 prior calls).ledger.ledgerCount := by
  rw [afterCalls_ledger]
  exact valid_chain sha256 (dag_genesis prior.ledger) rfl h

/-- **The shape of an honest ledger**, for every hash function: first parents, merge parents and
where they come from, every block an ancestor of the newest, and the verifier accepts it. -/
theorem ledger_dag (h : (flushedEvents sha256 prior calls).length ≤ 4095) :
    let l := (afterCalls sha256 prior calls).ledger
    (∀ i, 1 ≤ i → i < l.ledgerCount →
      (l.ledgerBlocks i).prevHash0 = (l.ledgerBlocks (l.latest (l.streamOf i) i)).blockHash ∧
      (∃ before ev, (callBuilds sha256 prior calls)[i - 1]? = some (before, ev) ∧
        l.ledgerBlocks i = buildBlock sha256 before ev ∧
        (l.ledgerBlocks i).parentCount =
          if before.streamHead 0 ≠ before.streamHead 1 then 2 else 1) ∧
      ((l.ledgerBlocks i).parentCount = 2 → (l.ledgerBlocks i).prevHash1 =
        (l.ledgerBlocks (l.latest (otherStream (l.streamOf i)) i)).blockHash)) ∧
    (∀ j < l.ledgerCount, Relation.ReflTransGen l.IsParent (l.ledgerCount - 1) j) ∧
    ledgerVerifyChain sha256 l = true := by
  have hdag := dag_afterCalls sha256 prior calls h
  have hvalid := valid_afterCalls sha256 prior calls h
  have hcount := chain_ledgerCount sha256 (l := ledgerGenesis sha256 prior.ledger) rfl
    (flushedEvents sha256 prior calls)
  rw [recycled_of_le h] at hcount
  rw [afterCalls_ledger] at hdag hvalid ⊢
  rw [callBuilds_eq]
  refine ⟨?_, ?_, (verifyChain_iff_valid _).mpr hvalid⟩
  · intro i h1 hi
    obtain ⟨n, rfl⟩ : ∃ n, i = n + 1 := ⟨i - 1, by omega⟩
    have hlinks := hdag.links _ h1 hi
    have hn : n < (flushedEvents sha256 prior calls).length := by omega
    have hblock := chain_block sha256 (l := ledgerGenesis sha256 prior.ledger) rfl h hn
    refine ⟨hlinks.first, ⟨_, _, chainBuilds_getElem? _ _ hn, hblock, ?_⟩, ?_⟩
    · rw [hblock, buildBlock_parentCount]
    · intro htwo
      rw [hlinks.parentCount] at htwo
      refine hlinks.second fun heq => ?_
      rw [if_neg (not_not.mpr heq)] at htwo
      exact absurd htwo (by decide)
  · intro j hj
    exact hdag.ancestor hj

end

/-- The shape of the ledger of a run on both streams. -/
theorem ledger_dag_sampleRun :
    let l := (afterCalls prefixDigest LedgerState.zero sampleRun).ledger
    (∀ i, 1 ≤ i → i < l.ledgerCount →
      (l.ledgerBlocks i).prevHash0 = (l.ledgerBlocks (l.latest (l.streamOf i) i)).blockHash ∧
      (∃ before ev, (callBuilds prefixDigest LedgerState.zero sampleRun)[i - 1]? =
          some (before, ev) ∧
        l.ledgerBlocks i = buildBlock prefixDigest before ev ∧
        (l.ledgerBlocks i).parentCount =
          if before.streamHead 0 ≠ before.streamHead 1 then 2 else 1) ∧
      ((l.ledgerBlocks i).parentCount = 2 → (l.ledgerBlocks i).prevHash1 =
        (l.ledgerBlocks (l.latest (otherStream (l.streamOf i)) i)).blockHash)) ∧
    (∀ j < l.ledgerCount, Relation.ReflTransGen l.IsParent (l.ledgerCount - 1) j) ∧
    ledgerVerifyChain prefixDigest l = true :=
  ledger_dag prefixDigest LedgerState.zero sampleRun (by decide +kernel)

end LunaOs
