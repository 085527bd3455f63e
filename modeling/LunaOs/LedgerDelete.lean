import LunaOs.LedgerDag

/-! # Deleting a block

The verifier follows first parents, and a first parent is the latest block of the same stream.  So
a deleted block is missed exactly when a later block of its stream needs it.  A merge parent does
not help: `ledger_verify_chain` never looks at `prev_hash[1]`.

`deletion_detected_iff` is the exact statement; `mixedRun` is a run on both streams in which a block
can be deleted without a trace. -/

namespace LunaOs

open Runs HashChain

/-- The ledger without block `k`: the later blocks move down one place. -/
def Ledger.deleteBlock (l : Ledger) (k : ℕ) : Ledger :=
  { l with ledgerBlocks := erase l.ledgerBlocks k, ledgerCount := l.ledgerCount - 1 }

section
variable {sha256 : List UInt8 → Digest} {l : Ledger}

theorem Ledger.WellFormed.blockHash_inj (h : l.WellFormed sha256)
    (hfree : ¬ Collides sha256 l.bodies) {i j : ℕ} (hi : i < l.ledgerCount)
    (hj : j < l.ledgerCount)
    (heq : (l.ledgerBlocks i).blockHash = (l.ledgerBlocks j).blockHash) : i = j := by
  rw [h.isSealed i hi, h.isSealed j hj] at heq
  exact h.bytes_inj hi hj (eq_of_not_collides hfree ⟨i, hi, rfl⟩ ⟨j, hj, rfl⟩ heq)

theorem Ledger.WellFormed.not_collides (h : l.WellFormed sha256)
    (hinj : ∀ i < l.ledgerCount, ∀ j < l.ledgerCount,
      (l.ledgerBlocks i).blockHash = (l.ledgerBlocks j).blockHash → i = j) :
    ¬ Collides sha256 l.bodies := by
  rintro ⟨_, ⟨i, hi, rfl⟩, _, ⟨j, hj, rfl⟩, hne, heq⟩
  have hij : i = j := hinj i hi j hj (by rw [h.isSealed i hi, h.isSealed j hj]; exact heq)
  exact hne (by rw [hij])

theorem exists_child {k m : ℕ} (hk : 1 ≤ k) (hkm : k < m) (hm : l.streamOf m = l.streamOf k) :
    ∃ c, k < c ∧ c ≤ m ∧ l.latest (l.streamOf c) c = k := by
  induction m using Nat.strong_induction_on with
  | _ m ih =>
      have hle : k ≤ l.latest (l.streamOf m) m := le_latest hm.symm hkm
      rcases Nat.eq_or_lt_of_le hle with heq | hlt
      · exact ⟨m, hkm, le_rfl, heq.symm⟩
      · have hstream := streamOf_latest (l := l) (n := m) (l.streamOf m) (by omega)
        have hbelow := latest_lt (l := l) (n := m) (l.streamOf m) (by omega)
        obtain ⟨c, hkc, hcm, hc⟩ := ih _ hbelow hlt (hstream.trans hm)
        exact ⟨c, hkc, by omega, hc⟩

/-- Without a collision an honest ledger stays verified without block `k` exactly when no later
block is on the stream of `k`. -/
theorem verify_deleteBlock_iff (hwf : l.WellFormed sha256) (hdag : l.Dag)
    (hv : Valid blockFormat sha256 l.ledgerBlocks l.ledgerCount)
    (hfree : ¬ Collides sha256 l.bodies) {k : ℕ} (hk : 1 ≤ k) (hkn : k < l.ledgerCount) :
    ledgerVerifyChain sha256 (l.deleteBlock k) = true ↔
      ∀ m, k < m → m < l.ledgerCount → l.streamOf m ≠ l.streamOf k := by
  rw [verifyChain_iff_valid]
  have herase := valid_erase_iff hv (fun i j hi hj => hwf.blockHash_inj hfree hi hj) hk hkn
  refine herase.trans ⟨?_, ?_⟩
  · intro hnone m hkm hmn hstream
    obtain ⟨c, hkc, hcm, hc⟩ := exists_child hk hkm hstream
    have hcn : c < l.ledgerCount := by omega
    have hparent : (l.ledgerBlocks c).parentCount > 0 := by
      rcases hwf.parentCount c (by omega) hcn with h1 | h2
      · rw [h1]; decide
      · rw [h2]; decide
    refine hnone c hkc hcn hparent ?_
    show (l.ledgerBlocks c).prevHash0 = (l.ledgerBlocks k).blockHash
    rw [(hdag.links c (by omega) hcn).first, hc]
  · intro hnone m hkm hmn _ heq
    have hlt := latest_lt (l := l) (n := m) (l.streamOf m) (by omega)
    have hk' : l.latest (l.streamOf m) m = k := by
      refine hwf.blockHash_inj hfree (hlt.trans hmn) hkn ?_
      rw [← (hdag.links m (by omega) hmn).first]
      exact heq
    refine hnone m hkm hmn ?_
    rw [← hk', streamOf_latest _ (by omega)]

end

section
variable (sha256 : List UInt8 → Digest) (prior : LedgerState) (calls : List Call)

/-- **Exactly when a deletion is detected**: if, in the absence of a collision, a later block is on
the same stream. -/
theorem deletion_detected_iff (h : (flushedEvents sha256 prior calls).length ≤ 4095) {k : ℕ}
    (hk : 1 ≤ k) (hkn : k < (afterCalls sha256 prior calls).ledger.ledgerCount - 1) :
    let l := (afterCalls sha256 prior calls).ledger
    (Collides sha256 l.bodies ∨ ledgerVerifyChain sha256 (l.deleteBlock k) = false) ↔
      (Collides sha256 l.bodies ∨
        ∃ m, k < m ∧ m < l.ledgerCount ∧ l.streamOf m = l.streamOf k) := by
  intro l
  have hwf : l.WellFormed sha256 := wellFormed_afterCalls sha256 prior calls
  have hdag : l.Dag := dag_afterCalls sha256 prior calls h
  have hv : Valid blockFormat sha256 l.ledgerBlocks l.ledgerCount :=
    valid_afterCalls sha256 prior calls h
  by_cases hfree : Collides sha256 l.bodies
  · simp [hfree]
  · have hkl : k < l.ledgerCount := lt_of_lt_of_le hkn (Nat.sub_le _ _)
    have hiff := verify_deleteBlock_iff hwf hdag hv hfree hk hkl
    rw [← Bool.not_eq_true, hiff]
    simp [hfree]

end

/-- Three calls and a flush; the first and the third are on one stream. -/
def alternatingRun : List Call :=
  [.enqueue (sampleCall 0), .enqueue (sampleCall 1), .enqueue (sampleCall 2), .flush]

theorem deletion_detected_alternatingRun :
    let l := (afterCalls prefixDigest LedgerState.zero alternatingRun).ledger
    (Collides prefixDigest l.bodies ∨ ledgerVerifyChain prefixDigest (l.deleteBlock 1) = false) ↔
      (Collides prefixDigest l.bodies ∨
        ∃ m, 1 < m ∧ m < l.ledgerCount ∧ l.streamOf m = l.streamOf 1) :=
  deletion_detected_iff prefixDigest LedgerState.zero alternatingRun (by decide +kernel) le_rfl
    (by decide +kernel)

/-! ### A deletion that leaves no trace -/

/-- A call on stream 1, then one on stream 0. -/
def mixedRun : List Call := [.enqueue (sampleCall 1), .enqueue (sampleCall 0), .flush]

def genesisDigest : Digest := #v[
  223, 125, 71, 254, 128, 23, 98, 154, 117, 250, 155, 25, 230, 28, 212, 111, 187, 32, 55, 243, 233,
  224, 148, 198, 135, 28, 5, 235, 236, 62, 230, 21]

def firstDigest : Digest := #v[
  127, 63, 253, 93, 173, 81, 50, 124, 36, 19, 114, 192, 189, 119, 63, 93, 111, 213, 24, 91, 17, 200,
  126, 92, 28, 87, 173, 217, 57, 96, 213, 57]

def secondDigest : Digest := #v[
  250, 65, 135, 143, 242, 178, 103, 186, 81, 134, 101, 222, 104, 249, 36, 32, 186, 219, 93, 57, 160,
  78, 248, 104, 23, 109, 38, 7, 38, 18, 172, 18]

/-- The body of a block of `mixedRun`. -/
def mixedBody (index : UInt32) (streamId parentCount : UInt8) (first second : Digest) :
    List UInt8 :=
  { LedgerBlock.zero with
    index := index
    timestamp := 5
    actionType := LEDGER_ACTION_VFS_WRITE
    streamId := streamId
    parentCount := parentCount
    target := (Vector.replicate LEDGER_TARGET_LEN 0).set 0 97
    prevHash := #v[first, second] : LedgerBlock }.bytes

/-- The values of the kernel's `sha256` that `mixedRun` needs. -/
def mixedTable : List (List UInt8 × Digest) := [
  ((genesisBlock prefixDigest).bytes, genesisDigest),
  (mixedBody 1 1 1 genesisDigest (Vector.replicate 32 0), firstDigest),
  (mixedBody 2 0 2 genesisDigest firstDigest, secondDigest)]

theorem sha256_genesis :
    sha256Bytes zeroStack (genesisBlock prefixDigest).bytes = genesisDigest := by
  decide +kernel

theorem sha256_first : sha256Bytes zeroStack
    (mixedBody 1 1 1 genesisDigest (Vector.replicate 32 0)) = firstDigest := by
  decide +kernel

theorem sha256_second :
    sha256Bytes zeroStack (mixedBody 2 0 2 genesisDigest firstDigest) = secondDigest := by
  decide +kernel

theorem hashVia_mixedTable :
    hashVia mixedTable (sha256Bytes zeroStack) = sha256Bytes zeroStack := by
  apply hashVia_eq
  intro p hp
  simp only [mixedTable, List.mem_cons, List.not_mem_nil, or_false] at hp
  rcases hp with rfl | rfl | rfl
  · exact sha256_genesis
  · exact sha256_first
  · exact sha256_second

/-- With the kernel's own `sha256`: block 1 of `mixedRun` is an interior block, no two bodies
collide, and without it the ledger is still verified. -/
theorem mixedRun_deletion_undetected :
    let sha256 := sha256Bytes zeroStack
    let l := (afterCalls sha256 LedgerState.zero mixedRun).ledger
    (flushedEvents sha256 LedgerState.zero mixedRun).length ≤ 4095 ∧
    1 < l.ledgerCount - 1 ∧
    ledgerVerifyChain sha256 (l.deleteBlock 1) = true ∧
    ¬ Collides sha256 l.bodies := by
  rw [← hashVia_mixedTable]
  intro sha256 l
  have hwf : l.WellFormed sha256 := wellFormed_afterCalls _ _ _
  refine ⟨by decide +kernel, by decide +kernel, by decide +kernel, hwf.not_collides ?_⟩
  decide +kernel

end LunaOs
