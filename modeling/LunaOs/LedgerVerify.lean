import LunaOs.Ledger
import LunaOs.Lib.HashChain

/-! # What the verifier checks

`ledger_verify_chain` decides `HashChain.Valid` for the reading of blocks in `blockFormat`:
every block after genesis stores the hash of its bytes and, if it counts a parent, its first parent
hash is the hash of an earlier block.

This is enough for tamper evidence along first parents: two verified ledgers that share one block
hash share everything that block leads back to (`verified_walks_agree`). -/

namespace LunaOs

open HashChain

/-- A block read as an entry of a hash-linked log. -/
def blockFormat : Format LedgerBlock (List UInt8) Digest where
  body := LedgerBlock.bytes
  digest := LedgerBlock.blockHash
  prev := fun b => b.prevHash0
  hasPrev := fun b => b.parentCount > 0
  prev_congr := by
    intro b b' h
    show b.prevHash0 = b'.prevHash0
    unfold LedgerBlock.prevHash0
    rw [(LedgerBlock.sameBody_of_bytes h).prevHash]

/-- The bodies of the blocks of a ledger. -/
def Ledger.bodies (l : Ledger) : Set (List UInt8) :=
  HashChain.bodies blockFormat l.ledgerBlocks l.ledgerCount

/-- The position `k` steps back from `i`: a step leads to the earliest earlier block whose hash is
the first parent hash. -/
def Ledger.walk (l : Ledger) (k i : ℕ) : Option ℕ :=
  HashChain.walk blockFormat l.ledgerBlocks k i

section
variable {sha256 : List UInt8 → Digest}

theorem findParent_iff (blocks : ℕ → LedgerBlock) (prev : Digest) (r j : ℕ) :
    findParent blocks prev r j = true ↔ ∃ m, j ≤ m ∧ m < j + r ∧ (blocks m).blockHash = prev := by
  induction r generalizing j with
  | zero =>
      simp only [findParent, Bool.false_eq_true, false_iff]
      rintro ⟨m, h1, h2, -⟩
      omega
  | succ r ih =>
      unfold findParent
      by_cases h : (blocks j).blockHash = prev
      · rw [if_pos ((lunaMemcmp_array _ _).mpr h)]
        simp only [true_iff]
        exact ⟨j, le_rfl, by omega, h⟩
      · rw [if_neg fun h0 => h ((lunaMemcmp_array _ _).mp h0), ih]
        constructor
        · rintro ⟨m, h1, h2, hm⟩
          exact ⟨m, by omega, by omega, hm⟩
        · rintro ⟨m, h1, h2, hm⟩
          have hne : m ≠ j := by
            rintro rfl
            exact h hm
          exact ⟨m, by omega, by omega, hm⟩

/-- What one turn of the loop of `ledger_verify_chain` checks. -/
def BlockOk (sha256 : List UInt8 → Digest) (blocks : ℕ → LedgerBlock) (i : ℕ) : Prop :=
  (blocks i).blockHash = sha256 (blocks i).bytes ∧
    ((blocks i).parentCount > 0 → ∃ j < i, (blocks j).blockHash = (blocks i).prevHash0)

theorem verifyLoop_succ (blocks : ℕ → LedgerBlock) (r i : ℕ) :
    verifyLoop sha256 blocks (r + 1) i = true ↔
      BlockOk sha256 blocks i ∧ verifyLoop sha256 blocks r (i + 1) = true := by
  have hfind : findParent blocks (blocks i).prevHash0 i 0 = true ↔
      ∃ j < i, (blocks j).blockHash = (blocks i).prevHash0 := by
    rw [findParent_iff]
    simp
  rw [BlockOk, verifyLoop]
  by_cases hhash : (blocks i).blockHash = sha256 (blocks i).bytes
  · rw [if_neg (not_not.mpr ((lunaMemcmp_array _ _).mpr hhash.symm)), ← hfind]
    by_cases hparent : (blocks i).parentCount > 0 ∧
        findParent blocks (blocks i).prevHash0 i 0 = false
    · rw [if_pos hparent]
      simp [hparent]
    · rw [if_neg hparent]
      rw [not_and, Bool.not_eq_false] at hparent
      simp only [hhash, true_and, iff_and_self]
      exact fun _ => hparent
  · rw [if_pos fun h => hhash ((lunaMemcmp_array _ _).mp h).symm]
    simp [hhash]

theorem verifyLoop_iff (blocks : ℕ → LedgerBlock) (r i : ℕ) :
    verifyLoop sha256 blocks r i = true ↔ ∀ m, i ≤ m → m < i + r → BlockOk sha256 blocks m := by
  induction r generalizing i with
  | zero =>
      simp only [verifyLoop, true_iff]
      intro m h1 h2
      omega
  | succ r ih =>
      rw [verifyLoop_succ, ih]
      constructor
      · rintro ⟨h0, hrest⟩ m h1 h2
        rcases Nat.eq_or_lt_of_le h1 with rfl | hlt
        · exact h0
        · exact hrest m hlt (by omega)
      · intro h
        exact ⟨h i le_rfl (by omega), fun m h1 h2 => h m (by omega) (by omega)⟩

/-- **The verifier decides validity.** -/
theorem verifyChain_iff_valid (l : Ledger) :
    ledgerVerifyChain sha256 l = true ↔
      Valid blockFormat sha256 l.ledgerBlocks l.ledgerCount := by
  unfold ledgerVerifyChain
  rw [verifyLoop_iff]
  constructor
  · intro h
    exact ⟨fun i hi hn => (h i hi (by omega)).1, fun i hi hn => (h i hi (by omega)).2⟩
  · intro h i hi hn
    exact ⟨h.isSealed i hi (by omega), h.linked i hi (by omega)⟩

/-- **Tamper evidence**: if two verified ledgers agree on the hash of one block, then walking back
along first parents from there they agree in every hashed field of every block reached, or they
contain two different bodies with one hash. -/
theorem verified_walks_agree {A B : Ledger} (hA : ledgerVerifyChain sha256 A = true)
    (hB : ledgerVerifyChain sha256 B = true) {a b : ℕ} (ha : a < A.ledgerCount)
    (hb : b < B.ledgerCount)
    (hab : (A.ledgerBlocks a).blockHash = (B.ledgerBlocks b).blockHash) :
    Collides sha256 (A.bodies ∪ B.bodies) ∨
      ∀ k i j, A.walk k a = some i → B.walk k b = some j → i ≠ 0 → j ≠ 0 →
        (A.ledgerBlocks i).SameBody (B.ledgerBlocks j) ∧
        (A.ledgerBlocks i).blockHash = (B.ledgerBlocks j).blockHash := by
  by_cases hfree : Collides sha256 (A.bodies ∪ B.bodies)
  · exact .inl hfree
  · refine .inr fun k i j hi hj hi0 hj0 => ?_
    have hsealA := ((verifyChain_iff_valid A).mp hA).isSealed
    have hsealB := ((verifyChain_iff_valid B).mp hB).isSealed
    obtain ⟨hbody, hdigest⟩ :=
      walk_agree hsealA hsealB hfree ha hb hab k hi hj hi0 hj0
    exact ⟨LedgerBlock.sameBody_of_bytes hbody, hdigest⟩

end

/-- A ledger with two blocks after genesis, and the same ledger with one more. -/
def shortLedger : Ledger :=
  finalizeEvent prefixDigest
    (finalizeEvent prefixDigest (ledgerGenesis prefixDigest Ledger.zero) LedgerEvent.zero) LedgerEvent.zero

def longLedger : Ledger := finalizeEvent prefixDigest shortLedger LedgerEvent.zero

theorem short_long_collisionFree : ¬ Collides prefixDigest (shortLedger.bodies ∪ longLedger.bodies) := by
  have hinj : ∀ i < 4, ∀ j < 4, prefixDigest (longLedger.ledgerBlocks i).bytes =
      prefixDigest (longLedger.ledgerBlocks j).bytes → i = j := by decide +kernel
  have hmem : ∀ x ∈ shortLedger.bodies ∪ longLedger.bodies, ∃ i < 4, (longLedger.ledgerBlocks i).bytes = x := by
    rintro x (⟨i, hi, rfl⟩ | ⟨i, hi, rfl⟩)
    · exact ⟨i, Nat.lt_succ_of_lt hi, congrArg LedgerBlock.bytes (Function.update_of_ne hi.ne _ _)⟩
    · exact ⟨i, hi, rfl⟩
  rintro ⟨x, hx, y, hy, hne, heq⟩
  obtain ⟨i, hi, rfl⟩ := hmem x hx
  obtain ⟨j, hj, rfl⟩ := hmem y hy
  obtain rfl := hinj i hi j hj heq
  exact hne rfl

/-- From the newest block of the one and the block before the newest of the other. -/
theorem verified_walks_agree_short_long :
    shortLedger.walk 1 2 = some 1 ∧ longLedger.walk 1 2 = some 1 ∧
      ∀ k i j, shortLedger.walk k 2 = some i → longLedger.walk k 2 = some j → i ≠ 0 → j ≠ 0 →
        (shortLedger.ledgerBlocks i).SameBody (longLedger.ledgerBlocks j) ∧
        (shortLedger.ledgerBlocks i).blockHash = (longLedger.ledgerBlocks j).blockHash :=
  ⟨by decide +kernel, by decide +kernel, (verified_walks_agree (by decide +kernel) (by decide +kernel) (by decide)
    (by decide) (by decide +kernel)).resolve_left short_long_collisionFree⟩

/-! ### What a verified ledger may look like -/

/-- **Soundness of the verifier**: every block after genesis stores the hash of its bytes, and the
first parent hash of a block that counts a parent is the hash of an earlier block. -/
theorem verifyChain_sound {sha256 : List UInt8 → Digest} {l : Ledger}
    (h : ledgerVerifyChain sha256 l = true) :
    ∀ i, 1 ≤ i → i < l.ledgerCount →
      (l.ledgerBlocks i).blockHash = sha256 (l.ledgerBlocks i).bytes ∧
      ((l.ledgerBlocks i).parentCount > 0 →
        ∃ j < i, (l.ledgerBlocks j).blockHash = (l.ledgerBlocks i).prevHash0) := by
  have hvalid := (verifyChain_iff_valid l).mp h
  intro i hi hn
  exact ⟨hvalid.isSealed i hi hn, hvalid.linked i hi hn⟩

theorem verifyChain_sound_longLedger :
    longLedger.ledgerCount = 4 ∧ ∀ i, 1 ≤ i → i < longLedger.ledgerCount →
      (longLedger.ledgerBlocks i).blockHash = prefixDigest (longLedger.ledgerBlocks i).bytes ∧
      ((longLedger.ledgerBlocks i).parentCount > 0 →
        ∃ j < i, (longLedger.ledgerBlocks j).blockHash = (longLedger.ledgerBlocks i).prevHash0) :=
  ⟨by decide, verifyChain_sound (by decide +kernel)⟩

/-- `b` with the hash of its bytes. -/
def sealBlock (sha256 : List UInt8 → Digest) (b : LedgerBlock) : LedgerBlock :=
  { b with blockHash := sha256 b.bytes }

/-- A digest other than `d` and other than `e`. -/
def otherDigest (d e : Digest) : Digest := (d.set 0 (d[0] + 1)).set 1 (e[1] + 1)

/-- A forged ledger: its genesis block stores a wrong hash, block 1 has no parent and a wrong
index, block 2 has a merge parent that is the hash of nothing, block 3 counts three parents. -/
def forgedLedger (sha256 : List UInt8 → Digest) : Ledger :=
  let digest := sha256 LedgerBlock.zero.bytes
  let b0 := { LedgerBlock.zero with blockHash := otherDigest digest digest }
  let b1 := sealBlock sha256 { LedgerBlock.zero with index := 7 }
  let b2 := sealBlock sha256 { LedgerBlock.zero with
    index := 2
    parentCount := 2
    prevHash := #v[b1.blockHash, otherDigest b0.blockHash b1.blockHash] }
  let b3 := sealBlock sha256 { LedgerBlock.zero with
    index := 3
    parentCount := 3
    prevHash := #v[b1.blockHash, b1.blockHash] }
  { Ledger.zero with
    ledgerBlocks := fun | 0 => b0 | 1 => b1 | 2 => b2 | _ => b3
    ledgerCount := 4 }

theorem otherDigest_ne_left (d e : Digest) : otherDigest d e ≠ d := by
  intro h
  have := congrArg (fun v : Digest => v[0]) h
  simp [otherDigest] at this

theorem otherDigest_ne_right (d e : Digest) : otherDigest d e ≠ e := by
  intro h
  have := congrArg (fun v : Digest => v[1]) h
  simp [otherDigest] at this

section
variable (sha256 : List UInt8 → Digest)

theorem verify_forgedLedger : ledgerVerifyChain sha256 (forgedLedger sha256) = true := by
  rw [verifyChain_iff_valid]
  have hprev : ¬ blockFormat.hasPrev ((forgedLedger sha256).ledgerBlocks 1) := lt_irrefl 0
  have h1 : Valid blockFormat sha256 (forgedLedger sha256).ledgerBlocks 2 := by
    refine ⟨?_, ?_⟩
    · intro i hi hn
      obtain rfl : i = 1 := by omega
      rfl
    · intro i hi hn h
      obtain rfl : i = 1 := by omega
      exact absurd h hprev
  have h2 := h1.snoc rfl ⟨1, by omega, rfl⟩
  exact h2.snoc rfl ⟨1, by omega, rfl⟩

theorem forgedLedger_genesis : ((forgedLedger sha256).ledgerBlocks 0).blockHash ≠
    sha256 ((forgedLedger sha256).ledgerBlocks 0).bytes :=
  otherDigest_ne_left _ _

theorem forgedLedger_merge_parent :
    ∀ j < 2, ((forgedLedger sha256).ledgerBlocks j).blockHash ≠
      ((forgedLedger sha256).ledgerBlocks 2).prevHash1 := by
  intro j hj hd
  match j, hj with
  | 0, _ => exact otherDigest_ne_left _ _ hd.symm
  | 1, _ => exact otherDigest_ne_right _ _ hd.symm

end

/-- With the kernel's own `sha256`: the forged ledger passes although its genesis hash is wrong, a
block has no parent, another counts three, a merge parent is the hash of no earlier block and an
index is not a position. -/
theorem forgedLedger_passes :
    let sha256 := sha256Bytes zeroStack
    let l := forgedLedger sha256
    ledgerVerifyChain sha256 l = true ∧
    ¬ (∀ i < l.ledgerCount, (l.ledgerBlocks i).blockHash = sha256 (l.ledgerBlocks i).bytes) ∧
    ¬ (∀ i, 1 ≤ i → i < l.ledgerCount → (l.ledgerBlocks i).parentCount ≠ 0) ∧
    ¬ (∀ i, 1 ≤ i → i < l.ledgerCount → (l.ledgerBlocks i).parentCount ≠ 3) ∧
    ¬ (∀ i, 1 ≤ i → i < l.ledgerCount → (l.ledgerBlocks i).parentCount = 2 →
        ∃ j < i, (l.ledgerBlocks j).blockHash = (l.ledgerBlocks i).prevHash1) ∧
    ¬ (∀ i < l.ledgerCount, (l.ledgerBlocks i).index = UInt32.ofNat i) := by
  intro sha256 l
  have hcount : l.ledgerCount = 4 := rfl
  rw [hcount]
  refine ⟨verify_forgedLedger sha256, ?_, ?_, ?_, ?_, ?_⟩
  · intro h
    exact forgedLedger_genesis sha256 (h 0 (by omega))
  · intro h
    exact h 1 (by omega) (by omega) rfl
  · intro h
    exact h 3 (by omega) (by omega) rfl
  · intro h
    obtain ⟨j, hj, hd⟩ := h 2 (by omega) (by omega) rfl
    exact forgedLedger_merge_parent sha256 j hj hd
  · intro h
    have hindex : (7 : UInt32) = UInt32.ofNat 1 := h 1 (by omega)
    exact absurd hindex (by decide)

end LunaOs
