import LunaOs.LedgerContents
import LunaOs.Lib.CLayout

/-! # The bytes of a `LedgerBlock` on each target

`types.h` serves two data models: with `ARCH_X86` a `uint64_t` is aligned to 4 bytes inside a struct,
with `ARCH_ARM64` to 8.  The members of `LedgerBlock` are laid out for either of them, and the blocks
that `ledger_genesis` and `ledger_flush_task` finalise are hashed over their first
`sizeof(LedgerBlock) - 32` bytes, as the source has it.

On x86 these are the bytes before `block_hash`, which `LedgerBlock.bytes` lists, in every run of the ledger
(`ledger_blocks_covered`).  On ARM64 the struct
is padded behind `block_hash`, the hashed bytes reach into it, and they are zero only as long as the
hash has not been stored. -/

namespace LunaOs

open CLayout Endian

/-- The targets `types.h` tells apart. -/
inductive DataModel where
  | x86
  | arm64
deriving DecidableEq

/-- The alignment of a `uint64_t` member. -/
def DataModel.u64Align : DataModel → ℕ
  | x86 => 4
  | arm64 => 8

theorem DataModel.u64Align_pos (dm : DataModel) : 0 < dm.u64Align := by cases dm <;> decide

def u32Type : FieldType := ⟨4, 4, by decide⟩

def u64Type (dm : DataModel) : FieldType := ⟨8, dm.u64Align, dm.u64Align_pos⟩

/-- An array of `n` bytes; `uint8_t` itself for `n = 1`. -/
def bytesType (n : ℕ) : FieldType := ⟨n, 1, Nat.one_pos⟩

/-- The size of `block_hash`, the `32` of the source. -/
abbrev HASH_SIZE : ℕ := 32

namespace LedgerBlock

/-- The members before `block_hash`. -/
def bodyTypes (dm : DataModel) : List FieldType :=
  [u32Type, u64Type dm, bytesType 1, bytesType 1, bytesType 1, bytesType 1,
    bytesType LEDGER_TARGET_LEN, bytesType (2 * HASH_SIZE)]

def hashType : FieldType := bytesType HASH_SIZE

/-- `sizeof(LedgerBlock)` -/
def sizeofBlock (dm : DataModel) : ℕ := sizeof (bodyTypes dm ++ [hashType])

/-- Where `block_hash` begins. -/
def hashOffset (dm : DataModel) : ℕ := offsetof (bodyTypes dm) hashType

/-- The members that are hashed, with their bytes. -/
def bodyMembers (dm : DataModel) (b : LedgerBlock) : List Member :=
  [⟨u32Type, leBytes 4 b.index.toNat, by simp [u32Type]⟩,
   ⟨u64Type dm, leBytes 8 b.timestamp.toNat, by simp [u64Type]⟩,
   ⟨bytesType 1, [b.actionType], rfl⟩,
   ⟨bytesType 1, [b.streamId], rfl⟩,
   ⟨bytesType 1, [b.parentCount], rfl⟩,
   ⟨bytesType 1, [b.reserved], rfl⟩,
   ⟨bytesType LEDGER_TARGET_LEN, b.target.toList, b.target.length_toList⟩,
   ⟨bytesType (2 * HASH_SIZE), b.prevHash0.toList ++ b.prevHash1.toList, by simp [bytesType, HASH_SIZE]⟩]

def hashMember (b : LedgerBlock) : Member := ⟨hashType, b.blockHash.toList, b.blockHash.length_toList⟩

/-- The bytes of the block. -/
def imageOn (dm : DataModel) (b : LedgerBlock) : List UInt8 := image (b.bodyMembers dm ++ [b.hashMember])

/-- The first `sizeof(LedgerBlock) - 32` bytes. -/
def hashedOn (dm : DataModel) (b : LedgerBlock) : List UInt8 :=
  (b.imageOn dm).take (sizeofBlock dm - HASH_SIZE)

/-- The block while its hash is not yet stored. -/
def unhashed (b : LedgerBlock) : LedgerBlock := { b with blockHash := zero.blockHash }

theorem imageOn_take_hashOffset (dm : DataModel) (b : LedgerBlock) :
    (b.imageOn dm).take (hashOffset dm) = (b.unhashed.imageOn dm).take (hashOffset dm) := by
  have hb := image_take_offset (b.bodyMembers dm) b.hashMember
  have hu := image_take_offset (b.unhashed.bodyMembers dm) b.unhashed.hashMember
  exact hb.trans hu.symm

/-- The hashed length is the offset of `block_hash` on x86 alone: on ARM64 the struct is padded
behind it. -/
theorem sizeofBlock_sub_eq_iff (dm : DataModel) :
    sizeofBlock dm - HASH_SIZE = hashOffset dm ↔ dm = .x86 := by
  have hpadded : structAlign (bodyTypes dm ++ [hashType]) ∣ endOf (bodyTypes dm ++ [hashType]) 0 ↔
      dm = .x86 := by
    cases dm <;> decide
  exact (sizeof_sub_eq_iff (bodyTypes dm) hashType).trans hpadded

theorem hashedOn_x86_eq_take (b : LedgerBlock) :
    b.hashedOn .x86 = (b.imageOn .x86).take (hashOffset .x86) := by
  unfold hashedOn
  rw [(sizeofBlock_sub_eq_iff .x86).mpr rfl]

/-- **On x86 the hashed bytes are those `bytes` lists.** -/
theorem hashedOn_x86 (b : LedgerBlock) : b.hashedOn .x86 = b.bytes := by
  have htake := image_take_offset (b.bodyMembers .x86) b.hashMember
  have hbody : before (b.bodyMembers .x86) hashType = b.bytes := by
    simp [before, place, bodyMembers, bytes, header, u32Type, u64Type, bytesType, hashType, types, endOf,
      offsetof, FieldType.offset, alignUp, DataModel.u64Align, HASH_SIZE]
  rw [hashedOn_x86_eq_take]
  exact htake.trans hbody

theorem hashedOn_unhashed_x86 (b : LedgerBlock) : b.unhashed.hashedOn .x86 = b.hashedOn .x86 := by
  rw [hashedOn_x86_eq_take, hashedOn_x86_eq_take, imageOn_take_hashOffset .x86 b]

end LedgerBlock

/-! ### Blocks as they are finalised -/

/-- What `sha256((uint8_t*)b, sizeof(LedgerBlock) - 32, b->block_hash)` leaves in the block. -/
def hashBlock (dm : DataModel) (sha256 : List UInt8 → Digest) (b : LedgerBlock) : LedgerBlock :=
  { b with blockHash := sha256 (b.hashedOn dm) }

/-- A block that is finalised: genesis, or the block of an event in any state of the ledger. -/
inductive Finalised where
  | genesis
  | event (l : Ledger) (ev : LedgerEvent)

namespace Finalised

/-- The block just before it is hashed: the statements up to there are those of `genesisBlock` and
`buildBlock` on every target. -/
def body (sha256 : List UInt8 → Digest) : Finalised → LedgerBlock
  | genesis => (genesisBlock sha256).unhashed
  | event l ev => (buildBlock sha256 l ev).unhashed

def block (dm : DataModel) (sha256 : List UInt8 → Digest) (f : Finalised) : LedgerBlock :=
  hashBlock dm sha256 (f.body sha256)

section
variable (sha256 : List UInt8 → Digest)

theorem hashBlock_x86 {b b' : LedgerBlock} (hb : b = { b' with blockHash := sha256 b'.bytes }) :
    hashBlock .x86 sha256 b.unhashed = b := by
  have hbytes : b.unhashed.bytes = b'.bytes := by rw [hb]; rfl
  unfold hashBlock
  rw [LedgerBlock.hashedOn_x86, hbytes, hb]
  rfl

theorem block_genesis_x86 : genesis.block .x86 sha256 = genesisBlock sha256 := by
  apply hashBlock_x86
  rfl

theorem block_event_x86 (l : Ledger) (ev : LedgerEvent) :
    (event l ev).block .x86 sha256 = buildBlock sha256 l ev := by
  apply hashBlock_x86
  rfl

theorem blockHash_block (dm : DataModel) (f : Finalised) :
    (f.block dm sha256).blockHash = sha256 ((f.block dm sha256).unhashed.hashedOn dm) := by
  cases f <;> rfl

end

end Finalised

/-- The hashed bytes end where `block_hash` begins, and hashing them again gives the stored hash. -/
structure HashCoversBody (dm : DataModel) (sha256 : List UInt8 → Digest) (b : LedgerBlock) : Prop where
  covers : LedgerBlock.sizeofBlock dm - HASH_SIZE = LedgerBlock.hashOffset dm
  recomputed : sha256 (b.hashedOn dm) = b.blockHash

theorem Finalised.hashCoversBody_x86 (sha256 : List UInt8 → Digest) (f : Finalised) :
    HashCoversBody .x86 sha256 (f.block .x86 sha256) := by
  refine ⟨(LedgerBlock.sizeofBlock_sub_eq_iff .x86).mpr rfl, ?_⟩
  rw [blockHash_block, LedgerBlock.hashedOn_unhashed_x86]

/-- **The hash of a finalised block covers exactly its body on x86, and on no other target.** -/
theorem hashCoversBody_iff (dm : DataModel) (sha256 : List UInt8 → Digest) (f : Finalised) :
    HashCoversBody dm sha256 (f.block dm sha256) ↔ dm = .x86 := by
  constructor
  · intro h
    exact (LedgerBlock.sizeofBlock_sub_eq_iff dm).mp h.covers
  · rintro rfl
    exact f.hashCoversBody_x86 sha256

/-! ### The blocks of a run -/

/-- Every block that counts is one that was finalised on x86. -/
structure Ledger.FinalisedBlocks (sha256 : List UInt8 → Digest) (l : Ledger) : Prop where
  count_pos : 1 ≤ l.ledgerCount
  block : ∀ i < l.ledgerCount, ∃ f : Finalised, l.ledgerBlocks i = f.block .x86 sha256

section
variable (sha256 : List UInt8 → Digest)

theorem finalisedBlocks_genesis (l : Ledger) : (ledgerGenesis sha256 l).FinalisedBlocks sha256 where
  count_pos := le_rfl
  block i hi := by
    obtain rfl : i = 0 := Nat.lt_one_iff.mp hi
    exact ⟨.genesis, (Finalised.block_genesis_x86 sha256).symm⟩

theorem Ledger.FinalisedBlocks.finalizeEvent {l : Ledger} (h : l.FinalisedBlocks sha256) (ev : LedgerEvent) :
    (finalizeEvent sha256 l ev).FinalisedBlocks sha256 := by
  constructor
  case count_pos =>
    rw [finalizeEvent_ledgerCount]
    exact Nat.le_add_left _ _
  case block =>
    intro i hi
    rw [finalizeEvent_ledgerCount] at hi
    by_cases hslot : i = slot l
    · refine ⟨.event (recycle l) ev, ?_⟩
      rw [hslot, finalizeEvent_slot, Finalised.block_event_x86]
      rfl
    · rw [finalizeEvent_of_ne sha256 l ev hslot]
      have hle := slot_le h.count_pos
      exact h.block i (by omega)

/-- **In every run the hash of every block covers its body**: it is that of the bytes in memory up to
`block_hash`, and hashing these again gives it. -/
theorem ledger_blocks_covered (prior : LedgerState) (calls : List Call) :
    ∀ i < (afterCalls sha256 prior calls).ledger.ledgerCount,
      HashCoversBody .x86 sha256 ((afterCalls sha256 prior calls).ledger.ledgerBlocks i) := by
  have hrun : (afterCalls sha256 prior calls).ledger.FinalisedBlocks sha256 := by
    rw [afterCalls_ledger]
    exact Runs.run_invariant (fun _ ev h => h.finalizeEvent sha256 ev) (finalisedBlocks_genesis sha256 _) _
  intro i hi
  obtain ⟨f, hf⟩ := hrun.block i hi
  rw [hf]
  exact f.hashCoversBody_x86 sha256

end

theorem ledger_blocks_covered_sampleRun : HashCoversBody .x86 prefixDigest
    ((afterCalls prefixDigest LedgerState.zero sampleRun).ledger.ledgerBlocks 2) :=
  ledger_blocks_covered prefixDigest LedgerState.zero sampleRun 2 (by decide +kernel)

/-- A byte function that marks the last byte it is given. -/
def lastByteDigest (bytes : List UInt8) : Digest := Vector.replicate 32 (bytes.getLastD 0 + 1)

/-- On ARM64 genesis is hashed over 152 bytes although `block_hash` begins at 148, and hashing the
finished block again gives another digest. -/
theorem hashCoversBody_genesis_arm64 :
    LedgerBlock.sizeofBlock .arm64 - HASH_SIZE = 152 ∧ LedgerBlock.hashOffset .arm64 = 148 ∧
    lastByteDigest ((Finalised.genesis.block .arm64 lastByteDigest).hashedOn .arm64) ≠
      (Finalised.genesis.block .arm64 lastByteDigest).blockHash ∧
    ¬ HashCoversBody .arm64 lastByteDigest (Finalised.genesis.block .arm64 lastByteDigest) := by
  refine ⟨by decide, by decide, by decide +kernel, ?_⟩
  intro h
  exact absurd h.covers (by decide)

end LunaOs
