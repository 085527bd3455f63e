import LunaOs.Lib.Bitmap
import LunaOs.Lib.CLayout
import LunaOs.Memory
import LunaOs.StringOps

/-! # The arena allocator, `kernel/arena.c`

An arena hands out blocks of a pool by moving `cursor` up.  `size_t` has 32 bits, and the rounding of a
size, the product in `arena_calloc` and the sum that is compared with the capacity all wrap around.
`arenaAlloc_cases` says what a request does to the cursor in each case. -/

namespace LunaOs

open CLayout

structure Arena where
  pool : UInt32
  capacity : UInt32
  cursor : UInt32
  highWatermark : UInt32
  name : CString
  allocCount : UInt32
  oomCount : UInt32

structure ArenaCheckpoint where
  cursor : UInt32
  allocCount : UInt32

/-- `arena_init`, which clears the pool. -/
def arenaInit (m : Memory) (pool size : UInt32) (name : CString) : Arena × Memory :=
  ({ pool, capacity := size, cursor := 0, highWatermark := 0, name, allocCount := 0, oomCount := 0 },
    lunaMemset m pool 0 size)

/-- `NULL` is 0. -/
def arenaAlloc (a : Arena) (size : UInt32) : UInt32 × Arena :=
  let aligned := (size + 7) &&& ~~~7
  if a.cursor + aligned > a.capacity then (0, { a with oomCount := a.oomCount + 1 })
  else
    let ptr := a.pool + a.cursor
    let a := { a with cursor := a.cursor + aligned, allocCount := a.allocCount + 1 }
    let a := if a.cursor > a.highWatermark then { a with highWatermark := a.cursor } else a
    (ptr, a)

/-- `arena_calloc`: the product may wrap around. -/
def arenaCalloc (a : Arena) (m : Memory) (count elemSize : UInt32) : UInt32 × Arena × Memory :=
  let total := count * elemSize
  let (ptr, a) := arenaAlloc a total
  (ptr, a, if ptr ≠ 0 then lunaMemset m ptr 0 total else m)

/-- It returns unless `luna_strlen` finds no end. -/
def arenaStrdup (a : Arena) (m : Memory) (str : UInt32) : Option (UInt32 × Arena × Memory) := do
  let len ← lunaStrlen m.bytes str
  let (buf, a) := arenaAlloc a (len + 1)
  if buf = 0 then some (0, a, m)
  else
    let m := lunaMemcpy m buf str len
    some (buf, a, m.store (buf + len) 0)

/-- The blocks are forgotten and not cleared. -/
def arenaReset (a : Arena) : Arena := { a with cursor := 0, allocCount := 0 }

def arenaSave (a : Arena) : ArenaCheckpoint := ⟨a.cursor, a.allocCount⟩

def arenaRestore (a : Arena) (cp : ArenaCheckpoint) : Arena :=
  { a with cursor := cp.cursor, allocCount := cp.allocCount }

/-- In percent of the capacity. -/
def arenaWatermarkPct (a : Arena) : UInt32 :=
  if a.capacity = 0 then 0
  else (a.highWatermark.toUInt64 * 100 / a.capacity.toUInt64).toUInt32

/-! ### What a request does -/

namespace Arena

/-- A request that fails. -/
def oom (a : Arena) : Arena := { a with oomCount := a.oomCount + 1 }

/-- A request that succeeds and leaves the cursor at `c`. -/
def bump (a : Arena) (c : UInt32) : Arena :=
  { a with
    cursor := c
    allocCount := a.allocCount + 1
    highWatermark := if c > a.highWatermark then c else a.highWatermark }

theorem bump_highWatermark (a : Arena) (c : UInt32) :
    (a.bump c).highWatermark.toNat = max a.highWatermark.toNat c.toNat := by
  simp only [bump, gt_iff_lt, UInt32.lt_iff_toNat_lt]
  split_ifs <;> omega

end Arena

theorem toNat_aligned (size : UInt32) :
    ((size + 7) &&& ~~~7).toNat = alignUp size.toNat 8 % 2 ^ 32 := by
  have hmask : ∀ j < 32, (~~~7#32).getLsbD j = decide (3 ≤ j) := by decide
  have hround : ((size + 7) &&& ~~~7).toNat = (size + 7).toNat / 8 * 8 :=
    Bitmap.toNat_and_highMask (x := (size + 7).toBitVec) hmask
  have hlt := size.toNat_lt
  have hsum : (size + 7).toNat = (size.toNat + 7) % 2 ^ 32 := UInt32.toNat_add size 7
  unfold alignUp
  rw [hround, hsum]
  omega

theorem arenaAlloc_eq (a : Arena) (size : UInt32) :
    arenaAlloc a size =
      if a.cursor + ((size + 7) &&& ~~~7) > a.capacity then (0, a.oom)
      else (a.pool + a.cursor, a.bump (a.cursor + ((size + 7) &&& ~~~7))) := by
  unfold arenaAlloc Arena.oom Arena.bump
  dsimp only
  split_ifs <;> rfl

/-- **What a request does**, by the mathematical sum of the cursor and the rounded size: it succeeds
within the capacity, it fails beyond the capacity, and beyond the word it succeeds with a cursor that
has gone back. -/
theorem arenaAlloc_cases (a : Arena) (hcursor : a.cursor.toNat ≤ a.capacity.toNat) (size : UInt32) :
    (a.cursor.toNat + alignUp size.toNat 8 ≤ a.capacity.toNat ∧
      ∃ c, arenaAlloc a size = (a.pool + a.cursor, a.bump c) ∧
        c.toNat = a.cursor.toNat + alignUp size.toNat 8) ∨
    (a.capacity.toNat < a.cursor.toNat + alignUp size.toNat 8 ∧
      a.cursor.toNat + alignUp size.toNat 8 < 2 ^ 32 ∧ arenaAlloc a size = (0, a.oom)) ∨
    (2 ^ 32 ≤ a.cursor.toNat + alignUp size.toNat 8 ∧
      ∃ c, arenaAlloc a size = (a.pool + a.cursor, a.bump c) ∧ c.toNat ≤ a.capacity.toNat) := by
  have hsum : (a.cursor + ((size + 7) &&& ~~~7)).toNat =
      (a.cursor.toNat + alignUp size.toNat 8) % 2 ^ 32 := by
    rw [UInt32.toNat_add, toNat_aligned, Nat.add_mod_mod]
  have hround : alignUp size.toNat 8 ≤ 2 ^ 32 := by
    have := size.toNat_lt
    unfold alignUp
    omega
  have hcap := a.capacity.toNat_lt
  rw [arenaAlloc_eq]
  by_cases hwrap : a.cursor.toNat + alignUp size.toNat 8 < 2 ^ 32
  · rw [Nat.mod_eq_of_lt hwrap] at hsum
    by_cases hfit : a.cursor.toNat + alignUp size.toNat 8 ≤ a.capacity.toNat
    · left
      rw [if_neg (by rw [gt_iff_lt, UInt32.lt_iff_toNat_lt]; omega)]
      exact ⟨hfit, _, rfl, hsum⟩
    · right; left
      rw [if_pos (by rw [gt_iff_lt, UInt32.lt_iff_toNat_lt]; omega)]
      exact ⟨by omega, hwrap, rfl⟩
  · right; right
    rw [if_neg (by rw [gt_iff_lt, UInt32.lt_iff_toNat_lt]; omega)]
    exact ⟨by omega, _, rfl, by omega⟩

end LunaOs
