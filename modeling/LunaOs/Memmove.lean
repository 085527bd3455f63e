import LunaOs.Lib.Moves
import LunaOs.Memory

/-! # `luna_memmove` of `kernel/string.c`

Source and destination may overlap, so that a loop writes bytes of the source while it copies.  Each
loop is a list of moves of one byte (`byteMoves`), made upwards where the destination starts below the
source and downwards where it starts above it.  In that order no move reads a byte that an earlier one
has written, whatever the distance of the two ranges. -/

namespace LunaOs

/-- `while (n--) *--d = *--s;` -/
def memmoveBackward : ℕ → Memory → UInt32 → UInt32 → Memory
  | 0, m, _, _ => m
  | n + 1, m, d, s => memmoveBackward n (m.store (d - 1) (m.bytes (s - 1))) (d - 1) (s - 1)

/-- The first loop, `while (n--) *d++ = *s++;`, is also the last one of `luna_memcpy`. -/
def lunaMemmove (m : Memory) (dst src n : UInt32) : Memory :=
  if dst < src then memcpyTail n.toNat m dst src
  else if dst > src then memmoveBackward n.toNat m (dst + n) (src + n)
  else m

/-! ### The loops as moves -/

/-- The byte at `s + j` goes to `d + j`, for each `j` below `n`. -/
def byteMoves (d s : UInt32) (n : ℕ) : List (UInt32 × UInt32) :=
  (List.range n).map fun j => (d + UInt32.ofNat j, s + UInt32.ofNat j)

theorem byteMoves_first (d s : UInt32) (n : ℕ) :
    byteMoves d s (n + 1) = (d, s) :: byteMoves (d + 1) (s + 1) n := by
  have hnext : ∀ a : UInt32, ∀ j, a + UInt32.ofNat (j + 1) = a + 1 + UInt32.ofNat j := by
    intro a j
    rw [Nat.add_comm, add_ofNat_add]
    rfl
  have hzero : ∀ a : UInt32, a + UInt32.ofNat 0 = a := fun a => UInt32.add_zero a
  unfold byteMoves
  rw [List.range_succ_eq_map, List.map_cons, List.map_map, hzero, hzero, Function.comp_def]
  simp only [Nat.succ_eq_add_one, hnext]

theorem byteMoves_last (d s : UInt32) (n : ℕ) :
    byteMoves d s (n + 1) = byteMoves d s n ++ [(d + UInt32.ofNat n, s + UInt32.ofNat n)] := by
  simp [byteMoves, List.range_succ]

theorem store_bytes (m : Memory) (a : UInt32) (v : UInt8) :
    (m.store a v).bytes = Function.update m.bytes a v := by
  funext b
  rw [Function.update_apply]
  rfl

theorem memcpyTail_bytes (n : ℕ) (m : Memory) (d s : UInt32) :
    (memcpyTail n m d s).bytes = Moves.run m.bytes (byteMoves d s n) := by
  induction n generalizing m d s with
  | zero => rfl
  | succ n ih => rw [memcpyTail, ih, byteMoves_first, Moves.run, store_bytes]

theorem memmoveBackward_bytes (n : ℕ) (m : Memory) (d s : UInt32) :
    (memmoveBackward n m (d + UInt32.ofNat n) (s + UInt32.ofNat n)).bytes =
      Moves.run m.bytes (byteMoves d s n).reverse := by
  induction n generalizing m with
  | zero => rfl
  | succ n ih =>
      have hprev : ∀ a : UInt32, a + UInt32.ofNat (n + 1) - 1 = a + UInt32.ofNat n := by
        intro a
        rw [add_ofNat_add]
        exact UInt32.add_sub_cancel _ 1
      rw [memmoveBackward, hprev, hprev, ih, byteMoves_last, List.reverse_append, List.reverse_singleton,
        List.singleton_append, Moves.run, store_bytes]

section
variable {m m' : Memory} {d s : UInt32} {n : ℕ}

/-- Upwards, the bytes below the next one to be read are the ones overwritten. -/
theorem byteMoves_ordered (h : d < s) (hs : s.toNat + n ≤ 2 ^ 32) : Moves.Ordered (byteMoves d s n) := by
  rw [UInt32.lt_iff_toNat_lt] at h
  refine Moves.ordered_range fun i j hij hj => ?_
  rw [ne_eq, ne_eq, ByteMem.add_ofNat_eq_iff (by omega) (by omega),
    ByteMem.add_ofNat_eq_iff (by omega) (by omega)]
  omega

theorem byteMoves_reverse_ordered (h : s < d) (hd : d.toNat + n ≤ 2 ^ 32) :
    Moves.Ordered (byteMoves d s n).reverse := by
  rw [UInt32.lt_iff_toNat_lt] at h
  refine Moves.ordered_range_reverse fun i j hij hj => ?_
  rw [ne_eq, ne_eq, ByteMem.add_ofNat_eq_iff (by omega) (by omega),
    ByteMem.add_ofNat_eq_iff (by omega) (by omega)]
  omega

/-- The `n` bytes at `d` are the ones that were at `s`, and nothing else has changed. -/
structure Moved (m m' : Memory) (d s : UInt32) (n : ℕ) : Prop where
  moved : m'.loadBytes d n = m.loadBytes s n
  frame : ∀ a, a ∉ addrs d n → m'.bytes a = m.bytes a

theorem Moved.refl (m : Memory) (d : UInt32) (n : ℕ) : Moved m m d d n := ⟨rfl, fun _ _ => rfl⟩

theorem Moved.of_moves {moves : List (UInt32 × UInt32)} (hmoves : ∀ p, p ∈ moves ↔ p ∈ byteMoves d s n)
    (hbytes : m'.bytes = Moves.run m.bytes moves) (h : Moves.Ordered moves) : Moved m m' d s n := by
  constructor
  · refine List.map_congr_left fun j hj => ?_
    have hmem : (d + UInt32.ofNat j, s + UInt32.ofNat j) ∈ moves :=
      (hmoves _).mpr (List.mem_map.mpr ⟨j, hj, rfl⟩)
    rw [hbytes]
    exact Moves.run_moved h _ hmem
  · intro a ha
    rw [hbytes]
    refine Moves.run_frame fun p hp heq => ha ?_
    obtain ⟨j, hj, rfl⟩ := List.mem_map.mp ((hmoves p).mp hp)
    exact List.mem_map.mpr ⟨j, hj, heq.symm⟩

end

/-- **`luna_memmove`** moves the bytes, however the ranges overlap. -/
theorem lunaMemmove_moved (m : Memory) (dst src n : UInt32) (hdst : dst.toNat + n.toNat ≤ 2 ^ 32)
    (hsrc : src.toNat + n.toNat ≤ 2 ^ 32) : Moved m (lunaMemmove m dst src n) dst src n.toNat := by
  unfold lunaMemmove
  split_ifs with hbelow habove
  · exact Moved.of_moves (fun _ => Iff.rfl) (memcpyTail_bytes _ _ _ _) (byteMoves_ordered hbelow hsrc)
  · have hbytes := memmoveBackward_bytes n.toNat m dst src
    rw [UInt32.ofNat_toNat] at hbytes
    exact Moved.of_moves (fun _ => List.mem_reverse) hbytes (byteMoves_reverse_ordered habove hdst)
  · obtain rfl : dst = src := UInt32.le_antisymm (UInt32.not_lt.mp habove) (UInt32.not_lt.mp hbelow)
    exact Moved.refl m dst n.toNat

/-- Three bytes moved up by one and down by one. -/
theorem lunaMemmove_moved_overlap :
    (lunaMemmove ⟨fun a => a.toUInt8, []⟩ 101 100 3).loadBytes 101 3 = [100, 101, 102] ∧
      (lunaMemmove ⟨fun a => a.toUInt8, []⟩ 100 101 3).loadBytes 100 3 = [101, 102, 103] :=
  ⟨(lunaMemmove_moved _ 101 100 3 (by decide) (by decide)).moved,
    (lunaMemmove_moved _ 100 101 3 (by decide) (by decide)).moved⟩

end LunaOs
