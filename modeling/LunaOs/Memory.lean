import LunaOs.Lib.ByteMem
import LunaOs.Lib.Endian

/-! # `luna_memset` and `luna_memcpy` on byte memory

`StringOps.lean` models the string functions on buffers of their own; here the memory operations of
`kernel/string.c` run on the whole memory, with 32-bit pointers that wrap around, byte loops up to an
aligned destination and word loops behind it.  A `Memory` also records the addresses that were
written, in order; the pointer that is returned, `dst`, is left out.  Whatever the alignment and the
overlap, both functions write the `n` bytes at the destination, each once and in order (`Writes`). -/

namespace LunaOs

open Endian

/-- Byte memory, with the addresses written so far. -/
structure Memory where
  bytes : UInt32 → UInt8
  written : List UInt32

namespace Memory

def store (m : Memory) (a : UInt32) (v : UInt8) : Memory :=
  ⟨fun b => if b = a then v else m.bytes b, m.written ++ [a]⟩

def storeBytes : Memory → UInt32 → List UInt8 → Memory
  | m, _, [] => m
  | m, a, b :: bs => storeBytes (m.store a b) (a + 1) bs

def loadBytes (m : Memory) (a : UInt32) (n : ℕ) : List UInt8 :=
  (List.range n).map fun j => m.bytes (a + UInt32.ofNat j)

/-- `*(const uint64_t*)a` -/
def load64 (m : Memory) (a : UInt32) : UInt64 := UInt64.ofNat (leNat (m.loadBytes a 8))

/-- `*(uint64_t*)a = w` -/
def store64 (m : Memory) (a : UInt32) (w : UInt64) : Memory := m.storeBytes a (leBytes 8 w.toNat)

end Memory

/-! ### `luna_memset` -/

/-- `while (n && ((uintptr_t)p & 7)) { *p++ = v; n--; }` -/
def memsetHead (v : UInt8) : ℕ → Memory → UInt32 → ℕ × Memory × UInt32
  | 0, m, p => (0, m, p)
  | n + 1, m, p => if p &&& 7 ≠ 0 then memsetHead v n (m.store p v) (p + 1) else (n + 1, m, p)

/-- `while (n >= 8) { *(uint64_t*)p = wide; p += 8; n -= 8; }` -/
def memsetWords (wide : UInt64) : ℕ → Memory → UInt32 → ℕ × Memory × UInt32
  | n + 8, m, p => memsetWords wide n (m.store64 p wide) (p + 8)
  | n, m, p => (n, m, p)

/-- `while (n--) { *p++ = v; }` -/
def memsetTail (v : UInt8) : ℕ → Memory → UInt32 → Memory
  | 0, m, _ => m
  | n + 1, m, p => memsetTail v n (m.store p v) (p + 1)

/-- `luna_memset`: bytes up to an aligned address, then words of eight bytes, then what is left. -/
def lunaMemset (m : Memory) (dst val n : UInt32) : Memory :=
  let v := val.toUInt8
  let (n, m, p) := memsetHead v n.toNat m dst
  let wide := v.toUInt64 * 0x0101010101010101
  let (n, m, p) := memsetWords wide n m p
  memsetTail v n m p

/-! ### `luna_memcpy` -/

/-- `while (n && ((uintptr_t)d & 7)) { *d++ = *s++; n--; }` -/
def memcpyHead : ℕ → Memory → UInt32 → UInt32 → ℕ × Memory × UInt32 × UInt32
  | 0, m, d, s => (0, m, d, s)
  | n + 1, m, d, s =>
      if d &&& 7 ≠ 0 then memcpyHead n (m.store d (m.bytes s)) (d + 1) (s + 1) else (n + 1, m, d, s)

/-- `while (n >= 8) { *(uint64_t*)d = *(const uint64_t*)s; d += 8; s += 8; n -= 8; }` -/
def memcpyWords : ℕ → Memory → UInt32 → UInt32 → ℕ × Memory × UInt32 × UInt32
  | n + 8, m, d, s => memcpyWords n (m.store64 d (m.load64 s)) (d + 8) (s + 8)
  | n, m, d, s => (n, m, d, s)

/-- `while (n--) { *d++ = *s++; }` -/
def memcpyTail : ℕ → Memory → UInt32 → UInt32 → Memory
  | 0, m, _, _ => m
  | n + 1, m, d, s => memcpyTail n (m.store d (m.bytes s)) (d + 1) (s + 1)

/-- `luna_memcpy`, with the words at aligned addresses of the destination. -/
def lunaMemcpy (m : Memory) (dst src n : UInt32) : Memory :=
  let (n, m, d, s) := memcpyHead n.toNat m dst src
  let (n, m, d, s) := memcpyWords n m d s
  memcpyTail n m d s

/-! ### `luna_strlen` -/

/-- `while (*p) p++;` at offset `i`, for at most `fuel` turns. -/
def strlenLoop (bytes : UInt32 → UInt8) (s : UInt32) : ℕ → ℕ → Option ℕ
  | 0, _ => none
  | fuel + 1, i => if bytes (s + UInt32.ofNat i) = 0 then some i else strlenLoop bytes s fuel (i + 1)

/-- The loop visits every address in `2 ^ 32` turns; with no zero byte in the memory it never ends. -/
def lunaStrlen (bytes : UInt32 → UInt8) (s : UInt32) : Option UInt32 :=
  (strlenLoop bytes s (2 ^ 32) 0).map UInt32.ofNat

/-! ### What is written -/

/-- The `n` addresses from `a`. -/
def addrs (a : UInt32) (n : ℕ) : List UInt32 := (List.range n).map fun j => a + UInt32.ofNat j

@[simp] theorem mem_addrs {a b : UInt32} {n : ℕ} : b ∈ addrs a n ↔ ∃ j < n, a + UInt32.ofNat j = b := by
  simp [addrs]

theorem add_ofNat_add (a : UInt32) (k j : ℕ) :
    a + UInt32.ofNat (k + j) = a + UInt32.ofNat k + UInt32.ofNat j := by
  rw [UInt32.ofNat_add, UInt32.add_assoc]

theorem addrs_add (a : UInt32) (k l : ℕ) :
    addrs a (k + l) = addrs a k ++ addrs (a + UInt32.ofNat k) l := by
  simp [addrs, List.range_add, UInt32.add_assoc]

theorem addrs_mono {a : UInt32} {k l : ℕ} (h : k ≤ l) {b : UInt32} (hb : b ∈ addrs a k) : b ∈ addrs a l := by
  rw [mem_addrs] at hb ⊢
  obtain ⟨j, hj, rfl⟩ := hb
  exact ⟨j, by omega, rfl⟩

/-- Without wrapping around, the addresses lie between the ends of the range. -/
theorem mem_addrs_range {a b : UInt32} {n : ℕ} (h : a.toNat + n ≤ 2 ^ 32) :
    b ∈ addrs a n ↔ a.toNat ≤ b.toNat ∧ b.toNat < a.toNat + n := by
  constructor
  · intro hb
    obtain ⟨j, hj, rfl⟩ := mem_addrs.mp hb
    exact ByteMem.contains_add h hj
  · rintro ⟨hlow, hhigh⟩
    exact mem_addrs.mpr ⟨b.toNat - a.toNat, by omega, ByteMem.add_ofNat_eq (by omega)⟩

/-- Ranges of which one ends before the other starts. -/
theorem addrs_disjoint {a b : UInt32} {k l : ℕ} (ha : a.toNat + k ≤ 2 ^ 32) (hb : b.toNat + l ≤ 2 ^ 32)
    (h : a.toNat + k ≤ b.toNat ∨ b.toNat + l ≤ a.toNat) : (addrs a k).Disjoint (addrs b l) := by
  intro c hc hc'
  rw [mem_addrs_range ha] at hc
  rw [mem_addrs_range hb] at hc'
  omega

/-- A range lies below an address exactly if it is empty or ends there at the latest. -/
theorem addrs_lt_iff (a base : UInt32) (n : ℕ) :
    (∀ b ∈ addrs a n, b < base) ↔ n = 0 ∨ a.toNat + n ≤ base.toNat := by
  have hbase := base.toNat_lt
  constructor
  · intro h
    by_contra hcon
    rw [not_or] at hcon
    obtain ⟨hn, hend⟩ := hcon
    have hstart : a < base := h a (mem_addrs.mpr ⟨0, by omega, by simp⟩)
    rw [UInt32.lt_iff_toNat_lt] at hstart
    -- the range reaches `base` itself
    have hreach : a + UInt32.ofNat (base.toNat - a.toNat) = base := ByteMem.add_ofNat_eq (by omega)
    have hlt := h base (mem_addrs.mpr ⟨base.toNat - a.toNat, by omega, hreach⟩)
    rw [UInt32.lt_iff_toNat_lt] at hlt
    omega
  · rintro (rfl | hend) b hb
    · simp at hb
    · rw [mem_addrs_range (by omega)] at hb
      rw [UInt32.lt_iff_toNat_lt]
      omega

@[simp] theorem addrs_zero (a : UInt32) : addrs a 0 = [] := rfl

@[simp] theorem addrs_one (a : UInt32) : addrs a 1 = [a] := by simp [addrs]

/-- `m'` is `m` after the `n` bytes at `a` were written, each once and in order. -/
structure Writes (m m' : Memory) (a : UInt32) (n : ℕ) : Prop where
  written : m'.written = m.written ++ addrs a n
  frame : ∀ b, b ∉ addrs a n → m'.bytes b = m.bytes b

namespace Writes

variable {m m' m'' : Memory} {a : UInt32} {k l : ℕ}

theorem refl (m : Memory) (a : UInt32) : Writes m m a 0 := ⟨by simp, fun _ _ => rfl⟩

theorem trans (h : Writes m m' a k) (h' : Writes m' m'' (a + UInt32.ofNat k) l) :
    Writes m m'' a (k + l) := by
  refine ⟨?_, fun b hb => ?_⟩
  · rw [h'.written, h.written, addrs_add, List.append_assoc]
  · rw [addrs_add, List.mem_append, not_or] at hb
    rw [h'.frame b hb.2, h.frame b hb.1]

theorem store (m : Memory) (a : UInt32) (v : UInt8) : Writes m (m.store a v) a 1 := by
  refine ⟨by simp [Memory.store], fun b hb => ?_⟩
  rw [addrs_one, List.mem_singleton] at hb
  simp [Memory.store, hb]

theorem storeBytes (m : Memory) (a : UInt32) (bs : List UInt8) :
    Writes m (m.storeBytes a bs) a bs.length := by
  induction bs generalizing m a with
  | nil => exact refl m a
  | cons b bs ih =>
      rw [List.length_cons, Nat.add_comm]
      exact (store m a b).trans (ih _ _)

theorem store64 (m : Memory) (a : UInt32) (w : UInt64) : Writes m (m.store64 a w) a 8 := by
  have h := storeBytes m a (leBytes 8 w.toNat)
  rwa [leBytes_length] at h

end Writes

/-- The `n` bytes at `a` are all `v`, and nothing else has changed. -/
structure Fills (m m' : Memory) (a : UInt32) (v : UInt8) (n : ℕ) : Prop extends Writes m m' a n where
  filled : ∀ b ∈ addrs a n, m'.bytes b = v

namespace Fills

variable {m m' m'' : Memory} {a : UInt32} {v : UInt8} {k l : ℕ}

theorem refl (m : Memory) (a : UInt32) (v : UInt8) : Fills m m a v 0 :=
  ⟨Writes.refl m a, fun b hb => by simp at hb⟩

theorem trans (h : Fills m m' a v k) (h' : Fills m' m'' (a + UInt32.ofNat k) v l) :
    Fills m m'' a v (k + l) := by
  refine ⟨h.toWrites.trans h'.toWrites, fun b hb => ?_⟩
  by_cases hlast : b ∈ addrs (a + UInt32.ofNat k) l
  · exact h'.filled b hlast
  · rw [addrs_add, List.mem_append] at hb
    rw [h'.frame b hlast]
    exact h.filled b (hb.resolve_right hlast)

theorem store (m : Memory) (a : UInt32) (v : UInt8) : Fills m (m.store a v) a v 1 := by
  refine ⟨Writes.store m a v, fun b hb => ?_⟩
  rw [addrs_one, List.mem_singleton] at hb
  simp [Memory.store, hb]

theorem storeBytes (m : Memory) (a : UInt32) (v : UInt8) (n : ℕ) :
    Fills m (m.storeBytes a (List.replicate n v)) a v n := by
  induction n generalizing m a with
  | zero => exact refl m a v
  | succ n ih =>
      rw [Nat.add_comm, List.replicate_add]
      exact (store m a v).trans (ih _ _)

end Fills

/-- The bytes `v * 0x0101010101010101` is stored as. -/
theorem leBytes_wide (v : UInt8) :
    leBytes 8 (v.toUInt64 * 0x0101010101010101).toNat = List.replicate 8 v := by
  have hv := v.toNat_lt
  have hwide : (v.toUInt64 * 0x0101010101010101).toNat = leNat (List.replicate 8 v) := by
    rw [UInt64.toNat_mul, UInt8.toNat_toUInt64]
    simp [leNat]
    omega
  rw [hwide]
  exact leBytes_leNat (List.replicate 8 v)

/-- Each loop of `luna_memset` fills the bytes it moves `p` over. -/
def FillLoop (v : UInt8) (n : ℕ) (m : Memory) (p : UInt32) (r : ℕ × Memory × UInt32) : Prop :=
  ∃ k n' m', r = (n', m', p + UInt32.ofNat k) ∧ n = k + n' ∧ Fills m m' p v k

theorem FillLoop.refl (v : UInt8) (n : ℕ) (m : Memory) (p : UInt32) : FillLoop v n m p (n, m, p) :=
  ⟨0, n, m, by simp, by simp, Fills.refl m p v⟩

/-- A turn of a loop, then the rest of it. -/
theorem FillLoop.step {v : UInt8} {k n : ℕ} {m m' : Memory} {p : UInt32} {r : ℕ × Memory × UInt32}
    (h : Fills m m' p v k) (hrest : FillLoop v n m' (p + UInt32.ofNat k) r) :
    FillLoop v (k + n) m p r := by
  obtain ⟨l, n', m'', rfl, rfl, hfills⟩ := hrest
  exact ⟨k + l, n', m'', by rw [add_ofNat_add], (Nat.add_assoc k l n').symm, h.trans hfills⟩

theorem memsetHead_fills (v : UInt8) (n : ℕ) (m : Memory) (p : UInt32) :
    FillLoop v n m p (memsetHead v n m p) := by
  induction n generalizing m p with
  | zero => exact FillLoop.refl v 0 m p
  | succ n ih =>
      unfold memsetHead
      split_ifs with h
      · rw [Nat.add_comm]
        exact FillLoop.step (Fills.store m p v) (ih _ _)
      · exact FillLoop.refl v (n + 1) m p

theorem memsetWords_fills (v : UInt8) (n : ℕ) (m : Memory) (p : UInt32) :
    FillLoop v n m p (memsetWords (v.toUInt64 * 0x0101010101010101) n m p) := by
  fun_induction memsetWords with
  | case1 n m p ih =>
      have hword : Fills m (m.store64 p (v.toUInt64 * 0x0101010101010101)) p v 8 := by
        unfold Memory.store64
        rw [leBytes_wide]
        exact Fills.storeBytes m p v 8
      have h := FillLoop.step hword ih
      rwa [Nat.add_comm 8 n] at h
  | case2 n m p hn => exact FillLoop.refl v n m p

theorem memsetTail_fills (v : UInt8) (n : ℕ) (m : Memory) (p : UInt32) :
    Fills m (memsetTail v n m p) p v n := by
  induction n generalizing m p with
  | zero => exact Fills.refl m p v
  | succ n ih =>
      have h := (Fills.store m p v).trans (ih (m.store p v) (p + 1))
      rwa [Nat.add_comm] at h

/-- **`luna_memset`** fills the `n` bytes at `dst`, whatever the alignment. -/
theorem lunaMemset_fills (m : Memory) (dst val n : UInt32) :
    Fills m (lunaMemset m dst val n) dst val.toUInt8 n.toNat := by
  obtain ⟨k, n₁, m₁, hhead, hn, hfills⟩ := memsetHead_fills val.toUInt8 n.toNat m dst
  obtain ⟨l, n₂, m₂, hwords, hn₁, hfills'⟩ :=
    memsetWords_fills val.toUInt8 n₁ m₁ (dst + UInt32.ofNat k)
  have htail := memsetTail_fills val.toUInt8 n₂ m₂ (dst + UInt32.ofNat k + UInt32.ofNat l)
  simp only [lunaMemset, hhead, hwords]
  rw [hn, hn₁]
  exact hfills.trans (hfills'.trans htail)

/-! ### `luna_memcpy` copies -/

/-- The `n` bytes at `s` were copied to `d`, those that the destination does not overwrite, and nothing
else has changed. -/
structure Copies (m m' : Memory) (d s : UInt32) (n : ℕ) : Prop extends Writes m m' d n where
  copied : n ≤ 2 ^ 32 → ∀ j < n, s + UInt32.ofNat j ∉ addrs d n →
    m'.bytes (d + UInt32.ofNat j) = m.bytes (s + UInt32.ofNat j)

/-- The addresses of a range are different as long as it is no larger than the memory. -/
theorem add_ofNat_inj {a : UInt32} {i j : ℕ} (hi : i < 2 ^ 32) (hj : j < 2 ^ 32)
    (h : a + UInt32.ofNat i = a + UInt32.ofNat j) : i = j := by
  have hsub := congrArg (fun b => (b - a).toNat) h
  simp only [ByteMem.toNat_add_sub hi, ByteMem.toNat_add_sub hj] at hsub
  exact hsub

namespace Copies

variable {m m' m'' : Memory} {d s : UInt32} {k l : ℕ}

theorem refl (m : Memory) (d s : UInt32) : Copies m m d s 0 :=
  ⟨Writes.refl m d, fun _ j hj => by omega⟩

theorem trans (h : Copies m m' d s k)
    (h' : Copies m' m'' (d + UInt32.ofNat k) (s + UInt32.ofNat k) l) : Copies m m'' d s (k + l) := by
  refine ⟨h.toWrites.trans h'.toWrites, fun hn j hj hsrc => ?_⟩
  rw [addrs_add, List.mem_append, not_or] at hsrc
  by_cases hjk : j < k
  · -- written by the first part, left alone by the second
    rw [← h.copied (by omega) j hjk hsrc.1]
    apply h'.frame
    rw [mem_addrs]
    rintro ⟨i, hi, heq⟩
    rw [← add_ofNat_add] at heq
    have := add_ofNat_inj (by omega) (by omega) heq
    omega
  · -- read by the second part, left alone by the first
    obtain ⟨i, rfl⟩ := Nat.exists_eq_add_of_le (Nat.le_of_not_lt hjk)
    have hfirst := h.frame _ hsrc.1
    rw [add_ofNat_add] at hsrc hfirst ⊢
    rw [add_ofNat_add, h'.copied (by omega) i (by omega) hsrc.2, hfirst]

theorem store (m : Memory) (d s : UInt32) : Copies m (m.store d (m.bytes s)) d s 1 := by
  refine ⟨Writes.store m d _, fun _ j hj _ => ?_⟩
  obtain rfl : j = 0 := by omega
  simp [Memory.store]

theorem storeBytes (m : Memory) (d : UInt32) (bs : List UInt8) (hn : bs.length ≤ 2 ^ 32) {j : ℕ}
    (hj : j < bs.length) : (m.storeBytes d bs).bytes (d + UInt32.ofNat j) = bs[j] := by
  induction bs generalizing m d j with
  | nil => simp at hj
  | cons b bs ih =>
      rw [List.length_cons] at hn hj
      cases j with
      | zero =>
          have hframe := (Writes.storeBytes (m.store d b) (d + 1) bs).frame d
          simp only [Memory.storeBytes, List.getElem_cons_zero]
          rw [show d + UInt32.ofNat 0 = d by simp, hframe]
          · simp [Memory.store]
          · rw [mem_addrs]
            rintro ⟨i, hi, heq⟩
            have h0 : d + UInt32.ofNat (1 + i) = d + UInt32.ofNat 0 := by
              rw [add_ofNat_add]
              simpa using heq
            have := add_ofNat_inj (by omega) (by omega) h0
            omega
      | succ j =>
          have haddr : d + UInt32.ofNat (j + 1) = d + 1 + UInt32.ofNat j := by
            rw [Nat.add_comm, add_ofNat_add]
            rfl
          simp only [Memory.storeBytes, List.getElem_cons_succ, haddr]
          exact ih (m.store d b) (d + 1) (by omega) (by omega)

/-- Eight bytes are loaded as a word and stored. -/
theorem store64 (m : Memory) (d s : UInt32) : Copies m (m.store64 d (m.load64 s)) d s 8 := by
  have hlt : leNat (m.loadBytes s 8) < 2 ^ 64 := by
    have h := leNat_lt (m.loadBytes s 8)
    simpa [Memory.loadBytes] using h
  have hbytes : leBytes 8 (m.load64 s).toNat = m.loadBytes s 8 := by
    unfold Memory.load64
    rw [UInt64.toNat_ofNat', Nat.mod_eq_of_lt hlt]
    have h := leBytes_leNat (m.loadBytes s 8)
    rwa [show (m.loadBytes s 8).length = 8 by simp [Memory.loadBytes]] at h
  refine ⟨Writes.store64 m d _, fun _ j hj _ => ?_⟩
  have hlen : (m.loadBytes s 8).length = 8 := by simp [Memory.loadBytes]
  unfold Memory.store64
  rw [hbytes, storeBytes m d _ (by rw [hlen]; decide) (by rw [hlen]; exact hj)]
  simp [Memory.loadBytes]

end Copies

/-- Each loop of `luna_memcpy` copies the bytes it moves `d` and `s` over. -/
def CopyLoop (n : ℕ) (m : Memory) (d s : UInt32) (r : ℕ × Memory × UInt32 × UInt32) : Prop :=
  ∃ k n' m', r = (n', m', d + UInt32.ofNat k, s + UInt32.ofNat k) ∧ n = k + n' ∧ Copies m m' d s k

theorem CopyLoop.refl (n : ℕ) (m : Memory) (d s : UInt32) : CopyLoop n m d s (n, m, d, s) :=
  ⟨0, n, m, by simp, by simp, Copies.refl m d s⟩

theorem CopyLoop.step {k n : ℕ} {m m' : Memory} {d s : UInt32} {r : ℕ × Memory × UInt32 × UInt32}
    (h : Copies m m' d s k) (hrest : CopyLoop n m' (d + UInt32.ofNat k) (s + UInt32.ofNat k) r) :
    CopyLoop (k + n) m d s r := by
  obtain ⟨l, n', m'', rfl, rfl, hcopies⟩ := hrest
  exact ⟨k + l, n', m'', by rw [add_ofNat_add, add_ofNat_add], (Nat.add_assoc k l n').symm,
    h.trans hcopies⟩

theorem memcpyHead_copies (n : ℕ) (m : Memory) (d s : UInt32) :
    CopyLoop n m d s (memcpyHead n m d s) := by
  induction n generalizing m d s with
  | zero => exact CopyLoop.refl 0 m d s
  | succ n ih =>
      unfold memcpyHead
      split_ifs with h
      · rw [Nat.add_comm]
        exact CopyLoop.step (Copies.store m d s) (ih _ _ _)
      · exact CopyLoop.refl (n + 1) m d s

theorem memcpyWords_copies (n : ℕ) (m : Memory) (d s : UInt32) :
    CopyLoop n m d s (memcpyWords n m d s) := by
  fun_induction memcpyWords with
  | case1 n m d s ih =>
      have h := CopyLoop.step (Copies.store64 m d s) ih
      rwa [Nat.add_comm 8 n] at h
  | case2 n m d s hn => exact CopyLoop.refl n m d s

theorem memcpyTail_copies (n : ℕ) (m : Memory) (d s : UInt32) :
    Copies m (memcpyTail n m d s) d s n := by
  induction n generalizing m d s with
  | zero => exact Copies.refl m d s
  | succ n ih =>
      have h := (Copies.store m d s).trans (ih (m.store d (m.bytes s)) (d + 1) (s + 1))
      rwa [Nat.add_comm] at h

/-- **`luna_memcpy`** copies `n` bytes and writes nothing else, whatever the alignment. -/
theorem lunaMemcpy_copies (m : Memory) (dst src n : UInt32) :
    Copies m (lunaMemcpy m dst src n) dst src n.toNat := by
  obtain ⟨k, n₁, m₁, hhead, hn, hcopies⟩ := memcpyHead_copies n.toNat m dst src
  obtain ⟨l, n₂, m₂, hwords, hn₁, hcopies'⟩ :=
    memcpyWords_copies n₁ m₁ (dst + UInt32.ofNat k) (src + UInt32.ofNat k)
  have htail := memcpyTail_copies n₂ m₂ (dst + UInt32.ofNat k + UInt32.ofNat l)
    (src + UInt32.ofNat k + UInt32.ofNat l)
  simp only [lunaMemcpy, hhead, hwords]
  rw [hn, hn₁]
  exact hcopies.trans (hcopies'.trans htail)

/-! ### Byte by byte

What `luna_memset` and `luna_memcpy` would do without their word loops.  The `n` bytes that were
written and the frame determine the memory, so that the functions agree with the byte loops. -/

/-- `for (i = 0; i < n; i++) dst[i] = v;` -/
def setBytes (m : Memory) (dst : UInt32) (v : UInt8) : ℕ → Memory
  | 0 => m
  | n + 1 => (setBytes m dst v n).store (dst + UInt32.ofNat n) v

/-- `for (i = 0; i < n; i++) dst[i] = src[i];` -/
def copyBytes (m : Memory) (dst src : UInt32) : ℕ → Memory
  | 0 => m
  | n + 1 =>
      let m' := copyBytes m dst src n
      m'.store (dst + UInt32.ofNat n) (m'.bytes (src + UInt32.ofNat n))

section
variable {m m₁ m₂ : Memory} {d s : UInt32} {v : UInt8} {n : ℕ}

theorem Writes.eq_of_bytes (h₁ : Writes m m₁ d n) (h₂ : Writes m m₂ d n)
    (h : ∀ b ∈ addrs d n, m₁.bytes b = m₂.bytes b) : m₁ = m₂ := by
  have hbytes : m₁.bytes = m₂.bytes := by
    funext b
    by_cases hb : b ∈ addrs d n
    · exact h b hb
    · rw [h₁.frame b hb, h₂.frame b hb]
  have hwritten : m₁.written = m₂.written := by rw [h₁.written, h₂.written]
  cases m₁
  cases m₂
  cases hbytes
  cases hwritten
  rfl

theorem Fills.unique (h₁ : Fills m m₁ d v n) (h₂ : Fills m m₂ d v n) : m₁ = m₂ :=
  h₁.toWrites.eq_of_bytes h₂.toWrites fun b hb => by rw [h₁.filled b hb, h₂.filled b hb]

theorem Copies.unique (hn : n ≤ 2 ^ 32) (hsrc : (addrs s n).Disjoint (addrs d n))
    (h₁ : Copies m m₁ d s n) (h₂ : Copies m m₂ d s n) : m₁ = m₂ := by
  refine h₁.toWrites.eq_of_bytes h₂.toWrites fun b hb => ?_
  obtain ⟨j, hj, rfl⟩ := mem_addrs.mp hb
  have hj' : s + UInt32.ofNat j ∉ addrs d n := hsrc (mem_addrs.mpr ⟨j, hj, rfl⟩)
  rw [h₁.copied hn j hj hj', h₂.copied hn j hj hj']

end

theorem setBytes_fills (m : Memory) (dst : UInt32) (v : UInt8) (n : ℕ) :
    Fills m (setBytes m dst v n) dst v n := by
  induction n with
  | zero => exact Fills.refl m dst v
  | succ n ih => exact ih.trans (Fills.store _ _ v)

theorem copyBytes_copies (m : Memory) (dst src : UInt32) (n : ℕ) :
    Copies m (copyBytes m dst src n) dst src n := by
  induction n with
  | zero => exact Copies.refl m dst src
  | succ n ih => exact ih.trans (Copies.store _ _ _)

/-- **The word loops**: `luna_memset` and, between ranges apart from each other, `luna_memcpy` leave the
memory as the byte loops do, whatever the alignment, and neither writes outside the destination. -/
theorem wordLoops_bytewise (m : Memory) (dst src val n : UInt32) :
    lunaMemset m dst val n = setBytes m dst val.toUInt8 n.toNat ∧
      Writes m (lunaMemset m dst val n) dst n.toNat ∧
      ((addrs src n.toNat).Disjoint (addrs dst n.toNat) →
        lunaMemcpy m dst src n = copyBytes m dst src n.toNat) ∧
      Writes m (lunaMemcpy m dst src n) dst n.toNat := by
  have hset := lunaMemset_fills m dst val n
  have hcopy := lunaMemcpy_copies m dst src n
  refine ⟨hset.unique (setBytes_fills m dst val.toUInt8 n.toNat), hset.toWrites, fun hsrc => ?_,
    hcopy.toWrites⟩
  exact hcopy.unique n.toNat_lt.le hsrc (copyBytes_copies m dst src n.toNat)

/-- Five bytes up to an aligned destination, two words and two more bytes, from a source aligned
differently. -/
theorem wordLoops_bytewise_sample :
    lunaMemcpy ⟨fun a => a.toUInt8, []⟩ 0x1003 0x2001 23 =
      copyBytes ⟨fun a => a.toUInt8, []⟩ 0x1003 0x2001 23 := by
  have hapart : (addrs 0x2001 23).Disjoint (addrs 0x1003 23) :=
    addrs_disjoint (by decide) (by decide) (by decide)
  exact (wordLoops_bytewise ⟨fun a => a.toUInt8, []⟩ 0x1003 0x2001 0 23).2.2.1 hapart

/-! ### What `luna_memcpy` reads

The copy reads nothing but the source: memories that agree there, and wherever else, agree on the same
addresses behind it. -/

def AgreeOn (S : UInt32 → Prop) (m m' : Memory) : Prop := ∀ a, S a → m.bytes a = m'.bytes a

namespace AgreeOn

variable {S : UInt32 → Prop} {m m' : Memory} {d s : UInt32}

theorem store (h : AgreeOn S m m') (d : UInt32) (v : UInt8) : AgreeOn S (m.store d v) (m'.store d v) := by
  intro a ha
  unfold Memory.store
  dsimp only
  rw [h a ha]

theorem storeBytes (h : AgreeOn S m m') (d : UInt32) (bs : List UInt8) :
    AgreeOn S (m.storeBytes d bs) (m'.storeBytes d bs) := by
  induction bs generalizing m m' d with
  | nil => exact h
  | cons b bs ih => exact ih (h.store d b) (d + 1)

theorem copyByte (h : AgreeOn S m m') (hs : S s) :
    AgreeOn S (m.store d (m.bytes s)) (m'.store d (m'.bytes s)) := by
  rw [h s hs]
  exact h.store d _

theorem copyWord (h : AgreeOn S m m') (hs : ∀ j < 8, S (s + UInt32.ofNat j)) :
    AgreeOn S (m.store64 d (m.load64 s)) (m'.store64 d (m'.load64 s)) := by
  have hload : m.loadBytes s 8 = m'.loadBytes s 8 :=
    List.map_congr_left fun j hj => h _ (hs j (List.mem_range.mp hj))
  unfold Memory.store64 Memory.load64
  rw [hload]
  exact h.storeBytes d _

end AgreeOn

/-- Two loops of `luna_memcpy` have come to the same place. -/
structure LoopsAgree (S : UInt32 → Prop) (r r' : ℕ × Memory × UInt32 × UInt32) : Prop where
  count : r.1 = r'.1
  memory : AgreeOn S r.2.1 r'.2.1
  pointers : r.2.2 = r'.2.2
  source : ∀ j < r.1, S (r.2.2.2 + UInt32.ofNat j)

section
variable {S : UInt32 → Prop} {m m' : Memory} {d s : UInt32}

/-- What is left of the source after its first bytes. -/
theorem source_drop {k n : ℕ} (hs : ∀ j < n + k, S (s + UInt32.ofNat j)) :
    ∀ j < n, S (s + UInt32.ofNat k + UInt32.ofNat j) := by
  intro j hj
  rw [← add_ofNat_add]
  exact hs (k + j) (by omega)

theorem memcpyHead_agree (n : ℕ) (h : AgreeOn S m m') (hs : ∀ j < n, S (s + UInt32.ofNat j)) :
    LoopsAgree S (memcpyHead n m d s) (memcpyHead n m' d s) := by
  induction n generalizing m m' d s with
  | zero => exact ⟨rfl, h, rfl, hs⟩
  | succ n ih =>
      unfold memcpyHead
      split_ifs with halign
      · have hfirst : S s := by simpa using hs 0 (Nat.succ_pos n)
        exact ih (h.copyByte hfirst) (source_drop hs)
      · exact ⟨rfl, h, rfl, hs⟩

theorem memcpyWords_agree (n : ℕ) (h : AgreeOn S m m') (hs : ∀ j < n, S (s + UInt32.ofNat j)) :
    LoopsAgree S (memcpyWords n m d s) (memcpyWords n m' d s) := by
  fun_induction memcpyWords n m d s generalizing m' with
  | case1 n m d s ih =>
      rw [memcpyWords]
      exact ih (h.copyWord fun j hj => hs j (by omega)) (source_drop hs)
  | case2 n m d s hn =>
      rw [memcpyWords]
      · exact ⟨rfl, h, rfl, hs⟩
      · exact hn

theorem memcpyTail_agree (n : ℕ) (h : AgreeOn S m m') (hs : ∀ j < n, S (s + UInt32.ofNat j)) :
    AgreeOn S (memcpyTail n m d s) (memcpyTail n m' d s) := by
  induction n generalizing m m' d s with
  | zero => exact h
  | succ n ih =>
      have hfirst : S s := by simpa using hs 0 (Nat.succ_pos n)
      exact ih (h.copyByte hfirst) (source_drop hs)

theorem lunaMemcpy_agree (n : UInt32) (h : AgreeOn S m m')
    (hs : ∀ j < n.toNat, S (s + UInt32.ofNat j)) :
    AgreeOn S (lunaMemcpy m d s n) (lunaMemcpy m' d s n) := by
  have hhead := memcpyHead_agree (d := d) n.toNat h hs
  unfold lunaMemcpy
  generalize memcpyHead n.toNat m d s = r at hhead
  generalize memcpyHead n.toNat m' d s = r' at hhead
  obtain ⟨n₁, m₁, p₁⟩ := r
  obtain ⟨_, m₁', _⟩ := r'
  obtain ⟨rfl, hmem, rfl, hsource⟩ := hhead
  have hwords := memcpyWords_agree (d := p₁.1) n₁ hmem hsource
  dsimp only
  generalize memcpyWords n₁ m₁ p₁.1 p₁.2 = q at hwords
  generalize memcpyWords n₁ m₁' p₁.1 p₁.2 = q' at hwords
  obtain ⟨n₂, m₂, p₂⟩ := q
  obtain ⟨_, m₂', _⟩ := q'
  obtain ⟨rfl, hmem', rfl, hsource'⟩ := hwords
  exact memcpyTail_agree n₂ hmem' hsource'

end

end LunaOs
