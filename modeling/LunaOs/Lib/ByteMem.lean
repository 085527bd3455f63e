import LunaOs.Lib.Extents
import Mathlib.Tactic.Ring

/-! # Byte memory with 32-bit addresses

Words are stored with the least significant byte first.  Whether a byte lies in the `n` bytes at `a`
is decided by its distance from `a`, which is right also where the address range wraps around. -/

namespace ByteMem

open Extents

/-- The word whose lowest byte is at `a`. -/
def load32 (mem : UInt32 → UInt8) (a : UInt32) : UInt32 :=
  UInt32.ofNat ((mem a).toNat + 0x100 * (mem (a + 1)).toNat + 0x10000 * (mem (a + 2)).toNat +
    0x1000000 * (mem (a + 3)).toNat)

/-- The double word at `a`. -/
def load64 (mem : UInt32 → UInt8) (a : UInt32) : UInt64 :=
  UInt64.ofNat ((load32 mem a).toNat + 0x100000000 * (load32 mem (a + 4)).toNat)

/-- Byte `j` of a word. -/
def byte (w : UInt32) (j : ℕ) : UInt8 := UInt8.ofNat (w.toNat / 256 ^ j)

/-- The bytes of a word are stored from `a` on. -/
def store32 (mem : UInt32 → UInt8) (a w : UInt32) : UInt32 → UInt8 :=
  fun b => if b - a < 4 then byte w (b - a).toNat else mem b

/-- `n` bytes at `a` are set to `v`. -/
def fill (mem : UInt32 → UInt8) (a n : UInt32) (v : UInt8) : UInt32 → UInt8 :=
  fun b => if b - a < n then v else mem b

/-- The memories agree outside the span. -/
def AgreeOutside (s : Span) (mem mem' : UInt32 → UInt8) : Prop :=
  ∀ a : UInt32, ¬ s.Contains a.toNat → mem' a = mem a

variable {mem mem' : UInt32 → UInt8} {a b n w : UInt32} {s : Span}

/-- Bytes at a distance below `n`, where the range does not wrap around. -/
theorem sub_lt_iff (h : a.toNat + n.toNat ≤ 2 ^ 32) :
    b - a < n ↔ (⟨a.toNat, n.toNat⟩ : Span).Contains b.toNat := by
  have ha := a.toNat_lt
  have hb := b.toNat_lt
  unfold Span.Contains
  dsimp only
  rw [UInt32.lt_iff_toNat_lt, UInt32.toNat_sub]
  omega

/-- The four bytes of the word at `a`. -/
theorem sub_lt_four_iff (h : a.toNat + 4 ≤ 2 ^ 32) :
    b - a < 4 ↔ a.toNat ≤ b.toNat ∧ b.toNat < a.toNat + 4 :=
  sub_lt_iff (n := 4) h

theorem toNat_add_of_lt {j : ℕ} (h : a.toNat + j < 2 ^ 32) :
    (a + UInt32.ofNat j).toNat = a.toNat + j := by
  rw [UInt32.toNat_add, UInt32.toNat_ofNat']
  omega

theorem add_ofNat_eq {j : ℕ} (h : a.toNat + j = b.toNat) : a + UInt32.ofNat j = b := by
  have hb := b.toNat_lt
  rw [← UInt32.toNat_inj, toNat_add_of_lt (by omega), h]

theorem add_ofNat_eq_iff {j k : ℕ} (hj : a.toNat + j < 2 ^ 32) (hk : b.toNat + k < 2 ^ 32) :
    a + UInt32.ofNat j = b + UInt32.ofNat k ↔ a.toNat + j = b.toNat + k := by
  rw [← UInt32.toNat_inj, toNat_add_of_lt hj, toNat_add_of_lt hk]

/-- Byte `j` of a range lies in it. -/
theorem contains_add {j k : ℕ} (hend : a.toNat + k ≤ 2 ^ 32) (hj : j < k) :
    (⟨a.toNat, k⟩ : Span).Contains (a + UInt32.ofNat j).toNat := by
  rw [toNat_add_of_lt (by omega)]
  exact ⟨Nat.le_add_right _ _, Nat.add_lt_add_left hj _⟩

theorem toNat_add_sub {j : ℕ} (h : j < 2 ^ 32) : (a + UInt32.ofNat j - a).toNat = j := by
  have ha := a.toNat_lt
  rw [UInt32.toNat_sub, UInt32.toNat_add, UInt32.toNat_ofNat']
  omega

theorem load32_eq_of_bytes {a' : UInt32} (h : ∀ j < 4, mem' (a' + UInt32.ofNat j) = mem (a + UInt32.ofNat j)) :
    load32 mem' a' = load32 mem a := by
  have h0 : mem' a' = mem a := by simpa using h 0 (by decide)
  have h1 : mem' (a' + 1) = mem (a + 1) := h 1 (by decide)
  have h2 : mem' (a' + 2) = mem (a + 2) := h 2 (by decide)
  have h3 : mem' (a' + 3) = mem (a + 3) := h 3 (by decide)
  unfold load32
  rw [h0, h1, h2, h3]

theorem load32_congr (h : ∀ j < 4, mem' (a + UInt32.ofNat j) = mem (a + UInt32.ofNat j)) :
    load32 mem' a = load32 mem a :=
  load32_eq_of_bytes h

/-- A word apart from the span is the same in both memories. -/
theorem AgreeOutside.load32_eq (h : AgreeOutside s mem mem') (ha : a.toNat + 4 ≤ 2 ^ 32)
    (hapart : (⟨a.toNat, 4⟩ : Span).Apart s) : load32 mem' a = load32 mem a := by
  exact load32_congr fun j hj => h _ (hapart.not_contains (contains_add ha hj))

theorem AgreeOutside.mono {t : Span} (h : AgreeOutside s mem mem') (hsub : s.Sub t) :
    AgreeOutside t mem mem' := by
  intro a ha
  refine h a fun hs => ha ?_
  obtain ⟨h1, h2⟩ := hsub
  obtain ⟨h3, h4⟩ := hs
  exact ⟨h1.trans h3, h4.trans_le h2⟩

theorem AgreeOutside.trans {mem'' : UInt32 → UInt8} (h : AgreeOutside s mem mem')
    (h' : AgreeOutside s mem' mem'') : AgreeOutside s mem mem'' :=
  fun a ha => (h' a ha).trans (h a ha)

theorem store32_agree (mem : UInt32 → UInt8) (w : UInt32) (ha : a.toNat + 4 ≤ 2 ^ 32) :
    AgreeOutside ⟨a.toNat, 4⟩ mem (store32 mem a w) :=
  fun _ hb => if_neg fun hlt => hb ((sub_lt_iff ha).mp hlt)

theorem fill_agree (mem : UInt32 → UInt8) (v : UInt8) (ha : a.toNat + n.toNat ≤ 2 ^ 32) :
    AgreeOutside ⟨a.toNat, n.toNat⟩ mem (fill mem a n v) :=
  fun _ hb => if_neg fun hlt => hb ((sub_lt_iff ha).mp hlt)

theorem fill_apply (mem : UInt32 → UInt8) (v : UInt8) {j : ℕ} (hj : j < n.toNat) :
    fill mem a n v (a + UInt32.ofNat j) = v := by
  have hn := n.toNat_lt
  refine if_pos ?_
  rw [UInt32.lt_iff_toNat_lt, toNat_add_sub (by omega)]
  exact hj

theorem store32_apply (mem : UInt32 → UInt8) (a w : UInt32) {j : ℕ} (hj : j < 4) :
    store32 mem a w (a + UInt32.ofNat j) = byte w j := by
  have hdist : (a + UInt32.ofNat j - a).toNat = j := toNat_add_sub (by omega)
  have hlt : a + UInt32.ofNat j - a < 4 := by
    rw [UInt32.lt_iff_toNat_lt, hdist]
    exact hj
  unfold store32
  rw [if_pos hlt, hdist]

theorem load32_store32 (mem : UInt32 → UInt8) (a w : UInt32) : load32 (store32 mem a w) a = w := by
  have hbyte : ∀ j, (byte w j).toNat = w.toNat / 256 ^ j % 256 := by
    intro j
    exact UInt8.toNat_ofNat'
  have h0 : store32 mem a w a = byte w 0 := by simpa using store32_apply mem a w (j := 0) (by decide)
  have h1 : store32 mem a w (a + 1) = byte w 1 := store32_apply mem a w (by decide)
  have h2 : store32 mem a w (a + 2) = byte w 2 := store32_apply mem a w (by decide)
  have h3 : store32 mem a w (a + 3) = byte w 3 := store32_apply mem a w (by decide)
  have hw := w.toNat_lt
  unfold load32
  rw [h0, h1, h2, h3, hbyte, hbyte, hbyte, hbyte, ← UInt32.toNat_inj, UInt32.toNat_ofNat']
  omega

/-- The first byte of a word is its last digit. -/
theorem load32_mod (mem : UInt32 → UInt8) (a : UInt32) :
    (load32 mem a).toNat % 256 = (mem a).toNat := by
  have h0 := (mem a).toNat_lt
  unfold load32
  rw [UInt32.toNat_ofNat']
  omega

theorem byte_load32 (mem : UInt32 → UInt8) (a : UInt32) {j : ℕ} (hj : j < 4) :
    byte (load32 mem a) j = mem (a + UInt32.ofNat j) := by
  have h0 := (mem a).toNat_lt
  have h1 := (mem (a + 1)).toNat_lt
  have h2 := (mem (a + 2)).toNat_lt
  have h3 := (mem (a + 3)).toNat_lt
  rw [← UInt8.toNat_inj]
  unfold byte load32
  rw [UInt8.toNat_ofNat', UInt32.toNat_ofNat']
  have hzero : a + UInt32.ofNat 0 = a := UInt32.add_zero a
  have hone : a + UInt32.ofNat 1 = a + 1 := rfl
  have htwo : a + UInt32.ofNat 2 = a + 2 := rfl
  have hthree : a + UInt32.ofNat 3 = a + 3 := rfl
  obtain rfl | rfl | rfl | rfl : j = 0 ∨ j = 1 ∨ j = 2 ∨ j = 3 := by omega
  · rw [hzero]
    omega
  · rw [hone]
    omega
  · rw [htwo]
    omega
  · rw [hthree]
    omega

end ByteMem
