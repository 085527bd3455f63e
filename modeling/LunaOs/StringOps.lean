import Mathlib.Data.List.GetD
import Mathlib.Tactic.Linarith

/-! # The string primitives of `kernel/string.c`

A pointer that a function only reads is a `ConstPtr`: `p i` is the byte `p[i]`.  A buffer that a
function writes is a `Vector UInt8 k` of its declared size `k`; a write outside the buffer is
dropped by the model, and no caller makes one.  A `CString` is a NUL-terminated string: its
characters are the bytes before the terminator, so none of them is zero. -/

namespace LunaOs

/-- A `const` byte pointer: `p i` is the byte at offset `i`. -/
abbrev ConstPtr := ℕ → UInt8

/-- The pointer to the first byte of a list of bytes (zero behind its end). -/
def listPtr (bs : List UInt8) : ConstPtr := fun i => bs.getD i 0

/-- The pointer to the first byte of an array. -/
def arrayPtr {k : ℕ} (v : Vector UInt8 k) : ConstPtr := fun i => v[i]?.getD 0

theorem arrayPtr_lt {k : ℕ} (v : Vector UInt8 k) {i : ℕ} (h : i < k) : arrayPtr v i = v[i] := by
  simp [arrayPtr, h]

theorem arrayPtr_setIfInBounds {k : ℕ} (v : Vector UInt8 k) (i : ℕ) (b : UInt8) {j : ℕ}
    (hj : j < k) : arrayPtr (v.setIfInBounds i b) j = if i = j then b else arrayPtr v j := by
  rw [arrayPtr_lt _ hj, arrayPtr_lt _ hj, Vector.getElem_setIfInBounds hj]

theorem arrayPtr_inj {k : ℕ} {v w : Vector UInt8 k} (h : ∀ j < k, arrayPtr v j = arrayPtr w j) :
    v = w := by
  apply Vector.ext
  intro i hi
  have := h i hi
  rwa [arrayPtr_lt v hi, arrayPtr_lt w hi] at this

/-- The `n` bytes at `p`. -/
def bytesFrom (p : ConstPtr) (n : ℕ) : List UInt8 := (List.range n).map p

@[simp] theorem bytesFrom_length (p : ConstPtr) (n : ℕ) : (bytesFrom p n).length = n := by
  simp [bytesFrom]

theorem bytesFrom_add (p : ConstPtr) (m n : ℕ) :
    bytesFrom p (m + n) = bytesFrom p m ++ bytesFrom (fun i => p (m + i)) n := by
  simp [bytesFrom, List.range_add, Function.comp_def]

theorem bytesFrom_congr {p q : ConstPtr} {n : ℕ} (h : ∀ i < n, p i = q i) :
    bytesFrom p n = bytesFrom q n :=
  List.map_congr_left fun i hi => h i (List.mem_range.mp hi)

theorem bytesFrom_listPtr (bs : List UInt8) : bytesFrom (listPtr bs) bs.length = bs := by
  apply List.ext_getElem (by simp)
  intro i _ h
  simp [bytesFrom, listPtr, h]

/-- A list of `n` bytes is what a pointer reads when they agree at every offset. -/
theorem bytesFrom_eq {p : ConstPtr} {bs : List UInt8} {n : ℕ} (hn : bs.length = n)
    (h : ∀ i < n, p i = listPtr bs i) : bytesFrom p n = bs := by
  subst hn
  rw [bytesFrom_congr h, bytesFrom_listPtr]

theorem listPtr_append (bs cs : List UInt8) (i : ℕ) :
    listPtr (bs ++ cs) i = if i < bs.length then listPtr bs i else listPtr cs (i - bs.length) := by
  unfold listPtr
  split_ifs with h
  · rw [List.getD_append _ _ _ _ h]
  · rw [List.getD_append_right _ _ _ _ (by omega)]

@[simp] theorem listPtr_cons_zero (b : UInt8) (bs : List UInt8) : listPtr (b :: bs) 0 = b := rfl

@[simp] theorem listPtr_cons_succ (b : UInt8) (bs : List UInt8) (i : ℕ) :
    listPtr (b :: bs) (i + 1) = listPtr bs i := rfl

@[simp] theorem listPtr_zeros (n i : ℕ) : listPtr (List.replicate n 0) i = 0 := by
  unfold listPtr
  by_cases h : i < n <;> simp [h]

theorem listPtr_take (bs : List UInt8) {n i : ℕ} (h : i < n) :
    listPtr (bs.take n) i = listPtr bs i := by
  simp [listPtr, List.getD_eq_getElem?_getD, h]

theorem listPtr_drop (bs : List UInt8) (n i : ℕ) : listPtr (bs.drop n) i = listPtr bs (n + i) := by
  simp [listPtr, List.getD_eq_getElem?_getD, List.getElem?_drop]

theorem listPtr_bytesFrom (p : ConstPtr) {n i : ℕ} (h : i < n) : listPtr (bytesFrom p n) i = p i := by
  simp [listPtr, bytesFrom, h]

/-- A NUL-terminated string. -/
structure CString where
  chars : List UInt8
  nonzero : ∀ c ∈ chars, c ≠ 0
deriving DecidableEq

namespace CString

/-- The pointer to the first character; the terminator is at offset `chars.length`. -/
def ptr (s : CString) : ConstPtr := listPtr s.chars

theorem ptr_lt (s : CString) {i : ℕ} (h : i < s.chars.length) : s.ptr i = s.chars[i] := by
  simp [ptr, listPtr, h]

theorem ptr_ge (s : CString) {i : ℕ} (h : s.chars.length ≤ i) : s.ptr i = 0 := by
  simp [ptr, listPtr, h]

theorem ptr_eq_zero_iff (s : CString) (i : ℕ) : s.ptr i = 0 ↔ s.chars.length ≤ i := by
  constructor
  · intro h
    by_contra hlt
    rw [s.ptr_lt (by omega)] at h
    exact s.nonzero _ (List.getElem_mem _) h
  · exact s.ptr_ge

end CString

/-! ### `luna_memcmp` -/

/-- The loop of `luna_memcmp` at offset `i` with `n` bytes to go. -/
def lunaMemcmpLoop (p q : ConstPtr) : ℕ → ℕ → ℤ
  | 0, _ => 0
  | n + 1, i => if p i ≠ q i then (p i).toNat - (q i).toNat else lunaMemcmpLoop p q n (i + 1)

def lunaMemcmp (p q : ConstPtr) (n : ℕ) : ℤ := lunaMemcmpLoop p q n 0

theorem lunaMemcmpLoop_eq_zero (p q : ConstPtr) (n i : ℕ) :
    lunaMemcmpLoop p q n i = 0 ↔ ∀ j < n, p (i + j) = q (i + j) := by
  induction n generalizing i with
  | zero => simp [lunaMemcmpLoop]
  | succ n ih =>
      unfold lunaMemcmpLoop
      split_ifs with h
      · have hne : (p i).toNat ≠ (q i).toNat := fun h' => h (UInt8.toNat_inj.mp h')
        constructor
        · intro h0; omega
        · intro hall; exact absurd (hall 0 (by omega)) h
      · rw [not_not] at h
        rw [ih]
        constructor
        · intro hall j hj
          rcases j with _ | j
          · exact h
          · rw [show i + (j + 1) = i + 1 + j by omega]; exact hall j (by omega)
        · intro hall j hj
          rw [show i + 1 + j = i + (j + 1) by omega]; exact hall (j + 1) (by omega)

/-- `luna_memcmp` returns zero exactly on equal bytes. -/
theorem lunaMemcmp_eq_zero (p q : ConstPtr) (n : ℕ) :
    lunaMemcmp p q n = 0 ↔ ∀ j < n, p j = q j := by
  unfold lunaMemcmp
  rw [lunaMemcmpLoop_eq_zero]
  simp only [Nat.zero_add]

theorem lunaMemcmp_array {k : ℕ} (v w : Vector UInt8 k) :
    lunaMemcmp (arrayPtr v) (arrayPtr w) k = 0 ↔ v = w := by
  rw [lunaMemcmp_eq_zero]
  constructor
  · exact arrayPtr_inj
  · rintro rfl j _; rfl

/-! ### `luna_strncpy` -/

section strncpy
variable {k : ℕ}

/-- `for (i = 0; i < n && src[i]; i++) dst[i] = src[i];` with `r = n - i` turns left.  Returns
the final `i` and the buffer. -/
def strncpyCopy (src : ConstPtr) : ℕ → ℕ → Vector UInt8 k → ℕ × Vector UInt8 k
  | 0, i, dst => (i, dst)
  | r + 1, i, dst =>
      if src i ≠ 0 then strncpyCopy src r (i + 1) (dst.setIfInBounds i (src i)) else (i, dst)

/-- `for (; i < n; i++) dst[i] = '\0';` with `r = n - i` turns left. -/
def strncpyPad : ℕ → ℕ → Vector UInt8 k → Vector UInt8 k
  | 0, _, dst => dst
  | r + 1, i, dst => strncpyPad r (i + 1) (dst.setIfInBounds i 0)

/-- `luna_strncpy`, which pads with NULs. -/
def lunaStrncpy (dst : Vector UInt8 k) (src : ConstPtr) (n : ℕ) : Vector UInt8 k :=
  let (i, dst) := strncpyCopy src n 0 dst
  strncpyPad (n - i) i dst

/-- What a C string reads at offset `j` once everything behind its first NUL is cleared. -/
def cut (src : ConstPtr) (j : ℕ) : UInt8 := if ∀ i ≤ j, src i ≠ 0 then src j else 0

theorem cut_of_forall {src : ConstPtr} {j : ℕ} (h : ∀ i ≤ j, src i ≠ 0) : cut src j = src j :=
  if_pos h

theorem cut_of_exists {src : ConstPtr} {i j : ℕ} (hij : i ≤ j) (h : src i = 0) :
    cut src j = 0 :=
  if_neg fun hall => hall i hij h

theorem cut_congr {p q : ConstPtr} {j : ℕ} (h : ∀ i ≤ j, p i = q i) : cut p j = cut q j := by
  have hall : (∀ i ≤ j, p i ≠ 0) ↔ ∀ i ≤ j, q i ≠ 0 :=
    forall₂_congr fun i hi => by rw [h i hi]
  simp only [cut, hall, h j le_rfl]

/-- Cutting twice is cutting once. -/
theorem cut_cut (src : ConstPtr) (j : ℕ) : cut (cut src) j = cut src j := by
  by_cases h : ∀ i ≤ j, src i ≠ 0
  · exact cut_congr fun i hi => cut_of_forall fun m hm => h m (hm.trans hi)
  · push Not at h
    obtain ⟨i, hi, h0⟩ := h
    rw [cut_of_exists hi (cut_of_exists le_rfl h0), cut_of_exists hi h0]

theorem CString.cut_ptr (s : CString) (j : ℕ) : cut s.ptr j = s.ptr j := by
  by_cases h : s.chars.length ≤ j
  · rw [cut_of_exists le_rfl (s.ptr_ge h), s.ptr_ge h]
  · apply cut_of_forall
    intro i hi h0
    have := (s.ptr_eq_zero_iff i).mp h0
    omega

theorem arrayPtr_strncpyPad (r i : ℕ) (dst : Vector UInt8 k) {j : ℕ} (hj : j < k) :
    arrayPtr (strncpyPad r i dst) j = if i ≤ j ∧ j < i + r then 0 else arrayPtr dst j := by
  induction r generalizing i dst with
  | zero => rw [strncpyPad, if_neg (by omega)]
  | succ r ih =>
      unfold strncpyPad
      rw [ih, arrayPtr_setIfInBounds dst i 0 hj]
      split_ifs <;> first | rfl | omega

/-- The copy loop stops at the first NUL or after `r` turns, with everything before copied. -/
theorem strncpyCopy_spec (src : ConstPtr) (r i : ℕ) (dst : Vector UInt8 k)
    (h : ∀ l < i, src l ≠ 0) :
    ∃ e d, strncpyCopy src r i dst = (e, d) ∧ i ≤ e ∧ e ≤ i + r ∧ (∀ l < e, src l ≠ 0) ∧
      (e < i + r → src e = 0) ∧
      ∀ j < k, arrayPtr d j = if i ≤ j ∧ j < e then src j else arrayPtr dst j := by
  induction r generalizing i dst with
  | zero =>
      refine ⟨i, dst, rfl, le_rfl, le_rfl, h, fun hlt => absurd hlt (by omega), fun j hj => ?_⟩
      rw [if_neg (by omega)]
  | succ r ih =>
      by_cases h0 : src i = 0
      · refine ⟨i, dst, by simp [strncpyCopy, h0], le_rfl, by omega, h, fun _ => h0, ?_⟩
        intro j hj
        rw [if_neg (by omega)]
      · have h' : ∀ l < i + 1, src l ≠ 0 := by
          intro l hl
          rcases Nat.lt_succ_iff_lt_or_eq.mp hl with hl | rfl
          · exact h l hl
          · exact h0
        obtain ⟨e, d, he, h1, h2, h3, h4, h5⟩ := ih (i + 1) (dst.setIfInBounds i (src i)) h'
        refine ⟨e, d, by simp [strncpyCopy, h0, he], by omega, by omega, h3,
          fun hlt => h4 (by omega), fun j hj => ?_⟩
        rw [h5 j hj, arrayPtr_setIfInBounds dst i (src i) hj]
        by_cases hij : i = j
        · subst hij; rw [if_neg (by omega), if_pos rfl, if_pos (by omega)]
        · rw [if_neg hij]; split_ifs <;> first | rfl | omega

/-- **`luna_strncpy`**: the first `n` bytes of `dst` become the characters of `src` up to its
first NUL, then zeros; the rest of `dst` stays. -/
theorem arrayPtr_lunaStrncpy (dst : Vector UInt8 k) (src : ConstPtr) (n : ℕ) {j : ℕ}
    (hj : j < k) :
    arrayPtr (lunaStrncpy dst src n) j = if j < n then cut src j else arrayPtr dst j := by
  obtain ⟨e, d, he, _, h2, h3, h4, h5⟩ :=
    strncpyCopy_spec src n 0 dst (fun l hl => absurd hl (by omega))
  simp only [lunaStrncpy, he]
  rw [arrayPtr_strncpyPad _ _ _ hj, h5 j hj]
  by_cases hjn : j < n
  · rw [if_pos hjn]
    by_cases hje : j < e
    · rw [if_neg (by omega), if_pos (by omega), cut_of_forall fun i hi => h3 i (by omega)]
    · rw [if_pos (by omega), cut_of_exists (i := e) (by omega) (h4 (by omega))]
  · rw [if_neg (by omega), if_neg (by omega), if_neg hjn]

end strncpy

/-! ### The string in a buffer -/

theorem bytesFrom_succ (p : ConstPtr) (n : ℕ) :
    bytesFrom p (n + 1) = p 0 :: bytesFrom (fun i => p (i + 1)) n := by
  simp [bytesFrom, List.range_succ_eq_map, Function.comp_def]

theorem CString.eq_of_chars {s t : CString} (h : s.chars = t.chars) : s = t := by
  cases s
  cases t
  simpa using h

/-- The characters at `p` before the first NUL, `n` of them at most. -/
def textAt (p : ConstPtr) (n : ℕ) : CString where
  chars := (bytesFrom p n).takeWhile (· ≠ 0)
  nonzero c hc := by simpa using List.all_eq_true.mp List.all_takeWhile c hc

theorem chars_textAt (p : ConstPtr) (n : ℕ) :
    (textAt p n).chars = (bytesFrom p n).takeWhile (· ≠ 0) := rfl

theorem textAt_congr {p q : ConstPtr} {n : ℕ} (h : ∀ i < n, p i = q i) : textAt p n = textAt q n := by
  simp only [textAt, bytesFrom_congr h]

/-- The string in a buffer that holds `cs`, with a NUL behind it if there is room. -/
theorem textAt_chars {p : ConstPtr} {cs : List UInt8} {m : ℕ} (h : bytesFrom p cs.length = cs)
    (hcs : ∀ c ∈ cs, c ≠ 0) (hzero : p cs.length = 0) (hm : cs.length ≤ m) :
    (textAt p m).chars = cs := by
  have hall : ∀ c ∈ cs, decide (c ≠ 0) = true := by simpa using hcs
  obtain ⟨r, rfl⟩ := Nat.exists_eq_add_of_le hm
  rw [chars_textAt, bytesFrom_add, h, List.takeWhile_append_of_pos hall]
  cases r with
  | zero => simp [bytesFrom]
  | succ r => simp [bytesFrom_succ, hzero]

/-- A string that fits. -/
theorem textAt_ptr {s : CString} {m : ℕ} (hm : s.chars.length ≤ m) : textAt s.ptr m = s := by
  apply CString.eq_of_chars
  exact textAt_chars (bytesFrom_listPtr s.chars) s.nonzero (s.ptr_ge le_rfl) hm

/-- A NUL at the end of the buffer is no character. -/
theorem textAt_succ {p : ConstPtr} {n : ℕ} (hzero : p n = 0) : textAt p (n + 1) = textAt p n := by
  have hlast : bytesFrom p (n + 1) = bytesFrom p n ++ [0] := by
    rw [bytesFrom_add]
    simp [bytesFrom, hzero]
  apply CString.eq_of_chars
  rw [chars_textAt, chars_textAt, hlast, List.takeWhile_append]
  split_ifs with hlen
  · rw [(List.takeWhile_prefix _).eq_of_length hlen]
    simp
  · rfl

theorem cut_succ {p : ConstPtr} (hzero : p 0 ≠ 0) (j : ℕ) : cut p (j + 1) = cut (fun i => p (i + 1)) j := by
  have hall : (∀ i ≤ j + 1, p i ≠ 0) ↔ ∀ i ≤ j, p (i + 1) ≠ 0 := by
    constructor
    · exact fun h i hi => h (i + 1) (by omega)
    · intro h i hi
      cases i with
      | zero => exact hzero
      | succ i => exact h i (by omega)
  simp only [cut, hall]

/-- The bytes behind the first NUL do not matter. -/
theorem textAt_cut (p : ConstPtr) (n : ℕ) : textAt (cut p) n = textAt p n := by
  apply CString.eq_of_chars
  rw [chars_textAt, chars_textAt]
  induction n generalizing p with
  | zero => rfl
  | succ n ih =>
      rw [bytesFrom_succ, bytesFrom_succ]
      by_cases hzero : p 0 = 0
      · have hcut : cut p 0 = 0 := cut_of_exists le_rfl hzero
        simp [hcut, hzero]
      · have hcut : cut p 0 = p 0 := cut_of_forall fun i hi => by rwa [Nat.le_zero.mp hi]
        have hshift : (fun i => cut p (i + 1)) = cut fun i => p (i + 1) := funext (cut_succ hzero)
        rw [hcut, hshift, List.takeWhile_cons_of_pos (by simpa using hzero),
          List.takeWhile_cons_of_pos (by simpa using hzero), ih]

/-- What `luna_strncpy` copies is the string. -/
theorem textAt_lunaStrncpy {k n : ℕ} (dst : Vector UInt8 k) (src : ConstPtr) (hn : n ≤ k) :
    textAt (arrayPtr (lunaStrncpy dst src n)) n = textAt src n := by
  rw [← textAt_cut src]
  apply textAt_congr
  intro i hi
  rw [arrayPtr_lunaStrncpy dst src n (by omega), if_pos hi]

end LunaOs
