import LunaOs.StringOps
import Mathlib.Data.List.Infix

/-! # Searching a string, `luna_strstr` of `kernel/string.c`

The search tries every position of the haystack from the left, each with one `luna_memcmp` over the
length of the needle.  The comparison stops at the first byte that differs, which is at the latest the
terminator of the haystack, so that no read goes behind it. -/

namespace LunaOs

/-- The bytes of a string literal of the source, which holds ASCII characters only. -/
def ascii (s : String) : List UInt8 := s.toList.map fun c => c.toNat.toUInt8

theorem ne_of_all {l : List UInt8} {a : UInt8} (h : l.all (· != a)) : ∀ c ∈ l, c ≠ a := by
  simpa using h

/-- A string literal with its terminator. -/
def literal (s : String) (nonzero : (ascii s).all (· != 0) := by decide) : CString :=
  ⟨ascii s, ne_of_all nonzero⟩

/-- The loop of `luna_strstr` at offset `i` with `r` characters before the terminator. -/
def strstrLoop (haystack needle : ConstPtr) (nlen : ℕ) : ℕ → ℕ → Option ℕ
  | 0, _ => none
  | r + 1, i =>
      if lunaMemcmp (fun j => haystack (i + j)) needle nlen = 0 then some i
      else strstrLoop haystack needle nlen r (i + 1)

/-- The offset of the result in the haystack, `none` for `NULL`. -/
def lunaStrstr (haystack needle : CString) : Option ℕ :=
  if needle.ptr 0 = 0 then some 0
  else strstrLoop haystack.ptr needle.ptr needle.chars.length haystack.chars.length 0

/-! ### Reads

An object is the list of its bytes, and a pointer into it the list of those from there on.  A read behind
them faults, which is `none`. -/

/-- `while (P(*s)) s++;` over the bytes from `s` on: how far `s` moves. -/
def advance (P : UInt8 → Bool) : List UInt8 → Option ℕ
  | [] => none
  | c :: cs => if P c then (advance P cs).map (· + 1) else some 0

def memcmpFrom : List UInt8 → List UInt8 → ℕ → Option ℤ
  | _, _, 0 => some 0
  | a :: p, b :: q, n + 1 => if a ≠ b then some (a.toNat - b.toNat) else memcmpFrom p q n
  | _, _, _ + 1 => none

/-- The loop over the haystack, where a read behind the terminator would be `none`. -/
def strstrFromLoop (needle : List UInt8) (nlen : ℕ) : List UInt8 → ℕ → Option (Option ℕ)
  | [], _ => none
  | c :: haystack, i =>
      if c = 0 then some none
      else do
        let r ← memcmpFrom (c :: haystack) needle nlen
        if r = 0 then some (some i) else strstrFromLoop needle nlen haystack (i + 1)

/-- `lunaStrstr` with the reads it makes. -/
def strstrFrom (haystack needle : List UInt8) : Option (Option ℕ) := do
  let c ← needle.head?
  if c = 0 then some (some 0)
  else
    let nlen ← advance (· ≠ 0) needle
    strstrFromLoop needle nlen haystack 0

section
variable {P : UInt8 → Bool} {l rest : List UInt8} {d : UInt8}

theorem advance_eq_some (hl : ∀ c ∈ l, P c) (hd : P d = false) :
    advance P (l ++ d :: rest) = some l.length := by
  induction l with
  | nil => simp [advance, hd]
  | cons c l ih =>
      obtain ⟨hc, hl⟩ := List.forall_mem_cons.mp hl
      simp [advance, hc, ih hl]

theorem advance_eq_none (hl : ∀ c ∈ l, P c) : advance P l = none := by
  induction l with
  | nil => rfl
  | cons c l ih =>
      obtain ⟨hc, hl⟩ := List.forall_mem_cons.mp hl
      simp [advance, hc, ih hl]

end

/-! ### Occurrences -/

/-- The needle stands at offset `i`. -/
def OccursAt (haystack needle : CString) (i : ℕ) : Prop := needle.chars <+: haystack.chars.drop i

section
variable {haystack needle : CString}

theorem memcmp_eq_zero_iff {i : ℕ} :
    lunaMemcmp (fun j => haystack.ptr (i + j)) needle.ptr needle.chars.length = 0 ↔
      OccursAt haystack needle i := by
  rw [lunaMemcmp_eq_zero, OccursAt, List.prefix_iff_getElem?]
  apply forall₂_congr
  intro j hj
  rw [List.getElem?_drop, needle.ptr_lt hj]
  rcases Nat.lt_or_ge (i + j) haystack.chars.length with hlt | hge
  · rw [haystack.ptr_lt hlt, List.getElem?_eq_getElem hlt, Option.some_inj]
  · rw [haystack.ptr_ge hge, List.getElem?_eq_none hge]
    have hne := needle.nonzero _ (List.getElem_mem hj)
    exact iff_of_false (fun heq => hne heq.symm) (fun heq => by cases heq)

/-- The loop finds the first occurrence from `i` on, or there is none. -/
theorem strstrLoop_cases (haystack needle : CString) (r i : ℕ) :
    (∃ j, strstrLoop haystack.ptr needle.ptr needle.chars.length r i = some j ∧ i ≤ j ∧ j < i + r ∧
      OccursAt haystack needle j ∧ ∀ m, i ≤ m → m < j → ¬ OccursAt haystack needle m) ∨
    (strstrLoop haystack.ptr needle.ptr needle.chars.length r i = none ∧
      ∀ m, i ≤ m → m < i + r → ¬ OccursAt haystack needle m) := by
  induction r generalizing i with
  | zero => exact .inr ⟨rfl, fun m h1 h2 => by omega⟩
  | succ r ih =>
      unfold strstrLoop
      split_ifs with hcmp
      · have hocc := memcmp_eq_zero_iff.mp hcmp
        exact .inl ⟨i, rfl, le_rfl, by omega, hocc, fun m h1 h2 => by omega⟩
      · have hocc := mt memcmp_eq_zero_iff.mpr hcmp
        have hstep : ∀ m, i ≤ m → m = i ∨ i + 1 ≤ m := fun m h => by omega
        rcases ih (i + 1) with ⟨j, hj, h1, h2, hat, hbefore⟩ | ⟨hnone, hall⟩
        · refine .inl ⟨j, hj, by omega, by omega, hat, fun m hm hlt => ?_⟩
          rcases hstep m hm with rfl | hm
          · exact hocc
          · exact hbefore m hm hlt
        · refine .inr ⟨hnone, fun m hm hlt => ?_⟩
          rcases hstep m hm with rfl | hm
          · exact hocc
          · exact hall m hm (by omega)

theorem OccursAt.lt {i : ℕ} (h : OccursAt haystack needle i) (hne : needle.chars ≠ []) :
    i < haystack.chars.length := by
  have hlen := h.length_le
  have hpos := List.length_pos_iff.mpr hne
  rw [List.length_drop] at hlen
  omega

theorem infix_iff_occursAt : needle.chars <:+: haystack.chars ↔ ∃ i, OccursAt haystack needle i := by
  constructor
  · rintro ⟨s, t, h⟩
    refine ⟨s.length, ?_⟩
    rw [OccursAt, ← h, List.append_assoc, List.drop_left]
    exact List.prefix_append _ _
  · rintro ⟨i, h⟩
    exact h.isInfix.trans (List.drop_suffix i _).isInfix

/-- **`luna_strstr`** finds the needle exactly if the haystack contains it. -/
theorem lunaStrstr_isSome : (lunaStrstr haystack needle).isSome = true ↔
    needle.chars <:+: haystack.chars := by
  have hzero : needle.ptr 0 = 0 ↔ needle.chars = [] := by
    rw [needle.ptr_eq_zero_iff, Nat.le_zero, List.length_eq_zero_iff]
  unfold lunaStrstr
  split_ifs with hempty
  · rw [hzero.mp hempty]
    exact iff_of_true rfl (List.nil_infix)
  · rw [hzero] at hempty
    rw [infix_iff_occursAt]
    rcases strstrLoop_cases haystack needle haystack.chars.length 0 with
      ⟨j, hj, _, _, hat, _⟩ | ⟨hnone, hall⟩
    · rw [hj]
      exact iff_of_true rfl ⟨j, hat⟩
    · rw [hnone]
      refine iff_of_false Bool.false_ne_true ?_
      rintro ⟨i, hat⟩
      have hlt := hat.lt hempty
      exact hall i (Nat.zero_le i) (by omega) hat

theorem toNat_sub_eq_zero {c d : UInt8} : (c.toNat - d.toNat : ℤ) = 0 ↔ c = d := by
  rw [sub_eq_zero, Nat.cast_inj, UInt8.toNat_inj]

/-- **`luna_memcmp` over a string that ends earlier** stops at its terminator. -/
theorem memcmpFrom_prefix {l w : List UInt8} (rest : List UInt8) (hw : ∀ c ∈ w, c ≠ 0) :
    ∃ r, memcmpFrom (l ++ [0]) (w ++ rest) w.length = some r ∧ (r = 0 ↔ w <+: l) := by
  induction w generalizing l with
  | nil =>
      refine ⟨0, ?_, iff_of_true rfl List.nil_prefix⟩
      cases l <;> rfl
  | cons b w ih =>
      obtain ⟨hb, hw⟩ := List.forall_mem_cons.mp hw
      have hne : ∀ a : UInt8, a ≠ b → (a.toNat - b.toNat : ℤ) ≠ 0 := fun a => mt toNat_sub_eq_zero.mp
      cases l with
      | nil =>
          refine ⟨(0 : UInt8).toNat - b.toNat, if_pos (Ne.symm hb), iff_of_false (hne 0 (Ne.symm hb)) ?_⟩
          rw [List.prefix_nil]
          exact List.cons_ne_nil b w
      | cons a l =>
          by_cases hab : a = b
          · obtain ⟨r, hr, hzero⟩ := ih (l := l) hw
            refine ⟨r, ?_, ?_⟩
            · rw [← hr, hab]
              exact if_neg (not_not_intro rfl)
            · rw [hzero, List.cons_prefix_cons, and_iff_right hab.symm]
          · refine ⟨a.toNat - b.toNat, if_pos hab, iff_of_false (hne a hab) ?_⟩
            rw [List.cons_prefix_cons]
            exact fun h => hab h.1.symm

theorem strstrFromLoop_eq {r i : ℕ} (h : i + r = haystack.chars.length) :
    strstrFromLoop (needle.chars ++ [0]) needle.chars.length (haystack.chars.drop i ++ [0]) i =
      some (strstrLoop haystack.ptr needle.ptr needle.chars.length r i) := by
  induction r generalizing i with
  | zero =>
      rw [List.drop_of_length_le (by omega)]
      rfl
  | succ r ih =>
      have hlt : i < haystack.chars.length := by omega
      obtain ⟨d, hd, hzero⟩ := memcmpFrom_prefix (l := haystack.chars.drop i) [0] needle.nonzero
      have hiff : d = 0 ↔ lunaMemcmp (fun j => haystack.ptr (i + j)) needle.ptr needle.chars.length = 0 :=
        hzero.trans memcmp_eq_zero_iff.symm
      have hne := haystack.nonzero _ (List.getElem_mem hlt)
      rw [List.drop_eq_getElem_cons hlt, List.cons_append] at hd ⊢
      unfold strstrFromLoop strstrLoop
      rw [if_neg hne, hd, Option.bind_eq_bind, Option.bind_some, ih (by omega)]
      by_cases hat : d = 0
      · rw [if_pos hat, if_pos (hiff.mp hat)]
      · rw [if_neg hat, if_neg (mt hiff.mpr hat)]

theorem strstrFrom_eq (haystack needle : CString) :
    strstrFrom (haystack.chars ++ [0]) (needle.chars ++ [0]) = some (lunaStrstr haystack needle) := by
  unfold strstrFrom lunaStrstr
  rcases hchars : needle.chars with _ | ⟨c, cs⟩
  · have hzero : needle.ptr 0 = 0 := (needle.ptr_eq_zero_iff 0).mpr (by simp [hchars])
    rw [if_pos hzero]
    rfl
  · have hne : needle.ptr 0 ≠ 0 := mt (needle.ptr_eq_zero_iff 0).mp (by simp [hchars])
    have hc : c ≠ 0 := needle.nonzero c (by simp [hchars])
    have hlen : advance (· ≠ 0) (c :: cs ++ [0]) = some (c :: cs).length :=
      advance_eq_some (fun a ha => by simpa using needle.nonzero a (hchars ▸ ha)) (by simp)
    have hloop := @strstrFromLoop_eq haystack needle _ 0 (Nat.zero_add _)
    rw [hchars, List.drop_zero] at hloop
    rw [if_neg hne, List.cons_append, List.head?_cons, Option.bind_eq_bind, Option.bind_some, if_neg hc]
    rw [← List.cons_append, hlen, Option.bind_eq_bind, Option.bind_some, hloop]

/-- **`luna_strstr`** finds the first occurrence, or there is none, and reads inside the two strings only. -/
theorem lunaStrstr_first (haystack needle : CString) :
    strstrFrom (haystack.chars ++ [0]) (needle.chars ++ [0]) = some (lunaStrstr haystack needle) ∧
      (∀ i, lunaStrstr haystack needle = some i →
        OccursAt haystack needle i ∧ ∀ m < i, ¬ OccursAt haystack needle m) ∧
      (lunaStrstr haystack needle = none ↔ ∀ i, ¬ OccursAt haystack needle i) := by
  refine ⟨strstrFrom_eq haystack needle, fun i hi => ?_, ?_⟩
  · unfold lunaStrstr at hi
    split_ifs at hi with hempty
    · obtain rfl : 0 = i := Option.some.inj hi
      rw [needle.ptr_eq_zero_iff, Nat.le_zero, List.length_eq_zero_iff] at hempty
      refine ⟨?_, fun m hm => absurd hm (Nat.not_lt_zero m)⟩
      rw [OccursAt, hempty]
      exact List.nil_prefix
    · rcases strstrLoop_cases haystack needle haystack.chars.length 0 with
        ⟨j, hj, _, _, hat, hbefore⟩ | ⟨hnone, _⟩
      · obtain rfl : j = i := Option.some.inj (hj.symm.trans hi)
        exact ⟨hat, fun m => hbefore m (Nat.zero_le m)⟩
      · rw [hnone] at hi
        cases hi
  · rw [← Option.not_isSome_iff_eq_none, lunaStrstr_isSome, infix_iff_occursAt, not_exists]

end

end LunaOs
