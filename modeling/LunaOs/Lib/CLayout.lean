import Mathlib.Data.List.Basic
import Mathlib.Data.Nat.Notation
import Mathlib.Order.Lattice

/-! # Layout of C structs

A struct places its members in order, each at the next multiple of the alignment of its type, and is
padded behind the last member to a multiple of the largest alignment.  `offsetof` and `sizeof` are
computed from the sizes and alignments alone; `image` is the byte content of a struct whose padding is
zero, as `memset` leaves it.  The bytes before the last member do not depend on that member
(`image_take_offset`), and it ends the struct exactly if there is no padding behind it
(`sizeof_sub_eq_iff`). -/

namespace CLayout

/-- The least multiple of `a` that is at least `n`. -/
def alignUp (n a : ℕ) : ℕ := (n + (a - 1)) / a * a

theorem le_alignUp (n : ℕ) {a : ℕ} (ha : 0 < a) : n ≤ alignUp n a := by
  have h := Nat.div_add_mod (n + (a - 1)) a
  have hlt := Nat.mod_lt (n + (a - 1)) ha
  unfold alignUp
  rw [Nat.mul_comm]
  omega

theorem alignUp_lt (n : ℕ) {a : ℕ} (ha : 0 < a) : alignUp n a < n + a := by
  have h := Nat.div_mul_le_self (n + (a - 1)) a
  unfold alignUp
  omega

theorem dvd_alignUp (n a : ℕ) : a ∣ alignUp n a := Nat.dvd_mul_left _ _

theorem alignUp_of_dvd {n a : ℕ} (ha : 0 < a) (h : a ∣ n) : alignUp n a = n := by
  obtain ⟨k, rfl⟩ := h
  unfold alignUp
  rw [Nat.mul_add_div ha, Nat.div_eq_of_lt (by omega), Nat.add_zero, Nat.mul_comm]

theorem alignUp_eq_self_iff {n a : ℕ} (ha : 0 < a) : alignUp n a = n ↔ a ∣ n :=
  ⟨fun h => h ▸ dvd_alignUp n a, alignUp_of_dvd ha⟩

/-- What the layout needs to know of the type of a member. -/
structure FieldType where
  size : ℕ
  align : ℕ
  align_pos : 0 < align

/-- The offset of a member of type `t` behind members that end at `pos`. -/
def FieldType.offset (t : FieldType) (pos : ℕ) : ℕ := alignUp pos t.align

/-- Where the members end when the first of them is placed behind `pos`. -/
def endOf : List FieldType → ℕ → ℕ
  | [], pos => pos
  | t :: ts, pos => endOf ts (t.offset pos + t.size)

/-- The alignment of a structure is the largest one of its members. -/
def structAlign (ts : List FieldType) : ℕ := ts.foldr (fun t a => max t.align a) 1

/-- The size with the padding at the end. -/
def sizeof (ts : List FieldType) : ℕ := alignUp (endOf ts 0) (structAlign ts)

/-- The offset of a member `t` that stands behind the members `ts`. -/
def offsetof (ts : List FieldType) (t : FieldType) : ℕ := t.offset (endOf ts 0)

theorem structAlign_pos (ts : List FieldType) : 0 < structAlign ts := by
  induction ts with
  | nil => exact Nat.one_pos
  | cons t ts _ => exact lt_of_lt_of_le t.align_pos (le_max_left _ _)

theorem endOf_append (ts us : List FieldType) (pos : ℕ) :
    endOf (ts ++ us) pos = endOf us (endOf ts pos) := by
  induction ts generalizing pos with
  | nil => rfl
  | cons t ts ih => exact ih _

theorem endOf_append_last (ts : List FieldType) (t : FieldType) :
    endOf (ts ++ [t]) 0 = offsetof ts t + t.size := endOf_append ts [t] 0

/-- **The last member ends the struct exactly if nothing is padded behind it.** -/
theorem sizeof_sub_eq_iff (ts : List FieldType) (t : FieldType) :
    sizeof (ts ++ [t]) - t.size = offsetof ts t ↔
      structAlign (ts ++ [t]) ∣ endOf (ts ++ [t]) 0 := by
  have hend := endOf_append_last ts t
  have hle : endOf (ts ++ [t]) 0 ≤ sizeof (ts ++ [t]) := le_alignUp _ (structAlign_pos _)
  rw [← alignUp_eq_self_iff (structAlign_pos _)]
  change _ ↔ sizeof (ts ++ [t]) = _
  omega

/-! ### Contents -/

/-- A member with its bytes. -/
structure Member where
  type : FieldType
  bytes : List UInt8
  sized : bytes.length = type.size

def types (ms : List Member) : List FieldType := ms.map Member.type

/-- The bytes from `pos` on: padding up to each member, then the member. -/
def place : List Member → ℕ → List UInt8
  | [], _ => []
  | m :: ms, pos =>
      List.replicate (m.type.offset pos - pos) 0 ++ m.bytes ++
        place ms (m.type.offset pos + m.type.size)

/-- All bytes of the struct. -/
def image (ms : List Member) : List UInt8 :=
  place ms 0 ++ List.replicate (sizeof (types ms) - endOf (types ms) 0) 0

theorem place_length (ms : List Member) (pos : ℕ) :
    pos + (place ms pos).length = endOf (types ms) pos := by
  induction ms generalizing pos with
  | nil => rfl
  | cons m ms ih =>
      have hle : pos ≤ m.type.offset pos := le_alignUp pos m.type.align_pos
      have hrest := ih (m.type.offset pos + m.type.size)
      simp only [place, types, List.map_cons, endOf, List.length_append, List.length_replicate,
        m.sized] at hrest ⊢
      omega

theorem place_append (ms ns : List Member) (pos : ℕ) :
    place (ms ++ ns) pos = place ms pos ++ place ns (endOf (types ms) pos) := by
  induction ms generalizing pos with
  | nil => rfl
  | cons m ms ih => simp [place, ih, types, endOf]

/-- The bytes before the last member: the members before it and the padding up to it. -/
def before (ms : List Member) (t : FieldType) : List UInt8 :=
  place ms 0 ++ List.replicate (offsetof (types ms) t - endOf (types ms) 0) 0

theorem before_length (ms : List Member) (t : FieldType) :
    (before ms t).length = offsetof (types ms) t := by
  have h := place_length ms 0
  have hle : endOf (types ms) 0 ≤ offsetof (types ms) t := le_alignUp _ t.align_pos
  simp [before]
  omega

/-- A struct is the bytes before its last member, that member, and padding. -/
theorem image_append_last (ms : List Member) (m : Member) :
    image (ms ++ [m]) = before ms m.type ++ (m.bytes ++
      List.replicate (sizeof (types (ms ++ [m])) - endOf (types (ms ++ [m])) 0) 0) := by
  unfold image before
  rw [place_append]
  simp [place, offsetof]

/-- **The bytes before the last member do not depend on it.** -/
theorem image_take_offset (ms : List Member) (m : Member) :
    (image (ms ++ [m])).take (offsetof (types ms) m.type) = before ms m.type := by
  rw [image_append_last, ← before_length, List.take_left]

end CLayout
