import Mathlib.Algebra.GroupWithZero.Nat
import Mathlib.Data.List.FinRange
import Mathlib.Logic.Function.Basic

/-! # The 8259A interrupt controller

Two controllers with the slave at line 2 of the master, edge triggered and fully nested.  A request waits
until it is put to the processor, which it is when its line is not masked and nothing of its priority or
a higher one is in service; then it is in service until an end of interrupt.  Line 0 has the highest
priority.

Of the operation command words only the mask and the unspecific end of interrupt are described; the
initialization takes its words in the order of the data sheet. -/

namespace Pic8259

/-- Which word the data port expects next. -/
inductive Expects where
  | icw2
  | icw3
  | icw4
  | mask
deriving DecidableEq

/-- The registers of one controller, and where it is in its initialization. -/
structure Chip where
  irr : Fin 8 → Bool
  isr : Fin 8 → Bool
  imr : UInt8
  base : UInt8
  cascade : UInt8
  mode : UInt8
  expects : Expects
  single : Bool
  needsIcw4 : Bool

/-- The line of the highest priority. -/
def highest (r : Fin 8 → Bool) : Option (Fin 8) := (List.finRange 8).find? r

namespace Chip

variable (c : Chip)

def masked (k : Fin 8) : Bool := c.imr.toBitVec.getLsbD k

/-- Nothing is in service. -/
def Idle : Prop := ∀ k, c.isr k = false

/-- The request that is put to the processor. -/
def offered (requests : Fin 8 → Bool) : Option (Fin 8) :=
  if c.expects = .mask then
    (highest fun k => requests k && !c.masked k).filter fun k => ∀ j ≤ k, c.isr j = false
  else none

def request (k : Fin 8) : Chip := { c with irr := Function.update c.irr k true }

/-- The request of line `k` goes into service. -/
def serve (k : Fin 8) : Chip :=
  { c with irr := Function.update c.irr k false, isr := Function.update c.isr k true }

/-- The unspecific end of interrupt. -/
def endOfInterrupt : Chip :=
  match highest c.isr with
  | none => c
  | some k => { c with isr := Function.update c.isr k false }

/-- A byte for the port with A0 = 0. -/
def writeCommand (v : UInt8) : Chip :=
  if v &&& 0x10 ≠ 0 then
    { c with
      irr := fun _ => false
      imr := 0
      mode := 0
      expects := .icw2
      single := v &&& 2 ≠ 0
      needsIcw4 := v &&& 1 ≠ 0 }
  else if v = 0x20 then c.endOfInterrupt
  else c

/-- A byte for the port with A0 = 1. -/
def writeData (v : UInt8) : Chip :=
  match c.expects with
  | .icw2 =>
      { c with
        base := v &&& 0xF8
        expects := if c.single then (if c.needsIcw4 then .icw4 else .mask) else .icw3 }
  | .icw3 => { c with cascade := v, expects := if c.needsIcw4 then .icw4 else .mask }
  | .icw4 => { c with mode := v, expects := .mask }
  | .mask => { c with imr := v }

end Chip

/-- A master with a slave on its line 2. -/
structure Pair where
  master : Chip
  slave : Chip

theorem sub_eight_lt {n : Fin 16} (h : ¬ n.val < 8) : n.val - 8 < 8 := by omega

namespace Pair

variable (p : Pair)

theorem lines_ne_zero : 8 ≠ 0 := by decide

/-- The lines of a controller are numerals. -/
local instance neZeroLines : NeZero 8 := ⟨lines_ne_zero⟩

/-- The line that the slave asks the master to serve. -/
def slaveOffered : Option (Fin 8) := p.slave.offered p.slave.irr

/-- What the lines of the master ask for. -/
def requests (k : Fin 8) : Bool := if k = 2 then p.slaveOffered.isSome else p.master.irr k

/-- The line whose request is put to the processor. -/
def offered : Option (Fin 16) :=
  (p.master.offered p.requests).bind fun k =>
    if k = 2 then p.slaveOffered.map fun j => ⟨8 + j.val, by omega⟩ else some ⟨k, by omega⟩

def request (n : Fin 16) : Pair :=
  if h : n.val < 8 then { p with master := p.master.request ⟨n, h⟩ }
  else { p with slave := p.slave.request ⟨n - 8, sub_eight_lt h⟩ }

/-- The processor takes the interrupt of a line. -/
def serve (n : Fin 16) : Pair :=
  if h : n.val < 8 then { p with master := p.master.serve ⟨n, h⟩ }
  else ⟨p.master.serve 2, p.slave.serve ⟨n - 8, sub_eight_lt h⟩⟩

/-- The vector that goes with it. -/
def vector (n : Fin 16) : UInt8 :=
  if n.val < 8 then p.master.base + UInt8.ofNat n else p.slave.base + UInt8.ofNat (n - 8)

def Idle : Prop := p.master.Idle ∧ p.slave.Idle

/-- Both controllers are initialized. -/
def Ready : Prop := p.master.expects = .mask ∧ p.slave.expects = .mask

/-- The line has a request that no mask holds back. -/
def Waits (n : Fin 16) : Prop :=
  if h : n.val < 8 then n.val ≠ 2 ∧ p.master.irr ⟨n, h⟩ = true ∧ p.master.masked ⟨n, h⟩ = false
  else p.slave.irr ⟨n - 8, sub_eight_lt h⟩ = true ∧ p.slave.masked ⟨n - 8, sub_eight_lt h⟩ = false ∧
    p.master.masked 2 = false

end Pair

/-! ### The highest line -/

theorem highest_eq_some_iff {r : Fin 8 → Bool} {k : Fin 8} :
    highest r = some k ↔ r k = true ∧ ∀ j < k, r j = false := by
  unfold highest
  rw [List.find?_eq_some_iff_getElem]
  refine and_congr_right fun _ => ⟨?_, fun h => ?_⟩
  · rintro ⟨i, hi, hk, hbefore⟩ j hj
    rw [List.getElem_finRange] at hk
    have hji : j.val < i := by
      have := congrArg Fin.val hk
      have hlt : j.val < k.val := hj
      simp only [Fin.val_cast] at this
      omega
    have hnot := hbefore j.val hji
    rw [List.getElem_finRange] at hnot
    simpa using hnot
  · refine ⟨k, by simp, by simp, fun j hj => ?_⟩
    rw [List.getElem_finRange]
    simpa using h ⟨j, Nat.lt_trans hj k.isLt⟩ hj

theorem highest_eq_none_iff {r : Fin 8 → Bool} : highest r = none ↔ ∀ k, r k = false := by
  unfold highest
  rw [List.find?_eq_none]
  simp

/-! ### Service -/

namespace Chip

variable {c : Chip} {k : Fin 8}

theorem offered_eq_some_iff {requests : Fin 8 → Bool} : c.offered requests = some k ↔
    c.expects = .mask ∧ (requests k = true ∧ c.masked k = false) ∧
      (∀ j < k, requests j = true → c.masked j = true) ∧ ∀ j ≤ k, c.isr j = false := by
  unfold offered
  split_ifs with hready
  · rw [Option.filter_eq_some_iff, highest_eq_some_iff]
    simp only [Bool.and_eq_true, Bool.not_eq_true', Bool.and_eq_false_imp, Bool.not_eq_false',
      decide_eq_true_eq, hready, true_and, and_assoc]
  · simp [hready]

/-- With nothing in service, a request that is not masked is put to the processor. -/
theorem Idle.offered_isSome (h : c.Idle) (hready : c.expects = .mask) {requests : Fin 8 → Bool} :
    (c.offered requests).isSome ↔ ∃ k, requests k = true ∧ c.masked k = false := by
  constructor
  · intro hsome
    obtain ⟨k, hk⟩ := Option.isSome_iff_exists.mp hsome
    exact ⟨k, (offered_eq_some_iff.mp hk).2.1⟩
  · rintro ⟨k, hrequest, hmask⟩
    cases hhighest : highest fun k => requests k && !c.masked k with
    | none =>
        have hnone := highest_eq_none_iff.mp hhighest k
        rw [hrequest, hmask] at hnone
        cases hnone
    | some j =>
        unfold offered
        rw [if_pos hready, hhighest, Option.filter_some, if_pos (by simpa using fun i _ => h i)]
        rfl

/-- Line 0 in service keeps everything else away. -/
theorem offered_eq_none (h : c.isr 0 = true) (requests : Fin 8 → Bool) : c.offered requests = none := by
  by_contra hne
  obtain ⟨k, hk⟩ := Option.ne_none_iff_exists'.mp hne
  have hzero := (offered_eq_some_iff.mp hk).2.2.2 0 (Fin.zero_le k)
  rw [h] at hzero
  cases hzero

theorem Idle.endOfInterrupt (h : c.Idle) : c.endOfInterrupt = c := by
  unfold Chip.endOfInterrupt
  rw [highest_eq_none_iff.mpr h]

theorem Idle.serve_endOfInterrupt (h : c.Idle) (k : Fin 8) : (c.serve k).endOfInterrupt.Idle := by
  have hisr : ∀ j, (c.serve k).isr j = decide (j = k) := by
    intro j
    by_cases hj : j = k
    · subst hj
      exact (Function.update_self _ _ _).trans (decide_eq_true rfl).symm
    · rw [decide_eq_false hj]
      exact (Function.update_of_ne hj _ _).trans (h j)
  have hhighest : highest (c.serve k).isr = some k := by
    refine highest_eq_some_iff.mpr ⟨(hisr k).trans (decide_eq_true rfl), fun j hj => ?_⟩
    exact (hisr j).trans (decide_eq_false (ne_of_lt hj))
  unfold Chip.endOfInterrupt
  rw [hhighest]
  intro j
  by_cases hj : j = k
  · subst hj
    exact Function.update_self _ _ _
  · exact (Function.update_of_ne hj _ _).trans ((hisr j).trans (decide_eq_false hj))

theorem not_idle_serve (c : Chip) (k : Fin 8) : ¬ (c.serve k).Idle :=
  fun h => Bool.noConfusion ((h k).symm.trans (Function.update_self _ _ _))

theorem endOfInterrupt_expects (c : Chip) : c.endOfInterrupt.expects = c.expects := by
  unfold Chip.endOfInterrupt
  cases highest c.isr <;> rfl

end Chip

namespace Pair

variable {p : Pair}

/-- With nothing in service, a request that waits is put to the processor, or one of a higher priority. -/
theorem Idle.offered_of_waits (h : p.Idle) (hready : p.Ready) {n : Fin 16} (hn : p.Waits n) :
    p.offered.isSome := by
  have hmaster : (p.master.offered p.requests).isSome := by
    rw [h.1.offered_isSome hready.1]
    unfold Waits at hn
    split_ifs at hn with hlt
    · obtain ⟨hne, hrequest, hmask⟩ := hn
      have hne2 : (⟨n, hlt⟩ : Fin 8) ≠ 2 := fun heq =>
        hne (show n.val = 2 from congrArg Fin.val heq)
      exact ⟨⟨n, hlt⟩, (if_neg hne2).trans hrequest, hmask⟩
    · obtain ⟨hrequest, hmask, hcascade⟩ := hn
      exact ⟨2, (if_pos rfl).trans ((h.2.offered_isSome hready.2).mpr ⟨_, hrequest, hmask⟩), hcascade⟩
  obtain ⟨k, hk⟩ := Option.isSome_iff_exists.mp hmaster
  have hrequests := (Chip.offered_eq_some_iff.mp hk).2.1.1
  unfold offered
  rw [hk, Option.bind_some]
  split_ifs with h2
  · subst h2
    rw [Option.isSome_map]
    exact (if_pos rfl).symm.trans hrequests
  · rfl

end Pair

end Pic8259
