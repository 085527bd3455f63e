import Mathlib.Data.List.Basic
import Mathlib.Data.Nat.Notation

/-! # The transmitter of a 16550 UART

The registers at offsets 0 to 4, the bytes that wait in the transmitter, and the frames that the line has
carried, each with the divisor and the format it was sent with.  The holding register takes one byte and
the FIFO sixteen; a byte too many is lost.  `stream` is all that the line carries in the end, unless the
registers change: the device does not change it, and a byte that is written to an empty transmitter
comes last. -/

namespace Uart16550

/-- A byte on the line, with the speed and the format it was sent with. -/
structure Frame where
  byte : UInt8
  divisor : UInt16
  format : UInt8
deriving DecidableEq

/-- The registers of the device that the transmitter depends on, and what it has sent. -/
structure Uart where
  ier : UInt8
  lcr : UInt8
  mcr : UInt8
  fifo : Bool
  divisor : UInt16
  pending : List UInt8
  sent : List Frame

namespace Uart

variable (u : Uart)

/-- The divisor latch access bit, which puts the divisor in the place of the first two registers. -/
def dlab : Prop := u.lcr &&& 0x80 ≠ 0

instance : Decidable u.dlab := inferInstanceAs (Decidable (_ ≠ _))

/-- How many bytes wait at most. -/
def capacity : ℕ := if u.fifo then 16 else 1

/-- A byte for the transmitter, which loses one when it is full. -/
def transmit (v : UInt8) : Uart :=
  if u.pending.length < u.capacity then { u with pending := u.pending ++ [v] }
  else if u.fifo then u
  else { u with pending := [v] }

/-- A write of a register; the divisor takes the place of the first two under the DLAB bit. -/
def write (offset : ℕ) (v : UInt8) : Uart :=
  match offset with
  | 0 => if u.dlab then { u with divisor := (u.divisor &&& (0xFF00 : UInt16)) ||| v.toUInt16 } else u.transmit v
  | 1 =>
      if u.dlab then { u with divisor := (u.divisor &&& (0x00FF : UInt16)) ||| v.toUInt16 <<< 8 }
      else { u with ier := v &&& 0x0F }
  | 2 =>
      { u with
        fifo := v &&& 1 ≠ 0
        pending := if v &&& 4 ≠ 0 ∨ (v &&& 1 ≠ 0) ≠ (u.fifo = true) then [] else u.pending }
  | 3 => { u with lcr := v }
  | 4 => { u with mcr := v &&& 0x1F }
  | _ => u

/-- The line status with the bits that do not concern the transmitter. -/
def lineStatus (otherBits : UInt8) : UInt8 :=
  (otherBits &&& (0xDF : UInt8)) ||| if u.pending = [] then 0x20 else 0

/-- The frame of a byte with the present registers. -/
def frame (b : UInt8) : Frame := ⟨b, u.divisor, u.lcr⟩

/-- The oldest byte that waits goes out. -/
def shift : Uart :=
  match u.pending with
  | [] => u
  | b :: rest => { u with pending := rest, sent := u.sent ++ [u.frame b] }

def stream : List Frame := u.sent ++ u.pending.map u.frame

variable {u}

theorem shift_stream : u.shift.stream = u.stream := by
  unfold shift stream
  cases hpending : u.pending with
  | nil => simp [hpending]
  | cons b rest => simp [frame]

/-- The registers are what they were. -/
def SameRegisters (u u' : Uart) : Prop :=
  u'.ier = u.ier ∧ u'.lcr = u.lcr ∧ u'.mcr = u.mcr ∧ u'.fifo = u.fifo ∧ u'.divisor = u.divisor

theorem SameRegisters.refl (u : Uart) : SameRegisters u u := ⟨rfl, rfl, rfl, rfl, rfl⟩

theorem SameRegisters.trans {u' u'' : Uart} (h : SameRegisters u u') (h' : SameRegisters u' u'') :
    SameRegisters u u'' :=
  ⟨h'.1.trans h.1, h'.2.1.trans h.2.1, h'.2.2.1.trans h.2.2.1, h'.2.2.2.1.trans h.2.2.2.1,
    h'.2.2.2.2.trans h.2.2.2.2⟩

theorem shift_registers (u : Uart) : SameRegisters u u.shift := by
  unfold shift
  cases u.pending with
  | nil => exact SameRegisters.refl u
  | cons b rest => exact ⟨rfl, rfl, rfl, rfl, rfl⟩

theorem shift_pending_length (u : Uart) : u.shift.pending.length = u.pending.length - 1 := by
  unfold shift
  cases hpending : u.pending with
  | nil => rw [hpending]; rfl
  | cons b rest => rfl

/-- The status says whether the transmitter is empty. -/
theorem lineStatus_empty_iff (otherBits : UInt8) : u.lineStatus otherBits &&& 0x20 = 0 ↔ u.pending ≠ [] := by
  have hmask : otherBits &&& 0xDF &&& 0x20 = 0 := by
    rw [UInt8.and_assoc]
    exact UInt8.and_zero
  have hdistrib : ∀ a b c : UInt8, (a ||| b) &&& c = (a &&& c) ||| (b &&& c) := by
    intro a b c
    apply UInt8.toBitVec_inj.mp
    ext i hi
    simp [Bool.and_or_distrib_right]
  unfold lineStatus
  rw [hdistrib, hmask]
  split_ifs with h
  · exact iff_of_false (by decide) (not_not.mpr h)
  · exact iff_of_true (by decide) h

/-- A byte for an empty transmitter. -/
theorem write_stream (h : u.pending = []) (hdlab : ¬ u.dlab) (v : UInt8) :
    (u.write 0 v).stream = u.stream ++ [u.frame v] ∧ (u.write 0 v).pending = [v] ∧
      SameRegisters u (u.write 0 v) := by
  have hcapacity : 0 < u.capacity := by
    unfold capacity
    split_ifs <;> decide
  have hwrite : u.write 0 v = { u with pending := [v] } := by
    show (if u.dlab then _ else u.transmit v) = _
    rw [if_neg hdlab]
    unfold transmit
    rw [h, if_pos (show ([] : List UInt8).length < u.capacity from hcapacity)]
    rfl
  rw [hwrite]
  refine ⟨?_, rfl, rfl, rfl, rfl, rfl, rfl⟩
  unfold stream
  rw [h]
  simp [frame]

end Uart

end Uart16550
