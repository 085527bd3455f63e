import LunaOs.Idt
import LunaOs.Irq
import LunaOs.Lib.Pic8259
import Mathlib.Tactic.FinCases

/-! # The driver of the interrupt controllers

`arch/x86/pic.c` as the bytes it writes to the ports of two 8259A.  After `pic_remap` each line has the
vector of its own gate, and `pic_mask_irq` and `pic_unmask_irq` decide about their own line only
(`remapped_run`).  At boot `timer_init` unmasks line 0 and nothing else is unmasked, though handlers are
registered for the keyboard and the mouse. -/

namespace LunaOs

open Pic8259

/-- The ports of the two controllers. -/
def PIC1_CMD : UInt16 := 0x20
def PIC1_DATA : UInt16 := 0x21
def PIC2_CMD : UInt16 := 0xA0
def PIC2_DATA : UInt16 := 0xA1
def PIC_EOI : UInt8 := 0x20
def ICW1_ICW4 : UInt8 := 0x01
def ICW1_INIT : UInt8 := 0x10
def ICW4_8086 : UInt8 := 0x01

/-! ### Ports -/

/-- A write to a port; the controllers listen to four of them. -/
def outb (p : Pair) (port : UInt16) (val : UInt8) : Pair :=
  if port = PIC1_CMD then { p with master := p.master.writeCommand val }
  else if port = PIC1_DATA then { p with master := p.master.writeData val }
  else if port = PIC2_CMD then { p with slave := p.slave.writeCommand val }
  else if port = PIC2_DATA then { p with slave := p.slave.writeData val }
  else p

/-- The driver reads the data ports alone, which give the masks. -/
def inb (p : Pair) (port : UInt16) : UInt8 :=
  if port = PIC2_DATA then p.slave.imr else p.master.imr

/-- A write that no controller takes. -/
def ioWait (p : Pair) : Pair := outb p 0x80 0

/-! ### The driver -/

/-- `pic_remap`, which keeps the masks. -/
def picRemap (p : Pair) (masterOffset slaveOffset : UInt8) : Pair :=
  let m := inb p PIC1_DATA
  let s := inb p PIC2_DATA
  let p := ioWait (outb p PIC1_CMD (ICW1_INIT ||| ICW1_ICW4))
  let p := ioWait (outb p PIC2_CMD (ICW1_INIT ||| ICW1_ICW4))
  let p := ioWait (outb p PIC1_DATA masterOffset)
  let p := ioWait (outb p PIC2_DATA slaveOffset)
  let p := ioWait (outb p PIC1_DATA 4)
  let p := ioWait (outb p PIC2_DATA 2)
  let p := ioWait (outb p PIC1_DATA ICW4_8086)
  let p := ioWait (outb p PIC2_DATA ICW4_8086)
  let p := outb p PIC1_DATA m
  outb p PIC2_DATA s

/-- A line from 8 on is one of the slave. -/
def picMaskIrq (p : Pair) (irq : UInt8) : Pair :=
  let port := if irq < 8 then PIC1_DATA else PIC2_DATA
  let irq := if 8 ≤ irq then irq - 8 else irq
  outb p port ((inb p port).toUInt32 ||| (1 <<< irq.toUInt32)).toUInt8

/-- A line of the slave does not unmask line 2 of the master. -/
def picUnmaskIrq (p : Pair) (irq : UInt8) : Pair :=
  let port := if irq < 8 then PIC1_DATA else PIC2_DATA
  let irq := if 8 ≤ irq then irq - 8 else irq
  outb p port ((inb p port).toUInt32 &&& ~~~(1 <<< irq.toUInt32)).toUInt8

/-- An end of interrupt of `pic_send_eoi` or of `irq_handler`. -/
def sendEoi (p : Pair) : Pic → Pair
  | .master => outb p PIC1_CMD PIC_EOI
  | .slave => outb p PIC2_CMD PIC_EOI

/-! ### After the initialization -/

/-- Both controllers are initialized, in 8086 mode and with the slave at line 2, and no request waits. -/
structure SetUp (masterOffset slaveOffset : UInt8) (p : Pair) : Prop where
  masterReady : p.master.expects = .mask
  slaveReady : p.slave.expects = .mask
  masterBase : p.master.base = masterOffset &&& 0xF8
  slaveBase : p.slave.base = slaveOffset &&& 0xF8
  masterCascade : p.master.cascade = 4 ∧ p.master.single = false
  slaveCascade : p.slave.cascade = 2 ∧ p.slave.single = false
  masterMode : p.master.mode = ICW4_8086
  slaveMode : p.slave.mode = ICW4_8086
  masterRequests : ∀ k, p.master.irr k = false
  slaveRequests : ∀ k, p.slave.irr k = false

/-- Whether the line itself is masked. -/
def lineMasked (p : Pair) (n : Fin 16) : Bool :=
  if h : n.val < 8 then p.master.masked ⟨n, h⟩ else p.slave.masked ⟨n - 8, sub_eight_lt h⟩

theorem picRemap_eq (p : Pair) (masterOffset slaveOffset : UInt8) : picRemap p masterOffset slaveOffset =
    ⟨{ p.master with
        irr := fun _ => false, base := masterOffset &&& 0xF8, cascade := 4, mode := 1, expects := .mask
        single := false, needsIcw4 := true },
      { p.slave with
        irr := fun _ => false, base := slaveOffset &&& 0xF8, cascade := 2, mode := 1, expects := .mask
        single := false, needsIcw4 := true }⟩ := rfl

theorem setUp_picRemap (p : Pair) (masterOffset slaveOffset : UInt8) :
    SetUp masterOffset slaveOffset (picRemap p masterOffset slaveOffset) := by
  rw [picRemap_eq]
  exact ⟨rfl, rfl, rfl, rfl, ⟨rfl, rfl⟩, ⟨rfl, rfl⟩, rfl, rfl, fun _ => rfl, fun _ => rfl⟩

/-! ### Masks -/

theorem getLsbD_shifted (k : UInt8) (hk : k < 8) {j : ℕ} (hj : j < 32) :
    ((1 : UInt32) <<< k.toUInt32).toBitVec.getLsbD j = decide (j = k.toNat) := by
  have hk' : k.toNat < 8 := hk
  have hshift : (k.toUInt32.toBitVec % 32).toNat = k.toNat := by
    show k.toNat % 32 = k.toNat
    omega
  rw [UInt32.toBitVec_shiftLeft, BitVec.shiftLeft_eq', hshift]
  exact Bitmap.getLsbD_one_shiftLeft hj

theorem getLsbD_setBit (x k : UInt8) (hk : k < 8) {j : ℕ} (hj : j < 8) :
    (x.toUInt32 ||| (1 <<< k.toUInt32)).toUInt8.toBitVec.getLsbD j =
      (x.toBitVec.getLsbD j || decide (j = k.toNat)) := by
  rw [UInt32.toBitVec_toUInt8, BitVec.getLsbD_setWidth, UInt32.toBitVec_or, BitVec.getLsbD_or,
    getLsbD_shifted k hk (by omega), UInt8.toBitVec_toUInt32, BitVec.getLsbD_setWidth]
  simp [hj, show j < 32 by omega]

theorem getLsbD_clearBit (x k : UInt8) (hk : k < 8) {j : ℕ} (hj : j < 8) :
    (x.toUInt32 &&& ~~~(1 <<< k.toUInt32)).toUInt8.toBitVec.getLsbD j =
      (x.toBitVec.getLsbD j && !decide (j = k.toNat)) := by
  rw [UInt32.toBitVec_toUInt8, BitVec.getLsbD_setWidth, UInt32.toBitVec_and, BitVec.getLsbD_and,
    UInt32.toBitVec_not, BitVec.getLsbD_not, getLsbD_shifted k hk (by omega), UInt8.toBitVec_toUInt32,
    BitVec.getLsbD_setWidth]
  simp [hj, show j < 32 by omega]

/-- A call of `pic_mask_irq` or of `pic_unmask_irq`. -/
structure MaskCall where
  irq : Fin 16
  masks : Bool

def MaskCall.run (p : Pair) (c : MaskCall) : Pair :=
  if c.masks then picMaskIrq p (UInt8.ofNat c.irq) else picUnmaskIrq p (UInt8.ofNat c.irq)

/-- The mask with the bit of one line changed. -/
def maskByte (imr k : UInt8) (masks : Bool) : UInt8 :=
  if masks then (imr.toUInt32 ||| (1 <<< k.toUInt32)).toUInt8
  else (imr.toUInt32 &&& ~~~(1 <<< k.toUInt32)).toUInt8

theorem getLsbD_maskByte (imr : UInt8) {k : UInt8} (hk : k < 8) (masks : Bool) {j : ℕ} (hj : j < 8) :
    (maskByte imr k masks).toBitVec.getLsbD j = if j = k.toNat then masks else imr.toBitVec.getLsbD j := by
  unfold maskByte
  cases masks with
  | true =>
      rw [if_pos rfl, getLsbD_setBit imr k hk hj]
      split_ifs <;> simp [*]
  | false =>
      rw [if_neg Bool.false_ne_true, getLsbD_clearBit imr k hk hj]
      split_ifs <;> simp [*]

theorem writeData_mask {c : Chip} (h : c.expects = .mask) (v : UInt8) : c.writeData v = { c with imr := v } := by
  unfold Chip.writeData
  rw [h]

theorem ofNat_lt_eight (n : Fin 16) : UInt8.ofNat n < 8 ↔ n.val < 8 := by
  revert n
  decide

theorem ofNat_sub_eight {n : Fin 16} (h : ¬ n.val < 8) : UInt8.ofNat n - 8 = UInt8.ofNat (n.val - 8) := by
  revert n
  decide

/-- A call writes the mask of the controller of its line. -/
theorem MaskCall.run_eq {p : Pair} (hmaster : p.master.expects = .mask) (hslave : p.slave.expects = .mask)
    (c : MaskCall) : c.run p =
      if c.irq.val < 8 then
        { p with master := { p.master with imr := maskByte p.master.imr (UInt8.ofNat c.irq) c.masks } }
      else
        { p with slave := { p.slave with imr := maskByte p.slave.imr (UInt8.ofNat (c.irq - 8)) c.masks } } := by
  obtain ⟨irq, masks⟩ := c
  unfold MaskCall.run picMaskIrq picUnmaskIrq maskByte
  dsimp only
  by_cases hirq : irq.val < 8
  · have h8 := (ofNat_lt_eight irq).mpr hirq
    rw [if_pos h8, if_neg (UInt8.not_le.mpr h8), if_pos hirq]
    cases masks with
    | true => exact congrArg (fun c => Pair.mk c p.slave) (writeData_mask hmaster _)
    | false => exact congrArg (fun c => Pair.mk c p.slave) (writeData_mask hmaster _)
  · have h8 := fun h => hirq ((ofNat_lt_eight irq).mp h)
    rw [if_neg h8, if_pos (UInt8.not_lt.mp h8), if_neg hirq, ofNat_sub_eight hirq]
    cases masks with
    | true => exact congrArg (Pair.mk p.master) (writeData_mask hslave _)
    | false => exact congrArg (Pair.mk p.master) (writeData_mask hslave _)

/-- A call decides about its own line. -/
theorem MaskCall.lineMasked_run {p : Pair} (hmaster : p.master.expects = .mask)
    (hslave : p.slave.expects = .mask) (c : MaskCall) (n : Fin 16) :
    lineMasked (c.run p) n = if n = c.irq then c.masks else lineMasked p n := by
  have hc := c.irq.isLt
  have hn := n.isLt
  have htoNat : ∀ k, k < 8 → (UInt8.ofNat k).toNat = k := fun k hk => by
    rw [UInt8.toNat_ofNat']
    omega
  rw [c.run_eq hmaster hslave]
  unfold lineMasked Chip.masked
  by_cases hirq : c.irq.val < 8
  · rw [if_pos hirq]
    split_ifs with hline heq heq
    · rw [getLsbD_maskByte _ ((ofNat_lt_eight _).mpr hirq) _ hline, htoNat _ hirq, if_pos (congrArg Fin.val heq)]
    · rw [getLsbD_maskByte _ ((ofNat_lt_eight _).mpr hirq) _ hline, htoNat _ hirq,
        if_neg fun h => heq (Fin.ext h)]
    · exact absurd (heq ▸ hirq) hline
    · rfl
  · have hk : c.irq.val - 8 < 8 := by omega
    have hk8 : UInt8.ofNat (c.irq.val - 8) < 8 := (ofNat_lt_eight ⟨c.irq.val - 8, by omega⟩).mpr hk
    rw [if_neg hirq]
    split_ifs with hline heq heq
    · exact absurd (heq ▸ hline) hirq
    · rfl
    · rw [getLsbD_maskByte _ hk8 _ (by omega), htoNat _ hk,
        if_pos (show n.val - 8 = c.irq.val - 8 by rw [heq])]
    · rw [getLsbD_maskByte _ hk8 _ (by omega), htoNat _ hk, if_neg fun h => ?_]
      have hval : n.val - 8 = c.irq.val - 8 := h
      exact heq (Fin.ext (by omega))

theorem SetUp.run {masterOffset slaveOffset : UInt8} {p : Pair} (h : SetUp masterOffset slaveOffset p)
    (c : MaskCall) : SetUp masterOffset slaveOffset (c.run p) := by
  rw [c.run_eq h.masterReady h.slaveReady]
  split_ifs
  · exact { h with }
  · exact { h with }

/-- What the last call for a line has asked for. -/
def lastCall (calls : List MaskCall) (n : Fin 16) : Option Bool :=
  (calls.reverse.find? fun c => c.irq = n).map MaskCall.masks

theorem foldl_run {masterOffset slaveOffset : UInt8} {p : Pair} (h : SetUp masterOffset slaveOffset p)
    (calls : List MaskCall) : SetUp masterOffset slaveOffset (calls.foldl MaskCall.run p) ∧
      ∀ n, lineMasked (calls.foldl MaskCall.run p) n = (lastCall calls n).getD (lineMasked p n) := by
  induction calls using List.reverseRecOn with
  | nil => exact ⟨h, fun _ => rfl⟩
  | append_singleton calls c ih =>
      obtain ⟨hsetUp, hmasked⟩ := ih
      rw [List.foldl_append]
      refine ⟨hsetUp.run c, fun n => ?_⟩
      have hlast : lastCall (calls ++ [c]) n = if n = c.irq then some c.masks else lastCall calls n := by
        unfold lastCall
        rw [List.reverse_append, List.reverse_singleton, List.singleton_append, List.find?_cons]
        by_cases hn : n = c.irq
        · rw [if_pos hn, decide_eq_true hn.symm]
          rfl
        · rw [if_neg hn, decide_eq_false fun heq => hn heq.symm]
      rw [hlast]
      show lineMasked (c.run _) n = _
      rw [c.lineMasked_run hsetUp.masterReady hsetUp.slaveReady, hmasked]
      split_ifs <;> rfl

/-- **After `pic_remap`**, whatever the controllers were before: no request waits, each line has its own vector
from the offsets on, which count in steps of 8, and a line is masked if the last call for it has masked it, or
as before without a call. -/
theorem remapped_run (p : Pair) (masterOffset slaveOffset : UInt8) (calls : List MaskCall) :
    let p' := calls.foldl MaskCall.run (picRemap p masterOffset slaveOffset)
    SetUp masterOffset slaveOffset p' ∧
      (∀ n : Fin 16, p'.vector n = if n.val < 8 then (masterOffset &&& 0xF8) + UInt8.ofNat n
        else (slaveOffset &&& 0xF8) + UInt8.ofNat (n - 8)) ∧
      ∀ n, lineMasked p' n = (lastCall calls n).getD (lineMasked p n) := by
  obtain ⟨hsetUp, hmasked⟩ := foldl_run (setUp_picRemap p masterOffset slaveOffset) calls
  refine ⟨hsetUp, fun n => ?_, fun n => (hmasked n).trans ?_⟩
  · unfold Pair.vector
    rw [hsetUp.masterBase, hsetUp.slaveBase]
  · rw [picRemap_eq]
    rfl

/-! ### The boot -/

/-- What `kmain` does with the controllers and the table of handlers: `idt_install`, `pic_remap`, and what
`timer_init`, `keyboard_install` and `mouse_install` do with them. -/
def bootInterrupts (stubs : StubAddresses) (p : Pair) : Idt Driver × Pair :=
  let idt : Idt Driver := idtInstall stubs
  let p := picRemap p 0x20 0x28
  let idt := irqRegister idt 0 .timer
  let p := picUnmaskIrq p 0
  let idt := irqRegister idt 1 .keyboard
  (irqRegister idt 12 .mouse, p)

/-- **The interrupts after the boot**, whatever the controllers were before: every line comes with the
vector of the gate of its own stub, the handlers are those of the three drivers, and only the timer has
been unmasked. -/
theorem bootInterrupts_lines (stubs : StubAddresses) (p : Pair) (n : Fin 16) :
    let (idt, p') := bootInterrupts stubs p
    (p'.vector n).toNat = irqVector n ∧
      idt.idt (irqVector n) = gateEntry (stubs.irq n) 0x08 (IDT_PRESENT ||| IDT_DPL0 ||| IDT_GATE_INT32) ∧
      idt.irqHandlers n = registered (UInt8.ofNat n) ∧
      lineMasked p' n = if n = 0 then false else lineMasked p n := by
  obtain ⟨_, hvector, hmasked⟩ := remapped_run p 0x20 0x28 [⟨0, false⟩]
  refine ⟨?_, idtInstall_gate stubs (.irq n), ?_, ?_⟩
  · refine (congrArg UInt8.toNat (hvector n)).trans ?_
    revert n
    decide
  · have hnone : (idtInstall stubs : Idt Driver).irqHandlers = fun _ => none :=
      funext fun n => idtInstall_irqHandlers stubs n
    show Function.update (Function.update (Function.update (idtInstall stubs : Idt Driver).irqHandlers
      0 (some .timer)) 1 (some .keyboard)) 12 (some .mouse) n = _
    rw [hnone]
    fin_cases n <;> rfl
  · refine (hmasked n).trans ?_
    unfold lastCall
    by_cases hn : n = 0
    · subst hn
      rfl
    · rw [if_neg hn, List.reverse_singleton, List.find?_singleton, if_neg (by simpa using Ne.symm hn)]
      rfl

end LunaOs
