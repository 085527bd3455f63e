import LunaOs.Gdt
import LunaOs.InterruptFrame
import LunaOs.Lib.Updates

/-! # The interrupt descriptor table of `arch/x86/idt.c`

`Interrupts.lean` says what the processor does at an interrupt of this kernel: which ring and stack it
changes to, and whether it disables interrupts.  Here this is what a processor does that reads the
tables `idt_install` and `gdt_install` have written (`enter_installed`).  A program in ring 3 enters
the kernel through vector 0x80 and through no other, and reaches no port and no segment but its own
(`ring3_confined`). -/

namespace LunaOs

open Descriptors Endian

/-- `IDT_Entry` -/
structure IDTEntry where
  offsetLow : UInt16 := 0
  selector : UInt16 := 0
  zero : UInt8 := 0
  typeAttr : UInt8 := 0
  offsetHigh : UInt16 := 0
deriving DecidableEq

/-- The gate in memory: the structure is packed. -/
def IDTEntry.bytes (e : IDTEntry) : List UInt8 :=
  leBytes 2 e.offsetLow.toNat ++ leBytes 2 e.selector.toNat ++ [e.zero, e.typeAttr] ++
    leBytes 2 e.offsetHigh.toNat

/-- The bits of the flags of a gate. -/
def IDT_PRESENT : UInt8 := 0x80
def IDT_DPL0 : UInt8 := 0x00
def IDT_DPL3 : UInt8 := 0x60
def IDT_GATE_INT32 : UInt8 := 0x0E
def IDT_GATE_TRAP : UInt8 := 0x0F

variable {H : Type}

/-- The statics `idt` and `irq_handlers`. -/
structure Idt (H : Type) where
  idt : Fin 256 → IDTEntry
  irqHandlers : Fin 16 → Option H

/-- The entry that `idt_set_gate` stores. -/
def gateEntry (handler : UInt32) (sel : UInt16) (flags : UInt8) : IDTEntry where
  offsetLow := (handler &&& 0xFFFF).toUInt16
  offsetHigh := ((handler >>> 16) &&& 0xFFFF).toUInt16
  selector := sel
  zero := 0
  typeAttr := flags

def idtSetGate (s : Idt H) (num : Fin 256) (handler : UInt32) (sel : UInt16) (flags : UInt8) : Idt H :=
  { s with idt := Function.update s.idt num (gateEntry handler sel flags) }

/-- `irq_register`, which leaves out numbers from 16 on. -/
def irqRegister (s : Idt H) (irq : UInt8) (handler : H) : Idt H :=
  if h : irq.toNat < 16 then
    { s with irqHandlers := Function.update s.irqHandlers ⟨irq.toNat, h⟩ (some handler) }
  else s

/-- The addresses of the stubs in `interrupts.asm`. -/
structure StubAddresses where
  isr : Fin 32 → UInt32
  irq : Fin 16 → UInt32
  isr128 : UInt32

def isrVector (n : Fin 32) : Fin 256 := ⟨n, by omega⟩

def irqVector (n : Fin 16) : Fin 256 := ⟨32 + n, by omega⟩

def syscallVector : Fin 256 := ⟨0x80, by decide⟩

/-- The type of the gate of an exception; the breakpoint has a trap gate. -/
def isrFlags (n : Fin 32) : UInt8 :=
  if n.val = 3 then IDT_PRESENT ||| IDT_DPL0 ||| IDT_GATE_TRAP else IDT_PRESENT ||| IDT_DPL0 ||| IDT_GATE_INT32

/-- The calls of `idt_set_gate` for the exceptions. -/
def setIsrGates (stubs : StubAddresses) (s : Idt H) : Idt H :=
  (List.finRange 32).foldl (fun s n => idtSetGate s (isrVector n) (stubs.isr n) 0x08 (isrFlags n)) s

/-- The calls for the hardware interrupts. -/
def setIrqGates (stubs : StubAddresses) (s : Idt H) : Idt H :=
  (List.finRange 16).foldl
    (fun s n => idtSetGate s (irqVector n) (stubs.irq n) 0x08 (IDT_PRESENT ||| IDT_DPL0 ||| IDT_GATE_INT32)) s

/-- `idt_install` up to the load of the register. -/
def idtInstall (stubs : StubAddresses) : Idt H :=
  let s : Idt H := ⟨fun _ => {}, fun _ => none⟩
  let s := setIrqGates stubs (setIsrGates stubs s)
  idtSetGate s syscallVector stubs.isr128 0x08 (IDT_PRESENT ||| IDT_DPL3 ||| IDT_GATE_INT32)

/-- `idt_ptr.limit` -/
def idtLimit : ℕ := 8 * 256 - 1

def Idt.bytes (s : Idt H) : List UInt8 := (List.finRange 256).flatMap fun i => (s.idt i).bytes

/-! ### The gates -/

theorem IDTEntry.isLt_bytes (e : IDTEntry) (j : Fin 8) : j.val < e.bytes.length := j.isLt

/-- The gate as the processor fetches it. -/
def IDTEntry.descriptor (e : IDTEntry) : Descriptor := fun j => e.bytes.get ⟨j, e.isLt_bytes j⟩

theorem toNat_highWord (w : UInt32) : ((w >>> 16) &&& 0xFFFF).toUInt16.toNat = w.toNat / 65536 := by
  have hw := w.toNat_lt
  rw [toNat_lowWord, UInt32.toNat_shiftRight, Nat.shiftRight_eq_div_pow]
  show w.toNat / 65536 % 65536 = _
  omega

/-- **What the processor reads from a gate that `idt_set_gate` has written**: the address of the handler,
the selector and the flags. -/
theorem gateEntry_descriptor (handler : UInt32) (sel : UInt16) (flags : UInt8) :
    let d := (gateEntry handler sel flags).descriptor
    d.offset = handler.toNat ∧ d.selector = sel.toNat ∧ d 5 = flags := by
  have hlow := toNat_lowWord handler
  have hhigh := toNat_highWord handler
  have hhandler := handler.toNat_lt
  have hsel := sel.toNat_lt
  refine ⟨?_, ?_, rfl⟩
  · show (UInt8.ofNat (handler &&& 0xFFFF).toUInt16.toNat).toNat +
        256 * (UInt8.ofNat ((handler &&& 0xFFFF).toUInt16.toNat / 256)).toNat +
        65536 * (UInt8.ofNat ((handler >>> 16) &&& 0xFFFF).toUInt16.toNat).toNat +
        16777216 * (UInt8.ofNat (((handler >>> 16) &&& 0xFFFF).toUInt16.toNat / 256)).toNat = _
    rw [hlow, hhigh]
    simp only [UInt8.toNat_ofNat']
    omega
  · show (UInt8.ofNat sel.toNat).toNat + 256 * (UInt8.ofNat (sel.toNat / 256)).toNat = _
    simp only [UInt8.toNat_ofNat']
    omega

/-- The calls of `idt_set_gate` for a list of numbers fill the table entry by entry. -/
theorem foldl_idtSetGate {n : ℕ} (vector : Fin n → Fin 256) (handler : Fin n → UInt32)
    (flags : Fin n → UInt8) (l : List (Fin n)) (s : Idt H) :
    (l.foldl (fun s k => idtSetGate s (vector k) (handler k) 0x08 (flags k)) s).idt =
      Updates.fill vector (fun k => gateEntry (handler k) 0x08 (flags k)) l s.idt := by
  induction l generalizing s with
  | nil => rfl
  | cons k l ih => exact ih _

theorem foldl_idtSetGate_irqHandlers {n : ℕ} (vector : Fin n → Fin 256) (handler : Fin n → UInt32)
    (flags : Fin n → UInt8) (l : List (Fin n)) (s : Idt H) :
    (l.foldl (fun s k => idtSetGate s (vector k) (handler k) 0x08 (flags k)) s).irqHandlers =
      s.irqHandlers := by
  induction l generalizing s with
  | nil => rfl
  | cons k l ih => exact ih _

theorem setIsrGates_eq (stubs : StubAddresses) (s : Idt H) : setIsrGates stubs s =
    ⟨Updates.fill isrVector (fun n => gateEntry (stubs.isr n) 0x08 (isrFlags n)) (List.finRange 32) s.idt,
      s.irqHandlers⟩ := by
  have hidt := foldl_idtSetGate isrVector stubs.isr isrFlags (List.finRange 32) s
  have hhandlers := foldl_idtSetGate_irqHandlers isrVector stubs.isr isrFlags (List.finRange 32) s
  unfold setIsrGates
  rw [← hidt, ← hhandlers]

theorem setIrqGates_eq (stubs : StubAddresses) (s : Idt H) : setIrqGates stubs s =
    ⟨Updates.fill irqVector
      (fun n => gateEntry (stubs.irq n) 0x08 (IDT_PRESENT ||| IDT_DPL0 ||| IDT_GATE_INT32)) (List.finRange 16)
      s.idt, s.irqHandlers⟩ := by
  have hidt := foldl_idtSetGate irqVector stubs.irq (fun _ => IDT_PRESENT ||| IDT_DPL0 ||| IDT_GATE_INT32)
    (List.finRange 16) s
  have hhandlers := foldl_idtSetGate_irqHandlers irqVector stubs.irq
    (fun _ => IDT_PRESENT ||| IDT_DPL0 ||| IDT_GATE_INT32) (List.finRange 16) s
  unfold setIrqGates
  rw [← hidt, ← hhandlers]

theorem isrVector_injective : Function.Injective isrVector := by
  intro n m h
  exact Fin.ext (Fin.mk.inj h)

theorem irqVector_injective : Function.Injective irqVector := by
  intro n m h
  have hval := Fin.mk.inj h
  exact Fin.ext (by omega)

theorem idtInstall_idt (stubs : StubAddresses) : (idtInstall stubs : Idt H).idt =
    Function.update
      (Updates.fill irqVector
        (fun n => gateEntry (stubs.irq n) 0x08 (IDT_PRESENT ||| IDT_DPL0 ||| IDT_GATE_INT32)) (List.finRange 16)
        (Updates.fill isrVector (fun n => gateEntry (stubs.isr n) 0x08 (isrFlags n)) (List.finRange 32)
          fun _ => {}))
      syscallVector (gateEntry stubs.isr128 0x08 (IDT_PRESENT ||| IDT_DPL3 ||| IDT_GATE_INT32)) := by
  unfold idtInstall
  dsimp only
  rw [setIsrGates_eq, setIrqGates_eq]
  rfl

theorem idtInstall_irqHandlers (stubs : StubAddresses) (n : Fin 16) :
    (idtInstall stubs : Idt H).irqHandlers n = none := by
  unfold idtInstall
  dsimp only
  rw [setIsrGates_eq, setIrqGates_eq]
  rfl

/-- The number of an interrupt in the table. -/
def Interrupt.index : Interrupt → Fin 256
  | .exception n _ => isrVector n
  | .irq n => irqVector n
  | .syscall => syscallVector

/-- The address of the stub of an interrupt. -/
def StubAddresses.stub (stubs : StubAddresses) : Interrupt → UInt32
  | .exception n _ => stubs.isr n
  | .irq n => stubs.irq n
  | .syscall => stubs.isr128

/-- The flags of the gate of an interrupt. -/
def Interrupt.flags : Interrupt → UInt8
  | .exception n _ => isrFlags n
  | .irq _ => IDT_PRESENT ||| IDT_DPL0 ||| IDT_GATE_INT32
  | .syscall => IDT_PRESENT ||| IDT_DPL3 ||| IDT_GATE_INT32

theorem idtInstall_gate (stubs : StubAddresses) (i : Interrupt) :
    (idtInstall stubs : Idt H).idt i.index = gateEntry (stubs.stub i) 0x08 i.flags := by
  rw [idtInstall_idt]
  cases i with
  | exception n errCode =>
      have hsyscall : isrVector n ≠ syscallVector := fun h => by have := Fin.mk.inj h; omega
      have hirq : ∀ k ∈ List.finRange 16, irqVector k ≠ isrVector n := fun k _ h => by
        have := Fin.mk.inj h
        omega
      refine (Function.update_of_ne hsyscall _ _).trans ?_
      exact (Updates.fill_of_forall_ne hirq).trans
        (Updates.fill_of_mem isrVector_injective (List.mem_finRange n))
  | irq n =>
      have hsyscall : irqVector n ≠ syscallVector := fun h => by have := Fin.mk.inj h; omega
      refine (Function.update_of_ne hsyscall _ _).trans ?_
      exact Updates.fill_of_mem irqVector_injective (List.mem_finRange n)
  | syscall => exact Function.update_self _ _ _

theorem idtInstall_empty (stubs : StubAddresses) {v : Fin 256} (hv : 48 ≤ v.val) (hne : v ≠ syscallVector) :
    (idtInstall stubs : Idt H).idt v = {} := by
  rw [idtInstall_idt]
  refine (Function.update_of_ne hne _ _).trans ?_
  refine (Updates.fill_of_forall_ne fun n _ h => ?_).trans (Updates.fill_of_forall_ne fun n _ h => ?_)
  · have : 32 + n.val = v.val := congrArg Fin.val h
    omega
  · have : n.val = v.val := congrArg Fin.val h
    omega

/-- Every vector with a gate is the vector of an interrupt. -/
theorem exists_index {v : Fin 256} (hv : v.val < 48 ∨ v = syscallVector) : ∃ i : Interrupt, i.index = v := by
  rcases hv with hv | rfl
  · by_cases hexception : v.val < 32
    · exact ⟨.exception ⟨v, hexception⟩ 0, rfl⟩
    · exact ⟨.irq ⟨v - 32, by omega⟩, Fin.ext (by show 32 + (v.val - 32) = v.val; omega)⟩
  · exact ⟨.syscall, rfl⟩

/-! ### The tables in memory -/

/-- Where the linker has put the tables. -/
structure TableAddresses where
  gdt : UInt32
  kernelTss : UInt32
  idt : UInt32

/-- The memory after `gdt_install`, `idt_install` and `gdt_set_tss_stack`. -/
structure TablesInMemory (mem : UInt32 → UInt8) (addr : TableAddresses) (s : Gdt) (stubs : StubAddresses)
    (esp0 : UInt32) : Prop where
  gdt : Holds mem addr.gdt (gdtInstall addr.kernelTss s).bytes
  tss : Holds mem addr.kernelTss (gdtSetTssStack (gdtInstall addr.kernelTss s) esp0).kernelTss.bytes
  idt : Holds mem addr.idt (idtInstall stubs : Idt H).bytes

/-- What the processor knows of the tables after `lgdt`, `lidt` and `ltr`. -/
def loadedTables (mem : UInt32 → UInt8) (addr : TableAddresses) : Tables where
  mem := mem
  gdtr := ⟨addr.gdt, gdtLimit⟩
  idtr := ⟨addr.idt, idtLimit⟩
  tr := ⟨addr.kernelTss.toNat, TSS_SIZE - 1⟩

variable {mem : UInt32 → UInt8} {addr : TableAddresses} {s : Gdt} {stubs : StubAddresses} {esp0 : UInt32}

theorem Gdt.fetch_eq {g : Gdt} {a : UInt32} (h : Holds mem a g.bytes) (i : Fin GDT_ENTRIES) :
    fetch mem a i = (g.gdt i).descriptor := by
  have hentry := Holds.flatMap (k := 8) (fun _ => rfl) h (i := i.val) (by simp)
  rw [List.getElem_finRange] at hentry
  exact fetch_of_holds hentry rfl

theorem Idt.fetch_eq {t : Idt H} {a : UInt32} (h : Holds mem a t.bytes) (v : Fin 256) :
    fetch mem a v = (t.idt v).descriptor := by
  have hentry := Holds.flatMap (k := 8) (fun _ => rfl) h (i := v.val) (by simp)
  rw [List.getElem_finRange] at hentry
  exact fetch_of_holds hentry rfl

theorem TSS.load_word {t : TSS} {a : UInt32} (h : Holds mem a t.bytes) {i : ℕ} (hi : i < t.words.length) :
    ByteMem.load32 mem (a + UInt32.ofNat (4 * i)) = t.words[i] :=
  (Holds.flatMap (k := 4) (fun _ => rfl) h.left.left hi).load32

theorem ofNat_toNat_add (a : UInt32) (n : ℕ) : UInt32.ofNat (a.toNat + n) = a + UInt32.ofNat n := by
  rw [UInt32.ofNat_add, UInt32.ofNat_toNat]

section
variable (h : TablesInMemory (H := H) mem addr s stubs esp0)
include h

theorem TablesInMemory.descriptorOf_eq (i : Fin GDT_ENTRIES) (selector : ℕ) (f : Fault)
    (hsel : 4 ≤ selector ∧ selector / 4 % 2 = 0) (hi : selector / 8 = i) :
    descriptorOf mem ⟨addr.gdt, gdtLimit⟩ selector f =
      .ok ((gdtInstall addr.kernelTss s).gdt i).descriptor := by
  have hlimit : 8 * (selector / 8) + 7 ≤ gdtLimit := by
    have hi : i.val < 6 := i.isLt
    show _ ≤ 47
    omega
  unfold descriptorOf
  rw [require_of ⟨hsel.1, hsel.2, hlimit⟩, hi, Gdt.fetch_eq h.gdt]
  rfl

/-- The stack that an interrupt from an outer ring changes to. -/
theorem TablesInMemory.innerStack_eq :
    innerStack (loadedTables mem addr) 0 = .ok (0x10, esp0) := by
  have hss : ByteMem.load32 mem (addr.kernelTss + UInt32.ofNat (4 * 2)) = 0x10 :=
    TSS.load_word h.tss (i := 2) (show 2 < 25 by decide)
  have hesp : ByteMem.load32 mem (addr.kernelTss + UInt32.ofNat (4 * 1)) = esp0 :=
    TSS.load_word h.tss (i := 1) (show 1 < 25 by decide)
  have hdata := h.descriptorOf_eq 2 0x10 .invalidTss (by decide) rfl
  unfold innerStack loadStack loadedTables
  dsimp only
  rw [ofNat_toNat_add, ofNat_toNat_add, hss, hesp]
  rw [require_of (show 8 * 0 + 9 ≤ TSS_SIZE - 1 by decide)]
  rw [show (0x10 : UInt32).toNat % 65536 = 0x10 from rfl, hdata, gdtInstall_kernelData]
  rfl

end

/-! ### Entering through a gate -/

/-- The privilege level that a program needs to raise the interrupt by an instruction. -/
def Interrupt.gateDpl : Interrupt → ℕ
  | .syscall => 3
  | _ => 0

theorem Interrupt.flags_eq (i : Interrupt) : i.flags =
    if i.isTrapGate then 0x8F else if i.gateDpl = 3 then 0xEE else 0x8E := by
  cases i with
  | exception n errCode =>
      unfold Interrupt.flags isrFlags Interrupt.isTrapGate Interrupt.gateDpl
      simp only [Fin.ext_iff]
      by_cases hn : n.val = 3 <;> simp [hn] <;> rfl
  | irq n => rfl
  | syscall => rfl

theorem gate_tests (stubs : StubAddresses) (i : Interrupt) :
    let g := (gateEntry (stubs.stub i) 0x08 i.flags).descriptor
    (g.isInterruptGate ↔ i.isTrapGate = false) ∧ (g.isTrapGate ↔ i.isTrapGate = true) ∧
      g.dpl = i.gateDpl ∧ g.present := by
  obtain ⟨_, _, hflags⟩ := gateEntry_descriptor (stubs.stub i) 0x08 i.flags
  have htrap : i.isTrapGate = true → i.gateDpl = 0 := by
    cases i with
    | exception n errCode => exact fun _ => rfl
    | irq n => exact fun _ => rfl
    | syscall => exact fun h => absurd h (by decide)
  have hdpl : i.gateDpl = 0 ∨ i.gateDpl = 3 := by
    cases i with
    | exception n errCode => exact .inl rfl
    | irq n => exact .inl rfl
    | syscall => exact .inr rfl
  dsimp only
  unfold Descriptor.isInterruptGate Descriptor.isTrapGate Descriptor.dpl Descriptor.present
    Descriptor.isSegment Descriptor.type
  rw [hflags, i.flags_eq]
  cases hi : i.isTrapGate with
  | true => rw [htrap hi]; decide
  | false =>
      rcases hdpl with hdpl | hdpl
      · rw [hdpl]; decide
      · rw [hdpl]; decide

/-- The gate is found, unless an instruction of a program asks for it whose privilege it does not allow. -/
theorem TablesInMemory.gateOf_eq (h : TablesInMemory (H := H) mem addr s stubs esp0) (i : Interrupt)
    (software : Bool) (cpl : ℕ) :
    gateOf (loadedTables mem addr) software cpl i.index =
      if software = true ∧ i.gateDpl < cpl then .error .generalProtection
      else .ok (gateEntry (stubs.stub i) 0x08 i.flags).descriptor := by
  obtain ⟨hint, htrap, hdpl, hpresent⟩ := gate_tests stubs i
  have hlimit : 8 * i.index.val + 7 ≤ idtLimit := by
    have := i.index.isLt
    show _ ≤ 2047
    omega
  have hgate : (gateEntry (stubs.stub i) 0x08 i.flags).descriptor.isInterruptGate ∨
      (gateEntry (stubs.stub i) 0x08 i.flags).descriptor.isTrapGate := by
    rw [hint, htrap]
    cases i.isTrapGate <;> simp
  unfold gateOf
  dsimp only
  rw [require_of (show 8 * i.index.val + 7 ≤ (loadedTables mem addr).idtr.limit from hlimit), ok_bind,
    show fetch (loadedTables mem addr).mem (loadedTables mem addr).idtr.base i.index = _ from
      Idt.fetch_eq h.idt i.index, idtInstall_gate, require_of hgate, ok_bind, hdpl]
  by_cases hallowed : software = true ∧ i.gateDpl < cpl
  · rw [if_pos hallowed, require_of_not (fun himp => absurd (himp hallowed.1) (Nat.not_le.mpr hallowed.2)),
      error_bind]
  · rw [if_neg hallowed, require_of (fun hs => Nat.not_lt.mp fun hlt => hallowed ⟨hs, hlt⟩), ok_bind,
      require_of hpresent, ok_bind]

/-- The gate leads to the stub, and to the stack of ring 0 from another ring. -/
theorem TablesInMemory.enterGate_eq (h : TablesInMemory (H := H) mem addr s stubs esp0) (i : Interrupt)
    (cpl : ℕ) :
    enterGate (loadedTables mem addr) cpl (gateEntry (stubs.stub i) 0x08 i.flags).descriptor =
      .ok ⟨(stubs.stub i).toNat, 0x08, if cpl = 0 then none else some (0x10, esp0), !i.isTrapGate⟩ := by
  obtain ⟨hoffset, hselector, _⟩ := gateEntry_descriptor (stubs.stub i) 0x08 i.flags
  have hdisables : decide (gateEntry (stubs.stub i) 0x08 i.flags).descriptor.isInterruptGate =
      !i.isTrapGate := by
    have hint : decide (gateEntry (stubs.stub i) 0x08 i.flags).descriptor.isInterruptGate =
        decide (i.isTrapGate = false) := decide_eq_decide.mpr (gate_tests stubs i).1
    rw [hint, Bool.decide_eq_false]
  have hstub := (stubs.stub i).toNat_lt
  have hcode := h.descriptorOf_eq 1 (0x08 : UInt16).toNat .generalProtection (by decide) rfl
  have hdpl : kernelCodeEntry.descriptor.dpl = 0 := by decide
  have htests : kernelCodeEntry.descriptor.isCode ∧ kernelCodeEntry.descriptor.dpl ≤ cpl :=
    ⟨by decide, hdpl ▸ Nat.zero_le cpl⟩
  have hpresent : kernelCodeEntry.descriptor.present := by decide
  have hconforming : ¬ kernelCodeEntry.descriptor.conforming := by decide
  have hlimit : (stubs.stub i).toNat ≤ kernelCodeEntry.descriptor.limit := by
    show _ ≤ 4294967295
    omega
  have hbase : (kernelCodeEntry.descriptor.base + (stubs.stub i).toNat) % 4294967296 =
      (stubs.stub i).toNat := by
    show (0 + (stubs.stub i).toNat) % 4294967296 = _
    omega
  unfold enterGate
  rw [hselector, hoffset, show descriptorOf (loadedTables mem addr).mem (loadedTables mem addr).gdtr _ _ = _ from
    hcode, gdtInstall_kernelCode, ok_bind, require_of htests, ok_bind, require_of hpresent, ok_bind, hbase,
    hdisables, require_of hlimit, ok_bind, hdpl]
  by_cases hcpl : cpl = 0
  · rw [if_pos (.inr hcpl.symm), if_pos hcpl, hcpl]
    rfl
  · rw [if_neg (fun hor => hor.elim hconforming fun heq => hcpl heq.symm), if_neg hcpl, h.innerStack_eq]
    rfl

/-- **An interrupt enters its own stub**, unless an instruction of a program raises it whose privilege
its gate does not allow. -/
theorem TablesInMemory.enter_eq (h : TablesInMemory (H := H) mem addr s stubs esp0) (i : Interrupt)
    (software : Bool) (cpl : ℕ) :
    enter (loadedTables mem addr) software cpl i.index =
      if software = true ∧ i.gateDpl < cpl then .error .generalProtection
      else .ok ⟨(stubs.stub i).toNat, 0x08, if cpl = 0 then none else some (0x10, esp0),
        !i.isTrapGate⟩ := by
  unfold enter
  rw [h.gateOf_eq]
  by_cases hallowed : software = true ∧ i.gateDpl < cpl
  · rw [if_pos hallowed, if_pos hallowed, error_bind]
  · rw [if_neg hallowed, if_neg hallowed, ok_bind, h.enterGate_eq]

/-- A vector of no interrupt is a general protection fault. -/
theorem TablesInMemory.enter_empty (h : TablesInMemory (H := H) mem addr s stubs esp0) {v : Fin 256}
    (hv : 48 ≤ v.val) (hne : v ≠ syscallVector) (software : Bool) (cpl : ℕ) :
    enter (loadedTables mem addr) software cpl v = .error .generalProtection := by
  have hlimit : 8 * v.val + 7 ≤ idtLimit := by
    have := v.isLt
    show _ ≤ 2047
    omega
  have hgate : ¬ (({} : IDTEntry).descriptor.isInterruptGate ∨ ({} : IDTEntry).descriptor.isTrapGate) := by
    decide
  unfold enter gateOf
  dsimp only
  rw [require_of (show 8 * v.val + 7 ≤ (loadedTables mem addr).idtr.limit from hlimit), ok_bind,
    show fetch (loadedTables mem addr).mem (loadedTables mem addr).idtr.base v = _ from
      Idt.fetch_eq h.idt v, idtInstall_empty stubs hv hne, require_of_not hgate]
  rfl

/-! ### The processor of `Interrupts.lean` -/

/-- The interrupt as the processor does it that has found `e`. -/
def enterEntry {W : Type} (e : Entry) (errorCode : Option UInt32) (m : Machine W) : Machine W :=
  let inner : Machine W :=
    match e.stack with
    | none => m
    | some (ss, esp) =>
        let kernel := { m with cpu := { m.cpu with esp, ss := UInt16.ofNat ss } }
        (kernel.push m.cpu.ss.toUInt32).push m.cpu.esp
  let saved := ((inner.push m.cpu.eflags).push m.cpu.cs.toUInt32).push m.cpu.eip
  let entered := { saved with cpu := { saved.cpu with
    cs := UInt16.ofNat e.cs
    eflags := if e.disables then m.cpu.eflags &&& 0xFFFFFDFF else m.cpu.eflags } }
  match errorCode with
  | none => entered
  | some errCode => entered.push errCode

/-- Only `int 0x80` is an instruction of the program. -/
def Interrupt.isSoftware : Interrupt → Bool
  | .syscall => true
  | _ => false

/-- The privilege level of the interrupted code. -/
def Machine.cpl {W : Type} (m : Machine W) : ℕ := (m.cpu.cs &&& 3).toNat

theorem Machine.cpl_eq_zero_iff {W : Type} (m : Machine W) : m.cpl = 0 ↔ m.cpu.cs &&& 3 = 0 := by
  unfold Machine.cpl
  rw [← UInt16.toNat_inj]
  rfl

theorem Machine.cpl_le {W : Type} (m : Machine W) : m.cpl ≤ 3 := by
  unfold Machine.cpl
  rw [UInt16.toNat_and]
  exact Nat.and_le_right

/-- `ltr` finds the task state segment. -/
theorem TablesInMemory.ltr_eq (h : TablesInMemory (H := H) mem addr s stubs esp0) :
    ltr mem ⟨addr.gdt, gdtLimit⟩ GDT_TSS_SEG.toNat = .ok (loadedTables mem addr).tr := by
  have hdescriptor := h.descriptorOf_eq 5 GDT_TSS_SEG.toNat .generalProtection (by decide) rfl
  rw [gdtInstall_tss] at hdescriptor
  have htss : (tssEntry addr.kernelTss).descriptor.isAvailableTss :=
    (by decide : ¬ (0x89 : UInt8).toNat / 16 % 2 = 1 ∧ (0x89 : UInt8).toNat % 16 = 9)
  have hpresent : (tssEntry addr.kernelTss).descriptor.present := (by decide : (0x89 : UInt8).toNat / 128 = 1)
  have hbase : (tssEntry addr.kernelTss).descriptor.base = addr.kernelTss.toNat := by
    have haddr := addr.kernelTss.toNat_lt
    rw [GDTEntry.descriptor_base]
    unfold tssEntry
    dsimp only
    rw [toNat_lowWord, toNat_shift_byte _ 16 _ rfl (by decide), toNat_shift_byte _ 24 _ rfl (by decide)]
    omega
  have hlimit : (tssEntry addr.kernelTss).descriptor.limit = TSS_SIZE - 1 := by
    have hflags : ¬ (tssEntry addr.kernelTss).descriptor.flags / 8 = 1 :=
      (by decide : ¬ (0 : UInt8).toNat / 16 / 8 = 1)
    unfold Descriptor.limit
    rw [if_neg hflags, GDTEntry.descriptor_rawLimit]
    rfl
  unfold ltr
  rw [hdescriptor, ok_bind, require_of htss, ok_bind, require_of hpresent, ok_bind, hbase, hlimit]
  rfl

theorem Gdt.bytes_length (g : Gdt) : g.bytes.length = 48 := rfl

theorem TSS.bytes_length (t : TSS) : t.bytes.length = 104 := rfl

theorem Idt.bytes_length (t : Idt H) : t.bytes.length = 2048 := by
  have hentry : ∀ v : Fin 256, ((t.idt v).bytes.length) = 8 := fun _ => rfl
  unfold Idt.bytes
  rw [List.length_flatMap, List.map_congr_left fun v _ => hentry v, List.map_const', List.sum_replicate,
    List.length_finRange]
  rfl

def lowAddresses : TableAddresses := ⟨0xC0200000, 0xC0201000, 0xC0202000⟩

/-- The stubs at every 16 bytes. -/
def denseStubs : StubAddresses where
  isr n := 0xC0100000 + 16 * UInt32.ofNat n
  irq n := 0xC0100200 + 16 * UInt32.ofNat n
  isr128 := 0xC0100300

def lowGdt (esp0 : UInt32) : Gdt := gdtSetTssStack (gdtInstall lowAddresses.kernelTss ⟨fun _ => {}, {}⟩) esp0

def denseIdt : Idt Unit := idtInstall denseStubs

/-- The memory with the tables one behind the other. -/
def tableMemory (esp0 : UInt32) : UInt32 → UInt8 :=
  place (place (place (fun _ => 0) lowAddresses.idt denseIdt.bytes) lowAddresses.kernelTss
    (lowGdt esp0).kernelTss.bytes) lowAddresses.gdt (lowGdt esp0).bytes

theorem tableMemory_holds (esp0 : UInt32) : TablesInMemory (H := Unit) (tableMemory esp0) lowAddresses
    ⟨fun _ => {}, {}⟩ denseStubs esp0 where
  gdt := holds_place _ _ (by rw [Gdt.bytes_length]; decide)
  tss := by
    have h : Holds (place (place (fun _ => 0) lowAddresses.idt denseIdt.bytes) lowAddresses.kernelTss
        (lowGdt esp0).kernelTss.bytes) lowAddresses.kernelTss (lowGdt esp0).kernelTss.bytes :=
      holds_place _ _ (by rw [TSS.bytes_length]; decide)
    refine h.place (n := 0x1000) (by decide) ?_ ?_
    · rw [Gdt.bytes_length]; decide
    · rw [TSS.bytes_length]; decide
  idt := by
    have h : Holds (place (fun _ => 0) lowAddresses.idt denseIdt.bytes) lowAddresses.idt denseIdt.bytes :=
      holds_place _ _ (by rw [Idt.bytes_length]; decide)
    have htss : Holds (place (place (fun _ => 0) lowAddresses.idt denseIdt.bytes) lowAddresses.kernelTss
        (lowGdt esp0).kernelTss.bytes) lowAddresses.idt denseIdt.bytes :=
      h.place (n := 0x1000) (by decide) (by rw [TSS.bytes_length]; decide) (by rw [Idt.bytes_length]; decide)
    refine htss.place (n := 0x2000) (by decide) ?_ ?_
    · rw [Gdt.bytes_length]; decide
    · rw [Idt.bytes_length]; decide

/-- The entries behind the null descriptor. -/
def installedEntry (tssAddr : UInt32) (selector : ℕ) : Option GDTEntry :=
  if selector / 4 = 2 then some kernelCodeEntry
  else if selector / 4 = 4 then some kernelDataEntry
  else if selector / 4 = 6 then some userCodeEntry
  else if selector / 4 = 8 then some userDataEntry
  else if selector / 4 = 10 then some (tssEntry tssAddr)
  else none

theorem TablesInMemory.descriptorOf_eq_ok (h : TablesInMemory (H := H) mem addr s stubs esp0) {selector : ℕ}
    {f : Fault} {d : Descriptor} : descriptorOf mem ⟨addr.gdt, gdtLimit⟩ selector f = .ok d ↔
      ∃ e, installedEntry addr.kernelTss selector = some e ∧ e.descriptor = d := by
  have hfound : ∀ i : Fin GDT_ENTRIES, selector / 4 = 2 * i.val → 1 ≤ i.val →
      descriptorOf mem ⟨addr.gdt, gdtLimit⟩ selector f = .ok ((gdtInstall addr.kernelTss s).gdt i).descriptor :=
    fun i hi hpos => h.descriptorOf_eq i selector f (by omega) (by omega)
  unfold installedEntry
  split_ifs with hkcode hkdata hucode hudata htss
  · rw [hfound 1 hkcode (by decide), gdtInstall_kernelCode]
    simp
  · rw [hfound 2 hkdata (by decide), gdtInstall_kernelData]
    simp
  · rw [hfound 3 hucode (by decide), gdtInstall_userCode]
    simp
  · rw [hfound 4 hudata (by decide), gdtInstall_userData]
    simp
  · rw [hfound 5 htss (by decide), gdtInstall_tss]
    simp
  · rw [Descriptors.descriptorOf_eq_ok]
    refine iff_of_false ?_ (by simp)
    rintro ⟨⟨hnull, htable, hlimit⟩, _⟩
    replace hlimit : 8 * (selector / 8) + 7 ≤ 47 := hlimit
    omega

theorem TablesInMemory.not_mayAccessPort (h : TablesInMemory (H := H) mem addr s stubs esp0) (port size : ℕ) :
    ¬ mayAccessPort (loadedTables mem addr) 3 0 port size := by
  have hend : Holds mem (addr.kernelTss + UInt32.ofNat 100) (leBytes 4 (0x680000 : UInt32).toNat) := by
    have hbytes := h.tss
    have hlast : leBytes 2 (0 : UInt16).toNat ++ leBytes 2 (UInt16.ofNat TSS_SIZE).toNat =
        leBytes 4 (0x680000 : UInt32).toNat := by decide
    unfold TSS.bytes at hbytes
    rw [List.append_assoc] at hbytes
    exact (congrArg (Holds mem _) hlast).mp hbytes.right
  unfold mayAccessPort loadedTables
  dsimp only
  rw [ofNat_toNat_add, hend.load32]
  rintro (hcpl | ⟨_, hmap, _⟩)
  · exact absurd hcpl (by decide)
  · replace hmap : 104 + port / 8 + 1 ≤ 103 := hmap
    omega

theorem TablesInMemory.ring3_code (h : TablesInMemory (H := H) mem addr s stubs esp0) (selector : ℕ) :
    (∃ d, loadCode mem ⟨addr.gdt, gdtLimit⟩ 3 selector = .ok d) ↔ selector = GDT_USER_CODE.toNat := by
  show _ ↔ selector = 27
  simp only [loadCode_eq_ok, h.descriptorOf_eq_ok]
  constructor
  · rintro ⟨d, ⟨e, he, rfl⟩, ⟨hcode, _, hrpl, hdpl⟩, _⟩
    unfold installedEntry at he
    split_ifs at he <;> obtain rfl := Option.some.inj he
    · exact absurd hdpl (by decide)
    · exact absurd hdpl (by decide)
    · omega
    · exact absurd hcode (by decide)
    · exact absurd hdpl (by decide : ¬ (0x89 : UInt8).toNat / 32 % 4 = 3)
  · rintro rfl
    exact ⟨_, ⟨userCodeEntry, rfl, rfl⟩, by decide, by decide⟩

theorem TablesInMemory.ring3_stack (h : TablesInMemory (H := H) mem addr s stubs esp0) (selector : ℕ) (f : Fault) :
    (∃ d, loadStack mem ⟨addr.gdt, gdtLimit⟩ 3 selector f = .ok d) ↔ selector = GDT_USER_DATA.toNat := by
  show _ ↔ selector = 35
  simp only [loadStack_eq_ok, h.descriptorOf_eq_ok]
  constructor
  · rintro ⟨d, ⟨e, he, rfl⟩, ⟨hrpl, hdpl, hdata⟩, _⟩
    unfold installedEntry at he
    split_ifs at he <;> obtain rfl := Option.some.inj he
    · exact absurd hdpl (by decide)
    · exact absurd hdpl (by decide)
    · exact absurd hdata (by decide)
    · omega
    · exact absurd hdpl (by decide : ¬ (0x89 : UInt8).toNat / 32 % 4 = 3)
  · rintro rfl
    exact ⟨_, ⟨userDataEntry, rfl, rfl⟩, by decide, by decide⟩

theorem TablesInMemory.ring3_data (h : TablesInMemory (H := H) mem addr s stubs esp0) (selector : ℕ) :
    (∃ d, loadData mem ⟨addr.gdt, gdtLimit⟩ 3 selector = .ok d) ↔ selector / 4 = 6 ∨ selector / 4 = 8 := by
  simp only [loadData_eq_ok, h.descriptorOf_eq_ok]
  constructor
  · rintro ⟨d, ⟨e, he, rfl⟩, ⟨hsegment, _⟩, hprivilege, _⟩
    have hdpl : e.descriptor.isCode ∧ e.descriptor.conforming ∨ 3 ≤ e.descriptor.dpl :=
      hprivilege.imp_right (le_trans (le_max_left _ _))
    unfold installedEntry at he
    split_ifs at he with hkcode hkdata hucode hudata htss <;> obtain rfl := Option.some.inj he
    · exact absurd hdpl (by decide)
    · exact absurd hdpl (by decide)
    · exact .inl hucode
    · exact .inr hudata
    · exact absurd hsegment (by decide : ¬ (0x89 : UInt8).toNat / 16 % 2 = 1)
  · have hmax : max 3 (selector % 4) ≤ 3 := max_le (le_refl 3) (by omega)
    rintro (hcode | hdata)
    · refine ⟨_, ⟨userCodeEntry, ?_, rfl⟩, by decide, .inr hmax, by decide⟩
      unfold installedEntry
      rw [hcode]
      rfl
    · refine ⟨_, ⟨userDataEntry, ?_, rfl⟩, by decide, .inr hmax, by decide⟩
      unfold installedEntry
      rw [hdata]
      rfl

/-- **What a program in ring 3 reaches**: the kernel through `int 0x80` alone, no I/O port, and no segment
but its own. -/
theorem ring3_confined (mem : UInt32 → UInt8) (addr : TableAddresses) (s : Gdt) (stubs : StubAddresses)
    (esp0 : UInt32) (h : TablesInMemory (H := H) mem addr s stubs esp0) :
    (∀ v : Fin 256, enter (loadedTables mem addr) true 3 v =
      if v = syscallVector then .ok ⟨stubs.isr128.toNat, 0x08, some (0x10, esp0), true⟩
      else .error .generalProtection) ∧
    (∀ port size, ¬ mayAccessPort (loadedTables mem addr) 3 0 port size) ∧
    (∀ selector, (∃ d, loadCode mem ⟨addr.gdt, gdtLimit⟩ 3 selector = .ok d) ↔ selector = GDT_USER_CODE.toNat) ∧
    (∀ selector f, (∃ d, loadStack mem ⟨addr.gdt, gdtLimit⟩ 3 selector f = .ok d) ↔
      selector = GDT_USER_DATA.toNat) ∧
    ∀ selector, (∃ d, loadData mem ⟨addr.gdt, gdtLimit⟩ 3 selector = .ok d) ↔
      selector / 4 = 6 ∨ selector / 4 = 8 := by
  refine ⟨fun v => ?_, h.not_mayAccessPort, h.ring3_code, h.ring3_stack, h.ring3_data⟩
  by_cases hsyscall : v = syscallVector
  · subst hsyscall
    rw [if_pos rfl]
    exact h.enter_eq .syscall true 3
  · rw [if_neg hsyscall]
    by_cases hv : v.val < 48
    · obtain ⟨i, rfl⟩ := exists_index (.inl hv)
      have hdpl : i.gateDpl = 0 := by
        cases i with
        | exception n errCode => rfl
        | irq n => rfl
        | syscall => exact absurd rfl hsyscall
      rw [h.enter_eq, if_pos ⟨rfl, by omega⟩]
    · exact h.enter_empty (by omega) hsyscall true 3

/-- `int3` in ring 3 is a general protection fault, as `int 0x20` is. -/
theorem ring3_confined_sample :
    enter (loadedTables (tableMemory 0) lowAddresses) true 3 3 = .error .generalProtection ∧
      enter (loadedTables (tableMemory 0) lowAddresses) true 3 0x20 = .error .generalProtection ∧
      ¬ ∃ d, loadData (tableMemory 0) ⟨lowAddresses.gdt, gdtLimit⟩ 3 0x10 = .ok d := by
  obtain ⟨hint, _, _, _, hdata⟩ := ring3_confined _ _ _ denseStubs 0 (tableMemory_holds 0)
  refine ⟨(hint 3).trans (if_neg (by decide)), (hint 0x20).trans (if_neg (by decide)), ?_⟩
  rw [hdata]
  decide

end LunaOs
