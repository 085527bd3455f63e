import LunaOs.Lib.WordStack
import LunaOs.Process

/-! # The interrupt stubs of `arch/x86/interrupts.asm` and the handlers they call

A stub is the list of its instructions up to the call of the C function and from there on.  The memory
is what the stack holds; all the rest that a handler works on is its world.  A handler gets the
structure its argument points to and gives it back, and leaves what it likes in the registers that the
C convention does not save.  The return address and the frame of the C function lie below the stack
pointer, where nothing is read again.

The push of a segment register fills the lower half of a word.  `upper` has what the upper half comes
to hold: zeros on some processors, and on others what stood there before.  Selectors are loaded without
a look at the descriptors. -/

namespace LunaOs

/-- The general registers, the flags and the segment registers.  At an interrupt `eip` is the address
that the processor is to come back to. -/
structure Cpu where
  eax : UInt32 := 0
  ecx : UInt32 := 0
  edx : UInt32 := 0
  ebx : UInt32 := 0
  esp : UInt32 := 0
  ebp : UInt32 := 0
  esi : UInt32 := 0
  edi : UInt32 := 0
  eip : UInt32 := 0
  eflags : UInt32 := 0
  cs : UInt16 := 0
  ss : UInt16 := 0
  ds : UInt16 := 0
  es : UInt16 := 0
  fs : UInt16 := 0
  gs : UInt16 := 0
deriving DecidableEq

/-- The processor with the `esp0` of its task state segment, the faulting address in CR2, the stack and
the world of the handlers. -/
structure Machine (W : Type) where
  cpu : Cpu
  tssEsp0 : UInt32
  cr2 : UInt32
  mem : UInt32 → UInt32
  world : W

variable {W : Type}

/-! ### Instructions -/

/-- The segment registers that the stubs save. -/
inductive SegmentRegister where
  | ds
  | es
  | fs
  | gs

def Cpu.segment (c : Cpu) : SegmentRegister → UInt16
  | .ds => c.ds
  | .es => c.es
  | .fs => c.fs
  | .gs => c.gs

def Cpu.setSegment (c : Cpu) (r : SegmentRegister) (s : UInt16) : Cpu :=
  match r with
  | .ds => { c with ds := s }
  | .es => { c with es := s }
  | .fs => { c with fs := s }
  | .gs => { c with gs := s }

/-- The instructions of the stubs. -/
inductive Instruction where
  | cli
  | pushDword (w : UInt32)
  | pusha
  | pushSegment (r : SegmentRegister)
  | movAx (w : UInt16)
  | movSegment (r : SegmentRegister)
  | pushEsp
  | addEsp (n : UInt32)
  | popSegment (r : SegmentRegister)
  | popa
  | iret

def Machine.push (m : Machine W) (w : UInt32) : Machine W :=
  { m with
    mem := (LunaOs.push m.mem m.cpu.esp w).1
    cpu := { m.cpu with esp := (LunaOs.push m.mem m.cpu.esp w).2 } }

/-- The word `n` bytes above the stack pointer. -/
def Machine.stackWord (m : Machine W) (n : UInt32) : UInt32 := m.mem (m.cpu.esp + n)

/-- The word that is pushed for the selector `s`, with the upper half of `u`. -/
def segmentWord (u : UInt32) (s : UInt16) : UInt32 := u &&& 0xFFFF0000 ||| s.toUInt32

/-- `pusha` pushes the ESP of before its first push. -/
def pusha (m : Machine W) : Machine W :=
  (((((((m.push m.cpu.eax).push m.cpu.ecx).push m.cpu.edx).push m.cpu.ebx).push m.cpu.esp).push
    m.cpu.ebp).push m.cpu.esi).push m.cpu.edi

/-- `popa` leaves out the word of ESP. -/
def popa (m : Machine W) : Machine W :=
  { m with cpu := { m.cpu with
      edi := m.stackWord 0
      esi := m.stackWord 4
      ebp := m.stackWord 8
      ebx := m.stackWord 16
      edx := m.stackWord 20
      ecx := m.stackWord 24
      eax := m.stackWord 28
      esp := m.cpu.esp + 32 } }

/-- The return to another privilege level pops the stack pointer too. -/
def iret (m : Machine W) : Machine W :=
  let cpu : Cpu := { m.cpu with
    eip := m.stackWord 0
    cs := (m.stackWord 4).toUInt16
    eflags := m.stackWord 8
    esp := m.cpu.esp + 12 }
  if cpu.cs &&& 3 = m.cpu.cs &&& 3 then { m with cpu }
  else { m with cpu := { cpu with esp := m.stackWord 12, ss := (m.stackWord 16).toUInt16 } }

/-- One instruction.  `upper` is what a push of a segment register leaves in the upper half. -/
def Machine.step (upper : SegmentRegister → UInt32) (m : Machine W) : Instruction → Machine W
  | .cli => { m with cpu := { m.cpu with eflags := m.cpu.eflags &&& 0xFFFFFDFF } }
  | .pushDword w => m.push w
  | .pusha => LunaOs.pusha m
  | .pushSegment r => m.push (segmentWord (upper r) (m.cpu.segment r))
  | .movAx w =>
      { m with cpu := { m.cpu with eax := m.cpu.eax &&& 0xFFFF0000 ||| w.toUInt32 } }
  | .movSegment r => { m with cpu := m.cpu.setSegment r m.cpu.eax.toUInt16 }
  | .pushEsp => m.push m.cpu.esp
  | .addEsp n => { m with cpu := { m.cpu with esp := m.cpu.esp + n } }
  | .popSegment r =>
      { m with cpu := { m.cpu.setSegment r (m.stackWord 0).toUInt16 with esp := m.cpu.esp + 4 } }
  | .popa => LunaOs.popa m
  | .iret => LunaOs.iret m

/-- A straight piece of code. -/
def Machine.run (upper : SegmentRegister → UInt32) (m : Machine W) (code : List Instruction) :
    Machine W :=
  code.foldl (Machine.step upper) m

/-! ### Stubs -/

/-- An exception with the error code that the processor may have for it, a hardware interrupt or
`int 0x80`. -/
inductive Interrupt where
  | exception (n : Fin 32) (errCode : UInt32)
  | irq (n : Fin 16)
  | syscall

/-- The number that the stub pushes. -/
def Interrupt.vector : Interrupt → UInt32
  | .exception n _ => UInt32.ofNat n
  | .irq n => 32 + UInt32.ofNat n
  | .syscall => 0x80

/-- The exceptions for which the processor pushes an error code. -/
def HasErrorCode (n : ℕ) : Prop := n = 8 ∨ (10 ≤ n ∧ n ≤ 14) ∨ n = 17 ∨ n = 30

instance (n : ℕ) : Decidable (HasErrorCode n) := inferInstanceAs (Decidable (_ ∨ _))

/-- The code that the processor pushes, if it does. -/
def Interrupt.errorCode : Interrupt → Option UInt32
  | .exception n errCode => if HasErrorCode n then some errCode else none
  | .irq _ => none
  | .syscall => none

/-- The gate of exception 3 is a trap gate, which leaves the interrupt flag as it is. -/
def Interrupt.isTrapGate : Interrupt → Bool
  | .exception n _ => n = 3
  | .irq _ => false
  | .syscall => false

/-- The code selector of the gates. -/
def GDT_KERNEL_CODE : UInt16 := 0x08

def GDT_KERNEL_DATA : UInt16 := 0x10

/-- An interrupt from an outer ring changes to the stack of the task state segment. -/
def changeStack (m : Machine W) : Machine W :=
  if m.cpu.cs &&& 3 = 0 then m
  else
    let kernel := { m with cpu := { m.cpu with esp := m.tssEsp0, ss := GDT_KERNEL_DATA } }
    (kernel.push m.cpu.ss.toUInt32).push m.cpu.esp

/-- What the processor does at an interrupt. -/
def deliver (i : Interrupt) (m : Machine W) : Machine W :=
  let saved := (((changeStack m).push m.cpu.eflags).push m.cpu.cs.toUInt32).push m.cpu.eip
  let entered := { saved with cpu := { saved.cpu with
    cs := GDT_KERNEL_CODE
    eflags := if i.isTrapGate then m.cpu.eflags else m.cpu.eflags &&& 0xFFFFFDFF } }
  match i.errorCode with
  | none => entered
  | some errCode => entered.push errCode

/-- The macro for an exception without an error code: a zero takes its place. -/
def ISR_NOERR (n : UInt32) : List Instruction := [.cli, .pushDword 0, .pushDword n]

/-- The macro for an exception with one. -/
def ISR_ERR (n : UInt32) : List Instruction := [.cli, .pushDword n]

/-- The macro for a hardware interrupt; the number of the line is not used. -/
def IRQ_STUB (_irq n : UInt32) : List Instruction := [.cli, .pushDword 0, .pushDword n]

/-- The exceptions whose stub is an `ISR_ERR`. -/
def isrErrNumbers : List ℕ := [8, 10, 11, 12, 13, 14, 17, 30]

/-- The stub as far as its jump to `isr_common` or `irq_common`; `isr128` goes on by itself. -/
def stubEntry : Interrupt → List Instruction
  | .exception n _ =>
      if n.val ∈ isrErrNumbers then ISR_ERR (UInt32.ofNat n) else ISR_NOERR (UInt32.ofNat n)
  | .irq n => IRQ_STUB (UInt32.ofNat n) (32 + UInt32.ofNat n)
  | .syscall => [.cli, .pushDword 0, .pushDword 0x80]

/-- `isr_common`, `irq_common` and `isr128` up to the call of the C function. -/
def commonEntry : List Instruction :=
  [.pusha, .pushSegment .ds, .pushSegment .es, .pushSegment .fs, .pushSegment .gs,
    .movAx 0x10, .movSegment .ds, .movSegment .es, .movSegment .fs, .movSegment .gs, .pushEsp]

/-- The rest after the call. -/
def commonExit : List Instruction :=
  [.addEsp 4, .popSegment .gs, .popSegment .fs, .popSegment .es, .popSegment .ds, .popa,
    .addEsp 8, .iret]

/-! ### The frame as the C functions see it -/

/-- `CPU_Regs`, in the order of its fields in memory. -/
structure CPURegs where
  edi : UInt32
  esi : UInt32
  ebp : UInt32
  espDummy : UInt32
  ebx : UInt32
  edx : UInt32
  ecx : UInt32
  eax : UInt32
  intNo : UInt32
  errCode : UInt32
  eip : UInt32
  cs : UInt32
  eflags : UInt32
  userEsp : UInt32
  userSs : UInt32
deriving DecidableEq

/-- The structure that a `CPU_Regs*` points to. -/
def readRegs (mem : UInt32 → UInt32) (p : UInt32) : CPURegs where
  edi := mem p
  esi := mem (p + 4)
  ebp := mem (p + 8)
  espDummy := mem (p + 12)
  ebx := mem (p + 16)
  edx := mem (p + 20)
  ecx := mem (p + 24)
  eax := mem (p + 28)
  intNo := mem (p + 32)
  errCode := mem (p + 36)
  eip := mem (p + 40)
  cs := mem (p + 44)
  eflags := mem (p + 48)
  userEsp := mem (p + 52)
  userSs := mem (p + 56)

def CPURegs.words (r : CPURegs) : List UInt32 :=
  [r.edi, r.esi, r.ebp, r.espDummy, r.ebx, r.edx, r.ecx, r.eax, r.intNo, r.errCode, r.eip, r.cs,
    r.eflags, r.userEsp, r.userSs]

def writeRegs (mem : UInt32 → UInt32) (p : UInt32) (r : CPURegs) : UInt32 → UInt32 :=
  WordStack.writeWords mem p r.words

/-- What a C function leaves in the registers that its caller saves. -/
structure Scratch where
  eax : UInt32
  ecx : UInt32
  edx : UInt32
  eflags : UInt32

/-- What a C function that returns leaves behind. -/
structure Returned (W : Type) where
  regs : CPURegs
  scratch : Scratch
  world : W

/-- The C function of a stub, with CR2.  It may not return. -/
abbrev Handler (W : Type) := UInt32 → CPURegs → W → Option (Returned W)

/-- The call of the C function, with its argument on top of the stack. -/
def call (h : Handler W) (m : Machine W) : Option (Machine W) :=
  let p := m.stackWord 0
  (h m.cr2 (readRegs m.mem p) m.world).map fun r =>
    { m with
      mem := writeRegs m.mem p r.regs
      world := r.world
      cpu := { m.cpu with
        eax := r.scratch.eax
        ecx := r.scratch.ecx
        edx := r.scratch.edx
        eflags := r.scratch.eflags } }

/-- The machine when the C function is called. -/
def atCall (upper : SegmentRegister → UInt32) (i : Interrupt) (m : Machine W) : Machine W :=
  (deliver i m).run upper (stubEntry i ++ commonEntry)

/-- The structure that the C function receives. -/
def receivedRegs (upper : SegmentRegister → UInt32) (i : Interrupt) (m : Machine W) : CPURegs :=
  let m' := atCall upper i m
  readRegs m'.mem (m'.stackWord 0)

/-- The interrupt from its delivery to the `iret`. -/
def interrupt (upper : SegmentRegister → UInt32) (h : Handler W) (i : Interrupt) (m : Machine W) :
    Option (Machine W) :=
  (call h (atCall upper i m)).map fun m' => m'.run upper commonExit

/-! ### The handlers -/

/-- What `isr_handler` panics with. -/
inductive IsrPanic where
  | pageFault (eip cr2 errCode : UInt32)
  | exception (name : String)
deriving DecidableEq

def exceptions : Vector String 21 :=
  #v["Division by Zero", "Debug", "NMI", "Breakpoint", "Overflow", "Bound Range", "Invalid Opcode",
    "Device Not Avail", "Double Fault", "Coprocessor Overrun", "Invalid TSS", "Segment Not Present",
    "Stack Fault", "General Protection", "Page Fault", "Reserved", "x87 Float", "Alignment Check",
    "Machine Check", "SIMD Float", "Virtualization"]

/-- `isr_handler`: a page fault of ring 3 is passed over, as is every number from 21 on. -/
def isrHandler (cr2 : UInt32) (regs : CPURegs) : Except IsrPanic Unit :=
  if regs.intNo = 14 then
    if regs.cs = 0x1B then .ok () else .error (.pageFault regs.eip cr2 regs.errCode)
  else if h : regs.intNo.toNat < 21 then .error (.exception exceptions[regs.intNo.toNat])
  else .ok ()

/-- The command port that an end of interrupt is written to. -/
inductive Pic where
  | master
  | slave
deriving DecidableEq

/-- `(uint8_t)(regs->int_no - 32)` -/
def irqNumber (regs : CPURegs) : UInt8 := (regs.intNo - 32).toUInt8

/-- The ends of interrupt that `irq_handler` sends itself. -/
def irqEois (irq : UInt8) : List Pic := if 8 ≤ irq then [.slave, .master] else [.master]

/-- `irq_handler` with the registered handlers, none of which writes to the frame. -/
def irqHandler (irqHandlers : UInt8 → Option (CPURegs → W → Option W)) (eoi : W → Pic → W)
    (regs : CPURegs) (w : W) : Option W := do
  let irq := irqNumber regs
  let w ←
    if irq < 16 then
      match irqHandlers irq with
      | some handler => handler regs w
      | none => some w
    else some w
  some ((irqEois irq).foldl eoi w)

def SYSCALL_COUNT : ℕ := 14

/-- `sys_undefined`, which returns -1. -/
def sysUndefined (_num _ _ : UInt32) : UInt32 := 0xFFFFFFFF

/-- The functions of `syscall_table`.  Each of its entries is set. -/
abbrev SyscallTable (W : Type) :=
  Fin SYSCALL_COUNT → UInt32 → UInt32 → UInt32 → W → Option (UInt32 × W)

/-- `syscall_dispatch`: its result, the frame and the world. -/
def syscallDispatch (syscallTable : SyscallTable W) (regs : CPURegs) (w : W) :
    Option (UInt32 × CPURegs × W) :=
  let num := regs.eax
  if h : num.toNat < SYSCALL_COUNT then do
    let (result, w) ← syscallTable ⟨num.toNat, h⟩ regs.ebx regs.ecx regs.edx w
    some (result, { regs with eax := result }, w)
  else some (sysUndefined num 0 0, regs, w)

/-- What is installed: the registered handlers, what an end of interrupt does, the system calls, and
what the C functions leave behind in the scratch registers. -/
structure Installed (W : Type) where
  irqHandlers : UInt8 → Option (CPURegs → W → Option W)
  eoi : W → Pic → W
  syscallTable : SyscallTable W
  scratch : CPURegs → W → Scratch

/-- The C function that the stub of an interrupt calls. -/
def Installed.handler (k : Installed W) : Interrupt → Handler W
  | .exception _ _, cr2, regs, w =>
      (isrHandler cr2 regs).toOption.map fun _ => ⟨regs, k.scratch regs w, w⟩
  | .irq _, _, regs, w =>
      (irqHandler k.irqHandlers k.eoi regs w).map fun w' => ⟨regs, k.scratch regs w, w'⟩
  | .syscall, _, regs, w =>
      (syscallDispatch k.syscallTable regs w).map fun r =>
        ⟨r.2.1, { k.scratch regs w with eax := r.1 }, r.2.2⟩

/-- What `int 0x80` is to do for the number `num` and its arguments. -/
def syscallResult (syscallTable : SyscallTable W) (num a b c : UInt32) (w : W) :
    Option (UInt32 × W) :=
  if h : num.toNat < SYSCALL_COUNT then syscallTable ⟨num.toNat, h⟩ a b c w
  else some (0xFFFFFFFF, w)

/-- What EAX is to be after an interrupt. -/
def Installed.resultEax (k : Installed W) : Interrupt → Machine W → Option UInt32
  | .exception _ _, m => some m.cpu.eax
  | .irq _, m => some m.cpu.eax
  | .syscall, m =>
      (syscallResult k.syscallTable m.cpu.eax m.cpu.ebx m.cpu.ecx m.cpu.edx m.world).map Prod.fst

end LunaOs
