import LunaOs.Interrupts

/-! # What the interrupt stubs pass on and give back

The stubs push the segment registers after `pusha`, and `CPU_Regs` has no fields for them.  Each of its
fields is four words below the word it is meant for (`receivedRegs_eq`): `eax` is the word of ESP, and
`int_no` is the word of EBX.  `popa` passes over the word of ESP, so a handler that writes `regs->eax`
changes nothing, and every interrupt gives the interrupted code back all the registers it had
(`interrupt_cpu`), `int 0x80` EAX too.  On the stacks of the kernel the word of ESP is no number of a system
call, and none is ever served (`syscall_lost`). -/

namespace LunaOs

open WordStack

variable {W : Type} {upper : SegmentRegister → UInt32} {i : Interrupt} {m : Machine W}
  {ws : List UInt32}

/-! ### The words on the stack -/

/-- The words at the stack pointer. -/
def Machine.Holds (m : Machine W) (ws : List UInt32) : Prop := Words m.mem m.cpu.esp ws

@[simp] theorem Machine.push_cpu (m : Machine W) (w : UInt32) :
    (m.push w).cpu = { m.cpu with esp := m.cpu.esp - 4 } := rfl

@[simp] theorem Machine.push_world (m : Machine W) (w : UInt32) : (m.push w).world = m.world := rfl

@[simp] theorem Machine.push_cr2 (m : Machine W) (w : UInt32) : (m.push w).cr2 = m.cr2 := rfl

@[simp] theorem Machine.run_nil (m : Machine W) : m.run upper [] = m := rfl

@[simp] theorem Machine.run_cons (m : Machine W) (x : Instruction) (code : List Instruction) :
    m.run upper (x :: code) = (m.step upper x).run upper code := rfl

theorem Machine.run_append (m : Machine W) (code code' : List Instruction) :
    m.run upper (code ++ code') = (m.run upper code).run upper code' :=
  List.foldl_append

theorem Machine.Holds.push (h : m.Holds ws) (w : UInt32) (hlen : ws.length < 2 ^ 30) :
    (m.push w).Holds (w :: ws) :=
  Words.push h hlen

/-- What the processor pushes at a change of the stack. -/
def outerWords (m : Machine W) : List UInt32 :=
  if m.cpu.cs &&& 3 = 0 then [] else [m.cpu.esp, m.cpu.ss.toUInt32]

/-- The stack pointer before the flags are pushed. -/
def frameBase (m : Machine W) : UInt32 :=
  if m.cpu.cs &&& 3 = 0 then m.cpu.esp else m.tssEsp0 - 8

/-- The word that stands for the error code, which a stub may have to push. -/
def Interrupt.errCode (i : Interrupt) : UInt32 := i.errorCode.getD 0

/-- The words below the general registers, from the top. -/
def entryWords (i : Interrupt) (m : Machine W) : List UInt32 :=
  i.vector :: i.errCode :: m.cpu.eip :: m.cpu.cs.toUInt32 :: m.cpu.eflags :: outerWords m

theorem outerWords_length_le (m : Machine W) : (outerWords m).length ≤ 2 := by
  unfold outerWords
  split_ifs <;> simp

theorem entryWords_length_le (i : Interrupt) (m : Machine W) : (entryWords i m).length ≤ 7 := by
  unfold entryWords
  simp only [List.length_cons]
  have := outerWords_length_le m
  omega

/-- The stubs that push no zero are those of the exceptions for which the processor pushes a code. -/
theorem mem_isrErrNumbers (n : Fin 32) : n.val ∈ isrErrNumbers ↔ HasErrorCode n := by
  revert n
  decide

theorem stubEntry_of_some {errCode : UInt32} (h : i.errorCode = some errCode) :
    stubEntry i = [.cli, .pushDword i.vector] := by
  cases i with
  | exception n _ =>
      have hn : HasErrorCode n := by
        by_contra hn
        exact absurd ((if_neg hn).symm.trans h) (by simp)
      exact if_pos ((mem_isrErrNumbers n).mpr hn)
  | irq n => cases h
  | syscall => cases h

theorem stubEntry_of_none (h : i.errorCode = none) :
    stubEntry i = [.cli, .pushDword 0, .pushDword i.vector] := by
  cases i with
  | exception n _ =>
      have hn : ¬ HasErrorCode n := by
        intro hn
        exact absurd ((if_pos hn).symm.trans h) (by simp)
      exact if_neg fun hmem => hn ((mem_isrErrNumbers n).mp hmem)
  | irq n => rfl
  | syscall => rfl

theorem changeStack_holds (m : Machine W) : (changeStack m).Holds (outerWords m) := by
  have hempty : ∀ m : Machine W, m.Holds [] := fun _ => trivial
  unfold changeStack outerWords
  split_ifs with hring
  · exact hempty m
  · exact ((hempty _).push m.cpu.ss.toUInt32 (by decide)).push m.cpu.esp (by simp)

theorem Machine.Holds.enter (h : m.Holds ws) (cs : UInt16) (eflags : UInt32) :
    ({ m with cpu := { m.cpu with cs, eflags } }).Holds ws := h

theorem cli_holds : (m.step upper .cli).Holds ws ↔ m.Holds ws := Iff.rfl

theorem pushDword_holds (w : UInt32) (h : m.Holds ws) (hlen : ws.length < 2 ^ 30) :
    (m.step upper (.pushDword w)).Holds (w :: ws) :=
  h.push w hlen

theorem deliver_holds (i : Interrupt) (m : Machine W) :
    (deliver i m).Holds
      (i.errorCode.toList ++ m.cpu.eip :: m.cpu.cs.toUInt32 :: m.cpu.eflags :: outerWords m) := by
  have hlen := outerWords_length_le m
  have hflags := (changeStack_holds m).push m.cpu.eflags (by omega)
  have hcs := hflags.push m.cpu.cs.toUInt32 (by simp; omega)
  have hsaved := hcs.push m.cpu.eip (by simp; omega)
  unfold deliver
  dsimp only
  cases i.errorCode with
  | none => exact hsaved.enter _ _
  | some errCode => exact (hsaved.enter _ _).push errCode (by simp; omega)

/-- **The stack when a stub jumps to its common part.**  The number of the interrupt is on top, and a
zero stands for the error code where there is none. -/
theorem stubEntry_holds (upper : SegmentRegister → UInt32) (i : Interrupt) (m : Machine W) :
    ((deliver i m).run upper (stubEntry i)).Holds (entryWords i m) := by
  have hlen := outerWords_length_le m
  have hdeliver := deliver_holds i m
  unfold entryWords Interrupt.errCode
  cases hcode : i.errorCode with
  | none =>
      rw [hcode] at hdeliver
      rw [stubEntry_of_none hcode]
      simp only [Machine.run_cons, Machine.run_nil]
      apply pushDword_holds
      · apply pushDword_holds
        · rw [cli_holds]
          exact hdeliver
        · simp; omega
      · simp; omega
  | some errCode =>
      rw [hcode] at hdeliver
      rw [stubEntry_of_some hcode]
      simp only [Machine.run_cons, Machine.run_nil]
      apply pushDword_holds
      · rw [cli_holds]
        exact hdeliver
      · simp; omega

/-- The stack segment after a change of the stack. -/
def frameSs (m : Machine W) : UInt16 := if m.cpu.cs &&& 3 = 0 then m.cpu.ss else GDT_KERNEL_DATA

theorem changeStack_cpu (m : Machine W) :
    (changeStack m).cpu = { m.cpu with esp := frameBase m, ss := frameSs m } := by
  unfold changeStack frameBase frameSs
  split_ifs with hring
  · rfl
  · have hesp : m.tssEsp0 - 4 - 4 = m.tssEsp0 - 8 := by grind
    rw [← hesp]
    rfl

theorem stubEntry_cpu (upper : SegmentRegister → UInt32) (i : Interrupt) (m : Machine W) :
    ∃ eflags, ((deliver i m).run upper (stubEntry i)).cpu =
      { m.cpu with
        esp := frameBase m - 20, eflags, cs := GDT_KERNEL_CODE, ss := frameSs m } := by
  have hesp : frameBase m - 4 - 4 - 4 - 4 - 4 = frameBase m - 20 := by grind
  have hrun : ∃ eflags, ((deliver i m).run upper (stubEntry i)).cpu =
      { (changeStack m).cpu with
        esp := (changeStack m).cpu.esp - 4 - 4 - 4 - 4 - 4, eflags, cs := GDT_KERNEL_CODE } := by
    unfold deliver
    cases hcode : i.errorCode with
    | none =>
        rw [stubEntry_of_none hcode]
        simp [Machine.step]
    | some errCode =>
        rw [stubEntry_of_some hcode]
        simp [Machine.step]
  obtain ⟨eflags, hcpu⟩ := hrun
  refine ⟨eflags, hcpu.trans ?_⟩
  rw [changeStack_cpu]
  dsimp only
  rw [hesp]

/-- The words that the common part pushes, from the top. -/
def commonWords (upper : SegmentRegister → UInt32) (c : Cpu) : List UInt32 :=
  [segmentWord (upper .gs) c.gs, segmentWord (upper .fs) c.fs, segmentWord (upper .es) c.es,
    segmentWord (upper .ds) c.ds, c.edi, c.esi, c.ebp, c.esp, c.ebx, c.edx, c.ecx, c.eax]

theorem pusha_holds (h : m.Holds ws) (hlen : ws.length ≤ 7) :
    (pusha m).Holds (m.cpu.edi :: m.cpu.esi :: m.cpu.ebp :: m.cpu.esp :: m.cpu.ebx :: m.cpu.edx ::
      m.cpu.ecx :: m.cpu.eax :: ws) :=
  (((((((h.push m.cpu.eax (by omega)).push m.cpu.ecx (by simp; omega)).push m.cpu.edx
    (by simp; omega)).push m.cpu.ebx (by simp; omega)).push m.cpu.esp (by simp; omega)).push
    m.cpu.ebp (by simp; omega)).push m.cpu.esi (by simp; omega)).push m.cpu.edi (by simp; omega)

theorem pushSegment_holds (upper : SegmentRegister → UInt32) (r : SegmentRegister) (h : m.Holds ws)
    (hlen : ws.length < 2 ^ 30) :
    (m.step upper (.pushSegment r)).Holds (segmentWord (upper r) (m.cpu.segment r) :: ws) :=
  h.push _ hlen

theorem Machine.push_segment (m : Machine W) (w : UInt32) (s : SegmentRegister) :
    (m.push w).cpu.segment s = m.cpu.segment s := by
  cases s <;> rfl

theorem pushSegment_segment (r s : SegmentRegister) :
    (m.step upper (.pushSegment r)).cpu.segment s = m.cpu.segment s :=
  m.push_segment _ s

theorem pusha_segment (s : SegmentRegister) :
    (m.step upper .pusha).cpu.segment s = m.cpu.segment s := by
  unfold Machine.step pusha
  simp only [Machine.push_segment]

theorem movAx_holds (w : UInt16) : (m.step upper (.movAx w)).Holds ws ↔ m.Holds ws := Iff.rfl

/-- A `mov` into a segment register leaves the stack as it is. -/
theorem movSegment_holds (r : SegmentRegister) :
    (m.step upper (.movSegment r)).Holds ws ↔ m.Holds ws := by
  cases r <;> exact Iff.rfl

theorem pushEsp_holds (h : m.Holds ws) (hlen : ws.length < 2 ^ 30) :
    (m.step upper .pushEsp).Holds (((m.step upper .pushEsp).cpu.esp + 4) :: ws) := by
  have hesp : (m.step upper .pushEsp).cpu.esp + 4 = m.cpu.esp := UInt32.sub_add_cancel _ _
  rw [hesp]
  exact h.push m.cpu.esp hlen

/-- **The stack at the call of the C function**: the address of the frame, and the frame. -/
theorem commonEntry_holds (upper : SegmentRegister → UInt32) (h : m.Holds ws)
    (hlen : ws.length ≤ 7) :
    (m.run upper commonEntry).Holds
      (((m.run upper commonEntry).cpu.esp + 4) :: (commonWords upper m.cpu ++ ws)) := by
  have hpusha : (m.step upper .pusha).Holds _ := pusha_holds h hlen
  have hds := pushSegment_holds upper .ds hpusha (by simp; omega)
  have hes := pushSegment_holds upper .es hds (by simp; omega)
  have hfs := pushSegment_holds upper .fs hes (by simp; omega)
  have hgs := pushSegment_holds upper .gs hfs (by simp; omega)
  simp only [pushSegment_segment, pusha_segment] at hgs
  unfold commonEntry
  simp only [Machine.run_cons, Machine.run_nil]
  refine pushEsp_holds ?_ (by simp [commonWords]; omega)
  simp only [movSegment_holds, movAx_holds]
  exact hgs

/-- The common part changes the stack pointer of the registers that `iret` depends on. -/
theorem commonEntry_cpu (upper : SegmentRegister → UInt32) (m : Machine W) :
    (m.run upper commonEntry).cpu.esp = m.cpu.esp - 52 ∧
      (m.run upper commonEntry).cpu.cs = m.cpu.cs ∧ (m.run upper commonEntry).cpu.ss = m.cpu.ss := by
  have hesp : m.cpu.esp - 4 - 4 - 4 - 4 - 4 - 4 - 4 - 4 - 4 - 4 - 4 - 4 - 4 = m.cpu.esp - 52 := by grind
  rw [← hesp]
  refine ⟨?_, ?_, ?_⟩ <;> simp [commonEntry, Machine.step, pusha, Cpu.setSegment]

/-! ### The frame -/

theorem readRegs_of_words {mem : UInt32 → UInt32} {p : UInt32} {r : CPURegs} {rest : List UInt32}
    (h : Words mem p (r.words ++ rest)) : readRegs mem p = r := by
  unfold CPURegs.words at h
  simp [Words, UInt32.add_assoc] at h
  unfold readRegs
  simp [h]

/-- What `CPU_Regs` names the words of the frame. -/
def frameRegs (upper : SegmentRegister → UInt32) (i : Interrupt) (m : Machine W) : CPURegs where
  edi := segmentWord (upper .gs) m.cpu.gs
  esi := segmentWord (upper .fs) m.cpu.fs
  ebp := segmentWord (upper .es) m.cpu.es
  espDummy := segmentWord (upper .ds) m.cpu.ds
  ebx := m.cpu.edi
  edx := m.cpu.esi
  ecx := m.cpu.ebp
  eax := frameBase m - 20
  intNo := m.cpu.ebx
  errCode := m.cpu.edx
  eip := m.cpu.ecx
  cs := m.cpu.eax
  eflags := i.vector
  userEsp := i.errCode
  userSs := m.cpu.eip

/-- The words of the frame that lie above `CPU_Regs`. -/
def aboveRegs (m : Machine W) : List UInt32 :=
  m.cpu.cs.toUInt32 :: m.cpu.eflags :: outerWords m

theorem atCall_holds (upper : SegmentRegister → UInt32) (i : Interrupt) (m : Machine W) :
    (atCall upper i m).Holds
      (((atCall upper i m).cpu.esp + 4) :: ((frameRegs upper i m).words ++ aboveRegs m)) := by
  have hcommon := commonEntry_holds upper (stubEntry_holds upper i m) (entryWords_length_le i m)
  obtain ⟨eflags, hcpu⟩ := stubEntry_cpu upper i m
  rw [hcpu] at hcommon
  unfold atCall
  rw [Machine.run_append]
  exact hcommon

/-- **What a C function receives**: each field holds what lies four words below the one it names. -/
theorem receivedRegs_eq (upper : SegmentRegister → UInt32) (i : Interrupt) (m : Machine W) :
    receivedRegs upper i m = frameRegs upper i m := by
  have hholds := atCall_holds upper i m
  unfold receivedRegs Machine.stackWord
  dsimp only
  rw [UInt32.add_zero, hholds.1]
  exact readRegs_of_words hholds.2

/-! ### The way back -/

/-- The registers that the common part restores from a frame, with the stack pointer and segment of
the code it goes back to. -/
def restored (r : CPURegs) (cs eflags esp : UInt32) (ss : UInt16) : Cpu where
  eax := r.cs
  ecx := r.eip
  edx := r.errCode
  ebx := r.intNo
  esp := esp
  ebp := r.ecx
  esi := r.edx
  edi := r.ebx
  eip := r.userSs
  eflags := eflags
  cs := cs.toUInt16
  ss := ss
  ds := r.espDummy.toUInt16
  es := r.ebp.toUInt16
  fs := r.esi.toUInt16
  gs := r.edi.toUInt16

theorem commonExit_inner {r : CPURegs} {cs eflags : UInt32} {rest : List UInt32}
    (h : Words m.mem (m.cpu.esp + 4) (r.words ++ cs :: eflags :: rest))
    (hcs : m.cpu.cs = GDT_KERNEL_CODE) (hring : cs.toUInt16 &&& 3 = 0) :
    (m.run upper commonExit).cpu = restored r cs eflags (m.cpu.esp + 72) m.cpu.ss := by
  unfold CPURegs.words at h
  simp [Words, UInt32.add_assoc] at h
  have hkernel : GDT_KERNEL_CODE &&& 3 = 0 := by decide
  simp [commonExit, Machine.step, popa, iret, Cpu.setSegment, Machine.stackWord, UInt32.add_assoc, h,
    hcs, hkernel, hring, restored]

/-- Back to another ring, with the words that the processor pushed at the change of the stack. -/
theorem commonExit_outer {r : CPURegs} {cs eflags esp ss : UInt32} {rest : List UInt32}
    (h : Words m.mem (m.cpu.esp + 4) (r.words ++ cs :: eflags :: esp :: ss :: rest))
    (hcs : m.cpu.cs = GDT_KERNEL_CODE) (hring : cs.toUInt16 &&& 3 ≠ 0) :
    (m.run upper commonExit).cpu = restored r cs eflags esp ss.toUInt16 := by
  unfold CPURegs.words at h
  simp [Words, UInt32.add_assoc] at h
  have hkernel : GDT_KERNEL_CODE &&& 3 = 0 := by decide
  simp [commonExit, Machine.step, popa, iret, Cpu.setSegment, Machine.stackWord, UInt32.add_assoc, h,
    hcs, hkernel, hring, restored]

theorem segmentWord_toUInt16 (u : UInt32) (s : UInt16) : (segmentWord u s).toUInt16 = s := by
  have hzero : (0xFFFF0000 : UInt32).toUInt16 = 0 := by decide
  unfold segmentWord
  rw [UInt32.toUInt16_or, UInt32.toUInt16_and, hzero, UInt16.toUInt16_toUInt32, UInt16.and_zero,
    UInt16.zero_or]

/-- What the registers were comes back from the frame, wherever the stack pointer comes from. -/
theorem restored_frameRegs (eax : UInt32) :
    restored { frameRegs upper i m with eax } m.cpu.cs.toUInt32 m.cpu.eflags m.cpu.esp m.cpu.ss =
      m.cpu := by
  unfold restored frameRegs
  simp only [segmentWord_toUInt16, UInt16.toUInt16_toUInt32]

theorem Machine.run_world (upper : SegmentRegister → UInt32) (m : Machine W)
    (code : List Instruction) :
    (m.run upper code).world = m.world ∧ (m.run upper code).cr2 = m.cr2 := by
  induction code generalizing m with
  | nil => exact ⟨rfl, rfl⟩
  | cons x code ih =>
      have hstep : (m.step upper x).world = m.world ∧ (m.step upper x).cr2 = m.cr2 := by
        cases x with
        | pusha => simp [Machine.step, pusha]
        | iret =>
            unfold Machine.step iret
            dsimp only
            split_ifs <;> exact ⟨rfl, rfl⟩
        | _ => exact ⟨rfl, rfl⟩
      rw [Machine.run_cons, (ih _).1, (ih _).2]
      exact hstep

theorem deliver_world (i : Interrupt) (m : Machine W) :
    (deliver i m).world = m.world ∧ (deliver i m).cr2 = m.cr2 := by
  have hchange : (changeStack m).world = m.world ∧ (changeStack m).cr2 = m.cr2 := by
    unfold changeStack
    split_ifs <;> exact ⟨rfl, rfl⟩
  unfold deliver
  cases i.errorCode <;> simp [hchange]

theorem atCall_cpu (upper : SegmentRegister → UInt32) (i : Interrupt) (m : Machine W) :
    (atCall upper i m).cpu.esp + 72 = frameBase m ∧
      (atCall upper i m).cpu.cs = GDT_KERNEL_CODE ∧ (atCall upper i m).cpu.ss = frameSs m := by
  obtain ⟨hesp, hcs, hss⟩ := commonEntry_cpu upper ((deliver i m).run upper (stubEntry i))
  obtain ⟨eflags, hcpu⟩ := stubEntry_cpu upper i m
  rw [hcpu] at hesp hcs hss
  have hsum : frameBase m - 20 - 52 + 72 = frameBase m := by grind
  unfold atCall
  rw [Machine.run_append]
  exact ⟨(congrArg (· + 72) hesp).trans hsum, hcs, hss⟩

theorem atCall_world (upper : SegmentRegister → UInt32) (i : Interrupt) (m : Machine W) :
    (atCall upper i m).world = m.world ∧ (atCall upper i m).cr2 = m.cr2 := by
  obtain ⟨hworld, hcr2⟩ := deliver_world i m
  obtain ⟨hworld', hcr2'⟩ := (deliver i m).run_world upper (stubEntry i ++ commonEntry)
  exact ⟨hworld'.trans hworld, hcr2'.trans hcr2⟩

theorem call_atCall {h : Handler W} {r : Returned W} {eax : UInt32}
    (hcall : h m.cr2 (frameRegs upper i m) m.world = some r)
    (hregs : r.regs = { frameRegs upper i m with eax }) :
    ∃ m', call h (atCall upper i m) = some m' ∧ m'.cpu.esp = (atCall upper i m).cpu.esp ∧
      m'.cpu.cs = (atCall upper i m).cpu.cs ∧ m'.cpu.ss = (atCall upper i m).cpu.ss ∧
      Words m'.mem (m'.cpu.esp + 4) (({ frameRegs upper i m with eax }).words ++ aboveRegs m) := by
  have hholds := atCall_holds upper i m
  obtain ⟨hworld, hcr2⟩ := atCall_world upper i m
  have hp : (atCall upper i m).stackWord 0 = (atCall upper i m).cpu.esp + 4 := by
    unfold Machine.stackWord
    rw [UInt32.add_zero]
    exact hholds.1
  have hlen := outerWords_length_le m
  have hwritten : Words (writeRegs (atCall upper i m).mem ((atCall upper i m).cpu.esp + 4)
      { frameRegs upper i m with eax }) ((atCall upper i m).cpu.esp + 4)
      (({ frameRegs upper i m with eax }).words ++ aboveRegs m) :=
    Words.write hholds.2 rfl (by simp [CPURegs.words, aboveRegs]; omega)
  unfold call
  dsimp only
  rw [hp, readRegs_of_words hholds.2, hcr2, hworld, hcall]
  refine ⟨_, rfl, rfl, rfl, rfl, ?_⟩
  dsimp only
  rw [hregs]
  exact hwritten

/-- **Every interrupt gives all registers back**, also when its handler writes `regs->eax`. -/
theorem interrupt_cpu {h : Handler W} {r : Returned W} {eax : UInt32}
    (hcall : h m.cr2 (frameRegs upper i m) m.world = some r)
    (hregs : r.regs = { frameRegs upper i m with eax }) :
    ∃ m', interrupt upper h i m = some m' ∧ m'.cpu = m.cpu := by
  obtain ⟨m', hm', hesp, hcs, hss, hwords⟩ := call_atCall hcall hregs
  obtain ⟨hesp', hcs', hss'⟩ := atCall_cpu upper i m
  refine ⟨m'.run upper commonExit, ?_, ?_⟩
  · unfold interrupt
    rw [hm']
    rfl
  · unfold aboveRegs outerWords at hwords
    have hselector : m.cpu.cs.toUInt32.toUInt16 = m.cpu.cs := UInt16.toUInt16_toUInt32 _
    by_cases hring : m.cpu.cs &&& 3 = 0
    · rw [if_pos hring] at hwords
      unfold frameBase at hesp'
      unfold frameSs at hss'
      rw [if_pos hring] at hesp' hss'
      rw [commonExit_inner hwords (hcs.trans hcs') (by rwa [hselector]), hesp, hesp', hss, hss']
      exact restored_frameRegs eax
    · rw [if_neg hring] at hwords
      rw [commonExit_outer hwords (hcs.trans hcs') (by rwa [hselector]), UInt16.toUInt16_toUInt32]
      exact restored_frameRegs eax

/-! ### The frame and the result -/

theorem interrupt_eq_some {h : Handler W} {m' : Machine W} (hrun : interrupt upper h i m = some m') :
    ∃ r, h m.cr2 (frameRegs upper i m) m.world = some r ∧ m'.world = r.world := by
  have hholds := atCall_holds upper i m
  obtain ⟨hworld, hcr2⟩ := atCall_world upper i m
  unfold interrupt call Machine.stackWord at hrun
  dsimp only at hrun
  rw [UInt32.add_zero, hholds.1, readRegs_of_words hholds.2, hworld, hcr2] at hrun
  cases hcall : h m.cr2 (frameRegs upper i m) m.world with
  | none =>
      rw [hcall] at hrun
      cases hrun
  | some r =>
      rw [hcall] at hrun
      obtain rfl := Option.some.inj hrun
      exact ⟨r, rfl, (Machine.run_world _ _ _).1⟩

theorem Installed.handler_regs {k : Installed W} {cr2 : UInt32} {regs : CPURegs} {w : W} {r : Returned W}
    (h : k.handler i cr2 regs w = some r) : ∃ eax, r.regs = { regs with eax } := by
  cases i with
  | exception n errCode =>
      obtain ⟨_, _, rfl⟩ := Option.map_eq_some_iff.mp h
      exact ⟨regs.eax, rfl⟩
  | irq n =>
      obtain ⟨_, _, rfl⟩ := Option.map_eq_some_iff.mp h
      exact ⟨regs.eax, rfl⟩
  | syscall =>
      obtain ⟨⟨result, regs', w'⟩, hdispatch, rfl⟩ := Option.map_eq_some_iff.mp h
      unfold syscallDispatch at hdispatch
      dsimp only at hdispatch
      split_ifs at hdispatch with hnum
      · obtain ⟨⟨_, _⟩, _, hret⟩ := Option.bind_eq_some_iff.mp hdispatch
        obtain rfl := congrArg (fun r => r.2.1) (Option.some.inj hret)
        exact ⟨_, rfl⟩
      · obtain rfl := congrArg (fun r => r.2.1) (Option.some.inj hdispatch)
        exact ⟨regs.eax, rfl⟩

theorem Installed.interrupt_cpu {k : Installed W} {m' : Machine W}
    (hrun : interrupt upper (k.handler i) i m = some m') : m'.cpu = m.cpu := by
  obtain ⟨r, hr, _⟩ := interrupt_eq_some hrun
  obtain ⟨eax, hregs⟩ := k.handler_regs hr
  obtain ⟨m'', hrun', hcpu⟩ := LunaOs.interrupt_cpu hr hregs
  obtain rfl := Option.some.inj (hrun.symm.trans hrun')
  exact hcpu

/-- `syscall_dispatch` does what the fields of its frame ask for. -/
theorem syscallDispatch_result (table : SyscallTable W) (regs : CPURegs) (w : W) :
    (syscallDispatch table regs w).map (fun r => (r.1, r.2.2)) =
      syscallResult table regs.eax regs.ebx regs.ecx regs.edx w := by
  unfold syscallDispatch syscallResult
  dsimp only
  split_ifs with hnum
  · cases table ⟨regs.eax.toNat, hnum⟩ regs.ebx regs.ecx regs.edx w <;> rfl
  · rfl

/-- Each field of the frame has the value of the register it is named for. -/
structure NamesRegisters (i : Interrupt) (c : Cpu) (r : CPURegs) : Prop where
  eax : r.eax = c.eax
  ebx : r.ebx = c.ebx
  ecx : r.ecx = c.ecx
  edx : r.edx = c.edx
  esi : r.esi = c.esi
  edi : r.edi = c.edi
  ebp : r.ebp = c.ebp
  intNo : r.intNo = i.vector
  errCode : r.errCode = i.errCode
  eip : r.eip = c.eip
  cs : r.cs = c.cs.toUInt32
  eflags : r.eflags = c.eflags

/-- The interrupted code goes on with its registers unchanged, up to the result in EAX. -/
def ResumesWithResult (upper : SegmentRegister → UInt32) (k : Installed W) (i : Interrupt)
    (m : Machine W) : Prop :=
  ∀ m', interrupt upper (k.handler i) i m = some m' →
    (k.resultEax i m).map (fun eax => { m.cpu with eax }) = some m'.cpu

/-- The registers that lie four words apart in the frame are equal. -/
structure FrameCoincides (upper : SegmentRegister → UInt32) (i : Interrupt) (m : Machine W) :
    Prop where
  gs_edi : segmentWord (upper .gs) m.cpu.gs = m.cpu.edi
  fs_esi : segmentWord (upper .fs) m.cpu.fs = m.cpu.esi
  es_ebp : segmentWord (upper .es) m.cpu.es = m.cpu.ebp
  edi_ebx : m.cpu.edi = m.cpu.ebx
  esi_edx : m.cpu.esi = m.cpu.edx
  ebp_ecx : m.cpu.ebp = m.cpu.ecx
  esp_eax : frameBase m - 20 = m.cpu.eax
  ebx_vector : m.cpu.ebx = i.vector
  edx_errCode : m.cpu.edx = i.errCode
  ecx_eip : m.cpu.ecx = m.cpu.eip
  eax_cs : m.cpu.eax = m.cpu.cs.toUInt32
  vector_eflags : i.vector = m.cpu.eflags

theorem FrameCoincides.low_stack (h : FrameCoincides upper i m) :
    (frameBase m - 20).toNat < 2 ^ 16 := by
  rw [h.esp_eax, h.eax_cs, UInt16.toNat_toUInt32]
  exact m.cpu.cs.toNat_lt

theorem namesRegisters_iff :
    NamesRegisters i m.cpu (receivedRegs upper i m) ↔ FrameCoincides upper i m := by
  rw [receivedRegs_eq]
  constructor
  · intro h
    exact ⟨h.edi, h.esi, h.ebp, h.ebx, h.edx, h.ecx, h.eax, h.intNo, h.errCode, h.eip, h.cs,
      h.eflags⟩
  · intro h
    exact ⟨h.esp_eax, h.edi_ebx, h.ebp_ecx, h.esi_edx, h.fs_esi, h.gs_edi, h.es_ebp, h.ebx_vector,
      h.edx_errCode, h.ecx_eip, h.eax_cs, h.vector_eflags⟩

/-- Where the frame names the registers, `syscall_dispatch` returns if the system call does. -/
theorem handler_isSome (k : Installed W) (hframe : FrameCoincides upper .syscall m) :
    (k.handler .syscall m.cr2 (frameRegs upper .syscall m) m.world).isSome =
      (k.resultEax .syscall m).isSome := by
  have hdispatch := syscallDispatch_result k.syscallTable (frameRegs upper .syscall m) m.world
  have heax : (frameRegs upper .syscall m).eax = m.cpu.eax := hframe.esp_eax
  have hebx : (frameRegs upper .syscall m).ebx = m.cpu.ebx := hframe.edi_ebx
  have hecx : (frameRegs upper .syscall m).ecx = m.cpu.ecx := hframe.ebp_ecx
  have hedx : (frameRegs upper .syscall m).edx = m.cpu.edx := hframe.esi_edx
  rw [heax, hebx, hecx, hedx] at hdispatch
  unfold Installed.handler Installed.resultEax
  dsimp only
  rw [← hdispatch, Option.isSome_map, Option.isSome_map, Option.isSome_map]

/-- **When the frame names the registers and the result comes back in EAX**: when the registers that
are pushed four words apart are equal, and EAX has the result of the system call already. -/
theorem interrupt_frame_iff (upper : SegmentRegister → UInt32) (k : Installed W) (i : Interrupt)
    (m : Machine W) :
    NamesRegisters i m.cpu (receivedRegs upper i m) ∧ ResumesWithResult upper k i m ↔
      FrameCoincides upper i m ∧ ∀ eax, k.resultEax i m = some eax → eax = m.cpu.eax := by
  rw [namesRegisters_iff]
  refine and_congr_right fun hframe => ?_
  constructor
  · intro hresumes eax hresult
    cases i with
    | exception n errCode => exact (Option.some.inj hresult).symm
    | irq n => exact (Option.some.inj hresult).symm
    | syscall =>
        have hsome := handler_isSome k hframe
        rw [hresult] at hsome
        obtain ⟨r, hr⟩ := Option.isSome_iff_exists.mp hsome
        obtain ⟨_, hregs⟩ := k.handler_regs hr
        obtain ⟨m', hrun, hcpu⟩ := interrupt_cpu hr hregs
        have hback := hresumes m' hrun
        rw [hresult, hcpu] at hback
        exact congrArg Cpu.eax (Option.some.inj hback)
  · intro heax m' hrun
    rw [k.interrupt_cpu hrun]
    cases i with
    | exception n errCode => rfl
    | irq n => rfl
    | syscall =>
        obtain ⟨r, hr, _⟩ := interrupt_eq_some hrun
        have hsome := handler_isSome k hframe
        rw [hr] at hsome
        obtain ⟨eax, hresult⟩ := Option.isSome_iff_exists.mp hsome.symm
        rw [hresult, heax eax hresult]
        rfl

/-- **No system call is served on a stack above 64 KB**, as all stacks of the kernel are: no frame names the
registers, and whatever is in EAX, `int 0x80` changes neither a register nor anything that the kernel keeps. -/
theorem syscall_lost (upper : SegmentRegister → UInt32) (m : Machine W)
    (hstack : 2 ^ 16 ≤ (frameBase m - 20).toNat) :
    (∀ i, ¬ NamesRegisters i m.cpu (receivedRegs upper i m)) ∧
      ∀ k : Installed W, ∃ m', interrupt upper (k.handler .syscall) .syscall m = some m' ∧
        m'.cpu = m.cpu ∧ m'.world = m.world := by
  refine ⟨fun i hnames => ?_, fun k => ?_⟩
  · have hlow := (namesRegisters_iff.mp hnames).low_stack
    omega
  · -- the number of the call is the stack pointer that `pusha` saved
    have hnumber : ¬ (frameRegs upper .syscall m).eax.toNat < SYSCALL_COUNT := by
      change ¬ (frameBase m - 20).toNat < 14
      omega
    have hcall : ∃ r, k.handler .syscall m.cr2 (frameRegs upper .syscall m) m.world = some r ∧
        r.regs = frameRegs upper .syscall m ∧ r.world = m.world := by
      unfold Installed.handler syscallDispatch
      dsimp only
      rw [dif_neg hnumber]
      exact ⟨_, rfl, rfl, rfl⟩
    obtain ⟨r, hr, hregs, hworld⟩ := hcall
    obtain ⟨m', hrun, hcpu⟩ := interrupt_cpu hr hregs
    obtain ⟨r', hr', hkept⟩ := interrupt_eq_some hrun
    obtain rfl := Option.some.inj (hr.symm.trans hr')
    exact ⟨m', hrun, hcpu, hkept.trans hworld⟩

/-- A kernel without registered handlers whose system calls all return 0. -/
def idleKernel : Installed Unit where
  irqHandlers _ := none
  eoi w _ := w
  syscallTable _ _ _ _ w := some (0, w)
  scratch _ _ := ⟨0, 0, 0, 0⟩

/-- A process asks for system call 20, which there is not, with 1 in EDI. -/
def syscallTwenty : Machine Unit where
  cpu :=
    { eax := 20, edi := 1, esp := 0xBFFFF000, eip := 0x400002, eflags := 0x202, cs := 0x1B,
      ss := 0x23, ds := 0x23, es := 0x23, fs := 0x23, gs := 0x23 }
  tssEsp0 := 0xC0400000
  cr2 := 0
  mem := fun _ => 0
  world := ()

/-- It finds GS in EDI, and the process finds 20 in EAX again. -/
theorem syscallTwenty_frame :
    (receivedRegs (fun _ => 0) .syscall syscallTwenty).edi = 0x23 ∧
      ¬ NamesRegisters .syscall syscallTwenty.cpu (receivedRegs (fun _ => 0) .syscall syscallTwenty) ∧
      ∃ m', interrupt (fun _ => 0) (idleKernel.handler .syscall) .syscall syscallTwenty = some m' ∧
        m'.cpu.eax = 20 ∧ idleKernel.resultEax .syscall syscallTwenty = some 0xFFFFFFFF ∧
        ¬ ResumesWithResult (fun _ => 0) idleKernel .syscall syscallTwenty := by
  have hedi : (receivedRegs (fun _ => 0) .syscall syscallTwenty).edi = 0x23 := by
    rw [receivedRegs_eq]
    decide
  have hgoesOn : ∃ m', interrupt (fun _ => 0) (idleKernel.handler .syscall) .syscall syscallTwenty =
      some m' ∧ m'.cpu = syscallTwenty.cpu := interrupt_cpu rfl rfl
  obtain ⟨m', hrun, hcpu⟩ := hgoesOn
  refine ⟨hedi, fun h => ?_, m', hrun, ?_, rfl, fun h => ?_⟩
  · exact absurd (hedi.symm.trans h.edi) (by decide)
  · rw [hcpu]
    rfl
  · have hback := h m' hrun
    rw [hcpu] at hback
    exact absurd (congrArg Cpu.eax (Option.some.inj hback)) (by decide)

/-- A kernel that counts its system calls. -/
def countingKernel : Installed ℕ where
  irqHandlers _ := none
  eoi w _ := w
  syscallTable _ _ _ _ w := some (0, w + 1)
  scratch _ _ := ⟨0, 0, 0, 0⟩

/-- A process asks for system call 11. -/
def syscallEleven : Machine ℕ := ⟨{ syscallTwenty.cpu with eax := 11 }, 0xC0400000, 0, fun _ => 0, 0⟩

/-- None is counted. -/
theorem syscall_lost_eleven : ∃ m',
    interrupt (fun _ => 0) (countingKernel.handler .syscall) .syscall syscallEleven = some m' ∧
      m'.cpu.eax = 11 ∧ m'.world = 0 := by
  obtain ⟨_, hlost⟩ := syscall_lost (fun _ => 0) syscallEleven (by decide)
  obtain ⟨m', hrun, hcpu, hworld⟩ := hlost countingKernel
  exact ⟨m', hrun, congrArg Cpu.eax hcpu, hworld⟩

end LunaOs
