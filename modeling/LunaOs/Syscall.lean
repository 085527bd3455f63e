import LunaOs.Interrupts
import LunaOs.LedgerLayout
import LunaOs.Memory
import LunaOs.Lib.Runs
import LunaOs.Vmm
import Mathlib.Tactic.IntervalCases

/-! # System call dispatch, `kernel/syscall.c`

`syscall_dispatch` passes three registers of the caller to a handler.  The handlers are modelled with
the memory they share with the kernel: whatever they store at an address they compute from their
arguments is stored there, and `Memory.written` records it.  What the other kernel functions they call
return is a `Replies`; what those functions do themselves has happened before (`Syscall.kernel`).

No handler looks at where a pointer of the caller points.  A run of calls of `syscall_dispatch` keeps to user
memory exactly if each was made with pointers into user memory (`userWrites_iff`).  What `int 0x80` hands to
`syscall_dispatch` is not what the caller has in its registers: see `InterruptFrame.lean`. -/

namespace LunaOs

open Runs

/-! ### The calls that store where the caller says -/

/-- The numbers of these calls. -/
def SYSCALL_SUBMIT_SURFACE : UInt32 := 8
def SYSCALL_AI_QUERY : UInt32 := 12
def SYSCALL_LEDGER_READ : UInt32 := 13

/-- `sizeof(LedgerBlock)` in the kernel, which is built for x86. -/
abbrev LEDGER_BLOCK_SIZE : ℕ := LedgerBlock.sizeofBlock .x86

/-! ### What the handlers work on -/

/-- Where the linker puts `ledger_blocks`, and the place of `dirty_flag` in a surface, which
`shared_surface.h` does not declare. -/
structure KernelLayout where
  ledgerBlocks : UInt32
  kernel : KERNEL_VIRT_BASE ≤ ledgerBlocks
  fits : ledgerBlocks.toNat + LEDGER_MAX_BLOCKS * LEDGER_BLOCK_SIZE ≤ 2 ^ 32
  dirtyOffset : UInt32
  dirtySize : ℕ
  dirtySize_pos : 0 < dirtySize

/-- The memory, and the counter that `ledger_get_block` tests. -/
structure SyscallState where
  mem : Memory
  ledgerCount : UInt32
  count_le : ledgerCount.toNat ≤ LEDGER_MAX_BLOCKS

/-- What the kernel functions a handler calls return to it. -/
structure Replies where
  /-- The pid of `process_get_current()`, if it is not NULL. -/
  current : Option UInt32
  /-- Whether `vfs_find` finds the path. -/
  found : Bool
  /-- The pointer `surface_create` returns. -/
  surface : UInt32
  /-- The string `ai_query` returns. -/
  aiResult : UInt32

/-- A handler returns its result and the state, or never returns. -/
abbrev SyscallFn := UInt32 → UInt32 → UInt32 → SyscallState → Option (UInt32 × SyscallState)

def SyscallState.withMem (s : SyscallState) (mem : Memory) : SyscallState := { s with mem }

/-! ### Handlers -/

section
variable (k : KernelLayout) (r : Replies)

/-- What `process_kill` and `scheduler_yield` do is in `CurrentProcess.lean`. -/
def sysExit : SyscallFn := fun code _ _ s => some (code, s)

/-- A stub: nothing is read. -/
def sysRead : SyscallFn := fun _fd _bufVirt _len s => some (0, s)

/-- The loop drops every byte. -/
def sysWrite : SyscallFn := fun _fd _bufVirt len s => some (len, s)

/-- The event that it enqueues is left out. -/
def sysOpen : SyscallFn := fun _pathVirt _flags _ s => some (if r.found then 0 else 0xFFFFFFFF, s)

def sysClose : SyscallFn := fun _fd _ _ s => some (0, s)

def sysGetpid : SyscallFn := fun _ _ _ s => some (r.current.getD 0, s)

def sysFork : SyscallFn := fun _ _ _ s => some (0xFFFFFFFF, s)

/-- The surface is not mapped here: `surface_map_to_process` has no code in the kernel. -/
def sysMapSurface : SyscallFn := fun _width _height _ s =>
  some (if r.surface = 0 then 0xFFFFFFFF else r.surface, s)

/-- `if (s) s->dirty_flag = 1;` -/
def sysSubmitSurface : SyscallFn := fun surfacePtr _ _ s =>
  if surfacePtr ≠ 0 then
    some (0, s.withMem
      (s.mem.storeBytes (surfacePtr + k.dirtyOffset) (Endian.leBytes k.dirtySize 1)))
  else some (0, s)

/-- A stub: no event is copied. -/
def sysGetInput : SyscallFn := fun _eventBuf _ _ s => some (0, s)

def sysSbrk : SyscallFn := fun _increment _ _ s => some (0, s)

/-- What `timer_sleep_ms` does is in `Sleep.lean`. -/
def sysSleep : SyscallFn := fun _ms _ _ s => some (0, s)

/-- The response is cut to `max_len - 1` bytes, which wraps around for 0. -/
def sysAiQuery : SyscallFn := fun _promptVirt respVirt maxLen s => do
  let len ← lunaStrlen s.mem.bytes r.aiResult
  let rlen := if len ≥ maxLen then maxLen - 1 else len
  let mem := lunaMemcpy s.mem respVirt r.aiResult rlen
  some (rlen, s.withMem (mem.store (respVirt + rlen) 0))

/-- `ledger_get_block`, as an address. -/
def ledgerGetBlockPtr (s : SyscallState) (idx : UInt32) : Option UInt32 :=
  if idx ≥ s.ledgerCount then none
  else some (k.ledgerBlocks + idx * UInt32.ofNat LEDGER_BLOCK_SIZE)

/-- The block is copied to `out_virt`. -/
def sysLedgerRead : SyscallFn := fun idx outVirt _ s =>
  match ledgerGetBlockPtr k s idx with
  | none => some (0, s)
  | some b =>
      some (UInt32.ofNat LEDGER_BLOCK_SIZE,
        s.withMem (lunaMemcpy s.mem outVirt b (UInt32.ofNat LEDGER_BLOCK_SIZE)))

/-- The entries of `syscall_table` in the order of their numbers. -/
def syscallHandlers : Vector SyscallFn SYSCALL_COUNT :=
  #v[sysExit, sysRead, sysWrite, sysOpen r, sysClose, sysGetpid r, sysFork, sysMapSurface r,
    sysSubmitSurface k, sysGetInput, sysSbrk, sysSleep, sysAiQuery r, sysLedgerRead k]

def syscallTable : SyscallTable SyscallState := fun num => (syscallHandlers k r).get num

end

/-! ### What a system call writes -/

section
variable (k : KernelLayout) (r : Replies)

/-- The address and the number of the bytes that a call of the three handlers with a pointer
argument stores; no other handler stores anything at an address of the caller. -/
def callTarget (s : SyscallState) (regs : CPURegs) (len : UInt32) : UInt32 × ℕ :=
  if regs.eax = SYSCALL_LEDGER_READ then
    (regs.ecx, if regs.ebx < s.ledgerCount then LEDGER_BLOCK_SIZE else 0)
  else if regs.eax = SYSCALL_AI_QUERY then
    (regs.ecx, (if len ≥ regs.edx then regs.edx - 1 else len).toNat + 1)
  else if regs.eax = SYSCALL_SUBMIT_SURFACE then
    (regs.ebx + k.dirtyOffset, if regs.ebx = 0 then 0 else k.dirtySize)
  else (0, 0)

theorem syscallDispatch_handler (s : SyscallState) {regs : CPURegs}
    (h : regs.eax.toNat < SYSCALL_COUNT) :
    (syscallDispatch (syscallTable k r) regs s).map (fun x => x.2.2) =
      ((syscallHandlers k r).get ⟨regs.eax.toNat, h⟩ regs.ebx regs.ecx regs.edx s).map Prod.snd := by
  unfold syscallDispatch syscallTable
  dsimp only
  rw [dif_pos h]
  cases (syscallHandlers k r).get ⟨regs.eax.toNat, h⟩ regs.ebx regs.ecx regs.edx s <;> rfl

theorem syscallDispatch_state (s : SyscallState) (regs : CPURegs) :
    (syscallDispatch (syscallTable k r) regs s).map (fun x => x.2.2) =
      if regs.eax = SYSCALL_LEDGER_READ then
        (sysLedgerRead k regs.ebx regs.ecx regs.edx s).map Prod.snd
      else if regs.eax = SYSCALL_AI_QUERY then
        (sysAiQuery r regs.ebx regs.ecx regs.edx s).map Prod.snd
      else if regs.eax = SYSCALL_SUBMIT_SURFACE then
        (sysSubmitSurface k regs.ebx regs.ecx regs.edx s).map Prod.snd
      else some s := by
  by_cases hlt : regs.eax.toNat < SYSCALL_COUNT
  · have hnum : regs.eax = UInt32.ofNat regs.eax.toNat := UInt32.ofNat_toNat.symm
    have hbound : regs.eax.toNat < 14 := hlt
    rw [syscallDispatch_handler k r s hlt]
    revert hlt
    generalize regs.eax.toNat = n at hnum hbound
    intro hlt
    rw [hnum]
    interval_cases n <;> rfl
  · have hne : ∀ num : UInt32, num.toNat < SYSCALL_COUNT → regs.eax ≠ num := by
      rintro num hnum rfl
      exact hlt hnum
    unfold syscallDispatch
    dsimp only
    rw [dif_neg hlt, if_neg (hne _ (by decide)), if_neg (hne _ (by decide)), if_neg (hne _ (by decide))]
    rfl

variable {k r} {s : SyscallState} {out : UInt32 × SyscallState} {a b c : UInt32}

theorem sysLedgerRead_writes (h : sysLedgerRead k a b c s = some out) :
    Writes s.mem out.2.mem b (if a < s.ledgerCount then LEDGER_BLOCK_SIZE else 0) ∧
      out.2.ledgerCount = s.ledgerCount := by
  unfold sysLedgerRead ledgerGetBlockPtr at h
  by_cases hidx : a < s.ledgerCount
  · have hnot : ¬ a ≥ s.ledgerCount := UInt32.not_le.mpr hidx
    rw [if_neg hnot] at h
    obtain rfl := Option.some.inj h
    rw [if_pos hidx]
    exact ⟨(lunaMemcpy_copies s.mem b _ _).toWrites, rfl⟩
  · have hge : a ≥ s.ledgerCount := UInt32.not_lt.mp hidx
    rw [if_pos hge] at h
    obtain rfl := Option.some.inj h
    rw [if_neg hidx]
    exact ⟨Writes.refl _ _, rfl⟩

theorem sysAiQuery_writes (h : sysAiQuery r a b c s = some out) :
    ∃ len, lunaStrlen s.mem.bytes r.aiResult = some len ∧
      Writes s.mem out.2.mem b ((if len ≥ c then c - 1 else len).toNat + 1) ∧
      out.2.ledgerCount = s.ledgerCount := by
  obtain ⟨len, hlen, hout⟩ := Option.bind_eq_some_iff.mp h
  obtain rfl := Option.some.inj hout
  set rlen := if len ≥ c then c - 1 else len
  have hcopy := (lunaMemcpy_copies s.mem b r.aiResult rlen).toWrites
  have hnul := Writes.store (lunaMemcpy s.mem b r.aiResult rlen) (b + rlen) 0
  refine ⟨len, hlen, hcopy.trans ?_, rfl⟩
  rw [UInt32.ofNat_toNat]
  exact hnul

theorem sysSubmitSurface_writes (h : sysSubmitSurface k a b c s = some out) :
    Writes s.mem out.2.mem (a + k.dirtyOffset) (if a = 0 then 0 else k.dirtySize) ∧
      out.2.ledgerCount = s.ledgerCount := by
  unfold sysSubmitSurface at h
  by_cases hnull : a = 0
  · rw [if_neg (not_not.mpr hnull)] at h
    obtain rfl := Option.some.inj h
    rw [if_pos hnull]
    exact ⟨Writes.refl _ _, rfl⟩
  · rw [if_pos hnull] at h
    obtain rfl := Option.some.inj h
    have hstore := Writes.storeBytes s.mem (a + k.dirtyOffset) (Endian.leBytes k.dirtySize 1)
    rw [Endian.leBytes_length] at hstore
    rw [if_neg hnull]
    exact ⟨hstore, rfl⟩

/-- **A system call stores the bytes of its target, each once, and nothing else.** -/
theorem syscallDispatch_writes {regs : CPURegs} {x : UInt32 × CPURegs × SyscallState}
    (h : syscallDispatch (syscallTable k r) regs s = some x) :
    ∃ len, (regs.eax = SYSCALL_AI_QUERY → lunaStrlen s.mem.bytes r.aiResult = some len) ∧
      Writes s.mem x.2.2.mem (callTarget k s regs len).1 (callTarget k s regs len).2 ∧
      x.2.2.ledgerCount = s.ledgerCount := by
  have hstate := (syscallDispatch_state k r s regs).symm
  rw [h, Option.map_some] at hstate
  unfold callTarget
  by_cases hread : regs.eax = SYSCALL_LEDGER_READ
  · have hne : regs.eax ≠ SYSCALL_AI_QUERY := by rw [hread]; decide
    rw [if_pos hread] at hstate
    obtain ⟨out, hout, hx⟩ := Option.map_eq_some_iff.mp hstate
    refine ⟨0, fun hai => absurd hai hne, ?_⟩
    rw [if_pos hread, ← hx]
    exact sysLedgerRead_writes hout
  rw [if_neg hread] at hstate
  by_cases hai : regs.eax = SYSCALL_AI_QUERY
  · rw [if_pos hai] at hstate
    obtain ⟨out, hout, hx⟩ := Option.map_eq_some_iff.mp hstate
    obtain ⟨len, hlen, hwrites⟩ := sysAiQuery_writes hout
    refine ⟨len, fun _ => hlen, ?_⟩
    rw [if_neg hread, if_pos hai, ← hx]
    exact hwrites
  rw [if_neg hai] at hstate
  refine ⟨0, fun h => absurd h hai, ?_⟩
  rw [if_neg hread, if_neg hai]
  by_cases hsubmit : regs.eax = SYSCALL_SUBMIT_SURFACE
  · rw [if_pos hsubmit] at hstate
    obtain ⟨out, hout, hx⟩ := Option.map_eq_some_iff.mp hstate
    rw [if_pos hsubmit, ← hx]
    exact sysSubmitSurface_writes hout
  · rw [if_neg hsubmit] at hstate
    rw [if_neg hsubmit, ← Option.some.inj hstate]
    exact ⟨Writes.refl _ _, rfl⟩

end

/-! ### Runs of system calls -/

/-- A system call: the registers, what the kernel functions return, and what other kernel code has done
to the state before the handler stores anything. -/
structure Syscall where
  regs : CPURegs
  replies : Replies
  kernel : SyscallState → SyscallState

/-- The address of a byte of a block. -/
def KernelLayout.blockByte (k : KernelLayout) (i j : ℕ) : UInt32 :=
  k.ledgerBlocks + UInt32.ofNat (i * LEDGER_BLOCK_SIZE + j)

/-- The blocks that are finalised in `s` are the same in `s'`. -/
def KeepsFinalised (k : KernelLayout) (s s' : SyscallState) : Prop :=
  ∀ i < s.ledgerCount.toNat, ∀ j < LEDGER_BLOCK_SIZE,
    s'.mem.bytes (k.blockByte i j) = s.mem.bytes (k.blockByte i j)

section
variable (k : KernelLayout)

def Syscall.step (s : SyscallState) (c : Syscall) : Option SyscallState :=
  (syscallDispatch (syscallTable k c.replies) c.regs (c.kernel s)).map fun x => x.2.2

/-- The stores of a call that leads from `s` to `s'` are to user memory, those of `sys_ai_query` to
the caller's buffer, and no finalised block changes. -/
structure WritesUserMemory (s s' : SyscallState) (regs : CPURegs) : Prop where
  user : ∃ stored, s'.mem.written = s.mem.written ++ stored ∧ ∀ a ∈ stored, a < KERNEL_VIRT_BASE
  bounded : regs.eax = SYSCALL_AI_QUERY →
    ∃ stored, s'.mem.written = s.mem.written ++ stored ∧ ∀ a ∈ stored, a ∈ addrs regs.ecx regs.edx.toNat
  finalised : KeepsFinalised k s s'

/-- What the handlers do not check: where the bytes they are going to store end, and that the buffer
for a response is not empty. -/
structure UserPointers (s : SyscallState) (regs : CPURegs) (r : Replies) : Prop where
  ledgerRead : regs.eax = SYSCALL_LEDGER_READ → regs.ebx < s.ledgerCount →
    regs.ecx.toNat + LEDGER_BLOCK_SIZE ≤ KERNEL_VIRT_BASE.toNat
  aiQuery : regs.eax = SYSCALL_AI_QUERY → ∀ len, lunaStrlen s.mem.bytes r.aiResult = some len →
    regs.edx ≠ 0 ∧ regs.ecx.toNat + min (len.toNat + 1) regs.edx.toNat ≤ KERNEL_VIRT_BASE.toNat
  submitSurface : regs.eax = SYSCALL_SUBMIT_SURFACE → regs.ebx ≠ 0 →
    (regs.ebx + k.dirtyOffset).toNat + k.dirtySize ≤ KERNEL_VIRT_BASE.toNat

variable {k} {r : Replies} {s s' t : SyscallState} {regs : CPURegs} {len : UInt32}

theorem KernelLayout.base_le_blockByte (k : KernelLayout) {i j : ℕ} (hi : i < LEDGER_MAX_BLOCKS)
    (hj : j < LEDGER_BLOCK_SIZE) : KERNEL_VIRT_BASE ≤ k.blockByte i j := by
  have hrow : (i + 1) * LEDGER_BLOCK_SIZE ≤ LEDGER_MAX_BLOCKS * LEDGER_BLOCK_SIZE :=
    Nat.mul_le_mul_right _ hi
  rw [Nat.succ_mul] at hrow
  have hfits := k.fits
  have hkernel := k.kernel
  unfold KernelLayout.blockByte
  rw [UInt32.le_iff_toNat_le] at hkernel ⊢
  rw [ByteMem.toNat_add_of_lt (by omega)]
  omega

theorem keepsFinalised_of_user {a : UInt32} {n : ℕ} (h : Writes s.mem s'.mem a n)
    (huser : ∀ b ∈ addrs a n, b < KERNEL_VIRT_BASE) : KeepsFinalised k s s' := by
  intro i hi j hj
  apply h.frame
  intro hmem
  have hbase := k.base_le_blockByte (lt_of_lt_of_le hi s.count_le) hj
  exact absurd (huser _ hmem) (UInt32.not_lt.mpr hbase)

/-- The bytes `sys_ai_query` stores: the response with its terminator, cut to a buffer that is not
empty. -/
theorem rlen_succ {maxLen : UInt32} (hmax : maxLen ≠ 0) :
    (if len ≥ maxLen then maxLen - 1 else len).toNat + 1 = min (len.toNat + 1) maxLen.toNat := by
  have hpos : maxLen.toNat ≠ 0 := fun h => hmax (UInt32.toNat_inj.mp h)
  have hlt := maxLen.toNat_lt
  split_ifs with hge
  · rw [ge_iff_le, UInt32.le_iff_toNat_le] at hge
    rw [UInt32.toNat_sub]
    simp
    omega
  · rw [ge_iff_le, UInt32.le_iff_toNat_le] at hge
    omega

theorem responseTarget_iff {a maxLen : UInt32} :
    (∀ b ∈ addrs a ((if len ≥ maxLen then maxLen - 1 else len).toNat + 1), b < KERNEL_VIRT_BASE) ∧
      (∀ b ∈ addrs a ((if len ≥ maxLen then maxLen - 1 else len).toNat + 1),
        b ∈ addrs a maxLen.toNat) ↔
      maxLen ≠ 0 ∧ a.toNat + min (len.toNat + 1) maxLen.toNat ≤ KERNEL_VIRT_BASE.toNat := by
  rw [addrs_lt_iff]
  constructor
  · rintro ⟨huser, hbound⟩
    have hmax : maxLen ≠ 0 := by
      rintro rfl
      have hfirst := hbound a (mem_addrs.mpr ⟨0, Nat.succ_pos _, by simp⟩)
      simp at hfirst
    refine ⟨hmax, ?_⟩
    rw [← rlen_succ hmax]
    exact huser.resolve_left (Nat.succ_ne_zero _)
  · rintro ⟨hmax, huser⟩
    rw [rlen_succ hmax]
    exact ⟨.inr huser, fun _ => addrs_mono (min_le_right _ _)⟩

theorem userPointers_ledgerRead (h : regs.eax = SYSCALL_LEDGER_READ) :
    UserPointers k s regs r ↔
      (regs.ebx < s.ledgerCount → regs.ecx.toNat + LEDGER_BLOCK_SIZE ≤ KERNEL_VIRT_BASE.toNat) := by
  have hai : regs.eax ≠ SYSCALL_AI_QUERY := by rw [h]; decide
  have hsubmit : regs.eax ≠ SYSCALL_SUBMIT_SURFACE := by rw [h]; decide
  constructor
  · exact fun hp => hp.ledgerRead h
  · exact fun hp => ⟨fun _ => hp, fun h' => absurd h' hai, fun h' => absurd h' hsubmit⟩

theorem userPointers_aiQuery (h : regs.eax = SYSCALL_AI_QUERY)
    (hlen : lunaStrlen s.mem.bytes r.aiResult = some len) :
    UserPointers k s regs r ↔ regs.edx ≠ 0 ∧
      regs.ecx.toNat + min (len.toNat + 1) regs.edx.toNat ≤ KERNEL_VIRT_BASE.toNat := by
  have hread : regs.eax ≠ SYSCALL_LEDGER_READ := by rw [h]; decide
  have hsubmit : regs.eax ≠ SYSCALL_SUBMIT_SURFACE := by rw [h]; decide
  constructor
  · exact fun hp => hp.aiQuery h len hlen
  · intro hp
    refine ⟨fun h' => absurd h' hread, fun _ len' hlen' => ?_, fun h' => absurd h' hsubmit⟩
    obtain rfl := Option.some.inj (hlen.symm.trans hlen')
    exact hp

theorem userPointers_submitSurface (h : regs.eax = SYSCALL_SUBMIT_SURFACE) :
    UserPointers k s regs r ↔
      (regs.ebx ≠ 0 → (regs.ebx + k.dirtyOffset).toNat + k.dirtySize ≤ KERNEL_VIRT_BASE.toNat) := by
  have hread : regs.eax ≠ SYSCALL_LEDGER_READ := by rw [h]; decide
  have hai : regs.eax ≠ SYSCALL_AI_QUERY := by rw [h]; decide
  constructor
  · exact fun hp => hp.submitSurface h
  · exact fun hp => ⟨fun h' => absurd h' hread, fun h' => absurd h' hai, fun _ => hp⟩

/-- The target of a call lies in user memory, and that of `sys_ai_query` in the caller's buffer,
exactly if the call was made with pointers into user memory. -/
theorem callTarget_iff
    (hlen : regs.eax = SYSCALL_AI_QUERY → lunaStrlen s.mem.bytes r.aiResult = some len) :
    (∀ a ∈ addrs (callTarget k s regs len).1 (callTarget k s regs len).2, a < KERNEL_VIRT_BASE) ∧
      (regs.eax = SYSCALL_AI_QUERY →
        ∀ a ∈ addrs (callTarget k s regs len).1 (callTarget k s regs len).2,
          a ∈ addrs regs.ecx regs.edx.toNat) ↔
      UserPointers k s regs r := by
  unfold callTarget
  by_cases hread : regs.eax = SYSCALL_LEDGER_READ
  · have hai : regs.eax ≠ SYSCALL_AI_QUERY := by rw [hread]; decide
    have hsize : LEDGER_BLOCK_SIZE ≠ 0 := by decide
    rw [userPointers_ledgerRead hread, if_pos hread, addrs_lt_iff]
    by_cases hidx : regs.ebx < s.ledgerCount
    · simp [hidx, hsize, hai]
    · simp [hidx, hai]
  rw [if_neg hread]
  by_cases hai : regs.eax = SYSCALL_AI_QUERY
  · rw [userPointers_aiQuery hai (hlen hai), if_pos hai, ← responseTarget_iff]
    simp [hai]
  rw [if_neg hai]
  by_cases hsubmit : regs.eax = SYSCALL_SUBMIT_SURFACE
  · have hsize := k.dirtySize_pos.ne'
    rw [userPointers_submitSurface hsubmit, if_pos hsubmit, addrs_lt_iff]
    by_cases hnull : regs.ebx = 0
    · simp [hnull, hai]
    · simp [hnull, hsize, hai]
  · rw [if_neg hsubmit]
    refine iff_of_true ⟨by simp, fun h => absurd h hai⟩ ?_
    exact ⟨fun h => absurd h hread, fun h => absurd h hai, fun h => absurd h hsubmit⟩

/-- **One call writes only user memory exactly if its pointers point there.** -/
theorem writesUserMemory_iff {x : UInt32 × CPURegs × SyscallState}
    (h : syscallDispatch (syscallTable k r) regs s = some x) :
    WritesUserMemory k s x.2.2 regs ↔ UserPointers k s regs r := by
  obtain ⟨len, hlen, hwrites, -⟩ := syscallDispatch_writes h
  rw [← callTarget_iff hlen]
  have hstored : ∀ stored, x.2.2.mem.written = s.mem.written ++ stored →
      stored = addrs (callTarget k s regs len).1 (callTarget k s regs len).2 := by
    intro stored hs
    exact List.append_cancel_left (hs.symm.trans hwrites.written)
  constructor
  · intro hsafe
    refine ⟨?_, fun hai => ?_⟩
    · obtain ⟨stored, hs, huser⟩ := hsafe.user
      rwa [hstored stored hs] at huser
    · obtain ⟨stored, hs, hbound⟩ := hsafe.bounded hai
      rwa [hstored stored hs] at hbound
  · rintro ⟨huser, hbound⟩
    exact ⟨⟨_, hwrites.written, huser⟩, fun hai => ⟨_, hwrites.written, hbound hai⟩,
      keepsFinalised_of_user hwrites huser⟩

/-- The call, if it returns, writes only user memory. -/
def Syscall.Safe (k : KernelLayout) (s : SyscallState) (c : Syscall) : Prop :=
  ∀ s', c.step k s = some s' → WritesUserMemory k (c.kernel s) s' c.regs

/-- The call is made with pointers into user memory. -/
def Syscall.Guarded (k : KernelLayout) (s : SyscallState) (c : Syscall) : Prop :=
  UserPointers k (c.kernel s) c.regs c.replies

/-- The kernel code that runs around the handlers leaves the finalised blocks alone. -/
structure Syscall.KernelKeeps (k : KernelLayout) (s : SyscallState) (c : Syscall) : Prop where
  count : s.ledgerCount ≤ (c.kernel s).ledgerCount
  finalised : KeepsFinalised k s (c.kernel s)

theorem safe_iff_guarded {c : Syscall} (h : c.step k s = some t) : c.Safe k s ↔ c.Guarded k s := by
  unfold Syscall.step at h
  obtain ⟨x, hx, rfl⟩ := Option.map_eq_some_iff.mp h
  unfold Syscall.Safe Syscall.Guarded
  rw [← writesUserMemory_iff hx]
  constructor
  · exact fun hsafe => hsafe _ h
  · rintro hwrites s' hs'
    obtain rfl := Option.some.inj (h.symm.trans hs')
    exact hwrites

theorem KeepsFinalised.trans (h : KeepsFinalised k s s') (h' : KeepsFinalised k s' t)
    (hcount : s.ledgerCount ≤ s'.ledgerCount) : KeepsFinalised k s t := by
  rw [UInt32.le_iff_toNat_le] at hcount
  exact fun i hi j hj => (h' i (lt_of_lt_of_le hi hcount) j hj).trans (h i hi j hj)

theorem Syscall.step_keeps {c : Syscall} (hguard : c.Guarded k s) (hkernel : c.KernelKeeps k s)
    (h : c.step k s = some t) : s.ledgerCount ≤ t.ledgerCount ∧ KeepsFinalised k s t := by
  have hwrites := (safe_iff_guarded h).mpr hguard t h
  obtain ⟨x, hx, rfl⟩ := Option.map_eq_some_iff.mp h
  obtain ⟨-, -, -, hcount⟩ := syscallDispatch_writes hx
  refine ⟨?_, hkernel.finalised.trans hwrites.finalised hkernel.count⟩
  rw [hcount]
  exact hkernel.count

end

/-- **System calls write only user memory exactly if each is made with pointers into user memory**, and
then no run of them changes a block that was finalised before it. -/
theorem userWrites_iff (k : KernelLayout) (s : SyscallState) (cs : List Syscall) :
    (EachStep (fun s c => Syscall.step k s c) (fun s c => c.Safe k s) s cs ↔
      EachStep (fun s c => Syscall.step k s c) (fun s c => c.Guarded k s) s cs) ∧
    (EachStep (fun s c => Syscall.step k s c) (fun s c => c.Guarded k s ∧ c.KernelKeeps k s) s cs →
      ∀ t, haltingRun (fun s c => Syscall.step k s c) s cs = some t → KeepsFinalised k s t) := by
  refine ⟨eachStep_congr fun s c s' h => safe_iff_guarded h, fun heach t hrun => ?_⟩
  have hinv := haltingRun_invariant_each
    (fun u => s.ledgerCount ≤ u.ledgerCount ∧ KeepsFinalised k s u)
    (fun u c u' hu hQ hstep => by
      obtain ⟨hcount, hkeeps⟩ := Syscall.step_keeps hQ.1 hQ.2 hstep
      exact ⟨UInt32.le_trans hu.1 hcount, hu.2.trans hkeeps hu.1⟩)
    ⟨UInt32.le_refl _, fun _ _ _ _ => rfl⟩ heach hrun
  exact hinv.2

/-! ### A ledger that Ring 3 rewrites -/

/-- `ledger_blocks` two megabytes into the kernel half. -/
def sampleLayout : KernelLayout where
  ledgerBlocks := 0xC0200000
  kernel := by decide
  fits := by decide
  dirtyOffset := 36
  dirtySize := 1
  dirtySize_pos := Nat.one_pos

/-- Two finalised blocks, the second all zero and the first not. -/
def sampleKernel : SyscallState where
  mem := ⟨fun a => if a = 0xC0200000 then 7 else 0, []⟩
  ledgerCount := 2
  count_le := by decide

/-- `SYSCALL_LEDGER_READ` of block 0 with the address of block 1 as the output. -/
def overwriteBlock : Syscall where
  regs :=
    { edi := 0, esi := 0, ebp := 0, espDummy := 0, ebx := 0, edx := 0, ecx := 0xC02000B0,
      eax := SYSCALL_LEDGER_READ, intNo := 128, errCode := 0, eip := 0x1000, cs := 0x1B,
      eflags := 0x202, userEsp := 0x2000, userSs := 0x23 }
  replies := ⟨none, false, 0, 0⟩
  kernel := id

/-- The call copies block 0 over block 1. -/
theorem overwriteBlock_breaks :
    ∃ t, overwriteBlock.step sampleLayout sampleKernel = some t ∧
      sampleKernel.mem.bytes (sampleLayout.blockByte 1 0) = 0 ∧
      t.mem.bytes (sampleLayout.blockByte 1 0) = 7 ∧
      ¬ WritesUserMemory sampleLayout sampleKernel t overwriteBlock.regs := by
  refine ⟨sampleKernel.withMem (lunaMemcpy sampleKernel.mem 0xC02000B0 0xC0200000 176), rfl, ?_, ?_, ?_⟩
  · decide +kernel
  · decide +kernel
  · intro h
    have hkeeps := h.finalised 1 (by decide) 0 (by decide)
    revert hkeeps
    decide +kernel

end LunaOs
