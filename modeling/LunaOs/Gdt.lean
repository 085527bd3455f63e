import LunaOs.Interrupts
import LunaOs.Lib.Bitmap
import LunaOs.Lib.Descriptors

/-! # The global descriptor table of `arch/x86/gdt.c`

The table and the task state segment as `gdt_install` and `gdt_set_tss_stack` fill them, with the bytes
that they occupy.  What the processor makes of these bytes is in `Lib/Descriptors.lean`. -/

namespace LunaOs

open Descriptors Endian

/-- `GDT_Entry` -/
structure GDTEntry where
  limitLow : UInt16 := 0
  baseLow : UInt16 := 0
  baseMiddle : UInt8 := 0
  access : UInt8 := 0
  granularity : UInt8 := 0
  baseHigh : UInt8 := 0
deriving DecidableEq

/-- The entry in memory: the structure is packed. -/
def GDTEntry.bytes (e : GDTEntry) : List UInt8 :=
  leBytes 2 e.limitLow.toNat ++ leBytes 2 e.baseLow.toNat ++
    [e.baseMiddle, e.access, e.granularity, e.baseHigh]

/-- `TSS` -/
structure TSS where
  prevTss : UInt32 := 0
  esp0 : UInt32 := 0
  ss0 : UInt32 := 0
  esp1 : UInt32 := 0
  ss1 : UInt32 := 0
  esp2 : UInt32 := 0
  ss2 : UInt32 := 0
  cr3 : UInt32 := 0
  eip : UInt32 := 0
  eflags : UInt32 := 0
  eax : UInt32 := 0
  ecx : UInt32 := 0
  edx : UInt32 := 0
  ebx : UInt32 := 0
  esp : UInt32 := 0
  ebp : UInt32 := 0
  esi : UInt32 := 0
  edi : UInt32 := 0
  es : UInt32 := 0
  cs : UInt32 := 0
  ss : UInt32 := 0
  ds : UInt32 := 0
  fs : UInt32 := 0
  gs : UInt32 := 0
  ldt : UInt32 := 0
  trap : UInt16 := 0
  iomapBase : UInt16 := 0
deriving DecidableEq

/-- The words before `trap`. -/
def TSS.words (t : TSS) : List UInt32 :=
  [t.prevTss, t.esp0, t.ss0, t.esp1, t.ss1, t.esp2, t.ss2, t.cr3, t.eip, t.eflags, t.eax, t.ecx, t.edx,
    t.ebx, t.esp, t.ebp, t.esi, t.edi, t.es, t.cs, t.ss, t.ds, t.fs, t.gs, t.ldt]

def TSS.bytes (t : TSS) : List UInt8 :=
  t.words.flatMap (fun w => leBytes 4 w.toNat) ++ leBytes 2 t.trap.toNat ++ leBytes 2 t.iomapBase.toNat

/-- `sizeof(TSS)` -/
def TSS_SIZE : ℕ := 104

abbrev GDT_ENTRIES : ℕ := 6

/-! The selectors that `Interrupts.lean` does not have. -/

def GDT_USER_CODE : UInt16 := 0x1B

def GDT_USER_DATA : UInt16 := 0x23

def GDT_TSS_SEG : UInt16 := 0x28

/-- The bits of the access byte. -/
def ACC_PRESENT : UInt8 := 0x80
def ACC_DPL0 : UInt8 := 0x00
def ACC_DPL3 : UInt8 := 0x60
def ACC_SEG : UInt8 := 0x10
def ACC_EXEC : UInt8 := 0x08
def ACC_RW : UInt8 := 0x02
def ACC_TSS_32 : UInt8 := 0x09

/-- Pages of 4 KB as the unit of the limit, 32-bit code. -/
def GRAN_4K_32 : UInt8 := 0xCF

/-- The statics `gdt` and `kernel_tss`. -/
structure Gdt where
  gdt : Fin GDT_ENTRIES → GDTEntry
  kernelTss : TSS

def gdtSetEntry (s : Gdt) (idx : Fin GDT_ENTRIES) (base limit : UInt32) (access gran : UInt8) : Gdt :=
  let entry : GDTEntry :=
    { baseLow := (base &&& 0xFFFF).toUInt16
      baseMiddle := ((base >>> 16) &&& 0xFF).toUInt8
      baseHigh := ((base >>> 24) &&& 0xFF).toUInt8
      limitLow := (limit &&& 0xFFFF).toUInt16
      granularity := (gran &&& (0xF0 : UInt8)) ||| ((limit >>> 16) &&& 0x0F).toUInt8
      access }
  { s with gdt := Function.update s.gdt idx entry }

/-- `tss_install`, with the address of `kernel_tss`. -/
def tssInstall (tssAddr : UInt32) (s : Gdt) (idx : Fin GDT_ENTRIES) : Gdt :=
  let limit := UInt32.ofNat (TSS_SIZE - 1)
  let entry : GDTEntry :=
    { limitLow := (limit &&& 0xFFFF).toUInt16
      baseLow := (tssAddr &&& 0xFFFF).toUInt16
      baseMiddle := ((tssAddr >>> 16) &&& 0xFF).toUInt8
      access := ACC_PRESENT ||| ACC_TSS_32
      granularity := ((limit >>> 16) &&& 0x0F).toUInt8
      baseHigh := ((tssAddr >>> 24) &&& 0xFF).toUInt8 }
  { kernelTss := { ss0 := GDT_KERNEL_DATA.toUInt32, iomapBase := UInt16.ofNat TSS_SIZE }
    gdt := Function.update s.gdt idx entry }

/-- `gdt_install` up to the loads of the registers. -/
def gdtInstall (tssAddr : UInt32) (s : Gdt) : Gdt :=
  let s := gdtSetEntry s 0 0 0 0 0
  let s := gdtSetEntry s 1 0 0xFFFFF (ACC_PRESENT ||| ACC_DPL0 ||| ACC_SEG ||| ACC_EXEC ||| ACC_RW) GRAN_4K_32
  let s := gdtSetEntry s 2 0 0xFFFFF (ACC_PRESENT ||| ACC_DPL0 ||| ACC_SEG ||| ACC_RW) GRAN_4K_32
  let s := gdtSetEntry s 3 0 0xFFFFF (ACC_PRESENT ||| ACC_DPL3 ||| ACC_SEG ||| ACC_EXEC ||| ACC_RW) GRAN_4K_32
  let s := gdtSetEntry s 4 0 0xFFFFF (ACC_PRESENT ||| ACC_DPL3 ||| ACC_SEG ||| ACC_RW) GRAN_4K_32
  tssInstall tssAddr s 5

/-- `gdt_set_tss_stack`: the stack that an interrupt of ring 3 changes to. -/
def gdtSetTssStack (s : Gdt) (esp0 : UInt32) : Gdt :=
  { s with kernelTss := { s.kernelTss with esp0 } }

/-- `gdt_ptr.limit` -/
def gdtLimit : ℕ := 8 * GDT_ENTRIES - 1

def Gdt.bytes (s : Gdt) : List UInt8 := (List.finRange GDT_ENTRIES).flatMap fun i => (s.gdt i).bytes

/-! ### One entry -/

/-- The entry as the processor fetches it. -/
def GDTEntry.descriptor (e : GDTEntry) : Descriptor := fun j => e.bytes.get ⟨j, j.isLt⟩

variable {base limit : UInt32} {access gran : UInt8}

theorem toNat_and_low (w : UInt32) (k : ℕ) (m : UInt32) (hm : m.toNat = 2 ^ k - 1) :
    (w &&& m).toNat = w.toNat % 2 ^ k := by
  rw [UInt32.toNat_and, hm]
  exact Nat.and_two_pow_sub_one_eq_mod w.toNat k

/-- The low and the high word of an address and the bytes of the high word. -/
theorem toNat_lowWord (w : UInt32) : (w &&& 0xFFFF).toUInt16.toNat = w.toNat % 65536 := by
  rw [UInt32.toNat_toUInt16, toNat_and_low w 16 _ rfl]
  exact Nat.mod_mod _ _

theorem toNat_shift_byte (w : UInt32) (k : ℕ) (n : UInt32) (hn : n.toNat = k) (hk : k < 32) :
    ((w >>> n) &&& 0xFF).toUInt8.toNat = w.toNat / 2 ^ k % 256 := by
  rw [UInt32.toNat_toUInt8, toNat_and_low _ 8 _ rfl, UInt32.toNat_shiftRight, hn, Nat.mod_eq_of_lt hk,
    Nat.shiftRight_eq_div_pow]
  exact Nat.mod_mod _ _

/-- Byte 6 of an entry: the flags above the highest four bits of the limit. -/
theorem toNat_granularity (gran : UInt8) (limit : UInt32) :
    ((gran &&& (0xF0 : UInt8)) ||| ((limit >>> 16) &&& 0x0F).toUInt8).toNat =
      16 * (gran.toNat / 16) + limit.toNat / 65536 % 16 := by
  have hlow : ((limit >>> 16) &&& 0x0F).toUInt8.toNat = limit.toNat / 65536 % 16 := by
    rw [UInt32.toNat_toUInt8, toNat_and_low _ 4 _ rfl, UInt32.toNat_shiftRight,
      Nat.shiftRight_eq_div_pow]
    show limit.toNat / 65536 % 16 % 256 = _
    omega
  have hhigh : (gran &&& (0xF0 : UInt8)).toNat = 16 * (gran.toNat / 16) := by
    have hmask : ∀ j < 8, (0xF0#8).getLsbD j = decide (4 ≤ j) := by decide
    exact (Bitmap.toNat_and_highMask (x := gran.toBitVec) hmask).trans (Nat.mul_comm _ _)
  rw [UInt8.toNat_or, hlow, hhigh]
  exact (Nat.two_pow_add_eq_or_of_lt (i := 4) (Nat.mod_lt _ (by decide)) _).symm

theorem GDTEntry.descriptor_base (e : GDTEntry) : e.descriptor.base =
    e.baseLow.toNat + 65536 * e.baseMiddle.toNat + 16777216 * e.baseHigh.toNat := by
  have h := e.baseLow.toNat_lt
  show (UInt8.ofNat e.baseLow.toNat).toNat + 256 * (UInt8.ofNat (e.baseLow.toNat / 256)).toNat + _ + _ = _
  rw [UInt8.toNat_ofNat', UInt8.toNat_ofNat']
  show _ + 65536 * e.baseMiddle.toNat + 16777216 * e.baseHigh.toNat = _
  omega

theorem GDTEntry.descriptor_rawLimit (e : GDTEntry) :
    e.descriptor.rawLimit = e.limitLow.toNat + 65536 * (e.granularity.toNat % 16) := by
  have h := e.limitLow.toNat_lt
  show (UInt8.ofNat e.limitLow.toNat).toNat + 256 * (UInt8.ofNat (e.limitLow.toNat / 256)).toNat + _ = _
  rw [UInt8.toNat_ofNat', UInt8.toNat_ofNat']
  show _ + 65536 * (e.granularity.toNat % 16) = _
  omega

theorem GDTEntry.descriptor_flags (e : GDTEntry) : e.descriptor.flags = e.granularity.toNat / 16 := rfl

theorem gdtSetEntry_get (s : Gdt) (idx : Fin GDT_ENTRIES) (base limit : UInt32) (access gran : UInt8) :
    (gdtSetEntry s idx base limit access gran).gdt idx =
      { baseLow := (base &&& 0xFFFF).toUInt16
        baseMiddle := ((base >>> 16) &&& 0xFF).toUInt8
        baseHigh := ((base >>> 24) &&& 0xFF).toUInt8
        limitLow := (limit &&& 0xFFFF).toUInt16
        granularity := (gran &&& (0xF0 : UInt8)) ||| ((limit >>> 16) &&& 0x0F).toUInt8
        access } :=
  Function.update_self _ _ _

/-- **What the processor reads from an entry that `gdt_set_entry` has written**: the base, the low 20 bits
of the limit, the access byte and the upper half of `gran`; and the other entries stay. -/
theorem gdtSetEntry_descriptor (s : Gdt) (idx : Fin GDT_ENTRIES) (base limit : UInt32) (access gran : UInt8) :
    let s' := gdtSetEntry s idx base limit access gran
    let d := (s'.gdt idx).descriptor
    d.base = base.toNat ∧ d.rawLimit = limit.toNat % 2 ^ 20 ∧ d 5 = access ∧ d.flags = gran.toNat / 16 ∧
      ∀ j, j ≠ idx → s'.gdt j = s.gdt j := by
  dsimp only
  rw [gdtSetEntry_get, GDTEntry.descriptor_base, GDTEntry.descriptor_rawLimit,
    GDTEntry.descriptor_flags]
  dsimp only
  rw [toNat_lowWord, toNat_lowWord, toNat_shift_byte base 16 _ rfl (by decide),
    toNat_shift_byte base 24 _ rfl (by decide), toNat_granularity]
  have hbase := base.toNat_lt
  exact ⟨by omega, by omega, rfl, by omega, fun j hj => Function.update_of_ne hj _ _⟩

/-! ### The installed table -/

/-- What `gdt_install` makes of entry 1, and below of entries 2 to 4. -/
def kernelCodeEntry : GDTEntry := ⟨0xFFFF, 0, 0, 0x9A, 0xCF, 0⟩

def kernelDataEntry : GDTEntry := ⟨0xFFFF, 0, 0, 0x92, 0xCF, 0⟩

def userCodeEntry : GDTEntry := ⟨0xFFFF, 0, 0, 0xFA, 0xCF, 0⟩

def userDataEntry : GDTEntry := ⟨0xFFFF, 0, 0, 0xF2, 0xCF, 0⟩

/-- The descriptor of the task state segment, with its address. -/
def tssEntry (tssAddr : UInt32) : GDTEntry :=
  ⟨103, (tssAddr &&& 0xFFFF).toUInt16, ((tssAddr >>> 16) &&& 0xFF).toUInt8, 0x89, 0,
    ((tssAddr >>> 24) &&& 0xFF).toUInt8⟩

theorem gdtInstall_kernelCode (tssAddr : UInt32) (s : Gdt) : (gdtInstall tssAddr s).gdt 1 = kernelCodeEntry :=
  rfl

theorem gdtInstall_kernelData (tssAddr : UInt32) (s : Gdt) : (gdtInstall tssAddr s).gdt 2 = kernelDataEntry :=
  rfl

theorem gdtInstall_userCode (tssAddr : UInt32) (s : Gdt) : (gdtInstall tssAddr s).gdt 3 = userCodeEntry :=
  rfl

theorem gdtInstall_userData (tssAddr : UInt32) (s : Gdt) : (gdtInstall tssAddr s).gdt 4 = userDataEntry :=
  rfl

theorem gdtInstall_tss (tssAddr : UInt32) (s : Gdt) : (gdtInstall tssAddr s).gdt 5 = tssEntry tssAddr :=
  rfl

end LunaOs
