import LunaOs.Lib.Paging32

/-! # The boot code of `arch/x86/boot.asm`

The boot loader puts the image at 1 MB and enters it without paging.  The labels of the image are the
addresses it is linked at, 3 GB higher.  The boot code takes `boot_page_directory` at its label before
paging is on, when that is a physical address: the directory is built in, and CR3 points to, the memory
there, and not to the directory of the image.  If there is such memory, paging works, but what the code
clears later is the directory of the image, so that the low addresses stay mapped
(`bootEntry_translate`).

The magic number of the boot loader is in EAX, which the boot code uses as well before it is pushed for
`kmain` (`kmain_rejects`). -/

namespace LunaOs

open ByteMem Paging32 Extents

/-- Labels of the image, all of them in the 8 MB that the boot code maps. -/
structure BootLayout where
  /-- What follows `mov cr0, ecx`. -/
  enabled : UInt32
  higherHalf : UInt32
  bootPageDirectory : UInt32
  stackTop : UInt32
  bssStart : UInt32
  bssEnd : UInt32
  ctorsStart : UInt32
  ctorsEnd : UInt32
  /-- What follows `call run_global_ctors`. -/
  afterCtors : UInt32
  enabled_mem : (⟨0xC0100000, 0x700000⟩ : Span).Contains enabled.toNat
  higherHalf_mem : (⟨0xC0100000, 0x700000⟩ : Span).Contains higherHalf.toNat
  directory_aligned : bootPageDirectory &&& 0xFFFFF000 = bootPageDirectory
  directory_bss : bssStart.toNat ≤ bootPageDirectory.toNat ∧
    bootPageDirectory.toNat + 4096 ≤ bssEnd.toNat
  stack_aligned : stackTop.toNat % 16 = 0
  stack_bss : bssStart.toNat + 32768 ≤ stackTop.toNat ∧ stackTop.toNat ≤ bssEnd.toNat
  bss_mem : 0xC0100000 ≤ bssStart.toNat ∧ bssEnd.toNat ≤ 0xC0800000

/-- The registers that the boot code uses, and the physical memory. -/
structure BootMachine where
  eax : UInt32
  ebx : UInt32
  ecx : UInt32
  edi : UInt32
  esp : UInt32
  control : Control
  mem : UInt32 → UInt8

/-- How the boot ends before `kmain` runs on. -/
inductive BootStop where
  /-- `cli` and the loop around `hlt` -/
  | halted
  /-- A fault, for which there is no handler yet. -/
  | fault
deriving DecidableEq

def MULTIBOOT2_MAGIC : UInt32 := 0x36D76289

def BOOT_PDE_FLAGS : UInt32 := 0x83

/-- `KERNEL_VIRT_BASE` of `boot.asm` and `linker.ld` -/
def BOOT_VIRT_BASE : UInt32 := 0xC0000000

/-- `KERNEL_PAGE_NUM` -/
def KERNEL_PAGE_NUM : UInt32 := BOOT_VIRT_BASE >>> 22

section
variable (ram : UInt32 → Bool)

namespace BootMachine

/-- `mov dword [va], w`, where `va` is a multiple of 4 -/
def store (m : BootMachine) (va w : UInt32) : Except BootStop BootMachine :=
  match translate m.control m.mem true va with
  | none => .error .fault
  | some pa => .ok { m with mem := putWord ram m.mem pa w }

/-- A push faults where the stack pointer has no page. -/
def push (m : BootMachine) (w : UInt32) : Except BootStop BootMachine :=
  store ram { m with esp := m.esp - 4 } (m.esp - 4) w

/-- The instruction that the processor fetches at `eip` is the one linked at `label`, which the boot loader
has put 3 GB lower. -/
def fetch (m : BootMachine) (eip label : UInt32) : Except BootStop Unit :=
  if translate m.control m.mem false eip = some (label - BOOT_VIRT_BASE) then .ok () else .error .fault

/-- `rep stosb` with `n` in ECX; the direction flag is taken to be clear -/
def repStosb : ℕ → BootMachine → Except BootStop BootMachine
  | 0, m => .ok m
  | n + 1, m =>
      match translate m.control m.mem true m.edi with
      | none => .error .fault
      | some pa =>
          repStosb n { m with mem := put ram m.mem pa m.eax.toUInt8, edi := m.edi + 1, ecx := m.ecx - 1 }

end BootMachine

variable (L : BootLayout)

/-- `boot_entry` up to where paging is on -/
def enablePaging (m : BootMachine) : Except BootStop BootMachine := do
  let m := { m with edi := L.bootPageDirectory }
  let m ← m.store ram (m.edi + 0 * 4) (0x00000000 ||| BOOT_PDE_FLAGS)
  let m ← m.store ram (m.edi + 1 * 4) (0x00400000 ||| BOOT_PDE_FLAGS)
  let m ← m.store ram (m.edi + KERNEL_PAGE_NUM * 4) (0x00000000 ||| BOOT_PDE_FLAGS)
  let m ← m.store ram (m.edi + (KERNEL_PAGE_NUM + 1) * 4) (0x00400000 ||| BOOT_PDE_FLAGS)
  let m := { m with ecx := m.control.cr4 ||| 0x00000010 }
  let m := { m with control := { m.control with cr4 := m.ecx } }
  let m := { m with ecx := L.bootPageDirectory }
  let m := { m with control := { m.control with cr3 := m.ecx } }
  let m := { m with ecx := m.control.cr0 ||| 0x80010000 }
  .ok { m with control := { m.control with cr0 := m.ecx } }

/-- `boot_entry` up to `call run_global_ctors` -/
def bootEntry (m : BootMachine) : Except BootStop BootMachine :=
  if m.eax ≠ MULTIBOOT2_MAGIC then .error .halted
  else do
    let m ← enablePaging ram L m
    m.fetch (L.enabled - BOOT_VIRT_BASE) L.enabled
    let m := { m with ecx := L.higherHalf }
    m.fetch m.ecx L.higherHalf
    let m ← m.store ram (L.bootPageDirectory + 0 * 4) 0
    let m ← m.store ram (L.bootPageDirectory + 1 * 4) 0
    let m := { m with esp := L.stackTop }
    let m := { m with edi := L.bssStart }
    let m := { m with ecx := L.bssEnd - m.edi }
    let m := { m with eax := 0 }
    m.repStosb ram m.ecx.toNat

/-- The loop of `run_global_ctors` for at most `n` turns; `ctor` is what the code at an address does. -/
def ctorsLoop (ctor : UInt32 → BootMachine → Except BootStop BootMachine) :
    ℕ → BootMachine → Except BootStop BootMachine
  | 0, m => .ok m
  | n + 1, m =>
      if L.ctorsEnd.toInt32 ≤ m.edi.toInt32 then .ok m
      else
        match translate m.control m.mem false m.edi with
        | none => .error .fault
        | some pa => do
            let m ← ctor (load32 m.mem pa) m
            ctorsLoop ctor n { m with edi := m.edi + 4 }

/-- `call run_global_ctors` -/
def runGlobalCtors (ctor : UInt32 → BootMachine → Except BootStop BootMachine) (m : BootMachine) :
    Except BootStop BootMachine := do
  let m ← m.push ram L.afterCtors
  let m ← ctorsLoop L ctor (2 ^ 30) { m with edi := L.ctorsStart }
  .ok { m with esp := m.esp + 4 }

/-- The arguments of `kmain`: `mb2_magic` and `mb2_phys_addr`. -/
def kmainArguments (m : BootMachine) : Option (UInt32 × UInt32) := do
  let magic ← translate m.control m.mem false m.esp
  let phys ← translate m.control m.mem false (m.esp + 4)
  some (load32 m.mem magic, load32 m.mem phys)

/-- `boot_entry` up to `call kmain`, with the arguments that the call passes. -/
def bootKernel (ctor : UInt32 → BootMachine → Except BootStop BootMachine) (m : BootMachine) :
    Except BootStop (UInt32 × UInt32) := do
  let m ← bootEntry ram L m
  let m ← runGlobalCtors ram L ctor m
  let m ← m.push ram m.ebx
  let m ← m.push ram m.eax
  match kmainArguments m with
  | none => .error .fault
  | some arguments => .ok arguments

end

/-- `kmain` up to where it parses the boot information: what it puts on the serial line and the message it
panics with, if it does. -/
def kmainValidate (mb2Magic : UInt32) : List String × Option String :=
  if mb2Magic ≠ MULTIBOOT2_MAGIC then
    (["[LUNA] Boot started\n", "[PANIC] Not loaded by a Multiboot2 bootloader!\n"],
      some "Invalid multiboot2 magic")
  else (["[LUNA] Boot started\n"], none)

/-! ### The directory that CR3 points to -/

/-- Entry `i` of the directory at `D`. -/
def pde (mem : UInt32 → UInt8) (D : UInt32) (i : ℕ) : UInt32 := load32 mem (D + 4 * UInt32.ofNat i)

/-- The four entries that the boot code makes, in the directory that the processor uses. -/
structure BootMapped (D : UInt32) (c : Control) (mem : UInt32 → UInt8) : Prop where
  paging : c.cr0 &&& PG ≠ 0
  pse : c.cr4 &&& PSE ≠ 0
  cr3 : c.cr3 &&& 0xFFFFF000 = D
  low : pde mem D 0 = 0x83 ∧ pde mem D 1 = 0x400083
  high : pde mem D 768 = 0x83 ∧ pde mem D 769 = 0x400083

theorem directoryEntry_eq {c : Control} {D : UInt32} (hcr3 : c.cr3 &&& 0xFFFFF000 = D) (mem : UInt32 → UInt8)
    (va : UInt32) : directoryEntry c mem va = pde mem D (va.toNat / 2 ^ 22) := by
  have hshift : va >>> 22 = UInt32.ofNat (va.toNat / 2 ^ 22) := by
    have hlt := va.toNat_lt
    have h22 : (22 : UInt32).toNat % 32 = 22 := rfl
    rw [← UInt32.toNat_inj, UInt32.toNat_shiftRight, h22, Nat.shiftRight_eq_div_pow, UInt32.toNat_ofNat']
    omega
  unfold directoryEntry entryAddress pde
  rw [hcr3, hshift]

theorem BootMapped.translate_page {D : UInt32} {c : Control} {mem : UInt32 → UInt8} (h : BootMapped D c mem)
    (write : Bool) {va : UInt32} {base : ℕ} (hbase : base = 0 ∨ base = 0xC0000000) (hlo : base ≤ va.toNat)
    (hhi : va.toNat < base + 0x800000) : translate c mem write va = some (va - UInt32.ofNat base) := by
  have hentry : ∀ (k : ℕ) (e : UInt32), va.toNat / 2 ^ 22 = base / 2 ^ 22 + k → pde mem D (base / 2 ^ 22 + k) = e →
      e &&& 1 ≠ 0 → e &&& 0x80 ≠ 0 → e &&& 2 ≠ 0 → (e &&& 0xFFC00000).toNat = k * 2 ^ 22 →
      translate c mem write va = some (va - UInt32.ofNat base) := by
    intro k e hk he h1 h80 h2 hframe
    rw [translate_large h.paging h.pse ((directoryEntry_eq h.cr3 mem va).trans (hk ▸ he)) h1 h80 h2 write]
    have hva := va.toNat_lt
    congr 1
    rw [← UInt32.toNat_inj, large_address k hframe, UInt32.toNat_sub, UInt32.toNat_ofNat']
    obtain rfl | rfl := hbase
    · omega
    · omega
  obtain ⟨hlow0, hlow1⟩ := h.low
  obtain ⟨hhigh0, hhigh1⟩ := h.high
  by_cases hpage : va.toNat < base + 0x400000
  · have hk : va.toNat / 2 ^ 22 = base / 2 ^ 22 + 0 := by obtain rfl | rfl := hbase <;> omega
    refine hentry 0 0x83 hk ?_ (by decide) (by decide) (by decide) rfl
    obtain rfl | rfl := hbase
    · exact hlow0
    · exact hhigh0
  · have hk : va.toNat / 2 ^ 22 = base / 2 ^ 22 + 1 := by obtain rfl | rfl := hbase <;> omega
    refine hentry 1 0x400083 hk ?_ (by decide) (by decide) (by decide) rfl
    obtain rfl | rfl := hbase
    · exact hlow1
    · exact hhigh1

theorem BootMapped.translate_low {D : UInt32} {c : Control} {mem : UInt32 → UInt8} (h : BootMapped D c mem)
    (write : Bool) {va : UInt32} (hhi : va.toNat < 0x800000) : translate c mem write va = some va := by
  have hmap := h.translate_page write (.inl rfl) (Nat.zero_le _) (by omega)
  rwa [show UInt32.ofNat 0 = 0 from rfl, UInt32.sub_zero] at hmap

theorem BootMapped.translate_high {D : UInt32} {c : Control} {mem : UInt32 → UInt8} (h : BootMapped D c mem)
    (write : Bool) (va : UInt32) (hlo : 0xC0000000 ≤ va.toNat) (hhi : va.toNat < 0xC0800000) :
    translate c mem write va = some (va - BOOT_VIRT_BASE) :=
  h.translate_page write (.inr rfl) hlo (by omega)

section
variable {D : UInt32} (hD : D.toNat + 4096 ≤ 2 ^ 32)

include hD

theorem pde_address {i : ℕ} (hi : i < 1024) : (D + 4 * UInt32.ofNat i).toNat = D.toNat + 4 * i := by
  have h4 : UInt32.toNat 4 = 4 := rfl
  rw [UInt32.toNat_add, UInt32.toNat_mul, UInt32.toNat_ofNat', h4]
  omega

theorem pde_store (mem : UInt32 → UInt8) (w : UInt32) {i j : ℕ} (hi : i < 1024) (hj : j < 1024) :
    pde (store32 mem (D + 4 * UInt32.ofNat i) w) D j = if i = j then w else pde mem D j := by
  have hai := pde_address hD hi
  have haj := pde_address hD hj
  unfold pde
  split_ifs with h
  · subst h
    exact load32_store32 _ _ _
  · exact load32_store32_of_apart (by omega) (by omega) (by omega)

/-- Memory that agrees on the page of the directory has the same entries. -/
theorem pde_congr {mem mem' : UInt32 → UInt8}
    (h : ∀ a : UInt32, D.toNat ≤ a.toNat → a.toNat < D.toNat + 4096 → mem' a = mem a) {i : ℕ} (hi : i < 1024) :
    pde mem' D i = pde mem D i := by
  have ha := pde_address hD hi
  refine load32_congr fun j hj => h _ ?_ ?_
  · rw [toNat_add_of_lt (by omega), ha]
    omega
  · rw [toNat_add_of_lt (by omega), ha]
    omega

theorem BootMapped.congr {c : Control} {mem mem' : UInt32 → UInt8} (h : BootMapped D c mem)
    (hmem : ∀ a : UInt32, D.toNat ≤ a.toNat → a.toNat < D.toNat + 4096 → mem' a = mem a) :
    BootMapped D c mem' where
  paging := h.paging
  pse := h.pse
  cr3 := h.cr3
  low := by rw [pde_congr hD hmem (by decide), pde_congr hD hmem (by decide)]; exact h.low
  high := by rw [pde_congr hD hmem (by decide), pde_congr hD hmem (by decide)]; exact h.high

end

/-! ### Turning paging on -/

variable {ram : UInt32 → Bool} {L : BootLayout}

namespace BootLayout

theorem directory_lo (L : BootLayout) : 0xC0100000 ≤ L.bootPageDirectory.toNat :=
  L.bss_mem.1.trans L.directory_bss.1

theorem directory_hi (L : BootLayout) : L.bootPageDirectory.toNat + 4096 ≤ 0xC0800000 :=
  L.directory_bss.2.trans L.bss_mem.2

theorem directory_le (L : BootLayout) : L.bootPageDirectory.toNat + 4096 ≤ 2 ^ 32 :=
  L.directory_hi.trans (by decide)

end BootLayout

/-- There is memory at the label of the directory, taken for a physical address. -/
def DirectoryRam (ram : UInt32 → Bool) (L : BootLayout) : Prop :=
  ∀ j < 4096, ram (L.bootPageDirectory + UInt32.ofNat j) = true

/-- There is memory where the boot loader puts the image. -/
def ImageRam (ram : UInt32 → Bool) : Prop :=
  ∀ a : UInt32, 0x100000 ≤ a.toNat → a.toNat < 0x800000 → ram a = true

theorem entry_byte (L : BootLayout) {i j : ℕ} (hi : i < 1024) (hj : j < 4) :
    L.bootPageDirectory + 4 * UInt32.ofNat i + UInt32.ofNat j =
      L.bootPageDirectory + UInt32.ofNat (4 * i + j) := by
  have hentry := pde_address L.directory_le hi
  have hle := L.directory_le
  rw [add_ofNat_eq_iff (by omega) (by omega), hentry]
  omega

theorem putWord_entry (h : DirectoryRam ram L) (mem : UInt32 → UInt8) {i : ℕ} (hi : i < 1024) (w : UInt32) :
    putWord ram mem (L.bootPageDirectory + 4 * UInt32.ofNat i) w =
      store32 mem (L.bootPageDirectory + 4 * UInt32.ofNat i) w := by
  refine putWord_of_ram fun j hj => ?_
  rw [entry_byte L hi hj]
  exact h _ (by omega)

theorem store_flat {m : BootMachine} (hpaging : m.control.cr0 &&& PG = 0) {va a : UInt32} (hva : va = a)
    (w : UInt32) : m.store ram va w = .ok { m with mem := putWord ram m.mem a w } := by
  unfold BootMachine.store
  rw [translate_of_not_paging hpaging, hva]

theorem bind_of_ok {α β : Type} {x : Except BootStop α} {f : α → Except BootStop β} {a : α} (h : x = .ok a) :
    (x >>= f) = f a := by
  rw [h]
  rfl

theorem bind_of_error {α β : Type} {x : Except BootStop α} {f : α → Except BootStop β} {e : BootStop}
    (h : x = .error e) : (x >>= f) = .error e := by
  rw [h]
  rfl

/-- The memory once the four entries are made. -/
def bootDirectory (ram : UInt32 → Bool) (D : UInt32) (mem : UInt32 → UInt8) : UInt32 → UInt8 :=
  let mem := putWord ram mem (D + 4 * UInt32.ofNat 0) 0x83
  let mem := putWord ram mem (D + 4 * UInt32.ofNat 1) 0x400083
  let mem := putWord ram mem (D + 4 * UInt32.ofNat 768) 0x83
  putWord ram mem (D + 4 * UInt32.ofNat 769) 0x400083

theorem pde_bootDirectory (h : DirectoryRam ram L) (mem : UInt32 → UInt8) {i : ℕ} (hi : i < 1024) :
    pde (bootDirectory ram L.bootPageDirectory mem) L.bootPageDirectory i =
      if 769 = i then 0x400083 else if 768 = i then 0x83 else if 1 = i then 0x400083 else if 0 = i then 0x83
      else pde mem L.bootPageDirectory i := by
  have hD := L.directory_le
  unfold bootDirectory
  dsimp only
  rw [putWord_entry h _ (by decide), pde_store hD _ _ (by decide) hi, putWord_entry h _ (by decide),
    pde_store hD _ _ (by decide) hi, putWord_entry h _ (by decide), pde_store hD _ _ (by decide) hi,
    putWord_entry h _ (by decide), pde_store hD _ _ (by decide) hi]

theorem putWord_agree (ram : UInt32 → Bool) (mem : UInt32 → UInt8) {a : UInt32} (w : UInt32) (ha : a.toNat + 4 ≤ 2 ^ 32) :
    AgreeOutside ⟨a.toNat, 4⟩ mem (putWord ram mem a w) := by
  intro b hb
  unfold putWord
  split_ifs
  · exact store32_agree mem w ha b hb
  · rfl

theorem bootDirectory_agree {D : UInt32} (hD : D.toNat + 4096 ≤ 2 ^ 32) (mem : UInt32 → UInt8) :
    AgreeOutside ⟨D.toNat, 4096⟩ mem (bootDirectory ram D mem) := by
  have hagree : ∀ {i : ℕ}, i < 1024 → ∀ (mem : UInt32 → UInt8) (w : UInt32),
      AgreeOutside ⟨D.toNat, 4096⟩ mem (putWord ram mem (D + 4 * UInt32.ofNat i) w) := by
    intro i hi mem w
    have haddr := pde_address hD hi
    refine (putWord_agree ram mem w (by omega)).mono ?_
    rw [haddr]
    exact ⟨Nat.le_add_right _ _, by dsimp only; omega⟩
  exact (((hagree (by decide) _ _).trans (hagree (by decide) _ _)).trans (hagree (by decide) _ _)).trans
    (hagree (by decide) _ _)

theorem bootDirectory_lost (h : ∀ j < 4096, ram (L.bootPageDirectory + UInt32.ofNat j) = false)
    (mem : UInt32 → UInt8) : bootDirectory ram L.bootPageDirectory mem = mem := by
  have hlost : ∀ {i : ℕ}, i < 1024 → ∀ (mem : UInt32 → UInt8) (w : UInt32),
      putWord ram mem (L.bootPageDirectory + 4 * UInt32.ofNat i) w = mem := by
    intro i hi mem w
    refine putWord_of_not_ram fun j hj => ?_
    rw [entry_byte L hi hj]
    exact h _ (by omega)
  unfold bootDirectory
  dsimp only
  rw [hlost (by decide), hlost (by decide), hlost (by decide), hlost (by decide)]

theorem or_and_ne_zero (x : UInt32) {w b : UInt32} (h : w &&& b ≠ 0) : (x ||| w) &&& b ≠ 0 := by
  intro hzero
  have hnat := congrArg UInt32.toNat hzero
  rw [UInt32.toNat_and, UInt32.toNat_or, Nat.and_or_distrib_right, UInt32.toNat_zero, Nat.or_eq_zero_iff] at hnat
  exact h (UInt32.toNat_inj.mp ((UInt32.toNat_and _ _).trans hnat.2))

theorem enablePaging_eq (ram : UInt32 → Bool) (L : BootLayout) {m : BootMachine}
    (hpaging : m.control.cr0 &&& PG = 0) : enablePaging ram L m = .ok
      { m with
        edi := L.bootPageDirectory
        ecx := m.control.cr0 ||| 0x80010000
        control := ⟨m.control.cr0 ||| 0x80010000, L.bootPageDirectory, m.control.cr4 ||| 0x10⟩
        mem := bootDirectory ram L.bootPageDirectory m.mem } := by
  unfold enablePaging
  refine (bind_of_ok (store_flat (by exact hpaging) rfl _)).trans ?_
  refine (bind_of_ok (store_flat (by exact hpaging) rfl _)).trans ?_
  refine (bind_of_ok (store_flat (by exact hpaging) rfl _)).trans ?_
  refine (bind_of_ok (store_flat (by exact hpaging) rfl _)).trans ?_
  rfl

/-- **`boot_entry` up to where paging is on**: the directory that is used is the one it has built. -/
theorem enablePaging_spec (h : DirectoryRam ram L) {m : BootMachine} (hpaging : m.control.cr0 &&& PG = 0) :
    ∃ m', enablePaging ram L m = .ok m' ∧ BootMapped L.bootPageDirectory m'.control m'.mem ∧
      (∀ i < 1024, i ≠ 0 → i ≠ 1 → i ≠ 768 → i ≠ 769 →
        pde m'.mem L.bootPageDirectory i = pde m.mem L.bootPageDirectory i) ∧
      (∀ a : UInt32, ¬ (⟨L.bootPageDirectory.toNat, 4096⟩ : Span).Contains a.toNat → m'.mem a = m.mem a) ∧
      m'.ebx = m.ebx := by
  refine ⟨_, enablePaging_eq ram L hpaging, ⟨or_and_ne_zero _ (by decide), or_and_ne_zero _ (by decide),
    L.directory_aligned, ⟨?_, ?_⟩, ⟨?_, ?_⟩⟩, fun i hi h0 h1 h768 h769 => ?_,
    fun a ha => bootDirectory_agree L.directory_le m.mem a ha, rfl⟩
  · exact pde_bootDirectory h m.mem (i := 0) (by decide)
  · exact pde_bootDirectory h m.mem (i := 1) (by decide)
  · exact pde_bootDirectory h m.mem (i := 768) (by decide)
  · exact pde_bootDirectory h m.mem (i := 769) (by decide)
  · rw [pde_bootDirectory h m.mem hi, if_neg h769.symm, if_neg h768.symm, if_neg h1.symm, if_neg h0.symm]

/-! ### The higher half -/

theorem BootMapped.store {D : UInt32} {m : BootMachine} (h : BootMapped D m.control m.mem) {va : UInt32}
    (hlo : 0xC0000000 ≤ va.toNat) (hhi : va.toNat < 0xC0800000) (w : UInt32) :
    m.store ram va w = .ok { m with mem := putWord ram m.mem (va - BOOT_VIRT_BASE) w } := by
  unfold BootMachine.store
  rw [h.translate_high true va hlo hhi]

theorem sub_base_toNat (va : UInt32) (hlo : 0xC0000000 ≤ va.toNat) :
    (va - BOOT_VIRT_BASE).toNat = va.toNat - 0xC0000000 := by
  have hva := va.toNat_lt
  have hbase : BOOT_VIRT_BASE.toNat = 0xC0000000 := rfl
  rw [UInt32.toNat_sub, hbase]
  omega

theorem fill_succ (mem : UInt32 → UInt8) (a : UInt32) (v : UInt8) {n : ℕ} (hn : n + 1 < 2 ^ 32) :
    fill (Function.update mem a v) (a + 1) (UInt32.ofNat n) v = fill mem a (UInt32.ofNat (n + 1)) v := by
  funext b
  have ha := a.toNat_lt
  have hb := b.toNat_lt
  have h1 : UInt32.toNat 1 = 1 := rfl
  unfold fill
  by_cases hba : b = a
  · subst hba
    rw [Function.update_self, ite_self, if_pos]
    rw [UInt32.lt_iff_toNat_lt, UInt32.sub_self, UInt32.toNat_ofNat', UInt32.toNat_zero]
    omega
  · have hne : b.toNat ≠ a.toNat := fun heq => hba (UInt32.toNat_inj.mp heq)
    have hiff : b - (a + 1) < UInt32.ofNat n ↔ b - a < UInt32.ofNat (n + 1) := by
      rw [UInt32.lt_iff_toNat_lt, UInt32.lt_iff_toNat_lt, UInt32.toNat_sub, UInt32.toNat_sub, UInt32.toNat_add,
        UInt32.toNat_ofNat', UInt32.toNat_ofNat', h1]
      omega
    rw [Function.update_of_ne hba]
    simp only [hiff]

/-- `rep stosb` through the mapping of the image. -/
theorem repStosb_eq {D : UInt32} (hD : 0xC0100000 ≤ D.toNat) (hD' : D.toNat + 4096 ≤ 2 ^ 32)
    (hram : ImageRam ram) {n : ℕ} {m : BootMachine} (h : BootMapped D m.control m.mem)
    (hlo : 0xC0100000 ≤ m.edi.toNat) (hhi : m.edi.toNat + n ≤ 0xC0800000) :
    m.repStosb ram n = .ok
      { m with
        mem := fill m.mem (m.edi - BOOT_VIRT_BASE) (UInt32.ofNat n) m.eax.toUInt8
        edi := m.edi + UInt32.ofNat n
        ecx := m.ecx - UInt32.ofNat n } := by
  induction n generalizing m with
  | zero =>
      have hfill : fill m.mem (m.edi - BOOT_VIRT_BASE) (UInt32.ofNat 0) m.eax.toUInt8 = m.mem :=
        funext fun b => if_neg (UInt32.not_lt.mpr (UInt32.zero_le))
      rw [hfill, show UInt32.ofNat 0 = 0 from rfl, UInt32.add_zero, UInt32.sub_zero]
      rfl
  | succ n ih =>
      have hpa := sub_base_toNat m.edi (by omega)
      have hnext : (m.edi + 1).toNat = m.edi.toNat + 1 := toNat_add_of_lt (j := 1) (by omega)
      have hbelow : ∀ a : UInt32, D.toNat ≤ a.toNat → a.toNat < D.toNat + 4096 →
          Function.update m.mem (m.edi - BOOT_VIRT_BASE) m.eax.toUInt8 a = m.mem a :=
        fun a ha _ => Function.update_of_ne (fun heq => by
          rw [heq, hpa] at ha
          omega) _ _
      have hmapped := h.congr hD' hbelow
      unfold BootMachine.repStosb
      rw [h.translate_high true _ (by omega) (by omega)]
      dsimp only
      rw [put_of_ram (hram _ (by omega) (by omega))]
      rw [ih hmapped (by dsimp only; omega) (by dsimp only; omega)]
      dsimp only
      have hadd : UInt32.ofNat (n + 1) = UInt32.ofNat n + 1 := UInt32.ofNat_add n 1
      rw [show m.edi + 1 - BOOT_VIRT_BASE = m.edi - BOOT_VIRT_BASE + 1 by grind, fill_succ _ _ _ (by omega),
        show m.edi + 1 + UInt32.ofNat n = m.edi + UInt32.ofNat (n + 1) by rw [hadd]; grind,
        show m.ecx - 1 - UInt32.ofNat n = m.ecx - UInt32.ofNat (n + 1) by rw [hadd]; grind]

/-- Where the boot loader has put the section `.bss`. -/
def BootLayout.bssPhys (L : BootLayout) : Span :=
  ⟨L.bssStart.toNat - 0xC0000000, L.bssEnd.toNat - L.bssStart.toNat⟩

/-- Memory that differs in the image's own `.bss` only.  That is 3 GB below the directory in use. -/
theorem BootLayout.outside_bssPhys {L : BootLayout} {mem mem' : UInt32 → UInt8}
    (h : AgreeOutside L.bssPhys mem mem') (a : UInt32) (ha : L.bootPageDirectory.toNat ≤ a.toNat)
    (_ : a.toNat < L.bootPageDirectory.toNat + 4096) : mem' a = mem a := by
  have hD := L.directory_lo
  obtain ⟨hbssLo, hbssHi⟩ := L.bss_mem
  refine h a fun ⟨hin, hin'⟩ => ?_
  unfold BootLayout.bssPhys at hin hin'
  dsimp only at hin hin'
  omega

/-- A store to a variable in `.bss`. -/
theorem BootMapped.storeBss (ram : UInt32 → Bool) (m : BootMachine)
    (h : BootMapped L.bootPageDirectory m.control m.mem) (va : UInt32) (hlo : L.bssStart.toNat ≤ va.toNat) (hhi : va.toNat + 4 ≤ L.bssEnd.toNat) (w : UInt32) :
    m.store ram va w = .ok { m with mem := putWord ram m.mem (va - BOOT_VIRT_BASE) w } ∧
      AgreeOutside L.bssPhys m.mem (putWord ram m.mem (va - BOOT_VIRT_BASE) w) := by
  obtain ⟨hbssLo, hbssHi⟩ := L.bss_mem
  have hpa := sub_base_toNat va (by omega)
  have hagree := @putWord_agree ram m.mem (va - BOOT_VIRT_BASE) w (by omega)
  rw [hpa] at hagree
  refine ⟨h.store (by omega) (by omega) w, hagree.mono ⟨?_, ?_⟩⟩
  · unfold BootLayout.bssPhys
    dsimp only
    omega
  · unfold BootLayout.bssPhys
    dsimp only
    omega

/-- **`boot_entry` up to the constructors.** -/
theorem bootEntry_spec (hdirectory : DirectoryRam ram L) (himage : ImageRam ram) {m : BootMachine}
    (hmagic : m.eax = MULTIBOOT2_MAGIC) (hpaging : m.control.cr0 &&& PG = 0) :
    ∃ m', bootEntry ram L m = .ok m' ∧ BootMapped L.bootPageDirectory m'.control m'.mem ∧
      m'.eax = 0 ∧ m'.ebx = m.ebx ∧ m'.esp = L.stackTop ∧
      (∀ i < 1024, i ≠ 0 → i ≠ 1 → i ≠ 768 → i ≠ 769 →
        pde m'.mem L.bootPageDirectory i = pde m.mem L.bootPageDirectory i) ∧
      (∀ a : UInt32, L.bssPhys.Contains a.toNat → m'.mem a = 0) ∧
      (∀ a : UInt32, ¬ (⟨L.bootPageDirectory.toNat, 4096⟩ : Span).Contains a.toNat →
        ¬ L.bssPhys.Contains a.toNat → m'.mem a = m.mem a) := by
  have hlo := L.directory_lo
  have hle := L.directory_le
  obtain ⟨hbssLo, hbssHi⟩ := L.bss_mem
  obtain ⟨hdirLo, hdirHi⟩ := L.directory_bss
  obtain ⟨m₁, hrun, hmapped, hothers, houtside, hebx⟩ := enablePaging_spec hdirectory hpaging
  have hfetch : m₁.fetch (L.enabled - BOOT_VIRT_BASE) L.enabled = .ok () := by
    obtain ⟨hin, hin'⟩ := L.enabled_mem
    dsimp only at hin hin'
    have hpa := sub_base_toNat L.enabled (by omega)
    exact if_pos (hmapped.translate_low false (by omega))
  have hfetch' : m₁.fetch L.higherHalf L.higherHalf = .ok () := by
    obtain ⟨hin, hin'⟩ := L.higherHalf_mem
    dsimp only at hin hin'
    exact if_pos (hmapped.translate_high false _ (by omega) (by omega))
  -- the entries that are cleared are those of the image's own directory
  have hzero : (L.bootPageDirectory + 0 * 4).toNat = L.bootPageDirectory.toNat :=
    toNat_add_of_lt (j := 0) (by omega)
  have hfour : (L.bootPageDirectory + 1 * 4).toNat = L.bootPageDirectory.toNat + 4 :=
    toNat_add_of_lt (j := 4) (by omega)
  obtain ⟨hstore₂, hagree₂⟩ := BootMapped.storeBss ram { m₁ with ecx := L.higherHalf } hmapped
    (L.bootPageDirectory + 0 * 4) (by omega) (by omega) 0
  have hmapped₂ := hmapped.congr hle (BootLayout.outside_bssPhys hagree₂)
  obtain ⟨hstore₃, hagree₃⟩ := BootMapped.storeBss ram
    { m₁ with
      ecx := L.higherHalf
      mem := putWord ram m₁.mem (L.bootPageDirectory + 0 * 4 - BOOT_VIRT_BASE) 0 } hmapped₂
    (L.bootPageDirectory + 1 * 4) (by omega) (by omega) 0
  have hmapped₃ := hmapped₂.congr hle (BootLayout.outside_bssPhys hagree₃)
  have hcount : L.bssStart.toNat + (L.bssEnd - L.bssStart).toNat = L.bssEnd.toNat := by
    have := L.bssEnd.toNat_lt
    rw [UInt32.toNat_sub]
    omega
  have hstart := sub_base_toNat L.bssStart (by omega)
  have hfill := fill_agree (a := L.bssStart - BOOT_VIRT_BASE) (n := L.bssEnd - L.bssStart)
    (putWord ram (putWord ram m₁.mem (L.bootPageDirectory + 0 * 4 - BOOT_VIRT_BASE) 0)
      (L.bootPageDirectory + 1 * 4 - BOOT_VIRT_BASE) 0) 0 (by omega)
  have hspan : (⟨(L.bssStart - BOOT_VIRT_BASE).toNat, (L.bssEnd - L.bssStart).toNat⟩ : Span) = L.bssPhys := by
    unfold BootLayout.bssPhys
    rw [hstart, show (L.bssEnd - L.bssStart).toNat = L.bssEnd.toNat - L.bssStart.toNat by omega]
  rw [hspan] at hfill
  have hall := (hagree₂.trans hagree₃).trans hfill
  have hstosb := repStosb_eq hlo hle himage (n := (L.bssEnd - L.bssStart).toNat)
    (m := { m₁ with
      eax := 0
      ecx := L.bssEnd - L.bssStart
      edi := L.bssStart
      esp := L.stackTop
      mem := putWord ram (putWord ram m₁.mem (L.bootPageDirectory + 0 * 4 - BOOT_VIRT_BASE) 0)
        (L.bootPageDirectory + 1 * 4 - BOOT_VIRT_BASE) 0 }) hmapped₃ hbssLo (by dsimp only; omega)
  dsimp only at hstosb
  rw [UInt32.ofNat_toNat] at hstosb
  refine ⟨{ m₁ with
    eax := 0
    ecx := L.bssEnd - L.bssStart - (L.bssEnd - L.bssStart)
    edi := L.bssStart + (L.bssEnd - L.bssStart)
    esp := L.stackTop
    mem := fill (putWord ram (putWord ram m₁.mem (L.bootPageDirectory + 0 * 4 - BOOT_VIRT_BASE) 0)
      (L.bootPageDirectory + 1 * 4 - BOOT_VIRT_BASE) 0) (L.bssStart - BOOT_VIRT_BASE) (L.bssEnd - L.bssStart) 0 },
    ?_, hmapped₃.congr hle (BootLayout.outside_bssPhys hfill), rfl, hebx, rfl, ?_, ?_, ?_⟩
  · unfold bootEntry
    rw [if_neg (not_not_intro hmagic)]
    refine (bind_of_ok hrun).trans ?_
    refine (bind_of_ok hfetch).trans ?_
    refine (bind_of_ok hfetch').trans ?_
    refine (bind_of_ok hstore₂).trans ?_
    refine (bind_of_ok hstore₃).trans ?_
    exact hstosb
  · intro i hi h0 h1 h768 h769
    rw [← hothers i hi h0 h1 h768 h769]
    exact pde_congr hle (BootLayout.outside_bssPhys hall) hi
  · intro a ha
    refine if_pos ((sub_lt_iff (by omega)).mpr ?_)
    rw [hspan]
    exact ha
  · intro a ha ha'
    exact (hall a ha').trans (houtside a ha)

/-- What is mapped when the constructors run: the first 8 MB at 3 GB, and still at 0, although the boot
code means to remove that.  The other entries of the directory are what the memory at its label held when
the boot loader entered the image. -/
theorem bootEntry_mapped (ram : UInt32 → Bool) (L : BootLayout) (m : BootMachine)
    (hdirectory : DirectoryRam ram L) (himage : ImageRam ram) (hmagic : m.eax = MULTIBOOT2_MAGIC)
    (hpaging : m.control.cr0 &&& PG = 0) :
    ∃ m', bootEntry ram L m = .ok m' ∧
      (∀ write va, va.toNat < 0x800000 → translate m'.control m'.mem write va = some va) ∧
      (∀ write va, 0xC0000000 ≤ va.toNat → va.toNat < 0xC0800000 →
        translate m'.control m'.mem write va = some (va - BOOT_VIRT_BASE)) ∧
      ∀ va : UInt32, 0x800000 ≤ va.toNat → ¬ (0xC0000000 ≤ va.toNat ∧ va.toNat < 0xC0800000) →
        directoryEntry m'.control m'.mem va = pde m.mem L.bootPageDirectory (va.toNat / 2 ^ 22) := by
  obtain ⟨m', hrun, hmapped, _, _, _, hothers, _⟩ := bootEntry_spec hdirectory himage hmagic hpaging
  refine ⟨m', hrun, fun write va => hmapped.translate_low write,
    fun write va => hmapped.translate_high write va, fun va hva hva' => ?_⟩
  have hlt := va.toNat_lt
  rw [directoryEntry_eq hmapped.cr3]
  exact hothers _ (by omega) (by omega) (by omega) (by omega) (by omega)

/-- An image with one page of code and the directory and the stack in `.bss`. -/
def smallImage : BootLayout where
  enabled := 0xC0101048
  higherHalf := 0xC0101050
  bootPageDirectory := 0xC0103000
  stackTop := 0xC010C000
  bssStart := 0xC0103000
  bssEnd := 0xC010C000
  ctorsStart := 0xC0102000
  ctorsEnd := 0xC0102000
  afterCtors := 0xC0101080
  enabled_mem := ⟨by decide, by decide⟩
  higherHalf_mem := ⟨by decide, by decide⟩
  directory_aligned := by decide
  directory_bss := by decide
  stack_aligned := by decide
  stack_bss := by decide
  bss_mem := by decide

/-- As a boot loader enters the image. -/
def enteredMachine : BootMachine where
  eax := MULTIBOOT2_MAGIC
  ebx := 0x9500
  ecx := 0
  edi := 0
  esp := 0x7C00
  control := ⟨0x11, 0, 0⟩
  mem := fun _ => 0

/-- Without memory there, and the bus all zeros or all ones, the boot ends where paging is turned on. -/
theorem bootEntry_fault (ram : UInt32 → Bool) (L : BootLayout) (m : BootMachine) (v : UInt8)
    (hv : v = 0 ∨ v = 0xFF)
    (hdirectory : ∀ j < 4096, ram (L.bootPageDirectory + UInt32.ofNat j) = false ∧
      m.mem (L.bootPageDirectory + UInt32.ofNat j) = v) (hmagic : m.eax = MULTIBOOT2_MAGIC)
    (hpaging : m.control.cr0 &&& PG = 0) : bootEntry ram L m = .error .fault := by
  have hbytes : ∀ i < 1024, pde m.mem L.bootPageDirectory i = load32 (fun _ => v) 0 := by
    intro i hi
    unfold pde
    refine load32_eq_of_bytes fun j hj => ?_
    rw [entry_byte L hi hj]
    exact (hdirectory _ (by omega)).2
  obtain ⟨hin, hin'⟩ := L.enabled_mem
  dsimp only at hin hin'
  have hpa := sub_base_toNat L.enabled (by omega)
  have hpaged : (m.control.cr0 ||| 0x80010000) &&& PG ≠ 0 := or_and_ne_zero _ (by decide)
  have hpse : (m.control.cr4 ||| 0x10) &&& PSE ≠ 0 := or_and_ne_zero _ (by decide)
  have hentry : directoryEntry ⟨m.control.cr0 ||| 0x80010000, L.bootPageDirectory, m.control.cr4 ||| 0x10⟩ m.mem
      (L.enabled - BOOT_VIRT_BASE) = load32 (fun _ => v) 0 := by
    rw [directoryEntry_eq L.directory_aligned]
    exact hbytes _ (by omega)
  unfold bootEntry
  rw [if_neg (not_not_intro hmagic)]
  refine (bind_of_ok (enablePaging_eq ram L hpaging)).trans ?_
  rw [bootDirectory_lost (fun j hj => (hdirectory j hj).1)]
  refine bind_of_error (if_neg fun htranslate => ?_)
  obtain rfl | rfl := hv
  · rw [translate_absent hpaged (by rw [hentry]; rfl)] at htranslate
    cases htranslate
  · rw [translate_large hpaged hpse hentry (by decide) (by decide) (by decide)] at htranslate
    have hnat := congrArg UInt32.toNat (Option.some.inj htranslate)
    rw [large_address 1023 rfl] at hnat
    omega

/-- **Paging at boot** depends on the memory above 3 GB.  With memory at the label of the directory, taken for
a physical address, and with the image in memory, the constructors run with the first 8 MB mapped at 3 GB and
still at 0; all other entries are what that memory held before.  Without it, and the bus all zeros or all
ones there, the boot ends in a fault. -/
theorem bootEntry_translate (ram : UInt32 → Bool) (L : BootLayout) (m : BootMachine)
    (hmagic : m.eax = MULTIBOOT2_MAGIC) (hpaging : m.control.cr0 &&& PG = 0) :
    (DirectoryRam ram L → ImageRam ram → ∃ m', bootEntry ram L m = .ok m' ∧
      (∀ write va, va.toNat < 0x800000 → translate m'.control m'.mem write va = some va) ∧
      (∀ write va, 0xC0000000 ≤ va.toNat → va.toNat < 0xC0800000 →
        translate m'.control m'.mem write va = some (va - BOOT_VIRT_BASE)) ∧
      ∀ va : UInt32, 0x800000 ≤ va.toNat → ¬ (0xC0000000 ≤ va.toNat ∧ va.toNat < 0xC0800000) →
        directoryEntry m'.control m'.mem va = pde m.mem L.bootPageDirectory (va.toNat / 2 ^ 22)) ∧
    ∀ v : UInt8, v = 0 ∨ v = 0xFF →
      (∀ j < 4096, ram (L.bootPageDirectory + UInt32.ofNat j) = false ∧
        m.mem (L.bootPageDirectory + UInt32.ofNat j) = v) → bootEntry ram L m = .error .fault :=
  ⟨fun hdirectory himage => bootEntry_mapped ram L m hdirectory himage hmagic hpaging,
    fun v hv hdirectory => bootEntry_fault ram L m v hv hdirectory hmagic hpaging⟩

/-- With memory everywhere, and on a machine of 256 MB. -/
theorem bootEntry_translate_entered :
    (∃ m', bootEntry (fun _ => true) smallImage enteredMachine = .ok m' ∧
      translate m'.control m'.mem true 0 = some 0) ∧
    bootEntry (fun a => a < 0x10000000) smallImage enteredMachine = .error .fault := by
  obtain ⟨hmapped, _⟩ := bootEntry_translate (fun _ => true) smallImage enteredMachine rfl rfl
  obtain ⟨m', hrun, hlow, _⟩ := hmapped (fun _ _ => rfl) fun _ _ _ => rfl
  obtain ⟨_, hfault⟩ := bootEntry_translate (fun a => a < 0x10000000) smallImage enteredMachine rfl rfl
  refine ⟨⟨m', hrun, hlow true 0 (by decide)⟩, hfault 0 (.inl rfl) fun j hj => ⟨decide_eq_false ?_, rfl⟩⟩
  have hlabel : smallImage.bootPageDirectory.toNat = 0xC0103000 := rfl
  have hbound : (0x10000000 : UInt32).toNat = 0x10000000 := rfl
  rw [UInt32.lt_iff_toNat_lt, UInt32.toNat_add, UInt32.toNat_ofNat', hlabel, hbound]
  omega

/-! ### What `kmain` gets -/

theorem putWord_bss (himage : ImageRam ram) (mem : UInt32 → UInt8) (w : UInt32) {va : UInt32}
    (hlo : L.bssStart.toNat ≤ va.toNat) (hhi : va.toNat + 4 ≤ L.bssEnd.toNat) :
    putWord ram mem (va - BOOT_VIRT_BASE) w = store32 mem (va - BOOT_VIRT_BASE) w := by
  obtain ⟨hbssLo, hbssHi⟩ := L.bss_mem
  have hpa := sub_base_toNat va (by omega)
  refine putWord_of_ram fun j hj => himage _ ?_ ?_
  · rw [toNat_add_of_lt (by omega)]
    omega
  · rw [toNat_add_of_lt (by omega)]
    omega

theorem BootMapped.push (himage : ImageRam ram) {m : BootMachine}
    (h : BootMapped L.bootPageDirectory m.control m.mem) {top : UInt32} (htop : m.esp - 4 = top)
    (hlo : L.bssStart.toNat ≤ top.toNat) (hhi : top.toNat + 4 ≤ L.bssEnd.toNat) (w : UInt32) :
    m.push ram w = .ok { m with esp := top, mem := store32 m.mem (top - BOOT_VIRT_BASE) w } ∧
      BootMapped L.bootPageDirectory m.control (store32 m.mem (top - BOOT_VIRT_BASE) w) := by
  subst htop
  obtain ⟨hstore, hagree⟩ := BootMapped.storeBss ram { m with esp := m.esp - 4 } h _ hlo hhi w
  have hmapped := h.congr L.directory_le (BootLayout.outside_bssPhys hagree)
  dsimp only at hstore hmapped
  rw [putWord_bss himage _ _ hlo hhi] at hstore hmapped
  exact ⟨hstore, hmapped⟩

theorem stack_toNat (L : BootLayout) {k : UInt32} (hk : k.toNat ≤ 32768) :
    (L.stackTop - k).toNat = L.stackTop.toNat - k.toNat := by
  have hlt := L.stackTop.toNat_lt
  have hlo := L.bss_mem.1
  have hstack := L.stack_bss.1
  rw [UInt32.toNat_sub]
  omega

theorem ctorsLoop_done (ctor : UInt32 → BootMachine → Except BootStop BootMachine) (n : ℕ) {m : BootMachine}
    (h : L.ctorsEnd.toInt32 ≤ m.edi.toInt32) : ctorsLoop L ctor n m = .ok m := by
  cases n with
  | zero => rfl
  | succ n => exact if_pos h

/-- Without constructors nothing but the return address is left behind. -/
theorem runGlobalCtors_none (himage : ImageRam ram)
    (ctor : UInt32 → BootMachine → Except BootStop BootMachine) {m : BootMachine}
    (h : BootMapped L.bootPageDirectory m.control m.mem) (hesp : m.esp = L.stackTop)
    (hctors : L.ctorsStart = L.ctorsEnd) :
    ∃ mem, runGlobalCtors ram L ctor m = .ok { m with edi := L.ctorsStart, esp := L.stackTop, mem } ∧
      BootMapped L.bootPageDirectory m.control mem := by
  obtain ⟨hbssLo, hbssHi⟩ := L.bss_mem
  obtain ⟨hstackLo, hstackHi⟩ := L.stack_bss
  have htop : (L.stackTop - 4).toNat = L.stackTop.toNat - 4 := stack_toNat L (k := 4) (by decide)
  have hcallTop : m.esp - 4 = L.stackTop - 4 := by rw [hesp]
  obtain ⟨hcall, hmapped⟩ := h.push himage hcallTop (by omega) (by omega)
    L.afterCtors
  refine ⟨_, ?_, hmapped⟩
  unfold runGlobalCtors
  refine (bind_of_ok hcall).trans ?_
  refine (bind_of_ok (ctorsLoop_done ctor _ (by rw [hctors]; exact Int32.le_refl _))).trans ?_
  rw [UInt32.sub_add_cancel]

theorem kmainArguments_pushed (himage : ImageRam ram) {m : BootMachine}
    (h : BootMapped L.bootPageDirectory m.control m.mem) (hesp : m.esp = L.stackTop) :
    (do
      let m ← m.push ram m.ebx
      let m ← m.push ram m.eax
      match kmainArguments m with
      | none => .error BootStop.fault
      | some arguments => .ok arguments) = .ok (m.eax, m.ebx) := by
  obtain ⟨hbssLo, hbssHi⟩ := L.bss_mem
  obtain ⟨hstackLo, hstackHi⟩ := L.stack_bss
  have h4 : (L.stackTop - 4).toNat = L.stackTop.toNat - 4 := stack_toNat L (k := 4) (by decide)
  have h8 : (L.stackTop - 8).toNat = L.stackTop.toNat - 8 := stack_toNat L (k := 8) (by decide)
  have hp4 := sub_base_toNat (L.stackTop - 4) (by omega)
  have hp8 := sub_base_toNat (L.stackTop - 8) (by omega)
  have hfirst : m.esp - 4 = L.stackTop - 4 := by rw [hesp]
  have hsecond : L.stackTop - 4 - 4 = L.stackTop - 8 := by grind
  obtain ⟨hphys, hmapped⟩ := h.push himage hfirst (by omega) (by omega) m.ebx
  obtain ⟨hmagic, hmapped'⟩ := @BootMapped.push ram L himage
    { m with
      esp := L.stackTop - 4
      mem := store32 m.mem (L.stackTop - 4 - BOOT_VIRT_BASE) m.ebx } hmapped
    _ hsecond (by omega) (by omega) m.eax
  refine (bind_of_ok hphys).trans ((bind_of_ok hmagic).trans ?_)
  have hread₁ := hmapped'.translate_high false (L.stackTop - 8) (by omega) (by omega)
  have hread₂ := hmapped'.translate_high false (L.stackTop - 4) (by omega) (by omega)
  have hnext : L.stackTop - 8 + 4 = L.stackTop - 4 := by grind
  unfold kmainArguments
  dsimp only at hread₁ hread₂ ⊢
  rw [hnext, hread₁, hread₂]
  simp only [Option.bind_eq_bind, Option.bind_some]
  rw [load32_store32, load32_store32_of_apart (by omega) (by omega) (by omega), load32_store32]

/-- **`kmain` never gets the magic number**: when there are no constructors, the zero that cleared `.bss`
is still in EAX, and `kmain` panics after any boot that gets that far, that is, with memory at the label of
the directory and where the image is. -/
theorem kmain_rejects (ram : UInt32 → Bool) (L : BootLayout)
    (ctor : UInt32 → BootMachine → Except BootStop BootMachine) (m : BootMachine)
    (hdirectory : DirectoryRam ram L) (himage : ImageRam ram) (hmagic : m.eax = MULTIBOOT2_MAGIC)
    (hpaging : m.control.cr0 &&& PG = 0) (hctors : L.ctorsStart = L.ctorsEnd) :
    bootKernel ram L ctor m = .ok (0, m.ebx) ∧
      (kmainValidate 0).2 = some "Invalid multiboot2 magic" := by
  obtain ⟨m₁, hrun, hmapped, heax, hebx, hesp, _⟩ := bootEntry_spec hdirectory himage hmagic hpaging
  obtain ⟨mem, hctorsRun, hmapped'⟩ := runGlobalCtors_none himage ctor hmapped hesp hctors
  refine ⟨?_, rfl⟩
  unfold bootKernel
  refine (bind_of_ok hrun).trans ((bind_of_ok hctorsRun).trans ?_)
  have hpushed := kmainArguments_pushed himage (m := { m₁ with edi := L.ctorsStart, esp := L.stackTop, mem })
    hmapped' rfl
  rw [← hebx, ← heax]
  exact hpushed

theorem kmain_rejects_entered :
    bootKernel (fun _ => true) smallImage (fun _ m => .ok m) enteredMachine = .ok (0, 0x9500) ∧
      (kmainValidate 0).2 = some "Invalid multiboot2 magic" :=
  kmain_rejects _ _ _ _ (fun _ _ => rfl) (fun _ _ _ => rfl) rfl rfl rfl

end LunaOs
