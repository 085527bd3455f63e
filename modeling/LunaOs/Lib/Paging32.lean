import LunaOs.Lib.ByteMem

/-! # Paging of a 32-bit x86 processor

An address is translated through a directory of 1024 entries, each of them a page of 4 MB or a table of
1024 pages of 4 KB.  Not behind every physical address there is memory: what is stored elsewhere is lost,
and what is read there is up to the bus.  The marks that the processor sets in the entries it uses and
its translation buffer are left out. -/

namespace Paging32

open ByteMem

/-- The control registers that paging depends on. -/
structure Control where
  cr0 : UInt32
  cr3 : UInt32
  cr4 : UInt32
deriving DecidableEq

/-- Paging -/
def PG : UInt32 := 0x80000000

/-- Write protection for the supervisor -/
def WP : UInt32 := 0x00010000

/-- Pages of 4 MB -/
def PSE : UInt32 := 0x00000010

/-- Where entry `i` is of the directory or the table that `w` points to. -/
def entryAddress (w i : UInt32) : UInt32 := (w &&& 0xFFFFF000) + 4 * i

section
variable (c : Control) (mem : UInt32 → UInt8)

def directoryEntry (va : UInt32) : UInt32 := load32 mem (entryAddress c.cr3 (va >>> 22))

/-- The physical address that the supervisor reads or writes, or `none` for a page fault. -/
def translate (write : Bool) (va : UInt32) : Option UInt32 :=
  if c.cr0 &&& PG = 0 then some va
  else
    let pde := directoryEntry c mem va
    if pde &&& 1 = 0 then none
    else if pde &&& 0x80 ≠ 0 ∧ c.cr4 &&& PSE ≠ 0 then
      if write ∧ pde &&& 2 = 0 ∧ c.cr0 &&& WP ≠ 0 then none
      else some ((pde &&& 0xFFC00000) ||| (va &&& 0x3FFFFF))
    else
      let pte := load32 mem (entryAddress pde ((va >>> 12) &&& 0x3FF))
      if pte &&& 1 = 0 then none
      else if write ∧ (pde &&& 2 = 0 ∨ pte &&& 2 = 0) ∧ c.cr0 &&& WP ≠ 0 then none
      else some ((pte &&& 0xFFFFF000) ||| (va &&& 0xFFF))

end

/-- A byte stored at `a`, where `ram` tells what addresses have memory behind them. -/
def put (ram : UInt32 → Bool) (mem : UInt32 → UInt8) (a : UInt32) (v : UInt8) : UInt32 → UInt8 :=
  if ram a then Function.update mem a v else mem

/-- A store of a word, of which only the bytes in memory are kept. -/
def putWord (ram : UInt32 → Bool) (mem : UInt32 → UInt8) (a w : UInt32) : UInt32 → UInt8 :=
  fun b => if ram b then store32 mem a w b else mem b

variable {c : Control} {mem : UInt32 → UInt8} {ram : UInt32 → Bool} {a b w va : UInt32} {v : UInt8}

theorem put_of_ram (h : ram a = true) : put ram mem a v = Function.update mem a v := if_pos h

theorem putWord_of_ram (h : ∀ j < 4, ram (a + UInt32.ofNat j) = true) :
    putWord ram mem a w = store32 mem a w := by
  funext b
  unfold putWord
  split_ifs with hb
  · rfl
  · refine (if_neg fun hlt => hb ?_).symm
    have hj := h (b - a).toNat hlt
    rwa [UInt32.ofNat_toNat, UInt32.add_comm, UInt32.sub_add_cancel] at hj

theorem putWord_of_not_ram (h : ∀ j < 4, ram (a + UInt32.ofNat j) = false) :
    putWord ram mem a w = mem := by
  funext b
  unfold putWord
  split_ifs with hb
  · refine if_neg fun hlt => ?_
    have hj := h (b - a).toNat hlt
    rw [UInt32.ofNat_toNat, UInt32.add_comm, UInt32.sub_add_cancel, hb] at hj
    cases hj
  · rfl

theorem load32_store32_of_apart (ha : a.toNat + 4 ≤ 2 ^ 32) (hb : b.toNat + 4 ≤ 2 ^ 32)
    (h : b.toNat + 4 ≤ a.toNat ∨ a.toNat + 4 ≤ b.toNat) : load32 (store32 mem a w) b = load32 mem b :=
  (store32_agree mem w ha).load32_eq hb h

theorem translate_of_not_paging (h : c.cr0 &&& PG = 0) (write : Bool) : translate c mem write va = some va :=
  if_pos h

theorem translate_large (hpaging : c.cr0 &&& PG ≠ 0) (hpse : c.cr4 &&& PSE ≠ 0) {pde : UInt32}
    (hpde : directoryEntry c mem va = pde) (hpresent : pde &&& 1 ≠ 0) (hlarge : pde &&& 0x80 ≠ 0)
    (hwrite : pde &&& 2 ≠ 0) (write : Bool) :
    translate c mem write va = some ((pde &&& 0xFFC00000) ||| (va &&& 0x3FFFFF)) := by
  unfold translate
  rw [if_neg hpaging, hpde]
  dsimp only
  rw [if_neg hpresent, if_pos ⟨hlarge, hpse⟩, if_neg fun h => hwrite h.2.1]

/-- Without an entry there is no translation. -/
theorem translate_absent (hpaging : c.cr0 &&& PG ≠ 0) (hpde : directoryEntry c mem va &&& 1 = 0) (write : Bool) :
    translate c mem write va = none := by
  unfold translate
  rw [if_neg hpaging]
  exact if_pos hpde

/-- An address in page `k` of 4 MB. -/
theorem large_address (k : ℕ) {base : UInt32} (hbase : base.toNat = k * 2 ^ 22) :
    (base ||| (va &&& 0x3FFFFF)).toNat = k * 2 ^ 22 + va.toNat % 2 ^ 22 := by
  have hmask : (0x3FFFFF : UInt32).toNat = 2 ^ 22 - 1 := rfl
  rw [UInt32.toNat_or, UInt32.toNat_and, hmask, Nat.and_two_pow_sub_one_eq_mod, hbase, Nat.mul_comm k,
    ← Nat.two_pow_add_eq_or_of_lt (Nat.mod_lt _ (Nat.two_pow_pos 22))]

end Paging32
