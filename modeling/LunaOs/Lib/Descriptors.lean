import LunaOs.Lib.ByteMem
import LunaOs.Lib.Endian

/-! # Descriptor tables of the x86 in protected mode

How a 32-bit processor reads segment and gate descriptors from memory, and what it does with them when
it enters an interrupt through a gate: the checks, and in which order, with the fault of the first that
fails; then the code that is entered and the stack that is changed to.  A descriptor is its eight bytes,
and its fields are read as numbers.

There is no local descriptor table.  Task gates and 16-bit gates are not described. -/

namespace Descriptors

open ByteMem Endian

/-! ### Bytes in memory -/

/-- The bytes `bs` stand at `a`. -/
def Holds (mem : UInt32 → UInt8) (a : UInt32) (bs : List UInt8) : Prop :=
  ∀ j (h : j < bs.length), mem (a + UInt32.ofNat j) = bs[j]

section
variable {mem : UInt32 → UInt8} {a : UInt32} {bs cs : List UInt8}

theorem Holds.left (h : Holds mem a (bs ++ cs)) : Holds mem a bs := by
  intro j hj
  rw [h j (by rw [List.length_append]; omega), List.getElem_append_left hj]

theorem Holds.right (h : Holds mem a (bs ++ cs)) : Holds mem (a + UInt32.ofNat bs.length) cs := by
  intro j hj
  have hmem := h (bs.length + j) (by rw [List.length_append]; omega)
  rw [List.getElem_append_right (Nat.le_add_right _ _), UInt32.ofNat_add, ← UInt32.add_assoc] at hmem
  simpa using hmem

/-- A number in little-endian bytes. -/
theorem Holds.load32 {w : UInt32} (h : Holds mem a (leBytes 4 w.toNat)) : load32 mem a = w := by
  have hlen : (leBytes 4 w.toNat).length = 4 := rfl
  have hw := w.toNat_lt
  have h0 : mem a = UInt8.ofNat w.toNat := by
    have h0 := h 0 (by rw [hlen]; decide)
    rwa [show UInt32.ofNat 0 = 0 from rfl, UInt32.add_zero] at h0
  have h1 : mem (a + 1) = UInt8.ofNat (w.toNat / 256) := h 1 (by rw [hlen]; decide)
  have h2 : mem (a + 2) = UInt8.ofNat (w.toNat / 256 / 256) := h 2 (by rw [hlen]; decide)
  have h3 : mem (a + 3) = UInt8.ofNat (w.toNat / 256 / 256 / 256) := h 3 (by rw [hlen]; decide)
  unfold ByteMem.load32
  rw [h0, h1, h2, h3, ← UInt32.toNat_inj, UInt32.toNat_ofNat']
  simp only [UInt8.toNat_ofNat']
  omega

/-- The memory with `bs` put at `a`. -/
def place (mem : UInt32 → UInt8) (a : UInt32) (bs : List UInt8) : UInt32 → UInt8 :=
  fun b => if h : (b - a).toNat < bs.length then bs[(b - a).toNat] else mem b

theorem holds_place (mem : UInt32 → UInt8) (a : UInt32) (hlen : bs.length ≤ 2 ^ 32) :
    Holds (place mem a bs) a bs := by
  intro j hj
  have hdist : (a + UInt32.ofNat j - a).toNat = j := toNat_add_sub (by omega)
  unfold place
  rw [dif_pos (by omega)]
  simp only [hdist]

/-- What is put below `cs` leaves them. -/
theorem Holds.place (h : Holds mem a cs) {b : UInt32} {n : ℕ} (hb : b + UInt32.ofNat n = a)
    (hn : bs.length ≤ n) (hend : n + cs.length ≤ 2 ^ 32) : Holds (place mem b bs) a cs := by
  subst hb
  intro j hj
  have hdist : (b + UInt32.ofNat n + UInt32.ofNat j - b).toNat = n + j := by
    rw [UInt32.add_assoc, ← UInt32.ofNat_add]
    exact toNat_add_sub (by omega)
  unfold Descriptors.place
  rw [dif_neg (by omega)]
  exact h j hj

/-- Objects of `k` bytes each, one behind the other. -/
theorem Holds.flatMap {ι : Type*} {f : ι → List UInt8} {k : ℕ} (hlen : ∀ e, (f e).length = k) {es : List ι}
    (h : Holds mem a (es.flatMap f)) {i : ℕ} (hi : i < es.length) :
    Holds mem (a + UInt32.ofNat (k * i)) (f es[i]) := by
  induction es generalizing a i with
  | nil => exact absurd hi (Nat.not_lt_zero _)
  | cons e es ih =>
      rw [List.flatMap_cons] at h
      cases i with
      | zero => simpa using h.left
      | succ i =>
          have hrest := ih h.right (Nat.lt_of_succ_lt_succ hi)
          rw [hlen, UInt32.add_assoc, ← UInt32.ofNat_add] at hrest
          rw [Nat.mul_succ, Nat.add_comm]
          exact hrest

end

/-! ### Descriptors -/

/-- The eight bytes of an entry of a table. -/
abbrev Descriptor := Fin 8 → UInt8

/-- Entry `index` of the table at `base`. -/
def fetch (mem : UInt32 → UInt8) (base : UInt32) (index : ℕ) : Descriptor :=
  fun j => mem (base + UInt32.ofNat (8 * index + j))

theorem fetch_of_holds {mem : UInt32 → UInt8} {base : UInt32} {index : ℕ} {bs : List UInt8}
    (h : Holds mem (base + UInt32.ofNat (8 * index)) bs) (hlen : bs.length = 8) :
    fetch mem base index = fun j : Fin 8 => bs.get ⟨j, by omega⟩ := by
  funext j
  have hj := h j (by omega)
  rw [UInt32.add_assoc, ← UInt32.ofNat_add] at hj
  exact hj

namespace Descriptor

variable (d : Descriptor)

/-- The bytes are numerals. -/
local instance neZeroBytes : NeZero 8 := ⟨by decide⟩

/-! The fields that segments and gates have in common. -/

def present : Prop := (d 5).toNat / 128 = 1

def dpl : ℕ := (d 5).toNat / 32 % 4

/-- A segment of code or data, no system segment and no gate. -/
def isSegment : Prop := (d 5).toNat / 16 % 2 = 1

def type : ℕ := (d 5).toNat % 16

/-! Segments. -/

/-- The linear address at which the segment begins. -/
def base : ℕ := (d 2).toNat + 256 * (d 3).toNat + 65536 * (d 4).toNat + 16777216 * (d 7).toNat

/-- The 20 bits of the limit. -/
def rawLimit : ℕ := (d 0).toNat + 256 * (d 1).toNat + 65536 * ((d 6).toNat % 16)

/-- The upper half of byte 6: granularity, operand size and two bits more. -/
def flags : ℕ := (d 6).toNat / 16

/-- The last offset in the segment. -/
def limit : ℕ := if d.flags / 8 = 1 then 4096 * d.rawLimit + 4095 else d.rawLimit

def isCode : Prop := d.isSegment ∧ d.type / 8 = 1

/-- Code that keeps the privilege level of its caller. -/
def conforming : Prop := d.type / 4 % 2 = 1

/-- For code. -/
def isReadable : Prop := d.type / 2 % 2 = 1

def isWritableData : Prop := d.isSegment ∧ d.type / 8 = 0 ∧ d.type / 2 % 2 = 1

/-- A 32-bit task state segment that is available. -/
def isAvailableTss : Prop := ¬ d.isSegment ∧ d.type = 9

/-! Gates. -/

/-- Where the handler is. -/
def offset : ℕ := (d 0).toNat + 256 * (d 1).toNat + 65536 * (d 6).toNat + 16777216 * (d 7).toNat

def selector : ℕ := (d 2).toNat + 256 * (d 3).toNat

def isInterruptGate : Prop := ¬ d.isSegment ∧ d.type = 14

def isTrapGate : Prop := ¬ d.isSegment ∧ d.type = 15

instance : Decidable d.present := inferInstanceAs (Decidable (_ = _))
instance : Decidable d.isSegment := inferInstanceAs (Decidable (_ = _))
instance : Decidable d.isCode := inferInstanceAs (Decidable (_ ∧ _))
instance : Decidable d.conforming := inferInstanceAs (Decidable (_ = _))
instance : Decidable d.isReadable := inferInstanceAs (Decidable (_ = _))
instance : Decidable d.isWritableData := inferInstanceAs (Decidable (_ ∧ _))
instance : Decidable d.isAvailableTss := inferInstanceAs (Decidable (_ ∧ _))
instance : Decidable d.isInterruptGate := inferInstanceAs (Decidable (_ ∧ _))
instance : Decidable d.isTrapGate := inferInstanceAs (Decidable (_ ∧ _))

end Descriptor

/-! ### The processor -/

/-- Why an interrupt, a load of a segment register or an access to a port is refused. -/
inductive Fault where
  | invalidTss
  | notPresent
  | stackFault
  | generalProtection
deriving DecidableEq

/-- GDTR or IDTR. -/
structure TableRegister where
  base : UInt32
  limit : ℕ

/-- The hidden part of the task register. -/
structure TaskRegister where
  base : ℕ
  limit : ℕ

/-- Memory at linear addresses, and the registers that point to the tables. -/
structure Tables where
  mem : UInt32 → UInt8
  gdtr : TableRegister
  idtr : TableRegister
  tr : TaskRegister

def require (c : Prop) [Decidable c] (f : Fault) : Except Fault Unit :=
  if c then .ok () else .error f

@[simp] theorem require_of {c : Prop} [Decidable c] {f : Fault} (h : c) : require c f = .ok () := if_pos h

@[simp] theorem require_of_not {c : Prop} [Decidable c] {f : Fault} (h : ¬ c) : require c f = .error f :=
  if_neg h

theorem ok_bind {α β : Type} (a : α) (f : α → Except Fault β) : (.ok a >>= f : Except Fault β) = f a := rfl

theorem bind_eq_ok {α β : Type} {x : Except Fault α} {f : α → Except Fault β} {b : β} :
    x >>= f = .ok b ↔ ∃ a, x = .ok a ∧ f a = .ok b := by
  cases x with
  | error e => exact ⟨fun h => absurd h (by rintro ⟨⟩), fun ⟨_, h, _⟩ => absurd h (by rintro ⟨⟩)⟩
  | ok a => exact ⟨fun h => ⟨a, rfl, h⟩, fun ⟨_, h, hf⟩ => (Except.ok.inj h) ▸ hf⟩

theorem require_bind_eq_ok {α : Type} {c : Prop} [Decidable c] {f : Fault} {x : Except Fault α} {a : α} :
    (do require c f; x) = .ok a ↔ c ∧ x = .ok a := by
  by_cases h : c
  · rw [require_of h]
    exact ⟨fun hx => ⟨h, hx⟩, fun hx => hx.2⟩
  · rw [require_of_not h]
    exact ⟨fun hx => absurd hx (by rintro ⟨⟩), fun hx => absurd hx.1 h⟩

theorem error_bind {α β : Type} (e : Fault) (f : α → Except Fault β) :
    (.error e >>= f : Except Fault β) = .error e := rfl

/-- The descriptor of a selector that is not null and whose index is in the table. -/
def descriptorOf (mem : UInt32 → UInt8) (gdtr : TableRegister) (selector : ℕ) (f : Fault) :
    Except Fault Descriptor := do
  require (4 ≤ selector ∧ selector / 4 % 2 = 0 ∧ 8 * (selector / 8) + 7 ≤ gdtr.limit) f
  .ok (fetch mem gdtr.base (selector / 8))

/-- `ltr`: the task register with what is in the descriptor of a task state segment.  The busy bit that the
processor sets in that descriptor is not modelled: no other load of the task register follows. -/
def ltr (mem : UInt32 → UInt8) (gdtr : TableRegister) (selector : ℕ) : Except Fault TaskRegister := do
  let d ← descriptorOf mem gdtr selector .generalProtection
  require d.isAvailableTss .generalProtection
  require d.present .notPresent
  .ok ⟨d.base, d.limit⟩

/-- A selector that is not null in a data segment register other than SS, at privilege level `cpl`. -/
def loadData (mem : UInt32 → UInt8) (gdtr : TableRegister) (cpl selector : ℕ) :
    Except Fault Descriptor := do
  let d ← descriptorOf mem gdtr selector .generalProtection
  require (d.isSegment ∧ (d.isCode → d.isReadable)) .generalProtection
  require (d.isCode ∧ d.conforming ∨ max cpl (selector % 4) ≤ d.dpl) .generalProtection
  require d.present .notPresent
  .ok d

theorem descriptorOf_eq_ok {mem : UInt32 → UInt8} {gdtr : TableRegister} {selector : ℕ} {f : Fault}
    {d : Descriptor} : descriptorOf mem gdtr selector f = .ok d ↔
      (4 ≤ selector ∧ selector / 4 % 2 = 0 ∧ 8 * (selector / 8) + 7 ≤ gdtr.limit) ∧
        fetch mem gdtr.base (selector / 8) = d := by
  unfold descriptorOf
  rw [require_bind_eq_ok, Except.ok.injEq]

/-- SS for privilege level `cpl`, with the fault for a segment that does not fit. -/
def loadStack (mem : UInt32 → UInt8) (gdtr : TableRegister) (cpl selector : ℕ) (f : Fault) :
    Except Fault Descriptor := do
  let d ← descriptorOf mem gdtr selector f
  require (selector % 4 = cpl ∧ d.dpl = cpl ∧ d.isWritableData) f
  require d.present .stackFault
  .ok d

/-- The code segment that a far jump at privilege level `cpl` or an `iret` to it enters. -/
def loadCode (mem : UInt32 → UInt8) (gdtr : TableRegister) (cpl selector : ℕ) :
    Except Fault Descriptor := do
  let d ← descriptorOf mem gdtr selector .generalProtection
  require (d.isCode ∧ ¬ d.conforming ∧ selector % 4 = cpl ∧ d.dpl = cpl) .generalProtection
  require d.present .notPresent
  .ok d

section
variable {mem : UInt32 → UInt8} {gdtr : TableRegister} {cpl selector : ℕ} {d : Descriptor}

theorem loadData_eq_ok : loadData mem gdtr cpl selector = .ok d ↔
    descriptorOf mem gdtr selector .generalProtection = .ok d ∧ (d.isSegment ∧ (d.isCode → d.isReadable)) ∧
      (d.isCode ∧ d.conforming ∨ max cpl (selector % 4) ≤ d.dpl) ∧ d.present := by
  unfold loadData
  rw [bind_eq_ok]
  simp only [require_bind_eq_ok, Except.ok.injEq]
  exact ⟨fun ⟨_, hd, hseg, hpriv, hpresent, heq⟩ => heq ▸ ⟨hd, hseg, hpriv, hpresent⟩,
    fun ⟨hd, hseg, hpriv, hpresent⟩ => ⟨d, hd, hseg, hpriv, hpresent, rfl⟩⟩

theorem loadStack_eq_ok {f : Fault} : loadStack mem gdtr cpl selector f = .ok d ↔
    descriptorOf mem gdtr selector f = .ok d ∧ (selector % 4 = cpl ∧ d.dpl = cpl ∧ d.isWritableData) ∧
      d.present := by
  unfold loadStack
  rw [bind_eq_ok]
  simp only [require_bind_eq_ok, Except.ok.injEq]
  exact ⟨fun ⟨_, hd, htests, hpresent, heq⟩ => heq ▸ ⟨hd, htests, hpresent⟩,
    fun ⟨hd, htests, hpresent⟩ => ⟨d, hd, htests, hpresent, rfl⟩⟩

theorem loadCode_eq_ok : loadCode mem gdtr cpl selector = .ok d ↔
    descriptorOf mem gdtr selector .generalProtection = .ok d ∧
      (d.isCode ∧ ¬ d.conforming ∧ selector % 4 = cpl ∧ d.dpl = cpl) ∧ d.present := by
  unfold loadCode
  rw [bind_eq_ok]
  simp only [require_bind_eq_ok, Except.ok.injEq]
  exact ⟨fun ⟨_, hd, htests, hpresent, heq⟩ => heq ▸ ⟨hd, htests, hpresent⟩,
    fun ⟨hd, htests, hpresent⟩ => ⟨d, hd, htests, hpresent, rfl⟩⟩

end

/-- What is entered: the linear address of the code, CS, SS and ESP if the stack is changed, and whether
interrupts are disabled. -/
structure Entry where
  handler : ℕ
  cs : ℕ
  stack : Option (ℕ × UInt32)
  disables : Bool
deriving DecidableEq

/-- SS and ESP for privilege level `cpl`, from the task state segment. -/
def innerStack (t : Tables) (cpl : ℕ) : Except Fault (ℕ × UInt32) := do
  require (8 * cpl + 9 ≤ t.tr.limit) .invalidTss
  let ss := (load32 t.mem (UInt32.ofNat (t.tr.base + (8 * cpl + 8)))).toNat % 65536
  let _ ← loadStack t.mem t.gdtr cpl ss .invalidTss
  .ok (ss, load32 t.mem (UInt32.ofNat (t.tr.base + (8 * cpl + 4))))

/-- The gate of the interrupt `vector` at privilege level `cpl`, raised by an instruction of the program
or not. -/
def gateOf (t : Tables) (software : Bool) (cpl vector : ℕ) : Except Fault Descriptor := do
  require (8 * vector + 7 ≤ t.idtr.limit) .generalProtection
  let g := fetch t.mem t.idtr.base vector
  require (g.isInterruptGate ∨ g.isTrapGate) .generalProtection
  require (software = true → cpl ≤ g.dpl) .generalProtection
  require g.present .notPresent
  .ok g

/-- What is entered through a gate. -/
def enterGate (t : Tables) (cpl : ℕ) (g : Descriptor) : Except Fault Entry := do
  let d ← descriptorOf t.mem t.gdtr g.selector .generalProtection
  require (d.isCode ∧ d.dpl ≤ cpl) .generalProtection
  require d.present .notPresent
  if d.conforming ∨ d.dpl = cpl then
    require (g.offset ≤ d.limit) .generalProtection
    .ok ⟨(d.base + g.offset) % 4294967296, g.selector / 4 * 4 + cpl, none, g.isInterruptGate⟩
  else
    let stack ← innerStack t d.dpl
    require (g.offset ≤ d.limit) .generalProtection
    .ok ⟨(d.base + g.offset) % 4294967296, g.selector / 4 * 4 + d.dpl, some stack, g.isInterruptGate⟩

/-- An interrupt with the tables in memory: the gate, its privilege, the code segment and the stack. -/
def enter (t : Tables) (software : Bool) (cpl vector : ℕ) : Except Fault Entry := do
  let g ← gateOf t software cpl vector
  enterGate t cpl g

/-- Whether a program at privilege level `cpl` may access `size` bytes of ports from `port` on, with the
I/O privilege level `iopl`: the bits of the map behind the task state segment decide otherwise. -/
def mayAccessPort (t : Tables) (cpl iopl port size : ℕ) : Prop :=
  cpl ≤ iopl ∨
    (103 ≤ t.tr.limit ∧
      let map := (load32 t.mem (UInt32.ofNat (t.tr.base + 100))).toNat / 65536
      map + port / 8 + 1 ≤ t.tr.limit ∧
        ∀ p, port ≤ p → p < port + size →
          (t.mem (UInt32.ofNat (t.tr.base + (map + p / 8)))).toNat / 2 ^ (p % 8) % 2 = 0)

end Descriptors
