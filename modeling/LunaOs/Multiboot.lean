import LunaOs.Lib.Bitmap
import LunaOs.Lib.Loop
import LunaOs.Memory
import LunaOs.PmmInit
import LunaOs.Vmm

/-! # The boot information of `kernel/main.c`

The boot loader leaves a block of tags in memory; `parse_multiboot2` walks them from the first behind
the header to the end tag, takes over the framebuffer and copies the memory map into an array of 64
entries.  Each tag says where the next one starts, and nothing is compared with the size in the
header of the block: the walk is a loop that need not end (`Lib/Loop`), and a memory-map tag with an
entry size of zero is a division fault.

The parser writes only its own variables, which lie outside the block, so that the memory is fixed
during the walk.  Next to the variables the walk carries the addresses it has read, in order.  The
array of entries with its counter is a list.  The macro for the next tag masks a pointer, which is
read as masking its address. -/

namespace LunaOs

open ByteMem

def MB2_TAG_END : UInt32 := 0

def MB2_TAG_MMAP : UInt32 := 6

def MB2_TAG_FRAMEBUFFER : UInt32 := 8

def MAX_MMAP_ENTRIES : ℕ := 64

/-- The static variables of `main.c` that the parser fills. -/
structure BootInfo where
  fbAddr : UInt32
  fbPitch : UInt32
  fbWidth : UInt32
  fbHeight : UInt32
  fbBpp : UInt8
  mmapEntries : List MmapEntry
  memTotal : UInt64

namespace BootInfo

def statics : BootInfo := ⟨0, 0, 0, 0, 0, [], 0⟩

def mmapCount (b : BootInfo) : ℕ := b.mmapEntries.length

/-- `mmap_entries[mmap_count++] = e; if (e.type == MB2_MMAP_AVAILABLE) mem_total += e.length;` -/
def addEntry (b : BootInfo) (e : MmapEntry) : BootInfo :=
  { b with
    mmapEntries := b.mmapEntries ++ [e]
    memTotal := if e.type = MB2_MMAP_AVAILABLE then b.memTotal + e.length else b.memTotal }

end BootInfo

/-- The `#DE` exception. -/
inductive BootFault where
  | divideError
deriving DecidableEq

/-- The walk when it stands at `tag`. -/
structure Mb2Walk where
  tag : UInt32
  boot : BootInfo
  reads : List UInt32

def Mb2Walk.reading (s : Mb2Walk) (a : UInt32) (n : ℕ) : Mb2Walk :=
  { s with reads := s.reads ++ addrs a n }

@[simp] theorem Mb2Walk.reading_tag (s : Mb2Walk) (a : UInt32) (n : ℕ) :
    (s.reading a n).tag = s.tag := rfl

/-- `MB2_FIRST_TAG` -/
def mb2FirstTag (info : UInt32) : UInt32 := info + 8

section
variable (mem : UInt32 → UInt8)

/-- `tag->size` -/
def tagSize (tag : UInt32) : UInt32 := load32 mem (tag + 4)

/-- `mmap->entry_size` -/
def entrySize (tag : UInt32) : UInt32 := load32 mem (tag + 8)

/-- `MB2_NEXT_TAG` -/
def mb2NextTag (tag : UInt32) : UInt32 := (tag + tagSize mem tag + 7) &&& ~~~7

/-- An entry as its fields are laid out. -/
def mmapEntryAt (a : UInt32) : MmapEntry := ⟨load64 mem a, load64 mem (a + 8), load32 mem (a + 16)⟩

/-- `(mmap->size - sizeof(MB2_TagMmap)) / mmap->entry_size` -/
def mmapNum (tag : UInt32) : UInt32 := (tagSize mem tag - 16) / entrySize mem tag

/-- The loop over the entries at `i` with at most `r` turns left; `entry` is a pointer to records of 24
bytes. -/
def mmapLoop (entry num : UInt32) : ℕ → ℕ → Mb2Walk → Mb2Walk
  | 0, _, s => s
  | r + 1, i, s =>
      if i < num.toNat ∧ s.boot.mmapCount < MAX_MMAP_ENTRIES then
        let a := entry + UInt32.ofNat (24 * i)
        mmapLoop entry num r (i + 1)
          { s.reading a 24 with boot := s.boot.addEntry (mmapEntryAt mem a) }
      else s

/-- The memory map.  `entry_size` says how many entries there are, and not how far apart they are. -/
def parseMmapTag (s : Mb2Walk) : Except BootFault Mb2Walk :=
  let s := (s.reading (s.tag + 4) 4).reading (s.tag + 8) 4
  if entrySize mem s.tag = 0 then .error .divideError
  else .ok (mmapLoop mem (s.tag + 16) (mmapNum mem s.tag) MAX_MMAP_ENTRIES 0 s)

/-- The fields `framebuffer_addr` to `framebuffer_bpp`. -/
def parseFramebufferTag (s : Mb2Walk) : Mb2Walk :=
  { s.reading (s.tag + 8) 21 with
    boot := { s.boot with
      fbAddr := (load64 mem (s.tag + 8)).toUInt32
      fbPitch := load32 mem (s.tag + 16)
      fbWidth := load32 mem (s.tag + 20)
      fbHeight := load32 mem (s.tag + 24)
      fbBpp := mem (s.tag + 28) } }

/-- `switch (tag->type)` -/
def parseTag (s : Mb2Walk) : Except BootFault Mb2Walk :=
  if load32 mem s.tag = MB2_TAG_FRAMEBUFFER then .ok (parseFramebufferTag mem s)
  else if load32 mem s.tag = MB2_TAG_MMAP then parseMmapTag mem s
  else .ok s

/-- One turn of the walk: the loop is left at the end tag, or by a fault. -/
def tagTurn (s : Mb2Walk) : Except BootFault Mb2Walk ⊕ Mb2Walk :=
  if load32 mem s.tag = MB2_TAG_END then .inl (.ok (s.reading s.tag 4))
  else
    match parseTag mem (s.reading s.tag 4) with
    | .error e => .inl (.error e)
    | .ok s => .inr { s.reading (s.tag + 4) 4 with tag := mb2NextTag mem s.tag }

/-- `parse_multiboot2`, if it is left within `turns` turns. -/
def parseMultiboot2 (mb2PhysAddr : UInt32) (turns : ℕ) : Option (Except BootFault Mb2Walk) :=
  Loop.turns (tagTurn mem) turns ⟨mb2FirstTag (mb2PhysAddr + KERNEL_VIRT_BASE), .statics, []⟩

end

/-! ### The memory map as the tags describe it -/

section
variable (mem : UInt32 → UInt8)

/-- The entries of a memory-map tag, `stride` bytes apart. -/
def recordsAt (stride : ℕ) (tag : UInt32) : List MmapEntry :=
  if load32 mem tag = MB2_TAG_MMAP then
    (List.range (mmapNum mem tag).toNat).map fun i =>
      mmapEntryAt mem (tag + 16 + UInt32.ofNat (stride * i))
  else []

/-- The entries of a memory-map tag, which gives their distance itself. -/
def tagEntries (tag : UInt32) : List MmapEntry := recordsAt mem (entrySize mem tag).toNat tag

/-- From `t` on the tags of the list follow each other up to an end tag, all before `limit`. -/
inductive TagChain (limit : ℕ) : UInt32 → List UInt32 → Prop where
  | last {t : UInt32} (htype : load32 mem t = MB2_TAG_END) (hin : t.toNat + 8 ≤ limit) :
      TagChain limit t []
  | tag {t : UInt32} (next : UInt32) {l : List UInt32} (htype : load32 mem t ≠ MB2_TAG_END)
      (hsize : 8 ≤ (tagSize mem t).toNat) (hin : t.toNat + (tagSize mem t).toNat ≤ limit)
      (hnext : next.toNat = (t.toNat + (tagSize mem t).toNat + 7) / 8 * 8)
      (hrest : TagChain limit next l) : TagChain limit t (t :: l)

/-- A block at `info` whose header and tags lie within its total size; the tags the parser looks into
are as long as what they hold. -/
structure WellFormedBlock (info : UInt32) (tags : List UInt32) : Prop where
  header : 16 ≤ (load32 mem info).toNat
  fits : info.toNat + (load32 mem info).toNat ≤ 2 ^ 32
  chain : TagChain mem (info.toNat + (load32 mem info).toNat) (mb2FirstTag info) tags
  framebuffer : ∀ t ∈ tags, load32 mem t = MB2_TAG_FRAMEBUFFER → 29 ≤ (tagSize mem t).toNat
  mmap : ∀ t ∈ tags, load32 mem t = MB2_TAG_MMAP →
    16 ≤ (tagSize mem t).toNat ∧ 24 ≤ (entrySize mem t).toNat

end

/-- The lengths of the available entries, added up. -/
def availableLength (l : List MmapEntry) : ℕ :=
  ((l.filter fun e => e.type = MB2_MMAP_AVAILABLE).map fun e => e.length.toNat).sum

/-! ### One tag -/

namespace Mb2Walk

/-- Every address `s'` has read beyond those of `s` lies from `lo` to `hi`. -/
def ReadsWithin (lo hi : ℕ) (s s' : Mb2Walk) : Prop :=
  ∀ a ∈ s'.reads, a ∈ s.reads ∨ lo ≤ a.toNat ∧ a.toNat < hi

variable {lo hi : ℕ} {s s' s'' : Mb2Walk}

theorem ReadsWithin.refl (lo hi : ℕ) (s : Mb2Walk) : ReadsWithin lo hi s s := fun _ ha => .inl ha

theorem ReadsWithin.trans (h : ReadsWithin lo hi s s') (h' : ReadsWithin lo hi s' s'') :
    ReadsWithin lo hi s s'' := by
  intro a ha
  rcases h' a ha with hs | hnew
  · exact h a hs
  · exact .inr hnew

theorem ReadsWithin.mono {lo' : ℕ} (h : ReadsWithin lo hi s s') (hle : lo' ≤ lo) :
    ReadsWithin lo' hi s s' :=
  fun a ha => (h a ha).imp_right fun hnew => ⟨hle.trans hnew.1, hnew.2⟩

/-- Reading `n` bytes inside the range. -/
theorem readsWithin_reading (s : Mb2Walk) (lo : ℕ) (a : UInt32) (n : ℕ) (hlo : lo ≤ a.toNat)
    (hhi : a.toNat + n ≤ hi) (htop : hi ≤ 2 ^ 32) : ReadsWithin lo hi s (s.reading a n) := by
  intro b hb
  rcases List.mem_append.mp hb with hold | hnew
  · exact .inl hold
  · right
    rw [mem_addrs_range (by omega)] at hnew
    omega

end Mb2Walk

/-- The total is that of the entries, and there are no more than the array holds. -/
structure BootInfo.Totalled (b : BootInfo) : Prop where
  memTotal : b.memTotal.toNat = availableLength b.mmapEntries % 2 ^ 64
  count : b.mmapCount ≤ MAX_MMAP_ENTRIES

theorem availableLength_append (l : List MmapEntry) (e : MmapEntry) :
    availableLength (l ++ [e]) =
      availableLength l + if e.type = MB2_MMAP_AVAILABLE then e.length.toNat else 0 := by
  unfold availableLength
  by_cases htype : e.type = MB2_MMAP_AVAILABLE <;> simp [htype]

theorem BootInfo.Totalled.addEntry {b : BootInfo} (h : b.Totalled)
    (hroom : b.mmapCount < MAX_MMAP_ENTRIES) (e : MmapEntry) : (b.addEntry e).Totalled where
  memTotal := by
    have hold := h.memTotal
    simp only [BootInfo.addEntry, availableLength_append]
    split_ifs
    · rw [UInt64.toNat_add]
      omega
    · rw [hold, Nat.add_zero]
  count := by
    unfold BootInfo.addEntry BootInfo.mmapCount
    rw [List.length_append]
    exact hroom

variable {mem : UInt32 → UInt8}

/-- The loop over the entries appends them until the array is full. -/
theorem mmapLoop_boot (entry num : UInt32) {r i : ℕ} {s : Mb2Walk} (hs : s.boot.Totalled)
    (hr : MAX_MMAP_ENTRIES ≤ s.boot.mmapCount + r) :
    (mmapLoop mem entry num r i s).boot.Totalled ∧
    (mmapLoop mem entry num r i s).boot.mmapEntries =
      (s.boot.mmapEntries ++ (List.range' i (num.toNat - i)).map fun j =>
        mmapEntryAt mem (entry + UInt32.ofNat (24 * j))).take MAX_MMAP_ENTRIES := by
  have hcount := hs.count
  have hfull : MAX_MMAP_ENTRIES ≤ s.boot.mmapCount → ∀ l : List MmapEntry,
      s.boot.mmapEntries = (s.boot.mmapEntries ++ l).take MAX_MMAP_ENTRIES := by
    intro hge l
    exact (List.take_left' (Nat.le_antisymm hcount hge)).symm
  induction r generalizing i s with
  | zero => exact ⟨hs, hfull hr _⟩
  | succ r ih =>
      unfold mmapLoop
      dsimp only
      split_ifs with hturn
      · obtain ⟨hi, hroom⟩ := hturn
        set e := mmapEntryAt mem (entry + UInt32.ofNat (24 * i)) with he
        have hnext := hs.addEntry hroom e
        have hlength : (s.boot.addEntry e).mmapCount = s.boot.mmapCount + 1 := by
          unfold BootInfo.mmapCount BootInfo.addEntry
          rw [List.length_append]
          rfl
        obtain ⟨htotal, hentries⟩ := ih (i := i + 1)
          (s := { s.reading (entry + UInt32.ofNat (24 * i)) 24 with boot := s.boot.addEntry e })
          hnext (by dsimp only; omega) hnext.count
          fun hge l => (List.take_left' (Nat.le_antisymm hnext.count hge)).symm
        refine ⟨htotal, hentries.trans ?_⟩
        rw [show num.toNat - i = (num.toNat - (i + 1)) + 1 by omega, List.range'_succ,
          List.map_cons, List.append_cons]
        rfl
      · refine ⟨hs, ?_⟩
        rcases Nat.lt_or_ge i num.toNat with hi | hi
        · exact hfull (Nat.not_lt.mp fun hroom => hturn ⟨hi, hroom⟩) _
        · rw [Nat.sub_eq_zero_of_le hi, List.range'_zero, List.map_nil, List.append_nil]
          exact (List.take_of_length_le hcount).symm

theorem mmapLoop_tag {entry num : UInt32} {r i : ℕ} {s : Mb2Walk} :
    (mmapLoop mem entry num r i s).tag = s.tag := by
  induction r generalizing i s with
  | zero => rfl
  | succ r ih =>
      unfold mmapLoop
      dsimp only
      split_ifs
      · exact ih
      · rfl

theorem mmapLoop_reads {entry num : UInt32} {lo hi r i : ℕ} {s : Mb2Walk}
    (hentries : 0 < num.toNat → lo ≤ entry.toNat ∧ entry.toNat + 24 * num.toNat ≤ hi)
    (htop : hi ≤ 2 ^ 32) : s.ReadsWithin lo hi (mmapLoop mem entry num r i s) := by
  induction r generalizing i s with
  | zero => exact Mb2Walk.ReadsWithin.refl lo hi s
  | succ r ih =>
      unfold mmapLoop
      dsimp only
      split_ifs with hturn
      · obtain ⟨hlo, hhi⟩ := hentries (by omega)
        have haddr : (entry + UInt32.ofNat (24 * i)).toNat = entry.toNat + 24 * i :=
          toNat_add_of_lt (by omega)
        have hread := Mb2Walk.readsWithin_reading s lo
          (entry + UInt32.ofNat (24 * i)) 24 (by omega) (by omega) htop
        exact Mb2Walk.ReadsWithin.trans hread ih
      · exact Mb2Walk.ReadsWithin.refl lo hi s

theorem mmapNum_le {tag : UInt32} (hsize : 16 ≤ (tagSize mem tag).toNat) :
    (entrySize mem tag).toNat * (mmapNum mem tag).toNat + 16 ≤ (tagSize mem tag).toNat := by
  have hsub : (tagSize mem tag - 16).toNat = (tagSize mem tag).toNat - 16 :=
    UInt32.toNat_sub_of_le _ _ (UInt32.le_iff_toNat_le.mpr hsize)
  have hle := Nat.mul_div_le ((tagSize mem tag).toNat - 16) (entrySize mem tag).toNat
  unfold mmapNum
  rw [UInt32.toNat_div, hsub]
  omega

theorem parseMmapTag_ok {s : Mb2Walk} {limit : ℕ}
    (hin : s.tag.toNat + (tagSize mem s.tag).toNat ≤ limit) (htop : limit ≤ 2 ^ 32)
    (hsize : 16 ≤ (tagSize mem s.tag).toNat) (hentry : 24 ≤ (entrySize mem s.tag).toNat)
    (hs : s.boot.Totalled) :
    ∃ s', parseMmapTag mem s = .ok s' ∧ s'.tag = s.tag ∧ s.ReadsWithin s.tag.toNat limit s' ∧
      s'.boot.Totalled ∧
      s'.boot.mmapEntries =
        (s.boot.mmapEntries ++ (List.range (mmapNum mem s.tag).toNat).map fun i =>
          mmapEntryAt mem (s.tag + 16 + UInt32.ofNat (24 * i))).take MAX_MMAP_ENTRIES := by
  have hnum := mmapNum_le hsize
  have hrecords : 24 * (mmapNum mem s.tag).toNat ≤
      (entrySize mem s.tag).toNat * (mmapNum mem s.tag).toNat := Nat.mul_le_mul_right _ hentry
  have haddr4 : (s.tag + 4).toNat = s.tag.toNat + 4 := toNat_add_of_lt (j := 4) (by omega)
  have haddr8 : (s.tag + 8).toNat = s.tag.toNat + 8 := toNat_add_of_lt (j := 8) (by omega)
  have hwithin : 0 < (mmapNum mem s.tag).toNat → s.tag.toNat ≤ (s.tag + 16).toNat ∧
      (s.tag + 16).toNat + 24 * (mmapNum mem s.tag).toNat ≤ limit := by
    intro hpos
    have haddr16 : (s.tag + 16).toNat = s.tag.toNat + 16 := toNat_add_of_lt (j := 16) (by omega)
    omega
  have hne : entrySize mem s.tag ≠ 0 := by
    intro hzero
    rw [hzero] at hentry
    exact absurd hentry (by decide)
  have hboot : ((s.reading (s.tag + 4) 4).reading (s.tag + 8) 4).boot.Totalled := hs
  obtain ⟨htotal, hentries⟩ := mmapLoop_boot (s.tag + 16) (mmapNum mem s.tag) (i := 0) hboot
    (Nat.le_add_left MAX_MMAP_ENTRIES _)
  refine ⟨_, if_neg hne, mmapLoop_tag, ?_, htotal, ?_⟩
  · have h4 := Mb2Walk.readsWithin_reading s s.tag.toNat (s.tag + 4) 4
      (by omega) (by omega) htop
    have h8 := Mb2Walk.readsWithin_reading (s.reading (s.tag + 4) 4) s.tag.toNat
      (s.tag + 8) 4 (by omega) (by omega) htop
    exact (h4.trans h8).trans (mmapLoop_reads hwithin htop)
  · rw [List.range_eq_range']
    exact hentries

/-- What the `switch` does at a tag of a well-formed block: it stays at the tag, reads inside it and
appends the records of the tag that fit. -/
theorem parseTag_ok {s : Mb2Walk} {limit : ℕ} (hin : s.tag.toNat + (tagSize mem s.tag).toNat ≤ limit)
    (htop : limit ≤ 2 ^ 32)
    (hfb : load32 mem s.tag = MB2_TAG_FRAMEBUFFER → 29 ≤ (tagSize mem s.tag).toNat)
    (hmmap : load32 mem s.tag = MB2_TAG_MMAP →
      16 ≤ (tagSize mem s.tag).toNat ∧ 24 ≤ (entrySize mem s.tag).toNat)
    (hs : s.boot.Totalled) :
    ∃ s', parseTag mem s = .ok s' ∧ s'.tag = s.tag ∧ s.ReadsWithin s.tag.toNat limit s' ∧
      s'.boot.Totalled ∧
      s'.boot.mmapEntries =
        (s.boot.mmapEntries ++ recordsAt mem 24 s.tag).take MAX_MMAP_ENTRIES := by
  have hnothing : s.boot.mmapEntries = s.boot.mmapEntries.take MAX_MMAP_ENTRIES :=
    (List.take_of_length_le hs.count).symm
  unfold parseTag recordsAt
  by_cases htypeFb : load32 mem s.tag = MB2_TAG_FRAMEBUFFER
  · have hother : MB2_TAG_FRAMEBUFFER ≠ MB2_TAG_MMAP := by decide
    have hlong := hfb htypeFb
    have haddr : (s.tag + 8).toNat = s.tag.toNat + 8 := toNat_add_of_lt (j := 8) (by omega)
    have hread := Mb2Walk.readsWithin_reading s s.tag.toNat (s.tag + 8) 21
      (by omega) (by omega) htop
    rw [htypeFb, if_pos rfl, if_neg hother, List.append_nil]
    exact ⟨_, rfl, rfl, hread, ⟨hs.memTotal, hs.count⟩, hnothing⟩
  · rw [if_neg htypeFb]
    by_cases htype : load32 mem s.tag = MB2_TAG_MMAP
    · obtain ⟨hsize, hentry⟩ := hmmap htype
      rw [if_pos htype, if_pos htype]
      exact parseMmapTag_ok hin htop hsize hentry hs
    · rw [if_neg htype, if_neg htype, List.append_nil]
      exact ⟨s, rfl, rfl, Mb2Walk.ReadsWithin.refl _ _ s, hs, hnothing⟩

/-! ### The walk over a well-formed block -/

theorem mb2NextTag_eq {tag next : UInt32}
    (hnext : next.toNat = (tag.toNat + (tagSize mem tag).toNat + 7) / 8 * 8) :
    mb2NextTag mem tag = next := by
  have hmask : ∀ j < 32, (~~~7#32).getLsbD j = decide (3 ≤ j) := by decide
  have hround : (mb2NextTag mem tag).toNat = (tag + tagSize mem tag + 7).toNat / 8 * 8 :=
    Bitmap.toNat_and_highMask (x := (tag + tagSize mem tag + 7).toBitVec) hmask
  have hlt := next.toNat_lt
  have hseven : (7 : UInt32).toNat = 7 := rfl
  rw [← UInt32.toNat_inj, hround, hnext, UInt32.toNat_add, UInt32.toNat_add, hseven]
  omega

theorem take_take_append {α : Type} (n : ℕ) (l l' : List α) :
    (l.take n ++ l').take n = (l ++ l').take n := by
  have hrest : n - min n l.length = n - l.length := by omega
  rw [List.take_append, List.take_append, List.take_take, Nat.min_self, List.length_take, hrest]

theorem tagTurn_end {s : Mb2Walk} (hend : load32 mem s.tag = MB2_TAG_END) :
    tagTurn mem s = .inl (.ok (s.reading s.tag 4)) := if_pos hend

theorem tagTurns_chain {limit : ℕ} (htop : limit ≤ 2 ^ 32) {t : UInt32} {tags : List UInt32}
    (hchain : TagChain mem limit t tags)
    (hfb : ∀ t ∈ tags, load32 mem t = MB2_TAG_FRAMEBUFFER → 29 ≤ (tagSize mem t).toNat)
    (hmmap : ∀ t ∈ tags, load32 mem t = MB2_TAG_MMAP →
      16 ≤ (tagSize mem t).toNat ∧ 24 ≤ (entrySize mem t).toNat)
    {s : Mb2Walk} (htag : s.tag = t) (hs : s.boot.Totalled) :
    ∃ n s', Loop.turns (tagTurn mem) n s = some (.ok s') ∧ s.ReadsWithin t.toNat limit s' ∧
      s'.boot.Totalled ∧
      s'.boot.mmapEntries =
        (s.boot.mmapEntries ++ tags.flatMap (recordsAt mem 24)).take MAX_MMAP_ENTRIES := by
  induction hchain generalizing s with
  | last htype hin =>
      subst htag
      have hread := Mb2Walk.readsWithin_reading s s.tag.toNat s.tag 4 le_rfl
        (by omega) htop
      refine ⟨1, _, Loop.turns_exit (tagTurn_end htype) 0, hread, hs, ?_⟩
      rw [List.flatMap_nil, List.append_nil]
      exact (List.take_of_length_le hs.count).symm
  | @tag t next tags htype hsize hin hnext hrest ih =>
      subst htag
      have haddr4 : (s.tag + 4).toNat = s.tag.toNat + 4 := toNat_add_of_lt (j := 4) (by omega)
      have hread := Mb2Walk.readsWithin_reading s s.tag.toNat s.tag 4 le_rfl
        (by omega) htop
      obtain ⟨s', hok, htag', hreads, htotal, hentries⟩ := parseTag_ok (s := s.reading s.tag 4) hin
        htop (hfb s.tag List.mem_cons_self) (hmmap s.tag List.mem_cons_self) hs
      have hturn : tagTurn mem s =
          .inr { s'.reading (s'.tag + 4) 4 with tag := mb2NextTag mem s'.tag } := by
        unfold tagTurn
        rw [if_neg htype, hok]
      rw [Mb2Walk.reading_tag] at htag'
      have hnexttag : mb2NextTag mem s'.tag = next := mb2NextTag_eq (by rw [htag', hnext])
      obtain ⟨n, s'', hrun, hreads', htotal', hentries'⟩ := ih
        (fun t ht => hfb t (List.mem_cons_of_mem _ ht))
        (fun t ht => hmmap t (List.mem_cons_of_mem _ ht))
        (s := { s'.reading (s'.tag + 4) 4 with tag := mb2NextTag mem s'.tag }) hnexttag htotal
      refine ⟨n + 1, s'', (Loop.turns_next hturn n).trans hrun, ?_, htotal', ?_⟩
      · -- the size is read once more for the next tag
        have hsizeread := Mb2Walk.readsWithin_reading s' s.tag.toNat (s'.tag + 4) 4
          (by rw [htag']; omega) (by rw [htag']; omega) htop
        have hhere := (hread.trans hreads).trans hsizeread
        have hlater : (s'.reading (s'.tag + 4) 4).ReadsWithin s.tag.toNat limit s'' :=
          hreads'.mono (by omega)
        exact hhere.trans hlater
      · rw [hentries']
        change ((s'.boot.mmapEntries ++ _).take MAX_MMAP_ENTRIES) = _
        rw [hentries, List.flatMap_cons, ← List.append_assoc]
        exact take_take_append _ _ _

/-- **`parse_multiboot2` on a well-formed block** comes to its end, reads only inside the block, and
appends the records of the memory-map tags at 24 bytes' distance until the array is full. -/
theorem parseMultiboot2_wellFormed {phys : UInt32} {tags : List UInt32}
    (h : WellFormedBlock mem (phys + KERNEL_VIRT_BASE) tags) :
    ∃ n s, parseMultiboot2 mem phys n = some (.ok s) ∧
      (∀ a ∈ s.reads, (phys + KERNEL_VIRT_BASE).toNat ≤ a.toNat ∧
        a.toNat < (phys + KERNEL_VIRT_BASE).toNat + (load32 mem (phys + KERNEL_VIRT_BASE)).toNat) ∧
      s.boot.Totalled ∧
      s.boot.mmapEntries = (tags.flatMap (recordsAt mem 24)).take MAX_MMAP_ENTRIES := by
  have hstatics : BootInfo.statics.Totalled := ⟨rfl, Nat.zero_le _⟩
  have hheader := h.header
  have hfits := h.fits
  have hfirst : (mb2FirstTag (phys + KERNEL_VIRT_BASE)).toNat = (phys + KERNEL_VIRT_BASE).toNat + 8 :=
    toNat_add_of_lt (j := 8) (by omega)
  obtain ⟨n, s, hrun, hreads, htotal, hentries⟩ := tagTurns_chain h.fits h.chain h.framebuffer h.mmap
    (s := ⟨mb2FirstTag (phys + KERNEL_VIRT_BASE), .statics, []⟩) rfl hstatics
  refine ⟨n, s, hrun, ?_, htotal, hentries⟩
  intro a ha
  rcases hreads a ha with hnone | hin
  · exact absurd hnone List.not_mem_nil
  · omega

/-! ### Safety of the walk -/

/-- The walk ends without a fault and has read only bytes of the block. -/
def SafelyParsed (mem : UInt32 → UInt8) (phys : UInt32) : Prop :=
  ∃ turns s, parseMultiboot2 mem phys turns = some (.ok s) ∧
    ∀ a ∈ s.reads, (phys + KERNEL_VIRT_BASE).toNat ≤ a.toNat ∧
      a.toNat < (phys + KERNEL_VIRT_BASE).toNat + (load32 mem (phys + KERNEL_VIRT_BASE)).toNat

/-- **Safety on well-formed blocks**: the walk terminates, divides by no zero and reads only bytes inside
the block. -/
theorem parseMultiboot2_safe (mem : UInt32 → UInt8) (phys : UInt32) (tags : List UInt32)
    (h : WellFormedBlock mem (phys + KERNEL_VIRT_BASE) tags) : SafelyParsed mem phys := by
  obtain ⟨n, s, hrun, hreads, _⟩ := parseMultiboot2_wellFormed h
  exact ⟨n, s, hrun, hreads⟩

theorem forall_of_all {α : Type} {P : α → Prop} [DecidablePred P] {l : List α}
    (h : l.all fun a => decide (P a)) : ∀ a ∈ l, P a := by
  simpa using h

/-- A block at the physical address 0x10000, given by its words. -/
def wordsBlock (ws : List UInt32) : UInt32 → UInt8 :=
  fun a => byte (ws.getD ((a - 0xC0010000).toNat / 4) 0) ((a - 0xC0010000).toNat % 4)

/-- A memory-map tag with one entry and a framebuffer tag. -/
def smallBlock : UInt32 → UInt8 :=
  wordsBlock [88, 0, 6, 40, 24, 0, 0x200000, 0, 0x1000, 0, 1, 0,
    8, 32, 0xFD000000, 0, 4096, 1024, 768, 0x120, 0, 8]

theorem smallBlock_wellFormed :
    WellFormedBlock smallBlock (0x10000 + KERNEL_VIRT_BASE) [0xC0010008, 0xC0010030] where
  header := by decide +kernel
  fits := by decide +kernel
  chain := by
    refine .tag 0xC0010030 ?_ ?_ ?_ ?_ (.tag 0xC0010050 ?_ ?_ ?_ ?_ (.last ?_ ?_)) <;>
      decide +kernel
  framebuffer := forall_of_all (by decide +kernel)
  mmap := forall_of_all (by decide +kernel)

theorem parseMultiboot2_safe_small : SafelyParsed smallBlock 0x10000 :=
  parseMultiboot2_safe smallBlock 0x10000 _ smallBlock_wellFormed

/-- A tag of size zero: the next tag is the same one. -/
def emptyTagBlock : UInt32 → UInt8 := wordsBlock [24, 0, 1, 0, 0, 8]

/-- A memory-map tag with an entry size of zero. -/
def zeroEntryBlock : UInt32 → UInt8 := wordsBlock [32, 0, 6, 16, 0, 0, 0, 8]

/-- A block without an end tag. -/
def openBlock : UInt32 → UInt8 := wordsBlock [16, 0, 1, 8]

theorem tagTurn_skip (mem : UInt32 → UInt8) {s : Mb2Walk} (hend : load32 mem s.tag ≠ MB2_TAG_END)
    (hfb : load32 mem s.tag ≠ MB2_TAG_FRAMEBUFFER) (hmmap : load32 mem s.tag ≠ MB2_TAG_MMAP) :
    tagTurn mem s = .inr
      { (s.reading s.tag 4).reading (s.tag + 4) 4 with tag := mb2NextTag mem s.tag } := by
  have hparse : parseTag mem (s.reading s.tag 4) = .ok (s.reading s.tag 4) := by
    unfold parseTag
    rw [Mb2Walk.reading_tag, if_neg hfb, if_neg hmmap]
  unfold tagTurn
  rw [if_neg hend, hparse]
  rfl

theorem emptyTagBlock_never (n : ℕ) (s : Mb2Walk) (hs : s.tag = 0xC0010008) :
    Loop.turns (tagTurn emptyTagBlock) n s = none := by
  induction n generalizing s with
  | zero => rfl
  | succ n ih =>
      have hnext : mb2NextTag emptyTagBlock 0xC0010008 = 0xC0010008 := by decide +kernel
      have hskip := tagTurn_skip emptyTagBlock (s := s) (by rw [hs]; decide +kernel)
        (by rw [hs]; decide +kernel) (by rw [hs]; decide +kernel)
      rw [Loop.turns_next hskip]
      exact ih _ (by rw [hs, hnext])

theorem zeroEntryBlock_fault :
    parseMultiboot2 zeroEntryBlock 0x10000 1 = some (.error .divideError) := by
  have hfirst : mb2FirstTag (0x10000 + KERNEL_VIRT_BASE) = 0xC0010008 := by decide
  have htype : load32 zeroEntryBlock 0xC0010008 = MB2_TAG_MMAP := by decide +kernel
  have hentry : entrySize zeroEntryBlock 0xC0010008 = 0 := by decide +kernel
  unfold parseMultiboot2
  rw [hfirst]
  apply Loop.turns_exit
  unfold tagTurn parseTag parseMmapTag
  simp only [Mb2Walk.reading_tag, htype, hentry]
  rfl

theorem openBlock_leaves : ∃ s, parseMultiboot2 openBlock 0x10000 2 = some (.ok s) ∧
    0xC0010010 ∈ s.reads := by
  have hfirst : mb2FirstTag (0x10000 + KERNEL_VIRT_BASE) = 0xC0010008 := by decide
  have hnext : mb2NextTag openBlock 0xC0010008 = 0xC0010010 := by decide +kernel
  have hend : load32 openBlock 0xC0010010 = MB2_TAG_END := by decide +kernel
  have hexit : ∀ s : Mb2Walk, s.tag = 0xC0010010 →
      Loop.turns (tagTurn openBlock) 1 s = some (.ok (s.reading s.tag 4)) := fun s hs =>
    Loop.turns_exit (tagTurn_end (hs.symm ▸ hend)) 0
  have hskip := tagTurn_skip openBlock (s := ⟨0xC0010008, .statics, []⟩) (by decide +kernel)
    (by decide +kernel) (by decide +kernel)
  unfold parseMultiboot2
  rw [hfirst, Loop.turns_next hskip, hnext]
  refine ⟨_, hexit _ rfl, ?_⟩
  exact List.mem_append_right _ (mem_addrs.mpr ⟨0, by decide, rfl⟩)

/-- On an arbitrary block the walk need not end, may divide by zero and may leave the block. -/
theorem parseMultiboot2_unsafe :
    ¬ SafelyParsed emptyTagBlock 0x10000 ∧ ¬ SafelyParsed zeroEntryBlock 0x10000 ∧
      ¬ SafelyParsed openBlock 0x10000 := by
  refine ⟨?_, ?_, ?_⟩
  · rintro ⟨n, s, hrun, _⟩
    have hnever := emptyTagBlock_never n ⟨mb2FirstTag (0x10000 + KERNEL_VIRT_BASE), .statics, []⟩
      (by decide)
    cases hnever.symm.trans hrun
  · rintro ⟨n, s, hrun, _⟩
    cases Loop.turns_unique zeroEntryBlock_fault hrun
  · rintro ⟨n, s, hrun, hreads⟩
    obtain ⟨s', hleaves, hmem⟩ := openBlock_leaves
    obtain rfl := Except.ok.inj (Loop.turns_unique hleaves hrun)
    exact absurd (hreads _ hmem).2 (by decide +kernel)

/-! ### The memory map -/

/-- The variables hold the entries the tags describe: the first 64, their number and the sum of the
available lengths. -/
structure MapRead (mem : UInt32 → UInt8) (tags : List UInt32) (b : BootInfo) : Prop where
  entries : b.mmapEntries = (tags.flatMap (tagEntries mem)).take MAX_MMAP_ENTRIES
  count : b.mmapCount = min MAX_MMAP_ENTRIES (tags.flatMap (tagEntries mem)).length
  total : b.memTotal.toNat =
    availableLength ((tags.flatMap (tagEntries mem)).take MAX_MMAP_ENTRIES) % 2 ^ 64

/-- In each memory-map tag whose entries are not 24 bytes apart, an entry that still fits into the array
and is not the first of its tag is found at 24 bytes' distance as well. -/
def StrideAgrees (mem : UInt32 → UInt8) (tags : List UInt32) : Prop :=
  ∀ pre t post, tags = pre ++ t :: post → load32 mem t = MB2_TAG_MMAP → entrySize mem t ≠ 24 →
    ∀ i, 0 < i → i < (mmapNum mem t).toNat →
      (pre.flatMap (tagEntries mem)).length + i < MAX_MMAP_ENTRIES →
        mmapEntryAt mem (t + 16 + UInt32.ofNat (24 * i)) =
          mmapEntryAt mem (t + 16 + UInt32.ofNat ((entrySize mem t).toNat * i))

/-- Two ways to expand a list that give equally many items: the first `n` agree exactly if they do item
by item. -/
theorem take_flatMap_eq_iff {α β : Type} {f g : α → List β}
    (hlength : ∀ a, (f a).length = (g a).length) (n : ℕ) (l : List α) :
    (l.flatMap f).take n = (l.flatMap g).take n ↔
      ∀ pre a post, l = pre ++ a :: post → ∀ i, (pre.flatMap g).length + i < n →
        (f a)[i]? = (g a)[i]? := by
  induction l generalizing n with
  | nil => simp
  | cons b l ih =>
      have hhead : (f b).take n = (g b).take n ↔ ∀ i < n, (f b)[i]? = (g b)[i]? := by
        constructor
        · intro h i hi
          rw [← List.getElem?_take_of_lt hi, h, List.getElem?_take_of_lt hi]
        · intro h
          apply List.ext_getElem?
          intro i
          rw [List.getElem?_take, List.getElem?_take]
          split_ifs with hi
          · exact h i hi
          · rfl
      have hsplit : ∀ r r' : List β, (f b).take n ++ r = (g b).take n ++ r' ↔
          (f b).take n = (g b).take n ∧ r = r' := by
        intro r r'
        refine ⟨fun h => List.append_inj h (by simp [hlength b]), ?_⟩
        rintro ⟨h1, rfl⟩
        rw [h1]
      rw [List.flatMap_cons, List.flatMap_cons, List.take_append, List.take_append, hlength b, hsplit,
        hhead, ih]
      constructor
      · rintro ⟨hb, hrest⟩ pre a post heq i hi
        cases pre with
        | nil =>
            obtain ⟨rfl, rfl⟩ := List.cons.inj heq
            exact hb i (by simpa using hi)
        | cons c pre =>
            obtain ⟨rfl, rfl⟩ := List.cons.inj heq
            rw [List.flatMap_cons, List.length_append] at hi
            exact hrest pre a post rfl i (by omega)
      · intro h
        refine ⟨fun i hi => h [] b l rfl i (by simpa using hi), ?_⟩
        intro pre a post heq i hi
        refine h (b :: pre) a post (by rw [heq]; rfl) i ?_
        rw [List.flatMap_cons, List.length_append]
        omega

theorem getElem?_recordsAt {t : UInt32} (htype : load32 mem t = MB2_TAG_MMAP) (stride i : ℕ) :
    (recordsAt mem stride t)[i]? = if i < (mmapNum mem t).toNat then
      some (mmapEntryAt mem (t + 16 + UInt32.ofNat (stride * i))) else none := by
  unfold recordsAt
  rw [if_pos htype, List.getElem?_map]
  split_ifs with hi
  · rw [List.getElem?_range hi]
    rfl
  · rw [List.getElem?_eq_none (by simpa using hi)]
    rfl

/-- The entries copied are those described exactly if the two distances agree where it matters. -/
theorem strideAgrees_iff {tags : List UInt32} :
    (tags.flatMap (recordsAt mem 24)).take MAX_MMAP_ENTRIES =
        (tags.flatMap (tagEntries mem)).take MAX_MMAP_ENTRIES ↔ StrideAgrees mem tags := by
  have hlength : ∀ t, (recordsAt mem 24 t).length = (tagEntries mem t).length := by
    intro t
    unfold tagEntries recordsAt
    split_ifs <;> simp
  rw [take_flatMap_eq_iff hlength]
  constructor
  · intro h pre t post heq htype _ i _ hi hroom
    have hitem := h pre t post heq i hroom
    unfold tagEntries at hitem
    rw [getElem?_recordsAt htype, getElem?_recordsAt htype, if_pos hi, if_pos hi] at hitem
    exact Option.some.inj hitem
  · intro h pre t post heq i hroom
    unfold tagEntries
    by_cases htype : load32 mem t = MB2_TAG_MMAP
    · rw [getElem?_recordsAt htype, getElem?_recordsAt htype]
      split_ifs with hi
      · rcases Nat.eq_zero_or_pos i with rfl | hpos
        · rfl
        · by_cases hentry : entrySize mem t = 24
          · rw [hentry]
            rfl
          · rw [h pre t post heq htype hentry i hpos hi hroom]
      · rfl
    · unfold recordsAt
      rw [if_neg htype, if_neg htype]

/-- **When the memory map is read correctly**: on a well-formed block, exactly if the fixed distance of
24 bytes finds the entries that the tags place at their own distance. -/
theorem parseMultiboot2_mapRead_iff (mem : UInt32 → UInt8) (phys : UInt32) (tags : List UInt32)
    (h : WellFormedBlock mem (phys + KERNEL_VIRT_BASE) tags) :
    (∃ turns s, parseMultiboot2 mem phys turns = some (.ok s) ∧ MapRead mem tags s.boot) ↔
      StrideAgrees mem tags := by
  obtain ⟨n, s, hrun, _, htotal, hentries⟩ := parseMultiboot2_wellFormed h
  rw [← strideAgrees_iff, ← hentries]
  constructor
  · rintro ⟨m, s', hrun', hread⟩
    obtain rfl := Except.ok.inj (Loop.turns_unique hrun hrun')
    exact hread.entries
  · intro hagree
    refine ⟨n, s, hrun, hagree, ?_, ?_⟩
    · unfold BootInfo.mmapCount
      rw [hagree, List.length_take]
    · rw [htotal.memTotal, hagree]

theorem parseMultiboot2_mapRead_small :
    ∃ turns s, parseMultiboot2 smallBlock 0x10000 turns = some (.ok s) ∧
      MapRead smallBlock [0xC0010008, 0xC0010030] s.boot := by
  refine (parseMultiboot2_mapRead_iff smallBlock 0x10000 _ smallBlock_wellFormed).mpr ?_
  intro pre t post heq htype hentry
  have hmem : t ∈ [(0xC0010008 : UInt32), 0xC0010030] := by
    rw [heq]
    simp
  simp only [List.mem_cons, List.not_mem_nil, or_false] at hmem
  rcases hmem with rfl | rfl
  · exact absurd (by decide +kernel) hentry
  · exact absurd htype (by decide +kernel)

/-- Two available entries 32 bytes apart. -/
def wideBlock : UInt32 → UInt8 :=
  wordsBlock [96, 0, 6, 80, 32, 0, 0, 0, 0x9F000, 0, 1, 0, 0, 0,
    0x100000, 0, 0x7F00000, 0, 1, 0, 0, 0, 0, 8]

theorem wideBlock_wellFormed :
    WellFormedBlock wideBlock (0x10000 + KERNEL_VIRT_BASE) [0xC0010008] where
  header := by decide +kernel
  fits := by decide +kernel
  chain := by
    refine .tag 0xC0010058 ?_ ?_ ?_ ?_ (.last ?_ ?_) <;> decide +kernel
  framebuffer := forall_of_all (by decide +kernel)
  mmap := forall_of_all (by decide +kernel)

/-- With an entry size of 32 the second entry is not the one the tag describes. -/
theorem wideBlock_misread :
    WellFormedBlock wideBlock (0x10000 + KERNEL_VIRT_BASE) [0xC0010008] ∧
      entrySize wideBlock 0xC0010008 = 32 ∧
      ¬ ∃ turns s, parseMultiboot2 wideBlock 0x10000 turns = some (.ok s) ∧
        MapRead wideBlock [0xC0010008] s.boot := by
  refine ⟨wideBlock_wellFormed, by decide +kernel, ?_⟩
  rintro ⟨m, s', hrun', hread⟩
  obtain ⟨n, s, hrun, _, _, hentries⟩ := parseMultiboot2_wellFormed wideBlock_wellFormed
  obtain rfl := Except.ok.inj (Loop.turns_unique hrun hrun')
  have hagree := strideAgrees_iff.mp (hentries.symm.trans hread.entries)
  have hsecond := hagree [] 0xC0010008 [] rfl (by decide +kernel) (by decide +kernel) 1 (by decide)
    (by decide +kernel) (by decide)
  exact absurd (congrArg MmapEntry.length hsecond) (by decide +kernel)

end LunaOs
