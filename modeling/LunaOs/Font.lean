import LunaOs.FillRect
import LunaOs.StringOps

/-! # The font of `drivers/gfx/font.c`

A glyph is found by multiplying the character, a signed `char`, by the size of a glyph, modulo `2^32`.  What
is read of it is one contiguous range of bytes.  The header and the string are not overwritten while a string
is drawn. -/

namespace LunaOs

/-- `PSF2Header` -/
structure Psf2Header where
  magic : UInt32
  version : UInt32
  headerSize : UInt32
  flags : UInt32
  length : UInt32
  charSize : UInt32
  height : UInt32
  width : UInt32

/-- A font in memory: its address and its header. -/
structure Font where
  ptr : UInt32
  hdr : Psf2Header

/-- `font_hdr` changes only if the magic number is right. -/
def fontInit (fontHdr : Option Font) (psf2Binary : Font) : Option Font :=
  if psf2Binary.hdr.magic = 0x864ab572 then some psf2Binary else fontHdr

/-- Memory, and the addresses that glyphs were read from. -/
structure Drawing where
  mem : Memory
  reads : List UInt32

/-- `c * char_size`, where the sign of `c` is extended. -/
def Font.glyphOffset (font : Font) (c : UInt8) : UInt32 := UInt32.ofInt c.toInt8.toInt * font.hdr.charSize

def Font.glyph (font : Font) (c : UInt8) : UInt32 := font.ptr + font.hdr.headerSize + font.glyphOffset c

def Font.pitch (font : Font) : UInt32 := (font.hdr.width + 7) / 8

/-- The body of the loops of `font_draw_char`. -/
def Font.drawPixel (f : Framebuffer) (font : Font) (x y : UInt32) (c : UInt8) (fg bg : UInt32) (cy cx : UInt32)
    (d : Drawing) : Drawing :=
  let a := font.glyph c + (cy * font.pitch + cx / 8)
  let bit := (d.mem.bytes a >>> (7 - cx % 8).toUInt8) &&& 1
  ⟨if bit ≠ 0 then fbPutPixel f (x + cx) (y + cy) fg d.mem
    else if bg ≠ 0 then fbPutPixel f (x + cx) (y + cy) bg d.mem
    else d.mem, d.reads ++ [a]⟩

/-- `font_draw_char`, which draws nothing without a font. -/
def fontDrawChar (f : Framebuffer) (fontHdr : Option Font) (x y : UInt32) (c : UInt8) (fg bg : UInt32)
    (d : Drawing) : Drawing :=
  match fontHdr with
  | none => d
  | some font =>
      (List.range font.hdr.height.toNat).foldl (fun d cy =>
        (List.range font.hdr.width.toNat).foldl (fun d cx =>
          font.drawPixel f x y c fg bg (UInt32.ofNat cy) (UInt32.ofNat cx) d) d) d

/-- `while (*str)`, with the cursor at `x`. -/
def drawStringLoop (f : Framebuffer) (fontHdr : Option Font) (y fg bg : UInt32) :
    List UInt8 → UInt32 → Drawing → Drawing
  | [], _, d => d
  | c :: str, x, d =>
      drawStringLoop f fontHdr y fg bg str (x + match fontHdr with | some font => font.hdr.width | none => 8)
        (fontDrawChar f fontHdr x y c fg bg d)

def fontDrawString (f : Framebuffer) (fontHdr : Option Font) (x y : UInt32) (str : CString) (fg bg : UInt32)
    (d : Drawing) : Drawing :=
  drawStringLoop f fontHdr y fg bg str.chars x d

namespace Font

/-! ### Tables -/

/-- The glyph table begins behind the header. -/
def table (font : Font) : ℕ := font.ptr.toNat + font.hdr.headerSize.toNat

def tableSize (font : Font) : ℕ := font.hdr.length.toNat * font.hdr.charSize.toNat

/-- The address of a byte of a glyph. -/
def InTable (font : Font) (a : UInt32) : Prop :=
  font.table ≤ a.toNat ∧ a.toNat < font.table + font.tableSize

/-- The sizes in the header fit together, and the table is in memory. -/
structure Valid (font : Font) : Prop where
  magic_eq : font.hdr.magic = 0x864ab572
  charSize_eq : font.hdr.charSize.toNat = font.hdr.height.toNat * ((font.hdr.width.toNat + 7) / 8)
  headerSize_le : 32 ≤ font.hdr.headerSize.toNat
  table_le : font.table + font.tableSize ≤ 2 ^ 32

/-- How many bytes of a glyph are read: all rows, or only the first one if `width + 7` wraps around. -/
def span (font : Font) : ℕ :=
  if font.hdr.height = 0 ∨ font.hdr.width = 0 then 0
  else if font.hdr.width.toNat + 7 < 2 ^ 32 then font.hdr.charSize.toNat
  else (font.hdr.width.toNat + 7) / 8

/-- The bytes that are read of the glyph are in the table. -/
def GlyphInTable (font : Font) (c : UInt8) : Prop :=
  font.span = 0 ∨ (font.glyphOffset c).toNat + font.span ≤ font.tableSize

end Font

/-! ### Reads -/

theorem foldl_reads {ι : Type*} {step : Drawing → ι → Drawing} {D : ι → List UInt32}
    (hstep : ∀ d i, (step d i).reads = d.reads ++ D i) (l : List ι) (d : Drawing) :
    (l.foldl step d).reads = d.reads ++ l.flatMap D := by
  induction l generalizing d with
  | nil => simp
  | cons i l ih => rw [List.foldl_cons, ih, hstep, List.flatMap_cons, List.append_assoc]

namespace Font

/-- The reads of one character. -/
def glyphReads (font : Font) (c : UInt8) : List UInt32 :=
  (List.range font.hdr.height.toNat).flatMap fun cy => (List.range font.hdr.width.toNat).flatMap fun cx =>
    [font.glyph c + (UInt32.ofNat cy * font.pitch + UInt32.ofNat cx / 8)]

variable {font : Font} {c : UInt8}

theorem fontDrawChar_reads (f : Framebuffer) (font : Font) (x y : UInt32) (c : UInt8) (fg bg : UInt32)
    (d : Drawing) : (fontDrawChar f (some font) x y c fg bg d).reads = d.reads ++ font.glyphReads c :=
  foldl_reads (fun d _ => foldl_reads (fun _ _ => rfl) _ d) _ d

theorem drawStringLoop_reads (f : Framebuffer) (font : Font) (y fg bg : UInt32) (str : List UInt8) (x : UInt32)
    (d : Drawing) : (drawStringLoop f (some font) y fg bg str x d).reads = d.reads ++ str.flatMap font.glyphReads := by
  induction str generalizing x d with
  | nil => simp [drawStringLoop]
  | cons c str ih =>
      rw [drawStringLoop, ih, fontDrawChar_reads, List.flatMap_cons, List.append_assoc]

theorem Valid.fontInit_eq (hfont : font.Valid) (fontHdr : Option Font) : fontInit fontHdr font = some font :=
  if_pos hfont.magic_eq

theorem toNat_pitch (font : Font) : font.pitch.toNat = (font.hdr.width.toNat + 7) % 2 ^ 32 / 8 := by
  unfold pitch
  rw [UInt32.toNat_div, UInt32.toNat_add]
  rfl

theorem exists_row_iff {h w k : ℕ} :
    (∃ cy < h, ∃ cx < w, cy * ((w + 7) / 8) + cx / 8 = k) ↔ k < h * ((w + 7) / 8) := by
  constructor
  · rintro ⟨cy, hcy, cx, hcx, rfl⟩
    calc cy * ((w + 7) / 8) + cx / 8
      _ < cy * ((w + 7) / 8) + (w + 7) / 8 := by omega
      _ = (cy + 1) * ((w + 7) / 8) := (Nat.succ_mul _ _).symm
      _ ≤ h * ((w + 7) / 8) := Nat.mul_le_mul_right _ hcy
  · intro hk
    have hpos : 0 < (w + 7) / 8 := Nat.pos_of_lt_mul_left hk
    have hmod := Nat.mod_lt k hpos
    refine ⟨k / ((w + 7) / 8), Nat.div_lt_of_lt_mul (by rwa [Nat.mul_comm]), 8 * (k % ((w + 7) / 8)), ?_, ?_⟩
    · omega
    · rw [Nat.mul_div_cancel_left _ (by decide), Nat.mul_comm]
      exact Nat.div_add_mod _ _

theorem exists_index_iff (hfont : font.Valid) {k : ℕ} :
    (∃ cy < font.hdr.height.toNat, ∃ cx < font.hdr.width.toNat, cy * font.pitch.toNat + cx / 8 = k) ↔
      k < font.span := by
  have hwidth := font.hdr.width.toNat_lt
  rw [toNat_pitch]
  unfold span
  split_ifs with hempty hsmall
  · -- there are no pixels
    rw [← UInt32.toNat_inj, ← UInt32.toNat_inj] at hempty
    have hzero : (0 : UInt32).toNat = 0 := rfl
    refine iff_of_false ?_ (Nat.not_lt_zero k)
    rintro ⟨cy, hcy, cx, hcx, _⟩
    omega
  · rw [Nat.mod_eq_of_lt hsmall, hfont.charSize_eq]
    exact exists_row_iff
  · -- all rows are the first one
    rw [← UInt32.toNat_inj, ← UInt32.toNat_inj] at hempty
    have hzero : (0 : UInt32).toNat = 0 := rfl
    have hpitch : (font.hdr.width.toNat + 7) % 2 ^ 32 / 8 = 0 := by omega
    have hrow := @exists_row_iff 1 font.hdr.width.toNat k
    rw [Nat.one_mul] at hrow
    rw [hpitch, ← hrow]
    constructor
    · rintro ⟨cy, _, cx, hcx, rfl⟩
      exact ⟨0, Nat.one_pos, cx, hcx, by rw [Nat.zero_mul, Nat.mul_zero]⟩
    · rintro ⟨cy, hcy, cx, hcx, rfl⟩
      obtain rfl : cy = 0 := Nat.lt_one_iff.mp hcy
      exact ⟨0, by omega, cx, hcx, by rw [Nat.zero_mul, Nat.zero_mul]⟩

/-- **The reads of a glyph** are a contiguous range. -/
theorem mem_glyphReads (hfont : font.Valid) {a : UInt32} :
    a ∈ font.glyphReads c ↔ ∃ k < font.span, a = font.glyph c + UInt32.ofNat k := by
  have hwidth := font.hdr.width.toNat_lt
  have hmem : a ∈ font.glyphReads c ↔ ∃ cy < font.hdr.height.toNat, ∃ cx < font.hdr.width.toNat,
      a = font.glyph c + (UInt32.ofNat cy * font.pitch + UInt32.ofNat cx / 8) := by
    simp [glyphReads]
  have hindex : ∀ cy cx : ℕ, cx < font.hdr.width.toNat → UInt32.ofNat cy * font.pitch + UInt32.ofNat cx / 8 =
      UInt32.ofNat (cy * font.pitch.toNat + cx / 8) := by
    intro cy cx hcx
    have hdiv : UInt32.ofNat cx / 8 = UInt32.ofNat (cx / 8) := by
      rw [← UInt32.toNat_inj, UInt32.toNat_div, UInt32.toNat_ofNat_of_lt' (hcx.trans hwidth),
        UInt32.toNat_ofNat_of_lt' ((Nat.div_le_self cx 8).trans_lt (hcx.trans hwidth))]
      rfl
    rw [UInt32.ofNat_add, UInt32.ofNat_mul, UInt32.ofNat_toNat, hdiv]
  rw [hmem]
  constructor
  · rintro ⟨cy, hcy, cx, hcx, ha⟩
    rw [hindex cy cx hcx] at ha
    exact ⟨_, (exists_index_iff hfont).mp ⟨cy, hcy, cx, hcx, rfl⟩, ha⟩
  · rintro ⟨k, hk, ha⟩
    obtain ⟨cy, hcy, cx, hcx, rfl⟩ := (exists_index_iff hfont).mpr hk
    refine ⟨cy, hcy, cx, hcx, ?_⟩
    rw [hindex cy cx hcx]
    exact ha

theorem inTable_iff (hfont : font.Valid) (k : ℕ) : font.InTable (font.glyph c + UInt32.ofNat k) ↔
    ((font.glyphOffset c).toNat + k) % 2 ^ 32 < font.tableSize := by
  have hheader := hfont.headerSize_le
  have htable := hfont.table_le
  unfold InTable glyph
  unfold table at htable ⊢
  rw [UInt32.toNat_add, UInt32.toNat_add, UInt32.toNat_add, UInt32.toNat_ofNat']
  omega

/-- **The glyph** is read inside the table exactly if it lies there. -/
theorem glyphReads_inTable_iff (hfont : font.Valid) :
    (∀ a ∈ font.glyphReads c, font.InTable a) ↔ font.GlyphInTable c := by
  have hheader := hfont.headerSize_le
  have htable := hfont.table_le
  have hoffset := (font.glyphOffset c).toNat_lt
  have hreads : (∀ a ∈ font.glyphReads c, font.InTable a) ↔
      ∀ k < font.span, ((font.glyphOffset c).toNat + k) % 2 ^ 32 < font.tableSize := by
    constructor
    · intro h k hk
      exact (inTable_iff hfont k).mp (h _ ((mem_glyphReads hfont).mpr ⟨k, hk, rfl⟩))
    · intro h a ha
      obtain ⟨k, hk, rfl⟩ := (mem_glyphReads hfont).mp ha
      exact (inTable_iff hfont k).mpr (h k hk)
  rw [hreads]
  unfold GlyphInTable
  unfold table at htable
  constructor
  · intro h
    by_contra hout
    rw [not_or] at hout
    -- the first byte behind the table would be read
    have hfirst := h 0 (by omega)
    have hbehind := h (font.tableSize - (font.glyphOffset c).toNat) (by omega)
    omega
  · intro h k hk
    omega

/-- **`font_draw_string`** reads inside the glyph table exactly if every glyph of the string lies there. -/
theorem fontDrawString_reads_iff (hfont : font.Valid) (fontHdr : Option Font) (f : Framebuffer) (x y : UInt32)
    (str : CString) (fg bg : UInt32) (m : Memory) :
    (∀ a ∈ (fontDrawString f (fontInit fontHdr font) x y str fg bg ⟨m, []⟩).reads, font.InTable a) ↔
      ∀ c ∈ str.chars, font.GlyphInTable c := by
  unfold fontDrawString
  rw [hfont.fontInit_eq, drawStringLoop_reads, List.nil_append]
  simp only [← glyphReads_inTable_iff hfont, List.mem_flatMap]
  constructor
  · exact fun h c hc a ha => h a ⟨c, hc, ha⟩
  · rintro h a ⟨c, hc, ha⟩
    exact h c hc a ha

/-- A font of 256 glyphs of 8 by 16 pixels. -/
def sample : Font := ⟨0x200000, ⟨0x864ab572, 0, 32, 0, 256, 16, 16, 8⟩⟩

theorem valid_sample : sample.Valid := ⟨rfl, by decide, by decide, by decide⟩

theorem fontDrawString_reads_sample : ∃ str : CString, str.chars = [65] ∧
    ∀ a ∈ (fontDrawString Framebuffer.sample (fontInit none sample) 0 0 str 1 0 ⟨Framebuffer.blank, []⟩).reads,
      sample.InTable a := by
  refine ⟨⟨[65], by simp⟩, rfl, (fontDrawString_reads_iff valid_sample _ _ _ _ _ _ _ _).mpr ?_⟩
  intro c hc
  obtain rfl := List.mem_singleton.mp hc
  exact .inr (by decide)

/-- A character with the sign bit: its glyph is looked for in front of the font. -/
theorem fontDrawString_signed : ∃ str : CString, str.chars = [0x80] ∧
    ¬ ∀ a ∈ (fontDrawString Framebuffer.sample (fontInit none sample) 0 0 str 1 0 ⟨Framebuffer.blank, []⟩).reads,
      sample.InTable a := by
  refine ⟨⟨[0x80], by simp⟩, rfl, fun h => ?_⟩
  have hglyph : sample.GlyphInTable 0x80 := by
    refine (glyphReads_inTable_iff valid_sample).mp fun a ha => h a ?_
    unfold fontDrawString
    rw [valid_sample.fontInit_eq, drawStringLoop_reads]
    simpa using ha
  have hout : ¬ (sample.span = 0 ∨ (sample.glyphOffset 0x80).toNat + sample.span ≤ sample.tableSize) := by
    decide
  exact hout hglyph

/-! ### Fonts of ordinary size -/

/-- **Unless sizes are extreme**, the glyphs in the table are those of the characters that are not negative
and below the number of glyphs. -/
theorem glyphInTable_iff (font : Font) (c : UInt8)
    (hsize : (font.hdr.length.toNat + 128) * font.hdr.charSize.toNat ≤ 2 ^ 32)
    (hspan : font.span = font.hdr.charSize.toNat) (hpos : 0 < font.hdr.charSize.toNat) :
    font.GlyphInTable c ↔ 0 ≤ c.toInt8.toInt ∧ c.toInt8.toInt < font.hdr.length.toNat := by
  have hlow := c.toInt8.le_toInt
  have hhigh := c.toInt8.toInt_lt
  have hchars : 128 * font.hdr.charSize.toNat + font.tableSize ≤ 2 ^ 32 := by
    rwa [Nat.add_mul, Nat.add_comm] at hsize
  have hoffset : (font.glyphOffset c).toNat =
      (c.toInt8.toInt % 2 ^ 32).toNat * font.hdr.charSize.toNat % 2 ^ 32 := by
    unfold glyphOffset UInt32.ofInt
    rw [UInt32.toNat_mul, UInt32.toNat_ofNat', Nat.mod_mul_mod]
  unfold GlyphInTable
  rw [hspan, or_iff_right hpos.ne', hoffset]
  rcases Int.lt_or_le c.toInt8.toInt 0 with hneg | hnonneg
  · refine iff_of_false ?_ fun h => absurd h.1 (Int.not_le.mpr hneg)
    obtain ⟨n, hn⟩ : ∃ n : ℕ, c.toInt8.toInt = -n := ⟨c.toInt8.toInt.natAbs, by omega⟩
    have hmod : (c.toInt8.toInt % 2 ^ 32).toNat = 2 ^ 32 - n := by omega
    have hmul : n * font.hdr.charSize.toNat ≤ 128 * font.hdr.charSize.toNat :=
      Nat.mul_le_mul_right _ (by omega)
    have hone : 1 * font.hdr.charSize.toNat ≤ n * font.hdr.charSize.toNat :=
      Nat.mul_le_mul_right _ (by omega)
    rw [hmod, Nat.sub_mul]
    generalize n * font.hdr.charSize.toNat = size at hmul hone
    have hbelow : 2 ^ 32 * font.hdr.charSize.toNat - size =
        2 ^ 32 * (font.hdr.charSize.toNat - 1) + (2 ^ 32 - size) := by omega
    rw [hbelow, Nat.mul_add_mod]
    omega
  · obtain ⟨n, hn⟩ : ∃ n : ℕ, c.toInt8.toInt = n := ⟨c.toInt8.toInt.toNat, by omega⟩
    have hmod : (c.toInt8.toInt % 2 ^ 32).toNat = n := by omega
    have hmul : n * font.hdr.charSize.toNat ≤ 127 * font.hdr.charSize.toNat :=
      Nat.mul_le_mul_right _ (by omega)
    have hlt : n * font.hdr.charSize.toNat < 2 ^ 32 := by omega
    rw [hmod, Nat.mod_eq_of_lt hlt, ← Nat.succ_mul, hn]
    unfold tableSize
    rw [Nat.mul_le_mul_right_iff hpos, Nat.succ_le_iff]
    omega

end Font

end LunaOs
