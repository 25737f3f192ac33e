import Iridium.Common.Memcpy
import Iridium.Drivers.Terminal
import Iridium.Fs.Initrd
import Iridium.Mm.KheapRuns

/-!
# The font

`common/font.c`: the file `initrd/font.psf` begins with a header of four bytes, the two of the magic number, the
mode and the height of a glyph, and then has the glyphs, one row of eight pixels in a byte. `init_font` copies
both to the heap. It rejects a file when both bytes of the magic number are wrong, and takes the mode for a number
where it is a set of bits. `putchar` draws sixteen rows of the glyph whose number is the character, which it takes
as signed.

So the right glyph is drawn for a character below 128 of a font whose glyphs are sixteen rows high
(`font_right_iff`).
-/

namespace Iridium

open Lib

def PSF1_MAGIC0 : UInt8 := 0x36
def PSF1_MAGIC1 : UInt8 := 0x04

/-- `struct FontHeader`. -/
structure FontHeader where
  magic0 : UInt8
  magic1 : UInt8
  mode : UInt8
  chsize : UInt8
  deriving DecidableEq

/-- The header at an address. -/
def read_font_header (mem : ℕ → UInt8) (a : ℕ) : FontHeader := ⟨mem a, mem (a + 1), mem (a + 2), mem (a + 3)⟩

theorem read_font_header_congr {mem mem' : ℕ → UInt8} {a b : ℕ} (h : ∀ i < 4, mem (a + i) = mem' (b + i)) :
    read_font_header mem a = read_font_header mem' b := by
  have h0 : mem a = mem' b := h 0 (by decide)
  rw [read_font_header, read_font_header, h0, h 1 (by decide), h 2 (by decide), h 3 (by decide)]

/-- `glyph_buffer_size`. -/
def FontHeader.glyph_buffer_size (h : FontHeader) : UInt64 :=
  if h.mode = 1 then h.chsize.toUInt64 * 512 else h.chsize.toUInt64 * 256

/-- The two pointers, and the size of the buffer behind the second. -/
structure Font where
  font_header : ℕ
  font : ℕ
  glyph_buffer_size : UInt64

/-- `"initrd/font.psf"`. -/
def FONT_PATH : List UInt8 := "initrd/font.psf".toUTF8.toList

/-- `init_font`. The machine is halted when there is no such file, no memory for it, or its magic number is
invalid. -/
def init_font (m : Mm) : Kern (Font × Mm) := do
  let (font_data, m) ← initrd_open m FONT_PATH
  if font_data = 0 then throw .stopped
  let (font_header, m) ← kmalloc m 4
  if font_header = 0 then throw .stopped
  let m := { m with bytes := copy_bytes m.bytes font_header font_data 4 }
  let h := read_font_header m.bytes font_header
  if h.magic0 ≠ PSF1_MAGIC0 ∧ h.magic1 ≠ PSF1_MAGIC1 then throw .stopped
  let glyph_buffer_size := h.glyph_buffer_size
  let (font, m) ← kmalloc m glyph_buffer_size
  if font = 0 then throw .stopped
  let m := { m with bytes := copy_bytes m.bytes font (font_data + 4) glyph_buffer_size.toNat }
  return (⟨font_header, font, glyph_buffer_size⟩, m)

/-- The console with this font. -/
def Font.console (f : Font) (m : Mm) (fb : Lfb) : Console where
  fb := fb
  chsize := (read_font_header m.bytes f.font_header).chsize
  font := fun i => m.bytes (f.font + i).toNat
  x := 0
  y := 0

/-- What `putchar` does: the byte at `font + a` is read, and its eight pixels are drawn from `(x, y)` on. -/
inductive GlyphDeed where
  | row (a : ℤ) (x y : UInt32)

/-- Drawing that tells what it does. -/
abbrev Drawing (α : Type) := Traced GlyphDeed Halt α

/-- The rows of a glyph. -/
def put_rows_told (c : Console) (fb : Lfb) (x y color : UInt32) (glyph : ℤ) : ℕ → Drawing Lfb
  | 0 => pure fb
  | n + 1 => do
    let fb ← put_rows_told c fb x y color glyph n
    let stop : UInt32 := x + 8
    if x < stop then do
      Traced.tell (.row (glyph + Int.ofNat n) x (y + UInt32.ofNat n))
      return put_row fb x (y + UInt32.ofNat n) color (c.font (glyph + Int.ofNat n)) 8
    else return fb

/-- `putchar`. -/
def putchar_told (c : Console) (x y color : UInt32) (ch : UInt8) : Drawing Console := do
  let stop : UInt32 := y + 16
  let fb ← put_rows_told c c.fb x y color (ch.toInt8.toInt * Int.ofNat c.chsize.toNat) (if y < stop then 16 else 0)
  return { c with fb }

/-! ### The properties -/

/-- How many glyphs a font has. -/
def FontHeader.glyphs (h : FontHeader) : ℕ := if h.mode &&& 1 = 1 then 512 else 256

/-- The rows of the glyph with the number of the character, as unsigned. -/
def FontHeader.glyph_rows (h : FontHeader) (x y : UInt32) (ch : UInt8) : List GlyphDeed :=
  (List.range h.chsize.toNat).map fun i => .row (Int.ofNat (ch.toNat * h.chsize.toNat + i)) x (y + UInt32.ofNat i)

/-- **The font is right**, for a character at a place: the magic number of its file, the size of its buffer, and
what is read and drawn. -/
structure FontRight (h : FontHeader) (f : Font) (x y : UInt32) (ch : UInt8) (ds : List GlyphDeed) : Prop where
  magic : h.magic0 = PSF1_MAGIC0 ∧ h.magic1 = PSF1_MAGIC1
  size : f.glyph_buffer_size.toNat = h.chsize.toNat * h.glyphs
  inside : ∀ a x' y', .row a x' y' ∈ ds → 0 ≤ a ∧ a < Int.ofNat f.glyph_buffer_size.toNat
  rows : ds = h.glyph_rows x y ch

/-- **The font suits the character.** Where the ends of the loops of `putchar` wrap, it draws nothing. -/
structure FontHeader.Suits (h : FontHeader) (x y : UInt32) (ch : UInt8) : Prop where
  magic : h.magic0 = PSF1_MAGIC0 ∧ h.magic1 = PSF1_MAGIC1
  mode : h.mode &&& 1 = 1 → h.mode = 1 ∨ h.chsize = 0
  glyph : if x < x + 8 ∧ y < y + 16 then h.chsize = 16 ∧ ch < 0x80 else h.chsize = 0

section Rows

variable {c : Console} {fb : Lfb} {x y color : UInt32} {glyph : ℤ} {n : ℕ} {ch : UInt8}

theorem put_rows_told_result :
    (put_rows_told c fb x y color glyph n).result = .ok (put_rows c fb x y color glyph n) := by
  induction n with
  | zero => rfl
  | succ n ih =>
    rw [put_rows_told, Traced.result_bind, ih, put_rows]
    show (if x < x + 8 then _ else _ : Drawing Lfb).result = _
    by_cases hx : x < x + 8
    · rw [if_pos hx, if_pos hx]
      rfl
    · rw [if_neg hx, if_neg hx]
      rfl

theorem put_rows_told_deeds : (put_rows_told c fb x y color glyph n).deeds =
    if x < x + 8 then (List.range n).map fun i => .row (glyph + Int.ofNat i) x (y + UInt32.ofNat i) else [] := by
  induction n with
  | zero => simp [put_rows_told]
  | succ n ih =>
    rw [put_rows_told, Traced.deeds_bind_ok put_rows_told_result, ih]
    dsimp only
    by_cases hx : x < x + 8
    · rw [if_pos hx, if_pos hx, if_pos hx, List.range_succ, List.map_append]
      rfl
    · rw [if_neg hx, if_neg hx, if_neg hx]
      rfl

theorem putchar_told_result : (putchar_told c x y color ch).result = .ok (putchar c x y color ch) := by
  rw [putchar_told, Traced.result_bind, put_rows_told_result]
  rfl

/-- **What `putchar` reads and draws.** -/
theorem putchar_told_deeds : (putchar_told c x y color ch).deeds =
    if x < x + 8 ∧ y < y + 16 then (List.range 16).map fun i =>
      .row (ch.toInt8.toInt * Int.ofNat c.chsize.toNat + Int.ofNat i) x (y + UInt32.ofNat i)
    else [] := by
  rw [putchar_told, Traced.deeds_map, put_rows_told_deeds]
  by_cases hx : x < x + 8
  · by_cases hy : y < y + 16
    · simp [hx, hy]
    · simp [hx, hy]
  · simp [hx]

end Rows

section Init

variable {m m₁ m' : Mm} {ptr : ℕ} {f : Font} {h : FontHeader} {x y color : UInt32} {ch : UInt8}

/-- A file that is there lies in the last block. -/
theorem initrd_open_head {path : List UInt8} (hu : m.heap.Used m.heap.heap_tail)
    (ho : initrd_open m path = .ok (ptr, m₁)) (hptr : ptr ≠ 0) : ptr = DATA_START m₁.heap.heap_head := by
  obtain ⟨o, -, ho⟩ := bind_ok.1 ho
  cases o with
  | none =>
    obtain ⟨rfl, -⟩ := Prod.mk.inj (pure_ok.1 ho)
    exact absurd rfl hptr
  | some e =>
    obtain ⟨⟨buf, m₂⟩, hk, ho⟩ := bind_ok.1 ho
    dsimp only at ho
    split at ho
    next => cases ho
    next hb =>
      obtain ⟨rfl, rfl⟩ := Prod.mk.inj (pure_ok.1 ho)
      exact ((kmalloc_ok hu hk).2.resolve_left fun hz => hb hz.1).1

/-- **An accepted file**: one byte of its magic number is right; the size of the buffer follows from the mode;
and the header that `putchar` looks at is that of the file. -/
theorem init_font_ok (hu : m.heap.Used m.heap.heap_tail) (ho : initrd_open m FONT_PATH = .ok (ptr, m₁))
    (hi : init_font m = .ok (f, m')) :
    f.glyph_buffer_size = (read_font_header m₁.bytes ptr).glyph_buffer_size ∧
      read_font_header m'.bytes f.font_header = read_font_header m₁.bytes ptr := by
  obtain ⟨⟨p, m₂⟩, hopen, hi⟩ := bind_ok.1 hi
  obtain ⟨rfl, rfl⟩ := Prod.mk.inj (Except.ok.inj (ho.symm.trans hopen))
  dsimp only at hi
  split at hi
  next => cases hi
  next hptr =>
    obtain ⟨⟨fh, m₂⟩, hk, hi⟩ := bind_ok.1 hi
    dsimp only at hi
    split at hi
    next => cases hi
    next hfh =>
      have hu₁ := (initrd_open_ok hu ho).1.used hu
      obtain ⟨hg, hz | ⟨hfh', hle⟩⟩ := kmalloc_ok hu₁ hk
      · exact absurd hz.1 hfh
      have hptr' := initrd_open_head hu ho hptr
      -- the copy of the header lies above the file
      have hhead : read_font_header (copy_bytes m₂.bytes fh ptr 4) fh = read_font_header m₁.bytes ptr :=
        read_font_header_congr fun i hi => by
          rw [copy_bytes_inside (by simp only [DATA_START, KHEAP_BLOCK_SIZE] at *; omega) hi, kmalloc_bytes hk]
      rw [hhead] at hi
      split at hi
      next => cases hi
      next =>
        obtain ⟨⟨glyphs, m₃⟩, hk', hi⟩ := bind_ok.1 hi
        dsimp only at hi
        split at hi
        next => cases hi
        next hglyphs =>
          obtain ⟨rfl, rfl⟩ := Prod.mk.inj (pure_ok.1 hi)
          have hu₂ := hg.used hu₁
          obtain ⟨-, hz | ⟨hglyphs', hle'⟩⟩ := kmalloc_ok (by exact hu₂) hk'
          · exact absurd hz.1 hglyphs
          refine ⟨by rw [← hhead], Eq.trans (read_font_header_congr fun i hi => ?_) hhead⟩
          -- and the glyphs above the header
          dsimp only at hle' ⊢
          rw [copy_bytes_outside (.inl (by simp only [DATA_START, KHEAP_BLOCK_SIZE] at *; omega)), kmalloc_bytes hk']

/-- **The size of the buffer.** -/
theorem FontHeader.size_iff : h.glyph_buffer_size.toNat = h.chsize.toNat * h.glyphs ↔
    (h.mode &&& 1 = 1 → h.mode = 1 ∨ h.chsize = 0) := by
  have hc := h.chsize.toNat_lt
  have hmul : ∀ n : UInt64, n.toNat ≤ 512 → (h.chsize.toUInt64 * n).toNat = h.chsize.toNat * n.toNat := fun n hn => by
    rw [UInt64.toNat_mul, UInt8.toNat_toUInt64]
    exact Nat.mod_eq_of_lt (Nat.lt_of_le_of_lt (Nat.mul_le_mul (Nat.le_of_lt hc) hn) (by decide))
  unfold glyph_buffer_size glyphs
  by_cases h1 : h.mode = 1
  · rw [if_pos h1, h1, if_pos (by decide), hmul 512 (by decide)]
    exact iff_of_true rfl fun _ => .inl rfl
  · rw [if_neg h1, hmul 256 (by decide)]
    by_cases hm : h.mode &&& 1 = 1
    · rw [if_pos hm, show (256 : UInt64).toNat = 256 from rfl]
      constructor
      · intro he _
        exact .inr (UInt8.toNat_inj.1 (by rw [UInt8.toNat_zero]; omega))
      · intro he
        rw [(he hm).resolve_left h1]
        rfl
    · rw [if_neg hm]
      exact iff_of_true rfl fun h => absurd h hm

/-- A character as a signed number. -/
theorem signed_toInt (ch : UInt8) : ch.toInt8.toInt = if ch.toNat < 128 then (ch.toNat : ℤ) else ch.toNat - 256 := by
  have hb : ch.toInt8.toInt = ch.toBitVec.toInt := rfl
  rw [hb, BitVec.toInt_eq_toNat_cond]
  have ht : ch.toBitVec.toNat = ch.toNat := rfl
  rw [ht]
  split <;> split <;> omega

/-- A row of a glyph is in the buffer. -/
theorem glyph_lt {i : ℕ} (hi : i < h.chsize.toNat) : ch.toNat * h.chsize.toNat + i < h.chsize.toNat * h.glyphs := by
  have hch := ch.toNat_lt
  have hg : 256 ≤ h.glyphs := by
    unfold FontHeader.glyphs
    split <;> decide
  calc ch.toNat * h.chsize.toNat + i < ch.toNat * h.chsize.toNat + h.chsize.toNat := Nat.add_lt_add_left hi _
    _ = h.chsize.toNat * (ch.toNat + 1) := by rw [Nat.mul_comm, Nat.mul_succ]
    _ ≤ h.chsize.toNat * h.glyphs := Nat.mul_le_mul_left _ (Nat.le_trans hch hg)

/-- **The rows.** Those of sixteen bytes from the signed number on are the glyph's when it has sixteen, and the
number has no sign. -/
theorem rows_iff {c : Console} (x y color : UInt32) (ch : UInt8) (hc : c.chsize = h.chsize) :
    (putchar_told c x y color ch).deeds = h.glyph_rows x y ch ↔
      if x < x + 8 ∧ y < y + 16 then h.chsize = 16 ∧ ch < 0x80 else h.chsize = 0 := by
  rw [putchar_told_deeds, hc, FontHeader.glyph_rows]
  split
  · constructor
    · intro he
      have hlen := congrArg List.length he
      rw [List.length_map, List.length_map, List.length_range, List.length_range] at hlen
      have h16 : h.chsize = 16 := UInt8.toNat_inj.1 hlen.symm
      refine ⟨h16, ?_⟩
      rw [h16] at he
      have hfirst := (GlyphDeed.row.inj (List.map_inj_left.1 he 0 (List.mem_range.2 (by decide)))).1
      rw [signed_toInt] at hfirst
      rw [UInt8.lt_iff_toNat_lt]
      simp only [UInt8.reduceToNat, Int.ofNat_eq_natCast] at hfirst ⊢
      split at hfirst <;> omega
    · rintro ⟨h16, hlt⟩
      rw [UInt8.lt_iff_toNat_lt, show (0x80 : UInt8).toNat = 128 from rfl] at hlt
      rw [h16, signed_toInt, if_pos hlt]
      refine List.map_congr_left fun i _ => ?_
      rw [Int.ofNat_eq_natCast, Int.ofNat_eq_natCast, Int.ofNat_eq_natCast, Int.natCast_add, Int.natCast_mul]
  · rw [eq_comm, List.map_eq_nil_iff, List.range_eq_nil]
    exact ⟨fun h0 => UInt8.toNat_inj.1 h0, fun h0 => by rw [h0]; rfl⟩

/-- **For every accepted file**: a character is drawn right, in any place, if and only if the font suits it. -/
theorem font_right_iff (fb : Lfb) (hu : m.heap.Used m.heap.heap_tail) (ho : initrd_open m FONT_PATH = .ok (ptr, m₁))
    (hi : init_font m = .ok (f, m')) :
    FontRight (read_font_header m₁.bytes ptr) f x y ch (putchar_told (f.console m' fb) x y color ch).deeds ↔
      (read_font_header m₁.bytes ptr).Suits x y ch := by
  obtain ⟨hsize, hhead⟩ := init_font_ok hu ho hi
  have hrows := rows_iff (h := read_font_header m₁.bytes ptr) (c := f.console m' fb) x y color ch
    (congrArg FontHeader.chsize hhead)
  constructor
  · intro h
    exact ⟨h.magic, FontHeader.size_iff.1 (hsize ▸ h.size), hrows.1 h.rows⟩
  · intro h
    have hdeeds := hrows.2 h.glyph
    have hbuf := FontHeader.size_iff.2 h.mode
    rw [← hsize] at hbuf
    refine ⟨h.magic, hbuf, fun a x' y' ha => ?_, hdeeds⟩
    -- a row of the glyph is one of `chsize` rows, and the glyph one of at least 256
    rw [hdeeds] at ha
    obtain ⟨i, hi, he⟩ := List.mem_map.1 ha
    obtain ⟨rfl, -, -⟩ := GlyphDeed.row.inj he
    refine ⟨Int.natCast_nonneg _, Int.ofNat_lt.2 ?_⟩
    rw [hbuf]
    exact glyph_lt (List.mem_range.1 hi)

end Init

/-! ### A font -/

/-- Memory with a file that holds the header of a font of 256 glyphs of sixteen rows, as its name and its size
say. -/
def fontMm : Mm :=
  { bareMm with
    initrd := 0x100000
    module := fun a =>
      if 0x100200 ≤ a ∧ a < 0x10020F then FONT_PATH.getD (a - 0x100200).toNat 0
      else if 0x10027C ≤ a ∧ a < 0x100286 then 48
      else if a = 0x100286 then 52
      else if a = 0x100400 then PSF1_MAGIC0
      else if a = 0x100401 then PSF1_MAGIC1
      else if a = 0x100403 then 16
      else 0 }

/-- The file as it is opened, and the font as it is read, after `kheap_init`. -/
def fontLoads : Kern (ℕ × Mm) := do
  let m ← kheap_init fontMm
  let _ ← init_font m
  initrd_open m FONT_PATH

theorem fontMm_loads : ∃ (m m₁ m' : Mm) (ptr : ℕ) (f : Font), m.heap.Used m.heap.heap_tail ∧
    initrd_open m FONT_PATH = .ok (ptr, m₁) ∧
    init_font m = .ok (f, m') ∧ read_font_header m₁.bytes ptr = ⟨PSF1_MAGIC0, PSF1_MAGIC1, 0, 16⟩ := by
  have h : answers fontLoads (fun r => read_font_header r.2.bytes r.1 = ⟨PSF1_MAGIC0, PSF1_MAGIC1, 0, 16⟩) = true := by
    decide +kernel
  obtain ⟨⟨ptr, m₁⟩, ht, hb⟩ := answers_iff.1 h
  obtain ⟨m, hm, ht⟩ := bind_ok.1 ht
  obtain ⟨⟨f, m'⟩, hi, ho⟩ := bind_ok.1 ht
  exact ⟨m, m₁, m', ptr, f, (kheap_init_ok hm).1, ho, hi, of_decide_eq_true hb⟩

/-- The letter `A`. -/
theorem font_right_A : ∃ (m m₁ m' : Mm) (ptr : ℕ) (f : Font), init_font m = .ok (f, m') ∧
    FontRight (read_font_header m₁.bytes ptr) f 0 0 65 (putchar_told (f.console m' freshConsole.fb) 0 0 7 65).deeds := by
  obtain ⟨m, m₁, m', ptr, f, hu, ho, hi, hh⟩ := fontMm_loads
  refine ⟨m, m₁, m', ptr, f, hi, (font_right_iff _ hu ho hi).2 ?_⟩
  rw [hh]
  exact ⟨⟨rfl, rfl⟩, fun h => absurd h (by decide), by decide⟩

/-- The letter `é` of the code page: its byte is taken for `-23`, and the rows read lie before the buffer. -/
theorem not_font_right : ¬∀ (m m₁ m' : Mm) (ptr : ℕ) (f : Font) (fb : Lfb) (x y color : UInt32) (ch : UInt8),
    m.heap.Used m.heap.heap_tail → initrd_open m FONT_PATH = .ok (ptr, m₁) → init_font m = .ok (f, m') →
      FontRight (read_font_header m₁.bytes ptr) f x y ch (putchar_told (f.console m' fb) x y color ch).deeds := by
  intro h
  obtain ⟨m, m₁, m', ptr, f, hu, ho, hi, hh⟩ := fontMm_loads
  obtain ⟨hsize, hhead⟩ := init_font_ok hu ho hi
  have hrows := (h m m₁ m' ptr f freshConsole.fb 0 0 7 0xE9 hu ho hi).rows
  have hfit := (rows_iff 0 0 7 0xE9 (congrArg FontHeader.chsize hhead)).1 hrows
  rw [hh] at hfit
  exact absurd hfit (by decide)

end Iridium
