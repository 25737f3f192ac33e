import Iridium.Common.Errno
import Mathlib.Logic.Function.Basic
import Mathlib.Data.Int.Notation

/-!
# The framebuffer and the console font

`drivers/video/lfb.c` and the drawing half of `common/font.c`: pixels are 32-bit words of
the framebuffer, a character is sixteen rows of eight pixels, and `write_string` moves a
cursor that it keeps in two static variables.
-/

namespace Iridium

/-- The first framebuffer of the bootloader's answer. -/
structure Lfb where
  width : UInt64
  height : UInt64
  pitch : UInt64
  /-- The words of the buffer. -/
  pixels : UInt64 → UInt32

namespace Lfb

/-- `get_pixel_index`. -/
def get_pixel_index (fb : Lfb) (x y : UInt32) : UInt64 := x.toUInt64 + y.toUInt64 * (fb.pitch / 4)

/-- A pixel written, visible or not. -/
def draw (fb : Lfb) (x y color : UInt32) : Lfb :=
  { fb with pixels := Function.update fb.pixels (fb.get_pixel_index x y) color }

end Lfb

/-- `lfb_put_pixel`. -/
def lfb_put_pixel (fb : Lfb) (x y color : UInt32) : Lfb :=
  if x.toUInt64 > fb.width - 1 ∨ y.toUInt64 > fb.height - 1 then fb else fb.draw x y color

/-- The inner loop of `lfb_clear_screen`: the first `n` pixels of row `y`. -/
def lfb_clear_row (fb : Lfb) (y color : UInt32) : ℕ → Lfb
  | 0 => fb
  | n + 1 => (lfb_clear_row fb y color n).draw (UInt32.ofNat n) y color

/-- The outer loop: the first `n` rows. -/
def lfb_clear_rows (fb : Lfb) (color : UInt32) : ℕ → Lfb
  | 0 => fb
  | n + 1 => lfb_clear_row (lfb_clear_rows fb color n) (UInt32.ofNat n) color fb.width.toNat

/-- `lfb_clear_screen`. A 32-bit counter never reaches a larger bound. -/
def lfb_clear_screen (fb : Lfb) (color : UInt32) : Kern Lfb :=
  if fb.height.toNat ≥ 2 ^ 32 ∨ (fb.height ≠ 0 ∧ fb.width.toNat ≥ 2 ^ 32) then .error .endless
  else .ok (lfb_clear_rows fb color fb.height.toNat)

/-- The console: the framebuffer, the font and the cursor of `write_string`. -/
structure Console where
  fb : Lfb
  /-- `font_header->chsize`. -/
  chsize : UInt8
  /-- The bytes around the glyph buffer `font`. -/
  font : ℤ → UInt8
  x : UInt32
  y : UInt32

/-- One row of a glyph: the pixels whose bit is set, from the leftmost on. -/
def put_row (fb : Lfb) (x cy color : UInt32) (row : UInt8) : ℕ → Lfb
  | 0 => fb
  | n + 1 =>
    let fb := put_row fb x cy color row n
    if row &&& (0x80 >>> UInt8.ofNat n) > 0 then lfb_put_pixel fb (x + UInt32.ofNat n) cy color else fb

/-- The rows of a glyph from the byte at `glyph` on. -/
def put_rows (c : Console) (fb : Lfb) (x y color : UInt32) (glyph : ℤ) : ℕ → Lfb
  | 0 => fb
  | n + 1 =>
    let fb := put_rows c fb x y color glyph n
    let stop : UInt32 := x + 8
    put_row fb x (y + UInt32.ofNat n) color (c.font (glyph + Int.ofNat n)) (if x < stop then 8 else 0)

/-- `putchar`. The ends of its loops are 32-bit sums. -/
def putchar (c : Console) (x y color : UInt32) (ch : UInt8) : Console :=
  let stop : UInt32 := y + 16
  { c with fb := put_rows c c.fb x y color (ch.toInt8.toInt * Int.ofNat c.chsize.toNat) (if y < stop then 16 else 0) }

/-- `write_string`. -/
def write_string (c : Console) (color : UInt32) : List UInt8 → Kern Console
  | [] => .ok c
  | ch :: string =>
    if ch = 0x0A then write_string { c with y := c.y + 16, x := 0 } color string
    else do
      let c := putchar c c.x c.y color ch
      let c := { c with x := c.x + 8 }
      let c := if c.x.toUInt64 ≥ c.fb.width - 1 then { c with y := c.y + 16, x := 0 } else c
      if c.x.toUInt64 ≥ c.fb.height - 1 then do
        let fb ← lfb_clear_screen c.fb 0x000000
        write_string { c with fb } color string
      else write_string c color string

end Iridium
