import Iridium.Proc.Proc

/-!
# The keyboard interrupt

`drivers/ps2/ps2keyboard.c`: one keystroke is kept in `last_keystroke` until it is
fetched, and process 1 is told by a signal.
-/

namespace Iridium

/-- `SC_ASCII`, with the zero byte at its end. -/
def SC_ASCII : List UInt8 :=
  [0x00, 0x1B] ++ "1234567890-=".toUTF8.toList ++ [0x08, 0x00] ++ "qwertyuiop[]".toUTF8.toList ++
    [0x0D, 0x1D] ++ "asdfghjkl;'\x60".toUTF8.toList ++ [0x00, 0x5C] ++ "zxcvbnm,./".toUTF8.toList ++
    [0x00, 0x00, 0x00, 0x20, 0x00]

/-- The test for a key that is reported. The third range is tested with a misplaced
parenthesis: the truth value of its first half is compared with `'9'`. -/
def reported (c : Int8) : Bool :=
  (c ≥ 0x61 && c ≤ 0x7A) || (c ≥ 0x41 && c ≤ 0x5A) ||
    ((if c ≥ 0x30 && c != 0 then 1 else 0 : Int32) ≤ 0x39) ||
    (c ≥ 0x21 && c ≤ 0x2E) || (c ≥ 0x5B && c ≤ 0x60)

/-- `pressed << 24 | character << 16 | scancode`, with `pressed` 1 and a signed character. -/
def keystroke_packet (character : Int8) (scancode : UInt16) : UInt32 :=
  ((1 : UInt32) <<< 24) ||| (character.toInt32.toUInt32 <<< 16) ||| scancode.toUInt32

/-- `irq1_isr`, with the byte read from port `0x60` and the byte of memory that a scancode
behind the end of `SC_ASCII` finds. -/
def irq1_isr (k : Kernel) (port beyond : UInt8) : Kern Kernel := do
  let scancode := port.toUInt16
  let character := (SC_ASCII.getD port.toNat beyond).toInt8
  if scancode &&& 0x80 ≠ 0 then return k
  if !reported character then return k
  if k.last_keystroke ≠ 0 then return k
  let (e, k) ← psignal_send { k with last_keystroke := keystroke_packet character scancode } 1 0x9961A7A
  if e = -EBUSY then return { k with last_keystroke := 0 }
  return k

/-- `ps2_fetch_keystroke`. -/
def ps2_fetch_keystroke (k : Kernel) : UInt32 × Kernel :=
  (k.last_keystroke, { k with last_keystroke := 0 })

end Iridium
