import Iridium.Drivers.Keyboard

/-!
# The keystroke packet

A packet is put together by the keyboard driver and taken apart by the macros of `sys/key.h`, in
`libiridium`. The scancode and the character come back; what should say whether the key is pressed is the
lowest bit of the scancode (`unpacks_iff`), since `>>` binds tighter than `&`.
-/

namespace Iridium

/-- The packet of the driver, `pressed << 24 | character << 16 | scancode`, with a `char` that is signed. -/
def packet_of (pressed : Bool) (character : Int8) (scancode : UInt16) : UInt32 :=
  ((if pressed then 1 else 0 : UInt32) <<< 24) ||| (character.toInt32.toUInt32 <<< 16) ||| scancode.toUInt32

/-- What the driver stores is the packet of a key that is pressed. -/
theorem keystroke_packet_eq (character : Int8) (scancode : UInt16) :
    keystroke_packet character scancode = packet_of true character scancode := rfl

def KEYSTROKE_EXTRACT_SCANCODE (keystroke_payload : UInt32) : UInt32 := keystroke_payload &&& 0xFFFF

def KEYSTROKE_EXTRACT_CHARACTER (keystroke_payload : UInt32) : UInt32 := (keystroke_payload >>> 16) &&& 0xFF

/-- `(keystroke_payload & (1 << 24) >> 24)`, as it is parsed. -/
def KEYSTROKE_EXTRACT_PRESSED (keystroke_payload : UInt32) : UInt32 :=
  keystroke_payload &&& (((1 : UInt32) <<< 24) >>> 24)

/-- **The fields come back.** -/
structure Unpacks (pressed : Bool) (character : Int8) (scancode : UInt16) : Prop where
  scancode_back : KEYSTROKE_EXTRACT_SCANCODE (packet_of pressed character scancode) = scancode.toUInt32
  character_back : KEYSTROKE_EXTRACT_CHARACTER (packet_of pressed character scancode) = character.toUInt8.toUInt32
  pressed_back : KEYSTROKE_EXTRACT_PRESSED (packet_of pressed character scancode) = if pressed then 1 else 0

section Packet

variable {pressed : Bool} {character : Int8} {scancode : UInt16}

/-- A packet as a number: the three fields one above the other. -/
theorem packet_toNat : (packet_of pressed character scancode).toNat =
    (if pressed then 1 else 0) * 2 ^ 24 ||| character.toInt32.toUInt32.toNat * 2 ^ 16 % 2 ^ 32 ||| scancode.toNat := by
  rw [packet_of, UInt32.toNat_or, UInt32.toNat_or, UInt32.toNat_shiftLeft, UInt32.toNat_shiftLeft,
    Nat.shiftLeft_eq, Nat.shiftLeft_eq]
  cases pressed <;> rfl

theorem packet_scancode : (packet_of pressed character scancode).toNat % 2 ^ 16 = scancode.toNat := by
  have := scancode.toNat_lt
  have h₁ : (if pressed then 1 else 0) * 2 ^ 24 % 2 ^ 16 = 0 := by cases pressed <;> rfl
  have h₂ : character.toInt32.toUInt32.toNat * 2 ^ 16 % 2 ^ 32 % 2 ^ 16 = 0 := by omega
  rw [packet_toNat, Nat.or_mod_two_pow, Nat.or_mod_two_pow, h₁, h₂, Nat.zero_or, Nat.zero_or, Nat.mod_eq_of_lt this]

theorem packet_character : (packet_of pressed character scancode).toNat / 2 ^ 16 % 2 ^ 8 = character.toUInt8.toNat := by
  have := scancode.toNat_lt
  have h₁ : (if pressed then 1 else 0) * 2 ^ 24 / 2 ^ 16 % 2 ^ 8 = 0 := by cases pressed <;> rfl
  have h₂ : character.toInt32.toUInt32.toNat * 2 ^ 16 % 2 ^ 32 / 2 ^ 16 % 2 ^ 8 =
      character.toInt32.toUInt32.toNat % 2 ^ 8 := by omega
  have h₃ : scancode.toNat / 2 ^ 16 = 0 := Nat.div_eq_of_lt this
  -- the sign is above the character
  have hsign : character.toInt32.toUInt32.toNat % 2 ^ 8 = character.toUInt8.toNat := by
    show (BitVec.signExtend 32 character.toBitVec).toNat % 2 ^ 8 = character.toBitVec.toNat
    rw [BitVec.toNat_signExtend, BitVec.toNat_setWidth]
    have := character.toBitVec.isLt
    split <;> omega
  rw [packet_toNat, Nat.or_div_two_pow, Nat.or_div_two_pow, Nat.or_mod_two_pow, Nat.or_mod_two_pow, h₁, h₂, h₃,
    Nat.zero_or, hsign]
  exact Nat.or_zero _

/-- What is taken for the key being pressed. -/
theorem packet_pressed :
    KEYSTROKE_EXTRACT_PRESSED (packet_of pressed character scancode) = (scancode &&& 1).toUInt32 := by
  apply UInt32.toNat_inj.1
  rw [KEYSTROKE_EXTRACT_PRESSED, UInt32.toNat_and, UInt16.toNat_toUInt32, UInt16.toNat_and]
  show (packet_of pressed character scancode).toNat &&& 1 = scancode.toNat &&& 1
  rw [Nat.and_one_is_mod, Nat.and_one_is_mod, ← @packet_scancode pressed character scancode]
  omega

end Packet

/-- **For every key**: its three fields come back if and only if the bit that says whether it is pressed is
the lowest of its scancode. -/
theorem unpacks_iff (pressed : Bool) (character : Int8) (scancode : UInt16) :
    Unpacks pressed character scancode ↔ scancode &&& 1 = if pressed then 1 else 0 := by
  have hbit : (scancode &&& 1).toUInt32 = (if pressed then 1 else 0) ↔ scancode &&& 1 = if pressed then 1 else 0 := by
    rw [← UInt32.toNat_inj, ← UInt16.toNat_inj, UInt16.toNat_toUInt32]
    cases pressed <;> rfl
  constructor
  · intro h
    rw [← hbit, ← packet_pressed]
    exact h.pressed_back
  · intro h
    refine ⟨?_, ?_, ?_⟩
    · apply UInt32.toNat_inj.1
      rw [KEYSTROKE_EXTRACT_SCANCODE, UInt32.toNat_and, UInt16.toNat_toUInt32,
        ← @packet_scancode pressed character scancode]
      exact Nat.and_two_pow_sub_one_eq_mod _ 16
    · apply UInt32.toNat_inj.1
      rw [KEYSTROKE_EXTRACT_CHARACTER, UInt32.toNat_and, UInt32.toNat_shiftRight, Nat.shiftRight_eq_div_pow,
        UInt8.toNat_toUInt32, ← @packet_character pressed character scancode]
      exact Nat.and_two_pow_sub_one_eq_mod _ 8
    · rw [packet_pressed]
      exact hbit.2 h

/-- The key `a` is pressed. -/
theorem not_unpacks : ¬∀ pressed character scancode, Unpacks pressed character scancode := fun h =>
  absurd ((unpacks_iff true 0x61 30).1 (h _ _ _)) (by decide)

end Iridium
