import Iridium.Drivers.Video
import Mathlib.Tactic.Ring

/-!
# The pixels of the framebuffer

A visible pixel is a word of its own in the buffer, as long as the buffer has addresses: `lfb_put_pixel` writes this
word or none, and `lfb_clear_screen` the words of all visible pixels (`pixels_exact`). The index of a pixel is a
64-bit sum, which wraps for a buffer of more than `2^64` bytes (`not_pixels_exact`).
-/

namespace Iridium

namespace Lfb

/-- The pixel is on the screen. -/
def Visible (fb : Lfb) (x y : UInt32) : Prop := x.toNat < fb.width.toNat ∧ y.toNat < fb.height.toNat

instance (fb : Lfb) (x y : UInt32) : Decidable (fb.Visible x y) := inferInstanceAs (Decidable (_ ∧ _))

/-- The size of a screen: at least one pixel, fewer than `2^32` columns and rows, and rows of whole words that
hold the pixels of one. -/
structure WellSized (fb : Lfb) : Prop where
  width_pos : 1 ≤ fb.width.toNat
  width_lt : fb.width.toNat < 2 ^ 32
  height_pos : 1 ≤ fb.height.toNat
  height_lt : fb.height.toNat < 2 ^ 32
  pitch_dvd : fb.pitch.toNat % 4 = 0
  pitch_le : 4 * fb.width.toNat ≤ fb.pitch.toNat

/-- The two framebuffers differ in their words only. -/
structure SameShape (fb fb' : Lfb) : Prop where
  width : fb'.width = fb.width
  height : fb'.height = fb.height
  pitch : fb'.pitch = fb.pitch

end Lfb

/-- **Pixels are drawn where they belong.** -/
structure PixelsExact (fb : Lfb) : Prop where
  /-- Outside the screen nothing is written. -/
  clip : ∀ x y color, ¬fb.Visible x y → lfb_put_pixel fb x y color = fb
  /-- On the screen one word is. -/
  put : ∀ x y color, fb.Visible x y → fb.SameShape (lfb_put_pixel fb x y color) ∧
    ∀ i, (lfb_put_pixel fb x y color).pixels i = if i = fb.get_pixel_index x y then color else fb.pixels i
  /-- It lies in the buffer. -/
  inside : ∀ x y, fb.Visible x y → 4 * (fb.get_pixel_index x y).toNat + 4 ≤ fb.height.toNat * fb.pitch.toNat
  /-- Two pixels are two words. -/
  distinct : ∀ x y x' y', fb.Visible x y → fb.Visible x' y' →
    fb.get_pixel_index x y = fb.get_pixel_index x' y' → x = x' ∧ y = y'
  /-- The words of the pixels are those that are cleared. -/
  clear : ∀ color, ∃ fb', lfb_clear_screen fb color = .ok fb' ∧ fb.SameShape fb' ∧
    (∀ x y, fb.Visible x y → fb'.pixels (fb.get_pixel_index x y) = color) ∧
    ∀ i, (∀ x y, fb.Visible x y → i ≠ fb.get_pixel_index x y) → fb'.pixels i = fb.pixels i

section Pixels

variable {fb : Lfb} {x y x' y' color : UInt32} {n : ℕ} {i : UInt64}

/-- **The index** does not wrap. -/
theorem Lfb.WellSized.index (h : fb.WellSized) (hfit : fb.height.toNat * fb.pitch.toNat ≤ 2 ^ 64)
    (hv : fb.Visible x y) : (fb.get_pixel_index x y).toNat = x.toNat + y.toNat * (fb.pitch.toNat / 4) ∧
      4 * (x.toNat + y.toNat * (fb.pitch.toNat / 4)) + 4 ≤ fb.height.toNat * fb.pitch.toNat := by
  obtain ⟨q, hq⟩ : ∃ q, fb.pitch.toNat = 4 * q := ⟨fb.pitch.toNat / 4, by have := h.pitch_dvd; omega⟩
  have hdiv : fb.pitch.toNat / 4 = q := by omega
  have hx : x.toNat + 1 ≤ q := by
    have := h.pitch_le
    have := hv.1
    omega
  have hin : 4 * (x.toNat + y.toNat * q) + 4 ≤ fb.height.toNat * fb.pitch.toNat :=
    calc 4 * (x.toNat + y.toNat * q) + 4 = 4 * (x.toNat + 1) + y.toNat * (4 * q) := by ring
      _ ≤ 4 * q + y.toNat * (4 * q) := Nat.add_le_add_right (Nat.mul_le_mul_left 4 hx) _
      _ = (y.toNat + 1) * (4 * q) := by ring
      _ ≤ fb.height.toNat * (4 * q) := Nat.mul_le_mul_right _ hv.2
      _ = fb.height.toNat * fb.pitch.toNat := by rw [hq]
  rw [hdiv]
  refine ⟨?_, hin⟩
  have hmul : y.toNat * q < 2 ^ 64 := by omega
  rw [get_pixel_index, UInt64.toNat_add, UInt64.toNat_mul, UInt64.toNat_div, UInt32.toNat_toUInt64,
    UInt32.toNat_toUInt64, show (4 : UInt64).toNat = 4 from rfl, hdiv, Nat.mod_eq_of_lt hmul]
  exact Nat.mod_eq_of_lt (by omega)

/-- **Two pixels** are two words. -/
theorem Lfb.WellSized.distinct (h : fb.WellSized) (hfit : fb.height.toNat * fb.pitch.toNat ≤ 2 ^ 64)
    (hv : fb.Visible x y) (hv' : fb.Visible x' y') (he : fb.get_pixel_index x y = fb.get_pixel_index x' y') :
    x = x' ∧ y = y' := by
  have hi := congrArg UInt64.toNat he
  rw [(h.index hfit hv).1, (h.index hfit hv').1] at hi
  have hq : fb.width.toNat ≤ fb.pitch.toNat / 4 := by
    have := h.pitch_le
    omega
  have hx := Nat.lt_of_lt_of_le hv.1 hq
  have hx' := Nat.lt_of_lt_of_le hv'.1 hq
  -- column and row are remainder and quotient of the index
  have hcol := congrArg (· % (fb.pitch.toNat / 4)) hi
  have hrow := congrArg (· / (fb.pitch.toNat / 4)) hi
  simp only [Nat.add_mul_mod_self_right, Nat.mod_eq_of_lt hx, Nat.mod_eq_of_lt hx'] at hcol
  simp only [Nat.add_mul_div_right _ _ (Nat.zero_lt_of_lt hx), Nat.div_eq_of_lt hx, Nat.div_eq_of_lt hx',
    Nat.zero_add] at hrow
  exact ⟨UInt32.toNat_inj.1 hcol, UInt32.toNat_inj.1 hrow⟩

/-- The clipping test of `lfb_put_pixel`. -/
theorem Lfb.WellSized.clips_iff (h : fb.WellSized) :
    (x.toUInt64 > fb.width - 1 ∨ y.toUInt64 > fb.height - 1) ↔ ¬fb.Visible x y := by
  have hw := h.width_pos
  have hh := h.height_pos
  have hw' := fb.width.toNat_lt
  have hh' := fb.height.toNat_lt
  rw [Visible, gt_iff_lt, gt_iff_lt, UInt64.lt_iff_toNat_lt, UInt64.lt_iff_toNat_lt, UInt64.toNat_sub,
    UInt64.toNat_sub, UInt32.toNat_toUInt64, UInt32.toNat_toUInt64, show (1 : UInt64).toNat = 1 from rfl]
  omega

theorem Lfb.sameShape_draw (fb : Lfb) (x y color : UInt32) : fb.SameShape (fb.draw x y color) := ⟨rfl, rfl, rfl⟩

theorem Lfb.SameShape.trans {a b c : Lfb} (h₁ : a.SameShape b) (h₂ : b.SameShape c) : a.SameShape c :=
  ⟨h₂.width.trans h₁.width, h₂.height.trans h₁.height, h₂.pitch.trans h₁.pitch⟩

theorem Lfb.SameShape.index {fb' : Lfb} (h : fb.SameShape fb') (x y : UInt32) :
    fb'.get_pixel_index x y = fb.get_pixel_index x y := by
  rw [get_pixel_index, get_pixel_index, h.pitch]

theorem Lfb.draw_pixels (fb : Lfb) (x y color : UInt32) (i : UInt64) :
    (fb.draw x y color).pixels i = if i = fb.get_pixel_index x y then color else fb.pixels i :=
  Function.update_apply _ _ _ _

theorem lfb_clear_row_sameShape : fb.SameShape (lfb_clear_row fb y color n) := by
  induction n with
  | zero => exact ⟨rfl, rfl, rfl⟩
  | succ n ih => exact ih.trans (Lfb.sameShape_draw _ _ _ _)

/-- **A row** is cleared. -/
theorem lfb_clear_row_pixels : (lfb_clear_row fb y color n).pixels i =
    if ∃ k < n, i = fb.get_pixel_index (UInt32.ofNat k) y then color else fb.pixels i := by
  induction n with
  | zero => simp [lfb_clear_row]
  | succ n ih =>
    rw [lfb_clear_row, Lfb.draw_pixels, lfb_clear_row_sameShape.index, ih]
    simp only [Nat.exists_lt_succ_right]
    by_cases hlast : i = fb.get_pixel_index (UInt32.ofNat n) y
    · rw [if_pos hlast, if_pos (.inr hlast)]
    · simp [hlast]

theorem lfb_clear_rows_sameShape : fb.SameShape (lfb_clear_rows fb color n) := by
  induction n with
  | zero => exact ⟨rfl, rfl, rfl⟩
  | succ n ih => exact ih.trans lfb_clear_row_sameShape

/-- **All rows** are. -/
theorem lfb_clear_rows_pixels : (lfb_clear_rows fb color n).pixels i =
    if ∃ r < n, ∃ k < fb.width.toNat, i = fb.get_pixel_index (UInt32.ofNat k) (UInt32.ofNat r) then color
    else fb.pixels i := by
  induction n with
  | zero => simp [lfb_clear_rows]
  | succ n ih =>
    rw [lfb_clear_rows, lfb_clear_row_pixels, ih]
    simp only [lfb_clear_rows_sameShape.index, Nat.exists_lt_succ_right]
    by_cases hlast : ∃ k < fb.width.toNat, i = fb.get_pixel_index (UInt32.ofNat k) (UInt32.ofNat n)
    · rw [if_pos hlast, if_pos (.inr hlast)]
    · simp [hlast]

/-- The pixels of the loops are the visible ones. -/
theorem Lfb.WellSized.loops_iff (h : fb.WellSized) {P : UInt32 → UInt32 → Prop} :
    (∃ r < fb.height.toNat, ∃ k < fb.width.toNat, P (UInt32.ofNat k) (UInt32.ofNat r)) ↔
      ∃ x y, fb.Visible x y ∧ P x y := by
  constructor
  · rintro ⟨r, hr, k, hk, hP⟩
    refine ⟨_, _, ⟨?_, ?_⟩, hP⟩
    · rwa [UInt32.toNat_ofNat', Nat.mod_eq_of_lt (Nat.lt_trans hk h.width_lt)]
    · rwa [UInt32.toNat_ofNat', Nat.mod_eq_of_lt (Nat.lt_trans hr h.height_lt)]
  · rintro ⟨x, y, hv, hP⟩
    exact ⟨y.toNat, hv.2, x.toNat, hv.1, by rwa [UInt32.ofNat_toNat, UInt32.ofNat_toNat]⟩

end Pixels

/-- **For every screen** whose buffer has addresses, pixels are drawn where they belong. -/
theorem pixels_exact {fb : Lfb} (h : fb.WellSized) (hfit : fb.height.toNat * fb.pitch.toNat ≤ 2 ^ 64) :
    PixelsExact fb := by
  refine ⟨fun x y color hv => if_pos (h.clips_iff.2 hv), fun x y color hv => ?_, fun x y hv => ?_,
    fun x y x' y' => h.distinct hfit, fun color => ?_⟩
  · rw [lfb_put_pixel, if_neg (mt h.clips_iff.1 (not_not_intro hv))]
    exact ⟨fb.sameShape_draw x y color, fb.draw_pixels x y color⟩
  · obtain ⟨hi, hin⟩ := h.index hfit hv
    rwa [hi]
  · have hends : ¬(fb.height.toNat ≥ 2 ^ 32 ∨ (fb.height ≠ 0 ∧ fb.width.toNat ≥ 2 ^ 32)) := by
      rintro (hh | ⟨-, hw⟩)
      · exact Nat.not_lt.2 hh h.height_lt
      · exact Nat.not_lt.2 hw h.width_lt
    refine ⟨_, if_neg hends, lfb_clear_rows_sameShape, fun x y hv => ?_, fun i hi => ?_⟩
    · rw [lfb_clear_rows_pixels]
      exact if_pos ((h.loops_iff (P := fun x' y' => fb.get_pixel_index x y = fb.get_pixel_index x' y')).2
        ⟨x, y, hv, rfl⟩)
    · rw [lfb_clear_rows_pixels]
      refine if_neg fun hex => ?_
      obtain ⟨x, y, hv, he⟩ := (h.loops_iff (P := fun x y => i = fb.get_pixel_index x y)).1 hex
      exact hi x y hv he

/-- A screen of `640 × 480`. -/
theorem pixels_exact_vga : PixelsExact ⟨640, 480, 2560, fun _ => 0⟩ :=
  pixels_exact ⟨by decide, by decide, by decide, by decide, by decide, by decide⟩ (by decide)

/-- With rows of `2^63` bytes, the first pixel of the ninth row is the first pixel of the first. -/
theorem not_pixels_exact : ¬∀ fb : Lfb, fb.WellSized → PixelsExact fb := by
  intro h
  have hexact := h ⟨1, 9, 0x8000000000000000, fun _ => 0⟩
    ⟨by decide, by decide, by decide, by decide, by decide, by decide⟩
  have hsame := hexact.distinct 0 0 0 8 (by decide) (by decide) (by decide)
  exact absurd hsame.2 (by decide)

end Iridium
