import Iridium.Drivers.Video
import Iridium.Lib.Traced

/-!
# Text on the screen

`write_string` again, which now tells where it draws characters, when it clears the screen, and where it goes
on. Its cursor is a place in a text of rows and columns (`Place`): it moves as the text is laid out, whatever
the screen's height. The test for the bottom of the screen looks at the column instead of the row, and
the cursor stays where it was when the screen is cleared; so the screen is right as long as the
text keeps off the bottom and its lines are shorter than the screen is high (`screen_right_iff`).
-/

namespace Iridium

open Lib

/-- What `write_string` does. -/
inductive ScreenDeed where
  /-- A character is drawn with its upper left corner here. -/
  | char (x y : UInt32)
  /-- The screen is cleared while the cursor is here. -/
  | clear (x y : UInt32)
  /-- The screen is clear, and the cursor is here. -/
  | restart (x y : UInt32)
  deriving DecidableEq

/-- Writing that tells what it does. -/
abbrev Writer (α : Type) := Traced ScreenDeed Halt α

/-- `write_string`. -/
def write_string_told (c : Console) (color : UInt32) : List UInt8 → Writer Console
  | [] => pure c
  | ch :: string =>
    if ch = 0x0A then write_string_told { c with y := c.y + 16, x := 0 } color string
    else do
      Traced.tell (.char c.x c.y)
      let c := putchar c c.x c.y color ch
      let c := { c with x := c.x + 8 }
      let c := if c.x.toUInt64 ≥ c.fb.width - 1 then { c with y := c.y + 16, x := 0 } else c
      if c.x.toUInt64 ≥ c.fb.height - 1 then do
        Traced.tell (.clear c.x c.y)
        let fb ← Traced.lift (lfb_clear_screen c.fb 0x000000)
        Traced.tell (.restart c.x c.y)
        write_string_told { c with fb } color string
      else write_string_told c color string

/-- A sequence of calls, each with its color. -/
def write_strings_told (c : Console) : List (UInt32 × List UInt8) → Writer Console
  | [] => pure c
  | (color, string) :: calls => do
    let c ← write_string_told c color string
    write_strings_told c calls

/-- **The screen of this height is right**: no character is drawn below it, it is cleared when the next line of
text does not fit on it, and then goes on at the top left. -/
def ScreenRight (height : ℕ) : List ScreenDeed → Prop
  | [] => True
  | .char _ y :: ds => y.toNat < height ∧ ScreenRight height ds
  | .clear _ y :: ds => height < y.toNat + 16 ∧ ds.head? = some (.restart 0 0) ∧ ScreenRight height ds
  | .restart _ _ :: ds => ScreenRight height ds

/-! ### The layout of a text -/

/-- A place in a text. -/
structure Place where
  row : ℕ
  col : ℕ

namespace Place

/-- The beginning of the next line. -/
def feed (p : Place) : Place := ⟨p.row + 1, 0⟩

/-- The next place, in lines of so many columns if they end at all. -/
def next (columns : Option ℕ) (p : Place) : Place :=
  if columns = some (p.col + 1) then p.feed else ⟨p.row, p.col + 1⟩

/-- The place behind a text. -/
def behind (columns : Option ℕ) : Place → List UInt8 → Place
  | p, [] => p
  | p, ch :: text => if ch = 0x0A then p.feed.behind columns text else (p.next columns).behind columns text

/-- The places of the characters of a text. -/
def printed (columns : Option ℕ) : Place → List UInt8 → List Place
  | _, [] => []
  | p, ch :: text =>
    if ch = 0x0A then p.feed.printed columns text else p :: (p.next columns).printed columns text

end Place

/-- The characters in a line of a screen. The lines of a screen wider than any cursor do not end, nor do
those of one without pixels. -/
def columns (width : ℕ) : Option ℕ := if 1 ≤ width ∧ width ≤ 2 ^ 32 - 7 then some ((width - 2) / 8 + 1) else none

/-- A character at `p` is on the screen, and the cursor behind it is not as far to the right as the screen
is high. -/
structure Place.Fits (width height : ℕ) (p : Place) : Prop where
  row : 16 * p.row % 2 ^ 32 < height
  col : 8 * (p.next (columns width)).col % 2 ^ 32 + 1 < height

/-- **The text fits the screen**, from the top left on. -/
def TextFits (width height : ℕ) (text : List UInt8) : Prop :=
  ∀ p ∈ Place.printed (columns width) ⟨0, 0⟩ text, p.Fits width height

instance Place.decidableFits (width height : ℕ) (p : Place) : Decidable (p.Fits width height) :=
  decidable_of_iff (16 * p.row % 2 ^ 32 < height ∧ 8 * (p.next (columns width)).col % 2 ^ 32 + 1 < height)
    ⟨fun h => ⟨h.1, h.2⟩, fun h => ⟨h.row, h.col⟩⟩

instance (width height : ℕ) (text : List UInt8) : Decidable (TextFits width height text) :=
  inferInstanceAs (Decidable (∀ p ∈ _, _))

section Layout

variable {cs : Option ℕ} {p : Place}

theorem Place.printed_append (s t : List UInt8) :
    p.printed cs (s ++ t) = p.printed cs s ++ (p.behind cs s).printed cs t := by
  induction s generalizing p with
  | nil => rfl
  | cons ch s ih =>
    rw [List.cons_append, printed, printed, behind, ih, ih]
    split <;> rfl

end Layout

/-! ### The cursor -/

section Cursor

variable {c : Console} {p : Place} {color : UInt32} {ch : UInt8} {string : List UInt8}

/-- The two framebuffers are of one size. -/
def Lfb.SameSize (fb fb' : Lfb) : Prop := fb'.width = fb.width ∧ fb'.height = fb.height

theorem Lfb.SameSize.trans {a b d : Lfb} (h₁ : a.SameSize b) (h₂ : b.SameSize d) : a.SameSize d :=
  ⟨h₂.1.trans h₁.1, h₂.2.trans h₁.2⟩

theorem lfb_put_pixel_sameSize (fb : Lfb) (x y color : UInt32) : fb.SameSize (lfb_put_pixel fb x y color) := by
  unfold lfb_put_pixel
  split <;> exact ⟨rfl, rfl⟩

theorem put_row_sameSize (fb : Lfb) (x cy color : UInt32) (row : UInt8) (n : ℕ) :
    fb.SameSize (put_row fb x cy color row n) := by
  induction n with
  | zero => exact ⟨rfl, rfl⟩
  | succ n ih =>
    unfold put_row
    split
    · exact ih.trans (lfb_put_pixel_sameSize _ _ _ _)
    · exact ih

theorem put_rows_sameSize (c : Console) (fb : Lfb) (x y color : UInt32) (glyph : ℤ) (n : ℕ) :
    fb.SameSize (put_rows c fb x y color glyph n) := by
  induction n with
  | zero => exact ⟨rfl, rfl⟩
  | succ n ih => exact ih.trans (put_row_sameSize _ _ _ _ _ _)

/-- The console behind a character. -/
def Console.typed (c : Console) (color : UInt32) (ch : UInt8) : Console :=
  let c := putchar c c.x c.y color ch
  let c := { c with x := c.x + 8 }
  if c.x.toUInt64 ≥ c.fb.width - 1 then { c with y := c.y + 16, x := 0 } else c

/-- The line ends behind the next character. -/
def Console.LineEnds (c : Console) : Prop := (c.x + 8).toUInt64 ≥ c.fb.width - 1

instance (c : Console) : Decidable c.LineEnds := inferInstanceAs (Decidable (_ ≥ _))

theorem Console.typed_eq (c : Console) (color : UInt32) (ch : UInt8) : c.typed color ch =
    if c.LineEnds then { putchar c c.x c.y color ch with y := c.y + 16, x := 0 }
    else { putchar c c.x c.y color ch with x := c.x + 8 } := by
  have hw : (putchar c c.x c.y color ch).fb.width = c.fb.width := (put_rows_sameSize _ _ _ _ _ _ _).1
  have h : c.LineEnds ↔ (c.x + 8).toUInt64 ≥ (putchar c c.x c.y color ch).fb.width - 1 := by rw [LineEnds, hw]
  by_cases hl : c.LineEnds
  · rw [if_pos hl]
    exact if_pos (h.1 hl)
  · rw [if_neg hl]
    exact if_neg fun hn => hl (h.2 hn)

theorem Console.typed_sameSize (c : Console) (color : UInt32) (ch : UInt8) : c.fb.SameSize (c.typed color ch).fb := by
  have h : c.fb.SameSize (putchar c c.x c.y color ch).fb := put_rows_sameSize _ _ _ _ _ _ _
  rw [typed_eq]
  split <;> exact h

theorem Console.typed_x (c : Console) (color : UInt32) (ch : UInt8) :
    (c.typed color ch).x = if c.LineEnds then 0 else c.x + 8 := by
  rw [typed_eq]
  split <;> rfl

theorem Console.typed_y (c : Console) (color : UInt32) (ch : UInt8) :
    (c.typed color ch).y = if c.LineEnds then c.y + 16 else c.y := by
  rw [typed_eq]
  split <;> rfl

/-- **The cursor is at a place** of the text. -/
structure Console.At (c : Console) (p : Place) : Prop where
  x : c.x.toNat = 8 * p.col % 2 ^ 32
  y : c.y.toNat = 16 * p.row % 2 ^ 32
  inside : ∀ n, columns c.fb.width.toNat = some n → p.col < n

theorem columns_pos {w n : ℕ} (h : columns w = some n) : 0 < n := by
  unfold columns at h
  split at h
  · rw [← Option.some.inj h]
    exact Nat.succ_pos _
  · cases h

/-- The next column, as the cursor has it. -/
theorem Console.At.x_add (h : c.At p) : (c.x + 8).toNat = 8 * (p.col + 1) % 2 ^ 32 := by
  rw [UInt32.toNat_add, h.x, show (8 : UInt32).toNat = 8 from rfl]
  omega

theorem Console.At.y_add (h : c.At p) : (c.y + 16).toNat = 16 * (p.row + 1) % 2 ^ 32 := by
  rw [UInt32.toNat_add, h.y, show (16 : UInt32).toNat = 16 from rfl]
  omega

/-- The bound of a test against a width or a height. -/
theorem pred_le_iff {v : UInt64} {n : UInt32} : n.toUInt64 ≥ v - 1 ↔ v ≠ 0 ∧ v.toNat ≤ n.toNat + 1 := by
  have hn := n.toNat_lt
  have hv := v.toNat_lt
  rw [ge_iff_le, UInt64.le_iff_toNat_le, UInt64.toNat_sub, UInt32.toNat_toUInt64, ne_eq, ← UInt64.toNat_inj]
  simp only [UInt64.reduceToNat]
  omega

/-- **The line ends** where the layout has it end. -/
theorem Console.At.lineEnds_iff (h : c.At p) : c.LineEnds ↔ columns c.fb.width.toNat = some (p.col + 1) := by
  have hx := h.x_add
  have hw := c.fb.width.toNat_lt
  rw [LineEnds, pred_le_iff, hx, ne_eq, ← UInt64.toNat_inj]
  have hin := h.inside
  unfold columns at hin ⊢
  split at hin
  next hle =>
    have hcol := hin _ rfl
    rw [if_pos hle, Option.some.injEq]
    simp only [UInt64.reduceToNat]
    omega
  next hle =>
    rw [if_neg hle]
    simp only [UInt64.reduceToNat, reduceCtorEq, iff_false]
    omega

/-- A new line. -/
theorem Console.At.feed (h : c.At p) : Console.At { c with y := c.y + 16, x := 0 } p.feed :=
  ⟨rfl, h.y_add, fun _ hn => columns_pos hn⟩

/-- **A character** takes the cursor to the next place. -/
theorem Console.At.typed (color : UInt32) (ch : UInt8) (h : c.At p) :
    (c.typed color ch).At (p.next (columns c.fb.width.toNat)) := by
  have hsize : (c.typed color ch).fb.width = c.fb.width := (c.typed_sameSize color ch).1
  by_cases hl : c.LineEnds
  · have hx := c.typed_x color ch
    have hy := c.typed_y color ch
    rw [if_pos hl] at hx hy
    rw [Place.next, if_pos (h.lineEnds_iff.1 hl)]
    exact ⟨congrArg UInt32.toNat hx, (congrArg UInt32.toNat hy).trans h.y_add, fun _ hn => columns_pos hn⟩
  · have hx := c.typed_x color ch
    have hy := c.typed_y color ch
    rw [if_neg hl] at hx hy
    rw [h.lineEnds_iff] at hl
    rw [Place.next, if_neg hl]
    refine ⟨(congrArg UInt32.toNat hx).trans h.x_add, (congrArg UInt32.toNat hy).trans h.y, fun n hn => ?_⟩
    rw [hsize] at hn
    exact Nat.lt_of_le_of_ne (h.inside n hn) fun he => hl (hn.trans (congrArg some he.symm))

/-- And on a screen of one row it has not left the left edge. -/
structure Console.Stands (c : Console) (p : Place) : Prop extends c.At p where
  edge : c.fb.height = 1 → c.x = 0

/-- The cursor behind the next character is as far to the right as the screen is high. -/
def Console.Clears (c : Console) (color : UInt32) (ch : UInt8) : Prop :=
  (c.typed color ch).x.toUInt64 ≥ c.fb.height - 1

theorem Console.At.fits_iff (color : UInt32) (ch : UInt8) (h : c.At p) : p.Fits c.fb.width.toNat c.fb.height.toNat ↔
    c.y.toNat < c.fb.height.toNat ∧ ¬c.Clears color ch := by
  have hx := (h.typed color ch).x
  rw [Clears, pred_le_iff, ne_eq, ← UInt64.toNat_inj, UInt64.toNat_zero, hx, h.y]
  constructor
  · rintro ⟨hrow, hcol⟩
    exact ⟨hrow, fun hc => by omega⟩
  · rintro ⟨hrow, hn⟩
    exact ⟨hrow, by omega⟩

/-- **Where the screen is cleared**, the cursor is not at the top left. -/
theorem Console.Stands.typed_ne (h : c.Stands p) (hy : c.y.toNat < c.fb.height.toNat)
    (hc : c.Clears color ch) : ¬((c.typed color ch).x = 0 ∧ (c.typed color ch).y = 0) := by
  rintro ⟨hx, hy'⟩
  rw [Clears, hx, pred_le_iff, ne_eq, ← UInt64.toNat_inj, UInt64.toNat_zero, UInt32.toNat_zero] at hc
  have hone : c.fb.height.toNat = 1 := by omega
  have hx0 := h.edge (UInt64.toNat_inj.1 hone)
  rw [typed_x] at hx
  rw [typed_y] at hy'
  by_cases hl : c.LineEnds
  · have hy0 : c.y = 0 := UInt32.toNat_inj.1 (by rw [UInt32.toNat_zero]; omega)
    rw [if_pos hl, hy0] at hy'
    exact absurd hy' (by decide)
  · rw [if_neg hl, hx0] at hx
    exact absurd hx (by decide)

theorem write_string_told_feed : write_string_told c color (0x0A :: string) =
    write_string_told { c with y := c.y + 16, x := 0 } color string := if_pos rfl

theorem write_string_told_cons (hne : ch ≠ 0x0A) : write_string_told c color (ch :: string) = (do
    Traced.tell (.char c.x c.y)
    if (c.typed color ch).x.toUInt64 ≥ (c.typed color ch).fb.height - 1 then do
      Traced.tell (.clear (c.typed color ch).x (c.typed color ch).y)
      let fb ← Traced.lift (lfb_clear_screen (c.typed color ch).fb 0x000000)
      Traced.tell (.restart (c.typed color ch).x (c.typed color ch).y)
      write_string_told { c.typed color ch with fb } color string
    else write_string_told (c.typed color ch) color string) := by
  show (if ch = 0x0A then _ else _) = _
  rw [if_neg hne]
  unfold Console.typed
  dsimp only

/-- A character that does not clear the screen. -/
theorem write_string_told_char (hne : ch ≠ 0x0A) (hn : ¬c.Clears color ch) :
    write_string_told c color (ch :: string) =
      Traced.tell (.char c.x c.y) >>= fun _ => write_string_told (c.typed color ch) color string := by
  rw [Console.Clears, ← (c.typed_sameSize color ch).2] at hn
  rw [write_string_told_cons hne, if_neg hn]

/-- One that does: the cursor stays. -/
theorem deeds_clear {α : Type} {f : Console → Writer α} (string : List UInt8) (hne : ch ≠ 0x0A) (hc : c.Clears color ch) :
    ∃ ds, (write_string_told c color (ch :: string) >>= f).deeds =
      .char c.x c.y :: .clear (c.typed color ch).x (c.typed color ch).y :: ds ∧
        ∀ d, ds.head? = some d → d = .restart (c.typed color ch).x (c.typed color ch).y := by
  rw [Console.Clears, ← (c.typed_sameSize color ch).2] at hc
  rw [write_string_told_cons hne, if_pos hc, Traced.assoc, Traced.deeds_tell_bind, Traced.assoc,
    Traced.deeds_tell_bind, Traced.assoc]
  refine ⟨_, rfl, ?_⟩
  cases lfb_clear_screen (c.typed color ch).fb 0x000000 with
  | error e =>
    rw [Traced.lift_error_bind]
    exact fun d hd => by cases hd
  | ok fb =>
    rw [Traced.lift_ok_bind, Traced.assoc, Traced.deeds_tell_bind]
    exact fun d hd => (Option.some.inj hd).symm

/-- A character that does not clear the screen takes the cursor to the next place. -/
theorem Console.Stands.typed (h : c.Stands p) (hn : ¬c.Clears color ch) :
    (c.typed color ch).Stands (p.next (columns c.fb.width.toNat)) := by
  refine ⟨h.toAt.typed color ch, fun h1 => absurd (pred_le_iff.2 ?_) hn⟩
  -- on a screen of one row every character does
  rw [← (c.typed_sameSize color ch).2, h1]
  exact ⟨by decide, Nat.le_add_left _ _⟩

/-- **A string whose characters fit** comes to its end, with the cursor behind it, and the screen is right if it is
from then on. -/
theorem write_string_fits {α : Type} {f : Console → Writer α} (color : UInt32) (h : c.Stands p)
    (hfits : ∀ q ∈ p.printed (columns c.fb.width.toNat) string, q.Fits c.fb.width.toNat c.fb.height.toNat) :
    ∃ c', c.fb.SameSize c'.fb ∧ c'.Stands (p.behind (columns c.fb.width.toNat) string) ∧
      (ScreenRight c.fb.height.toNat (write_string_told c color string >>= f).deeds ↔
        ScreenRight c.fb.height.toNat (f c').deeds) := by
  induction string generalizing c p with
  | nil => exact ⟨c, ⟨rfl, rfl⟩, h, Iff.rfl⟩
  | cons ch string ih =>
    by_cases hne : ch = 0x0A
    · subst hne
      rw [write_string_told_feed]
      exact ih ⟨h.feed, fun _ => rfl⟩ hfits
    · rw [Place.printed, if_neg hne, List.forall_mem_cons, h.fits_iff color ch] at hfits
      obtain ⟨⟨hy, hn⟩, hfits⟩ := hfits
      have hsize := c.typed_sameSize color ch
      have hrest := ih (c := c.typed color ch) (h.typed hn)
      rw [hsize.1, hsize.2] at hrest
      obtain ⟨c', hsize', hst, hiff⟩ := hrest hfits
      rw [write_string_told_char hne hn, Traced.assoc, Traced.deeds_tell_bind, Place.behind, if_neg hne]
      exact ⟨c', hsize.trans hsize', hst, (and_iff_right hy).trans hiff⟩

/-- **Where the screen is right**, the characters fit. -/
theorem fits_of_screenRight {α : Type} {f : Console → Writer α} (h : c.Stands p)
    (hr : ScreenRight c.fb.height.toNat (write_string_told c color string >>= f).deeds) :
    ∀ q ∈ p.printed (columns c.fb.width.toNat) string, q.Fits c.fb.width.toNat c.fb.height.toNat := by
  induction string generalizing c p with
  | nil => exact fun q hq => (List.not_mem_nil hq).elim
  | cons ch string ih =>
    by_cases hne : ch = 0x0A
    · subst hne
      rw [write_string_told_feed] at hr
      exact ih (c := { c with y := c.y + 16, x := 0 }) ⟨h.feed, fun _ => rfl⟩ hr
    · rw [Place.printed, if_neg hne, List.forall_mem_cons, h.fits_iff color ch]
      by_cases hc : c.Clears color ch
      · exfalso
        obtain ⟨ds, hds, hhead⟩ := deeds_clear (f := f) string hne hc
        rw [hds] at hr
        obtain ⟨hy, -, hrestart, -⟩ := hr
        obtain ⟨hx0, hy0⟩ := ScreenDeed.restart.inj (hhead _ hrestart)
        exact h.typed_ne hy hc ⟨hx0.symm, hy0.symm⟩
      · rw [write_string_told_char hne hc, Traced.assoc, Traced.deeds_tell_bind] at hr
        have hsize := c.typed_sameSize color ch
        have hrest := ih (c := c.typed color ch) (h.typed hc)
        rw [hsize.1, hsize.2] at hrest
        exact ⟨⟨hr.1, hc⟩, hrest hr.2⟩

/-- **Any calls**, from any place. -/
theorem screenRight_strings (calls : List (UInt32 × List UInt8)) (h : c.Stands p) :
    ScreenRight c.fb.height.toNat (write_strings_told c calls).deeds ↔
      ∀ q ∈ p.printed (columns c.fb.width.toNat) (calls.flatMap Prod.snd),
        q.Fits c.fb.width.toNat c.fb.height.toNat := by
  induction calls generalizing c p with
  | nil => exact iff_of_true trivial fun q hq => (List.not_mem_nil hq).elim
  | cons call calls ih =>
    obtain ⟨color, string⟩ := call
    rw [List.flatMap_cons, Place.printed_append, List.forall_mem_append]
    have key : ∀ hfits : (∀ q ∈ p.printed (columns c.fb.width.toNat) string,
        q.Fits c.fb.width.toNat c.fb.height.toNat),
        ScreenRight c.fb.height.toNat (write_strings_told c ((color, string) :: calls)).deeds ↔
          ∀ q ∈ (p.behind (columns c.fb.width.toNat) string).printed (columns c.fb.width.toNat)
            (calls.flatMap Prod.snd), q.Fits c.fb.width.toNat c.fb.height.toNat := fun hfits => by
      obtain ⟨c', hsize, hst, hiff⟩ := write_string_fits
        (f := fun c => write_strings_told c calls) color h hfits
      have hrest := ih hst
      rw [hsize.1, hsize.2] at hrest
      exact hiff.trans hrest
    refine ⟨fun hr => ?_, fun hall => (key hall.1).2 hall.2⟩
    have hfits := fits_of_screenRight h hr
    exact ⟨hfits, (key hfits).1 hr⟩

end Cursor

/-! ### Results -/

theorem write_string_cons {c : Console} {color : UInt32} {ch : UInt8} {string : List UInt8} (hne : ch ≠ 0x0A) :
    write_string c color (ch :: string) =
      if (c.typed color ch).x.toUInt64 ≥ (c.typed color ch).fb.height - 1 then do
        let fb ← lfb_clear_screen (c.typed color ch).fb 0x000000
        write_string { c.typed color ch with fb } color string
      else write_string (c.typed color ch) color string := by
  show (if ch = 0x0A then _ else _) = _
  rw [if_neg hne]
  rfl

theorem write_string_told_result (c : Console) (color : UInt32) (string : List UInt8) :
    (write_string_told c color string).result = write_string c color string := by
  induction string generalizing c with
  | nil => rfl
  | cons ch string ih =>
    by_cases hne : ch = 0x0A
    · subst hne
      rw [write_string_told_feed, ih]
      exact (if_pos rfl).symm
    · rw [write_string_told_cons hne, write_string_cons hne, Traced.result_tell_bind]
      split
      · rw [Traced.result_tell_bind, Traced.result_bind, Traced.result_lift]
        simp only [Traced.result_tell_bind, ih]
      · exact ih _

theorem write_strings_told_result (c : Console) (calls : List (UInt32 × List UInt8)) :
    (write_strings_told c calls).result = calls.foldlM (fun c call => write_string c call.1 call.2) c := by
  induction calls generalizing c with
  | nil => rfl
  | cons call calls ih =>
    obtain ⟨color, string⟩ := call
    rw [write_strings_told, Traced.result_bind, write_string_told_result, List.foldlM_cons]
    simp only [ih]

/-- **For every framebuffer and every sequence of calls**, from the cursor that the program starts with: the
screen is right if and only if the text of the calls fits it. -/
theorem screen_right_iff {c : Console} (hx : c.x = 0) (hy : c.y = 0) (calls : List (UInt32 × List UInt8)) :
    ScreenRight c.fb.height.toNat (write_strings_told c calls).deeds ↔
      TextFits c.fb.width.toNat c.fb.height.toNat (calls.flatMap Prod.snd) := by
  have hst : c.Stands ⟨0, 0⟩ := ⟨⟨by rw [hx]; rfl, by rw [hy]; rfl, fun _ hn => columns_pos hn⟩, fun _ => hx⟩
  exact screenRight_strings calls hst

/-- A console before anything is written. -/
def freshConsole : Console := ⟨⟨640, 480, 2560, fun _ => 0⟩, 16, fun _ => 0, 0, 0⟩

/-- Two short lines. -/
theorem screen_right_lines : ScreenRight freshConsole.fb.height.toNat
    (write_strings_told freshConsole [(7, [72, 105]), (7, [0x0A, 33])]).deeds :=
  (screen_right_iff rfl rfl _).2 (by decide +kernel)

/-- Sixty characters on the first line of a screen of 640 × 480: it is cleared, and the cursor stays behind them. -/
theorem not_screen_right : ¬∀ (c : Console) (calls : List (UInt32 × List UInt8)), c.x = 0 → c.y = 0 →
    ScreenRight c.fb.height.toNat (write_strings_told c calls).deeds := by
  intro h
  have hst : freshConsole.Stands ⟨0, 0⟩ := ⟨⟨rfl, rfl, fun _ hn => columns_pos hn⟩, fun _ => rfl⟩
  have hfits := fun calls => (screenRight_strings calls hst).1 (h freshConsole calls rfl rfl)
  exact absurd (hfits [(7, List.replicate 60 97)]) (by decide +kernel)

end Iridium
