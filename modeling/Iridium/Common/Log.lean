import Iridium.Common.Numerals
import Iridium.Fs.Archive
import Iridium.Lib.Pieces

/-!
# Messages of the kernel

`kprintf`, of `common/log.c`. A format that begins with `KINFO` has it written at once; the test does not look
at the length it is given, so that a format which is only the beginning of `KINFO` is taken for one and read
behind its end. The numbers go through `dec2str` and `hex2str`, which take 32 bits. Where all of this does
not matter, what is written is what the format stands for (`kprintf_iff`).
-/

namespace Iridium

open Lib

/-! ### The program -/

def KINFO : List UInt8 := [0x1B, 0x5B, 0x30, 0x3B, 0x33, 0x32, 0x6D]

/-- What `kprintf` does: it reads a byte of its format, or writes to the terminal. -/
inductive LogDeed where
  | read (i : ℕ)
  | write (str : List UInt8)

abbrev Logger (α : Type) := Traced LogDeed Halt α

/-- The arguments that were fetched, and the static buffers of `common/string.c`. -/
structure Log where
  ap : ℕ
  dec_string : Buffer
  hex_string : Buffer

/-- `puts`, of the string at an address. -/
def puts (mem : UInt64 → UInt8) (str : UInt64) : Logger Unit := do
  let len ← Traced.lift (ofFuel (strlen_at mem (2 ^ 64) str))
  Traced.tell (.write ((List.range len).map fun i => mem (str + UInt64.ofNat i)))

/-- `puts`, of a buffer. -/
def puts_buffer (s : Buffer) : Logger Unit := puts (fun a => s a.toNat) 0

/-- `memcmp`, of the format from byte `i` on and the rest of a string: up to the end of one of them. -/
def memcmp_from (str1 : ℕ → UInt8) : ℕ → List UInt8 → Logger Bool
  | i, [] => do
    Traced.tell (.read i)
    return true
  | i, c :: cs => do
    Traced.tell (.read i)
    if str1 i = 0 then pure true
    else if str1 i ≠ c then pure false
    else memcmp_from str1 (i + 1) cs

/-- The `switch` of `kprintf`, over the character behind a `%`. -/
def directive (mem : UInt64 → UInt8) (args : ℕ → UInt64) (s : Log) (c : UInt8) : Logger Log :=
  if c = 0x73 then do
    puts mem (args s.ap)
    return { s with ap := s.ap + 1 }
  else if c = 0x64 then do
    let dec_string ← Traced.lift (dec2str s.dec_string (args s.ap).toUInt32.toInt32).result
    puts_buffer dec_string
    return { s with ap := s.ap + 1, dec_string }
  else if c = 0x78 then do
    let hex_string ← Traced.lift (hex2str s.hex_string (args s.ap).toUInt32).result
    puts_buffer hex_string
    return { s with ap := s.ap + 1, hex_string }
  else if c = 0x63 then do
    puts_buffer fun i => if i = 0 then (args s.ap).toUInt8 else 0
    return { s with ap := s.ap + 1 }
  else pure s

/-- The loop of `kprintf`, from byte `i` of the format on. There are `2^64` addresses to look at. -/
def kprintf_from (mem : UInt64 → UInt8) (fmt : UInt64) (args : ℕ → UInt64) : ℕ → Log → ℕ → Logger Log
  | 0, _, _ => Traced.lift (.error .endless)
  | fuel + 1, s, i => do
    Traced.tell (.read i)
    let c := mem (fmt + UInt64.ofNat i)
    if c = 0 then pure s
    else if c = 0x25 then do
      Traced.tell (.read (i + 1))
      let s ← directive mem args s (mem (fmt + UInt64.ofNat (i + 1)))
      kprintf_from mem fmt args fuel s (i + 2)
    else do
      puts_buffer fun i => if i = 0 then c else 0
      kprintf_from mem fmt args fuel s (i + 1)

/-- `kprintf`. -/
def kprintf (mem : UInt64 → UInt8) (fmt : UInt64) (args : ℕ → UInt64) (s : Log) : Logger Log := do
  -- `va_start`
  let s := { s with ap := 0 }
  let same ← memcmp_from (fun i => mem (fmt + UInt64.ofNat i)) 0 KINFO
  if same then do
    puts_buffer fun i => KINFO.getD i 0
    kprintf_from mem fmt args (2 ^ 64) s KINFO.length
  else kprintf_from mem fmt args (2 ^ 64) s 0

/-! ### What a format stands for -/

/-- A part of a format, with its argument. -/
inductive Piece where
  | char (c : UInt8)
  | str (a : UInt64)
  | dec (n : UInt64)
  | hex (n : UInt64)
  | chr (n : UInt64)
  /-- A `%` before a character that has no meaning there. -/
  | unknown (c : UInt8)
  /-- A `%` at the end. -/
  | lone

/-- The part that a `%` and a character are, and the arguments it takes. -/
def Piece.of (c : UInt8) (arg : UInt64) : Piece × ℕ :=
  if c = 0x73 then (.str arg, 1)
  else if c = 0x64 then (.dec arg, 1)
  else if c = 0x78 then (.hex arg, 1)
  else if c = 0x63 then (.chr arg, 1)
  else (.unknown c, 0)

/-- The parts of a format, with the arguments from `k` on. -/
def pieces (args : ℕ → UInt64) : ℕ → List UInt8 → List Piece
  | _, [] => []
  | _, [c] => if c = 0x25 then [.lone] else [.char c]
  | k, c :: d :: cs =>
    if c = 0x25 then (Piece.of d (args k)).1 :: pieces args (k + (Piece.of d (args k)).2) cs
    else .char c :: pieces args k (d :: cs)

/-- What a part stands for, when there are these strings in memory. -/
def Piece.expansion (strings : UInt64 → List UInt8) : Piece → List UInt8
  | char c => [c]
  | str a => strings a
  | dec n => decimal n.toInt64.toInt
  | hex n => hexadecimal n.toNat
  | chr n => [n.toUInt8]
  | unknown c => [0x25, c]
  | lone => [0x25]

/-- What is written for it. -/
def Piece.printed (strings : UInt64 → List UInt8) : Piece → List UInt8
  | char c => [c]
  | str a => strings a
  | dec n => dec2str_text n.toUInt32.toInt32
  | hex n => hexadecimal n.toUInt32.toNat
  | chr n => if n.toUInt8 = 0 then [] else [n.toUInt8]
  | unknown _ | lone => []

/-- The part is written as it should be. -/
def Piece.Fits : Piece → Prop
  | char _ | str _ => True
  | dec n => -2 ^ 31 < n.toInt64.toInt ∧ n.toInt64.toInt < 2 ^ 31
  | hex n => n.toNat < 2 ^ 32
  | chr n => n.toUInt8 ≠ 0
  | unknown _ | lone => False

/-- What was written, altogether. -/
def written (deeds : List LogDeed) : List UInt8 :=
  deeds.flatMap fun
    | .write str => str
    | .read _ => []

/-- **The message `out` is written**, and no byte of the format behind the one at `stop` is read. -/
def Prints (x : Logger Log) (out : List UInt8) (stop : ℕ) : Prop :=
  ∃ s, x.result = .ok s ∧ written x.deeds = out ∧ ∀ i, .read i ∈ x.deeds → i ≤ stop

/-- The format is not a mere beginning of `KINFO`, and all its parts are written as they should be. -/
structure FormatFits (args : ℕ → UInt64) (f : List UInt8) : Prop where
  beginning : f <+: KINFO → f = KINFO
  pieces : ∀ p ∈ pieces args 0 f, p.Fits

/-! ### Parts that are written as they should be -/

section Pieces

variable {strings : UInt64 → List UInt8} {n : UInt64} {p : Piece}

theorem decimal_inj {i j : ℤ} (h : decimal i = decimal j) : i = j := by
  have hi := (decimal_iff.2 (rfl : decimal i = decimal i)).2
  rw [h, (decimal_iff.2 (rfl : decimal j = decimal j)).2] at hi
  exact (Option.some.inj hi).symm

/-- The `int` that an argument becomes. -/
theorem toInt_narrow (n : UInt64) : n.toUInt32.toInt32.toInt = n.toInt64.toInt.bmod (2 ^ 32) := by
  show (BitVec.setWidth 32 n.toBitVec).toInt = n.toBitVec.toInt.bmod (2 ^ 32)
  rw [BitVec.toInt_setWidth, BitVec.toInt_eq_toNat_bmod, Int.bmod_bmod_of_dvd (by decide)]

/-- The string of `dec2str` is the number if and only if it fits into an `int`, and has a negative. -/
theorem dec_fits_iff : decimal n.toInt64.toInt = dec2str_text n.toUInt32.toInt32 ↔ (Piece.dec n).Fits := by
  have hnarrow := toInt_narrow n
  have hmin : n.toUInt32.toInt32 = Int32.minValue ↔ n.toUInt32.toInt32.toInt = -2 ^ 31 := by
    rw [← Int32.toInt_inj, Int32.toInt_minValue]
  rw [dec2str_text, Piece.Fits]
  by_cases hm : n.toUInt32.toInt32 = Int32.minValue
  · rw [if_pos hm]
    refine iff_of_false (fun h => ?_) fun h => ?_
    · have hparse := (decimal_iff.2 (rfl : decimal n.toInt64.toInt = _)).2
      rw [h] at hparse
      cases hparse
    · rw [Int.bmod_eq_of_le (by omega) (by omega)] at hnarrow
      have := hmin.1 hm
      omega
  · rw [if_neg hm]
    constructor
    · intro h
      rw [decimal_inj h]
      have hlow := n.toUInt32.toInt32.le_toInt
      have hhigh := n.toUInt32.toInt32.toInt_lt
      have hne := mt hmin.2 hm
      omega
    · intro h
      rw [hnarrow, Int.bmod_eq_of_le (by omega) (by omega)]

/-- A sign in front of another number, with no more digits. -/
theorem signed_noLonger {j k : ℕ} (hne : j ≠ k) (hlen : (numeral 10 j).length ≤ (numeral 10 k).length) :
    NoLonger ((numeral 10 k).map digit_char) (45 :: (numeral 10 j).map digit_char) := by
  rw [NoLonger, List.length_cons, List.length_map, List.length_map]
  by_cases hless : (numeral 10 j).length + 1 ≤ (numeral 10 k).length
  · exact .inl hless
  refine .inr ⟨by omega, ?_, ?_⟩
  · rintro ⟨t, ht⟩
    have hnum := isNumeral_numeral (b := 10) (by decide) k
    obtain ⟨d, ds, hd⟩ := List.exists_cons_of_ne_nil hnum.ne_nil
    rw [hd, List.map_cons, List.cons_append, List.cons.injEq] at ht
    exact digit_char_ne (hnum.lt d (by rw [hd]; exact List.mem_cons_self)) (by decide) ht.1
  · intro hs
    rcases List.suffix_cons_iff.1 hs with heq | hs
    · have := congrArg List.length heq
      rw [List.length_cons, List.length_map, List.length_map] at this
      omega
    · have heq := hs.eq_of_length (by rw [List.length_map, List.length_map]; omega)
      rw [← decimal_natCast, ← decimal_natCast] at heq
      have := decimal_inj heq
      omega

/-- A number that is cut off does not make up for it. -/
theorem dec_noLonger (h : ¬(Piece.dec n).Fits) :
    NoLonger (decimal n.toInt64.toInt) (dec2str_text n.toUInt32.toInt32) := by
  set a := n.toInt64.toInt
  set m := n.toUInt32.toInt32
  rw [Piece.Fits] at h
  have habs : 10 ^ 9 ≤ a.natAbs := by omega
  have hlong := lt_numeral_length (b := 10) (by decide) habs
  have hshort : ∀ k < 2 ^ 32, (numeral 10 k).length ≤ 10 := fun k hk =>
    numeral_length_le (by decide) (by decide) (by omega)
  have hm := m.le_toInt
  have hm' := m.toInt_lt
  rw [dec2str_text]
  split
  next =>
    refine .inl ?_
    rw [decimal, List.length_append, List.length_map]
    show 1 ≤ _
    omega
  next hmin =>
    have hmin := mt Int32.toInt_inj.1 hmin
    rw [Int32.toInt_minValue] at hmin
    have hmabs := hshort m.toInt.natAbs (by omega)
    by_cases hneg : m.toInt < 0
    · by_cases ha : a < 0
      · refine .inl ?_
        rw [decimal, decimal, if_pos hneg, if_pos ha, List.length_append, List.length_append, List.length_map,
          List.length_map]
        omega
      · -- the sign is written in front of a number with as many digits
        obtain ⟨k, hk⟩ : ∃ k : ℕ, a = k := ⟨a.natAbs, by omega⟩
        obtain ⟨j, hj⟩ : ∃ j : ℕ, m.toInt = -j := ⟨m.toInt.natAbs, by omega⟩
        rw [hk, Int.natAbs_natCast] at hlong
        rw [hj, Int.natAbs_neg, Int.natAbs_natCast] at hmabs
        rw [hk, hj, decimal_neg (by omega), decimal_natCast]
        exact signed_noLonger (by omega) (by omega)
    · refine .inl ?_
      rw [decimal, decimal, if_neg hneg, List.length_append, List.length_append, List.length_map, List.length_map]
      show 0 + _ ≤ _
      omega

theorem toNat_narrow (n : UInt64) : n.toUInt32.toNat = n.toNat % 2 ^ 32 := UInt64.toNat_toUInt32 n

/-- A number that does not fit into 32 bits has more digits. -/
theorem hex_shorter (h : ¬(Piece.hex n).Fits) :
    (hexadecimal n.toUInt32.toNat).length < (hexadecimal n.toNat).length := by
  rw [Piece.Fits] at h
  have hlong := lt_numeral_length (b := 16) (k := 8) (n := n.toNat) (by decide) (by omega)
  have hcut := n.toUInt32.toNat_lt
  rw [hexadecimal, hexadecimal, List.length_append, List.length_append, List.length_append, List.length_append,
    List.length_map, List.length_map]
  split
  next hpad =>
    have hone := numeral_length_le (b := 16) (k := 1) (n := n.toUInt32.toNat) (by decide) (by decide) (by omega)
    show 2 + 1 + _ < 2 + _ + _
    omega
  next =>
    have height := numeral_length_le (b := 16) (k := 8) (n := n.toUInt32.toNat) (by decide) (by decide) (by omega)
    show 2 + 0 + _ < 2 + _ + _
    omega

/-- **A part is written as it should be**, or is no longer than it should be. -/
theorem Piece.fits_iff : p.expansion strings = p.printed strings ↔ p.Fits := by
  cases p with
  | char c => exact iff_of_true rfl trivial
  | str a => exact iff_of_true rfl trivial
  | dec n => exact dec_fits_iff
  | hex n =>
    constructor
    · intro h
      by_contra hf
      exact (hex_shorter hf).ne (congrArg List.length h).symm
    · intro h
      show hexadecimal n.toNat = hexadecimal n.toUInt32.toNat
      rw [toNat_narrow, Nat.mod_eq_of_lt h]
  | chr n =>
    by_cases h : n.toUInt8 = 0
    · exact iff_of_false (by simp [expansion, printed, h]) (not_not.2 h)
    · exact iff_of_true (if_neg h).symm h
  | unknown c => exact iff_of_false (List.cons_ne_nil _ _) id
  | lone => exact iff_of_false (List.cons_ne_nil _ _) id

theorem Piece.noLonger (p : Piece) :
    p.expansion strings = p.printed strings ∨ NoLonger (p.expansion strings) (p.printed strings) := by
  by_cases hf : p.Fits
  · exact .inl (fits_iff.2 hf)
  refine .inr ?_
  cases p with
  | char c => exact absurd trivial hf
  | str a => exact absurd trivial hf
  | dec n => exact dec_noLonger hf
  | hex n => exact .inl (hex_shorter hf).le
  | chr n =>
    refine .inl ?_
    show (if n.toUInt8 = 0 then [] else [n.toUInt8] : List UInt8).length ≤ 1
    split
    · exact Nat.zero_le 1
    · exact Nat.le_refl 1
  | unknown c => exact .inl (Nat.zero_le _)
  | lone => exact .inl (Nat.zero_le _)

end Pieces

/-! ### What is written -/

theorem written_append (ds ds' : List LogDeed) : written (ds ++ ds') = written ds ++ written ds' :=
  List.flatMap_append

section Writing

variable {mem : UInt64 → UInt8} {a fmt : UInt64} {args : ℕ → UInt64} {strings : UInt64 → List UInt8}
  {l g : List UInt8} {s : Log} {c : UInt8} {fuel i : ℕ}

/-- A string in memory ends before memory begins again. -/
theorem CString.length_lt (h : CString (fun i => mem (a + UInt64.ofNat i)) l) : l.length < 2 ^ 64 := by
  by_contra hlt
  have hwrap : UInt64.ofNat (l.length - 2 ^ 64) = UInt64.ofNat l.length := by
    apply UInt64.toNat_inj.1
    rw [UInt64.toNat_ofNat', UInt64.toNat_ofNat']
    omega
  have hend := h.2 l.length (Nat.le_refl _)
  have hin := h.2 (l.length - 2 ^ 64) (by omega)
  dsimp only at hend hin
  rw [hwrap, hend, List.getD_eq_default _ _ (Nat.le_refl _), List.getD_eq_getElem _ _ (by omega)] at hin
  exact h.1 (hin ▸ List.getElem_mem _)

theorem puts_ok (h : CString (fun i => mem (a + UInt64.ofNat i)) l) : puts mem a = ⟨[.write l], .ok ()⟩ := by
  have hget : ∀ i, (hi : i < l.length) → mem (a + UInt64.ofNat i) = l.get ⟨i, hi⟩ := fun i hi => by
    exact (h.2 i (Nat.le_of_lt hi)).trans (List.getD_eq_getElem _ _ hi)
  have hlen : strlen_at mem (2 ^ 64) a = some l.length := by
    refine strlen_at_of_name h.length_lt hget (fun c hc h0 => h.1 (h0 ▸ hc)) ?_
    exact (h.2 _ (Nat.le_refl _)).trans (List.getD_eq_default _ _ (Nat.le_refl _))
  have hstr : (List.range l.length).map (fun i => mem (a + UInt64.ofNat i)) = l := by
    refine List.ext_getElem (by simp) fun i h₁ h₂ => ?_
    rw [List.getElem_map, List.getElem_range, hget i h₂]
    rfl
  rw [puts, hlen]
  show (⟨[.write ((List.range l.length).map _)], .ok ()⟩ : Logger Unit) = _
  rw [hstr]

theorem puts_buffer_ok {s : Buffer} (h : CString s l) (hl : l.length < 2 ^ 64) :
    puts_buffer s = ⟨[.write l], .ok ()⟩ := by
  refine puts_ok ⟨h.1, fun k hk => ?_⟩
  have hk' : (0 + UInt64.ofNat k).toNat = k := by
    rw [UInt64.zero_add, UInt64.toNat_ofNat_of_lt' (Nat.lt_of_le_of_lt hk hl)]
  dsimp only
  rw [hk']
  exact h.2 k hk

/-- A buffer with one character, or none. -/
theorem cstring_char (c : UInt8) : CString (fun i => if i = 0 then c else 0) (if c = 0 then [] else [c]) := by
  split
  next h =>
    refine ⟨List.not_mem_nil, fun k hk => ?_⟩
    show (if k = 0 then c else 0) = 0
    rw [h, ite_self]
  next h =>
    refine ⟨fun hz => h (List.mem_singleton.1 hz).symm, fun k hk => ?_⟩
    obtain rfl | rfl : k = 0 ∨ k = 1 := by
      rw [List.length_singleton] at hk
      omega
    · rfl
    · rfl

theorem puts_char (c : UInt8) :
    puts_buffer (fun i => if i = 0 then c else 0) = ⟨[.write (if c = 0 then [] else [c])], .ok ()⟩ := by
  refine puts_buffer_ok (cstring_char c) ?_
  split
  · exact Nat.two_pow_pos 64
  · exact Nat.one_lt_two_pow (by decide)

theorem dec2str_text_length (number : Int32) : (dec2str_text number).length < 2 ^ 64 := by
  have hlow := number.le_toInt
  have hhigh := number.toInt_lt
  have hten := numeral_length_le (b := 10) (k := 10) (n := number.toInt.natAbs) (by decide) (by decide) (by omega)
  have hsign : (if number.toInt < 0 then [45] else [] : List UInt8).length ≤ 1 := by split <;> decide
  rw [dec2str_text]
  split
  · decide
  · rw [decimal, List.length_append, List.length_map]
    omega

theorem hexadecimal_length (n : UInt32) : (hexadecimal n.toNat).length < 2 ^ 64 := by
  have height := numeral_length_le (b := 16) (k := 8) (n := n.toNat) (by decide) (by decide) n.toNat_lt
  have hpad : (if n.toNat < 0x10 then [48] else [] : List UInt8).length ≤ 1 := by split <;> decide
  rw [hexadecimal, List.length_append, List.length_append, List.length_map]
  show 2 + _ + _ < _
  omega

theorem lift_bind_ok {α β : Type} {r : Except Halt α} {a : α} {f : α → Logger β} (h : r = .ok a) :
    (Traced.lift r >>= f) = f a := by
  rw [h]
  exact Traced.lift_ok_bind a f

/-- **A part of the format** that is not a character. -/
theorem directive_ok (mem : UInt64 → UInt8) (args : ℕ → UInt64) (strings : UInt64 → List UInt8)
    (hstr : ∀ a, (Piece.of c (args s.ap)).1 = .str a → CString (fun i => mem (a + UInt64.ofNat i)) (strings a)) :
    ∃ s' ds, directive mem args s c = ⟨ds, .ok s'⟩ ∧ written ds = (Piece.of c (args s.ap)).1.printed strings ∧
      (∀ i, .read i ∉ ds) ∧ s'.ap = s.ap + (Piece.of c (args s.ap)).2 := by
  have hread : ∀ str i, LogDeed.read i ∉ [LogDeed.write str] := fun str i h => by simp at h
  unfold directive Piece.of at *
  split
  next hc =>
    rw [if_pos hc] at hstr
    exact ⟨_, _, by rw [puts_ok (hstr _ rfl)]; rfl, List.append_nil _, hread _, rfl⟩
  next =>
  split
  next =>
    obtain ⟨b, hr, hb, -⟩ : Leaves (dec2str s.dec_string (args s.ap).toUInt32.toInt32) _ := dec2str_leaves
    exact ⟨_, _, by rw [lift_bind_ok hr, puts_buffer_ok hb (dec2str_text_length _)]; rfl,
      List.append_nil _, hread _, rfl⟩
  next =>
  split
  next =>
    obtain ⟨b, hr, hb, -⟩ : Leaves (hex2str s.hex_string (args s.ap).toUInt32) _ := hex2str_leaves
    exact ⟨_, _, by rw [lift_bind_ok hr, puts_buffer_ok hb (hexadecimal_length _)]; rfl,
      List.append_nil _, hread _, rfl⟩
  next =>
  split
  next => exact ⟨_, _, by rw [puts_char]; rfl, List.append_nil _, hread _, rfl⟩
  next => exact ⟨s, [], rfl, rfl, fun _ => List.not_mem_nil, rfl⟩

/-! #### The loop -/

/-- The message is written if the format does not end in a `%` alone. Otherwise the loop goes on behind it. -/
structure Shows (lone : Prop) (x : Logger Log) (out : List UInt8) (stop : ℕ) : Prop where
  prints : ¬lone → Prints x out stop
  overrun : lone → .read (stop + 1) ∈ x.deeds

/-- A part is written, and the rest of the format. -/
theorem Shows.after {α : Type} {lone : Prop} {x : Logger α} {a : α} {ds : List LogDeed} {f : α → Logger Log}
    {o out : List UInt8} {stop : ℕ} (h : Shows lone (f a) out stop) (hx : x = ⟨ds, .ok a⟩) (ho : written ds = o)
    (hd : ∀ j, .read j ∈ ds → j ≤ stop) : Shows lone (x >>= f) (o ++ out) stop := by
  have hdeeds : (x >>= f).deeds = ds ++ (f a).deeds := by
    rw [hx]
    exact Traced.deeds_bind_ok rfl
  constructor
  · intro hl
    obtain ⟨t, ht, hw, hr⟩ := h.prints hl
    refine ⟨t, by rw [Traced.result_bind, hx]; exact ht, by rw [hdeeds, written_append, ho, hw], fun j hj => ?_⟩
    rw [hdeeds, List.mem_append] at hj
    exact hj.elim (hd j) (hr j)
  · intro hl
    rw [hdeeds]
    exact List.mem_append_right _ (h.overrun hl)

/-- A byte of the format is read. -/
theorem Shows.read {lone : Prop} {x : Logger Log} {out : List UInt8} {stop : ℕ} (h : Shows lone x out stop)
    (hi : i ≤ stop) : Shows lone (Traced.tell (.read i) >>= fun _ => x) out stop := by
  constructor
  · intro hl
    obtain ⟨t, ht, hw, hr⟩ := h.prints hl
    refine ⟨t, ht, hw, fun j hj => ?_⟩
    rcases List.mem_cons.1 hj with hj | hj
    · rw [LogDeed.read.inj hj]
      exact hi
    · exact hr j hj
  · exact fun hl => List.mem_cons_of_mem _ (h.overrun hl)

theorem CString.head {b : Buffer} (h : CString b (c :: l)) : b 0 = c ∧ c ≠ 0 :=
  ⟨h.2 0 (Nat.zero_le _), fun h0 => h.1 (h0 ▸ List.mem_cons_self)⟩

theorem CString.tail {b : Buffer} (h : CString (fun k => b (i + k)) (c :: l)) :
    CString (fun k => b (i + 1 + k)) l := by
  refine ⟨fun hz => h.1 (List.mem_cons_of_mem _ hz), fun k hk => ?_⟩
  have hnext : b (i + (k + 1)) = l.getD k 0 := h.2 (k + 1) (Nat.succ_le_succ hk)
  rwa [← Nat.add_assoc, Nat.add_right_comm] at hnext

theorem pieces_char {k : ℕ} (h : c ≠ 0x25) : pieces args k (c :: l) = .char c :: pieces args k l := by
  cases l with
  | nil => exact if_neg h
  | cons d l => exact if_neg h

theorem Piece.of_ne_lone (c : UInt8) (arg : UInt64) : (Piece.of c arg).1 ≠ .lone := by
  unfold Piece.of
  split_ifs <;> exact Piece.noConfusion

/-- The parts with one in front that is not a `%` alone. -/
theorem lone_mem_cons {p : Piece} {ps : List Piece} (hp : p ≠ .lone) : (Piece.lone ∈ p :: ps) = (Piece.lone ∈ ps) :=
  propext (List.mem_cons.trans (or_iff_right hp.symm))

/-- A character is written, and the rest. -/
theorem Shows.char {ps : List Piece} {f : Unit → Logger Log} {stop : ℕ} (h0 : c ≠ 0)
    (h : Shows (.lone ∈ ps) (f ()) (ps.flatMap (Piece.printed strings)) stop) :
    Shows (.lone ∈ .char c :: ps) (puts_buffer (fun i => if i = 0 then c else 0) >>= f)
      ((.char c :: ps).flatMap (Piece.printed strings)) stop := by
  have hout : written [.write (if c = 0 then [] else [c])] = [c] := by
    rw [if_neg h0]
    rfl
  rw [List.flatMap_cons, lone_mem_cons fun h => by cases h]
  exact h.after (puts_char c) hout fun j hj => by simp at hj

/-- A part with a `%` is written, and the rest, with the arguments behind those it takes. -/
theorem Shows.directive {ps : List Piece} {f : Log → Logger Log} {stop : ℕ}
    (hstr : ∀ a, (Piece.of c (args s.ap)).1 = .str a → CString (fun i => mem (a + UInt64.ofNat i)) (strings a))
    (h : ∀ s' : Log, s'.ap = s.ap + (Piece.of c (args s.ap)).2 →
      Shows (.lone ∈ ps) (f s') (ps.flatMap (Piece.printed strings)) stop) :
    Shows (.lone ∈ (Piece.of c (args s.ap)).1 :: ps) (Iridium.directive mem args s c >>= f)
      (((Piece.of c (args s.ap)).1 :: ps).flatMap (Piece.printed strings)) stop := by
  obtain ⟨s', ds, hx, ho, hreads, hap⟩ := directive_ok mem args strings hstr
  rw [List.flatMap_cons, lone_mem_cons (Piece.of_ne_lone c _)]
  exact (h s' hap).after hx ho fun j hj => absurd hj (hreads j)

/-- **The loop**, over what is left of the format. -/
theorem kprintf_from_shows (hg : CString (fun k => mem (fmt + UInt64.ofNat (i + k))) g) (hf : g.length < fuel)
    (hstr : ∀ a, .str a ∈ pieces args s.ap g → CString (fun i => mem (a + UInt64.ofNat i)) (strings a)) :
    Shows (.lone ∈ pieces args s.ap g) (kprintf_from mem fmt args fuel s i)
      ((pieces args s.ap g).flatMap (Piece.printed strings)) (i + g.length) := by
  induction fuel generalizing s i g with
  | zero => omega
  | succ fuel ih =>
    unfold kprintf_from
    refine Shows.read ?_ (Nat.le_add_right _ _)
    cases g with
    | nil =>
      have hend : mem (fmt + UInt64.ofNat i) = 0 := hg.2 0 (Nat.le_refl _)
      rw [if_pos hend]
      exact ⟨fun _ => ⟨s, rfl, rfl, fun j hj => by cases hj⟩, fun hl => by cases hl⟩
    | cons c cs =>
      obtain ⟨hc, h0⟩ : mem (fmt + UInt64.ofNat i) = c ∧ c ≠ 0 := hg.head
      have htail := CString.tail (b := fun k => mem (fmt + UInt64.ofNat k)) hg
      rw [List.length_cons] at hf ⊢
      rw [hc, if_neg h0]
      by_cases hp : c = 0x25
      · rw [if_pos hp]
        cases cs with
        | nil =>
          -- the loop reads the `NUL`, and goes on behind it
          obtain ⟨n, rfl⟩ : ∃ n, fuel = n + 1 := ⟨fuel - 1, by rw [List.length_nil] at hf; omega⟩
          have hend : mem (fmt + UInt64.ofNat (i + 1)) = 0 := htail.2 0 (Nat.le_refl _)
          have hlone : Piece.lone ∈ pieces args s.ap [c] := by
            rw [pieces, if_pos hp]
            exact List.mem_singleton_self _
          refine ⟨fun hl => absurd hlone hl, fun _ => ?_⟩
          rw [hend]
          exact List.mem_cons_of_mem _ List.mem_cons_self
        | cons d ds =>
          have hd : mem (fmt + UInt64.ofNat (i + 1)) = d := htail.2 0 (Nat.zero_le _)
          have hrest := CString.tail (b := fun k => mem (fmt + UInt64.ofNat k)) htail
          rw [pieces, if_pos hp] at hstr ⊢
          rw [List.length_cons] at hf ⊢
          rw [hd]
          refine Shows.read (.directive (fun a ha => hstr a (ha ▸ List.mem_cons_self)) fun s' hap => ?_) (by omega)
          rw [← hap] at hstr ⊢
          have := ih (s := s') hrest (by omega) fun a ha => hstr a (List.mem_cons_of_mem _ ha)
          rwa [show i + 1 + 1 + ds.length = i + (ds.length + 1 + 1) by omega] at this
      · rw [if_neg hp]
        rw [pieces_char hp] at hstr ⊢
        refine .char h0 ?_
        have := ih htail (by omega) fun a ha => hstr a (List.mem_cons_of_mem _ ha)
        rwa [show i + 1 + cs.length = i + (cs.length + 1) by omega] at this

/-- The test of the beginning: it holds whichever of the two strings ends first. -/
theorem memcmp_from_ok (str1 : Buffer) (hg : CString (fun k => str1 (i + k)) g) (h0 : 0 ∉ l) :
    ∃ b ds, memcmp_from str1 i l = ⟨ds, .ok b⟩ ∧ (b = true ↔ g <+: l ∨ l <+: g) ∧ written ds = [] ∧
      ∀ j, .read j ∈ ds → j ≤ i + g.length := by
  induction l generalizing i g with
  | nil =>
    refine ⟨true, [.read i], rfl, iff_of_true rfl (.inr List.nil_prefix), rfl, fun j hj => ?_⟩
    rw [LogDeed.read.inj (List.mem_singleton.1 hj)]
    exact Nat.le_add_right _ _
  | cons c cs ih =>
    unfold memcmp_from
    cases g with
    | nil =>
      have hend : str1 i = 0 := hg.2 0 (Nat.le_refl _)
      rw [if_pos hend]
      refine ⟨true, [.read i], rfl, iff_of_true rfl (.inl List.nil_prefix), rfl, fun j hj => ?_⟩
      rw [LogDeed.read.inj (List.mem_singleton.1 hj)]
      exact Nat.le_refl _
    | cons d ds =>
      obtain ⟨hd, hd0⟩ : str1 i = d ∧ d ≠ 0 := hg.head
      rw [hd, if_neg hd0]
      by_cases hdc : d = c
      · rw [if_neg (not_not.2 hdc), hdc, List.cons_prefix_cons, List.cons_prefix_cons]
        obtain ⟨b, os, hr, hb, hw, hreads⟩ := ih hg.tail fun h => h0 (List.mem_cons_of_mem _ h)
        refine ⟨b, .read i :: os, ?_, ?_, hw, fun j hj => ?_⟩
        · rw [hr]
          rfl
        · rw [hb]
          exact or_congr (iff_and_self.2 fun _ => rfl) (iff_and_self.2 fun _ => rfl)
        · rw [List.length_cons]
          rcases List.mem_cons.1 hj with hj | hj
          · rw [LogDeed.read.inj hj]
            omega
          · have := hreads j hj
            omega
      · rw [if_pos hdc]
        refine ⟨false, [.read i], rfl, iff_of_false Bool.false_ne_true ?_, rfl, fun j hj => ?_⟩
        · rw [List.cons_prefix_cons, List.cons_prefix_cons]
          exact fun h => h.elim (fun h => hdc h.1) fun h => hdc h.1.symm
        · rw [LogDeed.read.inj (List.mem_singleton.1 hj)]
          exact Nat.le_add_right _ _

end Writing

/-! ### When the message is the format's -/

section Message

variable {mem : UInt64 → UInt8} {fmt : UInt64} {args : ℕ → UInt64} {strings : UInt64 → List UInt8}
  {f g out out' : List UInt8} {x : Logger Log} {s : Log} {stop : ℕ}

/-- A message is one text. -/
theorem Prints.iff_eq (h : Prints x out stop) : Prints x out' stop ↔ out' = out := by
  constructor
  · rintro ⟨_, _, hw, _⟩
    obtain ⟨_, _, hw', _⟩ := h
    exact hw.symm.trans hw'
  · rintro rfl
    exact h

/-- Where the loop writes the parts, the message is what they stand for if they all fit. -/
theorem Shows.prints_iff {ps : List Piece} (h : Shows (.lone ∈ ps) x (ps.flatMap (Piece.printed strings)) stop) :
    Prints x (ps.flatMap (Piece.expansion strings)) stop ↔ ∀ p ∈ ps, p.Fits := by
  by_cases hl : .lone ∈ ps
  · refine iff_of_false (fun ⟨_, _, _, hreads⟩ => ?_) fun hall => hall _ hl
    have := hreads _ (h.overrun hl)
    omega
  · rw [(h.prints hl).iff_eq, flatMap_eq_iff fun p _ => p.noLonger]
    exact forall₂_congr fun p _ => Piece.fits_iff

theorem not_formatFits (h : f <+: KINFO) (hne : f ≠ KINFO) : ¬FormatFits args f := fun hf =>
  hne (hf.beginning h)

theorem fits_iff_pieces (h : f <+: KINFO → f = KINFO) : FormatFits args f ↔ ∀ p ∈ pieces args 0 f, p.Fits :=
  ⟨fun hf => hf.pieces, fun hp => ⟨h, hp⟩⟩

theorem pieces_kinfo : pieces args 0 (KINFO ++ g) = KINFO.map Piece.char ++ pieces args 0 g := by
  have hchars : ∀ {l : List UInt8}, 0x25 ∉ l → pieces args 0 (l ++ g) = l.map Piece.char ++ pieces args 0 g := by
    intro l hl
    induction l with
    | nil => rfl
    | cons c l ih =>
      rw [List.cons_append, pieces_char fun h => hl (h ▸ List.mem_cons_self),
        ih fun h => hl (List.mem_cons_of_mem _ h)]
      rfl
  exact hchars (by decide)

theorem expansion_kinfo : (KINFO.map Piece.char).flatMap (Piece.printed strings) = KINFO := rfl

theorem kinfo_cstring : CString (fun i => KINFO.getD i 0) KINFO := ⟨by decide, fun _ _ => rfl⟩

/-- A format that begins with `KINFO`, or is a beginning of it: it is written, and the loop begins behind it. -/
theorem kprintf_same {lone : Prop} (hf : CString (fun i => mem (fmt + UInt64.ofNat i)) f)
    (h : f <+: KINFO ∨ KINFO <+: f) (hstop : f.length ≤ stop)
    (hx : Shows lone (kprintf_from mem fmt args (2 ^ 64) { s with ap := 0 } KINFO.length) out stop) :
    Shows lone (kprintf mem fmt args s) (KINFO ++ out) stop := by
  obtain ⟨b, ds, hr, hb, hw, hreads⟩ := memcmp_from_ok (fun i => mem (fmt + UInt64.ofNat i)) (i := 0) (g := f)
    (l := KINFO) (by simpa only [Nat.zero_add] using hf) (by decide)
  obtain rfl := hb.2 h
  refine Shows.after (o := []) (?_ : Shows lone _ (KINFO ++ out) stop) hr hw fun j hj => ?_
  · rw [if_pos rfl]
    exact Shows.after hx (puts_buffer_ok kinfo_cstring (by decide)) (List.append_nil _) fun j hj => by simp at hj
  · have := hreads j hj
    omega

/-- Any other format is written from its beginning on. -/
theorem kprintf_differs {lone : Prop} (hf : CString (fun i => mem (fmt + UInt64.ofNat i)) f)
    (h : ¬(f <+: KINFO ∨ KINFO <+: f)) (hstop : f.length ≤ stop)
    (hx : Shows lone (kprintf_from mem fmt args (2 ^ 64) { s with ap := 0 } 0) out stop) :
    Shows lone (kprintf mem fmt args s) out stop := by
  obtain ⟨b, ds, hr, hb, hw, hreads⟩ := memcmp_from_ok (fun i => mem (fmt + UInt64.ofNat i)) (i := 0) (g := f)
    (l := KINFO) (by simpa only [Nat.zero_add] using hf) (by decide)
  obtain rfl := Bool.eq_false_iff.2 (mt hb.1 h)
  refine Shows.after (o := []) ?_ hr hw fun j hj => ?_
  · rw [if_neg Bool.false_ne_true]
    exact hx
  · have := hreads j hj
    omega

/-- **For every format and all arguments**, given the strings of the `%s` among them: the message is what the
format stands for, and no byte behind the format is read, if and only if the format is not a mere beginning of
`KINFO`, each `%` stands before one of the four letters, and the numbers fit into what prints them. -/
theorem kprintf_iff (hf : CString (fun i => mem (fmt + UInt64.ofNat i)) f)
    (hstr : ∀ a, .str a ∈ pieces args 0 f → CString (fun i => mem (a + UInt64.ofNat i)) (strings a)) :
    Prints (kprintf mem fmt args s) ((pieces args 0 f).flatMap (Piece.expansion strings)) f.length ↔
      FormatFits args f := by
  have hlt := hf.length_lt
  by_cases hpre : f <+: KINFO ∧ f ≠ KINFO
  · -- the byte behind `KINFO` is read
    obtain ⟨hpre, hne⟩ := hpre
    have hlen : f.length < 7 := lt_of_le_of_ne hpre.length_le fun h => hne (hpre.eq_of_length h)
    have hloop : Shows True (kprintf_from mem fmt args (2 ^ 64) { s with ap := 0 } KINFO.length) [] 6 := by
      obtain ⟨n, hn⟩ : ∃ n, 2 ^ 64 = n + 1 := ⟨2 ^ 64 - 1, rfl⟩
      rw [hn, kprintf_from]
      exact ⟨fun h => absurd trivial h, fun _ => List.mem_cons_self⟩
    have hread := (kprintf_same hf (.inl hpre) (by omega) hloop).overrun trivial
    refine iff_of_false (fun ⟨_, _, _, hreads⟩ => ?_) (not_formatFits hpre hne)
    have := hreads _ hread
    omega
  · have hnot : f <+: KINFO → f = KINFO := fun h => by_contra fun hne => hpre ⟨h, hne⟩
    rw [fits_iff_pieces hnot]
    apply Shows.prints_iff
    by_cases hk : KINFO <+: f
    · obtain ⟨g, rfl⟩ := hk
      have hg : CString (fun k => mem (fmt + UInt64.ofNat (KINFO.length + k))) g := by
        refine ⟨fun hz => hf.1 (List.mem_append_right _ hz), fun k hk => ?_⟩
        have hbyte := hf.2 (KINFO.length + k) (by rw [List.length_append]; omega)
        rwa [List.getD_append_right _ _ _ _ (Nat.le_add_right _ _), Nat.add_sub_cancel_left] at hbyte
      rw [pieces_kinfo] at hstr ⊢
      have hlone : (Piece.lone ∈ KINFO.map Piece.char ++ pieces args 0 g) = (Piece.lone ∈ pieces args 0 g) := by
        rw [List.mem_append]
        exact propext (or_iff_right (by simp))
      rw [List.flatMap_append, expansion_kinfo, hlone, List.length_append]
      rw [List.length_append] at hlt
      refine kprintf_same hf (.inr ⟨g, rfl⟩) (by rw [List.length_append]) ?_
      exact kprintf_from_shows (s := { s with ap := 0 }) hg (by omega) fun a ha => hstr a (List.mem_append_right _ ha)
    · refine kprintf_differs hf (fun h => h.elim (fun h => hk (hnot h ▸ List.prefix_refl _)) hk) (Nat.le_refl _) ?_
      have hloop := kprintf_from_shows (s := { s with ap := 0 }) (i := 0)
        (by simpa only [Nat.zero_add] using hf) hlt hstr
      rwa [Nat.zero_add] at hloop

/-- A string at the beginning of memory, and nothing else. -/
def memory_with (f : List UInt8) (a : UInt64) : UInt8 := f.getD a.toNat 0

theorem memory_with_cstring (h0 : 0 ∉ f) (hlt : f.length < 2 ^ 64) :
    CString (fun i => memory_with f (0 + UInt64.ofNat i)) f := by
  refine ⟨h0, fun k hk => ?_⟩
  show f.getD (0 + UInt64.ofNat k).toNat 0 = _
  rw [UInt64.zero_add, UInt64.toNat_ofNat_of_lt' (Nat.lt_of_le_of_lt hk hlt)]

/-- `%d` of -5. -/
theorem kprintf_small :
    Prints (kprintf (memory_with [0x25, 0x64]) 0 (fun _ => -5) ⟨0, fun _ => 0, fun _ => 0⟩)
      ((pieces (fun _ => -5) 0 [0x25, 0x64]).flatMap (Piece.expansion fun _ => [])) 2 :=
  (kprintf_iff (f := [0x25, 0x64]) (memory_with_cstring (by decide) (by decide))
    (fun _ h => by simp [pieces, Piece.of] at h)).2
    ⟨fun h => absurd h (by decide), fun p hp => by
      obtain rfl : p = .dec (-5) := List.mem_singleton.1 hp
      exact ⟨by decide, by decide⟩⟩

/-- `%x` of an address of the kernel. -/
theorem not_prints : ¬∀ mem fmt args strings f s, CString (fun i => mem (fmt + UInt64.ofNat i)) f →
    (∀ a, .str a ∈ pieces args 0 f → CString (fun i => mem (a + UInt64.ofNat i)) (strings a)) →
    Prints (kprintf mem fmt args s) ((pieces args 0 f).flatMap (Piece.expansion strings)) f.length := fun h => by
  have hf := memory_with_cstring (f := [0x25, 0x78]) (by decide) (by decide)
  have hstr : ∀ a, .str a ∈ pieces (fun _ => 0xFFFF800000000000) 0 [0x25, 0x78] →
      CString (fun i => memory_with [0x25, 0x78] (a + UInt64.ofNat i)) [] := fun a ha => by
    simp [pieces, Piece.of] at ha
  have hfits := (kprintf_iff hf hstr).1 (h _ _ _ _ _ ⟨0, fun _ => 0, fun _ => 0⟩ hf hstr)
  have hlt : (0xFFFF800000000000 : UInt64).toNat < 2 ^ 32 := hfits.pieces (.hex 0xFFFF800000000000) List.mem_cons_self
  exact absurd hlt (by decide)

end Message

end Iridium
