import Mathlib.Data.List.GetD
import Iridium.Common.Errno
import Iridium.Lib.Numeral
import Iridium.Lib.Traced

/-!
# Numbers as strings

`dec2str` and `hex2str`, of `common/string.c`: the digits go into a static buffer of 80 bytes from the lowest
on, with what stands in front of the number behind them, and then the buffer is turned round. `dec2str` takes
an `int` and negates it first, so it writes the decimal numeral of every `int` but the one that has no
negative (`dec2str_iff`). `hex2str` writes every number of 32 bits (`hex2str_exact`).
-/

namespace Iridium

open Lib

/-! ### The buffer -/

/-- A static buffer. -/
abbrev Buffer := ℕ → UInt8

/-- What is done to a buffer. It tells the bytes that are read or written. -/
abbrev Buffered (α : Type) := Traced ℕ Halt α

/-- `s[i] = c`. -/
def put (s : Buffer) (i c : UInt8) : Buffered Buffer := do
  Traced.tell i.toNat
  return Function.update s i.toNat c

/-- `s[i++] = c`. -/
def put_next (s : Buffer) (i c : UInt8) : Buffered (Buffer × UInt8) := do
  let s ← put s i c
  return (s, i + 1)

/-- `if (p) s[i++] = c`. -/
def put_when (p : Prop) [Decidable p] (s : Buffer) (i c : UInt8) : Buffered (Buffer × UInt8) :=
  if p then put_next s i c else pure (s, i)

/-- The loop that takes a number apart, from the lowest digit on. -/
def put_digits {ν : Type} (more : ν → Bool) (digit : ν → UInt8) (next : ν → ν) :
    ℕ → Buffer → UInt8 → ν → Buffered (Buffer × UInt8)
  | 0, _, _, _ => Traced.lift (.error .endless)
  | fuel + 1, s, i, number =>
    if more number then do
      let (s, i) ← put_next s i (digit number)
      put_digits more digit next fuel s i (next number)
    else pure (s, i)

/-- The loop that turns the buffer round. -/
def turn_round : ℕ → Buffer → UInt8 → UInt8 → Buffered Buffer
  | 0, _, _, _ => Traced.lift (.error .endless)
  | fuel + 1, s, j, i =>
    if j < i then do
      let temp := s j.toNat
      let s ← put s j (s i.toNat)
      let s ← put s i temp
      turn_round fuel s (j + 1) (i - 1)
    else pure s

/-- The end of both functions: the `NUL`, and the loop up to the byte before it. -/
def terminate (s : Buffer) (i : UInt8) : Buffered Buffer := do
  let s ← put s i 0
  turn_round 256 s 0 (i - 1)

/-- `dec2str`. An `int` that is negated wraps. -/
def dec2str (dec_string : Buffer) (number : Int32) : Buffered Buffer := do
  let (s, i) ← put_when (number = 0) dec_string 0 48
  let negative := number < 0
  let number := if negative then -number else number
  let (s, i) ← put_digits (fun n : Int32 => 0 < n) (fun n => (n % 10 + 48).toUInt32.toUInt8) (· / 10) 32 s i number
  let (s, i) ← put_when negative s i 45
  terminate s i

/-- The loop of `strncpy`. -/
def strncpy_from (src : ℕ → UInt8) (len : UInt8) : ℕ → Buffer → UInt8 → Buffered Buffer
  | 0, _, _ => Traced.lift (.error .endless)
  | fuel + 1, dst, i =>
    if src i.toNat ≠ 0 ∧ i < len then do
      let dst ← put dst i (src i.toNat)
      strncpy_from src len fuel dst (i + 1)
    else pure dst

/-- `strncpy`. -/
def strncpy (dst : Buffer) (src : ℕ → UInt8) (len : UInt8) : Buffered Buffer := strncpy_from src len 256 dst 0

/-- `ascii_numbers`. -/
def ascii_numbers : List UInt8 := [48, 49, 50, 51, 52, 53, 54, 55, 56, 57, 65, 66, 67, 68, 69, 70]

/-- `hex2str`. -/
def hex2str (hex_string : Buffer) (hex_num : UInt32) : Buffered Buffer := do
  let (s, i) ← put_when (hex_num = 0) hex_string 0 48
  let (s, i) ← put_digits (fun n : UInt32 => 0 < n) (fun n => ascii_numbers.getD (n.toUInt8 &&& 0x0F).toNat 0)
    (· >>> 4) 32 s i hex_num
  let (s, i) ← put_when (hex_num < 0x10) s i 48
  let (s, i) ← put_next s i 120
  let (s, i) ← put_next s i 48
  terminate s i

/-! ### What the buffer holds -/

/-- The buffer begins with these bytes. -/
def BeginsWith (s : Buffer) (l : List UInt8) : Prop := ∀ k < l.length, s k = l.getD k 0

/-- **A C string**: these bytes and a `NUL`, which is none of them. -/
def CString (s : Buffer) (l : List UInt8) : Prop := 0 ∉ l ∧ ∀ k ≤ l.length, s k = l.getD k 0

/-- What is done leaves these bytes in the buffer and the index behind them, and stays in the 80. -/
def Puts (x : Buffered (Buffer × UInt8)) (l : List UInt8) : Prop :=
  ∃ s i, x.result = .ok (s, i) ∧ BeginsWith s l ∧ i.toNat = l.length ∧ ∀ d ∈ x.deeds, d < 80

/-- The same, with a C string in the end. -/
def Leaves (x : Buffered Buffer) (l : List UInt8) : Prop :=
  ∃ s, x.result = .ok s ∧ CString s l ∧ ∀ d ∈ x.deeds, d < 80

section Buffer

variable {s : Buffer} {i j c : UInt8} {l l' : List UInt8} {x : Buffered (Buffer × UInt8)}

theorem Puts.bind {f : Buffer × UInt8 → Buffered (Buffer × UInt8)} (hx : Puts x l)
    (hf : ∀ s i, BeginsWith s l → i.toNat = l.length → Puts (f (s, i)) l') : Puts (x >>= f) l' := by
  obtain ⟨s, i, hr, hs, hi, hd⟩ := hx
  obtain ⟨s', i', hr', hs', hi', hd'⟩ := hf s i hs hi
  refine ⟨s', i', ?_, hs', hi', fun d h => ?_⟩
  · rw [Traced.result_bind, hr]
    exact hr'
  · rw [Traced.deeds_bind_ok hr] at h
    exact (List.mem_append.1 h).elim (hd d) (hd' d)

theorem Puts.leaves {f : Buffer × UInt8 → Buffered Buffer} (hx : Puts x l)
    (hf : ∀ s i, BeginsWith s l → i.toNat = l.length → Leaves (f (s, i)) l') : Leaves (x >>= f) l' := by
  obtain ⟨s, i, hr, hs, hi, hd⟩ := hx
  obtain ⟨s', hr', hs', hd'⟩ := hf s i hs hi
  refine ⟨s', ?_, hs', fun d h => ?_⟩
  · rw [Traced.result_bind, hr]
    exact hr'
  · rw [Traced.deeds_bind_ok hr] at h
    exact (List.mem_append.1 h).elim (hd d) (hd' d)

theorem puts_pure (hs : BeginsWith s l) (hi : i.toNat = l.length) : Puts (pure (s, i)) l :=
  ⟨s, i, rfl, hs, hi, fun _ h => by cases h⟩

/-- One byte more. -/
theorem puts_next (hs : BeginsWith s l) (hi : i.toNat = l.length) (hl : l.length < 80) :
    Puts (put_next s i c) (l ++ [c]) := by
  refine ⟨Function.update s i.toNat c, i + 1, rfl, fun k hk => ?_, ?_, fun d hd => ?_⟩
  · rw [List.length_append, List.length_singleton] at hk
    by_cases hlast : k = l.length
    · rw [hlast, ← hi, Function.update_self, hi, List.getD_append_right _ _ _ _ (Nat.le_refl _), Nat.sub_self]
      rfl
    · rw [Function.update_of_ne (by omega), List.getD_append _ _ _ _ (by omega)]
      exact hs k (by omega)
  · rw [UInt8.toNat_add, hi, List.length_append]
    show (l.length + 1) % 256 = l.length + 1
    omega
  · obtain rfl := List.mem_singleton.1 hd
    omega

theorem puts_when {p : Prop} [Decidable p] (hs : BeginsWith s l) (hi : i.toNat = l.length) (hl : l.length < 80) :
    Puts (put_when p s i c) (l ++ if p then [c] else []) := by
  unfold put_when
  split
  · exact puts_next hs hi hl
  · rw [List.append_nil]
    exact puts_pure hs hi

/-- Nothing is in the buffer yet. -/
theorem beginsWith_nil (s : Buffer) : BeginsWith s [] := fun _ hk => absurd hk (Nat.not_lt_zero _)

/-- **The digits of a number**, from the lowest on. -/
theorem puts_digits {ν : Type} {more : ν → Bool} {digit : ν → UInt8} {next : ν → ν} {b : ℕ} {number : ν} {fuel : ℕ}
    (val : ν → ℕ) (char : ℕ → UInt8) (hb : 1 < b) (hmore : ∀ n, more n = true ↔ 0 < val n)
    (hdigit : ∀ n, 0 < val n → digit n = char (val n % b)) (hnext : ∀ n, 0 < val n → val (next n) = val n / b)
    (hs : BeginsWith s l) (hi : i.toNat = l.length) (hf : (b.digits (val number)).length < fuel)
    (hl : l.length + (b.digits (val number)).length < 80) :
    Puts (put_digits more digit next fuel s i number) (l ++ (b.digits (val number)).map char) := by
  induction fuel generalizing s i l number with
  | zero => omega
  | succ fuel ih =>
    rw [put_digits]
    by_cases hpos : 0 < val number
    · have hdigits := Nat.digits_def' hb hpos
      rw [hdigits, List.length_cons] at hf hl
      rw [if_pos ((hmore number).2 hpos)]
      refine (puts_next hs hi (by omega)).bind fun s i hs hi => ?_
      rw [hdigits, List.map_cons, ← hdigit number hpos, ← hnext number hpos, List.append_cons]
      rw [← hnext number hpos] at hf hl
      exact ih hs hi (by omega) (by rw [List.length_append, List.length_singleton]; omega)
    · have h0 : val number = 0 := by omega
      rw [if_neg (mt (hmore number).1 hpos), h0, Nat.digits_zero, List.map_nil, List.append_nil]
      exact puts_pure hs hi

/-- **The loop turns round** the bytes from `j` to `i`, and touches no other. -/
theorem turn_round_ok (fuel : ℕ) (hji : j.toNat ≤ i.toNat + 1) (hf : i.toNat + 1 < j.toNat + fuel) :
    ∃ s', (turn_round fuel s j i).result = .ok s' ∧
      (∀ k, j.toNat ≤ k → k ≤ i.toNat → s' k = s (j.toNat + i.toNat - k)) ∧
      (∀ k, k < j.toNat ∨ i.toNat < k → s' k = s k) ∧
      ∀ d ∈ (turn_round fuel s j i).deeds, d ≤ i.toNat := by
  induction fuel generalizing s j i with
  | zero => omega
  | succ fuel ih =>
    rw [turn_round]
    by_cases hlt : j < i
    · have hlt' := UInt8.lt_iff_toNat_lt.1 hlt
      have hj : (j + 1).toNat = j.toNat + 1 := by
        rw [UInt8.toNat_add]
        have := i.toNat_lt
        show (j.toNat + 1) % 256 = j.toNat + 1
        omega
      have hi : (i - 1).toNat = i.toNat - 1 :=
        UInt8.toNat_sub_of_le i 1 (UInt8.le_iff_toNat_le.2 (by show 1 ≤ i.toNat; omega))
      rw [if_pos hlt]
      set t := Function.update (Function.update s j.toNat (s i.toNat)) i.toNat (s j.toNat)
      have ht : ∀ k, t k = if k = i.toNat then s j.toNat else if k = j.toNat then s i.toNat else s k := fun k => by
        show Function.update (Function.update s _ _) _ _ k = _
        rw [Function.update_apply, Function.update_apply]
      obtain ⟨s', hr, hin, hout, hd⟩ := ih (s := t) (j := j + 1) (i := i - 1) (by omega) (by omega)
      rw [hj, hi] at hin hout
      refine ⟨s', hr, fun k h₁ h₂ => ?_, fun k hk => ?_, fun d hd' => ?_⟩
      · by_cases hkj : k = j.toNat
        · rw [hkj, hout _ (.inl (by omega)), ht, if_neg (by omega), if_pos rfl]
          congr 1
          omega
        by_cases hki : k = i.toNat
        · rw [hki, hout _ (.inr (by omega)), ht, if_pos rfl]
          congr 1
          omega
        · rw [hin k (by omega) (by omega), ht, if_neg (by omega), if_neg (by omega)]
          congr 1
          omega
      · rw [hout k (by omega), ht, if_neg (by omega), if_neg (by omega)]
      · rcases List.mem_cons.1 hd' with rfl | hd'
        · omega
        rcases List.mem_cons.1 hd' with rfl | hd'
        · exact Nat.le_refl _
        · have := hd d hd'
          omega
    · have hlt' := mt UInt8.lt_iff_toNat_lt.2 hlt
      rw [if_neg hlt]
      refine ⟨s, rfl, fun k h₁ h₂ => ?_, fun _ _ => rfl, fun _ hd => by cases hd⟩
      congr 1
      omega

/-- **The end**: what the buffer holds, turned round, is a C string. -/
theorem terminate_leaves (hs : BeginsWith s l) (hi : i.toNat = l.length) (h1 : 1 ≤ l.length) (hl : l.length < 80)
    (h0 : 0 ∉ l) : Leaves (terminate s i) l.reverse := by
  have hi' : (i - 1).toNat = l.length - 1 := by
    rw [UInt8.toNat_sub_of_le i 1 (UInt8.le_iff_toNat_le.2 (by show 1 ≤ i.toNat; omega)), hi]
    rfl
  obtain ⟨s', hr, hin, hout, hd⟩ := turn_round_ok (s := Function.update s i.toNat 0) (j := 0) (i := i - 1)
    256 (Nat.zero_le _) (by rw [hi']; show _ + 1 < 0 + 256; omega)
  refine ⟨s', hr, ⟨fun hz => h0 (List.mem_reverse.1 hz), fun k hk => ?_⟩, fun d h => ?_⟩
  · rw [List.length_reverse] at hk
    by_cases hlast : k = l.length
    · rw [hlast, hout _ (.inr (by omega)), ← hi, Function.update_self, hi,
        List.getD_eq_default _ _ (Nat.le_of_eq List.length_reverse)]
    · have hzero : (0 : UInt8).toNat = 0 := rfl
      rw [hin k (Nat.zero_le _) (by omega), hzero, hi', Function.update_of_ne (by omega), hs _ (by omega)]
      rw [List.getD_eq_getElem _ _ (by omega), List.getD_eq_getElem _ _ (by rw [List.length_reverse]; omega),
        List.getElem_reverse]
      congr 1
      omega
  · rcases List.mem_cons.1 h with rfl | h
    · omega
    · have := hd d h
      omega

end Buffer

/-! ### Decimal numerals -/

/-- The character of a decimal digit. -/
def digit_char (d : ℕ) : UInt8 := UInt8.ofNat (d + 48)

/-- A number as it is written. -/
def decimal (n : ℤ) : List UInt8 := (if n < 0 then [45] else []) ++ (numeral 10 n.natAbs).map digit_char

/-- A canonical decimal numeral: a minus sign at most, and digits without leading zeros. -/
def IsDecimal (l : List UInt8) : Prop :=
  ∃ ds, IsNumeral 10 ds ∧ (l = ds.map digit_char ∨ ds ≠ [0] ∧ l = 45 :: ds.map digit_char)

def digit_value (c : UInt8) : Option ℕ := if 48 ≤ c ∧ c ≤ 57 then some (c.toNat - 48) else none

/-- The value of decimal digits. -/
def parse_digits (l : List UInt8) : Option ℕ := do
  let ds ← l.mapM digit_value
  if ds = [] then none else some (numeralValue 10 ds)

/-- The integer that a string stands for. -/
def parse_int : List UInt8 → Option ℤ
  | [] => none
  | c :: l =>
    if c = 45 then (parse_digits l).map fun n : ℕ => -(n : ℤ)
    else (parse_digits (c :: l)).map fun n : ℕ => (n : ℤ)

section Decimal

variable {d n : ℕ} {ds : List ℕ} {l : List UInt8} {i : ℤ}

theorem digit_char_toNat (h : d < 10) : (digit_char d).toNat = d + 48 :=
  UInt8.toNat_ofNat_of_lt' (by show d + 48 < 256; omega)

/-- It is not the `NUL`, nor a minus sign. -/
theorem digit_char_ne (h : d < 10) {c : UInt8} (hc : c.toNat < 48) : digit_char d ≠ c := by
  intro he
  have := digit_char_toNat h
  rw [he] at this
  omega

/-- Characters that are read as the digits they are of. -/
theorem mapM_value (value : UInt8 → Option ℕ) (char : ℕ → UInt8) (h : ∀ d ∈ ds, value (char d) = some d) :
    (ds.map char).mapM value = some ds := by
  induction ds with
  | nil => rfl
  | cons d ds ih =>
    rw [List.map_cons, List.mapM_cons, h d List.mem_cons_self, ih fun d hd => h d (List.mem_cons_of_mem _ hd)]
    rfl

theorem digit_value_char (h : d < 10) : digit_value (digit_char d) = some d := by
  have hchar := digit_char_toNat h
  rw [digit_value, if_pos, hchar, Nat.add_sub_cancel]
  constructor
  · rw [UInt8.le_iff_toNat_le, hchar]
    exact Nat.le_add_left 48 d
  · rw [UInt8.le_iff_toNat_le, hchar]
    show d + 48 ≤ 57
    omega

theorem parse_digits_char (hd : ∀ d ∈ ds, d < 10) (h0 : ds ≠ []) :
    parse_digits (ds.map digit_char) = some (numeralValue 10 ds) := by
  rw [parse_digits, mapM_value _ _ fun d h => digit_value_char (hd d h)]
  exact if_neg h0

theorem parse_int_neg : parse_int (45 :: l) = (parse_digits l).map fun n : ℕ => -(n : ℤ) := by
  rw [parse_int, if_pos rfl]

/-- Digits without a sign. -/
theorem parse_int_digits (h : IsNumeral 10 ds) : parse_int (ds.map digit_char) = some (numeralValue 10 ds : ℤ) := by
  have hparse := parse_digits_char h.lt h.ne_nil
  obtain ⟨d, ds, rfl⟩ := List.exists_cons_of_ne_nil h.ne_nil
  rw [List.map_cons, parse_int, if_neg (digit_char_ne (h.lt d List.mem_cons_self) (by decide)), ← List.map_cons,
    hparse]
  rfl

theorem decimal_natCast (n : ℕ) : decimal n = (numeral 10 n).map digit_char := by
  rw [decimal, if_neg (by omega), Int.natAbs_natCast, List.nil_append]

theorem decimal_neg (h : n ≠ 0) : decimal (-(n : ℤ)) = 45 :: (numeral 10 n).map digit_char := by
  rw [decimal, if_pos (by omega), Int.natAbs_neg, Int.natAbs_natCast]
  rfl

/-- **The canonical numeral of a number** is the one that is parsed as this number. -/
theorem decimal_iff : IsDecimal l ∧ parse_int l = some i ↔ l = decimal i := by
  have hten : 1 < 10 := by decide
  constructor
  · rintro ⟨⟨ds, hds, rfl | ⟨h0, rfl⟩⟩, hp⟩
    · rw [parse_int_digits hds] at hp
      obtain rfl := Option.some.inj hp
      rw [decimal_natCast, numeral_value hten hds]
    · rw [parse_int_neg, parse_digits_char hds.lt hds.ne_nil] at hp
      obtain rfl : -(numeralValue 10 ds : ℤ) = i := Option.some.inj hp
      rw [decimal_neg, numeral_value hten hds]
      -- the only numeral of zero is `0`
      intro hz
      rw [← numeral_value hten hds, hz] at h0
      exact h0 rfl
  · rintro rfl
    obtain ⟨n, rfl | rfl⟩ := i.eq_nat_or_neg
    · have hn := isNumeral_numeral hten n
      rw [decimal_natCast, parse_int_digits hn, value_numeral]
      exact ⟨⟨_, hn, .inl rfl⟩, rfl⟩
    · have hn := isNumeral_numeral hten n
      by_cases h0 : n = 0
      · rw [h0]
        exact ⟨⟨[0], isNumeral_numeral hten 0, .inl rfl⟩, rfl⟩
      · rw [decimal_neg h0, parse_int_neg, parse_digits_char hn.lt hn.ne_nil, value_numeral]
        refine ⟨⟨_, hn, .inr ⟨fun hz => h0 ?_, rfl⟩⟩, rfl⟩
        rw [← value_numeral 10 n, hz]
        rfl

end Decimal

/-! ### What the functions write -/

/-- What stands in the buffer before it is turned round: the digits from the lowest on. -/
theorem reverse_digits (b n : ℕ) (char : ℕ → UInt8) :
    ((if n = 0 then [char 0] else []) ++ (b.digits n).map char).reverse = (numeral b n).map char := by
  unfold numeral
  split
  next h =>
    rw [h, Nat.digits_zero]
    rfl
  next => rw [List.nil_append, List.map_reverse]

/-- The string of `dec2str`. -/
def dec2str_text (number : Int32) : List UInt8 := if number = Int32.minValue then [45] else decimal number.toInt

/-- A hexadecimal number as it is written: in capitals, and with two digits at least. -/
def hexadecimal (n : ℕ) : List UInt8 :=
  [48, 120] ++ (if n < 0x10 then [48] else []) ++ (numeral 16 n).map (ascii_numbers.getD · 0)

section Text

variable {s : Buffer} {number : Int32} {hex_num : UInt32}

theorem int_digit (h : 0 < number.toInt.toNat) :
    (number % 10 + 48).toUInt32.toUInt8 = digit_char (number.toInt.toNat % 10) := by
  have hmod : (number % 10).toInt = number.toInt % 10 := by
    rw [Int32.toInt_mod]
    exact Int.tmod_eq_emod_of_nonneg (by omega)
  have hsum : (number % 10 + 48).toInt = number.toInt % 10 + 48 := by
    rw [Int32.toInt_add, hmod]
    show (number.toInt % 10 + 48).bmod (2 ^ 32) = _
    exact Int.bmod_eq_of_le (by omega) (by omega)
  apply UInt8.toNat_inj.1
  rw [digit_char_toNat (by omega), UInt32.toNat_toUInt8, Int32.toNat_toUInt32_of_le, Int32.toNatClampNeg, hsum]
  · omega
  · rw [Int32.le_iff_toInt_le, hsum]
    show 0 ≤ _
    omega

theorem int_next (h : 0 < number.toInt.toNat) : (number / 10).toInt.toNat = number.toInt.toNat / 10 := by
  rw [Int32.toInt_div_of_ne_right _ _ (by decide)]
  show (number.toInt.tdiv 10).toNat = _
  rw [Int.tdiv_eq_ediv_of_nonneg (by omega)]
  omega

theorem int_more : decide (0 < number) = true ↔ 0 < number.toInt.toNat := by
  rw [decide_eq_true_iff, Int32.lt_iff_toInt_lt]
  show 0 < _ ↔ _
  omega

/-- The `int` that is taken apart. -/
theorem int_abs (h : number ≠ Int32.minValue) :
    (if number < 0 then -number else number).toInt.toNat = number.toInt.natAbs := by
  have hlow := number.le_toInt
  have hne := mt Int32.toInt_inj.1 h
  rw [Int32.toInt_minValue] at hne
  have hneg : number < 0 ↔ number.toInt < 0 := Int32.lt_iff_toInt_lt
  split
  next hn =>
    have hn := hneg.1 hn
    have := number.toInt_lt
    rw [Int32.toInt_neg, Int.bmod_eq_of_le (by omega) (by omega)]
    omega
  next hn =>
    have hn := mt hneg.2 hn
    omega

theorem zero_notMem_decimal (i : ℤ) : 0 ∉ decimal i := by
  rw [decimal, List.mem_append]
  rintro (h | h)
  · split at h
    · exact absurd h (by decide)
    · cases h
  · obtain ⟨d, hd, h⟩ := List.mem_map.1 h
    exact digit_char_ne ((isNumeral_numeral (by decide) _).lt d hd) (by decide) h

theorem decimal_length_pos (i : ℤ) : 0 < (decimal i).length := by
  have := List.length_pos_iff.2 (isNumeral_numeral (b := 10) (by decide) i.natAbs).ne_nil
  rw [decimal, List.length_append, List.length_map]
  omega

/-- An `int` has ten digits at most. -/
theorem int_length (number : Int32) : (Nat.digits 10 number.toInt.toNat).length ≤ 10 := by
  rw [Nat.digits_length_le_iff (by decide)]
  have := number.toInt_lt
  omega

/-- What `dec2str` puts into the buffer, before it turns it round. -/
def dec2str_digits (number : Int32) : List UInt8 :=
  (if number = 0 then [48] else []) ++
    (Nat.digits 10 (if number < 0 then -number else number).toInt.toNat).map digit_char ++
    if number < 0 then [45] else []

theorem reverse_dec2str_digits : (dec2str_digits number).reverse = dec2str_text number := by
  rw [dec2str_text, dec2str_digits]
  by_cases hmin : number = Int32.minValue
  · rw [hmin]
    decide
  · have habs := int_abs hmin
    have hzero : number = 0 ↔ number.toInt.natAbs = 0 := by
      rw [Int.natAbs_eq_zero, ← Int32.toInt_zero, Int32.toInt_inj]
    have hneg : number < 0 ↔ number.toInt < 0 := Int32.lt_iff_toInt_lt
    rw [if_neg hmin, List.reverse_append, decimal, habs]
    simp only [hzero, hneg]
    rw [show [48] = [digit_char 0] from rfl, reverse_digits]
    congr 1
    split <;> rfl

/-- **`dec2str`** leaves its string in the buffer, and stays in it. -/
theorem dec2str_leaves : Leaves (dec2str s number) (dec2str_text number) := by
  have htext : 0 < (dec2str_text number).length ∧ 0 ∉ dec2str_text number := by
    rw [dec2str_text]
    split
    · decide
    · exact ⟨decimal_length_pos _, zero_notMem_decimal _⟩
  rw [← reverse_dec2str_digits, List.length_reverse, List.mem_reverse] at htext
  have hlen := int_length (if number < 0 then -number else number)
  have hzero : (if number = 0 then [48] else [] : List UInt8).length ≤ 1 := by split <;> decide
  have hsign : (if number < 0 then [45] else [] : List UInt8).length ≤ 1 := by split <;> decide
  rw [dec2str, ← reverse_dec2str_digits]
  refine (puts_when (beginsWith_nil s) rfl (by decide)).leaves fun s i hs hi => ?_
  rw [List.nil_append] at hs hi
  refine (puts_digits (b := 10) (fun n => n.toInt.toNat) digit_char (by decide) (fun _ => int_more)
    (fun _ => int_digit) (fun _ => int_next) hs hi (by omega) (by omega)).leaves fun s i hs hi => ?_
  refine (puts_when hs hi (by rw [List.length_append, List.length_map]; omega)).leaves fun s i hs hi => ?_
  refine terminate_leaves hs hi htext.1 ?_ htext.2
  rw [dec2str_digits, List.length_append, List.length_append, List.length_map]
  omega

/-! ### Hexadecimal -/

theorem hex_digit (n : UInt32) :
    ascii_numbers.getD (n.toUInt8 &&& 0x0F).toNat 0 = ascii_numbers.getD (n.toNat % 16) 0 := by
  have hand : (n.toUInt8 &&& 0x0F).toNat = n.toNat % 16 := by
    rw [UInt8.toNat_and, UInt32.toNat_toUInt8]
    show n.toNat % 2 ^ 8 &&& (2 ^ 4 - 1) = _
    rw [Nat.and_two_pow_sub_one_eq_mod]
    omega
  rw [hand]

/-- The digit of zero is what `strncpy` leaves. -/
theorem put_when_zero (s : Buffer) (hex_num : UInt32) : put_when (hex_num = 0) s 0 48 =
    if hex_num = 0 then strncpy s (fun i => [48, 0].getD i 0) 2 >>= fun s => pure (s, 1) else pure (s, 0) := by
  unfold put_when
  split <;> rfl

theorem zero_notMem_hexadecimal (n : ℕ) : 0 ∉ hexadecimal n := by
  rw [hexadecimal, List.mem_append, List.mem_append]
  rintro ((h | h) | h)
  · exact absurd h (by decide)
  · split at h
    · exact absurd h (by decide)
    · cases h
  · obtain ⟨d, hd, h⟩ := List.mem_map.1 h
    have hlt := (isNumeral_numeral (by decide) n).lt d hd
    have hchars : ∀ d < 16, ascii_numbers.getD d 0 ≠ 0 := by decide
    exact hchars d hlt h

/-- What `hex2str` puts into the buffer, before it turns it round. -/
def hex2str_digits (hex_num : UInt32) : List UInt8 :=
  (if hex_num = 0 then [48] else []) ++ (Nat.digits 16 hex_num.toNat).map (ascii_numbers.getD · 0) ++
    (if hex_num < 0x10 then [48] else []) ++ [120] ++ [48]

theorem reverse_hex2str_digits : (hex2str_digits hex_num).reverse = hexadecimal hex_num.toNat := by
  have hzero : hex_num = 0 ↔ hex_num.toNat = 0 := by
    rw [← UInt32.toNat_inj]
    rfl
  have hpad : hex_num < 0x10 ↔ hex_num.toNat < 0x10 := UInt32.lt_iff_toNat_lt
  have hrev : (if hex_num.toNat < 0x10 then [48] else [] : List UInt8).reverse =
      if hex_num.toNat < 0x10 then [48] else [] := by split <;> rfl
  have hdigits := reverse_digits 16 hex_num.toNat (ascii_numbers.getD · 0)
  rw [hex2str_digits]
  simp only [hzero, hpad]
  rw [List.reverse_append, List.reverse_append, List.reverse_append, hrev]
  exact congrArg (fun l => [48] ++ ([120] ++ ((if hex_num.toNat < 0x10 then [48] else []) ++ l))) hdigits

/-- **`hex2str`** leaves its string in the buffer, and stays in it. -/
theorem hex2str_leaves : Leaves (hex2str s hex_num) (hexadecimal hex_num.toNat) := by
  have hlen : (Nat.digits 16 hex_num.toNat).length ≤ 8 := by
    rw [Nat.digits_length_le_iff (by decide)]
    exact hex_num.toNat_lt
  have hzero : (if hex_num = 0 then [48] else [] : List UInt8).length ≤ 1 := by split <;> decide
  have hpad : (if hex_num < 0x10 then [48] else [] : List UInt8).length ≤ 1 := by split <;> decide
  have h0 : 0 ∉ hex2str_digits hex_num := by
    rw [← List.mem_reverse, reverse_hex2str_digits]
    exact zero_notMem_hexadecimal _
  rw [hex2str, ← reverse_hex2str_digits]
  refine (puts_when (beginsWith_nil s) rfl (by decide)).leaves fun s i hs hi => ?_
  rw [List.nil_append] at hs hi
  refine (puts_digits (b := 16) UInt32.toNat (ascii_numbers.getD · 0) (by decide)
    (fun n => decide_eq_true_iff.trans UInt32.lt_iff_toNat_lt) (fun n _ => hex_digit n) (fun n _ => ?_) hs hi
    (by omega) (by omega)).leaves fun s i hs hi => ?_
  · rw [UInt32.toNat_shiftRight, Nat.shiftRight_eq_div_pow]
    rfl
  refine (puts_when hs hi ?_).leaves fun s i hs hi => ?_
  · rw [List.length_append, List.length_map]
    omega
  refine (puts_next hs hi ?_).leaves fun s i hs hi => ?_
  · rw [List.length_append, List.length_append, List.length_map]
    omega
  refine (puts_next hs hi ?_).leaves fun s i hs hi => terminate_leaves hs hi ?_ ?_ h0
  · rw [List.length_append, List.length_append, List.length_append, List.length_map, List.length_singleton]
    omega
  · rw [hex2str_digits, List.length_append, List.length_singleton]
    omega
  · rw [hex2str_digits, List.length_append, List.length_append, List.length_append, List.length_append,
      List.length_map, List.length_singleton, List.length_singleton]
    omega

end Text

/-! ### What `dec2str` should write -/

/-- **The string is the number**: a canonical decimal numeral in a buffer of 80 bytes, which is parsed as the
number again. -/
def PrintsInt (number : Int32) (x : Buffered Buffer) : Prop :=
  ∃ s l, x.result = .ok s ∧ CString s l ∧ IsDecimal l ∧ parse_int l = some number.toInt ∧ ∀ d ∈ x.deeds, d < 80

/-- A buffer holds one string. -/
theorem CString.unique {s : Buffer} {l l' : List UInt8} (h : CString s l) (h' : CString s l') : l = l' := by
  have hle : ∀ {l l' : List UInt8}, CString s l → CString s l' → l'.length ≤ l.length := by
    intro l l' h h'
    by_contra hlt
    have hz := h'.2 l.length (by omega)
    rw [h.2 _ (Nat.le_refl _), List.getD_eq_default _ _ (Nat.le_refl _), List.getD_eq_getElem _ _ (by omega)] at hz
    exact h'.1 (hz ▸ List.getElem_mem _)
  refine List.ext_getElem (Nat.le_antisymm (hle h' h) (hle h h')) fun k h₁ h₂ => ?_
  rw [← List.getD_eq_getElem l 0 h₁, ← List.getD_eq_getElem l' 0 h₂, ← h.2 k (by omega), h'.2 k (by omega)]

/-- **For every `int`**, and whatever stood in the buffer: `dec2str` writes it if and only if it has a
negative. -/
theorem dec2str_iff (dec_string : Buffer) (number : Int32) :
    PrintsInt number (dec2str dec_string number) ↔ number ≠ Int32.minValue := by
  obtain ⟨s, hr, hs, hd⟩ : Leaves (dec2str dec_string number) _ := dec2str_leaves
  rw [dec2str_text] at hs
  constructor
  · rintro ⟨s', l, hr', hl, hdec, hparse, -⟩ hmin
    obtain rfl := Except.ok.inj (hr.symm.trans hr')
    rw [if_pos hmin] at hs
    rw [hl.unique hs] at hparse
    cases hparse
  · intro hmin
    rw [if_neg hmin] at hs
    obtain ⟨hdec, hparse⟩ := decimal_iff.2 (rfl : decimal number.toInt = decimal number.toInt)
    exact ⟨s, _, hr, hs, hdec, hparse, hd⟩

/-- The least `int` is written as a minus sign. -/
theorem not_printsInt : ¬∀ dec_string number, PrintsInt number (dec2str dec_string number) := fun h =>
  (dec2str_iff (fun _ => 0) Int32.minValue).1 (h _ _) rfl

/-! ### What `hex2str` should write -/

/-- The character of a hexadecimal digit, in capitals. -/
def hex_char (d : ℕ) : UInt8 := if d < 10 then digit_char d else UInt8.ofNat (d + 55)

/-- A hexadecimal digit, in capitals or not. -/
def hex_value (c : UInt8) : Option ℕ :=
  if 65 ≤ c ∧ c ≤ 70 then some (c.toNat - 55)
  else if 97 ≤ c ∧ c ≤ 102 then some (c.toNat - 87)
  else digit_value c

/-- The number that a string stands for: `0x`, and hexadecimal digits. -/
def parse_hex (l : List UInt8) : Option ℕ :=
  if l.take 2 = [48, 120] then do
    let ds ← (l.drop 2).mapM hex_value
    if ds = [] then none else some (numeralValue 16 ds)
  else none

/-- **The string is the number**: `0x` and its digits, two at least, in a buffer of 80 bytes, which is parsed as
the number again. -/
def PrintsHex (hex_num : UInt32) (x : Buffered Buffer) : Prop :=
  ∃ s l, x.result = .ok s ∧ CString s l ∧ l = [48, 120] ++ (padded 2 16 hex_num.toNat).map hex_char ∧
    parse_hex l = some hex_num.toNat ∧ ∀ d ∈ x.deeds, d < 80

theorem ascii_numbers_getD : ∀ d < 16, ascii_numbers.getD d 0 = hex_char d := by decide

theorem hex_value_char : ∀ d < 16, hex_value (hex_char d) = some d := by decide

/-- The padding of `hex2str` is that of two digits. -/
theorem hexadecimal_eq (n : ℕ) : hexadecimal n = [48, 120] ++ (padded 2 16 n).map hex_char := by
  have hnum := isNumeral_numeral (b := 16) (by decide) n
  have hzeros : List.replicate (2 - (numeral 16 n).length) 0 = if n < 0x10 then [0] else [] := by
    have hpos := List.length_pos_iff.2 hnum.ne_nil
    split
    next h =>
      have hone := numeral_length_le (b := 16) (k := 1) (n := n) (by decide) (by decide) (by omega)
      rw [show 2 - (numeral 16 n).length = 1 by omega]
      rfl
    next h =>
      have htwo := lt_numeral_length (b := 16) (k := 1) (n := n) (by decide) (by omega)
      rw [show 2 - (numeral 16 n).length = 0 by omega]
      rfl
  have hchars : (numeral 16 n).map (ascii_numbers.getD · 0) = (numeral 16 n).map hex_char :=
    List.map_congr_left fun d hd => ascii_numbers_getD d (hnum.lt d hd)
  rw [hexadecimal, padded, hzeros, hchars, List.map_append, List.append_assoc]
  split <;> rfl

/-- Digits in a fixed number of places, parsed. -/
theorem parse_hex_padded (k n : ℕ) : parse_hex ([48, 120] ++ (padded k 16 n).map hex_char) = some n := by
  have hdigits := mapM_value hex_value hex_char fun d (hd : d ∈ padded k 16 n) =>
    hex_value_char d (padded_lt (by decide) hd)
  have hprefix : ([48, 120] ++ (padded k 16 n).map hex_char).take 2 = [48, 120] := rfl
  rw [parse_hex, if_pos hprefix]
  show ((padded k 16 n).map hex_char).mapM hex_value >>= _ = _
  rw [hdigits]
  show (if padded k 16 n = [] then none else some (numeralValue 16 (padded k 16 n))) = _
  rw [if_neg (padded_ne_nil (by decide)), value_padded]

/-- **For every number of 32 bits**, and whatever stood in the buffer: `hex2str` writes it. -/
theorem hex2str_exact (hex_string : Buffer) (hex_num : UInt32) : PrintsHex hex_num (hex2str hex_string hex_num) := by
  obtain ⟨s, hr, hs, hd⟩ : Leaves (hex2str hex_string hex_num) _ := hex2str_leaves
  rw [hexadecimal_eq] at hs
  exact ⟨s, _, hr, hs, rfl, parse_hex_padded 2 _, hd⟩

end Iridium
