import Mathlib.Data.List.GetD
import Mathlib.Data.Nat.Digits.Lemmas

/-!
# Numerals

A number in a base, as it is written: the digits from the highest to the lowest, none of them a leading zero.
Each number has one numeral (`numeral_value`), and is its value (`value_numeral`). With zeros in front
(`padded`) the digits have fixed places (`getD_padded`).
-/

namespace Lib

/-- The digits of a number, the highest first. -/
def numeral (b n : ℕ) : List ℕ := if n = 0 then [0] else (b.digits n).reverse

/-- The number that digits stand for. -/
def numeralValue (b : ℕ) (l : List ℕ) : ℕ := Nat.ofDigits b l.reverse

/-- A numeral with zeros in front, up to `k` digits. -/
def padded (k b n : ℕ) : List ℕ := List.replicate (k - (numeral b n).length) 0 ++ numeral b n

/-- At least one digit, and no leading zero. -/
structure IsNumeral (b : ℕ) (l : List ℕ) : Prop where
  ne_nil : l ≠ []
  lt : ∀ d ∈ l, d < b
  lead : l.head? = some 0 → l = [0]

variable {b n : ℕ} {l : List ℕ}

theorem value_numeral (b n : ℕ) : numeralValue b (numeral b n) = n := by
  unfold numeralValue numeral
  split
  next h => rw [h, List.reverse_singleton, Nat.ofDigits_singleton]
  next => rw [List.reverse_reverse, Nat.ofDigits_digits]

theorem isNumeral_numeral (hb : 1 < b) (n : ℕ) : IsNumeral b (numeral b n) := by
  unfold numeral
  split
  next =>
    exact ⟨List.cons_ne_nil _ _, fun d hd => by rw [List.mem_singleton.1 hd]; omega, fun _ => rfl⟩
  next h =>
    refine ⟨?_, fun d hd => Nat.digits_lt_base hb (List.mem_reverse.1 hd), fun hz => ?_⟩
    · exact mt List.reverse_eq_nil_iff.1 (Nat.digits_ne_nil_iff_ne_zero.2 h)
    · -- the highest digit is not zero
      rw [List.head?_reverse, List.getLast?_eq_some_getLast (Nat.digits_ne_nil_iff_ne_zero.2 h)] at hz
      exact absurd (Option.some.inj hz) (Nat.getLast_digit_ne_zero b h)

/-- **A numeral** is that of its value. -/
theorem numeral_value (hb : 1 < b) (h : IsNumeral b l) : numeral b (numeralValue b l) = l := by
  unfold numeral
  by_cases hl : l.head? = some 0
  · obtain rfl := h.lead hl
    rfl
  · have hdigits : b.digits (numeralValue b l) = l.reverse := by
      refine Nat.digits_ofDigits b hb _ (fun d hd => h.lt d (List.mem_reverse.1 hd)) fun hne hz => hl ?_
      rw [List.getLast_reverse] at hz
      rw [List.head?_eq_some_head h.ne_nil, hz]
    have h0 : numeralValue b l ≠ 0 := by
      rw [← Nat.digits_ne_nil_iff_ne_zero (b := b), hdigits]
      exact mt List.reverse_eq_nil_iff.1 h.ne_nil
    rw [if_neg h0, hdigits, List.reverse_reverse]

theorem numeral_length_le {k : ℕ} (hb : 1 < b) (hk : 1 ≤ k) (hn : n < b ^ k) : (numeral b n).length ≤ k := by
  unfold numeral
  split
  · exact hk
  · rw [List.length_reverse]
    exact (Nat.digits_length_le_iff hb n).2 hn

theorem lt_numeral_length {k : ℕ} (hb : 1 < b) (hk : b ^ k ≤ n) : k < (numeral b n).length := by
  have h0 : n ≠ 0 := by
    have := Nat.pow_pos (Nat.lt_trans Nat.zero_lt_one hb) (n := k)
    omega
  unfold numeral
  rw [if_neg h0, List.length_reverse]
  exact (Nat.lt_digits_length_iff hb n).2 hk

/-! ### Zeros in front -/

/-- They do not change the value. -/
theorem value_padded (k b n : ℕ) : numeralValue b (padded k b n) = n := by
  have hvalue := value_numeral b n
  unfold numeralValue at hvalue ⊢
  rw [padded, List.reverse_append, List.reverse_replicate, Nat.ofDigits_append_replicate_zero, hvalue]

theorem padded_lt {k d : ℕ} (hb : 1 < b) (hd : d ∈ padded k b n) : d < b := by
  rcases List.mem_append.1 hd with hd | hd
  · rw [List.eq_of_mem_replicate hd]
    omega
  · exact (isNumeral_numeral hb n).lt d hd

theorem padded_ne_nil {k : ℕ} (hb : 1 < b) : padded k b n ≠ [] :=
  List.append_ne_nil_of_right_ne_nil _ (isNumeral_numeral hb n).ne_nil

theorem length_padded {k : ℕ} (hb : 1 < b) (hk : 1 ≤ k) (hn : n < b ^ k) : (padded k b n).length = k := by
  have hlen := numeral_length_le hb hk hn
  rw [padded, List.length_append, List.length_replicate]
  omega

/-- Digit `i` of a numeral, from the lowest on. -/
theorem getD_reverse_numeral (hb : 1 < b) (n i : ℕ) : (numeral b n).reverse.getD i 0 = n / b ^ i % b := by
  unfold numeral
  split
  next h =>
    rw [h, Nat.zero_div, Nat.zero_mod]
    cases i <;> rfl
  next => rw [List.reverse_reverse, Nat.getD_digits n i hb]

/-- **Each digit has its place**, when there is room for all of them. -/
theorem getD_padded {k j : ℕ} (hb : 1 < b) (hn : n < b ^ k) (hj : j < k) :
    (padded k b n).getD j 0 = n / b ^ (k - 1 - j) % b := by
  have hlen := numeral_length_le hb (by omega) hn
  rw [← getD_reverse_numeral hb, padded]
  by_cases hpad : j < k - (numeral b n).length
  · rw [List.getD_append _ _ _ _ (by rw [List.length_replicate]; exact hpad),
      List.getD_replicate _ hpad, List.getD_eq_default _ _ (by rw [List.length_reverse]; omega)]
  · rw [List.getD_append_right _ _ _ _ (by rw [List.length_replicate]; omega), List.length_replicate,
      List.getD_eq_getElem _ _ (by omega), List.getD_eq_getElem _ _ (by rw [List.length_reverse]; omega),
      List.getElem_reverse]
    congr 1
    omega

end Lib
