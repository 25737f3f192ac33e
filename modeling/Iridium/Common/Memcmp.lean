import Iridium.Common.Log

/-!
# Comparing memory

`memcmp`, of `common/string.c`: it compares two strings up to the end of one of them, and does not look at the
number of bytes that it is given. So it is right about the first `n` bytes if and only if they decide where the
loop ends and what it answers there (`memcmp_iff`).
-/

namespace Iridium

/-! ### The program -/

/-- A byte of one of the strings is read. -/
inductive StrRead where
  | str1 (i : ℕ)
  | str2 (i : ℕ)
  deriving DecidableEq

/-- The place of the byte in its string. -/
def StrRead.index : StrRead → ℕ
  | str1 i | str2 i => i

/-- The loop of `memcmp`, from byte `i` on. -/
def memcmp_loop (str1 str2 : ℕ → UInt8) : ℕ → ℕ → Lib.Traced StrRead Halt Bool
  | 0, _ => Lib.Traced.lift (.error .endless)
  | fuel + 1, i => do
    Lib.Traced.tell (.str1 i)
    if str1 i = 0 then pure true
    else do
      Lib.Traced.tell (.str2 i)
      if str2 i = 0 then pure true
      else if str1 i ≠ str2 i then pure false
      else memcmp_loop str1 str2 fuel (i + 1)

/-- The bytes of memory from an address on. -/
def bytes_at (mem : UInt64 → UInt8) (a : UInt64) (i : ℕ) : UInt8 := mem (a + UInt64.ofNat i)

/-- `memcmp`. There are `2^64` addresses to look at. -/
def memcmp (mem : UInt64 → UInt8) (str1 str2 _n : UInt64) : Lib.Traced StrRead Halt Bool :=
  memcmp_loop (bytes_at mem str1) (bytes_at mem str2) (2 ^ 64) 0

/-! ### What it should do -/

/-- **The comparison is right about the first `n` bytes**: it answers whether they are the same, and reads none
behind them. -/
def Compares (mem : UInt64 → UInt8) (str1 str2 n : UInt64) : Prop :=
  ∃ same, (memcmp mem str1 str2 n).result = .ok same ∧
    (same = true ↔ ∀ i < n.toNat, bytes_at mem str1 i = bytes_at mem str2 i) ∧
    ∀ d ∈ (memcmp mem str1 str2 n).deeds, d.index < n.toNat

/-- **The first `n` bytes decide**: they are the same and there is a `NUL` among them, or there is a first
difference among them, with no `NUL` before it or in it. -/
def Decides (a b : ℕ → UInt8) (n : ℕ) : Prop :=
  ((∀ i < n, a i = b i) ∧ ∃ i < n, a i = 0) ∨
    ∃ k < n, (∀ i < k, a i = b i ∧ a i ≠ 0) ∧ a k ≠ b k ∧ a k ≠ 0 ∧ b k ≠ 0

/-! ### Where the loop ends -/

/-- **The loop ends at `k`**: the strings are the same up to there, and go on. -/
structure EndsAt (a b : ℕ → UInt8) (k : ℕ) : Prop where
  before : ∀ i < k, a i = b i ∧ a i ≠ 0
  here : ¬(a k = b k ∧ a k ≠ 0)

section Loop

variable {a b : ℕ → UInt8} {k i n fuel : ℕ}

/-- The loop goes on where the strings do. -/
theorem memcmp_loop_same (h : a i = b i ∧ a i ≠ 0) : memcmp_loop a b (fuel + 1) i =
    Lib.Traced.tell (.str1 i) >>= fun _ => Lib.Traced.tell (.str2 i) >>= fun _ => memcmp_loop a b fuel (i + 1) := by
  obtain ⟨he, h0⟩ := h
  rw [memcmp_loop, if_neg h0, if_neg (he ▸ h0), if_neg (not_not.2 he)]

/-- Its last turn answers whether one of the strings has ended. -/
theorem memcmp_loop_here (h : ¬(a i = b i ∧ a i ≠ 0)) :
    ∃ ds, memcmp_loop a b (fuel + 1) i = ⟨.str1 i :: ds, .ok (decide (a i = 0 ∨ b i = 0))⟩ ∧
      ∀ d ∈ ds, d.index ≤ i := by
  rw [memcmp_loop]
  by_cases ha : a i = 0
  · rw [if_pos ha, decide_eq_true (.inl ha)]
    exact ⟨[], rfl, fun _ hd => by cases hd⟩
  rw [if_neg ha]
  refine ⟨[.str2 i], ?_, fun d hd => Nat.le_of_eq (List.mem_singleton.1 hd ▸ rfl)⟩
  by_cases hb : b i = 0
  · rw [if_pos hb, decide_eq_true (.inr hb)]
    rfl
  · have hne : a i ≠ b i := fun he => h ⟨he, ha⟩
    rw [if_neg hb, if_pos hne, decide_eq_false (not_or.2 ⟨ha, hb⟩)]
    rfl

/-- **The whole loop** from a byte before its end. -/
theorem memcmp_loop_ends (h : EndsAt a b k) (hi : i ≤ k) (hf : k < i + fuel) :
    ∃ ds, memcmp_loop a b fuel i = ⟨ds, .ok (decide (a k = 0 ∨ b k = 0))⟩ ∧ .str1 k ∈ ds ∧ ∀ d ∈ ds, d.index ≤ k := by
  induction fuel generalizing i with
  | zero => omega
  | succ fuel ih =>
    by_cases hik : i = k
    · subst hik
      obtain ⟨ds, hx, hds⟩ := memcmp_loop_here h.here
      exact ⟨_, hx, List.mem_cons_self, List.forall_mem_cons.2 ⟨Nat.le_refl i, hds⟩⟩
    · obtain ⟨ds, hx, hk, hds⟩ := ih (i := i + 1) (by omega) (by omega)
      rw [memcmp_loop_same (h.before i (by omega)), hx]
      refine ⟨.str1 i :: .str2 i :: ds, rfl, ?_, ?_⟩
      · exact List.mem_cons_of_mem _ (List.mem_cons_of_mem _ hk)
      · exact List.forall_mem_cons.2 ⟨hi, List.forall_mem_cons.2 ⟨hi, hds⟩⟩

/-- A loop that does not end within its turns. -/
theorem memcmp_loop_endless (h : ∀ j, i ≤ j → j < i + fuel → a j = b j ∧ a j ≠ 0) :
    (memcmp_loop a b fuel i).result = .error .endless := by
  induction fuel generalizing i with
  | zero => rfl
  | succ fuel ih =>
    rw [memcmp_loop_same (h i (Nat.le_refl i) (by omega))]
    exact ih fun j hj hlt => h j (by omega) (by omega)

/-- **The end of the loop**, when there is one. -/
theorem exists_endsAt (h : ∃ i < n, ¬(a i = b i ∧ a i ≠ 0)) : ∃ k < n, EndsAt a b k := by
  classical
  obtain ⟨j, hj, hne⟩ := h
  have hex : ∃ i, ¬(a i = b i ∧ a i ≠ 0) := ⟨j, hne⟩
  exact ⟨Nat.find hex, Nat.lt_of_le_of_lt (Nat.find_min' hex hne) hj,
    fun i hi => not_not.1 (Nat.find_min hex hi), Nat.find_spec hex⟩

/-- The bytes that decide are those up to the end of the loop. -/
theorem EndsAt.decides_iff (h : EndsAt a b k) :
    Decides a b n ↔ k < n ∧ ((a k = 0 ∨ b k = 0) ↔ ∀ i < n, a i = b i) := by
  constructor
  · rintro (⟨hsame, i, hi, h0⟩ | ⟨j, hj, hbefore, hne, ha, hb⟩)
    · have hki : k ≤ i := Nat.not_lt.1 fun hlt => (h.before i hlt).2 h0
      have hk : k < n := Nat.lt_of_le_of_lt hki hi
      have hnul : a k = 0 := not_not.1 fun hne => h.here ⟨hsame k hk, hne⟩
      exact ⟨hk, iff_of_true (.inl hnul) hsame⟩
    · obtain rfl : j = k := Nat.le_antisymm (Nat.not_lt.1 fun hlt => h.here (hbefore k hlt))
        (Nat.not_lt.1 fun hlt => hne (h.before j hlt).1)
      exact ⟨hj, iff_of_false (not_or.2 ⟨ha, hb⟩) fun hsame => hne (hsame j hj)⟩
  · rintro ⟨hk, hiff⟩
    by_cases hnul : a k = 0 ∨ b k = 0
    · have hsame := hiff.1 hnul
      have heq := hsame k hk
      exact .inl ⟨hsame, k, hk, hnul.elim id fun hb => heq.trans hb⟩
    · obtain ⟨ha, hb⟩ := not_or.1 hnul
      exact .inr ⟨k, hk, h.before, fun he => h.here ⟨he, ha⟩, ha, hb⟩

end Loop

/-- **For all buffers and every number of bytes**: `memcmp` is right about them if and only if they decide. -/
theorem memcmp_iff (mem : UInt64 → UInt8) (str1 str2 n : UInt64) :
    Compares mem str1 str2 n ↔ Decides (bytes_at mem str1) (bytes_at mem str2) n.toNat := by
  by_cases hends : ∃ i < 2 ^ 64, ¬(bytes_at mem str1 i = bytes_at mem str2 i ∧ bytes_at mem str1 i ≠ 0)
  · obtain ⟨k, hk, hend⟩ := exists_endsAt hends
    obtain ⟨ds, hx, hread, hds⟩ := memcmp_loop_ends hend (Nat.zero_le k) (by omega : k < 0 + 2 ^ 64)
    rw [hend.decides_iff, Compares, memcmp, hx]
    constructor
    · rintro ⟨same, hr, hsame, hreads⟩
      obtain rfl := Except.ok.inj hr
      exact ⟨hreads _ hread, decide_eq_true_iff.symm.trans hsame⟩
    · rintro ⟨hlt, hiff⟩
      exact ⟨_, rfl, decide_eq_true_iff.trans hiff, fun d hd => Nat.lt_of_le_of_lt (hds d hd) hlt⟩
  · -- the strings are the same all over, and have no end
    have hsame : ∀ i < 2 ^ 64, bytes_at mem str1 i = bytes_at mem str2 i ∧ bytes_at mem str1 i ≠ 0 := fun i hi =>
      not_not.1 fun hne => hends ⟨i, hi, hne⟩
    have hn := n.toNat_lt
    refine iff_of_false ?_ ?_
    · rintro ⟨same, hr, -⟩
      rw [memcmp, memcmp_loop_endless fun j _ hj => hsame j (by omega)] at hr
      cases hr
    · rintro (⟨-, i, hi, h0⟩ | ⟨k, hk, -, hne, -⟩)
      · exact (hsame i (by omega)).2 h0
      · exact hne (hsame k (by omega)).1

/-- The bytes 0 and 1 are taken for the same. -/
theorem not_compares : ¬∀ mem str1 str2 n, Compares mem str1 str2 n := by
  intro h
  rcases (memcmp_iff (fun a => a.toUInt8) 0 1 1).1 (h _ _ _ _) with ⟨hsame, -⟩ | ⟨k, hk, -, -, h0, -⟩
  · exact absurd (hsame 0 (by decide)) (by decide)
  · obtain rfl : k = 0 := Nat.lt_one_iff.1 hk
    exact h0 (by decide)

/-! ### The test of `kprintf` -/

section Test

variable {str1 str2 : ℕ → UInt8} {l : List UInt8} {i fuel : ℕ}

/-- What `kprintf` does with the first bytes of its format is this loop, with a string that is known: it answers
the same, and reads the same bytes of the format. -/
theorem memcmp_from_eq (h0 : 0 ∉ l) (hl : ∀ k ≤ l.length, str2 (i + k) = l.getD k 0) (hf : l.length < fuel) :
    (memcmp_from str1 i l).result = (memcmp_loop str1 str2 fuel i).result ∧
      ∀ j, .read j ∈ (memcmp_from str1 i l).deeds ↔ .str1 j ∈ (memcmp_loop str1 str2 fuel i).deeds := by
  induction l generalizing i fuel with
  | nil =>
    obtain ⟨fuel, rfl⟩ : ∃ k, fuel = k + 1 := ⟨fuel - 1, by rw [List.length_nil] at hf; omega⟩
    have hend : str2 i = 0 := hl 0 (Nat.le_refl _)
    rw [memcmp_from, memcmp_loop, hend]
    by_cases ha : str1 i = 0
    · rw [if_pos ha]
      exact ⟨rfl, fun j => by simp⟩
    · rw [if_neg ha]
      exact ⟨rfl, fun j => by simp⟩
  | cons c cs ih =>
    obtain ⟨fuel, rfl⟩ : ∃ k, fuel = k + 1 := ⟨fuel - 1, by rw [List.length_cons] at hf; omega⟩
    have hc : str2 i = c := hl 0 (Nat.zero_le _)
    have hc0 : c ≠ 0 := fun h => h0 (h ▸ List.mem_cons_self)
    rw [memcmp_from, memcmp_loop, hc, if_neg hc0]
    by_cases ha : str1 i = 0
    · rw [if_pos ha, if_pos ha]
      exact ⟨rfl, fun j => by simp⟩
    rw [if_neg ha, if_neg ha]
    by_cases hne : str1 i ≠ c
    · rw [if_pos hne, if_pos hne]
      exact ⟨rfl, fun j => by simp⟩
    · rw [if_neg hne, if_neg hne]
      have htail : ∀ k ≤ cs.length, str2 (i + 1 + k) = cs.getD k 0 := fun k hk => by
        rw [Nat.add_right_comm]
        exact hl (k + 1) (Nat.succ_le_succ hk)
      obtain ⟨hr, hd⟩ := ih (fun h => h0 (List.mem_cons_of_mem _ h)) htail (Nat.lt_of_succ_lt_succ hf)
      exact ⟨hr, fun j => by simp [hd]⟩

end Test

end Iridium
