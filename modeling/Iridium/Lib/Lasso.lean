import Mathlib.Data.Finset.Card
import Mathlib.Logic.Function.Iterate
import Mathlib.Order.Interval.Finset.Nat

/-!
# Loops that come back

A loop that only ever takes the next state, `f`, from a state `a`, and goes on while `P` holds of the state.
A loop that comes back to a state where it was, with `P` true up to there, goes on for ever
(`Circles.forever`); over finitely many states any other has stopped within as many turns as there are states
(`exists_stop`). It does not come back when every turn makes progress (`not_circles_of_lt`). What it gets to
at all (`Visits`) it gets to within that many turns (`Visits.within`).
-/

namespace Lib

variable {α : Type*} {f : α → α} {P : α → Prop} {a : α}

/-- **The loop comes back** to a state where it was, before it has stopped. -/
def Circles (f : α → α) (P : α → Prop) (a : α) : Prop :=
  ∃ j k, j < k ∧ f^[j] a = f^[k] a ∧ ∀ i < k, P (f^[i] a)

/-- Then it never stops: what comes behind the circle is on it. -/
theorem Circles.forever (h : Circles f P a) (n : ℕ) : P (f^[n] a) := by
  obtain ⟨j, k, hjk, he, hP⟩ := h
  induction n using Nat.strong_induction_on with
  | _ n ih =>
    by_cases hn : n < k
    · exact hP n hn
    · have hback : f^[n] a = f^[n - k + j] a := by
        calc f^[n] a = f^[n - k] (f^[k] a) := by rw [← Function.iterate_add_apply, Nat.sub_add_cancel (by omega)]
          _ = f^[n - k + j] a := by rw [← he, ← Function.iterate_add_apply]
      rw [hback]
      exact ih _ (by omega)

/-- Of the first states, one more than there are, two are the same. -/
theorem exists_repeat {N : ℕ} (f : α → α) (a : α) (e : α → ℕ) (he : Function.Injective e) (hN : ∀ b, e b < N) :
    ∃ j k, j < k ∧ k ≤ N ∧ f^[j] a = f^[k] a := by
  obtain ⟨j, hj, k, hk, hne, heq⟩ := Finset.exists_ne_map_eq_of_card_lt_of_maps_to
    (s := Finset.range (N + 1)) (t := Finset.range N) (by simp) (f := fun n => e (f^[n] a))
    fun n _ => Finset.mem_coe.2 (Finset.mem_range.2 (hN _))
  have heq := he heq
  rw [Finset.mem_range] at hj hk
  rcases Nat.lt_or_gt_of_ne hne with hlt | hlt
  · exact ⟨j, k, hlt, by omega, heq⟩
  · exact ⟨k, j, hlt, by omega, heq.symm⟩

/-- **A loop that does not come back** stops within as many turns as there are states. -/
theorem exists_stop {N : ℕ} (e : α → ℕ) (he : Function.Injective e) (hN : ∀ b, e b < N)
    (h : ¬Circles f P a) : ∃ n ≤ N, ¬P (f^[n] a) := by
  by_contra hno
  have hall : ∀ n ≤ N, P (f^[n] a) := fun n hn => by
    by_contra hP
    exact hno ⟨n, hn, hP⟩
  obtain ⟨j, k, hjk, hk, heq⟩ := exists_repeat f a e he hN
  exact h ⟨j, k, hjk, heq, fun i hi => hall i (by omega)⟩

/-- A loop each turn of which makes something larger does not come back. -/
theorem not_circles_of_lt (e : α → ℕ) (h : ∀ b, P b → e b < e (f b)) : ¬Circles f P a := by
  rintro ⟨j, k, hjk, he, hP⟩
  have hlt : ∀ n, j + n < k → e (f^[j] a) < e (f^[j + n + 1] a) := by
    intro n hn
    induction n with
    | zero =>
      rw [Function.iterate_succ_apply']
      exact h _ (hP j hn)
    | succ n ih =>
      rw [Function.iterate_succ_apply']
      exact Nat.lt_trans (ih (by omega)) (h _ (hP _ hn))
  have hk := hlt (k - j - 1) (by omega)
  rw [show j + (k - j - 1) + 1 = k by omega, ← he] at hk
  exact Nat.lt_irrefl _ hk

/-! ### The states on the way -/

/-- **The loop gets to `b`**: it is a state behind states where the loop goes on. -/
def Visits (f : α → α) (P : α → Prop) (a b : α) : Prop := ∃ n, f^[n] a = b ∧ ∀ i < n, P (f^[i] a)

theorem Visits.refl (f : α → α) (P : α → Prop) (a : α) : Visits f P a a :=
  ⟨0, rfl, fun _ hi => absurd hi (Nat.not_lt_zero _)⟩

/-- A loop that goes on for longer gets further. -/
theorem Visits.mono {P' : α → Prop} {b : α} (h : Visits f P a b) (hP : ∀ c, P c → P' c) : Visits f P' a b := by
  obtain ⟨n, hb, hn⟩ := h
  exact ⟨n, hb, fun i hi => hP _ (hn i hi)⟩

/-- It gets to what it gets to behind the next state. -/
theorem Visits.head {b : α} (ha : P a) (h : Visits f P (f a) b) : Visits f P a b := by
  obtain ⟨n, rfl, hP⟩ := h
  refine ⟨n + 1, Function.iterate_succ_apply f n a, fun i hi => ?_⟩
  cases i with
  | zero => exact ha
  | succ i => exact Function.iterate_succ_apply f i a ▸ hP i (by omega)

/-- **What a loop gets to** it gets to within as many turns as there are states. -/
theorem Visits.within {b : α} {N : ℕ} (e : α → ℕ) (he : Function.Injective e) (hN : ∀ c, e c < N)
    (h : Visits f P a b) : ∃ n ≤ N, f^[n] a = b ∧ ∀ i < n, P (f^[i] a) := by
  obtain ⟨n, hb, hP⟩ := h
  induction n using Nat.strong_induction_on with
  | _ n ih =>
    by_cases hn : n ≤ N
    · exact ⟨n, hn, hb, hP⟩
    -- the turns between two states that are the same can be left out
    obtain ⟨j, k, hjk, hk, heq⟩ := exists_repeat f a e he hN
    have hshort : ∀ i, f^[i + j] a = f^[i + k] a := fun i => by
      rw [Function.iterate_add_apply, heq, ← Function.iterate_add_apply]
    refine ih (n - k + j) (by omega) ?_ fun i hi => ?_
    · rw [hshort, Nat.sub_add_cancel (by omega), hb]
    · exact hP i (by omega)

end Lib
