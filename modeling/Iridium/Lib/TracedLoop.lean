import Iridium.Lib.Lasso
import Iridium.Lib.Traced

/-!
# Loops that tell what they do

A loop of turns, each of which answers or leads to the next state. What it does at all is what its turns do in
the states it gets to (`all_loop`), and it answers if and only if it gets to a state where it stops
(`loop_ends_iff`). A loop over numbers that never go down stops if and only if it makes progress wherever it gets
(`stops_iff`).
-/

namespace Lib

variable {ω ε α β : Type}

/-- Turns, from the state `a` on, until one answers. -/
def Traced.loop (stuck : ε) (turn : α → Traced ω ε (β ⊕ α)) : ℕ → α → Traced ω ε β
  | 0, _ => Traced.lift (.error stuck)
  | n + 1, a => turn a >>= Sum.elim pure (Traced.loop stuck turn n)

/-- The turns go on to the next state, `f`, while `P` holds, and then answer. -/
structure Turns (turn : α → Traced ω ε (β ⊕ α)) (f : α → α) (P : α → Prop) : Prop where
  goes : ∀ {a}, P a → (turn a).result = .ok (.inr (f a))
  stops : ∀ {a}, ¬P a → ∃ b, (turn a).result = .ok (.inl b)

section Loop

variable {stuck : ε} {turn : α → Traced ω ε (β ⊕ α)} {f : α → α} {P : α → Prop} {a : α} {n : ℕ} {Q : ω → Prop}

theorem Turns.result_goes (h : Turns turn f P) (ha : P a) :
    (Traced.loop stuck turn (n + 1) a).result = (Traced.loop stuck turn n (f a)).result := by
  rw [Traced.loop, Traced.result_bind, h.goes ha]
  rfl

theorem Turns.all_goes (h : Turns turn f P) (ha : P a) : (Traced.loop stuck turn (n + 1) a).All Q ↔
    (turn a).All Q ∧ (Traced.loop stuck turn n (f a)).All Q := by
  rw [Traced.loop, Traced.all_bind_ok (h.goes ha)]
  rfl

theorem Turns.all_stops (h : Turns turn f P) (ha : ¬P a) :
    (Traced.loop stuck turn (n + 1) a).All Q ↔ (turn a).All Q := by
  obtain ⟨b, hb⟩ := h.stops ha
  rw [Traced.loop, Traced.all_bind_ok hb]
  exact and_iff_left (Traced.all_pure b)

theorem Turns.result_stops (h : Turns turn f P) (ha : ¬P a) : ∃ b, (Traced.loop stuck turn 1 a).result = .ok b := by
  obtain ⟨b, hb⟩ := h.stops ha
  refine ⟨b, ?_⟩
  rw [Traced.loop, Traced.result_bind, hb]
  rfl

/-- **What a loop does** is what its turns do where it gets. -/
theorem all_loop (h : Turns turn f P) :
    (∀ n, (Traced.loop stuck turn n a).All Q) ↔ ∀ b, Visits f P a b → (turn b).All Q := by
  constructor
  · rintro hall b ⟨n, hb, hP⟩
    induction n generalizing a with
    | zero =>
      obtain rfl : a = b := hb
      by_cases ha : P a
      · exact ((h.all_goes ha).1 (hall 1)).1
      · exact (h.all_stops ha).1 (hall 1)
    | succ n ih =>
      have ha : P a := hP 0 (Nat.succ_pos n)
      refine ih (fun m => ((h.all_goes ha).1 (hall (m + 1))).2) hb fun i hi => ?_
      exact hP (i + 1) (Nat.succ_lt_succ hi)
  · intro hall n
    induction n generalizing a with
    | zero => exact Traced.all_lift _
    | succ n ih =>
      by_cases ha : P a
      · exact (h.all_goes ha).2 ⟨hall a (.refl f P a), ih fun b hb => hall b (hb.head ha)⟩
      · exact (h.all_stops ha).2 (hall a (.refl f P a))

/-- **A loop answers**, with enough turns, if and only if it gets to where it stops. -/
theorem loop_ends_iff (h : Turns turn f P) :
    (∃ n b, (Traced.loop stuck turn n a).result = .ok b) ↔ ∃ n, ¬P (f^[n] a) := by
  constructor
  · rintro ⟨n, b, hb⟩
    induction n generalizing a with
    | zero => cases hb
    | succ n ih =>
      by_cases ha : P a
      · rw [h.result_goes ha] at hb
        obtain ⟨m, hm⟩ := ih hb
        exact ⟨m + 1, hm⟩
      · exact ⟨0, ha⟩
  · rintro ⟨m, hm⟩
    induction m generalizing a with
    | zero => exact ⟨1, h.result_stops hm⟩
    | succ m ih =>
      by_cases ha : P a
      · obtain ⟨n, b, hb⟩ := ih hm
        exact ⟨n + 1, b, (h.result_goes ha).trans hb⟩
      · exact ⟨1, h.result_stops ha⟩

end Loop

/-! ### Progress -/

/-- **A loop over numbers** that never go down, and are below a bound while it goes on, stops if and only if the
numbers go up wherever it gets. -/
theorem stops_iff {f : ℕ → ℕ} {P : ℕ → Prop} {a N : ℕ} (hf : ∀ c, c ≤ f c) (hN : ∀ c, P c → c < N) :
    (∃ n, ¬P (f^[n] a)) ↔ ∀ c, Visits f P a c → P c → c < f c := by
  constructor
  · rintro ⟨n, hn⟩ c ⟨m, rfl, hP⟩ hc
    by_contra hle
    have hfix : f (f^[m] a) = f^[m] a := Nat.le_antisymm (Nat.not_lt.1 hle) (hf _)
    -- it stays where it is
    have hstay : ∀ i, f^[i] (f^[m] a) = f^[m] a := fun i => Function.iterate_fixed hfix i
    by_cases hlt : n < m
    · exact hn (hP n hlt)
    · refine hn ?_
      rw [show n = n - m + m by omega, Function.iterate_add_apply, hstay]
      exact hc
  · intro hup
    by_contra hno
    have hall : ∀ n, P (f^[n] a) := fun n => by
      by_contra hP
      exact hno ⟨n, hP⟩
    have hge : ∀ n, n ≤ f^[n] a := fun n => by
      induction n with
      | zero => exact Nat.zero_le _
      | succ n ih =>
        rw [Function.iterate_succ_apply']
        exact Nat.lt_of_le_of_lt ih (hup _ ⟨n, rfl, fun i _ => hall i⟩ (hall n))
    exact Nat.lt_irrefl _ (Nat.lt_of_le_of_lt (hge N) (hN _ (hall N)))

section Image

variable {γ : Type} {f : α → α} {P : α → Prop} {g : α → γ} {f' : γ → γ} {P' : γ → Prop} {a : α}

/-- A loop seen through `g`. -/
theorem iterate_image (hf : ∀ a, g (f a) = f' (g a)) (n : ℕ) : g (f^[n] a) = f'^[n] (g a) :=
  (Function.Semiconj.iterate_right hf n) a

theorem visits_image (hf : ∀ a, g (f a) = f' (g a)) (hP : ∀ a, P a ↔ P' (g a)) {c : γ} :
    Visits f' P' (g a) c ↔ ∃ b, Visits f P a b ∧ g b = c := by
  constructor
  · rintro ⟨n, rfl, hn⟩
    refine ⟨f^[n] a, ⟨n, rfl, fun i hi => ?_⟩, iterate_image hf n⟩
    rw [hP, iterate_image hf]
    exact hn i hi
  · rintro ⟨b, ⟨n, rfl, hn⟩, rfl⟩
    refine ⟨n, (iterate_image hf n).symm, fun i hi => ?_⟩
    rw [← iterate_image hf, ← hP]
    exact hn i hi

end Image

end Lib
