import Mathlib.Data.List.Infix
import Mathlib.Data.List.Flatten
import Mathlib.Tactic.Common

/-!
# Texts made of pieces

Two texts are written piece by piece, `X p` and `Y p`. They may be the same although pieces differ, when what
one is short of the next one makes up. They are not when no piece can catch up (`flatMap_eq_iff`): once `X` is
ahead, it stays ahead (`ahead_stays`).
-/

namespace Lib

variable {π α : Type*} {X Y : π → List α} {l : List π}

/-- The second piece does not catch up with the first: it is not longer, or it is by one, and the first
is neither its beginning nor its end. -/
def NoLonger (x y : List α) : Prop :=
  y.length ≤ x.length ∨ (y.length = x.length + 1 ∧ ¬x <+: y ∧ ¬x <:+ y)

/-- Two ways to take the same list apart. -/
theorem split_of_append_eq {a b c d : List α} (h : a ++ b = c ++ d) (hl : c.length ≤ a.length) :
    ∃ u, a = c ++ u ∧ u ++ b = d := by
  obtain ⟨u, rfl⟩ := List.prefix_of_prefix_length_le ⟨d, rfl⟩ ⟨b, h⟩ hl
  rw [List.append_assoc] at h
  exact ⟨u, rfl, List.append_cancel_left h⟩

/-- **A text that is ahead** is not caught up with. -/
theorem ahead_stays {u : List α} (h : ∀ p ∈ l, X p = Y p ∨ NoLonger (X p) (Y p)) (hu : u ≠ []) :
    u ++ l.flatMap X ≠ l.flatMap Y := by
  induction l generalizing u with
  | nil => simpa using hu
  | cons p l ih =>
    intro heq
    have hpos := List.length_pos_iff.2 hu
    rw [List.flatMap_cons, List.flatMap_cons, ← List.append_assoc] at heq
    -- the piece leaves a part of `u ++ X p`
    have hle : (Y p).length ≤ (u ++ X p).length := by
      rw [List.length_append]
      rcases h p List.mem_cons_self with hp | hp | ⟨hp, -⟩
      · rw [hp]
        omega
      · omega
      · omega
    obtain ⟨v, hv, hrest⟩ := split_of_append_eq heq hle
    refine ih (fun q hq => h q (List.mem_cons_of_mem _ hq)) (u := v) ?_ hrest
    rintro rfl
    rw [List.append_nil] at hv
    have hlen := congrArg List.length hv
    rw [List.length_append] at hlen
    rcases h p List.mem_cons_self with hp | hp | ⟨-, -, hp⟩
    · rw [hp] at hlen
      omega
    · omega
    · exact hp ⟨u, hv⟩

/-- **Two texts whose pieces do not catch up** are the same if and only if all their pieces are. -/
theorem flatMap_eq_iff (h : ∀ p ∈ l, X p = Y p ∨ NoLonger (X p) (Y p)) :
    l.flatMap X = l.flatMap Y ↔ ∀ p ∈ l, X p = Y p := by
  refine ⟨fun heq => ?_, fun hall => List.flatMap_congr hall⟩
  induction l with
  | nil => exact fun _ hp => absurd hp List.not_mem_nil
  | cons p l ih =>
    have htail : ∀ q ∈ l, X q = Y q ∨ NoLonger (X q) (Y q) := fun q hq => h q (List.mem_cons_of_mem _ hq)
    rw [List.flatMap_cons, List.flatMap_cons] at heq
    have hp : X p = Y p := by
      rcases h p List.mem_cons_self with hp | hp | ⟨hp, hnot, -⟩
      · exact hp
      · obtain ⟨u, hu, hrest⟩ := split_of_append_eq heq hp
        by_cases hnil : u = []
        · rw [hu, hnil, List.append_nil]
        · exact absurd hrest (ahead_stays htail hnil)
      · obtain ⟨u, hu, -⟩ := split_of_append_eq heq.symm (by omega)
        exact absurd ⟨u, hu.symm⟩ hnot
    rw [hp] at heq
    exact List.forall_mem_cons.2 ⟨hp, ih htail (List.append_cancel_left heq)⟩

end Lib
