import Iridium.Lib.Run
import Mathlib.Data.List.Count

/-!
# Round robin

Tasks wait in a list for their turn. The first gets it and goes to the end (`Turn.turn`); a task
comes in anywhere and leaves from anywhere. So between two turns of one task every other task that
stays has its turn exactly once (`count_eq_one`): it waits before the first when it has had it, and
behind it when it has not.
-/

namespace Lib.RoundRobin

variable {α : Type*} [DecidableEq α]

/-- **What happens to the list**, and who gets a turn. -/
inductive Turn : List α → Option α → List α → Prop where
  /-- The first gets its turn. -/
  | turn {x : α} {l : List α} : Turn (x :: l) (some x) (l ++ [x])
  /-- A new task comes in. -/
  | join {x : α} {l₁ l₂ : List α} : x ∉ l₁ ++ l₂ → Turn (l₁ ++ l₂) none (l₁ ++ x :: l₂)
  /-- A task leaves. -/
  | leave (x : α) {l : List α} : Turn l none (l.erase x)
  /-- Nothing. -/
  | stay {l : List α} : Turn l none l

theorem Turn.nodup {l l' : List α} {e : Option α} (h : Turn l e l') (hnd : l.Nodup) : l'.Nodup := by
  cases h with
  | turn => exact (List.perm_append_singleton _ _).nodup_iff.2 hnd
  | join hx => exact List.perm_middle.nodup_iff.2 (List.nodup_cons.2 ⟨hx, hnd⟩)
  | leave => exact hnd.erase _
  | stay => exact hnd

/-- Since the last turn of `x`, the task `y` has had `n` turns: it waits before `x` as long as it
has had none, and behind `x` when it has had one. -/
def Waits (x y : α) (n : ℕ) (l : List α) : Prop :=
  ∃ l₁ l₂, l = l₁ ++ x :: l₂ ∧ ((y ∈ l₁ ∧ n = 0) ∨ (y ∈ l₂ ∧ n = 1))

/-- **One step.** -/
theorem Waits.step {x y : α} {n : ℕ} {l l' : List α} {e : Option α} (h : Waits x y n l) (hnd : l.Nodup)
    (hT : Turn l e l') (hx : x ∈ l') (hy : y ∈ l') (he : e ≠ some x) :
    Waits x y (n + [e].count (some y)) l' := by
  obtain ⟨l₁, l₂, hl, hw⟩ := h
  cases hT with
  | @turn z m =>
    cases l₁ with
    | nil =>
      obtain ⟨rfl, -⟩ := List.cons.inj hl
      exact absurd rfl he
    | cons w l₁ =>
      obtain ⟨rfl, rfl⟩ := List.cons.inj hl
      refine ⟨l₁, l₂ ++ [z], by simp, ?_⟩
      by_cases hyz : y = z
      · subst hyz
        -- the turn is that of `y`, which waited before `x`
        have hn : n = 0 := by
          rcases hw with ⟨-, hn⟩ | ⟨hm, -⟩
          · exact hn
          · rw [List.nodup_cons] at hnd
            exact absurd (by simp [hm]) hnd.1
        exact .inr ⟨by simp, by simp [hn]⟩
      · have hc : [some z].count (some y) = 0 := by simp [Ne.symm hyz]
        rw [hc, Nat.add_zero]
        refine hw.imp (fun ⟨hm, hn⟩ => ⟨?_, hn⟩) fun ⟨hm, hn⟩ => ⟨List.mem_append_left _ hm, hn⟩
        exact (List.mem_cons.1 hm).resolve_left hyz
  | @join z m₁ m₂ hz =>
    rcases List.append_eq_append_iff.1 hl with ⟨a, rfl, rfl⟩ | ⟨c, rfl, hc⟩
    · refine ⟨m₁ ++ z :: a, l₂, by simp, hw.imp_left fun ⟨hm, hn⟩ => ⟨?_, hn⟩⟩
      rcases List.mem_append.1 hm with hm | hm <;> simp [hm]
    · cases c with
      | nil =>
        obtain rfl : x :: l₂ = m₂ := hc
        exact ⟨l₁ ++ [z], l₂, by simp, hw.imp_left fun ⟨hm, hn⟩ => ⟨List.mem_append_left _ hm, hn⟩⟩
      | cons w c =>
        obtain ⟨rfl, rfl⟩ := List.cons.inj hc
        refine ⟨l₁, c ++ z :: m₂, by simp, hw.imp_right fun ⟨hm, hn⟩ => ⟨?_, hn⟩⟩
        rcases List.mem_append.1 hm with hm | hm <;> simp [hm]
  | leave z =>
    have hzx : x ≠ z := fun h => hnd.not_mem_erase (h ▸ hx)
    have hzy : y ≠ z := fun h => hnd.not_mem_erase (h ▸ hy)
    rw [hl, List.erase_append]
    split
    next => exact ⟨l₁.erase z, l₂, rfl, hw.imp_left fun ⟨hm, hn⟩ => ⟨(List.mem_erase_of_ne hzy).2 hm, hn⟩⟩
    next =>
      rw [List.erase_cons_tail (by simpa using hzx)]
      exact ⟨l₁, l₂.erase z, rfl, hw.imp_right fun ⟨hm, hn⟩ => ⟨(List.mem_erase_of_ne hzy).2 hm, hn⟩⟩
  | stay => exact ⟨l₁, l₂, hl, hw⟩

/-- **Between two turns of `x`** every other task that stays has its turn exactly once. -/
theorem count_eq_one {x y : α} {l l' : List α} {es : List (Option α)} (hnd : (l ++ [x]).Nodup)
    (hne : y ≠ x) (hy : y ∈ l ++ [x])
    (h : Run Turn (fun l e => x ∈ l ∧ y ∈ l ∧ e ≠ some x) (l ++ [x]) es (x :: l')) (hy' : y ∈ x :: l') :
    es.count (some y) = 1 := by
  have hyl : y ∈ l := by simpa [hne] using hy
  obtain ⟨hnd', hw⟩ := h.history
    (I := fun es l => l.Nodup ∧ (x ∈ l → y ∈ l → Waits x y (es.count (some y)) l))
    ⟨hnd, fun _ _ => ⟨l, [], rfl, .inl ⟨hyl, rfl⟩⟩⟩
    fun {es t u e} hI ⟨hx, hy, he⟩ hT => ⟨hT.nodup hI.1, fun hx' hy' => by
      rw [List.count_append]
      exact (hI.2 hx hy).step hI.1 hT hx' hy' he⟩
  obtain ⟨l₁, l₂, hl, ⟨hm, -⟩ | ⟨-, hn⟩⟩ := hw (List.mem_cons_self ..) hy'
  · cases l₁ with
    | nil => simp at hm
    | cons z l₁ =>
      obtain ⟨rfl, rfl⟩ := List.cons.inj hl
      rw [List.nodup_cons] at hnd'
      exact absurd (by simp) hnd'.1
  · exact hn

end Lib.RoundRobin
