import Mathlib.Tactic.Common

/-!
# Bursts of words

A stream of words is read as commands: a word names a command, and the words after it are its
arguments, as many as the command's arity says. A word of arity zero in the place of a command
stands for nothing. `Parse` is this grammar; what is left of a command that has not got all its
arguments yet is pending.

A reader that gets one word after the other need only keep the pending words: `feed`, with
`Parse.snoc`.
-/

namespace Lib.Burst

variable {W : Type*} {arity : W → ℕ}

/-- **The grammar**: a stream, its commands with their arguments, and what is pending. -/
inductive Parse (arity : W → ℕ) : List W → List (W × List W) → List W → Prop where
  /-- Nothing is read. -/
  | nil : Parse arity [] [] []
  /-- A word that is no command. -/
  | skip {w : W} {ws p : List W} {cs : List (W × List W)} : arity w = 0 → Parse arity ws cs p →
      Parse arity (w :: ws) cs p
  /-- A command with its arguments. -/
  | command {w : W} {args ws p : List W} {cs : List (W × List W)} : args ≠ [] → args.length = arity w →
      Parse arity ws cs p → Parse arity (w :: (args ++ ws)) ((w, args) :: cs) p
  /-- A command that has not got all its arguments. -/
  | pending {w : W} {args : List W} : args.length < arity w → Parse arity (w :: args) [] (w :: args)

/-- One word more: the command it completes, if it does, and what is pending then. -/
def feed (arity : W → ℕ) (p : List W) (w : W) : List (W × List W) × List W :=
  match p with
  | [] => if arity w = 0 then ([], []) else ([], [w])
  | c :: args => if args.length + 1 < arity c then ([], c :: (args ++ [w])) else ([(c, args ++ [w])], [])

/-- **A stream of one word more.** -/
theorem Parse.snoc {ws p : List W} {cs : List (W × List W)} (h : Parse arity ws cs p) (w : W) :
    Parse arity (ws ++ [w]) (cs ++ (feed arity p w).1) (feed arity p w).2 := by
  induction h with
  | nil =>
    rw [List.nil_append, List.nil_append]
    by_cases h0 : arity w = 0
    · rw [feed, if_pos h0]
      exact .skip h0 .nil
    · rw [feed, if_neg h0]
      exact .pending (Nat.pos_of_ne_zero h0)
  | skip h0 _ ih => exact .skip h0 ih
  | command hne hlen _ ih =>
    rw [List.cons_append, List.append_assoc]
    exact .command hne hlen ih
  | @pending c args hlt =>
    rw [List.cons_append, List.nil_append]
    have hlen : (args ++ [w]).length = args.length + 1 := by rw [List.length_append, List.length_singleton]
    by_cases hmore : args.length + 1 < arity c
    · rw [feed, if_pos hmore]
      exact .pending (hlen ▸ hmore)
    · rw [feed, if_neg hmore]
      have h := Parse.command (w := c) (by simp) (by omega : (args ++ [w]).length = arity c) .nil
      rwa [List.append_nil] at h

/-- **There is one way to read a stream.** -/
theorem Parse.unique {ws p p' : List W} {cs cs' : List (W × List W)} (h : Parse arity ws cs p)
    (h' : Parse arity ws cs' p') : cs = cs' ∧ p = p' := by
  induction h generalizing cs' with
  | nil =>
    cases h'
    exact ⟨rfl, rfl⟩
  | skip h0 _ ih =>
    cases h' with
    | skip _ h' => exact ih h'
    | command hne hlen =>
      rw [h0] at hlen
      exact absurd (List.length_eq_zero_iff.1 hlen) hne
    | pending hlt =>
      rw [h0] at hlt
      exact absurd hlt (Nat.not_lt_zero _)
  | @command w args ws _ _ hne hlen _ ih =>
    generalize hs : w :: (args ++ ws) = s at h'
    cases h' with
    | nil => cases hs
    | skip h0 =>
      obtain ⟨rfl, -⟩ := List.cons.inj hs
      rw [h0] at hlen
      exact absurd (List.length_eq_zero_iff.1 hlen) hne
    | command _ hlen' h' =>
      obtain ⟨rfl, he⟩ := List.cons.inj hs
      obtain ⟨rfl, rfl⟩ := List.append_inj he (hlen.trans hlen'.symm)
      obtain ⟨rfl, rfl⟩ := ih h'
      exact ⟨rfl, rfl⟩
    | pending hlt =>
      obtain ⟨rfl, rfl⟩ := List.cons.inj hs
      rw [List.length_append] at hlt
      omega
  | @pending w args hlt =>
    generalize hs : w :: args = s at h'
    cases h' with
    | nil => cases hs
    | skip h0 =>
      obtain ⟨rfl, -⟩ := List.cons.inj hs
      rw [h0] at hlt
      exact absurd hlt (Nat.not_lt_zero _)
    | command _ hlen' =>
      obtain ⟨rfl, rfl⟩ := List.cons.inj hs
      rw [List.length_append] at hlt
      omega
    | pending =>
      obtain ⟨rfl, rfl⟩ := List.cons.inj hs
      exact ⟨rfl, rfl⟩

end Lib.Burst
