import Iridium.Common.Errno
import Iridium.Lib.Run
import Mathlib.Data.Finset.Card
import Mathlib.Data.Fintype.Card

/-!
# Semaphores

`sync/semaphore.c` and `sync/spinlock.c`, and any number of tasks that share a semaphore. A task
that finds `n` positive takes one; the others set the lock byte and spin until it is clear. What
they take then is nothing: `n` stays as it is. So the count is right up to the first return of a
task that had to wait, and wrong after it (`counted_iff`).
-/

namespace Iridium

/-! ### The code -/

/-- `SEMAPHORE_TYPE_T`. -/
inductive SEMAPHORE_TYPE_T where
  | SEMAPHORE_LOCK
  | SEMAPHORE_REJECT
  deriving DecidableEq, Repr

/-- `SEMAPHORE_T`. -/
structure SEMAPHORE_T where
  n : UInt64
  max_n : UInt64
  lock : UInt8
  type : SEMAPHORE_TYPE_T
  deriving DecidableEq, Repr

open SEMAPHORE_TYPE_T

def SPINLOCK_ACQUIRED : UInt8 := 1
def SPINLOCK_RELEASED : UInt8 := 0

/-- `SEMAPHORE_WRITE_INIT`. -/
def SEMAPHORE_WRITE_INIT (sem_type : SEMAPHORE_TYPE_T) (max_n_cnt : UInt64) : SEMAPHORE_T :=
  ⟨max_n_cnt, max_n_cnt, 0, sem_type⟩

/-- `semaphore_up`. -/
def semaphore_up (sem : SEMAPHORE_T) : SEMAPHORE_T :=
  let sem := if sem.n < sem.max_n then { sem with n := sem.n + 1 } else sem
  if sem.n = 1 ∧ sem.type = SEMAPHORE_LOCK then { sem with lock := SPINLOCK_RELEASED } else sem

/-- `semaphore_down`, up to where it returns (`true`) or begins to spin in `spinlock_acquire`, with
the byte stored. -/
def semaphore_down (sem : SEMAPHORE_T) : Kern (Bool × SEMAPHORE_T) := do
  ASSERT (sem.type = SEMAPHORE_LOCK)
  if sem.n > 0 then return (true, { sem with n := sem.n - 1 })
  else return (false, { sem with lock := SPINLOCK_ACQUIRED })

/-! ### The tasks -/

/-- A semaphore and the tasks that use it: those that spin, and those between the return of their
`semaphore_down` and their `semaphore_up`. -/
structure SemUse (T : Type*) where
  sem : SEMAPHORE_T
  waiting : Finset T
  inside : Finset T

/-- What a task does. -/
inductive SemCall (T : Type*) where
  /-- It enters `semaphore_down`. -/
  | down (t : T)
  /-- It finds the lock byte clear, and its `semaphore_down` returns. -/
  | leave (t : T)
  /-- `semaphore_up`. -/
  | up (t : T)

variable {T : Type*} [DecidableEq T] {m : UInt64} {s s' : SemUse T} {c : SemCall T} {t : T}

/-- **A step.** A task that is neither inside nor waiting may enter, one that waits may return when the
lock byte is clear, and one inside may leave. -/
def SemStep (s : SemUse T) : SemCall T → SemUse T → Prop
  | .down t, s' => t ∉ s.waiting ∧ t ∉ s.inside ∧ ∃ returned sem,
      semaphore_down s.sem = .ok (returned, sem) ∧
      s' = if returned then ⟨sem, s.waiting, insert t s.inside⟩ else ⟨sem, insert t s.waiting, s.inside⟩
  | .leave t, s' => t ∈ s.waiting ∧ s.sem.lock = SPINLOCK_RELEASED ∧
      s' = ⟨s.sem, s.waiting.erase t, insert t s.inside⟩
  | .up t, s' => t ∈ s.inside ∧ s' = ⟨semaphore_up s.sem, s.waiting, s.inside.erase t⟩

/-- A lock for `m` tasks, and nobody there. -/
def SemUse.start (T : Type*) (m : UInt64) : SemUse T := ⟨SEMAPHORE_WRITE_INIT SEMAPHORE_LOCK m, ∅, ∅⟩

/-- The tasks took these steps, in any order that the code allows. -/
abbrev SemRun (m : UInt64) (cs : List (SemCall T)) (s : SemUse T) : Prop :=
  Lib.Run SemStep (fun _ _ => True) (.start T m) cs s

/-- **The count is right**: at most `m` tasks are inside, and `n` is what is left. -/
structure SemUse.Counted (m : UInt64) (s : SemUse T) : Prop where
  few : s.inside.card ≤ m.toNat
  left : s.sem.n.toNat + s.inside.card = s.sem.max_n.toNat

/-- What no step changes: the kind and the bound, and that nobody inside waits. -/
structure SemUse.Orderly (m : UInt64) (s : SemUse T) : Prop where
  type : s.sem.type = SEMAPHORE_LOCK
  max_n : s.sem.max_n = m
  disjoint : Disjoint s.waiting s.inside

/-! ### The operations -/

@[simp] theorem semaphore_up_type (sem : SEMAPHORE_T) : (semaphore_up sem).type = sem.type := by
  unfold semaphore_up
  dsimp only
  split_ifs <;> rfl

@[simp] theorem semaphore_up_max_n (sem : SEMAPHORE_T) : (semaphore_up sem).max_n = sem.max_n := by
  unfold semaphore_up
  dsimp only
  split_ifs <;> rfl

/-- One unit is put back, unless all are there. -/
theorem semaphore_up_n (sem : SEMAPHORE_T) (h : sem.n.toNat < sem.max_n.toNat) :
    (semaphore_up sem).n.toNat = sem.n.toNat + 1 := by
  have hmax := sem.max_n.toNat_lt
  have hadd : (sem.n + 1).toNat = sem.n.toNat + 1 := by
    rw [UInt64.toNat_add, UInt64.toNat_one, Nat.mod_eq_of_lt (by omega)]
  have hlt : sem.n < sem.max_n := UInt64.lt_iff_toNat_lt.2 h
  rw [← hadd]
  unfold semaphore_up
  rw [if_pos hlt]
  dsimp only
  split_ifs <;> rfl

/-- **What `semaphore_down` does**: with a unit there it takes it and returns, with none it waits. -/
theorem semaphore_down_cases {sem sem' : SEMAPHORE_T} {returned : Bool}
    (h : semaphore_down sem = .ok (returned, sem')) : sem.type = SEMAPHORE_LOCK ∧
      ((returned = true ∧ 0 < sem.n ∧ sem' = { sem with n := sem.n - 1 }) ∨
        (returned = false ∧ sem.n = 0 ∧ sem' = { sem with lock := SPINLOCK_ACQUIRED })) := by
  obtain ⟨u, hu, h⟩ := bind_ok.1 h
  refine ⟨of_decide_eq_true (ASSERT_ok.1 hu), ?_⟩
  split at h
  next hn =>
    obtain ⟨rfl, rfl⟩ := Prod.mk.inj (pure_ok.1 h)
    exact .inl ⟨rfl, hn, rfl⟩
  next hn =>
    obtain ⟨rfl, rfl⟩ := Prod.mk.inj (pure_ok.1 h)
    refine .inr ⟨rfl, UInt64.toNat_inj.1 ?_, rfl⟩
    have hle := UInt64.le_iff_toNat_le.1 (UInt64.not_lt.1 hn)
    simpa using hle

/-! ### One step -/

/-- What a task that enters does. -/
theorem SemStep.down_cases (h : SemStep s (.down t) s') : t ∉ s.waiting ∧ t ∉ s.inside ∧
    s.sem.type = SEMAPHORE_LOCK ∧
    ((0 < s.sem.n ∧ s' = ⟨{ s.sem with n := s.sem.n - 1 }, s.waiting, insert t s.inside⟩) ∨
      (s.sem.n = 0 ∧ s' = ⟨{ s.sem with lock := SPINLOCK_ACQUIRED }, insert t s.waiting, s.inside⟩)) := by
  obtain ⟨hw, hi, returned, sem, hd, hs⟩ := h
  obtain ⟨htype, ⟨rfl, hn, rfl⟩ | ⟨rfl, hn, rfl⟩⟩ := semaphore_down_cases hd
  · exact ⟨hw, hi, htype, .inl ⟨hn, hs⟩⟩
  · exact ⟨hw, hi, htype, .inr ⟨hn, hs⟩⟩

theorem SemUse.Orderly.step (h : s.Orderly m) (hc : SemStep s c s') : s'.Orderly m := by
  cases c with
  | down t =>
    obtain ⟨hw, hi, -, ⟨-, rfl⟩ | ⟨-, rfl⟩⟩ := hc.down_cases
    · exact ⟨h.type, h.max_n, Finset.disjoint_insert_right.2 ⟨hw, h.disjoint⟩⟩
    · exact ⟨h.type, h.max_n, Finset.disjoint_insert_left.2 ⟨hi, h.disjoint⟩⟩
  | leave t =>
    obtain ⟨-, -, rfl⟩ := hc
    refine ⟨h.type, h.max_n, Finset.disjoint_insert_right.2 ⟨Finset.notMem_erase t _, ?_⟩⟩
    exact h.disjoint.mono_left (Finset.erase_subset t _)
  | up t =>
    obtain ⟨-, rfl⟩ := hc
    refine ⟨(semaphore_up_type _).trans h.type, (semaphore_up_max_n _).trans h.max_n, ?_⟩
    exact h.disjoint.mono_right (Finset.erase_subset t _)

/-- **A step keeps the count**, unless a task that had to wait returns. -/
theorem SemUse.Counted.step (hk : s.Counted m) (ho : s.Orderly m) (hc : SemStep s c s')
    (hno : ∀ t, c ≠ .leave t) : s'.Counted m := by
  have hleft := hk.left
  rw [ho.max_n] at hleft
  cases c with
  | down t =>
    obtain ⟨-, hi, -, ⟨hn, rfl⟩ | ⟨-, rfl⟩⟩ := hc.down_cases
    · have hpos : 0 < s.sem.n.toNat := UInt64.lt_iff_toNat_lt.1 hn
      have hsub : (s.sem.n - 1).toNat = s.sem.n.toNat - 1 :=
        UInt64.toNat_sub_of_le _ _ (UInt64.le_iff_toNat_le.2 hpos)
      have hcard := Finset.card_insert_of_notMem hi
      refine ⟨by rw [hcard]; omega, ?_⟩
      rw [hsub, hcard, ho.max_n]
      omega
    · exact ⟨hk.few, hk.left⟩
  | leave t => exact absurd rfl (hno t)
  | up t =>
    obtain ⟨hi, rfl⟩ := hc
    have hcard := Finset.card_erase_add_one hi
    have hn : s.sem.n.toNat < s.sem.max_n.toNat := by
      rw [ho.max_n]
      omega
    refine ⟨show (s.inside.erase t).card ≤ m.toNat by omega, ?_⟩
    rw [semaphore_up_n _ hn, semaphore_up_max_n, ho.max_n]
    change s.sem.n.toNat + 1 + (s.inside.erase t).card = m.toNat
    omega

/-- **The return of a task that had to wait** takes no unit: there is one task more inside. -/
theorem SemUse.Counted.leave (hk : s.Counted m) (ho : s.Orderly m) (hc : SemStep s (.leave t) s') :
    ¬s'.Counted m := by
  obtain ⟨hw, -, rfl⟩ := hc
  intro hk'
  have hi : t ∉ s.inside := fun hi => Finset.disjoint_left.1 ho.disjoint hw hi
  have hcard := Finset.card_insert_of_notMem hi
  have hleft := hk.left
  have hleft' : s.sem.n.toNat + (insert t s.inside).card = s.sem.max_n.toNat := hk'.left
  omega

/-! ### Every order of steps -/

theorem SemUse.orderly_start (T : Type*) (m : UInt64) : (start T m).Orderly m :=
  ⟨rfl, rfl, Finset.disjoint_empty_left _⟩

theorem SemUse.counted_start (T : Type*) (m : UInt64) : (start T m).Counted m :=
  ⟨Nat.zero_le _, rfl⟩

theorem SemRun.orderly {cs : List (SemCall T)} (h : SemRun m cs s) : s.Orderly m :=
  h.invariant (SemUse.orderly_start T m) fun ho _ hc => ho.step hc

/-- In a run without such a return the count is right. -/
theorem SemRun.counted {cs : List (SemCall T)} (h : SemRun m cs s) (hno : ∀ t, .leave t ∉ cs) :
    s.Counted m := by
  have hne : ∀ c ∈ cs, ∀ t, c ≠ .leave t := by
    rintro c hc t rfl
    exact hno t hc
  have hrun := (h.and_mem hne).invariant (I := fun s => s.Orderly m ∧ s.Counted m)
    ⟨SemUse.orderly_start T m, SemUse.counted_start T m⟩
    fun hs hC hc => ⟨hs.1.step hc, hs.2.step hs.1 hc hC.2⟩
  exact hrun.2

/-- **The count is right all along** exactly in the runs in which no task that had to wait returns. -/
theorem counted_iff {cs : List (SemCall T)} (h : SemRun m cs s) :
    (∀ as bs s', cs = as ++ bs → SemRun m as s' → s'.Counted m) ↔ ∀ t, .leave t ∉ cs := by
  constructor
  · intro hall
    induction h with
    | nil => exact fun _ => List.not_mem_nil
    | @snoc cs s₁ s₂ c h _ hc ih =>
      have hbefore := ih fun as bs s' hs hr =>
        hall as (bs ++ [c]) s' (by rw [hs, List.append_assoc]) hr
      intro t ht
      rcases List.mem_append.1 ht with hin | hlast
      · exact hbefore t hin
      · obtain rfl := List.mem_singleton.1 hlast
        have hk : s₁.Counted m := hall cs [.leave t] s₁ rfl h
        exact hk.leave (SemRun.orderly h) hc (hall _ [] s₂ (List.append_nil _).symm (h.snoc trivial hc))
  · intro hno as bs s' hs hr
    exact hr.counted fun t ht => hno t (by rw [hs]; exact List.mem_append_left _ ht)

/-- One task comes and goes, and another one waits for it. -/
theorem one_waits : SemRun (T := ℕ) 1 [.down 0, .down 1, .up 0] ⟨⟨1, 1, 0, SEMAPHORE_LOCK⟩, {1}, ∅⟩ := by
  have h₁ : SemRun (T := ℕ) 1 [.down 0] ⟨⟨0, 1, 0, SEMAPHORE_LOCK⟩, ∅, {0}⟩ :=
    .single trivial ⟨by decide, by decide, true, _, rfl, rfl⟩
  have h₂ : SemRun (T := ℕ) 1 [.down 0, .down 1] ⟨⟨0, 1, 1, SEMAPHORE_LOCK⟩, {1}, {0}⟩ :=
    h₁.snoc trivial ⟨by decide, by decide, false, _, rfl, rfl⟩
  exact h₂.snoc trivial ⟨by decide, rfl⟩

theorem counted_one_waits : (⟨⟨1, 1, 0, SEMAPHORE_LOCK⟩, {1}, ∅⟩ : SemUse ℕ).Counted 1 :=
  (counted_iff one_waits).2 (by simp) _ [] _ (List.append_nil _).symm one_waits

/-- **Two tasks inside a lock for one**: the second waits, the first leaves and clears the lock byte,
the second returns, and the third still finds the unit that the first put back. -/
theorem not_counted : ∃ cs s, SemRun (T := ℕ) 1 cs s ∧ s.inside = {1, 2} ∧ ¬s.Counted 1 := by
  have h₄ : SemRun (T := ℕ) 1 [.down 0, .down 1, .up 0, .leave 1] ⟨⟨1, 1, 0, SEMAPHORE_LOCK⟩, ∅, {1}⟩ :=
    one_waits.snoc trivial ⟨by decide, rfl, rfl⟩
  have h₅ : SemRun (T := ℕ) 1 [.down 0, .down 1, .up 0, .leave 1, .down 2]
      ⟨⟨0, 1, 0, SEMAPHORE_LOCK⟩, ∅, {2, 1}⟩ :=
    h₄.snoc trivial ⟨by decide, by decide, true, _, rfl, rfl⟩
  refine ⟨_, _, h₅, Finset.pair_comm 2 1, fun hk => ?_⟩
  exact absurd hk.few (by decide)

/-- **Few tasks never wait**: when there are no more than `m`, the count is right in every run. -/
theorem counted_of_few [Fintype T] {cs : List (SemCall T)} (hT : Fintype.card T ≤ m.toNat)
    (h : SemRun m cs s) : s.Counted m := by
  have hrun := h.invariant (I := fun s => (s.Orderly m ∧ s.Counted m) ∧ s.waiting = ∅)
    ⟨⟨SemUse.orderly_start T m, SemUse.counted_start T m⟩, rfl⟩ fun {s₁ s₂ c} hs _ hc => by
      obtain ⟨⟨ho, hk⟩, hw⟩ := hs
      have hno : ∀ t, c ≠ .leave t := by
        rintro t rfl
        rw [SemStep, hw] at hc
        exact absurd hc.1 (Finset.notMem_empty t)
      refine ⟨⟨ho.step hc, hk.step ho hc hno⟩, ?_⟩
      cases c with
      | down t =>
        obtain ⟨-, hi, -, ⟨-, rfl⟩ | ⟨hn, -⟩⟩ := hc.down_cases
        · exact hw
        · -- with no unit left `m` tasks are inside, and `t` is one more
          have hlt := Finset.card_lt_univ_of_notMem hi
          have hleft := hk.left
          rw [hn, ho.max_n, UInt64.toNat_zero] at hleft
          omega
      | leave t => exact absurd rfl (hno t)
      | up t =>
        obtain ⟨-, rfl⟩ := hc
        exact hw
  exact hrun.1.2

end Iridium
