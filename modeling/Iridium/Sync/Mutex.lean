import Iridium.Lib.Lock
import Iridium.Lib.Run
import Mathlib.Logic.Function.Basic

/-!
# Mutexes

`sync/mutex.c`, and `unistd.c` of libiridium, which has the same text. A mutex is a byte; `mutex_acquire`
tests and sets it until it finds it clear, and `mutex_release` clears it. Any number of tasks use it, in any
order of their steps (`mutex_exclusive`).
-/

namespace Iridium

/-! ### The code -/

/-- `MUTEX_T`. -/
abbrev MUTEX_T := UInt8

def MUTEX_UNLOCKED : MUTEX_T := 0

/-- `__atomic_test_and_set`: whether the byte was set, and the byte. -/
def atomic_test_and_set (lock : MUTEX_T) : Bool × MUTEX_T := (lock != 0, 1)

/-- A turn of the loop of `mutex_acquire`: whether it was the last, and the byte. -/
def mutex_acquire (lock : MUTEX_T) : Bool × MUTEX_T := (!(atomic_test_and_set lock).1, (atomic_test_and_set lock).2)

/-- `mutex_release`: `__atomic_clear`. -/
def mutex_release : MUTEX_T → MUTEX_T := fun _ => 0

theorem mutex_acquire_fst (lock : MUTEX_T) : (mutex_acquire lock).1 = true ↔ lock = MUTEX_UNLOCKED := by
  simp [mutex_acquire, atomic_test_and_set, MUTEX_UNLOCKED]

@[simp] theorem mutex_acquire_snd (lock : MUTEX_T) : (mutex_acquire lock).2 = 1 := rfl

@[simp] theorem mutex_release_eq (lock : MUTEX_T) : mutex_release lock = MUTEX_UNLOCKED := rfl

/-! ### The tasks -/

/-- Where a task is. -/
inductive MutexPlace where
  /-- Elsewhere. -/
  | outside
  /-- In the loop of `mutex_acquire`. -/
  | acquiring
  /-- Between the return of `mutex_acquire` and `mutex_release`. -/
  | inside
  deriving DecidableEq

/-- A mutex and where the tasks are that use it. -/
structure MutexUse (T : Type*) where
  lock : MUTEX_T
  place : T → MutexPlace

/-- What a task does. -/
inductive MutexCall (T : Type*) where
  /-- It enters `mutex_acquire`. -/
  | enter (t : T)
  /-- It takes a turn of the loop, which is the last or not. -/
  | turn (t : T) (returned : Bool)
  /-- `mutex_release`. -/
  | release (t : T)

variable {T : Type*}

/-- The task that a step lets in. -/
def MutexCall.acquires : MutexCall T → Option T
  | turn t true => some t
  | _ => none

/-- The task that a step lets out. -/
def MutexCall.releases : MutexCall T → Option T
  | release t => some t
  | _ => none

@[simp] theorem MutexCall.acquires_enter (t : T) : (enter t).acquires = none := rfl

@[simp] theorem MutexCall.acquires_turn (t : T) : (turn t true).acquires = some t := rfl

@[simp] theorem MutexCall.acquires_again (t : T) : (turn t false).acquires = none := rfl

@[simp] theorem MutexCall.acquires_release (t : T) : (release t).acquires = none := rfl

@[simp] theorem MutexCall.releases_enter (t : T) : (enter t).releases = none := rfl

@[simp] theorem MutexCall.releases_turn (t : T) (returned : Bool) : (turn t returned).releases = none := rfl

@[simp] theorem MutexCall.releases_release (t : T) : (release t).releases = some t := rfl

variable [DecidableEq T]

/-- **A step.** -/
def MutexStep (s : MutexUse T) : MutexCall T → MutexUse T → Prop
  | .enter t, s' => s.place t = .outside ∧ s' = ⟨s.lock, Function.update s.place t .acquiring⟩
  | .turn t returned, s' => s.place t = .acquiring ∧ returned = (mutex_acquire s.lock).1 ∧
      s' = ⟨(mutex_acquire s.lock).2, if returned then Function.update s.place t .inside else s.place⟩
  | .release t, s' => s.place t = .inside ∧ s' = ⟨mutex_release s.lock, Function.update s.place t .outside⟩

/-- A mutex that nobody uses. -/
def MutexUse.start (T : Type*) : MutexUse T := ⟨MUTEX_UNLOCKED, fun _ => .outside⟩

/-- The tasks took these steps, in any order that the code allows. -/
abbrev MutexRun (cs : List (MutexCall T)) (s : MutexUse T) : Prop :=
  Lib.Run MutexStep (fun _ _ => True) (.start T) cs s

/-- **The mutex excludes**: at most one task is inside, the byte says whether one is, and a turn returns just
when none is. The tasks came out in the order in which they went in, each before the next went in. -/
structure MutexUse.Excludes (s : MutexUse T) (cs : List (MutexCall T)) : Prop where
  one : ∀ t u, s.place t = .inside → s.place u = .inside → t = u
  byte : s.lock ≠ MUTEX_UNLOCKED ↔ ∃ t, s.place t = .inside
  turns : ∀ t returned s', MutexStep s (.turn t returned) s' → (returned = true ↔ ∀ u, s.place u ≠ .inside)
  order : (∃ t, s.place t = .inside ∧ cs.filterMap (·.acquires) = cs.filterMap (·.releases) ++ [t]) ∨
    (∀ t, s.place t ≠ .inside) ∧ cs.filterMap (·.acquires) = cs.filterMap (·.releases)

/-! ### One step -/

/-- The lock keeps the tasks apart, is held by one that is inside, and was passed on one by one. -/
structure MutexUse.Orderly (s : MutexUse T) (cs : List (MutexCall T)) : Prop where
  behind : Lib.Behind (s.lock ≠ MUTEX_UNLOCKED) fun t => s.place t = .inside
  passed : (s.lock = MUTEX_UNLOCKED ∧ cs.filterMap (·.acquires) = cs.filterMap (·.releases)) ∨
    ∃ t, s.place t = .inside ∧ cs.filterMap (·.acquires) = cs.filterMap (·.releases) ++ [t]

section Step

variable {s s' : MutexUse T} {c : MutexCall T} {cs : List (MutexCall T)} {t u : T} {p : MutexPlace}

theorem inside_update (hp : p ≠ .inside) : Function.update s.place t p u = .inside → s.place u = .inside ∧ u ≠ t := by
  intro hu
  by_cases he : u = t
  · rw [he, Function.update_self] at hu
    exact absurd hu hp
  · rw [Function.update_of_ne he] at hu
    exact ⟨hu, he⟩

theorem MutexUse.Orderly.enter (h : s.Orderly cs) (ht : s.place t = .outside) :
    MutexUse.Orderly ⟨s.lock, Function.update s.place t .acquiring⟩ (cs ++ [.enter t]) := by
  refine ⟨h.behind.mono fun u hu => (inside_update (p := .acquiring) nofun hu).1, ?_⟩
  refine h.passed.imp (fun ⟨hl, heq⟩ => ⟨hl, by simpa [List.filterMap_cons] using heq⟩) fun ⟨u, hu, heq⟩ =>
    ⟨u, ?_, by simpa [List.filterMap_cons] using heq⟩
  have hne : u ≠ t := by
    rintro rfl
    rw [ht] at hu
    cases hu
  exact (Function.update_of_ne hne ..).trans hu

/-- **A task goes in**: the byte was clear. -/
theorem MutexUse.Orderly.acquire (h : s.Orderly cs) (hl : s.lock = MUTEX_UNLOCKED) :
    MutexUse.Orderly ⟨1, Function.update s.place t .inside⟩ (cs ++ [.turn t true]) := by
  have hset : (1 : MUTEX_T) ≠ MUTEX_UNLOCKED := by decide
  refine ⟨h.behind.acquire (t := t) (not_not.2 hl) hset fun u hu => ?_, .inr ⟨t, Function.update_self .., ?_⟩⟩
  · by_cases he : u = t
    · exact .inl he
    · exact .inr ((Function.update_of_ne he ..).symm.trans hu)
  · rcases h.passed with ⟨-, heq⟩ | ⟨u, hu, -⟩
    · simpa [List.filterMap_cons] using heq
    · exact absurd hu (h.behind.free (not_not.2 hl) u)

/-- **The task inside goes out.** -/
theorem MutexUse.Orderly.release (h : s.Orderly cs) (ht : s.place t = .inside) :
    MutexUse.Orderly ⟨MUTEX_UNLOCKED, Function.update s.place t .outside⟩ (cs ++ [.release t]) := by
  refine ⟨h.behind.release ht fun u hu => inside_update (p := .outside) nofun hu, .inl ⟨rfl, ?_⟩⟩
  rcases h.passed with ⟨hl, -⟩ | ⟨u, hu, heq⟩
  · exact absurd ht (h.behind.free (not_not.2 hl) t)
  · obtain rfl := h.behind.one t u ht hu
    simpa [List.filterMap_cons] using heq

/-- **One step.** -/
theorem MutexUse.Orderly.step (h : s.Orderly cs) (hs : MutexStep s c s') : s'.Orderly (cs ++ [c]) := by
  cases c with
  | enter t =>
    obtain ⟨ht, rfl⟩ := hs
    exact h.enter ht
  | turn t returned =>
    obtain ⟨-, hr, rfl⟩ := hs
    cases returned with
    | true => exact h.acquire ((mutex_acquire_fst _).1 hr.symm)
    | false =>
      -- the byte was set already
      have hl : s.lock ≠ MUTEX_UNLOCKED := fun hl => by
        rw [(mutex_acquire_fst _).2 hl] at hr
        cases hr
      have hset : (1 : MUTEX_T) ≠ MUTEX_UNLOCKED := by decide
      refine ⟨⟨h.behind.one, fun hf => absurd hset hf⟩, ?_⟩
      rcases h.passed with ⟨hf, -⟩ | ⟨u, hu, heq⟩
      · exact absurd hf hl
      · exact .inr ⟨u, hu, by simpa [List.filterMap_cons] using heq⟩
  | release t =>
    obtain ⟨ht, rfl⟩ := hs
    exact h.release ht

theorem MutexUse.Orderly.excludes (h : s.Orderly cs) : s.Excludes cs := by
  have hbyte : s.lock ≠ MUTEX_UNLOCKED ↔ ∃ t, s.place t = .inside := by
    refine ⟨fun hl => ?_, fun ⟨t, ht⟩ => h.behind.held_of ht⟩
    obtain ⟨t, ht, -⟩ := h.passed.resolve_left fun hf => hl hf.1
    exact ⟨t, ht⟩
  refine ⟨h.behind.one, hbyte, fun t returned s' ⟨_, hr, _⟩ => ?_, ?_⟩
  · rw [hr, mutex_acquire_fst, ← not_iff_not, ← ne_eq, hbyte]
    simp
  · rcases h.passed with ⟨hl, heq⟩ | ⟨t, ht, heq⟩
    · exact .inr ⟨h.behind.free (not_not.2 hl), heq⟩
    · exact .inl ⟨t, ht, heq⟩

end Step

/-- **In every run**, of any number of tasks and in any order of their steps, the mutex excludes. -/
theorem mutex_exclusive {cs : List (MutexCall T)} {s : MutexUse T} (h : MutexRun cs s) : s.Excludes cs := by
  have hstart : (MutexUse.start T).Orderly [] := ⟨.nobody nofun, .inl ⟨rfl, rfl⟩⟩
  exact (h.history (I := fun cs (s : MutexUse T) => s.Orderly cs) hstart fun hI _ hS => hI.step hS).excludes

/-- Two tasks want in, and the first is let in. -/
theorem mutex_exclusive_two : ∃ s : MutexUse Bool, s.place true = .inside ∧ s.place false = .acquiring ∧
    s.Excludes [.enter true, .enter false, .turn true true, .turn false false] := by
  have h₁ : MutexRun [MutexCall.enter true] _ := .single trivial ⟨rfl, rfl⟩
  have h₂ : MutexRun [MutexCall.enter true, .enter false] _ := h₁.snoc trivial ⟨rfl, rfl⟩
  have h₃ : MutexRun [MutexCall.enter true, .enter false, .turn true true] _ := h₂.snoc trivial ⟨rfl, rfl, rfl⟩
  exact ⟨_, rfl, rfl, mutex_exclusive (h₃.snoc trivial ⟨rfl, rfl, rfl⟩)⟩

end Iridium
