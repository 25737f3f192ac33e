import Mathlib.Tactic.Common

/-!
# Locks

A lock keeps all tasks but one out of a place. `Behind held behind` says that it does: `held` is what the
lock says of itself, and `behind t` that the task `t` is where it leads to. A system shows it of its own lock
step by step: a task goes in when the lock is free, one that is behind goes out, and the others stay.
-/

namespace Lib

variable {T : Type*} {held held' : Prop} {behind behind' : T → Prop} {t : T}

/-- **The lock keeps the tasks apart**: one is behind it at most, and none when it is free. -/
structure Behind (held : Prop) (behind : T → Prop) : Prop where
  one : ∀ t u, behind t → behind u → t = u
  free : ¬held → ∀ t, ¬behind t

namespace Behind

/-- Nobody is there. -/
theorem nobody (h : ∀ t, ¬behind t) : Behind held behind where
  one t _ ht := absurd ht (h t)
  free _ := h

/-- The lock stays, and no task goes in. -/
theorem mono (h : Behind held behind) (hb : ∀ u, behind' u → behind u) : Behind held behind' where
  one u v hu hv := h.one u v (hb u hu) (hb v hv)
  free hf u hu := h.free hf u (hb u hu)

/-- **A task goes in**: the lock was free, and is held now. -/
theorem acquire (h : Behind held behind) (hf : ¬held) (hl : held') (hb : ∀ u, behind' u → u = t ∨ behind u) :
    Behind held' behind' where
  one u v hu hv := by
    have hu := (hb u hu).resolve_right (h.free hf u)
    have hv := (hb v hv).resolve_right (h.free hf v)
    exact hu.trans hv.symm
  free hn := absurd hl hn

/-- **A task goes out**, whatever the lock says then. -/
theorem release (h : Behind held behind) (ht : behind t) (hb : ∀ u, behind' u → behind u ∧ u ≠ t) :
    Behind held' behind' :=
  nobody fun u hu => (hb u hu).2 (h.one u t (hb u hu).1 ht)

/-- A lock with a task behind it is held. -/
theorem held_of (h : Behind held behind) (ht : behind t) : held := by
  by_contra hf
  exact h.free hf t ht

end Behind

end Lib
