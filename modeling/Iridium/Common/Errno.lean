import Mathlib.Algebra.Group.Nat.Defs
import Mathlib.Tactic.Common

/-!
# What a kernel function answers

Kernel functions return, or they do not. `Kern α` is an answer of type `α` or the
reason why there is none (`Halt`): an `ASSERT` that fails prints its message and
halts the machine (`common/debug.h`), a mutex that is held is waited for with the
interrupts off and nobody left to release it, an access to a page that is not mapped
faults inside the kernel, and a loop may never end.

The error numbers are those of `common/errno.h`; functions return them negated, as
`ERRNO_T`, a signed 16-bit integer.
-/

namespace Iridium

/-- Why a kernel function does not return. -/
inductive Halt where
  /-- `ASSERT` failed: a message, then `cli; hlt`. -/
  | assertion
  /-- `mutex_acquire` of a mutex that is held. -/
  | deadlock
  /-- An access to an address that is not mapped. -/
  | fault
  /-- A loop that never ends. -/
  | endless
  /-- The machine is halted or reset on purpose. -/
  | stopped
  deriving DecidableEq, Repr

/-- The answer of a kernel function. -/
abbrev Kern (α : Type*) := Except Halt α

/-- `ASSERT(condition)`. -/
def ASSERT (condition : Bool) : Kern Unit :=
  if condition then .ok () else .error .assertion

/-- A loop that ran out of the turns it can take without repeating itself. -/
def ofFuel {α : Type*} : Option α → Kern α
  | some a => .ok a
  | none => .error .endless

/-- `ERRNO_T`. -/
abbrev ERRNO_T := Int16

def EXIT_SUCCESS : ERRNO_T := 0
def EXIT_FAILURE : ERRNO_T := 1
def ENOBUFS : ERRNO_T := 2
def EPERM : ERRNO_T := 3
def EBUSY : ERRNO_T := 6
def EREJECTED : ERRNO_T := 7
def EDRVCLAIMED : ERRNO_T := 8

section Bind

variable {α β : Type}

/-- A sequence that returned, taken apart. -/
theorem bind_ok {x : Kern α} {f : α → Kern β} {b : β} :
    (x >>= f) = .ok b ↔ ∃ a, x = .ok a ∧ f a = .ok b := by
  cases x with
  | error e => simp [bind, Except.bind]
  | ok a => simp [bind, Except.bind]

/-- A sequence that stopped, stopped in its first part or after it. -/
theorem bind_error {x : Kern α} {f : α → Kern β} {e : Halt} :
    (x >>= f) = .error e ↔ x = .error e ∨ ∃ a, x = .ok a ∧ f a = .error e := by
  cases x with
  | error e => simp [bind, Except.bind]
  | ok a => simp [bind, Except.bind]

@[simp] theorem pure_ok {a b : α} : (pure a : Kern α) = .ok b ↔ a = b := by
  simp [pure, Except.pure]

@[simp] theorem ASSERT_ok {c : Bool} {u : Unit} : ASSERT c = .ok u ↔ c = true := by
  cases c <;> simp [ASSERT]

@[simp] theorem ofFuel_ok {o : Option α} {a : α} : ofFuel o = .ok a ↔ o = some a := by
  cases o <;> simp [ofFuel]

/-- A test of what a function answers. -/
def answers (x : Kern α) (b : α → Bool) : Bool :=
  match x with
  | .ok a => b a
  | .error _ => false

theorem answers_iff {x : Kern α} {b : α → Bool} : answers x b = true ↔ ∃ a, x = .ok a ∧ b a = true := by
  cases x with
  | error e => simp [answers]
  | ok a => simp [answers]

end Bind

/-! ### Assertions -/

/-- The function does not fail an `ASSERT`. -/
def NoAssert {α : Type*} (x : Kern α) : Prop := x ≠ .error .assertion

section NoAssert

variable {α β : Type}

theorem NoAssert.bind {x : Kern α} {f : α → Kern β} (hx : NoAssert x)
    (hf : ∀ a, x = .ok a → NoAssert (f a)) : NoAssert (x >>= f) := by
  intro h
  rcases bind_error.1 h with h | ⟨a, ha, h⟩
  · exact hx h
  · exact hf a ha h

@[simp] theorem NoAssert.ok (a : α) : NoAssert (.ok a : Kern α) := by simp [NoAssert]

@[simp] theorem NoAssert.pure (a : α) : NoAssert (pure a : Kern α) := NoAssert.ok a

@[simp] theorem NoAssert.error {e : Halt} : NoAssert (.error e : Kern α) ↔ e ≠ .assertion := by
  simp [NoAssert]

@[simp] theorem NoAssert.ofFuel (o : Option α) : NoAssert (ofFuel o) := by
  cases o <;> simp [NoAssert, Iridium.ofFuel]

@[simp] theorem NoAssert.assert {c : Bool} : NoAssert (ASSERT c) ↔ c = true := by
  cases c <;> simp [NoAssert, ASSERT]

end NoAssert

end Iridium
