import Mathlib.Tactic.Common

/-!
# Computations that tell what they do

A computation that may fail, with what it has done by then: the deeds of one that fails are those
before the failure. What it answers is what it answers without telling (`result_bind`); its deeds are
those of its parts, one behind the other (`deeds_bind_ok`), up to the part that fails (`deeds_bind_stuck`).
A computation all of whose deeds are good (`All`) is one whose parts are, as far as it gets (`all_bind`).
-/

namespace Lib

/-- A computation that may fail, and what it has done. -/
structure Traced (ω ε α : Type) where
  /-- What it has done, in order. -/
  deeds : List ω
  /-- What it answers. -/
  result : Except ε α

namespace Traced

variable {ω ε α β : Type} {x : Traced ω ε α} {f : α → Traced ω ε β} {a : α}

instance : Monad (Traced ω ε) where
  pure a := ⟨[], .ok a⟩
  bind x f :=
    match x.result with
    | .error e => ⟨x.deeds, .error e⟩
    | .ok a => ⟨x.deeds ++ (f a).deeds, (f a).result⟩

/-- A computation that does nothing but answer. -/
def lift (r : Except ε α) : Traced ω ε α := ⟨[], r⟩

/-- One deed. -/
def tell (d : ω) : Traced ω ε Unit := ⟨[d], .ok ()⟩

/-- A number of deeds. -/
def tells (d : ℕ → ω) : ℕ → Traced ω ε Unit
  | 0 => pure ()
  | n + 1 => do
    tells d n
    tell (d n)

@[simp] theorem result_pure : (pure a : Traced ω ε α).result = .ok a := rfl

@[simp] theorem deeds_pure : (pure a : Traced ω ε α).deeds = [] := rfl

@[simp] theorem result_lift (r : Except ε α) : (lift r : Traced ω ε α).result = r := rfl

@[simp] theorem deeds_lift (r : Except ε α) : (lift r : Traced ω ε α).deeds = [] := rfl

@[simp] theorem result_tell (d : ω) : (tell d : Traced ω ε Unit).result = .ok () := rfl

@[simp] theorem deeds_tell (d : ω) : (tell d : Traced ω ε Unit).deeds = [d] := rfl

/-- **The answer** is that of the parts. -/
theorem result_bind : (x >>= f).result = x.result >>= fun a => (f a).result := by
  obtain ⟨ds, _ | a⟩ := x <;> rfl

theorem deeds_bind_ok (h : x.result = .ok a) : (x >>= f).deeds = x.deeds ++ (f a).deeds := by
  obtain ⟨ds, r⟩ := x
  obtain rfl : r = .ok a := h
  rfl

/-- A computation that does not answer is the last. -/
theorem deeds_bind_stuck (h : ∀ a, x.result ≠ .ok a) : (x >>= f).deeds = x.deeds := by
  obtain ⟨ds, _ | a⟩ := x
  · rfl
  · exact absurd rfl (h a)

theorem mem_deeds_bind {d : ω} :
    d ∈ (x >>= f).deeds ↔ d ∈ x.deeds ∨ ∃ a, x.result = .ok a ∧ d ∈ (f a).deeds := by
  cases hr : x.result with
  | error e =>
    rw [deeds_bind_stuck fun a h => by rw [hr] at h; cases h]
    exact ⟨.inl, fun h => h.resolve_right fun ⟨a, ha, _⟩ => by cases ha⟩
  | ok a =>
    rw [deeds_bind_ok hr, List.mem_append]
    refine or_congr_right ⟨fun h => ⟨a, rfl, h⟩, ?_⟩
    rintro ⟨b, hb, h⟩
    obtain rfl := Except.ok.inj hb
    exact h

@[simp] theorem result_tells (d : ℕ → ω) (n : ℕ) : (tells d n : Traced ω ε Unit).result = .ok () := by
  induction n with
  | zero => rfl
  | succ n ih =>
    rw [tells, result_bind, ih]
    rfl

@[simp] theorem result_tell_bind (d : ω) (f : Unit → Traced ω ε β) : (tell d >>= f).result = (f ()).result := rfl

@[simp] theorem result_tells_bind (d : ℕ → ω) (n : ℕ) (f : Unit → Traced ω ε β) :
    (tells d n >>= f).result = (f ()).result := by
  rw [result_bind, result_tells]
  rfl

/-- Parts of parts. -/
theorem assoc {γ : Type} (x : Traced ω ε α) (f : α → Traced ω ε β) (g : β → Traced ω ε γ) :
    x >>= f >>= g = x >>= fun a => f a >>= g := by
  obtain ⟨ds, _ | a⟩ := x
  · rfl
  · show (⟨ds ++ (f a).deeds, (f a).result⟩ : Traced ω ε β) >>= g =
      ⟨ds ++ (f a >>= g).deeds, (f a >>= g).result⟩
    obtain ⟨ds', _ | b⟩ := f a
    · rfl
    · exact congrArg (Traced.mk · _) (List.append_assoc _ _ _)

theorem deeds_map (g : α → β) : (x >>= fun a => (pure (g a) : Traced ω ε β)).deeds = x.deeds := by
  obtain ⟨ds, _ | a⟩ := x
  · rfl
  · exact List.append_nil ds

@[simp] theorem answer_bind (a : α) (f : α → Traced ω ε β) : (pure a : Traced ω ε α) >>= f = f a := rfl

theorem lift_ok_bind (a : α) (f : α → Traced ω ε β) : (lift (.ok a) : Traced ω ε α) >>= f = f a := rfl

theorem lift_error_bind (e : ε) (f : α → Traced ω ε β) : (lift (.error e) : Traced ω ε α) >>= f = lift (.error e) := rfl

@[simp] theorem deeds_tell_bind (d : ω) (f : Unit → Traced ω ε β) :
    (tell d >>= f).deeds = d :: (f ()).deeds := rfl

/-! ### Good deeds -/

/-- **Everything that is done meets `P`.** -/
def All (P : ω → Prop) (x : Traced ω ε α) : Prop := ∀ d ∈ x.deeds, P d

section All

variable {P : ω → Prop}

theorem all_bind : All P (x >>= f) ↔ All P x ∧ ∀ a, x.result = .ok a → All P (f a) := by
  constructor
  · intro h
    exact ⟨fun d hd => h d (mem_deeds_bind.2 (.inl hd)),
      fun a ha d hd => h d (mem_deeds_bind.2 (.inr ⟨a, ha, hd⟩))⟩
  · rintro ⟨hx, hf⟩ d hd
    rcases mem_deeds_bind.1 hd with hd | ⟨a, ha, hd⟩
    · exact hx d hd
    · exact hf a ha d hd

/-- The first part answers. -/
theorem all_bind_ok (h : x.result = .ok a) : All P (x >>= f) ↔ All P x ∧ All P (f a) := by
  rw [all_bind, h]
  refine and_congr_right fun _ => ⟨fun hall => hall a rfl, fun hall b hb => ?_⟩
  obtain rfl := Except.ok.inj hb
  exact hall

@[simp] theorem all_pure (a : α) : All P (pure a : Traced ω ε α) := fun _ hd => by cases hd

@[simp] theorem all_lift (r : Except ε α) : All P (lift r : Traced ω ε α) := fun _ hd => by cases hd

@[simp] theorem all_tell {d : ω} : All P (tell d : Traced ω ε Unit) ↔ P d := by simp [All]

@[simp] theorem all_tell_bind {d : ω} {f : Unit → Traced ω ε β} : All P (tell d >>= f) ↔ P d ∧ All P (f ()) := by
  rw [all_bind_ok (a := ()) rfl, all_tell]

theorem all_tells {d : ℕ → ω} {n : ℕ} : All P (tells d n : Traced ω ε Unit) ↔ ∀ i < n, P (d i) := by
  induction n with
  | zero => exact iff_of_true (all_pure ()) fun i hi => absurd hi (Nat.not_lt_zero i)
  | succ n ih => rw [tells, all_bind_ok (result_tells d n), ih, all_tell, Nat.forall_lt_succ_right]

theorem all_tells_bind {d : ℕ → ω} {n : ℕ} {f : Unit → Traced ω ε β} :
    All P (tells d n >>= f) ↔ (∀ i < n, P (d i)) ∧ All P (f ()) := by
  rw [all_bind_ok (result_tells d n), all_tells]

/-- What is done with a plain answer. -/
theorem all_lift_bind {r : Except ε α} : All P (lift r >>= f) ↔ ∀ a, r = .ok a → All P (f a) := by
  rw [all_bind, result_lift, and_iff_right (all_lift r)]

end All

end Traced

end Lib
