import Mathlib.Tactic.Common

/-!
# Runs of a transition system

A system is given by its steps `Step s e t`: in state `s` the event `e` leads to `t`.
A *run* is a sequence of steps; it may be asked to keep to a condition `C` on the
state before each step and the event taken, so that "every run all of whose steps
meet the condition" is one relation. Whatever is preserved by one step under the
condition is then true in every state a run reaches (`Run.invariant`), and whatever
relates a state to the events that led to it is true at the end of every run
(`Run.history`).
-/

namespace Lib

variable {σ ε : Type*}

/-- A run of `Step` from `s`: the events taken, in order, and the state reached. Every
step meets `C`. -/
inductive Run (Step : σ → ε → σ → Prop) (C : σ → ε → Prop) (s : σ) : List ε → σ → Prop where
  /-- Nothing happens. -/
  | nil : Run Step C s [] s
  /-- One more step. -/
  | snoc {es : List ε} {t u : σ} {e : ε} :
      Run Step C s es t → C t e → Step t e u → Run Step C s (es ++ [e]) u

/-- A step that leaves an entry: the state before it, and the event. -/
def Logs (Step : σ → ε → σ → Prop) (s : σ) (e : σ × ε) (t : σ) : Prop := e.1 = s ∧ Step s e.2 t

namespace Run

variable {Step : σ → ε → σ → Prop} {C : σ → ε → Prop} {s t u : σ} {es fs : List ε}

/-- **Invariants.** -/
theorem invariant {I : σ → Prop} (h : Run Step C s es t) (h₀ : I s)
    (hs : ∀ {t u e}, I t → C t e → Step t e u → I u) : I t := by
  induction h with
  | nil => exact h₀
  | snoc _ hC hS ih => exact hs ih hC hS

/-- **Invariants that speak about the events so far.** -/
theorem history {I : List ε → σ → Prop} (h : Run Step C s es t) (h₀ : I [] s)
    (hs : ∀ {es t u e}, I es t → C t e → Step t e u → I (es ++ [e]) u) : I es t := by
  induction h with
  | nil => exact h₀
  | snoc _ hC hS ih => exact hs ih hC hS

/-- A run that keeps to a condition keeps to a weaker one. -/
theorem mono {C' : σ → ε → Prop} (h : Run Step C s es t) (hC : ∀ t e, C t e → C' t e) :
    Run Step C' s es t := by
  induction h with
  | nil => exact .nil
  | snoc _ hc hS ih => exact ih.snoc (hC _ _ hc) hS

/-- What is true of the events of a run is true of each. -/
theorem and_mem {P : ε → Prop} (h : Run Step C s es t) (hP : ∀ e ∈ es, P e) :
    Run Step (fun s e => C s e ∧ P e) s es t := by
  induction h with
  | nil => exact .nil
  | snoc _ hC hS ih =>
    exact (ih fun e he => hP e (List.mem_append_left _ he)).snoc ⟨hC, hP _ (by simp)⟩ hS

/-- What is true of every step is true of the events. -/
theorem forall_mem {P : ε → Prop} (h : Run Step C s es t) (hP : ∀ {t e u}, C t e → Step t e u → P e) :
    ∀ e ∈ es, P e := by
  induction h with
  | nil => simp
  | snoc _ hC hS ih =>
    intro e he
    rcases List.mem_append.1 he with he | he
    · exact ih e he
    · exact List.mem_singleton.1 he ▸ hP hC hS

/-- Runs compose. -/
theorem trans (h : Run Step C s es t) (h' : Run Step C t fs u) : Run Step C s (es ++ fs) u := by
  induction h' with
  | nil => simpa using h
  | snoc _ hC hS ih => rw [← List.append_assoc]; exact ih.snoc hC hS

/-- Nothing happens in a run without events. -/
theorem of_nil {l : List ε} (h : Run Step C s l t) (hl : l = []) : s = t := by
  cases h with
  | nil => rfl
  | snoc => simp at hl

/-- A run of two parts. -/
theorem split {l : List ε} (h : Run Step C s l u) (hl : l = es ++ fs) :
    ∃ t, Run Step C s es t ∧ Run Step C t fs u := by
  induction h generalizing fs with
  | nil =>
    obtain ⟨rfl, rfl⟩ := List.append_eq_nil_iff.1 hl.symm
    exact ⟨s, .nil, .nil⟩
  | @snoc es' t u e h hC hS ih =>
    rcases List.eq_nil_or_concat fs with rfl | ⟨fs, f, rfl⟩
    · rw [List.append_nil] at hl
      exact ⟨u, hl ▸ h.snoc hC hS, .nil⟩
    · rw [List.concat_eq_append, ← List.append_assoc] at hl
      obtain ⟨rfl, hf⟩ := List.append_inj' hl rfl
      obtain rfl : e = f := by simpa using hf
      obtain ⟨v, h₁, h₂⟩ := ih rfl
      refine ⟨v, h₁, ?_⟩
      rw [List.concat_eq_append]
      exact h₂.snoc hC hS

/-- The first step of a run. -/
theorem cons_split {e : ε} {l : List ε} (h : Run Step C s l u) (hl : l = e :: es) :
    ∃ t, C s e ∧ Step s e t ∧ Run Step C t es u := by
  induction h generalizing es with
  | nil => cases hl
  | @snoc es' t u f h hC hS ih =>
    cases es' with
    | nil =>
      obtain ⟨rfl, rfl⟩ := List.cons.inj hl
      obtain rfl : s = t := h.of_nil rfl
      exact ⟨u, hC, hS, .nil⟩
    | cons g es' =>
      obtain ⟨rfl, rfl⟩ := List.cons.inj hl
      obtain ⟨v, hC', hS', h'⟩ := ih rfl
      exact ⟨v, hC', hS', h'.snoc hC hS⟩

/-- One step. -/
theorem single {e : ε} (hC : C s e) (hS : Step s e t) : Run Step C s [e] t :=
  Run.nil.snoc hC hS

/-- **Simulation**: what the steps of one system are for another, its runs are for the runs of the other. -/
theorem simulate {τ δ : Type*} {Step' : τ → δ → τ → Prop} {C' : τ → δ → Prop} {R : σ → τ → Prop} {f : ε → δ} {a : τ}
    (h : Run Step C s es t) (h₀ : R s a)
    (hs : ∀ {t u e a}, R t a → C t e → Step t e u → C' a (f e) ∧ ∃ b, Step' a (f e) b ∧ R u b) :
    ∃ b, Run Step' C' a (es.map f) b ∧ R t b := by
  induction h with
  | nil => exact ⟨a, .nil, h₀⟩
  | snoc _ hC hS ih =>
    obtain ⟨b, hb, hR⟩ := ih
    obtain ⟨hC', c, hc, hR'⟩ := hs hR hC hS
    exact ⟨c, by rw [List.map_append]; exact hb.snoc hC' hc, hR'⟩

/-- **A run leaves entries.** -/
theorem logs (h : Run Step C s es t) : ∃ fs, Run (Logs Step) (fun s e => C s e.2) s fs t ∧ fs.map Prod.snd = es := by
  induction h with
  | nil => exact ⟨[], .nil, rfl⟩
  | @snoc es t u e _ hC hS ih =>
    obtain ⟨fs, hr, hm⟩ := ih
    exact ⟨fs ++ [(t, e)], hr.snoc hC ⟨rfl, hS⟩, by simp [hm]⟩

end Run

/-- What the last event adds to what is read off a run. -/
theorem filterMap_snoc {α β : Type*} (f : α → Option β) (l : List α) (e : α) :
    (l ++ [e]).filterMap f = l.filterMap f ++ (f e).toList := by
  cases h : f e <;> simp [h]

end Lib
