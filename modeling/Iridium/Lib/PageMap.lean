import Iridium.Lib.Run
import Mathlib.Data.Set.Insert
import Mathlib.Logic.Function.Basic

/-!
# Maps of pages

What an address space is for, without its tables: a page has a frame and rights, or it has none. A page that is
mapped keeps the frame it has, or gets one that is not taken. Frames are taken and given back by others, too.

`Owned P` says that the pages of `P` have their frames for themselves. It stays so as long as no frame is given back
that one of them has (`Owned.run`). And a frame that is taken, and that none of them has, is had by none of them, nor
taken again, before it is given back (`Lost.run`).
-/

namespace Lib

variable {ι φ ρ : Type*}

/-- The frame and the rights of the pages, and the frames that are taken. -/
structure PageMap (ι φ ρ : Type*) where
  pages : ι → Option (φ × ρ)
  taken : Set φ

/-- What is done. -/
inductive PageOp (ι φ ρ : Type*) where
  /-- A page is mapped with these rights, or so that nothing is allowed. -/
  | map (p : ι) (rights : Option ρ)
  | unmap (p : ι)
  /-- A frame is taken for something else. -/
  | take (f : φ)
  | give (f : φ)

namespace PageMap

/-- The frame that a page is mapped on, and the frames that are taken then. -/
inductive Gets (s : PageMap ι φ ρ) (p : ι) (f : φ) : Set φ → Prop where
  | keeps {r : ρ} : s.pages p = some (f, r) → Gets s p f s.taken
  | fresh : s.pages p = none → f ∉ s.taken → Gets s p f (insert f s.taken)

/-- None of the pages has the frame. -/
def Spare (P : Set ι) (s : PageMap ι φ ρ) (f : φ) : Prop := ∀ p ∈ P, ∀ r, s.pages p ≠ some (f, r)

/-- No frame of the pages is given back. -/
def KeepsFrames (P : Set ι) (s : PageMap ι φ ρ) (op : PageOp ι φ ρ) : Prop := ∀ f, op = .give f → s.Spare P f

/-- **The pages have their frames for themselves.** -/
structure Owned (P : Set ι) (s : PageMap ι φ ρ) : Prop where
  one : ∀ p ∈ P, ∀ q ∈ P, ∀ f r r', s.pages p = some (f, r) → s.pages q = some (f, r') → p = q
  taken : ∀ p ∈ P, ∀ f r, s.pages p = some (f, r) → f ∈ s.taken

/-- The frame is taken, but not for one of the pages. -/
structure Lost (P : Set ι) (f : φ) (s : PageMap ι φ ρ) : Prop where
  taken : f ∈ s.taken
  spare : s.Spare P f

variable [DecidableEq ι] {P : Set ι} {s s' : PageMap ι φ ρ} {op : PageOp ι φ ρ} {ops : List (PageOp ι φ ρ)} {f : φ}
  {p : ι} {r : ρ}

/-- **A step.** A frame that is given back need not have been taken. -/
def Step (s : PageMap ι φ ρ) : PageOp ι φ ρ → PageMap ι φ ρ → Prop
  | .map p rights, s' => ∃ f t, s.Gets p f t ∧ s' = ⟨Function.update s.pages p (rights.map (f, ·)), t⟩
  | .unmap p, s' => s' = { s with pages := Function.update s.pages p none }
  | .take f, s' => f ∉ s.taken ∧ s' = { s with taken := insert f s.taken }
  | .give f, s' => s' = { s with taken := s.taken \ {f} } ∨ s' = s

/-- The page had its frame before, or nobody had. -/
theorem Step.pages (hs : s.Step op s') (h : s'.pages p = some (f, r)) : (∃ r, s.pages p = some (f, r)) ∨
    f ∉ s.taken ∧ f ∈ s'.taken ∧ ∀ q, q ≠ p → s'.pages q = s.pages q := by
  cases op with
  | map q rights =>
    obtain ⟨g, t, hg, rfl⟩ := hs
    by_cases he : p = q
    · subst he
      dsimp only at h
      rw [Function.update_self] at h
      obtain ⟨r', -, heq⟩ := Option.map_eq_some_iff.1 h
      obtain ⟨rfl, -⟩ := Prod.mk.inj heq
      cases hg with
      | keeps hp => exact .inl ⟨_, hp⟩
      | fresh _ hf => exact .inr ⟨hf, Set.mem_insert .., fun q hq => Function.update_of_ne hq ..⟩
    · exact .inl ⟨r, by simpa only [Function.update_of_ne he] using h⟩
  | unmap q =>
    obtain rfl := hs
    by_cases he : p = q
    · subst he
      dsimp only at h
      rw [Function.update_self] at h
      cases h
    · exact .inl ⟨r, by simpa only [Function.update_of_ne he] using h⟩
  | take g =>
    obtain ⟨-, rfl⟩ := hs
    exact .inl ⟨r, h⟩
  | give g =>
    rcases hs with rfl | rfl
    · exact .inl ⟨r, h⟩
    · exact .inl ⟨r, h⟩

/-- A frame that is taken stays so. -/
theorem Step.taken (hs : s.Step op s') (hg : op ≠ .give f) (hf : f ∈ s.taken) : f ∈ s'.taken := by
  cases op with
  | map q rights =>
    obtain ⟨g, t, hgets, rfl⟩ := hs
    cases hgets with
    | keeps => exact hf
    | fresh => exact Set.mem_insert_of_mem _ hf
  | unmap q =>
    obtain rfl := hs
    exact hf
  | take g =>
    obtain ⟨-, rfl⟩ := hs
    exact Set.mem_insert_of_mem _ hf
  | give g =>
    rcases hs with rfl | rfl
    · exact ⟨hf, fun he => hg (by rw [Set.mem_singleton_iff.1 he])⟩
    · exact hf

theorem Owned.step (h : s.Owned P) (hC : s.KeepsFrames P op) (hs : s.Step op s') : s'.Owned P := by
  refine ⟨fun p hp q hq f r r' h₁ h₂ => ?_, fun p hp f r h₁ => ?_⟩
  · rcases hs.pages h₁ with ⟨r₁, h₁'⟩ | ⟨hnot, -, hall⟩
    · rcases hs.pages h₂ with ⟨r₂, h₂'⟩ | ⟨hnot, -, -⟩
      · exact h.one p hp q hq f r₁ r₂ h₁' h₂'
      · exact absurd (h.taken p hp f r₁ h₁') hnot
    · -- `p` has it for the first time, and no other page gets one
      by_contra hne
      rw [hall q (Ne.symm hne)] at h₂
      exact hnot (h.taken q hq f r' h₂)
  · rcases hs.pages h₁ with ⟨r₁, h₁'⟩ | ⟨-, hin, -⟩
    · exact hs.taken (fun hg => hC f hg p hp r₁ h₁') (h.taken p hp f r₁ h₁')
    · exact hin

/-- **In every run** the pages have their frames for themselves. -/
theorem Owned.run (h : s.Owned P) (hr : Run Step (KeepsFrames P) s ops s') : s'.Owned P :=
  hr.invariant h fun h hC hs => h.step hC hs

/-- The frame of a page that is unmapped is lost. -/
theorem Owned.unmap (h : s.Owned P) (hp : p ∈ P) (hpage : s.pages p = some (f, r)) (hs : s.Step (.unmap p) s') :
    s'.Lost P f := by
  obtain rfl := hs
  refine ⟨h.taken p hp f r hpage, fun q hq r' hq' => ?_⟩
  dsimp only at hq'
  by_cases he : q = p
  · rw [he, Function.update_self] at hq'
    cases hq'
  · rw [Function.update_of_ne he] at hq'
    exact he (h.one q hq p hp f r' r hq' hpage)

theorem Lost.step (h : s.Lost P f) (hg : op ≠ .give f) (hs : s.Step op s') : s'.Lost P f ∧ op ≠ .take f := by
  refine ⟨⟨hs.taken hg h.taken, fun p hp r hpage => ?_⟩, ?_⟩
  · rcases hs.pages hpage with ⟨r', hpage'⟩ | ⟨hnot, -⟩
    · exact h.spare p hp r' hpage'
    · exact hnot h.taken
  · rintro rfl
    exact hs.1 h.taken

/-- **In every run** a frame is lost until it is given back. -/
theorem Lost.run {C : PageMap ι φ ρ → PageOp ι φ ρ → Prop} (h : s.Lost P f) (hr : Run Step C s ops s')
    (hg : .give f ∉ ops) : s'.Lost P f ∧ .take f ∉ ops := by
  have hr := hr.and_mem (P := fun op => op ≠ .give f) fun op hop he => hg (he ▸ hop)
  refine hr.history (I := fun ops s => s.Lost P f ∧ .take f ∉ ops) ⟨h, List.not_mem_nil⟩ ?_
  rintro ops t u op ⟨hl, hn⟩ ⟨-, hop⟩ hs
  obtain ⟨hl', hne⟩ := hl.step hop hs
  refine ⟨hl', fun hmem => ?_⟩
  rcases List.mem_append.1 hmem with hmem | hmem
  · exact hn hmem
  · exact hne (List.mem_singleton.1 hmem).symm

end PageMap

end Lib
