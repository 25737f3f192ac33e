import Iridium.Mm.Space

/-!
# A page for a new address space

`vmm_alloc_page` takes a frame and maps the page of the same number: the address that it answers with is meant
to be both. The mapping takes a frame of its own, or keeps the one the page has, so the two agree when the page
was there before, and nowhere else (`alloc_page_own_iff`). Then what `mkpml4` writes through the pointer is the
table that the processor reads (`OwnFrame`).
-/

namespace Iridium

open Lib.Paging

/-! ### Writing through the pointer -/

/-- The loop of `mkpml4`: entries written through the pointer, from entry `i` on. -/
def copy_entries (new_pml source_pml4 : UInt64) : ℕ → ℕ → Vm → Kern Vm
  | 0, _, s => .ok s
  | n + 1, i, s => do
    let s ← write64 s (new_pml + 8 * UInt64.ofNat i) (s.ram (frameNo source_pml4) i)
    copy_entries new_pml source_pml4 n (i + 1) s

/-- **The page is its frame**: the processor goes from the address to the frame of the same number; and when
that is no table on the way there, what `mkpml4` writes through the pointer is what the processor reads with
the address in `cr3`. -/
structure OwnFrame (s : Vm) (f : UInt64) : Prop where
  translates : frame_at s.ram s.cr3 f = some (frameNo f)
  reads : (∀ c ∈ words s.ram s.cr3 f, c.1 ≠ frameNo f) → ∃ s', copy_entries f s.cr3 512 0 s = .ok s' ∧
    ∀ i < 512, s'.ram (frameNo f) i = s.ram (frameNo s.cr3) i

section Copy

variable {s : Vm} {f source_pml4 : UInt64}

/-- The words of a page lie behind one another in its frame. -/
theorem write64_page {h : Hit} {i : ℕ} {w : UInt64} (ht : translate s.ram s.cr3 f = some h)
    (h0 : f.toNat % 4096 = 0) (hi : i < 512) :
    write64 s (f + 8 * UInt64.ofNat i) w = .ok { s with ram := s.ram.set h.frame i w } := by
  have hlt := f.toNat_lt
  have ha : (f + 8 * UInt64.ofNat i).toNat = f.toNat + 8 * i := by
    rw [UInt64.toNat_add, UInt64.toNat_mul]
    simp
    omega
  have hpage : frameNo (f + 8 * UInt64.ofNat i) = frameNo f := by
    rw [frameNo, frameNo, ha]
    omega
  have hword : wordNo (f + 8 * UInt64.ofNat i) = i := by
    rw [wordNo, ha]
    omega
  have hsame : translate s.ram s.cr3 (f + 8 * UInt64.ofNat i) = some h :=
    (walk_page hpage (by decide)).1.trans ht
  have haligned : (f + 8 * UInt64.ofNat i).toNat % 8 = 0 := by omega
  rw [write64, if_pos haligned, hsame, hword]

/-- **The loop** writes the entries that it still has to write, and nothing else. -/
theorem copy_entries_spec {n i : ℕ} (ht : frame_at s.ram s.cr3 f = some (frameNo f)) (h0 : f.toNat % 4096 = 0)
    (hw : ∀ c ∈ words s.ram s.cr3 f, c.1 ≠ frameNo f) (hn : i + n ≤ 512) :
    ∃ s', copy_entries f source_pml4 n i s = .ok s' ∧ s'.cr3 = s.cr3 ∧
      (∀ g j, (g ≠ frameNo f ∨ j < i ∨ i + n ≤ j) → s'.ram g j = s.ram g j) ∧
      ∀ j, i ≤ j → j < i + n → s'.ram (frameNo f) j = s.ram (frameNo source_pml4) j := by
  induction n generalizing i s with
  | zero => exact ⟨s, rfl, rfl, fun _ _ _ => rfl, fun j h₁ h₂ => by omega⟩
  | succ n ih =>
    obtain ⟨h, hh, hf⟩ := Option.map_eq_some_iff.1 ht
    have hstep := write64_page (i := i) (w := s.ram (frameNo source_pml4) i) hh h0 (by omega)
    rw [hf] at hstep
    -- the word written is on no way to the page
    have hkeep : ∀ c ∈ words s.ram s.cr3 f,
        (s.ram.set (frameNo f) i (s.ram (frameNo source_pml4) i)) c.1 c.2 = s.ram c.1 c.2 := fun c hc =>
      s.ram.set_of_ne _ fun he => hw c hc (Prod.mk.inj he).1
    obtain ⟨s', hs', hcr3, hother, hcopy⟩ := ih (i := i + 1)
      (s := { s with ram := s.ram.set (frameNo f) i (s.ram (frameNo source_pml4) i) })
      ((congrArg (Option.map Hit.frame) (walk_congr hkeep)).trans ht)
      (by rw [words, footprint_congr hkeep]; exact hw) (by omega)
    refine ⟨s', ?_, hcr3, fun g j hj => ?_, fun j h₁ h₂ => ?_⟩
    · rw [copy_entries, hstep]
      exact hs'
    · rw [hother g j (by omega)]
      exact s.ram.set_of_ne _ fun he => by
        obtain ⟨rfl, rfl⟩ := Prod.mk.inj he
        omega
    · by_cases hj : j = i
      · rw [hj, hother _ _ (by omega)]
        exact Ram.set_same _ _ _ _
      · rw [hcopy j (by omega) (by omega)]
        exact s.ram.set_of_ne _ fun he => hj (Prod.mk.inj he).2

/-- The consequence of the translation. -/
theorem ownFrame_of_translates (h0 : f.toNat % 4096 = 0) (ht : frame_at s.ram s.cr3 f = some (frameNo f)) :
    OwnFrame s f := by
  refine ⟨ht, fun hw => ?_⟩
  obtain ⟨s', hs', -, -, hcopy⟩ := copy_entries_spec (i := 0) (n := 512) ht h0 hw (by decide)
  exact ⟨s', hs', fun i hi => hcopy i (by omega) (by omega)⟩

end Copy

/-! ### Which frame it is -/

/-- The frame allocator after an allocation that found a frame. -/
def Pmm.after_alloc (p : Pmm) : Pmm :=
  { p with bitmap := Function.update p.bitmap p.search.2 0, bitmap_i := p.search.2 + 1 }

/-- The page with the number of the frame that `pmm_alloc` answers with leads to that frame: it is mapped there
already; or it is absent, and the frame that the mapping takes for it has the same number, as two frames of a
map of more than `2^40` may. -/
def LeadsToItself (s : Vm) : Prop :=
  frame_at s.ram s.cr3 s.pmm.next_alloc = some (frameNo (s.pmm.next_alloc &&& PAGE_ADDR_MASK)) ∨
    (frame_at s.ram s.cr3 s.pmm.next_alloc = none ∧
      frameNo (s.pmm.after_alloc.next_alloc &&& PAGE_ADDR_MASK) = frameNo (s.pmm.next_alloc &&& PAGE_ADDR_MASK))

section Own

variable {s s' : Vm} {f : UInt64}

/-- The number of a frame keeps 40 bits. -/
theorem frameNo_masked (a : UInt64) : frameNo (a &&& PAGE_ADDR_MASK) = frameNo a % 2 ^ 40 := by
  have hmask : PAGE_ADDR_MASK.toNat = (2 ^ 40 - 1) <<< 12 := by decide
  rw [frameNo, frameNo, UInt64.toNat_and, hmask]
  calc (a.toNat &&& (2 ^ 40 - 1) <<< 12) / 4096
      = (a.toNat &&& (2 ^ 40 - 1) <<< 12) >>> 12 := (Nat.shiftRight_eq_div_pow _ 12).symm
    _ = a.toNat >>> 12 &&& (2 ^ 40 - 1) := by
        rw [Nat.shiftRight_and_distrib, Nat.shiftLeft_shiftRight]
    _ = a.toNat / 4096 % 2 ^ 40 := by
        rw [Nat.and_two_pow_sub_one_eq_mod, Nat.shiftRight_eq_div_pow]

/-- The bits that the mask takes away are none that a walk looks at. -/
theorem page_masked (a : UInt64) : page (a &&& PAGE_ADDR_MASK) = page a := by
  rw [page, page, frameNo_masked]
  exact Nat.mod_mod_of_dvd _ (Nat.pow_dvd_pow 2 (by decide))

theorem offset_masked (a : UInt64) : (a &&& PAGE_ADDR_MASK).toNat % 4096 = 0 := by
  have h : a &&& PAGE_ADDR_MASK &&& 0xfff = 0 := by
    rw [UInt64.and_assoc, show PAGE_ADDR_MASK &&& 0xfff = 0 by decide, UInt64.and_zero]
  have hn := congrArg UInt64.toNat h
  rw [UInt64.toNat_and] at hn
  exact (Nat.and_two_pow_sub_one_eq_mod _ 12).symm.trans hn

/-- **A page that is answered** has been mapped behind the allocation. -/
theorem vmm_alloc_page_ok (h : vmm_alloc_page s = .ok (f, s')) (h0 : f ≠ 0) :
    f = s.pmm.next_alloc &&& PAGE_ADDR_MASK ∧
      vmm_map_page { s with pmm := s.pmm.after_alloc } s.cr3 s.pmm.next_alloc
        (PAGE_PRESENT ||| PAGE_WRITABLE) = .ok s' := by
  obtain ⟨⟨a, p⟩, ha, h⟩ := bind_ok.1 h
  dsimp only at h
  split at h
  next => exact absurd (Prod.mk.inj (pure_ok.1 h)).1.symm h0
  next hne =>
    obtain ⟨u, hu, h⟩ := bind_ok.1 h
    obtain ⟨rfl, rfl⟩ := Prod.mk.inj (pure_ok.1 h)
    obtain ⟨hnext, -⟩ := pmm_alloc_answers.1 a p ha
    obtain ⟨-, ⟨-, rfl, -⟩ | ⟨-, -, -, rfl⟩⟩ := pmm_alloc_cases ha
    · exact absurd rfl hne
    · exact ⟨by rw [hnext], hnext ▸ hu⟩

/-- The frame of the page that is answered. -/
theorem alloc_page_frame (h : vmm_alloc_page s = .ok (f, s')) (h0 : f ≠ 0) :
    frame_at s'.ram s'.cr3 f = some ((frame_at s.ram s.cr3 s.pmm.next_alloc).getD
      (frameNo (s.pmm.after_alloc.next_alloc &&& PAGE_ADDR_MASK))) := by
  obtain ⟨rfl, hm⟩ := vmm_alloc_page_ok h h0
  have ht := (vmm_map_page_ok.1 hm).2.1
  have hsame : frame_at s'.ram s'.cr3 (s.pmm.next_alloc &&& PAGE_ADDR_MASK) =
      frame_at s'.ram s'.cr3 s.pmm.next_alloc :=
    congrArg (Option.map Hit.frame) (walk_same_page (page_masked _) (by decide)).1
  rw [hsame, show s'.cr3 = s.cr3 from (vmm_map_page_takes hm).cr3, vmm_map_page_leaf hm]
  exact frame_new_leaf pageBits_kernel present_kernel ht

/-- **The page that `vmm_alloc_page` answers with is the frame of the same number** if and only if it led there
before. -/
theorem alloc_page_own_iff (h : vmm_alloc_page s = .ok (f, s')) (h0 : f ≠ 0) :
    OwnFrame s' f ↔ LeadsToItself s := by
  have hframe := alloc_page_frame h h0
  obtain ⟨rfl, -⟩ := vmm_alloc_page_ok h h0
  have hlead : LeadsToItself s ↔ frame_at s'.ram s'.cr3 (s.pmm.next_alloc &&& PAGE_ADDR_MASK) =
      some (frameNo (s.pmm.next_alloc &&& PAGE_ADDR_MASK)) := by
    rw [hframe, LeadsToItself]
    cases frame_at s.ram s.cr3 s.pmm.next_alloc <;> simp
  rw [hlead]
  exact ⟨fun hown => hown.translates, ownFrame_of_translates (offset_masked _)⟩

/-- Then the copy through the pointer is the one that `mkpml4` makes of the frame. -/
theorem mkpml4_of_own (h : vmm_alloc_page s = .ok (f, s')) (hown : OwnFrame s' f)
    (hw : ∀ c ∈ words s'.ram s'.cr3 f, c.1 ≠ frameNo f) :
    ∃ t u, copy_entries f s'.cr3 512 0 s' = .ok t ∧ mkpml4 s = .ok (f &&& PAGE_ADDR_MASK, u) ∧
      ∀ i < 512, t.ram (frameNo f) i = u.ram (frameNo f) i := by
  obtain ⟨t, ht, hcopy⟩ := hown.reads hw
  refine ⟨t, _, ht, bind_ok.2 ⟨_, h, rfl⟩, fun i hi => ?_⟩
  rw [hcopy i hi]
  exact (congrFun (Ram.setFrame_same _ _ _) i).symm

end Own

/-- The four tables and the page of frame 8, which is mapped to itself. -/
def selfPage : Vm := { onePage with ram := onePage.ram.set 4 8 0x8003 }

theorem alloc_page_own_self : ∃ f s', vmm_alloc_page selfPage = .ok (f, s') ∧ f ≠ 0 ∧ OwnFrame s' f :=
  ⟨_, _, rfl, by decide, (alloc_page_own_iff (s := selfPage) rfl (by decide)).2 (.inl (by decide))⟩

/-- Frame 8 is taken, and its page is mapped to frame 9. -/
theorem not_own : ∃ f s', vmm_alloc_page onePage = .ok (f, s') ∧ f ≠ 0 ∧ ¬OwnFrame s' f :=
  ⟨_, _, rfl, by decide, fun h => absurd h.translates (by decide)⟩

end Iridium
