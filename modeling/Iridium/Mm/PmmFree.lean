import Iridium.Mm.PmmUsable

/-!
# Giving a frame back

The loop of `pmm_free` has a 32-bit index and compares a 32-bit product with the address of the frame,
as long as the index is below a 64-bit length. A frame from 4 GiB on has no such product, and a frame
behind the map, which `pmm_alloc` hands out when the byte there is marked, has no such index. Of the
others `pmm_free` sets the entry and the cursor, so the next `pmm_alloc` begins with the frame.
-/

namespace Iridium

/-- **The frame comes back**: `pmm_free` ends, it marks the entry of the frame and no other, and the next
`pmm_alloc` returns the frame. -/
def Pmm.Regains (p : Pmm) (f : UInt64) : Prop :=
  ∃ p', pmm_free p f = .ok p' ∧ p'.bitmap = Function.update p.bitmap (f / 0x1000) BITMAP_FREE ∧
    ∃ p'', pmm_alloc p' = .ok (f, p'')

section Regains

variable {p p' : Pmm} {f : UInt64} {cs : List PmmCall} {c : PmmCall}

/-- The address of a frame is that of its index. -/
theorem mul_div_of_aligned (h : f % 0x1000 = 0) : 0x1000 * (f / 0x1000) = f := by
  apply UInt64.toNat_inj.1
  have hm : f.toNat % 4096 = 0 := by simpa using congrArg UInt64.toNat h
  have hf := f.toNat_lt
  rw [UInt64.toNat_mul, UInt64.toNat_div]
  simp
  omega

/-- The search that begins at a free entry ends there. -/
theorem Pmm.search_of_free (h : p.bitmap p.bitmap_i = BITMAP_FREE) : p.search = (true, p.bitmap_i) := by
  unfold Pmm.search Pmm.scan
  rw [if_pos h]

/-- **A frame that the loop finds** comes back when nobody holds the mutex. -/
theorem Pmm.Covers.regains (hc : p.Covers f) (ha : f % 0x1000 = 0) (hl : p.lock = false) : p.Regains f := by
  obtain ⟨p', hf⟩ : ∃ p', pmm_free p f = .ok p' := pmm_free_returns p (.inr ⟨hc.product, ha⟩)
  have heq := pmm_free_eq hf
  rw [if_pos ⟨hc, ha⟩] at heq
  have hlock : p'.lock = false := by
    rw [heq]
    exact hl
  have hsearch : p'.search = (true, f / 0x1000) := by
    have hi : p'.bitmap_i = f / 0x1000 := by rw [heq]
    rw [← hi]
    apply Pmm.search_of_free
    simp [heq]
  refine ⟨p', hf, by rw [heq], ?_⟩
  rcases pmm_alloc_returns hlock with ⟨hno, -⟩ | ⟨-, halloc⟩
  · rw [hsearch] at hno
    cases hno
  · rw [hsearch, mul_div_of_aligned ha] at halloc
    exact ⟨_, halloc⟩

/-- A free leaves the mutex of `pmm_alloc` alone. -/
theorem pmm_free_lock (h : pmm_free p f = .ok p') : p'.lock = p.lock := by
  rcases pmm_free_cases h with rfl | ⟨-, rfl⟩ <;> rfl

/-- Nobody holds the mutex when a frame comes back. -/
theorem Pmm.Regains.lock (h : p.Regains f) : p.lock = false := by
  obtain ⟨p', hf, -, p'', ha⟩ := h
  rw [← pmm_free_lock hf]
  exact (pmm_alloc_cases ha).1

/-! ### Frames that are lost -/

/-- **What runs keep to**: the frames that were returned are aligned, and the entries of those that the
loop does not find are never marked again. -/
structure Pmm.Keeps (p : Pmm) (cs : List PmmCall) : Prop where
  memory : p.InMemory
  aligned : ∀ f, .pmm_alloc f ∈ cs → f % 0x1000 = 0
  lost : p.lock = false → ∀ f, .pmm_alloc f ∈ cs → ¬p.Covers f → p.bitmap (f / 0x1000) ≠ BITMAP_FREE

/-- Whether the loop finds a frame depends on the length of the map alone. -/
theorem Pmm.Covers.of_length (h : p.Covers f) (hl : p'.bitmap_length = p.bitmap_length) : p'.Covers f :=
  ⟨h.product, hl ▸ h.index⟩

theorem Called.length (h : Called p c p') : p'.bitmap_length = p.bitmap_length := by
  cases c with
  | pmm_alloc frame => exact (pmm_alloc_takes h).length
  | pmm_free base => rcases pmm_free_cases h with rfl | ⟨-, rfl⟩ <;> rfl

theorem frame_aligned (i : UInt64) : 0x1000 * i % 0x1000 = 0 := by
  apply UInt64.toNat_inj.1
  rw [UInt64.toNat_mod, UInt64.toNat_mul]
  simp

theorem Pmm.Keeps.alloc (h : p.Keeps cs) (ha : pmm_alloc p = .ok (f, p')) :
    p'.Keeps (cs ++ [.pmm_alloc f]) := by
  have hmemory := h.memory.called (c := .pmm_alloc f) ha
  obtain ⟨hlock, ⟨-, rfl, rfl⟩ | ⟨-, hfree, rfl, rfl⟩⟩ := pmm_alloc_cases ha
  · refine ⟨hmemory, fun g hg => ?_, fun hl => by cases hl⟩
    rcases List.mem_append.1 hg with hg | hg
    · exact h.aligned g hg
    · obtain rfl : g = 0 := by simpa using hg
      rfl
  · refine ⟨hmemory, fun g hg => ?_, fun _ g hg hc => ?_⟩
    · rcases List.mem_append.1 hg with hg | hg
      · exact h.aligned g hg
      · obtain rfl : g = 0x1000 * p.search.2 := by simpa using hg
        exact frame_aligned _
    · by_cases he : g / 0x1000 = p.search.2
      · simp [he, BITMAP_FREE]
      · rcases List.mem_append.1 hg with hg | hg
        · simp only [Function.update_of_ne he]
          exact h.lost hlock g hg fun hp => hc (hp.of_length rfl)
        · obtain rfl : g = 0x1000 * p.search.2 := by simpa using hg
          exact absurd (frame_div (h.memory _ hfree)) he

theorem Pmm.Keeps.free (h : p.Keeps cs) (hf : pmm_free p f = .ok p') : p'.Keeps (cs ++ [.pmm_free f]) := by
  have hmemory := h.memory.called (c := .pmm_free f) hf
  have hmem : ∀ {g}, PmmCall.pmm_alloc g ∈ cs ++ [.pmm_free f] → PmmCall.pmm_alloc g ∈ cs :=
    fun hg => by simpa using hg
  rcases pmm_free_cases hf with rfl | ⟨hcov, rfl⟩
  · exact ⟨hmemory, fun g hg => h.aligned g (hmem hg), fun hl g hg => h.lost hl g (hmem hg)⟩
  · refine ⟨hmemory, fun g hg => h.aligned g (hmem hg), fun hl g hg hc => ?_⟩
    have hne : g / 0x1000 ≠ f / 0x1000 := by
      intro he
      refine hc ⟨?_, by rw [he]; exact hcov.index⟩
      have hprod := hcov.product
      have he' := congrArg UInt64.toNat he
      rw [UInt64.lt_iff_toNat_lt] at hprod ⊢
      simp only [UInt64.toNat_div, UInt64.reduceToNat] at he' hprod ⊢
      omega
    simp only [Function.update_of_ne hne]
    exact h.lost hl g (hmem hg) fun hp => hc (hp.of_length rfl)

theorem Pmm.Keeps.called (h : p.Keeps cs) (hc : Called p c p') : p'.Keeps (cs ++ [c]) := by
  cases c with
  | pmm_alloc frame => exact h.alloc hc
  | pmm_free base => exact h.free hc

/-- A frame that comes back is one that the loop finds. -/
theorem Pmm.Keeps.covers (h : p.Keeps cs) (hf : .pmm_alloc f ∈ cs) (hr : p.Regains f) : p.Covers f := by
  by_contra hc
  have hbyte := h.lost hr.lock f hf hc
  obtain ⟨p', hfree, hset, -⟩ := hr
  rcases pmm_free_cases hfree with rfl | ⟨hcov, -⟩
  · exact hbyte (by rw [hset, Function.update_self])
  · exact hc hcov

/-- From any map on. -/
theorem keeps_of_run {m : Memory} {base length : UInt64}
    (h : Lib.Run Called (fun _ _ => True) (Pmm.boot m base length) cs p) : p.Keeps cs :=
  h.history (I := fun cs p => p.Keeps cs)
    ⟨Pmm.boot_inMemory m base length, fun _ hf => absurd hf List.not_mem_nil,
      fun _ _ hf => absurd hf List.not_mem_nil⟩
    fun hk _ hc => hk.called hc

end Regains

/-- **In every run**, from any map of any length: a frame that `pmm_alloc` has returned comes back if and
only if it lies below 4 GiB and its index in the map, and no `pmm_alloc` has answered that nothing is
left. -/
theorem regains_iff {m : Memory} {base length : UInt64} {cs : List PmmCall} {p : Pmm} {f : UInt64}
    (h : Lib.Run Called (fun _ _ => True) (Pmm.boot m base length) cs p) (hf : .pmm_alloc f ∈ cs) :
    p.Regains f ↔ p.Covers f ∧ p.lock = false := by
  have hk := keeps_of_run h
  exact ⟨fun hr => ⟨hk.covers hf hr, hr.lock⟩, fun ⟨hc, hl⟩ => hc.regains (hk.aligned f hf) hl⟩

/-- The first frame. -/
theorem regains_first : ∃ p, pmm_alloc (Pmm.boot fourFrames 0 6) = .ok (0x2000, p) ∧ p.Regains 0x2000 := by
  obtain ⟨p, hp, hl, hlen⟩ : ∃ p, pmm_alloc (Pmm.boot fourFrames 0 6) = .ok (0x2000, p) ∧ p.lock = false ∧
      p.bitmap_length = 6 := ⟨_, rfl, rfl, rfl⟩
  have hcall : Called (Pmm.boot fourFrames 0 6) (.pmm_alloc 0x2000) p := hp
  have hc : p.Covers 0x2000 := ⟨by decide, by rw [hlen]; decide⟩
  exact ⟨p, hp, (regains_iff (.single trivial hcall) List.mem_cons_self).2 ⟨hc, hl⟩⟩

/-- Two chunks of usable memory. The smaller has a byte for each frame below 8 GiB; the bigger goes from
2 GiB to 6 GiB. -/
def longMap : List limine_memmap_entry :=
  [⟨0x100000, 0x200000, LIMINE_MEMMAP_USABLE⟩, ⟨0x80000000, 0x100000000, LIMINE_MEMMAP_USABLE⟩]

/-- Memory that marks the first frame from 4 GiB on. -/
def highFrame : Memory := fun a => if a.val = 0x200000 then BITMAP_FREE else 0

/-- **The first frame from 4 GiB on** is handed out and does not come back: the loop ends without having
found it. -/
theorem not_regains : ∃ p₀ cs p, pmm_init highFrame longMap = .ok p₀ ∧
    Lib.Run Called (fun _ _ => True) p₀ cs p ∧ .pmm_alloc 0x100000000 ∈ cs ∧ pmm_free p 0x100000000 = .ok p ∧
      ¬p.Regains 0x100000000 := by
  have hinit : pmm_init highFrame longMap = .ok (Pmm.boot highFrame 0x100000 0x200000) := rfl
  have hmark : Marked (Pmm.boot highFrame 0x100000 0x200000) 0x100000 := by
    refine ⟨by decide, rfl, fun j _ hlast hlt => ?_⟩
    have hend : (0x100000 : UInt64) ≤ 0x200000 - 1 := by decide
    exact absurd hlt (UInt64.not_lt.2 (UInt64.le_trans hend hlast))
  obtain ⟨-, cs, q, l, p, hr, ha⟩ :=
    (handsOut_iff (Pmm.boot_inMemory highFrame 0x100000 0x200000) rfl rfl).2 ⟨_, hmark, rfl⟩
  have hcall : Called q (.pmm_alloc 0x100000000) p := ha
  have hrun := (called_of_booked hr).snoc trivial hcall
  have hnot : ¬p.Covers 0x100000000 := fun hc => absurd hc.product (by decide)
  have hmem : PmmCall.pmm_alloc 0x100000000 ∈ cs ++ [.pmm_alloc 0x100000000] := by simp
  have hlen : p.bitmap_length = 0x200000 :=
    hrun.invariant (I := fun p => p.bitmap_length = 0x200000) rfl fun hl _ hc => hc.length.trans hl
  obtain ⟨p', hf⟩ : ∃ p', pmm_free p 0x100000000 = .ok p' :=
    pmm_free_returns p (.inl (by rw [hlen]; decide))
  rcases pmm_free_cases hf with rfl | ⟨hc, -⟩
  · exact ⟨_, _, p', hinit, hrun, hmem, hf, fun h => hnot ((keeps_of_run hrun).covers hmem h)⟩
  · exact absurd hc hnot

end Iridium
