import Iridium.Mm.PmmRuns

/-!
# The frames that are handed out

A frame should be usable memory, and not where the byte map of the allocator is. Nothing sees to
that: `pmm_init` finds the biggest chunk and leaves it, the bytes of the map are those that memory
held, and the address of a frame is its index in the map. So what is handed out in some run is what
memory had marked from the beginning (`handsOut_iff`).
-/

namespace Iridium

/-- **The frame is there to be handed out**: it lies in one usable entry, and outside the chunk that the
map is in. -/
structure Good (entries : List limine_memmap_entry) (c : limine_memmap_entry) (a : UInt64) : Prop where
  usable : ∃ e ∈ entries, e.type = LIMINE_MEMMAP_USABLE ∧ e.base.toNat ≤ a.toNat ∧
    a.toNat + 0x1000 ≤ e.base.toNat + e.length.toNat
  clear : ∀ x, a.toNat ≤ x → x < a.toNat + 0x1000 → ¬(c.base.toNat ≤ x ∧ x < c.base.toNat + c.length.toNat)

/-- The frame is handed out in some run in which only frames in use are freed. -/
def HandsOut (p₀ : Pmm) (a : UInt64) : Prop :=
  a ≠ 0 ∧ ∃ cs p l p', Lib.Run Booked Owning (p₀, []) cs (p, l) ∧ pmm_alloc p = .ok (a, p')

/-- No byte from the last of the map to this one, if it is behind, ends a search. -/
def Passed (p₀ : Pmm) (i : UInt64) : Prop :=
  ∀ j, 2 ≤ j → p₀.bitmap_length - 1 ≤ j → j < i → p₀.bitmap j = BITMAP_FREE

/-- **The byte at the index is marked**, and a search gets there. -/
structure Marked (p₀ : Pmm) (i : UInt64) : Prop where
  ge : 2 ≤ i
  free : p₀.bitmap i = BITMAP_FREE
  passed : Passed p₀ i

section HandsOut

variable {p₀ p p' : Pmm} {l : List UInt64} {a : UInt64}

/-- **What a run keeps to**, until the frames are used up. -/
structure Within (p₀ : Pmm) (p : Pmm) (l : List UInt64) : Prop where
  length : p.bitmap_length = p₀.bitmap_length
  ge : 2 ≤ p.bitmap_i
  passed : Passed p₀ p.bitmap_i
  free : ∀ i, p.bitmap i = BITMAP_FREE → p₀.bitmap i = BITMAP_FREE
  marked : ∀ a ∈ l, ∃ i, Marked p₀ i ∧ a = 0x1000 * i

/-- The index that the search finds. -/
theorem Within.search (h : Within p₀ p l) (hfree : p.bitmap p.search.2 = BITMAP_FREE) :
    Marked p₀ p.search.2 := by
  obtain ⟨hle, hall⟩ := Pmm.search_spec p
  refine ⟨UInt64.le_trans h.ge hle, h.free _ hfree, fun j h2 hlast hlt => ?_⟩
  by_cases hlow : j < p.bitmap_i
  · exact h.passed j h2 hlast hlow
  · -- the search does not go on at the end of the map
    have hend := (hall j (UInt64.not_lt.1 hlow) hlt).2
    rw [h.length] at hend
    exact absurd hlast (UInt64.not_le.2 hend)

theorem Within.alloc (h : Within p₀ p l) (hm : p.InMemory) (ha : pmm_alloc p = .ok (a, p')) :
    p'.lock = true ∨ (p'.lock = false ∧ Within p₀ p' (a :: l)) := by
  obtain ⟨hlock, ⟨-, -, rfl⟩ | ⟨-, hfree, rfl, rfl⟩⟩ := pmm_alloc_cases ha
  · exact .inl rfl
  · have hmark := h.search hfree
    have hj := hm _ hfree
    have hsucc : (p.search.2 + 1).toNat = p.search.2.toNat + 1 := toNat_add_one hj
    refine .inr ⟨hlock, h.length, ?_, fun j h2 hlast hlt => ?_, fun i hi => ?_, fun b hb => ?_⟩
    · have hge := hmark.ge
      rw [UInt64.le_iff_toNat_le] at hge ⊢
      rw [hsucc]
      omega
    · by_cases he : j = p.search.2
      · rw [he]
        exact hmark.free
      · refine hmark.passed j h2 hlast (UInt64.lt_of_le_of_ne ?_ he)
        rw [UInt64.lt_iff_toNat_lt, hsucc] at hlt
        exact UInt64.le_iff_toNat_le.2 (by omega)
    · by_cases he : i = p.search.2
      · rw [he] at hi
        simp [BITMAP_FREE] at hi
      · exact h.free i (by simpa [he] using hi)
    · rcases List.mem_cons.1 hb with rfl | hb
      · exact ⟨_, hmark, rfl⟩
      · exact h.marked b hb

theorem Within.give (h : Within p₀ p l) (hm₀ : p₀.InMemory) {base : UInt64} (hf : pmm_free p base = .ok p')
    (hl : base ∈ l) : p'.lock = p.lock ∧ Within p₀ p' (l.erase base) := by
  have hmem : ∀ a ∈ l.erase base, ∃ i, Marked p₀ i ∧ a = 0x1000 * i :=
    fun a ha => h.marked a (List.mem_of_mem_erase ha)
  obtain ⟨i, hi, rfl⟩ := h.marked base hl
  rcases pmm_free_cases hf with rfl | ⟨-, rfl⟩
  · exact ⟨rfl, { h with marked := hmem }⟩
  · rw [frame_div (hm₀ i hi.free)]
    refine ⟨rfl, h.length, hi.ge, hi.passed, fun j hj => ?_, hmem⟩
    by_cases he : j = i
    · rw [he]
      exact hi.free
    · exact h.free j (by simpa [he] using hj)

/-- **Nothing else** is handed out. -/
theorem HandsOut.marked (hm : p₀.InMemory) (h2 : p₀.bitmap_i = 2) (h : HandsOut p₀ a) :
    ∃ i, Marked p₀ i ∧ a = 0x1000 * i := by
  obtain ⟨h0, cs, p, l, p', hr, ha⟩ := h
  have hstart : Within p₀ p₀ [] :=
    { length := rfl
      ge := by rw [h2]; exact UInt64.le_refl _
      passed := fun j hj _ hlt => by
        rw [h2] at hlt
        exact absurd hj (UInt64.not_le.2 hlt)
      free := fun _ hi => hi
      marked := by simp }
  obtain ⟨hm, hw⟩ := hr.invariant (I := fun s => s.1.InMemory ∧ (s.1.lock = false → Within p₀ s.1 s.2))
    ⟨hm, fun _ => hstart⟩ fun {s s' c} ⟨hms, hw⟩ hC hS => by
      obtain ⟨hcall, hl⟩ := hS
      refine ⟨hms.called hcall, fun hlock => ?_⟩
      rw [hl]
      cases c with
      | pmm_alloc =>
        rcases (hw (pmm_alloc_cases hcall).1).alloc hms hcall with h | ⟨-, h⟩
        · rw [h] at hlock
          cases hlock
        · exact h
      | pmm_free base =>
        have hsame : s'.1.lock = s.1.lock := by
          rcases pmm_free_cases hcall with h | ⟨-, h⟩ <;> rw [h]
        exact ((hw (hsame ▸ hlock)).give hm hcall (hC _ rfl)).2
  obtain ⟨hlock, ⟨-, rfl, -⟩ | ⟨-, hfree, rfl, -⟩⟩ := pmm_alloc_cases ha
  · exact absurd rfl h0
  · exact ⟨_, (hw hlock).search hfree, rfl⟩

/-- **What is marked** is handed out, when the allocations go on. -/
theorem Marked.reached {i : UInt64} (hi : Marked p₀ i) (hm : p.InMemory) (hl : p.lock = false)
    (hlen : p.bitmap_length = p₀.bitmap_length) (h2 : 2 ≤ p.bitmap_i) (hle : p.bitmap_i ≤ i)
    (hsame : ∀ j, p.bitmap_i ≤ j → p.bitmap j = p₀.bitmap j) :
    ∃ cs q l' q', Lib.Run Booked Owning (p, l) cs (q, l') ∧ pmm_alloc q = .ok (0x1000 * i, q') := by
  induction hn : i.toNat - p.bitmap_i.toNat using Nat.strongRecOn generalizing p l with
  | _ n ih =>
    obtain ⟨hlow, hall⟩ := Pmm.search_spec p
    have hfree : p.bitmap i = BITMAP_FREE := (hsame i hle).trans hi.free
    have hnot : ¬i < p.search.2 := fun hlt => (hall i hle hlt).1 hfree
    rcases pmm_alloc_returns hl with ⟨hs, ha⟩ | ⟨hs, ha⟩
    · exfalso
      obtain ⟨hend, hlast⟩ := Pmm.search_exhausted hs
      have hne : p.search.2 ≠ i := fun he => hend (he ▸ hfree)
      have hlt := UInt64.lt_of_le_of_ne (UInt64.not_lt.1 hnot) hne
      rw [hlen] at hlast
      exact hend ((hsame _ hlow).trans (hi.passed _ (UInt64.le_trans h2 hlow) hlast hlt))
    · by_cases he : p.search.2 = i
      · rw [he] at ha
        exact ⟨[], p, l, _, .nil, ha⟩
      · have hlt := UInt64.lt_of_le_of_ne (UInt64.not_lt.1 hnot) he
        have hsucc : (p.search.2 + 1).toNat = p.search.2.toNat + 1 := Pmm.toNat_succ hlt
        have hcall : Called p (.pmm_alloc (0x1000 * p.search.2)) _ := ha
        have h2' : 2 ≤ p.search.2 + 1 := by
          have := UInt64.le_iff_toNat_le.1 (UInt64.le_trans h2 hlow)
          rw [UInt64.le_iff_toNat_le, hsucc]
          omega
        rw [UInt64.lt_iff_toNat_lt] at hlt
        rw [UInt64.le_iff_toNat_le] at hlow
        have hle' : p.search.2 + 1 ≤ i := UInt64.le_iff_toNat_le.2 (by omega)
        have hsame' : ∀ j, p.search.2 + 1 ≤ j → Function.update p.bitmap p.search.2 0 j = p₀.bitmap j := by
          intro j hj
          rw [UInt64.le_iff_toNat_le, hsucc] at hj
          have hne : j ≠ p.search.2 := by
            rintro rfl
            omega
          rw [Function.update_of_ne hne]
          exact hsame j (UInt64.le_iff_toNat_le.2 (by omega))
        obtain ⟨cs, q, l', q', hr, hq⟩ := ih _ (by dsimp only; omega) (l := 0x1000 * p.search.2 :: l)
          (hm.called hcall) hl hlen h2' hle' hsame' rfl
        exact ⟨_, q, l', q', (Lib.Run.single (fun _ h => by cases h) ⟨hcall, rfl⟩).trans hr, hq⟩

/-- **What is handed out** is what memory has marked. -/
theorem handsOut_iff (hm : p₀.InMemory) (h2 : p₀.bitmap_i = 2) (hl : p₀.lock = false) :
    HandsOut p₀ a ↔ ∃ i, Marked p₀ i ∧ a = 0x1000 * i := by
  refine ⟨fun h => h.marked hm h2, ?_⟩
  rintro ⟨i, hi, rfl⟩
  have hge : 2 ≤ i.toNat := by
    have := hi.ge
    rwa [UInt64.le_iff_toNat_le] at this
  have h0 : (0x1000 : UInt64) * i ≠ 0 := fun h => by
    have hn := congrArg UInt64.toNat h
    rw [frame_toNat (hm i hi.free)] at hn
    simp at hn
    omega
  obtain ⟨cs, q, l, q', hr, ha⟩ := hi.reached (l := []) hm hl rfl (by rw [h2]; exact UInt64.le_refl _)
    (by rw [h2]; exact hi.ge) fun _ _ => rfl
  exact ⟨h0, cs, q, l, q', hr, ha⟩

end HandsOut

/-- **On every memory map** on which `pmm_init` succeeds, and whatever memory held: the frames handed out
in the runs that follow are there to be handed out if and only if the bytes that are marked, in the chunk
that the map is in, are those of such frames. -/
theorem handsOut_good_iff {m : Memory} {entries : List limine_memmap_entry} {p₀ : Pmm}
    (h : pmm_init m entries = .ok p₀) : ∃ c, BitmapChunk entries c ∧
      ((∀ a, HandsOut p₀ a → Good entries c a) ↔
        ∀ i, Marked (Pmm.boot m c.base c.length) i → Good entries c (0x1000 * i)) := by
  obtain ⟨c, hc, rfl⟩ := pmm_init_ok h
  have hiff : ∀ a, HandsOut (Pmm.boot m c.base c.length) a ↔
      ∃ i, Marked (Pmm.boot m c.base c.length) i ∧ a = 0x1000 * i :=
    fun a => handsOut_iff (Pmm.boot_inMemory m c.base c.length) rfl rfl
  refine ⟨c, hc, fun hall i hi => hall _ ((hiff _).2 ⟨i, hi, rfl⟩), fun hall a ha => ?_⟩
  obtain ⟨i, hi, rfl⟩ := (hiff a).1 ha
  exact hall i hi

/-- Two chunks of usable memory, above a megabyte that is not. -/
def twoChunks : List limine_memmap_entry :=
  [⟨0, 0x100000, 1⟩, ⟨0x100000, 0x10000, LIMINE_MEMMAP_USABLE⟩, ⟨0x200000, 0x100000, LIMINE_MEMMAP_USABLE⟩]

theorem twoChunks_bitmap : BitmapChunk twoChunks ⟨0x100000, 0x10000, LIMINE_MEMMAP_USABLE⟩ :=
  ⟨[], [], _, [], rfl, ⟨nofun, nofun⟩, by decide, nofun⟩

/-- Memory that marks the first frame of the bigger chunk. -/
def markedFrame : Memory := fun a => if a.val = 0x100200 then BITMAP_FREE else 0

/-- One frame is handed out, and it is there. -/
theorem handsOut_good_frame : ∃ c, BitmapChunk twoChunks c ∧
    ∀ a, HandsOut (Pmm.boot markedFrame 0x100000 0x10000) a → Good twoChunks c a := by
  have h : pmm_init markedFrame twoChunks = .ok (Pmm.boot markedFrame 0x100000 0x10000) := rfl
  obtain ⟨c, hc, hiff⟩ := handsOut_good_iff h
  refine ⟨c, hc, hiff.2 fun i hi => ?_⟩
  obtain rfl := hc.unique twoChunks_bitmap
  have hfree : markedFrame.read (0x100000 + i.toNat) = BITMAP_FREE := hi.free
  have hi : i = 0x200 := by
    unfold Memory.read markedFrame at hfree
    split at hfree
    · split at hfree
      next h =>
        apply UInt64.toNat_inj.1
        simp at h ⊢
        omega
      next => cases hfree
    · cases hfree
  subst hi
  refine ⟨⟨⟨0x200000, 0x100000, LIMINE_MEMMAP_USABLE⟩, by simp [twoChunks], rfl, by decide, by decide⟩, ?_⟩
  intro x hlo _ hx
  simp at hlo hx
  omega

/-- Memory is all ones: the first frame handed out is in the megabyte below. -/
theorem not_handsOut_good : ¬∀ m entries p₀ c, pmm_init m entries = .ok p₀ → BitmapChunk entries c →
    ∀ a, HandsOut p₀ a → Good entries c a := by
  intro hall
  have hgood := hall (fun _ => BITMAP_FREE) twoChunks _ _ rfl twoChunks_bitmap 0x2000
    ⟨by decide, [], _, [], _, .nil, rfl⟩
  obtain ⟨e, he, hu, hlo, -⟩ := hgood.usable
  simp only [twoChunks, List.mem_cons, List.not_mem_nil, or_false] at he
  rcases he with rfl | rfl | rfl
  · exact absurd hu (by decide)
  · exact absurd hlo (by decide)
  · exact absurd hlo (by decide)

end Iridium
