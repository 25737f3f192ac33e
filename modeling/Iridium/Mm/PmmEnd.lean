import Iridium.Mm.PmmFree

/-!
# The end of the map

What `pmm_alloc` does when it gets to the end of the map. It tests for the end after it has read the byte,
and does not test when it has found a frame: with the last frame handed out, the cursor is behind the map,
and the next call reads there (`keeps_to_map_iff`). When it finds nothing it returns from the middle of the loop,
and keeps its mutex: the call after that one never returns (`released_iff`).
-/

namespace Iridium

/-! ### The mutex -/

/-- A frame is left for the search: a byte is free from the cursor on, up to the last of the map, or at the
cursor. -/
def Pmm.HasFree (p : Pmm) : Prop :=
  ∃ i, p.bitmap_i ≤ i ∧ (i = p.bitmap_i ∨ i ≤ p.bitmap_length - 1) ∧ p.bitmap i = BITMAP_FREE

/-- **The mutex is free again**: the next `pmm_alloc` returns without it; and after one that found nothing, a
frame that is given back is handed out again. -/
structure Pmm.Releases (p : Pmm) (cs : List PmmCall) : Prop where
  returns : ∃ f p', pmm_alloc p = .ok (f, p') ∧ p'.lock = false
  again : ¬p.HasFree → ∀ f p' p'', .pmm_alloc f ∈ cs → f ≠ 0 → pmm_alloc p = .ok (0, p') →
    pmm_free p' f = .ok p'' → ∃ q, pmm_alloc p'' = .ok (f, q)

/-- An allocation is made while a frame is left. -/
def WhileFree (p : Pmm) (c : PmmCall) : Prop := ∀ f, c = .pmm_alloc f → p.HasFree

section Mutex

variable {p p' : Pmm} {c : PmmCall}

/-- The search finds a frame that is left, and no other. -/
theorem Pmm.hasFree_iff : p.HasFree ↔ p.search.1 = true := by
  obtain ⟨hle, hall⟩ := Pmm.search_spec p
  constructor
  · rintro ⟨i, hi, hend, hfree⟩
    by_contra hs
    obtain ⟨hstop, hlast⟩ := Pmm.search_exhausted (Bool.not_eq_true _ ▸ hs)
    have hnot : ¬i < p.search.2 := fun hlt => (hall i hi hlt).1 hfree
    have hne : i ≠ p.search.2 := fun he => hstop (he ▸ hfree)
    rcases hend with rfl | hend
    · exact hne (UInt64.le_antisymm hle (UInt64.not_lt.1 hnot))
    · exact hne (UInt64.le_antisymm (UInt64.le_trans hend hlast) (UInt64.not_lt.1 hnot))
  · intro hs
    refine ⟨p.search.2, hle, ?_, Pmm.scan_free (Prod.ext hs rfl : p.scan _ _ = (true, p.search.2))⟩
    by_cases he : p.search.2 = p.bitmap_i
    · exact .inl he
    · -- the byte before is one at which the search went on
      have hlt := UInt64.lt_of_le_of_ne hle (Ne.symm he)
      have hpred := toNat_pred hlt
      rw [UInt64.lt_iff_toNat_lt] at hlt
      have hbefore := (hall (p.search.2 - 1) (UInt64.le_iff_toNat_le.2 (by omega))
        (UInt64.lt_iff_toNat_lt.2 (by omega))).2
      rw [UInt64.lt_iff_toNat_lt, hpred] at hbefore
      exact .inr (UInt64.le_iff_toNat_le.2 (by omega))

theorem WhileFree.lock (hC : WhileFree p c) (hc : Called p c p') (hl : p.lock = false) : p'.lock = false := by
  cases c with
  | pmm_alloc frame =>
    obtain ⟨-, ⟨hs, -, -⟩ | ⟨-, -, -, rfl⟩⟩ := pmm_alloc_cases hc
    · have hfound := Pmm.hasFree_iff.1 (hC frame rfl)
      rw [hs] at hfound
      cases hfound
    · exact hl
  | pmm_free base => rw [pmm_free_lock hc, hl]

end Mutex

/-- **In every run** in which allocations are made while a frame is left, from any map: the next one returns
with the mutex released if and only if a frame is left. -/
theorem released_iff {m : Memory} {base length : UInt64} {cs : List PmmCall} {p : Pmm}
    (h : Lib.Run Called WhileFree (Pmm.boot m base length) cs p) : p.Releases cs ↔ p.HasFree := by
  have hl : p.lock = false := h.invariant (I := fun p => p.lock = false) rfl fun hl hC hc => hC.lock hc hl
  constructor
  · rintro ⟨⟨f, p', ha, hlock⟩, -⟩
    obtain ⟨-, ⟨-, -, rfl⟩ | ⟨hs, -, -, -⟩⟩ := pmm_alloc_cases ha
    · cases hlock
    · exact Pmm.hasFree_iff.2 hs
  · intro hfree
    refine ⟨?_, fun hno => absurd hfree hno⟩
    rcases pmm_alloc_returns hl with ⟨hs, -⟩ | ⟨-, ha⟩
    · rw [Pmm.hasFree_iff.1 hfree] at hs
      cases hs
    · exact ⟨_, _, ha, hl⟩

/-- Two of four frames are handed out, the first is given back and handed out again, and then the third: one is
left, and the next allocation has it. -/
theorem released_again : ∃ cs p, Lib.Run Called WhileFree (Pmm.boot fourFrames 0 6) cs p ∧
    cs = [.pmm_alloc 0x2000, .pmm_alloc 0x3000, .pmm_free 0x2000, .pmm_alloc 0x2000, .pmm_alloc 0x4000] ∧
    p.Releases cs := by
  obtain ⟨p₁, p₂, p₃, p₄, p, h₁, h₂, h₃, h₄, h₅, s₁, s₂, s₄, s₅, s⟩ :
      ∃ p₁ p₂ p₃ p₄ p, pmm_alloc (Pmm.boot fourFrames 0 6) = .ok (0x2000, p₁) ∧ pmm_alloc p₁ = .ok (0x3000, p₂) ∧
        pmm_free p₂ 0x2000 = .ok p₃ ∧ pmm_alloc p₃ = .ok (0x2000, p₄) ∧ pmm_alloc p₄ = .ok (0x4000, p) ∧
        (Pmm.boot fourFrames 0 6).search.1 = true ∧ p₁.search.1 = true ∧ p₃.search.1 = true ∧
        p₄.search.1 = true ∧ p.search.1 = true :=
    ⟨_, _, _, _, _, rfl, rfl, rfl, rfl, rfl, rfl, rfl, rfl, rfl, rfl⟩
  have alloc : ∀ {p : Pmm} {a : UInt64}, p.search.1 = true → WhileFree p (.pmm_alloc a) :=
    fun h _ _ => Pmm.hasFree_iff.2 h
  have free : ∀ {p : Pmm} {a : UInt64}, WhileFree p (.pmm_free a) := fun _ h => by cases h
  have called : ∀ {p p' : Pmm} {a : UInt64}, pmm_alloc p = .ok (a, p') → Called p (.pmm_alloc a) p' := fun h => h
  have freed : ∀ {p p' : Pmm} {a : UInt64}, pmm_free p a = .ok p' → Called p (.pmm_free a) p' := fun h => h
  have hr := ((((Lib.Run.nil.snoc (alloc s₁) (called h₁)).snoc (alloc s₂) (called h₂)).snoc free (freed h₃)).snoc
    (alloc s₄) (called h₄)).snoc (alloc s₅) (called h₅)
  exact ⟨_, p, hr, rfl, (released_iff hr).2 (Pmm.hasFree_iff.2 s)⟩

/-- After the last of four frames the mutex stays held, and the next call waits for it for ever. -/
theorem not_released : ∃ cs p p', Lib.Run Called (fun _ _ => True) (Pmm.boot fourFrames 0 6) cs p ∧
    ¬p.Releases cs ∧ pmm_alloc p = .ok (0, p') ∧ ∀ q, pmm_free p' 0x2000 = .ok q → pmm_alloc q = .error .deadlock := by
  have hc : ∃ s p', calls (Pmm.boot fourFrames 0 6, []) [none, none, none, none] = .ok s ∧
      pmm_alloc s.1 = .ok (0, p') ∧ p'.lock = true := ⟨_, _, rfl, rfl, rfl⟩
  obtain ⟨s, p', hs, ha, hlock⟩ := hc
  obtain ⟨cs, hr⟩ := calls_ok hs
  refine ⟨cs, s.1, p', called_of_booked hr, fun hrel => ?_, ha, fun q hq => ?_⟩
  · obtain ⟨f, q, hf, hl⟩ := hrel.returns
    rw [ha] at hf
    obtain ⟨rfl, rfl⟩ := Prod.mk.inj (Except.ok.inj hf)
    rw [hlock] at hl
    cases hl
  · unfold pmm_alloc
    rw [pmm_free_lock hq, hlock]
    rfl

/-! ### The bytes that are looked at -/

/-- The indices at which the loop of `pmm_alloc` reads. -/
def Pmm.scan_reads (p : Pmm) : ℕ → UInt64 → List UInt64
  | 0, _ => []
  | fuel + 1, i =>
    if p.bitmap i = BITMAP_FREE then [i]
    else if p.bitmap_length - 1 ≤ i then [i]
    else i :: scan_reads p fuel (i + 1)

/-- The accesses of `pmm_alloc` to the map: those of its loop, and the write when a frame is found. -/
def Pmm.alloc_accesses (p : Pmm) : List UInt64 :=
  if p.lock then []
  else p.scan_reads ((p.bitmap_length - 1).toNat - p.bitmap_i.toNat + 1) p.bitmap_i ++
    if p.search.1 then [p.search.2] else []

/-- The access of `pmm_free` to the map. -/
def Pmm.free_accesses (p : Pmm) (base : UInt64) : List UInt64 :=
  match p.find base (2 ^ 32) 0 with
  | some (some i) => [i.toUInt64]
  | _ => []

/-- **The calls keep to the map**: they look at bytes of the map only, when what is freed was handed out,
and a frame that is handed out is one of the map, from the third on. -/
structure Pmm.KeepsToMap (p : Pmm) (returned : List UInt64) : Prop where
  alloc : ∀ i ∈ p.alloc_accesses, i < p.bitmap_length
  free : ∀ base ∈ returned, ∀ i ∈ p.free_accesses base, i < p.bitmap_length
  frame : ∀ a p', pmm_alloc p = .ok (a, p') → a ≠ 0 →
    ∃ i : UInt64, 2 ≤ i ∧ i < p.bitmap_length ∧ a.toNat = 0x1000 * i.toNat

/-- The frames returned so far. -/
def PmmCall.returned (l : List UInt64) : PmmCall → List UInt64
  | .pmm_alloc frame => frame :: l
  | .pmm_free _ => l

/-- A call, with the frames that were ever returned. -/
def Noted (s : Pmm × List UInt64) (c : PmmCall) (s' : Pmm × List UInt64) : Prop :=
  Called s.1 c s'.1 ∧ s'.2 = c.returned s.2

/-- What is freed was returned, and an allocation is made with the cursor in the map. -/
structure CursorInMap (s : Pmm × List UInt64) (c : PmmCall) : Prop where
  free : ∀ base, c = .pmm_free base → base ∈ s.2
  alloc : ∀ a, c = .pmm_alloc a → s.1.bitmap_i < s.1.bitmap_length

/-- **What runs keep to** until nothing is left: the cursor, and the frames returned, are not before the third
frame. -/
structure Pmm.FromTwo (p : Pmm) (returned : List UInt64) : Prop where
  cursor : 2 ≤ p.bitmap_i
  frames : ∀ a ∈ returned, ∃ i : UInt64, 2 ≤ i ∧ i.toNat < 2 ^ 52 ∧ a = 0x1000 * i

section Accesses

variable {p p' : Pmm} {l : List UInt64} {a : UInt64}

/-- The loop reads at the cursor, and in the map. -/
theorem Pmm.mem_scan_reads {fuel : ℕ} {i j : UInt64} (h : i ∈ p.scan_reads fuel j) :
    i = j ∨ i ≤ p.bitmap_length - 1 := by
  induction fuel generalizing j with
  | zero => cases h
  | succ fuel ih =>
    unfold scan_reads at h
    split at h
    next => exact .inl (List.mem_singleton.1 h)
    next =>
      split at h
      next => exact .inl (List.mem_singleton.1 h)
      next hlt =>
        rcases List.mem_cons.1 h with rfl | h
        · exact .inl rfl
        · rcases ih h with rfl | hle
          · -- the index after one that is below the last
            rw [UInt64.not_le] at hlt
            have hsucc := toNat_succ hlt
            rw [UInt64.lt_iff_toNat_lt] at hlt
            exact .inr (UInt64.le_iff_toNat_le.2 (by omega))
          · exact .inr hle

/-- The loop reads at the cursor first. -/
theorem Pmm.cursor_mem_scan_reads (p : Pmm) (fuel : ℕ) (j : UInt64) : j ∈ p.scan_reads (fuel + 1) j := by
  unfold scan_reads
  split
  · simp
  · split <;> simp

/-- The frame found is at the cursor, or in the map. -/
theorem Pmm.search_le (hs : p.search.1 = true) :
    p.search.2 = p.bitmap_i ∨ p.search.2 ≤ p.bitmap_length - 1 := by
  obtain ⟨i, hi, hend, hfree⟩ := Pmm.hasFree_iff.2 hs
  obtain ⟨hle, hall⟩ := Pmm.search_spec p
  have hstop : p.search.2 ≤ i := UInt64.not_lt.1 fun hlt => (hall i hi hlt).1 hfree
  rcases hend with rfl | hend
  · exact .inl (UInt64.le_antisymm hstop hle)
  · exact .inr (UInt64.le_trans hstop hend)

/-- What is at the cursor or not behind the last byte is in the map, when the cursor is. -/
theorem lt_of_cursor_lt {i j n : UInt64} (hj : j < n) (h : i = j ∨ i ≤ n - 1) : i < n := by
  rcases h with rfl | h
  · exact hj
  · have hpred := toNat_pred hj
    rw [UInt64.lt_iff_toNat_lt] at hj ⊢
    rw [UInt64.le_iff_toNat_le] at h
    omega

theorem Pmm.free_accesses_lt {base i : UInt64} (h : i ∈ p.free_accesses base) : i < p.bitmap_length := by
  unfold free_accesses at h
  split at h
  next n hfind =>
    obtain rfl := List.mem_singleton.1 h
    exact (Pmm.find_first hfind fun n hn => absurd hn (by simp)).2.1
  next => cases h

/-- **With the cursor in the map** the calls keep to it. -/
theorem Pmm.FromTwo.keepsToMap (h : p.FromTwo l) (hm : p.InMemory) (hlt : p.bitmap_i < p.bitmap_length) :
    p.KeepsToMap l := by
  refine ⟨fun i hi => ?_, fun base _ i hi => free_accesses_lt hi, fun a p' ha h0 => ?_⟩
  · unfold alloc_accesses at hi
    split at hi
    next => cases hi
    next =>
      rcases List.mem_append.1 hi with hi | hi
      · exact lt_of_cursor_lt hlt (mem_scan_reads hi)
      · split at hi
        next hs =>
          obtain rfl := List.mem_singleton.1 hi
          exact lt_of_cursor_lt hlt (search_le hs)
        next => cases hi
  · obtain ⟨-, ⟨-, rfl, -⟩ | ⟨hs, hfree, rfl, -⟩⟩ := pmm_alloc_cases ha
    · exact absurd rfl h0
    · exact ⟨_, UInt64.le_trans h.cursor (Pmm.search_spec p).1, lt_of_cursor_lt hlt (search_le hs),
        frame_toNat (hm _ hfree)⟩

/-- And with the cursor behind it, an allocation does not. -/
theorem Pmm.KeepsToMap.cursor (h : p.KeepsToMap l) (hl : p.lock = false) : p.bitmap_i < p.bitmap_length := by
  refine h.alloc _ ?_
  unfold alloc_accesses
  rw [hl]
  exact List.mem_append_left _ (cursor_mem_scan_reads p _ _)

theorem Pmm.FromTwo.alloc (h : p.FromTwo l) (hm : p.InMemory) (ha : pmm_alloc p = .ok (a, p')) :
    p'.lock = false → p'.FromTwo (a :: l) := by
  obtain ⟨-, ⟨-, rfl, rfl⟩ | ⟨-, hfree, rfl, rfl⟩⟩ := pmm_alloc_cases ha
  · exact fun hl => by cases hl
  · intro _
    have hj := hm _ hfree
    have h2 := UInt64.le_trans h.cursor (Pmm.search_spec p).1
    refine ⟨?_, fun b hb => ?_⟩
    · rw [UInt64.le_iff_toNat_le] at h2 ⊢
      rw [toNat_add_one hj]
      omega
    · rcases List.mem_cons.1 hb with rfl | hb
      · exact ⟨_, h2, hj, rfl⟩
      · exact h.frames b hb

theorem Pmm.FromTwo.free {base : UInt64} (h : p.FromTwo l) (hf : pmm_free p base = .ok p') (hb : base ∈ l) :
    p'.FromTwo l := by
  rcases pmm_free_cases hf with rfl | ⟨-, rfl⟩
  · exact h
  · obtain ⟨i, h2, hi, rfl⟩ := h.frames base hb
    refine ⟨?_, h.frames⟩
    dsimp only
    rwa [frame_div hi]

end Accesses

/-- **In every run** in which frames that were returned are freed and allocations are made with the cursor in
the map, from any map of any length: the next calls keep to the map if and only if the cursor is in the map,
or an allocation waits for the mutex for ever. -/
theorem keeps_to_map_iff {m : Memory} {base length : UInt64} {cs : List PmmCall} {p : Pmm} {l : List UInt64}
    (h : Lib.Run Noted CursorInMap (Pmm.boot m base length, []) cs (p, l)) :
    p.KeepsToMap l ↔ p.lock = true ∨ p.bitmap_i < p.bitmap_length := by
  obtain ⟨hm, htwo⟩ := h.invariant (I := fun s => s.1.InMemory ∧ (s.1.lock = false → s.1.FromTwo s.2))
    ⟨Pmm.boot_inMemory m base length, fun _ => ⟨UInt64.le_refl _, by simp⟩⟩
    fun {s s' c} ⟨hm, htwo⟩ hC hS => by
      obtain ⟨hcall, hl⟩ := hS
      refine ⟨hm.called hcall, ?_⟩
      rw [hl]
      cases c with
      | pmm_alloc => exact (htwo (pmm_alloc_cases hcall).1).alloc hm hcall
      | pmm_free base =>
        intro hlock
        rw [pmm_free_lock hcall] at hlock
        exact (htwo hlock).free hcall (hC.free base rfl)
  cases hl : p.lock with
  | false =>
    constructor
    · exact fun hk => .inr (hk.cursor hl)
    · rintro (h | hlt)
      · cases h
      · exact (htwo hl).keepsToMap hm hlt
  | true =>
    refine ⟨fun _ => .inl rfl, fun _ => ⟨fun i hi => ?_, fun base _ i hi => Pmm.free_accesses_lt hi, ?_⟩⟩
    · rw [Pmm.alloc_accesses, hl, if_pos rfl] at hi
      cases hi
    · intro a p' ha
      rw [(pmm_alloc_cases ha).1] at hl
      cases hl

/-- Three of four frames are handed out, and the second is given back and handed out again. -/
theorem keeps_to_map_again : ∃ cs p l, Lib.Run Noted CursorInMap (Pmm.boot fourFrames 0 6, []) cs (p, l) ∧
    cs = [.pmm_alloc 0x2000, .pmm_alloc 0x3000, .pmm_alloc 0x4000, .pmm_free 0x3000, .pmm_alloc 0x3000] ∧
    p.KeepsToMap l := by
  obtain ⟨p₁, p₂, p₃, p₄, p, h₁, h₂, h₃, h₄, h₅, i₁, i₂, i₃, i₅, i⟩ :
      ∃ p₁ p₂ p₃ p₄ p, pmm_alloc (Pmm.boot fourFrames 0 6) = .ok (0x2000, p₁) ∧ pmm_alloc p₁ = .ok (0x3000, p₂) ∧
        pmm_alloc p₂ = .ok (0x4000, p₃) ∧ pmm_free p₃ 0x3000 = .ok p₄ ∧ pmm_alloc p₄ = .ok (0x3000, p) ∧
        (Pmm.boot fourFrames 0 6).bitmap_i < (Pmm.boot fourFrames 0 6).bitmap_length ∧
        p₁.bitmap_i < p₁.bitmap_length ∧ p₂.bitmap_i < p₂.bitmap_length ∧ p₄.bitmap_i < p₄.bitmap_length ∧
        p.bitmap_i < p.bitmap_length :=
    ⟨_, _, _, _, _, rfl, rfl, rfl, rfl, rfl, by decide, by decide +kernel, by decide +kernel, by decide +kernel,
      by decide +kernel⟩
  have alloc : ∀ {p : Pmm} {l : List UInt64} {a : UInt64}, p.bitmap_i < p.bitmap_length →
      CursorInMap (p, l) (.pmm_alloc a) := fun h => ⟨fun _ he => (by cases he), fun _ _ => h⟩
  have free : ∀ {p : Pmm} {l : List UInt64} {a : UInt64}, a ∈ l → CursorInMap (p, l) (.pmm_free a) :=
    fun h => ⟨fun b hb => PmmCall.pmm_free.inj hb ▸ h, fun _ h => by cases h⟩
  have noted : ∀ {p p' : Pmm} {l : List UInt64} {a : UInt64}, pmm_alloc p = .ok (a, p') →
      Noted (p, l) (.pmm_alloc a) (p', a :: l) := fun h => ⟨h, rfl⟩
  have freed : ∀ {p p' : Pmm} {l : List UInt64} {a : UInt64}, pmm_free p a = .ok p' →
      Noted (p, l) (.pmm_free a) (p', l) := fun h => ⟨h, rfl⟩
  have hr : Lib.Run Noted CursorInMap (Pmm.boot fourFrames 0 6, []) _ (p, [0x3000, 0x4000, 0x3000, 0x2000]) :=
    ((((Lib.Run.nil.snoc (alloc i₁) (noted h₁)).snoc (alloc i₂) (noted h₂)).snoc (alloc i₃) (noted h₃)).snoc
      (free (by decide)) (freed h₄)).snoc (alloc i₅) (noted h₅)
  exact ⟨_, p, _, hr, rfl, (keeps_to_map_iff hr).2 (.inr i)⟩

/-- After the last of four frames the next call reads behind the map. -/
theorem not_keeps_to_map : ¬∀ m base length cs p l,
    Lib.Run Noted (fun s c => ∀ base, c = .pmm_free base → base ∈ s.2) (Pmm.boot m base length, []) cs (p, l) →
      p.KeepsToMap l := by
  intro hall
  obtain ⟨p₁, p₂, p₃, p₄, h₁, h₂, h₃, h₄, hl, hi, hlen⟩ : ∃ p₁ p₂ p₃ p₄,
      pmm_alloc (Pmm.boot fourFrames 0 6) = .ok (0x2000, p₁) ∧ pmm_alloc p₁ = .ok (0x3000, p₂) ∧
        pmm_alloc p₂ = .ok (0x4000, p₃) ∧ pmm_alloc p₃ = .ok (0x5000, p₄) ∧ p₄.lock = false ∧
          p₄.bitmap_i = 6 ∧ p₄.bitmap_length = 6 := ⟨_, _, _, _, rfl, rfl, rfl, rfl, rfl, rfl, rfl⟩
  have hC : ∀ {l : List UInt64} {a : UInt64}, ∀ base, PmmCall.pmm_alloc a = .pmm_free base → base ∈ l :=
    fun _ h => by cases h
  have noted : ∀ {p p' : Pmm} {l : List UInt64} {a : UInt64}, pmm_alloc p = .ok (a, p') →
      Noted (p, l) (.pmm_alloc a) (p', a :: l) := fun h => ⟨h, rfl⟩
  have hr := hall fourFrames 0 6 [.pmm_alloc 0x2000, .pmm_alloc 0x3000, .pmm_alloc 0x4000, .pmm_alloc 0x5000]
    p₄ [0x5000, 0x4000, 0x3000, 0x2000]
    ((((Lib.Run.nil.snoc hC (noted h₁)).snoc hC (noted h₂)).snoc hC (noted h₃)).snoc hC (noted h₄))
  have hlt := hr.cursor hl
  rw [hi, hlen] at hlt
  exact absurd hlt (by decide)

end Iridium
