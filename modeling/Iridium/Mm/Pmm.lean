import Iridium.Common.Errno
import Mathlib.Logic.Function.Basic

/-!
# The physical frame allocator

`mm/pmm.c`: one byte for each frame in a map that starts as whatever memory held,
`BITMAP_FREE` where the frame may be handed out, and a cursor `bitmap_i` where the
next search begins. The search goes upwards only; a `pmm_free` sets the cursor to the
frame freed.

The map is a function on all 64-bit indices: the search of `pmm_alloc` reads one byte
past the end when the cursor is there.
-/

namespace Iridium

def BITMAP_FREE : UInt8 := 0x1

/-- The static state of `mm/pmm.c`. -/
structure Pmm where
  /-- The byte of each frame. -/
  bitmap : UInt64 → UInt8
  /-- How many bytes the map has. -/
  bitmap_length : UInt64
  /-- Where the next search begins. -/
  bitmap_i : UInt64
  /-- The mutex of `pmm_alloc`. -/
  lock : Bool

namespace Pmm

/-- The loop of `pmm_alloc` from index `i`: whether it found a free frame, and the
index where it stopped. -/
def scan (p : Pmm) : ℕ → UInt64 → Bool × UInt64
  | 0, i => (false, i)
  | fuel + 1, i =>
    if p.bitmap i = BITMAP_FREE then (true, i)
    else if p.bitmap_length - 1 ≤ i then (false, i)
    else scan p fuel (i + 1)

/-- The search from the cursor; it takes at most one turn for each index left. -/
def search (p : Pmm) : Bool × UInt64 :=
  p.scan ((p.bitmap_length - 1).toNat - p.bitmap_i.toNat + 1) p.bitmap_i

/-- The loop of `pmm_free`: a 32-bit index, compared as the 32-bit product `0x1000*i`. -/
def find (p : Pmm) (base : UInt64) : ℕ → UInt32 → Option (Option UInt32)
  | 0, _ => none
  | fuel + 1, i =>
    if i.toUInt64 < p.bitmap_length then
      if (0x1000 * i).toUInt64 = base then some (some i) else find p base fuel (i + 1)
    else some none

end Pmm

/-- `pmm_alloc`. When the frames are used up it returns `0` with its mutex held. -/
def pmm_alloc (p : Pmm) : Kern (UInt64 × Pmm) :=
  if p.lock then .error .deadlock
  else match p.search with
    | (false, i) => .ok (0, { p with lock := true, bitmap_i := i })
    | (true, i) =>
      .ok (0x1000 * i, { p with bitmap := Function.update p.bitmap i 0, bitmap_i := i + 1 })

/-- `pmm_free`. Its mutex is a local variable and excludes nobody. After `2^32` turns
the index is where it began. -/
def pmm_free (p : Pmm) (base : UInt64) : Kern Pmm := do
  match ← ofFuel (p.find base (2 ^ 32) 0) with
  | none => pure p
  | some i => pure { p with bitmap := Function.update p.bitmap i.toUInt64 BITMAP_FREE,
                            bitmap_i := i.toUInt64 }

/-! ### What an allocation takes -/

namespace Pmm

/-- An index that is not the last has one after it. -/
theorem toNat_succ {i n : UInt64} (h : i < n) : (i + 1).toNat = i.toNat + 1 := by
  rw [UInt64.lt_iff_toNat_lt] at h
  have hn := n.toNat_lt
  rw [UInt64.toNat_add]
  simp
  omega

/-- `p'` comes from `p` by allocations: no frame in use was given back. -/
structure Takes (p p' : Pmm) : Prop where
  length : p'.bitmap_length = p.bitmap_length
  keeps : ∀ i, p.bitmap i ≠ BITMAP_FREE → p'.bitmap i ≠ BITMAP_FREE

@[refl] theorem Takes.refl (p : Pmm) : Takes p p := ⟨rfl, fun _ h => h⟩

theorem Takes.trans {p q r : Pmm} (h₁ : Takes p q) (h₂ : Takes q r) : Takes p r :=
  ⟨h₂.length.trans h₁.length, fun i h => h₂.keeps i (h₁.keeps i h)⟩

/-- A search that found a frame stopped at a free one. -/
theorem scan_free {p : Pmm} {fuel : ℕ} {i j : UInt64} (h : p.scan fuel i = (true, j)) :
    p.bitmap j = BITMAP_FREE := by
  induction fuel generalizing i with
  | zero => simp [scan] at h
  | succ fuel ih =>
    unfold scan at h
    split at h
    next hi =>
      obtain rfl : i = j := by simpa using h
      exact hi
    next =>
      split at h
      · simp at h
      · exact ih h

/-- A search stops at the first free frame, or at the end of the map. -/
theorem scan_spec {p : Pmm} {fuel : ℕ} {i j : UInt64} {b : Bool} (h : p.scan fuel i = (b, j)) :
    i ≤ j ∧ ∀ n, i ≤ n → n < j → p.bitmap n ≠ BITMAP_FREE ∧ n < p.bitmap_length - 1 := by
  induction fuel generalizing i with
  | zero =>
    obtain rfl : i = j := (Prod.mk.inj h).2
    exact ⟨UInt64.le_refl i, fun n h₁ h₂ => absurd h₂ (UInt64.not_lt.2 h₁)⟩
  | succ fuel ih =>
    have stop : i = j → i ≤ j ∧ ∀ n, i ≤ n → n < j → p.bitmap n ≠ BITMAP_FREE ∧ n < p.bitmap_length - 1 := by
      rintro rfl
      exact ⟨UInt64.le_refl i, fun n h₁ h₂ => absurd h₂ (UInt64.not_lt.2 h₁)⟩
    unfold scan at h
    split at h
    next => exact stop (Prod.mk.inj h).2
    next hi =>
      split at h
      next => exact stop (Prod.mk.inj h).2
      next hlt =>
        rw [UInt64.not_le] at hlt
        obtain ⟨hle, hall⟩ := ih h
        have hsucc : (i + 1).toNat = i.toNat + 1 := toNat_succ hlt
        rw [UInt64.le_iff_toNat_le, hsucc] at hle
        refine ⟨UInt64.le_iff_toNat_le.2 (Nat.le_of_succ_le hle), fun n h₁ h₂ => ?_⟩
        by_cases hn : n = i
        · rw [hn]
          exact ⟨hi, hlt⟩
        · refine hall n ?_ h₂
          rw [UInt64.le_iff_toNat_le] at h₁ ⊢
          have hne : n.toNat ≠ i.toNat := fun he => hn (UInt64.toNat_inj.1 he)
          omega

/-- A search with enough turns that found nothing ended at the end of the map. -/
theorem scan_exhausted {p : Pmm} {fuel : ℕ} {i j : UInt64} (h : p.scan fuel i = (false, j))
    (hf : (p.bitmap_length - 1).toNat - i.toNat < fuel) :
    p.bitmap j ≠ BITMAP_FREE ∧ p.bitmap_length - 1 ≤ j := by
  induction fuel generalizing i with
  | zero => omega
  | succ fuel ih =>
    unfold scan at h
    split at h
    next => cases h
    next hi =>
      split at h
      next hle =>
        obtain rfl : i = j := (Prod.mk.inj h).2
        exact ⟨hi, hle⟩
      next hlt =>
        rw [UInt64.not_le] at hlt
        refine ih h ?_
        rw [toNat_succ hlt]
        rw [UInt64.lt_iff_toNat_lt] at hlt
        omega

/-- The search of `pmm_alloc` has enough turns. -/
theorem search_exhausted {p : Pmm} (h : p.search.1 = false) :
    p.bitmap p.search.2 ≠ BITMAP_FREE ∧ p.bitmap_length - 1 ≤ p.search.2 :=
  scan_exhausted (i := p.bitmap_i) (Prod.ext h rfl) (by omega)

theorem search_spec (p : Pmm) : p.bitmap_i ≤ p.search.2 ∧ ∀ n, p.bitmap_i ≤ n → n < p.search.2 →
    p.bitmap n ≠ BITMAP_FREE ∧ n < p.bitmap_length - 1 :=
  scan_spec (b := p.search.1) rfl

end Pmm

/-- **An allocation that returns** either found nothing, answers `0` and leaves the mutex
held, or has taken a free frame. -/
theorem pmm_alloc_cases {p p' : Pmm} {a : UInt64} (h : pmm_alloc p = .ok (a, p')) :
    p.lock = false ∧
      ((p.search.1 = false ∧ a = 0 ∧ p' = { p with lock := true, bitmap_i := p.search.2 }) ∨
        (p.search.1 = true ∧ p.bitmap p.search.2 = BITMAP_FREE ∧ a = 0x1000 * p.search.2 ∧
          p' = { p with bitmap := Function.update p.bitmap p.search.2 0,
                        bitmap_i := p.search.2 + 1 })) := by
  unfold pmm_alloc at h
  cases hl : p.lock with
  | true => simp [hl] at h
  | false =>
    refine ⟨rfl, ?_⟩
    rcases hs : p.search with ⟨_ | _, i⟩
    · simp only [hl, hs, Bool.false_eq_true, if_false, Except.ok.injEq, Prod.mk.injEq] at h
      exact .inl ⟨rfl, h.1.symm, h.2.symm⟩
    · simp only [hl, hs, Bool.false_eq_true, if_false, Except.ok.injEq, Prod.mk.injEq] at h
      exact .inr ⟨rfl, Pmm.scan_free hs, h.1.symm, h.2.symm⟩

/-- The address `pmm_alloc` answers with: `0` when it finds no frame. -/
def Pmm.next_alloc (p : Pmm) : UInt64 := if p.search.1 then 0x1000 * p.search.2 else 0

/-- What `pmm_alloc` answers, and when. -/
theorem pmm_alloc_answers {p : Pmm} :
    (∀ a p', pmm_alloc p = .ok (a, p') → a = p.next_alloc ∧ p.lock = false) ∧
      (p.lock = false → ∃ p', pmm_alloc p = .ok (p.next_alloc, p')) := by
  constructor
  · intro a p' h
    obtain ⟨hl, ⟨hs, rfl, -⟩ | ⟨hs, -, rfl, -⟩⟩ := pmm_alloc_cases h
    · exact ⟨by rw [Pmm.next_alloc, hs]; rfl, hl⟩
    · exact ⟨by rw [Pmm.next_alloc, hs]; rfl, hl⟩
  · intro hl
    unfold pmm_alloc Pmm.next_alloc
    rw [hl]
    rcases p.search with ⟨_ | _, i⟩
    · exact ⟨_, rfl⟩
    · exact ⟨_, rfl⟩

theorem pmm_alloc_takes {p p' : Pmm} {a : UInt64} (h : pmm_alloc p = .ok (a, p')) : p.Takes p' := by
  obtain ⟨-, ⟨-, -, rfl⟩ | ⟨-, -, -, rfl⟩⟩ := pmm_alloc_cases h
  · exact ⟨rfl, fun _ h => h⟩
  · refine ⟨rfl, fun i hi => ?_⟩
    by_cases he : i = p.search.2
    · subst he
      simp [BITMAP_FREE]
    · simpa [Function.update_of_ne he] using hi

/-! ### What a free gives back -/

/-- `pmm_free` finds the frame at `base`. -/
structure Pmm.Covers (p : Pmm) (base : UInt64) : Prop where
  /-- The 32-bit product can be `base`. -/
  product : base < 0x100000000
  /-- The map has an entry for it. -/
  index : base / 0x1000 < p.bitmap_length

instance (p : Pmm) (base : UInt64) : Decidable (p.Covers base) :=
  decidable_of_iff (base < 0x100000000 ∧ base / 0x1000 < p.bitmap_length)
    ⟨fun h => ⟨h.1, h.2⟩, fun h => ⟨h.product, h.index⟩⟩

/-- The index that the loop of `pmm_free` finds is the first with the right product. -/
theorem Pmm.find_first {p : Pmm} {base : UInt64} {fuel : ℕ} {j i : UInt32}
    (h : p.find base fuel j = some (some i)) (hj : ∀ n < j, (0x1000 * n).toUInt64 ≠ base) :
    (0x1000 * i).toUInt64 = base ∧ i.toUInt64 < p.bitmap_length ∧
      ∀ n < i, (0x1000 * n).toUInt64 ≠ base := by
  induction fuel generalizing j with
  | zero => simp [find] at h
  | succ fuel ih =>
    unfold find at h
    split at h
    next hlt =>
      split at h
      next hb =>
        obtain rfl : j = i := by simpa using h
        exact ⟨hb, hlt, hj⟩
      next hb =>
        refine ih h fun n hn => ?_
        by_cases he : n = j
        · rwa [he]
        · refine hj n (UInt32.lt_of_le_of_ne ?_ he)
          rw [UInt32.lt_iff_toNat_lt, UInt32.toNat_add] at hn
          rw [UInt32.le_iff_toNat_le]
          simp at hn
          omega
    next => simp at h

/-- The loop of `pmm_free` looks at every index from where it is. -/
theorem Pmm.find_none {p : Pmm} {base : UInt64} {fuel : ℕ} {j n : UInt32} (h : p.find base fuel j = some none)
    (hn : j ≤ n) (hlt : n.toUInt64 < p.bitmap_length) : (0x1000 * n).toUInt64 ≠ base := by
  induction fuel generalizing j with
  | zero => simp [find] at h
  | succ fuel ih =>
    rw [UInt32.le_iff_toNat_le] at hn
    unfold find at h
    split at h
    next =>
      split at h
      next => cases h
      next hb =>
        by_cases he : n = j
        · rwa [he]
        · refine ih h ?_
          have hne : n.toNat ≠ j.toNat := fun h => he (UInt32.toNat_inj.1 h)
          have hlt := n.toNat_lt
          rw [UInt32.le_iff_toNat_le, UInt32.toNat_add]
          simp
          omega
    next hge =>
      rw [UInt64.not_lt, UInt64.le_iff_toNat_le] at hge
      rw [UInt64.lt_iff_toNat_lt] at hlt
      simp at hge hlt
      omega

/-- The index that the loop finds is that of the frame. -/
theorem Pmm.find_index {p : Pmm} {base : UInt64} {fuel : ℕ} {i : UInt32}
    (h : p.find base fuel 0 = some (some i)) :
    i.toUInt64 = base / 0x1000 ∧ p.Covers base ∧ base % 0x1000 = 0 := by
  obtain ⟨hb, hlt, hfirst⟩ := Pmm.find_first h fun n hn => absurd hn (by simp)
  -- an index from `2^20` on has the product of a smaller one
  have hi : i.toNat < 0x100000 := by
    by_contra hge
    refine hfirst (UInt32.ofNat (i.toNat % 0x100000)) ?_ ?_
    · rw [UInt32.lt_iff_toNat_lt]
      simp
      omega
    · rw [← hb]
      congr 1
      apply UInt32.toNat_inj.1
      simp
      omega
  have hbase : base.toNat = 4096 * i.toNat := by
    rw [← hb]
    simp
    omega
  have hdiv : i.toUInt64 = base / 0x1000 := by
    apply UInt64.toNat_inj.1
    rw [UInt64.toNat_div, hbase]
    simp
  refine ⟨hdiv, ⟨?_, hdiv ▸ hlt⟩, ?_⟩
  · rw [UInt64.lt_iff_toNat_lt, hbase]
    simp
    omega
  · apply UInt64.toNat_inj.1
    rw [UInt64.toNat_mod, hbase]
    simp

/-- **A free that returns** has given back a frame that the map has a byte for. -/
theorem pmm_free_eq {p p' : Pmm} {base : UInt64} (h : pmm_free p base = .ok p') :
    p' = if p.Covers base ∧ base % 0x1000 = 0 then
        { p with bitmap := Function.update p.bitmap (base / 0x1000) BITMAP_FREE,
                 bitmap_i := base / 0x1000 }
      else p := by
  obtain ⟨o, ho, h⟩ := bind_ok.1 h
  rw [ofFuel_ok] at ho
  cases o with
  | some i =>
    obtain ⟨hdiv, hc⟩ := Pmm.find_index ho
    rw [if_pos hc, ← hdiv]
    exact (pure_ok.1 h).symm
  | none =>
    rw [if_neg]
    · exact (pure_ok.1 h).symm
    rintro ⟨hc, hm⟩
    have hlt : base.toNat < 2 ^ 32 := by simpa [UInt64.lt_iff_toNat_lt] using hc.product
    have hm' : base.toNat % 4096 = 0 := by simpa using congrArg UInt64.toNat hm
    have hn : (UInt32.ofNat (base.toNat / 4096)).toUInt64 = base / 0x1000 := by
      apply UInt64.toNat_inj.1
      rw [UInt64.toNat_div]
      simp
      omega
    refine Pmm.find_none (n := UInt32.ofNat (base.toNat / 4096)) ho (by simp) (hn ▸ hc.index) ?_
    apply UInt64.toNat_inj.1
    simp
    omega

/-- It has given back the frame, or has not found it. -/
theorem pmm_free_cases {p p' : Pmm} {base : UInt64} (h : pmm_free p base = .ok p') :
    p' = p ∨ (p.Covers base ∧
      p' = { p with bitmap := Function.update p.bitmap (base / 0x1000) BITMAP_FREE,
                    bitmap_i := base / 0x1000 }) := by
  have heq := pmm_free_eq h
  split at heq
  next hc => exact .inr ⟨hc.1, heq⟩
  next => exact .inl heq

/-- The loop of `pmm_free` ends when the map has fewer than `2^32` bytes, or when the
frame lies below `2^32`, where 32 bits of the product suffice. -/
theorem pmm_free_returns (p : Pmm) {base : UInt64}
    (h : p.bitmap_length < 0x100000000 ∨ (base < 0x100000000 ∧ base % 0x1000 = 0)) :
    ∃ p', pmm_free p base = .ok p' := by
  obtain ⟨n, hn, hstop⟩ : ∃ n : ℕ, n < 2 ^ 32 ∧
      (¬ (UInt32.ofNat n).toUInt64 < p.bitmap_length ∨
        (0x1000 * UInt32.ofNat n).toUInt64 = base) := by
    rcases h with h | ⟨h, hm⟩
    · refine ⟨p.bitmap_length.toNat, by simpa [UInt64.lt_iff_toNat_lt] using h, .inl ?_⟩
      have : p.bitmap_length.toNat < 2 ^ 32 := by simpa [UInt64.lt_iff_toNat_lt] using h
      simp [UInt64.lt_iff_toNat_lt]
      omega
    · have hb : base.toNat < 2 ^ 32 := by simpa [UInt64.lt_iff_toNat_lt] using h
      have hm' : base.toNat % 4096 = 0 := by
        have := congrArg UInt64.toNat hm
        simpa using this
      refine ⟨base.toNat / 4096, by omega, .inr ?_⟩
      apply UInt64.toNat_inj.1
      simp
      omega
  have key : ∀ (fuel : ℕ) (j : UInt32), j.toNat ≤ n → n < j.toNat + fuel →
      ∃ o, p.find base fuel j = some o := by
    intro fuel
    induction fuel with
    | zero => intro j hj hf; omega
    | succ fuel ih =>
      intro j hj hf
      unfold Pmm.find
      split
      next hlt =>
        split
        · exact ⟨_, rfl⟩
        next hne =>
          have hjn : j.toNat ≠ n := by
            rintro rfl
            simp only [UInt32.ofNat_toNat] at hstop
            rcases hstop with hs | hs
            · exact hs hlt
            · exact hne hs
          have hsucc : (j + 1).toNat = j.toNat + 1 := by
            rw [UInt32.toNat_add]
            simp
            omega
          exact ih (j + 1) (by omega) (by omega)
      · exact ⟨_, rfl⟩
  obtain ⟨o, ho⟩ := key (2 ^ 32) 0 (by simp) (by simpa using hn)
  unfold pmm_free
  rw [ho]
  cases o <;> exact ⟨_, rfl⟩

end Iridium
