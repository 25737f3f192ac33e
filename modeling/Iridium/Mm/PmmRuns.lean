import Iridium.Mm.PmmInit
import Iridium.Lib.Run
import Mathlib.Data.List.Nodup

/-!
# Runs of the allocator

What holds of `pmm_alloc` and `pmm_free` over any sequence of calls, from a map with any bytes.

No frame is handed out twice while it is in use, if only frames that are in use are freed
(`frames_distinct`): the byte of a frame in use is not `BITMAP_FREE`, and a frame has one byte.

The answer `0` should mean that no frame is left. The search goes upwards from the cursor and never
begins anew, so it misses what is free below; the cursor is above a free frame exactly when
`pmm_free` was given a frame above one that was free already (`exhausted_of_upwards`).
-/

namespace Iridium

/-! ### Calls -/

/-- A call of the allocator, and what `pmm_alloc` answered. -/
inductive PmmCall where
  | pmm_alloc (frame : UInt64)
  | pmm_free (base : UInt64)

/-- The call returns. -/
def Called (p : Pmm) (c : PmmCall) (p' : Pmm) : Prop :=
  match c with
  | .pmm_alloc frame => Iridium.pmm_alloc p = .ok (frame, p')
  | .pmm_free base => Iridium.pmm_free p base = .ok p'

/-- The index of a byte that is marked free is that of a frame with an address. -/
def Pmm.InMemory (p : Pmm) : Prop := ∀ i, p.bitmap i = BITMAP_FREE → i.toNat < 2 ^ 52

section Memory

variable {p p' : Pmm} {c : PmmCall}

/-- The map lies in memory. -/
theorem Pmm.boot_inMemory (m : Memory) (base length : UInt64) : (Pmm.boot m base length).InMemory := by
  intro i hi
  replace hi : m.read (base.toNat + i.toNat) = BITMAP_FREE := hi
  unfold Memory.read at hi
  split at hi
  · omega
  · cases hi

theorem Pmm.InMemory.called (h : p.InMemory) (hc : Called p c p') : p'.InMemory := by
  intro i hi
  cases c with
  | pmm_alloc frame =>
    obtain ⟨-, ⟨-, -, rfl⟩ | ⟨-, -, -, rfl⟩⟩ := pmm_alloc_cases hc
    · exact h i hi
    · by_cases he : i = p.search.2
      · rw [he] at hi
        simp [BITMAP_FREE] at hi
      · exact h i (by simpa [he] using hi)
  | pmm_free base =>
    rcases pmm_free_cases hc with rfl | ⟨-, rfl⟩
    · exact h i hi
    · by_cases he : i = base / 0x1000
      · have hb := base.toNat_lt
        rw [he, UInt64.toNat_div]
        simp
        omega
      · exact h i (by simpa [he] using hi)

/-- The index after that of a frame. -/
theorem toNat_add_one {i : UInt64} (hi : i.toNat < 2 ^ 52) : (i + 1).toNat = i.toNat + 1 := by
  rw [UInt64.toNat_add]
  simp
  omega

/-- The address of a frame. -/
theorem frame_toNat {i : UInt64} (hi : i.toNat < 2 ^ 52) : (0x1000 * i).toNat = 4096 * i.toNat := by
  rw [UInt64.toNat_mul]
  simp
  omega

theorem frame_inj {i j : UInt64} (hi : i.toNat < 2 ^ 52) (hj : j.toNat < 2 ^ 52)
    (h : 0x1000 * i = 0x1000 * j) : i = j := by
  have hn := congrArg UInt64.toNat h
  rw [frame_toNat hi, frame_toNat hj] at hn
  exact UInt64.toNat_inj.1 (by omega)

theorem frame_div {i : UInt64} (hi : i.toNat < 2 ^ 52) : 0x1000 * i / 0x1000 = i := by
  apply UInt64.toNat_inj.1
  rw [UInt64.toNat_div, frame_toNat hi]
  simp

end Memory

/-! ### Frames in use -/

/-- The frames in use after a call. -/
def PmmCall.inUse (l : List UInt64) : PmmCall → List UInt64
  | .pmm_alloc frame => frame :: l
  | .pmm_free base => l.erase base

/-- A call, with the frames in use: the answers of `pmm_alloc` that were not freed since. -/
def Booked (s : Pmm × List UInt64) (c : PmmCall) (s' : Pmm × List UInt64) : Prop :=
  Called s.1 c s'.1 ∧ s'.2 = c.inUse s.2

/-- What is freed is in use. -/
def Owning (s : Pmm × List UInt64) (c : PmmCall) : Prop := ∀ base, c = .pmm_free base → base ∈ s.2

/-- **The frames in use** are different ones, and their bytes are not `BITMAP_FREE`. -/
structure Pmm.Uses (p : Pmm) (l : List UInt64) : Prop where
  distinct : (l.filter (· ≠ 0)).Nodup
  marked : ∀ a ∈ l, a ≠ 0 → ∃ i : UInt64, i.toNat < 2 ^ 52 ∧ a = 0x1000 * i ∧ p.bitmap i ≠ BITMAP_FREE

section Uses

variable {p p' : Pmm} {l : List UInt64} {a : UInt64}

/-- **A frame handed out** was not in use. -/
theorem Pmm.Uses.fresh (h : p.Uses l) (hm : p.InMemory) (ha : pmm_alloc p = .ok (a, p')) (h0 : a ≠ 0) :
    a ∉ l := by
  intro hl
  obtain ⟨i, hi, hai, hbyte⟩ := h.marked a hl h0
  obtain ⟨-, ⟨-, rfl, -⟩ | ⟨-, hfree, haj, -⟩⟩ := pmm_alloc_cases ha
  · exact h0 rfl
  · have hij := frame_inj hi (hm _ hfree) (hai.symm.trans haj)
    rw [hij] at hbyte
    exact hbyte hfree

theorem Pmm.Uses.alloc (h : p.Uses l) (hm : p.InMemory) (ha : pmm_alloc p = .ok (a, p')) : p'.Uses (a :: l) := by
  have hfresh := h.fresh hm ha
  obtain ⟨-, ⟨-, rfl, rfl⟩ | ⟨-, hfree, rfl, rfl⟩⟩ := pmm_alloc_cases ha
  · refine ⟨by simpa using h.distinct, fun b hb hb0 => ?_⟩
    exact h.marked b ((List.mem_cons.1 hb).resolve_left hb0) hb0
  · refine ⟨?_, fun b hb hb0 => ?_⟩
    · by_cases h0 : (0x1000 : UInt64) * p.search.2 = 0
      · simpa [h0] using h.distinct
      · rw [List.filter_cons_of_pos (by simpa using h0), List.nodup_cons]
        exact ⟨fun hmem => hfresh h0 (List.mem_of_mem_filter hmem), h.distinct⟩
    · rcases List.mem_cons.1 hb with rfl | hb
      · exact ⟨_, hm _ hfree, rfl, by simp [BITMAP_FREE]⟩
      · obtain ⟨i, hi, rfl, hbyte⟩ := h.marked b hb hb0
        refine ⟨i, hi, rfl, ?_⟩
        by_cases he : i = p.search.2
        · simp [he, BITMAP_FREE]
        · simpa [he] using hbyte

theorem Pmm.Uses.free {base : UInt64} (h : p.Uses l) (hf : pmm_free p base = .ok p') (hl : base ∈ l) :
    p'.Uses (l.erase base) := by
  have hdistinct : ((l.erase base).filter (· ≠ 0)).Nodup := h.distinct.sublist (List.erase_sublist.filter _)
  refine ⟨hdistinct, fun b hb hb0 => ?_⟩
  obtain ⟨i, hi, rfl, hbyte⟩ := h.marked b (List.mem_of_mem_erase hb) hb0
  refine ⟨i, hi, rfl, ?_⟩
  rcases pmm_free_cases hf with rfl | ⟨-, rfl⟩
  · exact hbyte
  · have hne : i ≠ base / 0x1000 := by
      rintro rfl
      have hbase : base ≠ 0 := fun h0 => hb0 (by rw [h0]; rfl)
      obtain ⟨j, hj, hbj, -⟩ := h.marked base hl hbase
      rw [hbj, frame_div hj, ← hbj] at hb
      have hone : l.count base ≤ 1 := by
        rw [← List.count_filter (p := (· ≠ 0)) (by simpa using hbase)]
        exact List.nodup_iff_count_le_one.1 h.distinct base
      have hpos := List.count_pos_iff.2 hb
      rw [List.count_erase_self] at hpos
      omega
    simpa [hne] using hbyte

end Uses

/-! ### Runs that are computed -/

/-- The calls made one after another, as long as they return and what is freed is in use: `none` is an
allocation, and `some base` is a free. -/
def calls (s : Pmm × List UInt64) : List (Option UInt64) → Kern (Pmm × List UInt64)
  | [] => .ok s
  | none :: bs => do
    let (frame, p) ← pmm_alloc s.1
    calls (p, frame :: s.2) bs
  | some base :: bs => do
    let p ← pmm_free s.1 base
    if base ∈ s.2 then calls (p, s.2.erase base) bs else .error .stopped

theorem calls_ok {s s' : Pmm × List UInt64} {bs : List (Option UInt64)} (h : calls s bs = .ok s') :
    ∃ cs, Lib.Run Booked Owning s cs s' := by
  induction bs generalizing s with
  | nil =>
    obtain rfl := Except.ok.inj h
    exact ⟨[], .nil⟩
  | cons b bs ih =>
    cases b with
    | none =>
      obtain ⟨⟨frame, p⟩, ha, h⟩ := bind_ok.1 h
      obtain ⟨cs, hr⟩ := ih h
      exact ⟨_, (Lib.Run.single (e := .pmm_alloc frame) (fun _ h => nomatch h) ⟨ha, rfl⟩).trans hr⟩
    | some base =>
      obtain ⟨p, hf, h⟩ := bind_ok.1 h
      split at h
      next hl =>
        obtain ⟨cs, hr⟩ := ih h
        refine ⟨_, (Lib.Run.single (e := .pmm_free base) (fun b hb => ?_) ⟨hf, rfl⟩).trans hr⟩
        obtain rfl := PmmCall.pmm_free.inj hb
        exact hl
      next => cases h

/-- The calls without the frames in use. -/
theorem called_of_booked {C : Pmm × List UInt64 → PmmCall → Prop} {s s' : Pmm × List UInt64} {cs : List PmmCall}
    (h : Lib.Run Booked C s cs s') : Lib.Run Called (fun _ _ => True) s.1 cs s'.1 := by
  induction h with
  | nil => exact .nil
  | snoc _ _ hS ih => exact ih.snoc trivial hS.1

/-- A map that marks the frames 2 to 5 free. -/
def fourFrames : Memory := fun a => if 2 ≤ a.val ∧ a.val < 6 then BITMAP_FREE else 0

/-! ### Results -/

/-- **In every run** in which only frames in use are freed, from any map, no frame in use is handed out. -/
theorem frames_distinct {m : Memory} {base length : UInt64} {cs : List PmmCall} {p : Pmm} {l : List UInt64}
    (h : Lib.Run Booked Owning (Pmm.boot m base length, []) cs (p, l)) {a : UInt64} {p' : Pmm}
    (ha : pmm_alloc p = .ok (a, p')) (h0 : a ≠ 0) : a ∉ l := by
  obtain ⟨hm, hu⟩ := h.invariant (I := fun s => s.1.InMemory ∧ s.1.Uses s.2)
    ⟨Pmm.boot_inMemory m base length, by simp, by simp⟩ fun {s s' c} ⟨hm, hu⟩ hC hS => by
      obtain ⟨hcall, hl⟩ := hS
      refine ⟨hm.called hcall, ?_⟩
      rw [hl]
      cases c with
      | pmm_alloc => exact hu.alloc hm hcall
      | pmm_free => exact hu.free hcall (hC _ rfl)
  exact hu.fresh hm ha h0

/-- Two frames are handed out and the first is freed; then it is handed out again. -/
theorem frames_distinct_again : ∃ cs p p', Lib.Run Booked Owning (Pmm.boot fourFrames 0 6, []) cs (p, [0x3000]) ∧
    pmm_alloc p = .ok (0x2000, p') ∧ 0x2000 ∉ [(0x3000 : UInt64)] := by
  have hc : ∃ s p', calls (Pmm.boot fourFrames 0 6, []) [none, none, some 0x2000] = .ok s ∧
      s.2 = [0x3000] ∧ pmm_alloc s.1 = .ok (0x2000, p') := ⟨_, _, rfl, by decide +kernel, rfl⟩
  obtain ⟨⟨p, l⟩, p', hs, rfl, ha⟩ := hc
  obtain ⟨cs, hr⟩ := calls_ok hs
  exact ⟨cs, p, p', hr, ha, frames_distinct hr ha (by decide)⟩

/-! ### The answer `0` -/

theorem toNat_pred {i n : UInt64} (h : i < n) : (n - 1).toNat = n.toNat - 1 := by
  rw [UInt64.lt_iff_toNat_lt] at h
  rw [UInt64.toNat_sub_of_le]
  · simp
  · rw [UInt64.le_iff_toNat_le]
    simp
    omega

/-- No frame that the map has a byte for is free, from the first one handed out on. -/
def Pmm.Exhausted (p : Pmm) : Prop := ∀ i, 2 ≤ i → i < p.bitmap_length → p.bitmap i ≠ BITMAP_FREE

/-- **The answer `0`** says so. -/
def Pmm.Honest (p : Pmm) : Prop := ∀ p', pmm_alloc p = .ok (0, p') → p.Exhausted

/-- When nobody waits for the mutex, a frame that is given back has no free one below it; and frame
`0`, whose address is the answer `0`, is given back when no other is free. -/
def Upwards (p : Pmm) (c : PmmCall) : Prop :=
  ∀ base, c = .pmm_free base → p.lock = false → p.Covers base → base % 0x1000 = 0 →
    ∀ i, 2 ≤ i → i < p.bitmap_length → i < base / 0x1000 ∨ base / 0x1000 = 0 → p.bitmap i ≠ BITMAP_FREE

/-- **What the search misses is not free**: the frames below the cursor, and all when the cursor is
at frame `0`. -/
def Pmm.Swept (p : Pmm) : Prop :=
  p.lock = false → ∀ i, 2 ≤ i → i < p.bitmap_length → i < p.bitmap_i ∨ p.bitmap_i = 0 →
    p.bitmap i ≠ BITMAP_FREE

section Swept

variable {p p' : Pmm} {c : PmmCall}

theorem Pmm.Swept.honest (h : p.Swept) (hm : p.InMemory) : p.Honest := by
  intro p' ha i h2 hi
  obtain ⟨hlock, ⟨hs, -, -⟩ | ⟨-, hfree, h0, -⟩⟩ := pmm_alloc_cases ha
  · obtain ⟨hle, hall⟩ := Pmm.search_spec p
    obtain ⟨hend, hlast⟩ := Pmm.search_exhausted hs
    by_cases hlow : i < p.bitmap_i
    · exact h hlock i h2 hi (.inl hlow)
    by_cases hlt : i < p.search.2
    · exact (hall i (UInt64.not_lt.1 hlow) hlt).1
    have hlast' : i = p.search.2 := by
      rw [UInt64.le_iff_toNat_le, toNat_pred hi] at hlast
      rw [UInt64.lt_iff_toNat_lt] at hi hlt
      exact UInt64.toNat_inj.1 (by omega)
    rwa [hlast']
  · -- the frame found is frame `0`
    refine h hlock i h2 hi (.inr ?_)
    have hn := congrArg UInt64.toNat h0
    rw [frame_toNat (hm _ hfree)] at hn
    have hle := (Pmm.search_spec p).1
    rw [UInt64.le_iff_toNat_le] at hle
    apply UInt64.toNat_inj.1
    simp at hn ⊢
    omega

/-- **One call.** -/
theorem Pmm.Swept.called (h : p.Swept) (hm : p.InMemory) (hC : Upwards p c) (hc : Called p c p') : p'.Swept := by
  cases c with
  | pmm_alloc frame =>
    obtain ⟨hlock, ⟨-, -, rfl⟩ | ⟨-, hfree, -, rfl⟩⟩ := pmm_alloc_cases hc
    · exact nofun
    · intro _ i h2 hi hlow
      have hj := hm _ hfree
      have hsucc : (p.search.2 + 1).toNat = p.search.2.toNat + 1 := toNat_add_one hj
      have hle : i.toNat ≤ p.search.2.toNat := by
        rcases hlow with hlow | hlow
        · rw [UInt64.lt_iff_toNat_lt, hsucc] at hlow
          omega
        · have h0 := congrArg UInt64.toNat hlow
          rw [hsucc] at h0
          simp at h0
      -- the frame found is taken, and those before it are not free
      by_cases heq : i = p.search.2
      · rw [heq]
        simp [BITMAP_FREE]
      have hlt : i < p.search.2 := UInt64.lt_of_le_of_ne (UInt64.le_iff_toNat_le.2 hle) heq
      dsimp only
      rw [Function.update_of_ne heq]
      by_cases hlow' : i < p.bitmap_i
      · exact h hlock i h2 hi (.inl hlow')
      · exact ((Pmm.search_spec p).2 i (UInt64.not_lt.1 hlow') hlt).1
  | pmm_free base =>
    have heq := pmm_free_eq hc
    split at heq
    next hcov =>
      subst heq
      intro hlock i h2 hi hlow
      dsimp only at hlock hi hlow ⊢
      have hne : i ≠ base / 0x1000 := by
        rintro rfl
        rcases hlow with hlow | hlow
        · exact UInt64.lt_irrefl _ hlow
        · rw [hlow] at h2
          exact absurd h2 (by decide)
      rw [Function.update_of_ne hne]
      exact hC base rfl hlock hcov.1 hcov.2 i h2 hi hlow
    next =>
      rw [heq]
      exact h

/-- Only allocations. -/
def Allocates (_ : Pmm) (c : PmmCall) : Prop := ∃ frame, c = .pmm_alloc frame

/-- An allocation that finds nothing, and one that finds a frame. -/
theorem pmm_alloc_returns (hl : p.lock = false) :
    (p.search.1 = false ∧ pmm_alloc p = .ok (0, { p with lock := true, bitmap_i := p.search.2 })) ∨
      (p.search.1 = true ∧ pmm_alloc p = .ok (0x1000 * p.search.2,
        { p with bitmap := Function.update p.bitmap p.search.2 0, bitmap_i := p.search.2 + 1 })) := by
  unfold pmm_alloc
  rcases hs : p.search with ⟨_ | _, i⟩
  · exact .inl ⟨rfl, by simp [hl]⟩
  · exact .inr ⟨rfl, by simp [hl]⟩

/-- **A free frame below the cursor** is missed when the others have been handed out. -/
theorem Pmm.InMemory.missed (hm : p.InMemory) (hl : p.lock = false) {i : UInt64} (h2 : 2 ≤ i)
    (hi : i < p.bitmap_length) (hfree : p.bitmap i = BITMAP_FREE) (hlow : i < p.bitmap_i) :
    ∃ cs q, Lib.Run Called Allocates p cs q ∧ ¬q.Honest := by
  induction hn : 2 ^ 64 - p.bitmap_i.toNat using Nat.strongRecOn generalizing p with
  | _ n ih =>
    rcases pmm_alloc_returns hl with ⟨-, ha⟩ | ⟨hs, ha⟩
    · exact ⟨[], p, .nil, fun h => h _ ha i h2 hi hfree⟩
    · have hj := hm _ (Pmm.scan_free (Prod.ext hs rfl : p.scan _ _ = (true, p.search.2)))
      have hle := (Pmm.search_spec p).1
      have hsucc : (p.search.2 + 1).toNat = p.search.2.toNat + 1 := toNat_add_one hj
      rw [UInt64.le_iff_toNat_le] at hle
      rw [UInt64.lt_iff_toNat_lt] at hlow
      have hne : i ≠ p.search.2 := by
        rintro rfl
        omega
      have hcall : Called p (.pmm_alloc (0x1000 * p.search.2)) _ := ha
      obtain ⟨cs, q, hr, hq⟩ := ih _ (by dsimp only; omega) (hm.called hcall) hl hi
        (by simpa [hne] using hfree) (UInt64.lt_iff_toNat_lt.2 (by dsimp only; omega)) rfl
      exact ⟨_, q, (Lib.Run.single ⟨_, rfl⟩ hcall).trans hr, hq⟩

/-- **A frame given back that is not upwards** is found out, when nothing but allocations follow. -/
theorem Pmm.InMemory.upwards {base : UInt64} (hm : p.InMemory) (hf : pmm_free p base = .ok p')
    (h : ∀ cs q, Lib.Run Called Allocates p' cs q → q.Honest) : Upwards p (.pmm_free base) := by
  intro b hb hlock hc hal i h2 hi hlow hfree
  obtain rfl := PmmCall.pmm_free.inj hb
  have hm' : p'.InMemory := hm.called (c := .pmm_free base) hf
  have heq := pmm_free_eq hf
  rw [if_pos ⟨hc, hal⟩] at heq
  have hne : i ≠ base / 0x1000 := by
    rintro rfl
    rcases hlow with hlow | hlow
    · exact UInt64.lt_irrefl _ hlow
    · rw [hlow] at h2
      exact absurd h2 (by decide)
  have hfree' : p'.bitmap i = BITMAP_FREE := by
    rw [heq]
    simpa [hne] using hfree
  have hlock' : p'.lock = false := by rw [heq]; exact hlock
  have hi' : i < p'.bitmap_length := by rw [heq]; exact hi
  rcases hlow with hlow | h0
  · obtain ⟨cs, q, hr, hq⟩ := hm'.missed hlock' h2 hi' hfree' (by rw [heq]; exact hlow)
    exact hq (h cs q hr)
  · -- the next allocation finds frame `0`
    have hzero : p'.search = (true, 0) := by
      rw [heq]
      simp [Pmm.search, Pmm.scan, h0]
    have ha : pmm_alloc p' = .ok (0, { p' with bitmap := Function.update p'.bitmap 0 0, bitmap_i := 1 }) := by
      unfold pmm_alloc
      rw [hlock', hzero]
      rfl
    exact h [] p' .nil _ ha i h2 hi' hfree'

end Swept

/-- **In every run** in which frames are given back upwards, from any map, the answer `0` says that
no frame is left; and a frame that is given back next is upwards if and only if the answer goes on
saying so. -/
theorem exhausted_of_upwards {m : Memory} {base length : UInt64} {cs : List PmmCall} {p : Pmm}
    (h : Lib.Run Called Upwards (Pmm.boot m base length) cs p) :
    p.Honest ∧ ∀ base p', pmm_free p base = .ok p' →
      (Upwards p (.pmm_free base) ↔ ∀ cs q, Lib.Run Called Allocates p' cs q → q.Honest) := by
  have hstart : (Pmm.boot m base length).Swept := fun _ i h2 _ hlow => by
    rcases hlow with hlow | hlow
    · exact absurd h2 (UInt64.not_le.2 hlow)
    · cases hlow
  obtain ⟨hm, hs⟩ := h.invariant (I := fun p => p.InMemory ∧ p.Swept)
    ⟨Pmm.boot_inMemory m base length, hstart⟩ fun ⟨hm, hs⟩ hC hc => ⟨hm.called hc, hs.called hm hC hc⟩
  refine ⟨hs.honest hm, fun base p' hf => ⟨fun hC cs q hr => ?_, hm.upwards hf⟩⟩
  have hm' : p'.InMemory := hm.called (c := .pmm_free base) hf
  obtain ⟨hmq, hsq⟩ := hr.invariant (I := fun p => p.InMemory ∧ p.Swept)
    ⟨hm', hs.called hm hC (c := .pmm_free base) hf⟩ fun ⟨hm, hs⟩ hC hc => by
      obtain ⟨frame, rfl⟩ := hC
      exact ⟨hm.called hc, hs.called hm (fun _ h => by cases h) hc⟩
  exact hsq.honest hmq

/-- A frame above the second is given back upwards when the frames below it are looked at one by one. -/
theorem upwards_of_below {p : Pmm} {base : UInt64} (h0 : base / 0x1000 ≠ 0)
    (h : ∀ n < (base / 0x1000).toNat, 2 ≤ n → p.bitmap (UInt64.ofNat n) ≠ BITMAP_FREE) :
    Upwards p (.pmm_free base) := by
  intro b hb _ _ _ i h2 _ hlow
  obtain rfl := PmmCall.pmm_free.inj hb
  have hlt := UInt64.lt_iff_toNat_lt.1 (hlow.resolve_right h0)
  simpa using h i.toNat hlt (UInt64.le_iff_toNat_le.1 h2)

/-- Two frames are handed out and the second is given back and handed out again, and so is the third of the four
that are handed out then: the next answer is `0`, and no frame is left. -/
theorem exhausted_of_upwards_four : ∃ cs p p', Lib.Run Called Upwards (Pmm.boot fourFrames 0 6) cs p ∧
    cs = [.pmm_alloc 0x2000, .pmm_alloc 0x3000, .pmm_free 0x3000, .pmm_alloc 0x3000, .pmm_alloc 0x4000,
      .pmm_alloc 0x5000, .pmm_free 0x4000, .pmm_alloc 0x4000] ∧
    pmm_alloc p = .ok (0, p') ∧ p.Exhausted := by
  obtain ⟨p₁, p₂, p₃, p₄, p₅, p₆, p₇, p, p', h₁, h₂, h₃, h₄, h₅, h₆, h₇, h₈, hb, hb', h⟩ :
      ∃ p₁ p₂ p₃ p₄ p₅ p₆ p₇ p p', pmm_alloc (Pmm.boot fourFrames 0 6) = .ok (0x2000, p₁) ∧
        pmm_alloc p₁ = .ok (0x3000, p₂) ∧ pmm_free p₂ 0x3000 = .ok p₃ ∧ pmm_alloc p₃ = .ok (0x3000, p₄) ∧
        pmm_alloc p₄ = .ok (0x4000, p₅) ∧ pmm_alloc p₅ = .ok (0x5000, p₆) ∧ pmm_free p₆ 0x4000 = .ok p₇ ∧
        pmm_alloc p₇ = .ok (0x4000, p) ∧ (∀ n < 3, 2 ≤ n → p₂.bitmap (UInt64.ofNat n) ≠ BITMAP_FREE) ∧
        (∀ n < 4, 2 ≤ n → p₆.bitmap (UInt64.ofNat n) ≠ BITMAP_FREE) ∧ pmm_alloc p = .ok (0, p') :=
    ⟨_, _, _, _, _, _, _, _, _, rfl, rfl, rfl, rfl, rfl, rfl, rfl, rfl, by decide +kernel, by decide +kernel, rfl⟩
  have alloc : ∀ {p : Pmm} {a : UInt64}, Upwards p (.pmm_alloc a) := fun _ h => by cases h
  have called : ∀ {p p' : Pmm} {a : UInt64}, pmm_alloc p = .ok (a, p') → Called p (.pmm_alloc a) p' := fun h => h
  have freed : ∀ {p p' : Pmm} {a : UInt64}, pmm_free p a = .ok p' → Called p (.pmm_free a) p' := fun h => h
  have hup : Upwards p₂ (.pmm_free 0x3000) := upwards_of_below (by decide) hb
  have hup' : Upwards p₆ (.pmm_free 0x4000) := upwards_of_below (by decide) hb'
  have hr := (((((((Lib.Run.nil.snoc alloc (called h₁)).snoc alloc (called h₂)).snoc hup (freed h₃)).snoc alloc
    (called h₄)).snoc alloc (called h₅)).snoc alloc (called h₆)).snoc hup' (freed h₇)).snoc alloc (called h₈)
  exact ⟨_, p, p', hr, rfl, h, (exhausted_of_upwards hr).1 p' h⟩

/-- All frames are handed out, and the second and the last are given back in this order: the last is
handed out again, and then the answer is `0`. -/
theorem not_exhausted : ¬∀ m base length cs p,
    Lib.Run Called (fun _ _ => True) (Pmm.boot m base length) cs p → p.Honest := by
  have hc : ∃ s p', calls (Pmm.boot fourFrames 0 6, []) [none, none, none, none, some 0x3000, some 0x5000, none] =
      .ok s ∧ pmm_alloc s.1 = .ok (0, p') ∧ s.1.bitmap 3 = BITMAP_FREE ∧ s.1.bitmap_length = 6 :=
    ⟨_, _, rfl, rfl, by decide +kernel, rfl⟩
  obtain ⟨s, p', hs, ha, hfree, hlen⟩ := hc
  obtain ⟨cs, hr⟩ := calls_ok hs
  intro hall
  refine hall fourFrames 0 6 cs s.1 (called_of_booked hr) p' ha 3 (by decide) ?_ hfree
  rw [hlen]
  decide

end Iridium
