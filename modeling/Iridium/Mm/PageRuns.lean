import Iridium.Lib.PageMap
import Iridium.Mm.AllocPage
import Iridium.Mm.Unmap

/-!
# Mapping and unmapping, in any order

The address space as those see it who call `vmm_map_page` and `vmm_unmap_page`, while others call `pmm_alloc` and
`pmm_free`: a map of pages (`Lib.PageMap`). Calls for pages that have a leaf do to the tables what the operations of
this name do to the map, in every order and number of calls, and to the end of the frames (`page_calls_refine`). So
pages that have their frames for themselves keep them (`pages_owned`), and a frame that is handed out to something
else, be it a table, gets none of their pages. But nor does the frame of a page that was unmapped (`frame_lost`):
`vmm_unmap_page` does not give it back.
-/

namespace Iridium

open Lib.Paging

/-! ### The calls -/

/-- Memory, the allocator and the mutex of `vmm_map_page`; and the mutex of `vmm_unmap_page`. -/
structure Tables where
  vm : Vm
  unmap_lock : Bool

/-- A call that returns. -/
inductive PageCall where
  | vmm_map_page (logical : UInt64) (flags : UInt32)
  | vmm_unmap_page (logical : UInt64)
  | pmm_alloc (frame : UInt64)
  | pmm_free (base : UInt64)

/-- **A step**, in the tables from `pml4`. -/
def PageStep (pml4 : UInt64) (s : Tables) : PageCall → Tables → Prop
  | .vmm_map_page logical flags, s' => ∃ vm, vmm_map_page s.vm pml4 logical flags = .ok vm ∧ s' = { s with vm }
  | .vmm_unmap_page logical, s' => ∃ ram lock,
      (vmm_unmap_page s.vm.ram s.unmap_lock pml4 logical).result = .ok (ram, lock) ∧ s' = ⟨{ s.vm with ram }, lock⟩
  | .pmm_alloc frame, s' => ∃ pmm, pmm_alloc s.vm.pmm = .ok (frame, pmm) ∧ s' = { s with vm := { s.vm with pmm } }
  | .pmm_free base, s' => ∃ pmm, pmm_free s.vm.pmm base = .ok pmm ∧ s' = { s with vm := { s.vm with pmm } }

/-- The pages have a leaf, and the frames are none of the first, which stands for the failure of `pmm_alloc`. -/
def PageCall.Proper (pml4 : UInt64) (s : Tables) : PageCall → Prop
  | vmm_map_page logical flags => PageBits flags ∧ HasLeaf s.vm.ram pml4 logical
  | vmm_unmap_page logical => HasLeaf s.vm.ram pml4 logical
  | pmm_alloc _ => True
  | pmm_free base => frameNo base ≠ 0

/-! ### The map -/

/-- What the tables above the leaf of a page allow: writing, and ring 3. -/
def way_rights (m : Ram) (pml4 logical : UInt64) : Bool × Bool :=
  let e₃ := m (frameNo pml4) (pml4_idx logical)
  let e₂ := m (pdpt_of m pml4 logical) (pdpt_idx logical)
  let e₁ := m (pdt_of m pml4 logical) (pd_idx logical)
  (writable e₁ && writable e₂ && writable e₃, user e₁ && user e₂ && user e₃)

/-- The rights that a page gets which is mapped with these flags. -/
def granted (way : Bool × Bool) (flags : UInt32) : Option (Bool × Bool) :=
  if present flags.toUInt64 then some (writable flags.toUInt64 && way.1, user flags.toUInt64 && way.2) else none

/-- What a call does to the map. -/
def PageCall.op (m : Ram) (pml4 : UInt64) : PageCall → Lib.PageOp ℕ ℕ (Bool × Bool)
  | vmm_map_page logical flags => .map (page logical) (granted (way_rights m pml4 logical) flags)
  | vmm_unmap_page logical => .unmap (page logical)
  | pmm_alloc frame => .take (frameNo frame)
  | pmm_free base => .give (frameNo base)

/-- A page as the processor finds it. -/
def hit_of (e : ℕ × Bool × Bool) : Hit := ⟨e.1, e.2.1, e.2.2⟩

/-- The frames that are handed out. The first is when the allocator has failed, and does not answer any more. -/
def Pmm.taken (p : Pmm) : Set ℕ :=
  {f | if f = 0 then p.lock = true else ∀ i : UInt64, i.toNat = f → p.bitmap i ≠ BITMAP_FREE}

/-- **The map is that of the tables.** -/
structure Abstracts (pml4 : UInt64) (s : Tables) (a : Lib.PageMap ℕ ℕ (Bool × Bool)) : Prop where
  pages : ∀ v, translate s.vm.ram pml4 v = (a.pages (page v)).map hit_of
  taken : a.taken = s.vm.pmm.taken

/-- What is free has a place in an entry, and the search does not begin at the first frame. -/
structure Pmm.Addressable (p : Pmm) : Prop where
  below : ∀ i, p.bitmap i = BITMAP_FREE → i.toNat < 2 ^ 40
  cursor : 0 < p.bitmap_i.toNat

section Leaf

variable {m m' : Ram} {pml4 v w : UInt64} {flags : UInt32}

/-- One table further. -/
theorem walk_table {l t : ℕ} (hp : present (m t (index l v)) = true) (hu : endsHuge l (m t (index l v)) = false) :
    walk m v (l + 1) t = (walk m v l (entryFrame (m t (index l v)))).map (·.through (m t (index l v))) := by
  simp [walk, hp, hu]

/-- **The leaf of a page** and its way are all there is to the page. -/
theorem HasLeaf.translate (h : HasLeaf m pml4 v) : translate m pml4 v =
    if present (leaf m pml4 v) then some ⟨entryFrame (leaf m pml4 v), writable (leaf m pml4 v) && (way_rights m pml4 v).1,
      user (leaf m pml4 v) && (way_rights m pml4 v).2⟩ else none := by
  obtain ⟨⟨h₃, h₂, h₁⟩, u₂, u₁⟩ := h
  have top : Lib.Paging.translate m pml4 v =
      (walk m v 3 (pdpt_of m pml4 v)).map (·.through (m (frameNo pml4) (pml4_idx v))) := walk_table h₃ rfl
  have middle : walk m v 3 (pdpt_of m pml4 v) =
      (walk m v 2 (pdt_of m pml4 v)).map (·.through (m (pdpt_of m pml4 v) (pdpt_idx v))) := walk_table h₂ u₂
  have bottom : walk m v 2 (pdt_of m pml4 v) =
      (walk m v 1 (page_tbl_of m pml4 v)).map (·.through (m (pdt_of m pml4 v) (pd_idx v))) := walk_table h₁ u₁
  have last : walk m v 1 (page_tbl_of m pml4 v) = if present (leaf m pml4 v) then
      some (Hit.through ⟨entryFrame (leaf m pml4 v), true, true⟩ (leaf m pml4 v)) else none := rfl
  rw [top, middle, bottom, last]
  cases present (leaf m pml4 v) with
  | false => rfl
  | true => simp [Hit.through, way_rights, pml4_idx, pdpt_idx, pd_idx, Bool.and_assoc]

/-- With the same ways a page has its leaf where it had it, and its way allows what it did. -/
theorem HasLeaf.same (h : HasLeaf m pml4 v) (hs : SameWays m m' pml4) :
    HasLeaf m' pml4 v ∧ leaf_slot m' pml4 v = leaf_slot m pml4 v ∧ way_rights m' pml4 v = way_rights m pml4 v := by
  obtain ⟨ht, hpage⟩ := walkAt_zero_iff.1 (hs.walkAt_iff.2 (walkAt_zero_iff.2 ⟨h, rfl⟩))
  have top : WalkAt m pml4 v 2 (pdpt_of m pml4 v) := WalkAt.root.entry h.tables.pdpt rfl
  have middle : WalkAt m pml4 v 1 (pdt_of m pml4 v) := top.entry h.tables.pdt h.pdt_small
  have h₃ : m' (frameNo pml4) (pml4_idx v) = m (frameNo pml4) (pml4_idx v) := hs .root
  have h₂ : m' (pdpt_of m pml4 v) (pdpt_idx v) = m (pdpt_of m pml4 v) (pdpt_idx v) := hs top
  have h₁ : m' (pdt_of m pml4 v) (pd_idx v) = m (pdt_of m pml4 v) (pd_idx v) := hs middle
  have hpdpt : pdpt_of m' pml4 v = pdpt_of m pml4 v := by rw [pdpt_of, pdpt_of, h₃]
  have hpdt : pdt_of m' pml4 v = pdt_of m pml4 v := by rw [pdt_of, pdt_of, hpdpt, h₂]
  refine ⟨ht, (tables_congr h₃ h₂ h₁).1, ?_⟩
  rw [way_rights, way_rights, hpdpt, hpdt, h₃, h₂, h₁]

theorem HasLeaf.before (h : HasLeaf m' pml4 v) (hs : SameWays m m' pml4) : HasLeaf m pml4 v :=
  (walkAt_zero_iff.1 (hs.walkAt_iff.1 (walkAt_zero_iff.2 ⟨h, rfl⟩))).1

/-- **A leaf is written**: its page is what the word says, and the other pages are what they were. -/
theorem HasLeaf.written (h : HasLeaf m pml4 v) (hT : WalkTree m pml4) (e : UInt64)
    (hm : m' = m.set (leaf_slot m pml4 v).1 (leaf_slot m pml4 v).2 e) :
    SameWays m m' pml4 ∧ (∀ w, page w ≠ page v → Lib.Paging.translate m' pml4 w = Lib.Paging.translate m pml4 w) ∧
      ∀ w, page w = page v → Lib.Paging.translate m' pml4 w = if present e then
        some ⟨entryFrame e, writable e && (way_rights m pml4 v).1, user e && (way_rights m pml4 v).2⟩ else none := by
  subst hm
  have hat : WalkAt m pml4 v 0 (leaf_slot m pml4 v).1 := walkAt_zero_iff.2 ⟨h, rfl⟩
  have hs : SameWays m (m.set (leaf_slot m pml4 v).1 (leaf_slot m pml4 v).2 e) pml4 := hT.sameWays_set hat e
  obtain ⟨hl, hslot, hway⟩ := h.same hs
  refine ⟨hs, fun w hw => ?_, fun w hw => ?_⟩
  · exact walk_congr fun c hc => m.set_of_ne _ fun he => hw (hT.leaf_apart hat (he ▸ hc))
  · have hleaf : leaf (m.set (leaf_slot m pml4 v).1 (leaf_slot m pml4 v).2 e) pml4 v = e := by
      rw [leaf_eq_slot, hslot, Ram.set_same]
    have := hl.translate
    rw [hleaf, hway] at this
    exact (walk_same_page hw (Nat.le_refl 4)).1.trans this

end Leaf

section Allocator

variable {p p' : Pmm} {a base : UInt64}

@[simp] theorem Pmm.zero_mem_taken : 0 ∈ p.taken ↔ p.lock = true := Iff.rfl

theorem Pmm.mem_taken {f : ℕ} (hf : f ≠ 0) : f ∈ p.taken ↔ ∀ i : UInt64, i.toNat = f → p.bitmap i ≠ BITMAP_FREE := by
  show (if f = 0 then _ else _) ↔ _
  rw [if_neg hf]

/-- A byte that is marked as used takes its frame. -/
theorem Pmm.taken_used {i : UInt64} (hi : i.toNat ≠ 0) (hb : p'.bitmap = Function.update p.bitmap i 0)
    (hl : p'.lock = p.lock) : p'.taken = insert i.toNat p.taken := by
  have hzero : (0 : UInt8) ≠ BITMAP_FREE := by decide
  ext f
  by_cases hf : f = 0
  · rw [hf, Set.mem_insert_iff, zero_mem_taken, zero_mem_taken, hl]
    exact ⟨.inr, fun h => h.resolve_left (Ne.symm hi)⟩
  · rw [Set.mem_insert_iff, mem_taken hf, mem_taken hf, hb]
    constructor
    · intro hall
      by_cases he : f = i.toNat
      · exact .inl he
      · refine .inr fun j hj hfree => hall j hj ?_
        rwa [Function.update_of_ne fun h => he (by rw [← hj, h])]
    · rintro (rfl | hall) j hj
      · rw [UInt64.toNat_inj.1 hj, Function.update_self]
        exact hzero
      · by_cases he : j = i
        · rw [he, Function.update_self]
          exact hzero
        · rw [Function.update_of_ne he]
          exact hall j hj

/-- One that is marked as free gives it back. -/
theorem Pmm.taken_free {i : UInt64} (hi : i.toNat ≠ 0) (hb : p'.bitmap = Function.update p.bitmap i BITMAP_FREE)
    (hl : p'.lock = p.lock) : p'.taken = p.taken \ {i.toNat} := by
  ext f
  by_cases hf : f = 0
  · rw [hf, Set.mem_sdiff, zero_mem_taken, zero_mem_taken, hl]
    exact ⟨fun h => ⟨h, Ne.symm hi⟩, fun h => h.1⟩
  · rw [Set.mem_sdiff, mem_taken hf, mem_taken hf, hb, Set.mem_singleton_iff]
    constructor
    · intro hall
      have hne : f ≠ i.toNat := fun he => hall i he.symm (Function.update_self ..)
      refine ⟨fun j hj hfree => hall j hj ?_, hne⟩
      rwa [Function.update_of_ne fun h => hne (by rw [← hj, h])]
    · rintro ⟨hall, hne⟩ j hj
      rw [Function.update_of_ne fun h => hne (by rw [← hj, h])]
      exact hall j hj

/-- **An allocation** takes a frame that is not taken: the first, if there is no other. -/
theorem pmm_alloc_taken (hp : p.Addressable) (h : pmm_alloc p = .ok (a, p')) :
    frameNo (a &&& PAGE_ADDR_MASK) = frameNo a ∧ frameNo a ∉ p.taken ∧ p'.taken = insert (frameNo a) p.taken ∧
      p'.Addressable := by
  have hpos : 0 < p.search.2.toNat :=
    Nat.lt_of_lt_of_le hp.cursor (UInt64.le_iff_toNat_le.1 (Pmm.search_spec p).1)
  obtain ⟨hl, ⟨-, rfl, rfl⟩ | ⟨-, hfree, rfl, rfl⟩⟩ := pmm_alloc_cases h
  · refine ⟨rfl, fun hin => ?_, ?_, hp.below, hpos⟩
    · rw [Pmm.zero_mem_taken.1 hin] at hl
      cases hl
    · ext f
      by_cases hf : f = 0
      · subst hf
        exact ⟨fun _ => .inl rfl, fun _ => rfl⟩
      · rw [Set.mem_insert_iff, Pmm.mem_taken hf, Pmm.mem_taken hf]
        exact ⟨.inr, fun h => h.resolve_left hf⟩
  · have hi := hp.below _ hfree
    have hframe : frameNo (0x1000 * p.search.2) = p.search.2.toNat := by
      rw [frameNo, frame_toNat (by omega)]
      omega
    refine ⟨?_, ?_, ?_, fun i hi' => hp.below i ?_, ?_⟩
    · rw [frameNo_masked, hframe]
      exact Nat.mod_eq_of_lt hi
    · rw [hframe, Pmm.mem_taken (by omega)]
      exact fun hall => hall _ rfl hfree
    · rw [hframe]
      exact Pmm.taken_used (by omega) rfl rfl
    · by_cases he : i = p.search.2
      · rwa [he]
      · exact (Function.update_of_ne he ..).symm.trans hi'
    · rw [toNat_add_one (by omega)]
      exact Nat.succ_pos _

/-- **A frame that is given back** is not taken any more, or was not found. -/
theorem pmm_free_taken (hp : p.Addressable) (h0 : frameNo base ≠ 0) (h : pmm_free p base = .ok p') :
    (p'.taken = p.taken \ {frameNo base} ∨ p'.taken = p.taken) ∧ p'.Addressable := by
  rcases pmm_free_cases h with rfl | ⟨hcov, rfl⟩
  · exact ⟨.inr rfl, hp⟩
  have hdiv : (base / 0x1000).toNat = frameNo base := UInt64.toNat_div ..
  have hlt : base.toNat < 2 ^ 32 := UInt64.lt_iff_toNat_lt.1 hcov.product
  refine ⟨.inl ?_, fun i hi => ?_, ?_⟩
  · rw [← hdiv]
    exact Pmm.taken_free (hdiv ▸ h0) rfl rfl
  · by_cases he : i = base / 0x1000
    · rw [he, hdiv, frameNo]
      omega
    · exact hp.below i ((Function.update_of_ne he ..).symm.trans hi)
  · show 0 < (base / 0x1000).toNat
    rw [hdiv]
    omega

end Allocator

/-! ### One call -/

/-- What the calls keep to in the tables that were there first. -/
structure Simulates (pml4 : UInt64) (m : Ram) (s : Tables) (a : Lib.PageMap ℕ ℕ (Bool × Bool)) : Prop where
  tree : WalkTree s.vm.ram pml4
  same : SameWays m s.vm.ram pml4
  pmm : s.vm.pmm.Addressable
  abs : Abstracts pml4 s a

section Simulation

variable {m : Ram} {pml4 v : UInt64} {s s' : Tables} {a : Lib.PageMap ℕ ℕ (Bool × Bool)} {c : PageCall}
  {flags : UInt32} {e : UInt64} {vm : Vm}

/-- A page that is not there has no frame in the map. -/
theorem Abstracts.none_of (h : Abstracts pml4 s a) (ht : translate s.vm.ram pml4 v = none) :
    a.pages (page v) = none := by
  rw [h.pages] at ht
  exact Option.map_eq_none_iff.1 ht

theorem Abstracts.some_of (h : Abstracts pml4 s a) {hit : Hit} (ht : translate s.vm.ram pml4 v = some hit) :
    a.pages (page v) = some (hit.frame, hit.writable, hit.user) := by
  rw [h.pages] at ht
  obtain ⟨e, he, rfl⟩ := Option.map_eq_some_iff.1 ht
  exact he

/-- **A leaf is written**, and the map follows. -/
theorem Simulates.write (h : Simulates pml4 m s a) (hl : HasLeaf s.vm.ram pml4 v) {x : Option (ℕ × Bool × Bool)}
    {t : Set ℕ} (hram : s'.vm.ram = s.vm.ram.set (leaf_slot s.vm.ram pml4 v).1 (leaf_slot s.vm.ram pml4 v).2 e)
    (hpmm : s'.vm.pmm.Addressable) (ht : t = s'.vm.pmm.taken)
    (hx : x.map hit_of = if present e then some ⟨entryFrame e, writable e && (way_rights s.vm.ram pml4 v).1,
      user e && (way_rights s.vm.ram pml4 v).2⟩ else none) :
    Simulates pml4 m s' ⟨Function.update a.pages (page v) x, t⟩ := by
  obtain ⟨hsame, hothers, hpage⟩ := hl.written h.tree e hram
  refine ⟨hsame.walkTree h.tree, h.same.trans hsame, hpmm, fun w => ?_, ht⟩
  by_cases hw : page w = page v
  · dsimp only
    rw [hw, Function.update_self, hx]
    exact hpage w hw
  · dsimp only
    rw [Function.update_of_ne hw, hothers w hw]
    exact h.abs.pages w

/-- **A page is mapped.** -/
theorem Simulates.map (h : Simulates pml4 m s a) (hf : PageBits flags) (hl : HasLeaf s.vm.ram pml4 v)
    (hs : vmm_map_page s.vm pml4 v flags = .ok vm) :
    ∃ b, a.Step (.map (page v) (granted (way_rights s.vm.ram pml4 v) flags)) b ∧
      Simulates pml4 m { s with vm } b := by
  have hram := vmm_map_page_leaf hs
  have hnew : ∀ f, entryFrame (new_leaf s.vm.pmm (leaf s.vm.ram pml4 v) flags) = f →
      ((granted (way_rights s.vm.ram pml4 v) flags).map (f, ·)).map hit_of =
        let e := new_leaf s.vm.pmm (leaf s.vm.ram pml4 v) flags
        if present e then some ⟨entryFrame e, writable e && (way_rights s.vm.ram pml4 v).1,
          user e && (way_rights s.vm.ram pml4 v).2⟩ else none := by
    rintro f rfl
    have hw : writable (new_leaf s.vm.pmm (leaf s.vm.ram pml4 v) flags) = writable flags.toUInt64 := by
      rw [writable, new_leaf_low rfl, writable]
    have hu : user (new_leaf s.vm.pmm (leaf s.vm.ram pml4 v) flags) = user flags.toUInt64 := by
      rw [user, new_leaf_low rfl, user]
    dsimp only
    rw [present_new_leaf, hw, hu, granted]
    cases present flags.toUInt64 <;> rfl
  rcases set_leaf_ok.1 (vmm_map_page_ok.1 hs).2.2 with ⟨hp, hvm⟩ | ⟨hp, frame, pmm, ha, hvm⟩
  · -- the page is there, and keeps its frame
    have hp : present (leaf s.vm.ram pml4 v) = true := hp
    have hpmm : vm.pmm = s.vm.pmm := by rw [hvm]
    have htr := hl.translate
    rw [if_pos hp] at htr
    have hframe : entryFrame (new_leaf s.vm.pmm (leaf s.vm.ram pml4 v) flags) = entryFrame (leaf s.vm.ram pml4 v) := by
      rw [entryFrame, new_leaf_high hf hp rfl, entryFrame]
    exact ⟨_, ⟨_, _, .keeps (h.abs.some_of htr), rfl⟩, h.write hl hram (by rw [hpmm]; exact h.pmm)
      (by rw [hpmm]; exact h.abs.taken) (hnew _ hframe)⟩
  · have hp : present (leaf s.vm.ram pml4 v) = false := hp
    have hpmm : vm.pmm = pmm := by rw [hvm]
    obtain ⟨hmask, hfresh, htaken, hadd⟩ := pmm_alloc_taken h.pmm ha
    obtain ⟨rfl, -⟩ := pmm_alloc_answers.1 frame pmm ha
    have htr := hl.translate
    rw [if_neg (ne_true_of_eq_false hp)] at htr
    have hframe := (entryFrame_new_leaf (p := s.vm.pmm) hf hp).trans hmask
    exact ⟨_, ⟨_, _, .fresh (h.abs.none_of htr) (h.abs.taken ▸ hfresh), rfl⟩, h.write hl hram (by rw [hpmm]; exact hadd)
      (by rw [hpmm, htaken, h.abs.taken]) (hnew _ hframe)⟩

/-- **A page is unmapped.** -/
theorem Simulates.unmap {ram : Ram} {lock : Bool} (h : Simulates pml4 m s a) (hl : HasLeaf s.vm.ram pml4 v)
    (hs : (vmm_unmap_page s.vm.ram s.unmap_lock pml4 v).result = .ok (ram, lock)) :
    ∃ b, a.Step (.unmap (page v)) b ∧ Simulates pml4 m ⟨{ s.vm with ram }, lock⟩ b := by
  cases hlock : s.unmap_lock with
  | true =>
    rw [hlock] at hs
    cases hs
  | false =>
    rw [hlock, vmm_unmap_page_eq] at hs
    obtain ⟨rfl, rfl⟩ := Prod.mk.inj (Except.ok.inj hs)
    have habsent : present (leaf s.vm.ram pml4 v &&& ~~~7) = false := by
      rw [present, UInt64.and_assoc, show (~~~7 &&& 1 : UInt64) = 0 from rfl, UInt64.and_zero]
      rfl
    exact ⟨_, rfl, h.write hl rfl h.pmm h.abs.taken (by rw [habsent]; rfl)⟩

/-- **One call.** -/
theorem Simulates.step (h : Simulates pml4 m s a) (hC : c.Proper pml4 s) (hs : PageStep pml4 s c s') :
    ∃ b, a.Step (c.op m pml4) b ∧ Simulates pml4 m s' b := by
  have hway : ∀ {v}, HasLeaf s.vm.ram pml4 v → way_rights s.vm.ram pml4 v = way_rights m pml4 v := fun hl =>
    ((hl.before h.same).same h.same).2.2
  cases c with
  | vmm_map_page v flags =>
    obtain ⟨hf, hl⟩ := hC
    obtain ⟨vm, hmap, rfl⟩ := hs
    rw [PageCall.op, ← hway hl]
    exact h.map hf hl hmap
  | vmm_unmap_page v =>
    obtain ⟨ram, lock, hunmap, rfl⟩ := hs
    exact h.unmap hC hunmap
  | pmm_alloc frame =>
    obtain ⟨pmm, ha, rfl⟩ := hs
    obtain ⟨-, hfresh, htaken, hadd⟩ := pmm_alloc_taken h.pmm ha
    exact ⟨_, ⟨h.abs.taken ▸ hfresh, rfl⟩, h.tree, h.same, hadd, h.abs.pages, by rw [htaken, h.abs.taken]⟩
  | pmm_free base =>
    obtain ⟨pmm, hfree, rfl⟩ := hs
    obtain ⟨htaken | htaken, hadd⟩ := pmm_free_taken h.pmm hC hfree
    · exact ⟨_, .inl rfl, h.tree, h.same, hadd, h.abs.pages, by rw [htaken, h.abs.taken]⟩
    · exact ⟨_, .inr rfl, h.tree, h.same, hadd, h.abs.pages, by rw [htaken, h.abs.taken]⟩

end Simulation

/-! ### Every run -/

/-- The map of the tables. -/
def page_map (pml4 : UInt64) (s : Tables) : Lib.PageMap ℕ ℕ (Bool × Bool) where
  pages p := (translate s.vm.ram pml4 (UInt64.ofNat (4096 * p))).map fun h => (h.frame, h.writable, h.user)
  taken := s.vm.pmm.taken

/-- The frames that walks get to. -/
def table_frames (m : Ram) (pml4 : UInt64) : Set ℕ := {t | ∃ v l, WalkAt m pml4 v l t}

/-- **The pages have their frames for themselves**: no two have one frame, none lies on a table, and neither their
frames nor the tables are free. -/
structure OwnFrames (pml4 : UInt64) (P : Set UInt64) (s : Tables) : Prop where
  one : ∀ v ∈ P, ∀ w ∈ P, ∀ h h', translate s.vm.ram pml4 v = some h → translate s.vm.ram pml4 w = some h' →
    h.frame = h'.frame → page v = page w
  tables : ∀ v ∈ P, ∀ h, translate s.vm.ram pml4 v = some h → h.frame ∉ table_frames s.vm.ram pml4
  taken : ∀ v ∈ P, ∀ h, translate s.vm.ram pml4 v = some h → h.frame ∈ s.vm.pmm.taken
  tables_taken : table_frames s.vm.ram pml4 ⊆ s.vm.pmm.taken

/-- Neither a frame that one of the pages has, nor a table, is given back. -/
def PageCall.KeepsFrames (pml4 : UInt64) (P : Set UInt64) (s : Tables) (c : PageCall) : Prop :=
  ∀ base, c = .pmm_free base → frameNo base ∉ table_frames s.vm.ram pml4 ∧
    ∀ v ∈ P, ∀ h, translate s.vm.ram pml4 v = some h → h.frame ≠ frameNo base

/-- **The frame is lost**: `pmm_alloc` does not have it, and nor has one of the pages. -/
structure FrameLost (pml4 : UInt64) (P : Set UInt64) (f : ℕ) (s : Tables) : Prop where
  taken : f ∈ s.vm.pmm.taken
  spare : ∀ v ∈ P, ∀ h, translate s.vm.ram pml4 v = some h → h.frame ≠ f

section Runs

variable {m : Ram} {pml4 v : UInt64} {s s' : Tables} {a : Lib.PageMap ℕ ℕ (Bool × Bool)} {c : PageCall}
  {cs : List PageCall} {P : Set UInt64} {f : ℕ}

theorem page_map_abstracts (pml4 : UInt64) (s : Tables) : Abstracts pml4 s (page_map pml4 s) := by
  refine ⟨fun v => ?_, rfl⟩
  have hlt : page v < 2 ^ 36 := Nat.mod_lt _ (by decide)
  have hpage : page (UInt64.ofNat (4096 * page v)) = page v := by
    rw [page, frameNo, UInt64.toNat_ofNat', Nat.mod_eq_of_lt (show 4096 * page v < 2 ^ 64 by omega)]
    omega
  have hsame : translate s.vm.ram pml4 (UInt64.ofNat (4096 * page v)) = translate s.vm.ram pml4 v :=
    (walk_same_page hpage (Nat.le_refl 4)).1
  show _ = ((translate s.vm.ram pml4 (UInt64.ofNat (4096 * page v))).map _).map hit_of
  rw [hsame]
  cases translate s.vm.ram pml4 v <;> rfl

theorem Simulates.start (hT : WalkTree s.vm.ram pml4) (hp : s.vm.pmm.Addressable) :
    Simulates pml4 s.vm.ram s (page_map pml4 s) := ⟨hT, .refl _ _, hp, page_map_abstracts pml4 s⟩

theorem Simulates.table_frames (h : Simulates pml4 m s a) : table_frames s.vm.ram pml4 = table_frames m pml4 := by
  ext t
  exact exists_congr fun v => exists_congr fun l => h.same.walkAt_iff

/-- What the map says of a page, the processor finds. -/
theorem Abstracts.hit (h : Abstracts pml4 s a) {r : Bool × Bool} (hv : a.pages (page v) = some (f, r)) :
    translate s.vm.ram pml4 v = some (hit_of (f, r)) := by
  rw [h.pages, hv]
  rfl

theorem Abstracts.owned (h : Abstracts pml4 s a) (ho : OwnFrames pml4 P s) : a.Owned (page '' P) := by
  refine ⟨?_, ?_⟩
  · rintro _ ⟨v, hv, rfl⟩ _ ⟨w, hw, rfl⟩ f r r' h₁ h₂
    exact ho.one v hv w hw _ _ (h.hit h₁) (h.hit h₂) rfl
  · rintro _ ⟨v, hv, rfl⟩ f r h₁
    rw [h.taken]
    exact ho.taken v hv _ (h.hit h₁)

theorem Abstracts.lost_iff (h : Abstracts pml4 s a) : a.Lost (page '' P) f ↔ FrameLost pml4 P f s := by
  constructor
  · rintro ⟨ht, hs⟩
    refine ⟨h.taken ▸ ht, ?_⟩
    rintro v hv hit htr rfl
    exact hs _ ⟨v, hv, rfl⟩ _ (h.some_of htr)
  · rintro ⟨ht, hs⟩
    refine ⟨h.taken ▸ ht, ?_⟩
    rintro _ ⟨v, hv, rfl⟩ r hpage
    exact hs v hv _ (h.hit hpage) rfl

/-- A run of calls is a run of the map. -/
theorem Simulates.run {C : Tables → PageCall → Prop} (h : Simulates pml4 m s a)
    (hC : ∀ s c, C s c → c.Proper pml4 s) (hr : Lib.Run (PageStep pml4) C s cs s') :
    ∃ b, Lib.Run Lib.PageMap.Step (fun _ _ => True) a (cs.map (·.op m pml4)) b ∧ Simulates pml4 m s' b :=
  hr.simulate h fun h hc hs => ⟨trivial, h.step (hC _ _ hc) hs⟩

/-- One that keeps the frames. -/
theorem Simulates.run_keeps (h : Simulates pml4 m s a)
    (hr : Lib.Run (PageStep pml4) (fun s c => c.Proper pml4 s ∧ c.KeepsFrames pml4 P s) s cs s') :
    ∃ b, Lib.Run Lib.PageMap.Step
      (fun a op => a.KeepsFrames (page '' P) op ∧ ∀ t ∈ Iridium.table_frames m pml4, op ≠ .give t) a
      (cs.map (·.op m pml4)) b ∧ Simulates pml4 m s' b := by
  refine hr.simulate h ?_
  rintro s s' c a h ⟨hC, hK⟩ hs
  have hgive : ∀ f, c.op m pml4 = .give f → ∃ base, c = .pmm_free base ∧ f = frameNo base := by
    intro f hop
    cases c with
    | pmm_free base => exact ⟨base, rfl, (Lib.PageOp.give.inj hop).symm⟩
    | _ => cases hop
  refine ⟨⟨fun f hop => ?_, fun t ht hop => ?_⟩, h.step hC hs⟩
  · obtain ⟨base, rfl, rfl⟩ := hgive f hop
    rintro _ ⟨v, hv, rfl⟩ r hpage
    exact (hK base rfl).2 v hv _ (h.abs.hit hpage) rfl
  · obtain ⟨base, rfl, rfl⟩ := hgive t hop
    exact (hK base rfl).1 (h.table_frames ▸ ht)

end Runs

/-! ### One page -/

/-- The space with one page, and eight frames. -/
def eightFrames : Tables where
  vm := { onePage with
    pmm := ⟨fun i => if 8 ≤ i ∧ i < 16 then BITMAP_FREE else 0, 16, 8, false⟩ }
  unmap_lock := false

theorem eightFrames_tree : WalkTree eightFrames.vm.ram 0x1000 := PageTree.walkTree onePage_tree

theorem eightFrames_addressable : eightFrames.vm.pmm.Addressable := by
  refine ⟨fun i hi => ?_, by decide⟩
  by_contra hge
  have hnot : ¬(8 ≤ i ∧ i < 16) := fun h => hge (by
    have hlt : i.toNat < 16 := UInt64.lt_iff_toNat_lt.1 h.2
    omega)
  have h0 : eightFrames.vm.pmm.bitmap i = 0 := if_neg hnot
  rw [h0] at hi
  cases hi

/-- Its tables are the frames `1` to `4`. -/
theorem walkAt_onePage {v : UInt64} {l t : ℕ} (h : WalkAt onePage.ram 0x1000 v l t) : t + l = 4 := by
  induction h with
  | root => rfl
  | @entry l t h hp _ ih =>
    have hi : index (l + 1) v = 0 := by
      by_contra hne
      rw [show onePage.ram t (index (l + 1) v) = 0 from if_neg fun h => hne h.1] at hp
      cases hp
    rw [hi]
    obtain ⟨rfl, rfl⟩ | ⟨rfl, rfl⟩ | ⟨rfl, rfl⟩ : t = 3 ∧ l = 0 ∨ t = 2 ∧ l = 1 ∨ t = 1 ∧ l = 2 := by
      have := h.level
      omega
    all_goals decide

theorem eightFrames_own : OwnFrames 0x1000 {0} eightFrames := by
  have htr : ∀ {v : UInt64} {h : Hit}, v ∈ ({0} : Set UInt64) → translate eightFrames.vm.ram 0x1000 v = some h →
      h.frame = 5 := by
    rintro v h rfl ht
    obtain rfl := Option.some.inj (ht.symm.trans (show _ = some ⟨5, true, true⟩ by decide))
    rfl
  have htaken : ∀ {f : ℕ}, 0 < f → f < 8 → f ∈ eightFrames.vm.pmm.taken := by
    intro f hf hlt
    refine (Pmm.mem_taken (by omega)).2 fun i hi => ?_
    have hnot : ¬(8 ≤ i ∧ i < 16) := fun h => by
      have : 8 ≤ i.toNat := UInt64.le_iff_toNat_le.1 h.1
      omega
    rw [show eightFrames.vm.pmm.bitmap i = 0 from if_neg hnot]
    decide
  refine ⟨?_, fun v hv h ht => ?_, fun v hv h ht => ?_, ?_⟩
  · rintro v rfl w rfl - - - - -
    rfl
  · rw [htr hv ht]
    rintro ⟨w, l, hw⟩
    have := walkAt_onePage hw
    omega
  · rw [htr hv ht]
    exact htaken (by decide) (by decide)
  · rintro t ⟨w, l, hw⟩
    have := walkAt_onePage hw
    have := hw.level
    exact htaken (by omega) (by omega)

/-- **In every run** of calls for pages that have a leaf, from any tree of tables and to the end of the frames, the
tables are what the operations make of the map. -/
theorem page_calls_refine {pml4 : UInt64} {s s' : Tables} {cs : List PageCall} (hT : WalkTree s.vm.ram pml4)
    (hp : s.vm.pmm.Addressable) (h : Lib.Run (PageStep pml4) (fun s c => c.Proper pml4 s) s cs s') :
    ∃ a, Lib.Run Lib.PageMap.Step (fun _ _ => True) (page_map pml4 s) (cs.map (·.op s.vm.ram pml4)) a ∧
      Abstracts pml4 s' a := by
  obtain ⟨a, hr, ha⟩ := (Simulates.start hT hp).run (fun _ _ h => h) h
  exact ⟨a, hr, ha.abs⟩

/-- The page is unmapped, and mapped again. -/
theorem page_calls_refine_again : ∃ s' a, Lib.Run Lib.PageMap.Step (fun _ _ => True) (page_map 0x1000 eightFrames)
    [.unmap 0, .map 0 (some (true, true))] a ∧ Abstracts 0x1000 s' a := by
  have h₁ : Lib.Run (PageStep 0x1000) (fun s c => c.Proper 0x1000 s) eightFrames [.vmm_unmap_page 0] _ :=
    .single (by decide : HasLeaf onePage.ram 0x1000 0) ⟨_, _, rfl, rfl⟩
  have h₂ := h₁.snoc (e := .vmm_map_page 0 7) (by exact ⟨by decide, by decide⟩) (by exact ⟨_, rfl, rfl⟩)
  exact ⟨_, page_calls_refine eightFrames_tree eightFrames_addressable h₂⟩

/-- **In every run** in which neither frames of the pages nor tables are given back, the pages have their frames for
themselves, whatever is mapped, unmapped and handed out. -/
theorem pages_owned {pml4 : UInt64} {P : Set UInt64} {s s' : Tables} {cs : List PageCall} (hT : WalkTree s.vm.ram pml4)
    (hp : s.vm.pmm.Addressable) (ho : OwnFrames pml4 P s)
    (h : Lib.Run (PageStep pml4) (fun s c => c.Proper pml4 s ∧ c.KeepsFrames pml4 P s) s cs s') :
    OwnFrames pml4 P s' := by
  have hstart := Simulates.start hT hp
  obtain ⟨a, hr, ha⟩ := hstart.run_keeps h
  have howned := (hstart.abs.owned ho).run (hr.mono fun _ _ hC => hC.1)
  have hlost : ∀ t ∈ table_frames s.vm.ram pml4, FrameLost pml4 P t s' := by
    intro t ht
    have hl : FrameLost pml4 P t s := ⟨ho.tables_taken ht, fun v hv hit htr he => ho.tables v hv hit htr (he ▸ ht)⟩
    exact ha.abs.lost_iff.1 ((hstart.abs.lost_iff.2 hl).run hr
      fun hmem => hr.forall_mem (P := fun op => op ≠ .give t) (fun hC _ => hC.2 t ht) _ hmem rfl).1
  refine ⟨fun v hv w hw h₁ h₂ hv₁ hw₂ he => ?_, fun v hv hit htr hin => ?_, fun v hv hit htr => ?_, fun t ht => ?_⟩
  · have hpage := ha.abs.some_of hw₂
    rw [← he] at hpage
    exact howned.one _ ⟨v, hv, rfl⟩ _ ⟨w, hw, rfl⟩ _ _ _ (ha.abs.some_of hv₁) hpage
  · exact (hlost _ (ha.table_frames ▸ hin)).spare v hv hit htr rfl
  · rw [← ha.abs.taken]
    exact howned.taken _ ⟨v, hv, rfl⟩ _ _ (ha.abs.some_of htr)
  · exact (hlost t (ha.table_frames ▸ ht)).taken

/-- A frame is handed out and given back; the page is unmapped and mapped again, and has this frame when the next
one is handed out. -/
theorem pages_owned_one : ∃ s', Lib.Run (PageStep 0x1000)
      (fun s c => c.Proper 0x1000 s ∧ c.KeepsFrames 0x1000 {0} s) eightFrames
      [.pmm_alloc 0x8000, .pmm_free 0x8000, .vmm_unmap_page 0, .vmm_map_page 0 7, .pmm_alloc 0x9000] s' ∧
    translate s'.vm.ram 0x1000 0 = some ⟨8, true, true⟩ ∧ OwnFrames 0x1000 {0} s' := by
  have hkeeps : ∀ {s : Tables}, s.vm.ram = onePage.ram → PageCall.KeepsFrames 0x1000 {0} s (.pmm_free 0x8000) := by
    intro s hram base hb
    obtain rfl := PageCall.pmm_free.inj hb
    rw [hram]
    refine ⟨fun ⟨v, l, hw⟩ => ?_, fun v hv h ht => ?_⟩
    · have hlevel : frameNo 0x8000 + l = 4 := walkAt_onePage hw
      have h8 : frameNo 0x8000 = 8 := by decide
      omega
    · obtain rfl : v = 0 := hv
      obtain rfl := Option.some.inj (ht.symm.trans (show _ = some ⟨5, true, true⟩ by decide))
      decide
  have h₁ : Lib.Run (PageStep 0x1000) (fun s c => c.Proper 0x1000 s ∧ c.KeepsFrames 0x1000 {0} s) eightFrames
      [.pmm_alloc 0x8000] _ := .single ⟨trivial, nofun⟩ ⟨_, rfl, rfl⟩
  have h₂ := h₁.snoc (e := .pmm_free 0x8000) ⟨by exact (by decide : frameNo 0x8000 ≠ 0), hkeeps rfl⟩
    (by exact ⟨_, rfl, rfl⟩)
  have h₃ := h₂.snoc (e := .vmm_unmap_page 0) ⟨by exact (by decide : HasLeaf onePage.ram 0x1000 0), nofun⟩
    (by exact ⟨_, _, rfl, rfl⟩)
  have h₄ := h₃.snoc (e := .vmm_map_page 0 7) ⟨by exact ⟨by decide, by decide⟩, nofun⟩ (by exact ⟨_, rfl, rfl⟩)
  have h₅ := h₄.snoc (e := .pmm_alloc 0x9000) ⟨by exact trivial, nofun⟩ (by exact ⟨_, rfl, rfl⟩)
  exact ⟨_, h₅, by decide, pages_owned eightFrames_tree eightFrames_addressable eightFrames_own h₅⟩

/-- **The frame of a page that is unmapped is lost** in every run behind it, until somebody calls `pmm_free` for it: no
page of those that had their frames for themselves gets it, and `pmm_alloc` does not answer it. -/
theorem unmapped_frame_lost {pml4 v : UInt64} {P : Set UInt64} {s s' : Tables} {cs : List PageCall} {hit : Hit}
    (hT : WalkTree s.vm.ram pml4) (hp : s.vm.pmm.Addressable) (ho : OwnFrames pml4 P s) (hv : v ∈ P)
    (ht : translate s.vm.ram pml4 v = some hit)
    (h : Lib.Run (PageStep pml4) (fun s c => c.Proper pml4 s) s (.vmm_unmap_page v :: cs) s')
    (hf : ∀ base, .pmm_free base ∈ cs → frameNo base ≠ hit.frame) :
    FrameLost pml4 P hit.frame s' ∧ ∀ frame, .pmm_alloc frame ∈ cs → frameNo frame ≠ hit.frame := by
  have hstart := Simulates.start hT hp
  obtain ⟨t, hC, hs, hr⟩ := h.cons_split rfl
  obtain ⟨a, ha, hsim⟩ := hstart.step hC hs
  have hlost := (hstart.abs.owned ho).unmap ⟨v, hv, rfl⟩ (hstart.abs.some_of ht) ha
  obtain ⟨b, hrun, hsim'⟩ := hsim.run (fun _ _ h => h) hr
  have hgive : Lib.PageOp.give hit.frame ∉ cs.map (·.op s.vm.ram pml4) := by
    intro hmem
    obtain ⟨c, hc, hop⟩ := List.mem_map.1 hmem
    cases c with
    | pmm_free base => exact hf base hc (Lib.PageOp.give.inj hop)
    | _ => cases hop
  obtain ⟨hend, hnot⟩ := hlost.run hrun hgive
  refine ⟨hsim'.abs.lost_iff.1 hend, fun frame hframe he => hnot ?_⟩
  exact List.mem_map.2 ⟨_, hframe, by rw [PageCall.op, he]⟩

/-- The page gets another frame. -/
theorem unmapped_frame_lost_again : ∃ s' : Tables, translate s'.vm.ram 0x1000 0 = some ⟨8, true, true⟩ ∧
    FrameLost 0x1000 {0} 5 s' := by
  have h₁ : Lib.Run (PageStep 0x1000) (fun s c => c.Proper 0x1000 s) eightFrames [.vmm_unmap_page 0] _ :=
    .single (by decide : HasLeaf onePage.ram 0x1000 0) ⟨_, _, rfl, rfl⟩
  have h₂ := h₁.snoc (e := .vmm_map_page 0 7) (by exact ⟨by decide, by decide⟩) (by exact ⟨_, rfl, rfl⟩)
  have hpage : translate eightFrames.vm.ram 0x1000 0 = some ⟨5, true, true⟩ := by decide
  exact ⟨_, by decide, (unmapped_frame_lost eightFrames_tree eightFrames_addressable eightFrames_own rfl hpage h₂
    (by simp)).1⟩

end Iridium
