import Iridium.Mm.Vmm
import Iridium.Mm.PmmEnd

/-!
# A page mapped

What `vmm_map_page` does for any combination of the three flags. It returns when the three tables on the
path are there, and only then (`map_returns_iff`). The tables it leaves as they are, with the rights they
have: the page gets those of the flags when the other words that its walk reads allow them already
(`map_grants_iff`). In a tree of tables the one word it writes is in the walk of no other page
(`map_only`).
-/

namespace Iridium

open Lib.Paging

/-- A combination of `PAGE_PRESENT`, `PAGE_WRITABLE` and `PAGE_USER`. -/
def PageBits (flags : UInt32) : Prop := flags &&& ~~~(PAGE_PRESENT ||| PAGE_WRITABLE ||| PAGE_USER) = 0

instance (flags : UInt32) : Decidable (PageBits flags) := inferInstanceAs (Decidable (_ = _))

/-- A page of the kernel. -/
theorem pageBits_kernel : PageBits (PAGE_PRESENT ||| PAGE_WRITABLE) := by decide

theorem present_kernel : present (PAGE_PRESENT ||| PAGE_WRITABLE).toUInt64 = true := by decide

/-- What becomes of a leaf that is mapped. -/
def new_leaf (p : Pmm) (e : UInt64) (flags : UInt32) : UInt64 :=
  if present e then (e &&& ~~~7) ||| flags.toUInt64
  else (p.next_alloc &&& PAGE_ADDR_MASK) ||| flags.toUInt64

section NewLeaf

variable {p : Pmm} {e : UInt64} {flags : UInt32}

/-- A mask that leaves out the low three bits. -/
theorem high_mask {mask : UInt64} (hm : 7 &&& mask = 0) : ~~~7 &&& mask = mask := by
  have h : mask &&& (7 ||| ~~~7) = (mask &&& 7) ||| (mask &&& ~~~7) :=
    UInt64.toBitVec_inj.1 BitVec.and_or_distrib_left
  rw [UInt64.and_comm mask 7, hm, UInt64.zero_or] at h
  rw [UInt64.and_comm, ← h]
  exact UInt64.and_neg_one

/-- A mask of the low three bits takes nothing of a word that has none. -/
theorem low_mask {w mask : UInt64} (hm : 7 &&& mask = mask) (hw : w &&& 7 = 0) : w &&& mask = 0 := by
  rw [← hm, ← UInt64.and_assoc, hw, UInt64.zero_and]

/-- The flags are in the low three bits. -/
theorem PageBits.and (hf : PageBits flags) {mask : UInt64} (hm : 7 &&& mask = 0) :
    flags.toUInt64 &&& mask = 0 := by
  have hlow : flags = flags &&& 7 := by
    have h : flags &&& (7 ||| ~~~7) = (flags &&& 7) ||| (flags &&& ~~~7) :=
      UInt32.toBitVec_inj.1 BitVec.and_or_distrib_left
    rw [show flags &&& ~~~7 = 0 from hf, UInt32.or_zero] at h
    rw [← h]
    exact (UInt32.and_neg_one).symm
  rw [hlow, UInt32.toUInt64_and, UInt64.and_assoc, show (7 : UInt32).toUInt64 = 7 from rfl, hm, UInt64.and_zero]

theorem new_leaf_and (p : Pmm) (e : UInt64) (flags : UInt32) (mask : UInt64) :
    new_leaf p e flags &&& mask =
      (if present e then e &&& (~~~7 &&& mask) else p.next_alloc &&& (PAGE_ADDR_MASK &&& mask)) |||
        (flags.toUInt64 &&& mask) := by
  have hm : PAGE_ADDR_MASK = ~~~0xFFF0000000000FFF := by decide
  rw [new_leaf]
  split
  · exact replaced_and e 7 flags.toUInt64 mask
  · rw [hm]
    exact replaced_and _ _ flags.toUInt64 mask

/-- Its low three bits are those of the flags. -/
theorem new_leaf_low {mask : UInt64} (hm : 7 &&& mask = mask) :
    new_leaf p e flags &&& mask = flags.toUInt64 &&& mask := by
  have h₁ : ~~~7 &&& mask = 0 := low_mask hm (by decide)
  have h₂ : PAGE_ADDR_MASK &&& mask = 0 := low_mask hm (by decide)
  rw [new_leaf_and, h₁, h₂, UInt64.and_zero, UInt64.and_zero, ite_self, UInt64.zero_or]

theorem present_new_leaf : present (new_leaf p e flags) = present flags.toUInt64 := by
  rw [present, new_leaf_low rfl, present]

theorem allows_new_leaf (hp : present flags.toUInt64 = true) : Allows flags.toUInt64 (new_leaf p e flags) := by
  refine ⟨present_new_leaf.trans hp, fun h => ?_, fun h => ?_⟩
  · rw [writable, new_leaf_low rfl]
    exact h
  · rw [user, new_leaf_low rfl]
    exact h

/-- A leaf that is present keeps everything else. -/
theorem new_leaf_high (hf : PageBits flags) (he : present e = true) {mask : UInt64} (hm : 7 &&& mask = 0) :
    new_leaf p e flags &&& mask = e &&& mask := by
  rw [new_leaf_and, if_pos he, high_mask hm, hf.and hm, UInt64.or_zero]

theorem sameWay_new_leaf (hf : PageBits flags) (hp : present flags.toUInt64 = true) (he : present e = true) :
    SameWay e (new_leaf p e flags) := by
  refine ⟨(present_new_leaf.trans hp).trans he.symm, ?_, ?_⟩
  · rw [huge, new_leaf_high hf he rfl, huge]
  · rw [entryFrame, new_leaf_high hf he rfl, entryFrame]

/-- One that is absent gets the frame of the allocator. -/
theorem entryFrame_new_leaf (hf : PageBits flags) (he : present e = false) :
    entryFrame (new_leaf p e flags) = frameNo (p.next_alloc &&& PAGE_ADDR_MASK) := by
  have hm : PAGE_ADDR_MASK &&& addrMask = PAGE_ADDR_MASK := rfl
  rw [entryFrame, new_leaf_and, hm, he, if_neg Bool.false_ne_true, hf.and rfl, UInt64.or_zero]

end NewLeaf

section Mapping

variable {s s' : Vm} {pml4 logical : UInt64} {flags : UInt32}

/-- **A mapping that returns** has written the leaf. -/
theorem vmm_map_page_leaf (h : vmm_map_page s pml4 logical flags = .ok s') :
    s'.ram = s.ram.set (page_tbl_of s.ram pml4 logical) (pt_idx logical)
      (new_leaf s.pmm (leaf s.ram pml4 logical) flags) := by
  rcases set_leaf_ok.1 (vmm_map_page_ok.1 h).2.2 with ⟨hp, rfl⟩ | ⟨hp, a, pmm, ha, rfl⟩
  · rw [new_leaf, leaf, if_pos hp]
  · obtain ⟨rfl, -⟩ := pmm_alloc_answers.1 a pmm ha
    rw [new_leaf, leaf, if_neg (ne_true_of_eq_false hp)]

/-! ### Whether it returns -/

/-- The mapping terminates, with its mutex released. -/
def MapReturns (s : Vm) (pml4 logical : UInt64) (flags : UInt32) : Prop :=
  ∃ depth s', vmm_map_page_at depth s pml4 logical flags = .ok s' ∧ s'.lock = false

theorem set_leaf_lock {t i : ℕ} (h : set_leaf s t i flags = .ok s') : s'.lock = s.lock := by
  rcases set_leaf_ok.1 h with ⟨-, rfl⟩ | ⟨-, a, pmm, -, rfl⟩ <;> rfl

/-- **A mapping terminates** with its mutex released if and only if the tables on the path are there: for
every tree, address and combination of flags, with the mutex free and whatever `pmm_alloc` has left. -/
theorem map_returns_iff (hl : s.lock = false) (hp : s.pmm.lock = false) :
    MapReturns s pml4 logical flags ↔ TablesPresent s.ram pml4 logical := by
  constructor
  · rintro ⟨_ | depth, s', h, -⟩
    · cases h
    · exact (vmm_map_page_at_ok.1 h).2.1
  · intro ht
    obtain ⟨s', hs⟩ : ∃ s', set_leaf s (page_tbl_of s.ram pml4 logical) (pt_idx logical) flags = .ok s' :=
      set_leaf_returns.2 (.inr hp)
    exact ⟨1, s', vmm_map_page_at_ok.2 ⟨hl, ht, hs⟩, (set_leaf_lock hs).trans hl⟩

end Mapping

/-- Four tables, one behind the other, and a page. -/
def onePage : Vm where
  ram := fun f i => if i = 0 ∧ 1 ≤ f ∧ f ≤ 4 then UInt64.ofNat (0x1000 * (f + 1)) ||| 7 else 0
  pmm := { bitmap := fun i => if i < 8 then 0 else BITMAP_FREE, bitmap_length := 16, bitmap_i := 8, lock := false }
  lock := false
  cr3 := 0x1000

/-- The page is mapped again. -/
theorem map_returns_page : MapReturns onePage 0x1000 0 PAGE_PRESENT :=
  (map_returns_iff rfl rfl).2 (by decide)

/-- With eight frames free, a mapping that needs a new table waits for the mutex it holds. -/
theorem not_map_returns : ¬∀ (s : Vm) (pml4 logical : UInt64) (flags : UInt32), s.lock = false →
    s.pmm.lock = false → s.pmm.HasFree → MapReturns s pml4 logical flags := by
  intro h
  obtain ⟨_ | depth, s', hs, -⟩ := h onePage 0x1000 0x8000000000 PAGE_PRESENT rfl rfl
    ⟨8, by decide, by decide, by decide⟩
  · cases hs
  · exact absurd (vmm_map_page_at_ok.1 hs).2.1 (by decide)

/-! ### What the page allows -/

/-- The leaf of an address: its table and its index there. -/
def leaf_slot (m : Ram) (pml4 logical : UInt64) : ℕ × ℕ := (page_tbl_of m pml4 logical, pt_idx logical)

/-- The walk of the processor succeeds, and what all its words together allow is what the flags ask for. -/
def Grants (m : Ram) (pml4 logical : UInt64) (flags : UInt32) : Prop :=
  ∃ h, translate m pml4 logical = some h ∧ (writable flags.toUInt64 = true → h.writable = true) ∧
    (user flags.toUInt64 = true → h.user = true)

/-- The walk already allows it but for the leaf; and when it gets to the leaf, `PAGE_PRESENT` is among the
flags. -/
structure WayAllows (m : Ram) (pml4 logical : UInt64) (flags : UInt32) : Prop where
  leaf : leaf_slot m pml4 logical ∈ words m pml4 logical → present flags.toUInt64 = true
  others : ∀ c ∈ words m pml4 logical, c ≠ leaf_slot m pml4 logical → Allows flags.toUInt64 (m c.1 c.2)

section Rights

variable {s s' : Vm} {m m' : Ram} {pml4 logical : UInt64} {flags : UInt32}

/-- The words of a walk when the tables are there. -/
theorem words_tables (ht : TablesPresent m pml4 logical) : words m pml4 logical =
    (frameNo pml4, pml4_idx logical) :: (pdpt_of m pml4 logical, pdpt_idx logical) ::
      if huge (m (pdpt_of m pml4 logical) (pdpt_idx logical)) then []
      else (pdt_of m pml4 logical, pd_idx logical) ::
        if huge (m (pdt_of m pml4 logical) (pd_idx logical)) then [] else [leaf_slot m pml4 logical] := by
  obtain ⟨h₃, h₂, h₁⟩ := ht
  have top : words m pml4 logical =
      (frameNo pml4, pml4_idx logical) :: footprint m logical 3 (pdpt_of m pml4 logical) :=
    footprint_present h₃
  have middle : footprint m logical 3 (pdpt_of m pml4 logical) = (pdpt_of m pml4 logical, pdpt_idx logical) ::
      if huge (m (pdpt_of m pml4 logical) (pdpt_idx logical)) then []
      else footprint m logical 2 (pdt_of m pml4 logical) := footprint_present h₂
  have bottom : footprint m logical 2 (pdt_of m pml4 logical) = (pdt_of m pml4 logical, pd_idx logical) ::
      if huge (m (pdt_of m pml4 logical) (pd_idx logical)) then []
      else footprint m logical 1 (page_tbl_of m pml4 logical) := footprint_present h₁
  have last : footprint m logical 1 (page_tbl_of m pml4 logical) = [leaf_slot m pml4 logical] := by
    simp [footprint, leaf_slot, pt_idx]
  rw [top, middle, bottom, last]

/-- The words above the leaf decide which tables these are. -/
theorem tables_congr (h₃ : m' (frameNo pml4) (pml4_idx logical) = m (frameNo pml4) (pml4_idx logical))
    (h₂ : m' (pdpt_of m pml4 logical) (pdpt_idx logical) = m (pdpt_of m pml4 logical) (pdpt_idx logical))
    (h₁ : m' (pdt_of m pml4 logical) (pd_idx logical) = m (pdt_of m pml4 logical) (pd_idx logical)) :
    leaf_slot m' pml4 logical = leaf_slot m pml4 logical ∧
      (TablesPresent m pml4 logical → TablesPresent m' pml4 logical ∧
        words m' pml4 logical = words m pml4 logical) := by
  have hpdpt : pdpt_of m' pml4 logical = pdpt_of m pml4 logical := by rw [pdpt_of, pdpt_of, h₃]
  have hpdt : pdt_of m' pml4 logical = pdt_of m pml4 logical := by rw [pdt_of, pdt_of, hpdpt, h₂]
  have hpage : page_tbl_of m' pml4 logical = page_tbl_of m pml4 logical := by
    rw [page_tbl_of, page_tbl_of, hpdt, h₁]
  have hslot : leaf_slot m' pml4 logical = leaf_slot m pml4 logical := by rw [leaf_slot, leaf_slot, hpage]
  refine ⟨hslot, fun ht => ?_⟩
  have ht' : TablesPresent m' pml4 logical :=
    ⟨by rw [h₃]; exact ht.pdpt, by rw [hpdpt, h₂]; exact ht.pdt, by rw [hpdt, h₁]; exact ht.page_tbl⟩
  exact ⟨ht', by rw [words_tables ht, words_tables ht', hpdpt, hpdt, h₂, h₁, hslot]⟩

/-- A leaf that is absent is none of the words above it, nor of a walk that succeeds. -/
theorem set_of_present (hn : present (leaf m pml4 logical) = false) {f i : ℕ} {w : UInt64}
    (hp : present (m f i) = true) : m.set (page_tbl_of m pml4 logical) (pt_idx logical) w f i = m f i := by
  refine m.set_of_ne _ fun he => ?_
  obtain ⟨rfl, rfl⟩ := Prod.mk.inj he
  rw [leaf, hp] at hn
  cases hn

/-- A mapping that leaves the page present leaves the walk its words. -/
theorem map_words (hf : PageBits flags) (hp : present flags.toUInt64 = true)
    (h : vmm_map_page s pml4 logical flags = .ok s') : words s'.ram pml4 logical = words s.ram pml4 logical := by
  have ht := (vmm_map_page_ok.1 h).2.1
  rw [vmm_map_page_leaf h]
  cases he : present (leaf s.ram pml4 logical) with
  | true => exact footprint_sameWay (sameWay_set (sameWay_new_leaf hf hp he))
  | false =>
    -- the words above are present, so none of them is the leaf
    exact ((tables_congr (set_of_present he ht.pdpt) (set_of_present he ht.pdt)
      (set_of_present he ht.page_tbl)).2 ht).2

/-- **A mapping that returns** gives the page the rights of its flags if and only if the other words of its
walk allow them already, and `PAGE_PRESENT` is among the flags when the walk gets to the leaf. -/
theorem map_grants_iff (hf : PageBits flags) (h : vmm_map_page s pml4 logical flags = .ok s') :
    Grants s'.ram pml4 logical flags ↔ WayAllows s.ram pml4 logical flags := by
  have hram := vmm_map_page_leaf h
  have hset : s'.ram (leaf_slot s.ram pml4 logical).1 (leaf_slot s.ram pml4 logical).2 =
      new_leaf s.pmm (leaf s.ram pml4 logical) flags := by
    rw [hram]
    exact Ram.set_same _ _ _ _
  have hother : ∀ c, c ≠ leaf_slot s.ram pml4 logical → s'.ram c.1 c.2 = s.ram c.1 c.2 := by
    intro c hc
    rw [hram]
    exact s.ram.set_of_ne _ hc
  have hall : words s'.ram pml4 logical = words s.ram pml4 logical →
      (Grants s'.ram pml4 logical flags ↔
        ∀ c ∈ words s.ram pml4 logical, Allows flags.toUInt64 (s'.ram c.1 c.2)) := by
    intro hw
    rw [← hw]
    exact walk_allows_iff
  by_cases hin : leaf_slot s.ram pml4 logical ∈ words s.ram pml4 logical
  · cases hp : present flags.toUInt64 with
    | false =>
      have hnone : translate s'.ram pml4 logical = none := by
        rw [hram]
        exact walk_set_absent hin (present_new_leaf.trans hp)
      constructor
      · rintro ⟨h', hh, -⟩
        rw [hnone] at hh
        cases hh
      · intro hway
        have := hway.leaf hin
        rw [hp] at this
        cases this
    | true =>
      rw [hall (map_words hf hp h)]
      constructor
      · intro ha
        exact ⟨fun _ => hp, fun c hc hne => hother c hne ▸ ha c hc⟩
      · intro hway c hc
        by_cases hcs : c = leaf_slot s.ram pml4 logical
        · rw [hcs, hset]
          exact allows_new_leaf hp
        · rw [hother c hcs]
          exact hway.others c hc hcs
  · -- the walk ends in a huge page above the leaf
    have hkeep : ∀ c ∈ words s.ram pml4 logical, s'.ram c.1 c.2 = s.ram c.1 c.2 := fun c hc =>
      hother c fun he => hin (he ▸ hc)
    rw [hall (footprint_congr hkeep)]
    constructor
    · intro ha
      exact ⟨fun hc => absurd hc hin, fun c hc _ => hkeep c hc ▸ ha c hc⟩
    · intro hway c hc
      rw [hkeep c hc]
      exact hway.others c hc fun he => hin (he ▸ hc)

/-! ### The frame of the page -/

/-- With the tables there, the walk of the processor either ends in a huge page, whatever the leaf
is, or goes the way of `vmm_map_page` and depends on the leaf. -/
theorem translate_tables (ht : TablesPresent m pml4 logical) :
    (∃ f, ∀ m' : Ram, (∀ f i, present (m f i) = true → m' f i = m f i) →
        (translate m' pml4 logical).map Hit.frame = some f) ∨
      (∀ m' : Ram, (∀ f i, present (m f i) = true → m' f i = m f i) →
        (translate m' pml4 logical).map Hit.frame =
          if present (m' (page_tbl_of m pml4 logical) (pt_idx logical)) then
            some (entryFrame (m' (page_tbl_of m pml4 logical) (pt_idx logical))) else none) := by
  obtain ⟨h₃, h₂, h₁⟩ := ht
  have top : ∀ m' : Ram, (∀ f i, present (m f i) = true → m' f i = m f i) →
      (translate m' pml4 logical).map Hit.frame = (walk m' logical 3 (pdpt_of m pml4 logical)).map Hit.frame := by
    intro m' hm
    rw [Lib.Paging.translate, walk_frame_succ, show m' (frameNo pml4) (index 3 logical) = _ from hm _ _ h₃]
    exact if_pos h₃
  have middle : ∀ m' : Ram, (∀ f i, present (m f i) = true → m' f i = m f i) →
      (walk m' logical 3 (pdpt_of m pml4 logical)).map Hit.frame =
        if huge (m (pdpt_of m pml4 logical) (pdpt_idx logical)) then
          some (hugeFrame 2 (m (pdpt_of m pml4 logical) (pdpt_idx logical)) logical)
        else (walk m' logical 2 (pdt_of m pml4 logical)).map Hit.frame := by
    intro m' hm
    rw [walk_frame_succ, show m' (pdpt_of m pml4 logical) (index 2 logical) = _ from hm _ _ h₂]
    exact if_pos h₂
  have bottom : ∀ m' : Ram, (∀ f i, present (m f i) = true → m' f i = m f i) →
      (walk m' logical 2 (pdt_of m pml4 logical)).map Hit.frame =
        if huge (m (pdt_of m pml4 logical) (pd_idx logical)) then
          some (hugeFrame 1 (m (pdt_of m pml4 logical) (pd_idx logical)) logical)
        else (walk m' logical 1 (page_tbl_of m pml4 logical)).map Hit.frame := by
    intro m' hm
    rw [walk_frame_succ, show m' (pdt_of m pml4 logical) (index 1 logical) = _ from hm _ _ h₁]
    exact if_pos h₁
  by_cases hu₂ : huge (m (pdpt_of m pml4 logical) (pdpt_idx logical)) = true
  · exact .inl ⟨_, fun m' hm => by rw [top m' hm, middle m' hm, if_pos hu₂]⟩
  by_cases hu₁ : huge (m (pdt_of m pml4 logical) (pd_idx logical)) = true
  · exact .inl ⟨_, fun m' hm => by rw [top m' hm, middle m' hm, if_neg hu₂, bottom m' hm, if_pos hu₁]⟩
  refine .inr fun m' hm => ?_
  rw [top m' hm, middle m' hm, if_neg hu₂, bottom m' hm, if_neg hu₁, walk_frame_succ]
  rfl

/-- **The page has its frame** when it is mapped: the one it had, or the one of the allocator. -/
theorem frame_new_leaf {p : Pmm} (hf : PageBits flags) (hp : present flags.toUInt64 = true)
    (ht : TablesPresent m pml4 logical) :
    (translate (m.set (page_tbl_of m pml4 logical) (pt_idx logical) (new_leaf p (leaf m pml4 logical) flags))
      pml4 logical).map Hit.frame =
      some (((translate m pml4 logical).map Hit.frame).getD (frameNo (p.next_alloc &&& PAGE_ADDR_MASK))) := by
  have hsame : ∀ f i, present (m f i) = true → m f i = m f i := fun _ _ _ => rfl
  have hleaf : m (page_tbl_of m pml4 logical) (pt_idx logical) = leaf m pml4 logical := rfl
  cases he : present (leaf m pml4 logical) with
  | true =>
    have hway : (translate (m.set (page_tbl_of m pml4 logical) (pt_idx logical)
        (new_leaf p (leaf m pml4 logical) flags)) pml4 logical).map Hit.frame =
        (translate m pml4 logical).map Hit.frame :=
      walk_sameWay (sameWay_set (sameWay_new_leaf hf hp he))
    rw [hway]
    rcases translate_tables ht with ⟨f, hall⟩ | hall
    · rw [hall _ hsame]
      rfl
    · rw [hall _ hsame, hleaf, if_pos he]
      rfl
  | false =>
    rcases translate_tables ht with ⟨f, hall⟩ | hall
    · rw [hall _ hsame, hall _ fun f i => set_of_present he]
      rfl
    · have hnone := hall _ hsame
      rw [hleaf, he, if_neg Bool.false_ne_true] at hnone
      rw [hnone, hall _ fun f i => set_of_present he, Ram.set_same, if_pos (present_new_leaf.trans hp),
        entryFrame_new_leaf hf he]
      rfl

end Rights

/-- Every right is asked for, and granted. -/
theorem map_grants_page : ∃ s', vmm_map_page onePage 0x1000 0 7 = .ok s' ∧ Grants s'.ram 0x1000 0 7 :=
  ⟨_, rfl, (map_grants_iff (s := onePage) (by decide) rfl).2 ⟨by decide, by decide⟩⟩

/-- A page mapped for ring 3 below tables that were made for the kernel is not reachable from ring 3. -/
theorem not_map_grants : ¬∀ (s s' : Vm) (pml4 logical : UInt64) (flags : UInt32), PageBits flags →
    vmm_map_page s pml4 logical flags = .ok s' → Grants s'.ram pml4 logical flags := by
  intro h
  have hg := h { onePage with ram := fun f i => onePage.ram f i &&& ~~~4 } _ 0x1000 0 7 (by decide) rfl
  have hway := (walk_allows_iff.1 hg) (1, 0) (by decide)
  exact absurd (hway.2.2 (by decide)) (by decide)

/-! ### What else changes -/

/-- **The mapping changes one page**: every other page keeps its frame and its rights, and a page that was
present keeps its frame and every bit of its leaf but the low three. -/
structure MapsOnly (m m' : Ram) (pml4 logical : UInt64) : Prop where
  others : ∀ w, page w ≠ page logical → translate m' pml4 w = translate m pml4 w
  frame : ∀ h, translate m pml4 logical = some h → entryFrame (leaf m' pml4 logical) = h.frame
  bits : ∀ h, translate m pml4 logical = some h →
    leaf m' pml4 logical &&& ~~~7 = leaf m pml4 logical &&& ~~~7

section Tree

variable {s s' : Vm} {m : Ram} {pml4 logical : UInt64} {flags : UInt32}

/-- The tables that `vmm_map_page` goes through are tables of the tree. -/
theorem TablesPresent.tableAt (ht : TablesPresent m pml4 logical) :
    TableAt m (frameNo pml4) (pathTo logical 2) (pdpt_of m pml4 logical) ∧
      TableAt m (frameNo pml4) (pathTo logical 1) (pdt_of m pml4 logical) ∧
      TableAt m (frameNo pml4) (pathTo logical 0) (page_tbl_of m pml4 logical) := by
  have h₃ : TableAt m (frameNo pml4) (pathTo logical 2) (pdpt_of m pml4 logical) :=
    TableAt.root.entry (by decide) index_lt ht.pdpt
  have h₂ : TableAt m (frameNo pml4) (pathTo logical 1) (pdt_of m pml4 logical) :=
    h₃.entry (by simp [pathTo]) index_lt ht.pdt
  exact ⟨h₃, h₂, h₂.entry (by simp [pathTo]) index_lt ht.page_tbl⟩

/-- In a tree the leaf decides. -/
theorem small_tables (hT : PageTree m (frameNo pml4)) (ht : TablesPresent m pml4 logical) :
    huge (m (pdpt_of m pml4 logical) (pdpt_idx logical)) = false ∧
      huge (m (pdt_of m pml4 logical) (pd_idx logical)) = false := by
  obtain ⟨h₃, h₂, -⟩ := ht.tableAt
  exact ⟨hT.small h₃ (by simp [pathTo]) index_lt ht.pdt, hT.small h₂ (by simp [pathTo]) index_lt ht.page_tbl⟩

/-- No word above the leaf is the leaf. -/
theorem map_tables (hT : PageTree s.ram (frameNo pml4)) (h : vmm_map_page s pml4 logical flags = .ok s') :
    leaf_slot s'.ram pml4 logical = leaf_slot s.ram pml4 logical := by
  obtain ⟨h₃, h₂, h₁⟩ := (vmm_map_page_ok.1 h).2.1.tableAt
  have hne : ∀ {k t : ℕ}, 0 < k → k ≤ 3 → TableAt s.ram (frameNo pml4) (pathTo logical k) t → ∀ i,
      s'.ram t i = s.ram t i := by
    intro k t hk hk' ht i
    rw [vmm_map_page_leaf h]
    refine s.ram.set_of_ne _ fun hc => ?_
    obtain ⟨rfl, -⟩ := Prod.mk.inj hc
    have hlen := congrArg List.length (hT.distinct ht h₁)
    simp only [pathTo, List.length_map, List.length_range'] at hlen
    omega
  exact (tables_congr (hne (k := 3) (by decide) (by decide) .root _) (hne (by decide) (by decide) h₃ _)
    (hne (by decide) (by decide) h₂ _)).1

/-- The leaf decides where the address leads, when no entry above maps a huge page. -/
theorem frame_of_leaf (ht : TablesPresent m pml4 logical)
    (hu₂ : huge (m (pdpt_of m pml4 logical) (pdpt_idx logical)) = false)
    (hu₁ : huge (m (pdt_of m pml4 logical) (pd_idx logical)) = false) :
    (translate m pml4 logical).map Hit.frame =
      if present (leaf m pml4 logical) then some (entryFrame (leaf m pml4 logical)) else none := by
  have top : (translate m pml4 logical).map Hit.frame =
      (walk m logical 3 (pdpt_of m pml4 logical)).map Hit.frame := walk_frame_table ht.pdpt rfl
  have middle : (walk m logical 3 (pdpt_of m pml4 logical)).map Hit.frame =
      (walk m logical 2 (pdt_of m pml4 logical)).map Hit.frame := walk_frame_table ht.pdt hu₂
  have bottom : (walk m logical 2 (pdt_of m pml4 logical)).map Hit.frame =
      (walk m logical 1 (page_tbl_of m pml4 logical)).map Hit.frame := walk_frame_table ht.page_tbl hu₁
  rw [top, middle, bottom, walk_frame_succ]
  rfl

/-- A page that is mapped has the frame its leaf points to. -/
theorem translate_leaf (hT : PageTree m (frameNo pml4)) (ht : TablesPresent m pml4 logical) {h : Hit}
    (hh : translate m pml4 logical = some h) :
    present (leaf m pml4 logical) = true ∧ entryFrame (leaf m pml4 logical) = h.frame := by
  have hf := frame_of_leaf ht (small_tables hT ht).1 (small_tables hT ht).2
  rw [hh] at hf
  split at hf
  next hp => exact ⟨hp, (Option.some.inj hf).symm⟩
  next => cases hf

/-- Every other page is left alone. -/
theorem map_others (hT : PageTree s.ram (frameNo pml4)) (h : vmm_map_page s pml4 logical flags = .ok s') {w : UInt64}
    (hw : page w ≠ page logical) : translate s'.ram pml4 w = translate s.ram pml4 w := by
  rw [vmm_map_page_leaf h]
  exact walk_congr fun c hc => s.ram.set_of_ne _ fun he =>
    hw (hT.leaf_apart (vmm_map_page_ok.1 h).2.1.tableAt.2.2 (he ▸ hc))

/-- **A mapping that returns**, in a tree of tables, changes its page only. -/
theorem map_only (hT : PageTree s.ram (frameNo pml4)) (hf : PageBits flags)
    (h : vmm_map_page s pml4 logical flags = .ok s') : MapsOnly s.ram s'.ram pml4 logical := by
  have ht := (vmm_map_page_ok.1 h).2.1
  have hleaf : leaf s'.ram pml4 logical = new_leaf s.pmm (leaf s.ram pml4 logical) flags := by
    have hslot := map_tables hT h
    rw [leaf, show page_tbl_of s'.ram pml4 logical = _ from congrArg Prod.fst hslot, vmm_map_page_leaf h]
    exact Ram.set_same _ _ _ _
  refine ⟨fun w hw => map_others hT h hw, fun h' hh => ?_, fun h' hh => ?_⟩
  · obtain ⟨hp, hframe⟩ := translate_leaf hT ht hh
    rw [← hframe, hleaf, entryFrame, new_leaf_high hf hp rfl, entryFrame]
  · rw [hleaf, new_leaf_high hf (translate_leaf hT ht hh).1 rfl]

/-- The tables stay a tree. -/
theorem map_tree (hT : PageTree s.ram (frameNo pml4)) (h : vmm_map_page s pml4 logical flags = .ok s') :
    PageTree s'.ram (frameNo pml4) := by
  rw [vmm_map_page_leaf h]
  exact hT.set_leaf (vmm_map_page_ok.1 h).2.1.tableAt.2.2 rfl _ _

/-- A mapping for writing takes no page the right to be written, in no tables. -/
theorem map_keeps_writable {cr3 a : UInt64} (hf : PageBits flags) (hw : Allows 2 flags.toUInt64)
    (h : vmm_map_page s pml4 logical flags = .ok s')
    (ha : ∃ hit, translate s.ram cr3 a = some hit ∧ hit.writable = true) :
    ∃ hit, translate s'.ram cr3 a = some hit ∧ hit.writable = true := by
  have hbefore := walk_writable_iff.1 ha
  have hwords : words s'.ram cr3 a = words s.ram cr3 a := by
    rw [vmm_map_page_leaf h]
    cases he : present (leaf s.ram pml4 logical) with
    | true => exact footprint_sameWay (sameWay_set (sameWay_new_leaf hf hw.1 he))
    | false => exact footprint_congr fun c hc => set_of_present he (hbefore c hc).1
  refine walk_writable_iff.2 fun c hc => ?_
  have hc : c ∈ words s.ram cr3 a := hwords ▸ hc
  rw [vmm_map_page_leaf h]
  by_cases hcs : c = leaf_slot s.ram pml4 logical
  · rw [hcs, leaf_slot, Ram.set_same]
    have hnew := allows_new_leaf (p := s.pmm) (e := leaf s.ram pml4 logical) hw.1
    exact ⟨hnew.1, fun _ => hnew.2.1 (hw.2.1 rfl), fun hu => by cases hu⟩
  · rw [s.ram.set_of_ne _ hcs]
    exact hbefore c hc

end Tree

theorem onePage_tree : PageTree onePage.ram 1 := by
  have hentry : ∀ {t i}, present (onePage.ram t i) = true → i = 0 := by
    intro t i hp
    by_contra hne
    have h0 : onePage.ram t i = 0 := if_neg fun h => hne h.1
    rw [h0] at hp
    cases hp
  have hat : ∀ {path t}, TableAt onePage.ram 1 path t →
      path = List.replicate (t - 1) 0 ∧ 1 ≤ t ∧ t = path.length + 1 := by
    intro path t h
    induction h with
    | root => exact ⟨rfl, by decide, by decide⟩
    | @entry path t i h hlen hi hp ih =>
      obtain ⟨hpath, hle, ht⟩ := ih
      obtain rfl := hentry hp
      obtain rfl | rfl | rfl : t = 1 ∨ t = 2 ∨ t = 3 := by omega
      · rw [hpath]; decide
      · rw [hpath]; decide
      · rw [hpath]; decide
  constructor
  · intro path t i h hlen hi hp
    obtain ⟨-, hle, ht⟩ := hat h
    obtain rfl := hentry hp
    obtain rfl | rfl | rfl : t = 1 ∨ t = 2 ∨ t = 3 := by omega
    all_goals
      simp only [endsHuge, Bool.and_eq_false_imp]
      intro _
      decide
  · intro path path' t h h'
    rw [(hat h).1, (hat h').1]

/-- The page loses two of its rights. -/
theorem map_only_page : ∃ s', vmm_map_page onePage 0x1000 0 PAGE_WRITABLE = .ok s' ∧
    MapsOnly onePage.ram s'.ram 0x1000 0 :=
  ⟨_, rfl, map_only (s := onePage) onePage_tree (by decide) rfl⟩

end Iridium
