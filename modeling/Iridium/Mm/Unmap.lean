import Iridium.Lib.Traced
import Iridium.Mm.MapRuns

/-!
# A page unmapped

`vmm_unmap_page` walks the tables as `vmm_map_page` does, but makes none, and does not look whether there is
one: from an entry that is absent, or maps a huge page, the walk goes on in whatever memory lies there. So
it takes away the page it is asked for, and nothing else, exactly when the page has a leaf (`unmap_iff`).
-/

namespace Iridium

open Lib Lib.Paging

/-- `vmm_unmap_page`, with its own mutex. It tells the word that it writes. -/
def vmm_unmap_page (m : Ram) (lock : Bool) (pml4 logical : UInt64) : Traced (ℕ × ℕ) Halt (Ram × Bool) := do
  if lock then Traced.lift (.error .deadlock)
  else do
    let logical := ALIGN_DOWN logical
    Traced.lift (ASSERT (logical % 0x1000 = 0))
    let pdpt := table (m (frameNo pml4) (pml4_idx logical))
    let pdt := table (m pdpt (pdpt_idx logical))
    let page_tbl := table (m pdt (pd_idx logical))
    Traced.tell (page_tbl, pt_idx logical)
    return (m.set page_tbl (pt_idx logical) (m page_tbl (pt_idx logical) &&& ~~~7), false)

/-! ### The leaf of a page -/

/-- The three tables on the way to the leaf are there, and no huge page is in the way. -/
structure HasLeaf (m : Ram) (pml4 logical : UInt64) : Prop where
  tables : TablesPresent m pml4 logical
  pdt_small : huge (m (pdpt_of m pml4 logical) (pdpt_idx logical)) = false
  page_tbl_small : huge (m (pdt_of m pml4 logical) (pd_idx logical)) = false

instance (m : Ram) (pml4 logical : UInt64) : Decidable (HasLeaf m pml4 logical) :=
  decidable_of_iff
    (TablesPresent m pml4 logical ∧ huge (m (pdpt_of m pml4 logical) (pdpt_idx logical)) = false ∧
      huge (m (pdt_of m pml4 logical) (pd_idx logical)) = false)
    ⟨fun ⟨h₁, h₂, h₃⟩ => ⟨h₁, h₂, h₃⟩, fun ⟨h₁, h₂, h₃⟩ => ⟨h₁, h₂, h₃⟩⟩

/-- The word `c` is the leaf of the page. -/
def IsLeaf (m : Ram) (pml4 logical : UInt64) (c : ℕ × ℕ) : Prop :=
  ∃ t, WalkAt m pml4 logical 0 t ∧ c = (t, pt_idx logical)

section Leaf

variable {m : Ram} {pml4 v w : UInt64} {c : ℕ × ℕ} {t : ℕ}

/-- **The walk of the processor gets to a last table** if and only if the page has a leaf, and then it is the
table that the kernel walks to. -/
theorem walkAt_zero_iff : WalkAt m pml4 v 0 t ↔ HasLeaf m pml4 v ∧ t = page_tbl_of m pml4 v := by
  constructor
  · intro h
    obtain ⟨t₁, h₁, p₁, u₁, rfl⟩ := h.before (by decide)
    obtain ⟨t₂, h₂, p₂, u₂, rfl⟩ := h₁.before (by decide)
    obtain ⟨t₃, h₃, p₃, -, rfl⟩ := h₂.before (by decide)
    obtain rfl := h₃.top
    exact ⟨⟨⟨p₃, p₂, p₁⟩, u₂, u₁⟩, rfl⟩
  · rintro ⟨⟨⟨h₃, h₂, h₁⟩, u₂, u₁⟩, rfl⟩
    have top : WalkAt m pml4 v 2 (pdpt_of m pml4 v) := WalkAt.root.entry h₃ rfl
    have middle : WalkAt m pml4 v 1 (pdt_of m pml4 v) := top.entry h₂ u₂
    exact middle.entry h₁ u₁

theorem isLeaf_iff : IsLeaf m pml4 v c ↔ HasLeaf m pml4 v ∧ c = leaf_slot m pml4 v := by
  constructor
  · rintro ⟨t, ht, rfl⟩
    obtain ⟨hl, rfl⟩ := walkAt_zero_iff.1 ht
    exact ⟨hl, rfl⟩
  · rintro ⟨hl, rfl⟩
    exact ⟨_, walkAt_zero_iff.2 ⟨hl, rfl⟩, rfl⟩

end Leaf

/-! ### What unmapping should do -/

/-- **The page is unmapped**: it is not there any more, all other pages are where they were with the rights
they had, and nothing is written but the leaf of the page. -/
structure Unmapped (m : Ram) (pml4 logical : UInt64) (m' : Ram) (deeds : List (ℕ × ℕ)) : Prop where
  gone : ∀ w, page w = page logical → translate m' pml4 w = none
  others : ∀ w, page w ≠ page logical → translate m' pml4 w = translate m pml4 w
  only : ∀ c ∈ deeds, IsLeaf m pml4 logical c

/-- The call returns with its mutex released, and has done that. -/
def Unmaps (m : Ram) (pml4 logical : UInt64) : Prop :=
  ∃ m', (vmm_unmap_page m false pml4 logical).result = .ok (m', false) ∧
    Unmapped m pml4 logical m' (vmm_unmap_page m false pml4 logical).deeds

section Unmap

variable {m : Ram} {pml4 v : UInt64}

/-- **The call** returns, and writes one word. -/
theorem vmm_unmap_page_eq : vmm_unmap_page m false pml4 v =
    ⟨[leaf_slot m pml4 v], .ok (m.set (leaf_slot m pml4 v).1 (leaf_slot m pml4 v).2 (leaf m pml4 v &&& ~~~7), false)⟩ := by
  have hi := page_eq_iff.1 (page_align v)
  have h₃ : pml4_idx (ALIGN_DOWN v) = pml4_idx v := hi 3 (by decide)
  have h₂ : pdpt_idx (ALIGN_DOWN v) = pdpt_idx v := hi 2 (by decide)
  have h₁ : pd_idx (ALIGN_DOWN v) = pd_idx v := hi 1 (by decide)
  have h₀ : pt_idx (ALIGN_DOWN v) = pt_idx v := hi 0 (by decide)
  have haligned : ALIGN_DOWN v % 0x1000 = 0 := by
    rw [← UInt64.toNat_inj, UInt64.toNat_mod, ALIGN_DOWN_toNat]
    show (v.toNat - v.toNat % 0x1000) % 0x1000 = 0
    omega
  have hassert : ASSERT (decide (ALIGN_DOWN v % 0x1000 = 0)) = .ok () := by
    rw [decide_eq_true haligned]
    rfl
  rw [vmm_unmap_page, if_neg Bool.false_ne_true]
  simp only [h₃, h₂, h₁, h₀, hassert]
  rfl

/-- A page with a leaf is unmapped in a tree of tables. -/
theorem HasLeaf.unmapped (h : HasLeaf m pml4 v) (hT : WalkTree m pml4) :
    Unmapped m pml4 v (m.set (leaf_slot m pml4 v).1 (leaf_slot m pml4 v).2 (leaf m pml4 v &&& ~~~7))
      [leaf_slot m pml4 v] := by
  have hat : WalkAt m pml4 v 0 (leaf_slot m pml4 v).1 := walkAt_zero_iff.2 ⟨h, rfl⟩
  have habsent : present (leaf m pml4 v &&& ~~~7) = false := by
    rw [present, UInt64.and_assoc, show (~~~7 &&& 1 : UInt64) = 0 from rfl, UInt64.and_zero]
    rfl
  refine ⟨fun w hw => ?_, fun w hw => ?_, fun c hc => ?_⟩
  · refine (walk_same_page hw (Nat.le_refl 4)).1.trans ?_
    exact walk_set_absent (mem_words_iff.2 ⟨0, _, hat, rfl⟩) habsent
  · refine walk_congr fun c hc => m.set_of_ne _ fun he => ?_
    -- another page does not read the leaf
    obtain rfl : c = leaf_slot m pml4 v := he
    exact hw (hT.leaf_apart hat hc)
  · exact isLeaf_iff.2 ⟨h, List.mem_singleton.1 hc⟩

end Unmap

/-- **In every tree of tables**, whatever is absent in it: the page of an address is unmapped, and only it,
if and only if it has a leaf. -/
theorem unmap_iff {m : Ram} {pml4 : UInt64} (hT : WalkTree m pml4) (logical : UInt64) :
    Unmaps m pml4 logical ↔ HasLeaf m pml4 logical := by
  rw [Unmaps, vmm_unmap_page_eq]
  constructor
  · rintro ⟨m', -, h⟩
    exact (isLeaf_iff.1 (h.only _ (List.mem_singleton_self _))).1
  · exact fun h => ⟨_, rfl, h.unmapped hT⟩

/-- The page of a space with one page. -/
theorem unmap_page : Unmaps onePage.ram 0x1000 0x123 :=
  (unmap_iff (PageTree.walkTree onePage_tree) 0x123).2 (by decide)

/-- In a space without tables, the first word of memory is written. -/
theorem not_unmaps : ¬∀ m pml4, WalkTree m pml4 → ∀ logical, Unmaps m pml4 logical := by
  intro h
  have hroot : ∀ {v : UInt64} {k t : ℕ}, WalkAt (fun _ _ => 0) 0x1000 v k t → k = 3 := by
    intro v k t ht
    cases ht with
    | root => rfl
    | entry _ hp _ => cases hp
  have hT : WalkTree (fun _ _ => 0) 0x1000 := by
    intro v w k j t hv hw
    obtain rfl := hroot hv
    obtain rfl := hroot hw
    exact ⟨rfl, fun l h₁ h₂ => by omega⟩
  obtain ⟨m', -, hu⟩ := h _ _ hT 0
  obtain ⟨t, ht, -⟩ := hu.only (0, 0) (by decide)
  exact absurd (hroot ht) (by decide)

end Iridium
