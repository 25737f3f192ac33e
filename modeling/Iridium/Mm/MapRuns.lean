import Iridium.Mm.KheapPages
import Iridium.Lib.Run

/-!
# Pages mapped one after the other

What is left of the other pages when `vmm_map_page` is called for a number of addresses, with the same flags: in
a tree of tables a page keeps every word of its walk if and only if it is none of those that are mapped, or had
the rights of the flags before (`kept_iff`). The loop of `kmalloc` maps page `0` and every 48th behind it
(`kmalloc_map_run`).
-/

namespace Iridium

open Lib Lib.Paging

/-- A page keeps its mapping and its rights: every word that its walk reads is as it was. -/
def WalkKept (m m' : Ram) (cr3 v : UInt64) : Prop := ∀ c ∈ words m cr3 v, m' c.1 c.2 = m c.1 c.2

/-- The rights in the leaf of a page are those of the flags. -/
def Settled (m : Ram) (pml4 : UInt64) (flags : UInt32) (v : UInt64) : Prop :=
  leaf m pml4 v &&& 7 = flags.toUInt64 &&& 7

instance (m : Ram) (pml4 : UInt64) (flags : UInt32) (v : UInt64) : Decidable (Settled m pml4 flags v) :=
  inferInstanceAs (Decidable (_ = _))

section WalkKept

variable {m m' m'' : Ram} {cr3 pml4 v w : UInt64} {flags : UInt32}

/-- A page that is kept leads where it did, with the same rights. -/
theorem WalkKept.translate (h : WalkKept m m' cr3 v) : translate m' cr3 v = translate m cr3 v := walk_congr h

theorem WalkKept.trans (h : WalkKept m m' cr3 v) (h' : WalkKept m' m'' cr3 v) : WalkKept m m'' cr3 v := by
  have hw : words m' cr3 v = words m cr3 v := footprint_congr h
  exact fun c hc => (h' c (hw ▸ hc)).trans (h c hc)

/-! ### The tables -/

/-- Addresses of one page have one way through the tables. -/
theorem same_page (hp : page w = page v) :
    (TablesPresent m pml4 v → TablesPresent m pml4 w) ∧ leaf_slot m pml4 w = leaf_slot m pml4 v := by
  have hi := page_eq_iff.1 hp
  have h₃ : pml4_idx w = pml4_idx v := hi 3 (by decide)
  have h₂ : pdpt_idx w = pdpt_idx v := hi 2 (by decide)
  have h₁ : pd_idx w = pd_idx v := hi 1 (by decide)
  have h₀ : pt_idx w = pt_idx v := hi 0 (by decide)
  have hpdpt : pdpt_of m pml4 w = pdpt_of m pml4 v := by rw [pdpt_of, pdpt_of, h₃]
  have hpdt : pdt_of m pml4 w = pdt_of m pml4 v := by rw [pdt_of, pdt_of, hpdpt, h₂]
  have hpage : page_tbl_of m pml4 w = page_tbl_of m pml4 v := by rw [page_tbl_of, page_tbl_of, hpdt, h₁]
  refine ⟨fun ht => ⟨?_, ?_, ?_⟩, ?_⟩
  · rw [h₃]; exact ht.pdpt
  · rw [hpdpt, h₂]; exact ht.pdt
  · rw [hpdt, h₁]; exact ht.page_tbl
  · rw [leaf_slot, leaf_slot, hpage, h₀]

theorem leaf_eq_slot (m : Ram) (pml4 v : UInt64) :
    leaf m pml4 v = m (leaf_slot m pml4 v).1 (leaf_slot m pml4 v).2 := rfl

theorem Settled.same_page (h : Settled m pml4 flags v) (hp : page w = page v) : Settled m pml4 flags w := by
  rw [Settled, leaf_eq_slot, (Iridium.same_page hp).2]
  exact h

/-- In a tree the walk gets to the leaf. -/
theorem words_tree (hT : PageTree m (frameNo pml4)) (ht : TablesPresent m pml4 v) :
    words m pml4 v = [(frameNo pml4, pml4_idx v), (pdpt_of m pml4 v, pdpt_idx v), (pdt_of m pml4 v, pd_idx v),
      leaf_slot m pml4 v] := by
  obtain ⟨h₂, h₁⟩ := small_tables hT ht
  rw [words_tables ht, h₂, h₁]
  rfl

theorem leaf_mem_words (hT : PageTree m (frameNo pml4)) (ht : TablesPresent m pml4 v) :
    leaf_slot m pml4 v ∈ words m pml4 v := by simp [words_tree hT ht]

/-- With the same tables above, a page is kept with its leaf. -/
theorem WalkKept.of_leaf (hT : PageTree m (frameNo pml4)) (ht : TablesPresent m pml4 v)
    (hs : SameTables m m' (frameNo pml4))
    (h : m' (leaf_slot m pml4 v).1 (leaf_slot m pml4 v).2 = leaf m pml4 v) : WalkKept m m' pml4 v := by
  obtain ⟨h₃, h₂, -⟩ := ht.tableAt
  intro c hc
  rw [words_tree hT ht] at hc
  simp only [List.mem_cons, List.not_mem_nil, or_false] at hc
  obtain rfl | rfl | rfl | rfl := hc
  · exact congrFun (hs .root (by decide)) _
  · exact congrFun (hs h₃ (by simp [pathTo])) _
  · exact congrFun (hs h₂ (by simp [pathTo])) _
  · exact h

/-- The tables above the last decide which tables there are, and which word is the leaf. -/
theorem tables_of_same (h : SameTables m m' (frameNo pml4)) :
    (TablesPresent m' pml4 v ↔ TablesPresent m pml4 v) ∧
      (TablesPresent m pml4 v → leaf_slot m' pml4 v = leaf_slot m pml4 v) := by
  have top : m' (frameNo pml4) = m (frameNo pml4) := h .root (by decide)
  have hpdpt : pdpt_of m' pml4 v = pdpt_of m pml4 v := by rw [pdpt_of, pdpt_of, top]
  have middle : present (m (frameNo pml4) (pml4_idx v)) = true →
      TableAt m (frameNo pml4) (pathTo v 2) (pdpt_of m pml4 v) := TableAt.root.entry (by decide) index_lt
  have hpdt : present (m (frameNo pml4) (pml4_idx v)) = true →
      m' (pdpt_of m pml4 v) = m (pdpt_of m pml4 v) ∧ pdt_of m' pml4 v = pdt_of m pml4 v := fun h₃ => by
    have hrow := h (middle h₃) (by simp [pathTo])
    exact ⟨hrow, by rw [pdt_of, pdt_of, hpdpt, hrow]⟩
  have hpage : present (m (frameNo pml4) (pml4_idx v)) = true →
      present (m (pdpt_of m pml4 v) (pdpt_idx v)) = true → m' (pdt_of m pml4 v) = m (pdt_of m pml4 v) :=
    fun h₃ h₂ => h ((middle h₃).entry (by simp [pathTo]) index_lt h₂) (by simp [pathTo])
  refine ⟨⟨fun ht => ?_, fun ht => ?_⟩, fun ht => ?_⟩
  · have h₃ := ht.pdpt
    rw [top] at h₃
    have h₂ := ht.pdt
    rw [hpdpt, (hpdt h₃).1] at h₂
    have h₁ := ht.page_tbl
    rw [(hpdt h₃).2, hpage h₃ h₂] at h₁
    exact ⟨h₃, h₂, h₁⟩
  · refine ⟨by rw [top]; exact ht.pdpt, ?_, ?_⟩
    · rw [hpdpt, (hpdt ht.pdpt).1]; exact ht.pdt
    · rw [(hpdt ht.pdpt).2, hpage ht.pdpt ht.pdt]; exact ht.page_tbl
  · rw [leaf_slot, leaf_slot, page_tbl_of, page_tbl_of, (hpdt ht.pdpt).2, hpage ht.pdpt ht.pdt]

end WalkKept

/-! ### One call, and many -/

section Runs

variable {s s' : Vm} {pml4 a w : UInt64} {flags : UInt32}

theorem map_sameTables (hT : PageTree s.ram (frameNo pml4)) (h : vmm_map_page s pml4 a flags = .ok s') :
    SameTables s.ram s'.ram (frameNo pml4) := by
  rw [vmm_map_page_leaf h]
  exact hT.sameTables_set (vmm_map_page_ok.1 h).2.1.tableAt.2.2 rfl _ _

/-- Every other page is kept. -/
theorem map_kept (hT : PageTree s.ram (frameNo pml4)) (h : vmm_map_page s pml4 a flags = .ok s')
    (hw : page w ≠ page a) : WalkKept s.ram s'.ram pml4 w := by
  intro c hc
  rw [vmm_map_page_leaf h]
  exact s.ram.set_of_ne _ fun he => hw (hT.leaf_apart (vmm_map_page_ok.1 h).2.1.tableAt.2.2 (he ▸ hc))

/-- The page itself gets the rights of the flags, and keeps its leaf if it has them. -/
theorem map_settles (hT : PageTree s.ram (frameNo pml4)) (hf : PageBits flags) (hp : present flags.toUInt64 = true)
    (h : vmm_map_page s pml4 a flags = .ok s') (hw : page w = page a) :
    TablesPresent s.ram pml4 w ∧ Settled s'.ram pml4 flags w ∧
      (Settled s.ram pml4 flags w → leaf s'.ram pml4 w = leaf s.ram pml4 w) := by
  obtain ⟨htables, hslot⟩ : (TablesPresent s.ram pml4 a → TablesPresent s.ram pml4 w) ∧
      leaf_slot s.ram pml4 w = leaf_slot s.ram pml4 a := same_page hw
  have ht := htables (vmm_map_page_ok.1 h).2.1
  have hleaf : leaf s'.ram pml4 w = new_leaf s.pmm (leaf s.ram pml4 w) flags := by
    rw [leaf_eq_slot, (tables_of_same (map_sameTables hT h)).2 ht, hslot, vmm_map_page_leaf h, leaf_slot,
      Ram.set_same, leaf_eq_slot s.ram pml4 w, hslot, leaf_slot]
    rfl
  refine ⟨ht, ?_, fun hs => ?_⟩
  · rw [Settled, hleaf]
    exact new_leaf_low rfl
  · -- the leaf is present, and its low bits are those it gets
    have hlow : flags.toUInt64 = flags.toUInt64 &&& 7 := by
      have hall : flags.toUInt64 &&& (7 ||| ~~~7) = (flags.toUInt64 &&& 7) ||| (flags.toUInt64 &&& ~~~7) :=
        UInt64.toBitVec_inj.1 BitVec.and_or_distrib_left
      rw [show flags.toUInt64 &&& ~~~7 = 0 from hf.and rfl, UInt64.or_zero] at hall
      rw [← hall]
      exact UInt64.and_neg_one.symm
    have hpresent : present (leaf s.ram pml4 w) = true := by
      have hone : ∀ x : UInt64, present x = present (x &&& 7) := fun x => by
        rw [present, present, UInt64.and_assoc]
        rfl
      rw [hone, hs, ← hlow, hp]
    rw [hleaf, new_leaf, if_pos hpresent, hlow, ← hs]
    have hall : leaf s.ram pml4 w &&& (~~~7 ||| 7) = (leaf s.ram pml4 w &&& ~~~7) ||| (leaf s.ram pml4 w &&& 7) :=
      UInt64.toBitVec_inj.1 BitVec.and_or_distrib_left
    rw [← hall]
    exact UInt64.and_neg_one

/-- **All pages are kept but those**, and the tables above the last ones. -/
structure KeptBut (pml4 : UInt64) (P : ℕ → Prop) (m m' : Ram) : Prop where
  same : SameTables m m' (frameNo pml4)
  kept : ∀ w, ¬P (page w) → WalkKept m m' pml4 w

theorem KeptBut.refl (pml4 : UInt64) (P : ℕ → Prop) (m : Ram) : KeptBut pml4 P m m := ⟨.refl m _, fun _ _ _ _ => rfl⟩

theorem KeptBut.mono {P Q : ℕ → Prop} {m m' : Ram} (h : KeptBut pml4 P m m') (hPQ : ∀ v, P v → Q v) :
    KeptBut pml4 Q m m' :=
  ⟨h.same, fun w hw => h.kept w fun hp => hw (hPQ _ hp)⟩

theorem KeptBut.trans {P Q : ℕ → Prop} {m m' m'' : Ram} (h : KeptBut pml4 P m m') (h' : KeptBut pml4 Q m' m'') :
    KeptBut pml4 (fun v => P v ∨ Q v) m m'' :=
  ⟨h.same.trans h'.same, fun w hw => (h.kept w fun hp => hw (.inl hp)).trans (h'.kept w fun hq => hw (.inr hq))⟩

theorem map_keptBut (hT : PageTree s.ram (frameNo pml4)) (h : vmm_map_page s pml4 a flags = .ok s') :
    KeptBut pml4 (· = page a) s.ram s'.ram :=
  ⟨map_sameTables hT h, fun _ hw => map_kept hT h hw⟩

/-- Memory that is the same in all tables. -/
theorem KeptBut.of_tables {m m' : Ram} (h : ∀ path t, TableAt m (frameNo pml4) path t → m' t = m t) :
    KeptBut pml4 (fun _ => False) m m' := by
  refine ⟨fun path t ht _ => h path t ht, fun w _ c hc => ?_⟩
  obtain ⟨k, -, ht, -⟩ := table_of_word (TableAt.root : TableAt m (frameNo pml4) (pathTo w 3) _) (by decide) hc
  exact congrFun (h _ _ ht) _

/-- A call of `vmm_map_page` that returns. -/
def MapStep (pml4 : UInt64) (flags : UInt32) (s : Vm) (a : UInt64) (s' : Vm) : Prop :=
  vmm_map_page s pml4 a flags = .ok s'

/-- What the calls do to a page of the tree. -/
structure MapRun (pml4 : UInt64) (flags : UInt32) (s : Vm) (as : List UInt64) (s' : Vm) (w : UInt64) : Prop where
  same : SameTables s.ram s'.ram (frameNo pml4)
  untouched : (∀ a ∈ as, page w ≠ page a) → WalkKept s.ram s'.ram pml4 w
  touched : (∃ a ∈ as, page w = page a) → TablesPresent s.ram pml4 w ∧ Settled s'.ram pml4 flags w ∧
    (Settled s.ram pml4 flags w → leaf s'.ram pml4 w = leaf s.ram pml4 w)

theorem WalkKept.leaf (hT : PageTree s.ram (frameNo pml4)) (hs : SameTables s.ram s'.ram (frameNo pml4))
    (ht : TablesPresent s.ram pml4 w) (h : WalkKept s.ram s'.ram pml4 w) :
    Iridium.leaf s'.ram pml4 w = Iridium.leaf s.ram pml4 w := by
  rw [leaf_eq_slot, (tables_of_same hs).2 ht]
  exact h _ (leaf_mem_words hT ht)

/-- **Any number of calls** that return. -/
theorem map_run {C : Vm → UInt64 → Prop} {as : List UInt64} (hT : PageTree s.ram (frameNo pml4)) (hf : PageBits flags)
    (hp : present flags.toUInt64 = true) (h : Run (MapStep pml4 flags) C s as s') (w : UInt64) :
    MapRun pml4 flags s as s' w := by
  induction h with
  | nil => exact ⟨.refl _ _, fun _ _ _ => rfl, fun ⟨_, ha, _⟩ => absurd ha List.not_mem_nil⟩
  | @snoc as t u a hrun _ hstep ih =>
    have hTt := ih.same.tree hT
    have hsame := map_sameTables hTt hstep
    refine ⟨ih.same.trans hsame, fun hall => ?_, fun hex => ?_⟩
    · exact (ih.untouched fun a ha => hall a (List.mem_append_left _ ha)).trans
        (map_kept hTt hstep (hall a (by simp)))
    · by_cases hw : page w = page a
      · obtain ⟨ht, hset, hleaf⟩ := map_settles hTt hf hp hstep hw
        have hts := (tables_of_same ih.same).1.1 ht
        refine ⟨hts, hset, fun hs => ?_⟩
        -- up to here the leaf is what it was
        have heq : leaf t.ram pml4 w = leaf s.ram pml4 w := by
          by_cases hbefore : ∃ a ∈ as, page w = page a
          · exact (ih.touched hbefore).2.2 hs
          · exact (ih.untouched fun a ha he => hbefore ⟨a, ha, he⟩).leaf hT ih.same hts
        refine (hleaf ?_).trans heq
        rw [Settled, heq]
        exact hs
      · obtain ⟨b, hb, hwb⟩ := hex
        have hb : b ∈ as := by
          rcases List.mem_append.1 hb with hb | hb
          · exact hb
          · obtain rfl := List.mem_singleton.1 hb
            exact absurd hwb hw
        obtain ⟨hts, hset, hleaf⟩ := ih.touched ⟨b, hb, hwb⟩
        have heq := (map_kept hTt hstep hw).leaf hTt hsame ((tables_of_same ih.same).1.2 hts)
        exact ⟨hts, by rw [Settled, heq]; exact hset, fun hs => heq.trans (hleaf hs)⟩

/-- **A page is kept** if and only if it is not mapped, or had the rights of the flags. -/
theorem kept_iff {C : Vm → UInt64 → Prop} {as : List UInt64} (hT : PageTree s.ram (frameNo pml4)) (hf : PageBits flags)
    (hp : present flags.toUInt64 = true) (h : Run (MapStep pml4 flags) C s as s') (w : UInt64) :
    WalkKept s.ram s'.ram pml4 w ↔ ((∃ a ∈ as, page w = page a) → Settled s.ram pml4 flags w) := by
  have hrun := map_run hT hf hp h w
  constructor
  · intro hk hex
    obtain ⟨ht, hset, -⟩ := hrun.touched hex
    rw [Settled, ← hk.leaf hT hrun.same ht]
    exact hset
  · intro hs
    by_cases hex : ∃ a ∈ as, page w = page a
    · obtain ⟨ht, -, hleaf⟩ := hrun.touched hex
      have heq := hleaf (hs hex)
      rw [leaf_eq_slot s'.ram, (tables_of_same hrun.same).2 ht] at heq
      exact .of_leaf hT ht hrun.same heq
    · exact hrun.untouched fun a ha he => hex ⟨a, ha, he⟩

end Runs

/-! ### The loop of `kmalloc` -/

/-- How many pages it maps: one for every `0x1000` bytes, as long as its `int` is not negative. -/
def kmalloc_turns (n_bytes : UInt64) : ℕ := min ((n_bytes.toNat + 0xfff) / 0x1000) (2 ^ 19)

/-- The address that it maps in turn `k`. -/
def kmalloc_address (k : ℕ) : UInt64 := ALIGN_DOWN (UInt64.ofNat (DATA_START 0 + k * 0x30000))

/-- It is in every 48th page, from `0` on. -/
theorem page_kmalloc_address {k : ℕ} (hk : k < 2 ^ 19) : page (kmalloc_address k) = 48 * k := by
  have hlt : DATA_START 0 + k * 0x30000 < 2 ^ 64 := by
    unfold DATA_START KHEAP_BLOCK_SIZE
    omega
  rw [kmalloc_address, page_align, page, frameNo, UInt64.toNat_ofNat', Nat.mod_eq_of_lt hlt]
  unfold DATA_START KHEAP_BLOCK_SIZE
  omega

/-- The test of the loop in turn `k`. -/
theorem kmalloc_turn {n_bytes : UInt64} {k : ℕ} (hn : n_bytes ≤ HEAP_SIZE) (hk : k ≤ 2 ^ 19) :
    (Int32.ofNat (0x1000 * k)).toInt64.toUInt64 < n_bytes ↔ k < kmalloc_turns n_bytes := by
  have hext : (Int32.ofNat (0x1000 * k)).toInt64.toUInt64.toNat =
      (BitVec.signExtend 64 (BitVec.ofNat 32 (0x1000 * k))).toNat := rfl
  rw [BitVec.toNat_signExtend, BitVec.toNat_setWidth, BitVec.toNat_ofNat, BitVec.msb_eq_decide, BitVec.toNat_ofNat,
    Nat.mod_eq_of_lt (show 0x1000 * k < 2 ^ 32 by omega), Nat.mod_eq_of_lt (show 0x1000 * k < 2 ^ 64 by omega)] at hext
  have hheap : HEAP_SIZE.toNat = 2 ^ 32 := by decide
  rw [UInt64.le_iff_toNat_le, hheap] at hn
  rw [UInt64.lt_iff_toNat_lt, hext, kmalloc_turns]
  by_cases hlast : k = 2 ^ 19
  · -- the `int` is negative, and no size of the heap is above it
    subst hlast
    rw [if_pos (by decide)]
    omega
  · rw [if_neg (by simp; omega)]
    omega

/-- The variables of the loop after turn `k`. -/
theorem kmalloc_turn_i (k : ℕ) : Int32.ofNat (0x1000 * k) + 0x1000 = Int32.ofNat (0x1000 * (k + 1)) := by
  rw [Nat.mul_add, Int32.ofNat_add]
  rfl

theorem kmalloc_turn_tmp (k : ℕ) :
    DATA_START 0 + k * 0x30000 + 0x1000 * KHEAP_BLOCK_SIZE = DATA_START 0 + (k + 1) * 0x30000 := by
  unfold KHEAP_BLOCK_SIZE
  omega

/-- **The loop** maps its addresses one after the other. -/
theorem kmalloc_map_run {n_bytes : UInt64} {s s' : Vm} {fuel k : ℕ} (hn : n_bytes ≤ HEAP_SIZE)
    (hk : k ≤ kmalloc_turns n_bytes)
    (h : kmalloc_map n_bytes fuel s (Int32.ofNat (0x1000 * k)) (DATA_START 0 + k * 0x30000) = .ok s') :
    Run (MapStep s.cr3 (PAGE_PRESENT ||| PAGE_WRITABLE)) (fun _ _ => True) s
      ((List.range' k (kmalloc_turns n_bytes - k)).map kmalloc_address) s' := by
  have hmax : k ≤ 2 ^ 19 := Nat.le_trans hk (Nat.min_le_right _ _)
  induction fuel generalizing s k with
  | zero => cases h
  | succ fuel ih =>
    rw [kmalloc_map] at h
    split at h
    next hlt =>
      obtain ⟨t, ht, h⟩ := bind_ok.1 h
      have hturn := (kmalloc_turn hn hmax).1 hlt
      have hmax : k + 1 ≤ 2 ^ 19 := Nat.le_trans hturn (Nat.min_le_right _ _)
      rw [kmalloc_turn_i, kmalloc_turn_tmp] at h
      have hrest := ih hturn h hmax
      rw [(vmm_map_page_takes ht).cr3] at hrest
      have hlen : kmalloc_turns n_bytes - k = kmalloc_turns n_bytes - (k + 1) + 1 := by omega
      rw [hlen, List.range'_succ, List.map_cons]
      exact (Run.single trivial ht).trans hrest
    next hlt =>
      have hlast : kmalloc_turns n_bytes - k = 0 := by
        have := mt (kmalloc_turn hn hmax).2 hlt
        omega
      obtain rfl := Except.ok.inj h
      rw [hlast]
      exact .nil

/-- The addresses of a block. -/
def kmalloc_addresses (n_bytes : UInt64) : List UInt64 := (List.range (kmalloc_turns n_bytes)).map kmalloc_address

/-- **An allocation** that is not refused has mapped them. -/
theorem kmalloc_run {m m' : Mm} {n_bytes : UInt64} {p : ℕ} (hu : m.heap.Used m.heap.heap_tail)
    (h0 : m.heap.bytes_allocated = 0) (h : kmalloc m n_bytes = .ok (p, m')) (hp : ¬(p = 0 ∧ n_bytes ≠ 0)) :
    Run (MapStep m.vm.cr3 (PAGE_PRESENT ||| PAGE_WRITABLE)) (fun _ _ => True) m.vm (kmalloc_addresses n_bytes) m'.vm := by
  have hle : m.heap.bytes_allocated + n_bytes ≤ HEAP_SIZE := by
    rcases kmalloc_cases hu h with ⟨hgt, hz, -⟩ | ⟨hle, -⟩
    · refine absurd ⟨hz, fun hsize => ?_⟩ hp
      rw [h0, hsize] at hgt
      exact absurd hgt (by decide)
    · exact hle
  have hmap := kmalloc_maps hu hle h
  rw [h0, UInt64.zero_add] at hle
  have hi : (0 : Int32) = Int32.ofNat (0x1000 * 0) := rfl
  have htmp : DATA_START 0 = DATA_START 0 + 0 * 0x30000 := rfl
  rw [hi, htmp] at hmap
  have hrun := kmalloc_map_run hle (Nat.zero_le _) hmap
  rwa [Nat.sub_zero, ← List.range_eq_range'] at hrun

end Iridium
