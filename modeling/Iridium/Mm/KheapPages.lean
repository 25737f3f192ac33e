import Iridium.Mm.KheapUser
import Iridium.Mm.Mapping

/-!
# The pages of a block

`kmalloc` maps pages before it knows where the block goes: `region` is `NULL`, so its loop begins at address
`0` and takes a page every `0x30000` bytes from there. It takes no page the right to be written, and it maps
none of the heap: a block lies in pages that are present and writable when they were before
(`block_mapped_iff`).
-/

namespace Iridium

open Lib.Paging

/-- Every page that these addresses are in is present and writable. -/
def PagesMapped (s : Vm) (start stop : ℕ) : Prop :=
  ∀ a, start ≤ a → a < stop → ∃ h, translate s.ram s.cr3 (UInt64.ofNat a) = some h ∧ h.writable = true

/-- **The block at `p` can be used**: its header can be written behind the loop of `kmalloc`, where it is
written, and the header and the data afterwards. -/
structure BlockMapped (m m' : Mm) (n_bytes : UInt64) (p : ℕ) : Prop where
  header : ∀ s, kmalloc_map n_bytes (2 ^ 20) m.vm 0 (DATA_START 0) = .ok s →
    PagesMapped s (p - KHEAP_BLOCK_SIZE) p
  block : PagesMapped m'.vm (p - KHEAP_BLOCK_SIZE) (p + n_bytes.toNat)

section Loop

variable {n_bytes : UInt64} {s s' : Vm} {i : Int32} {tmp fuel start stop : ℕ}

/-- The loop takes nothing away. -/
theorem kmalloc_map_keeps (h : kmalloc_map n_bytes fuel s i tmp = .ok s') (hm : PagesMapped s start stop) :
    PagesMapped s' start stop := by
  induction fuel generalizing s i tmp with
  | zero => cases h
  | succ fuel ih =>
    rw [kmalloc_map] at h
    split at h
    · obtain ⟨t, ht, h⟩ := bind_ok.1 h
      refine ih h fun a h₁ h₂ => ?_
      rw [(vmm_map_page_takes ht).cr3]
      exact map_keeps_writable pageBits_kernel (by decide) ht (hm a h₁ h₂)
    · obtain rfl := Except.ok.inj h
      exact hm

/-- The page of an address is not changed by alignment. -/
theorem page_align (a : UInt64) : page (ALIGN_DOWN a) = page a := by
  rw [page, page, frameNo, frameNo, ALIGN_DOWN_toNat]
  congr 1
  omega

/-- **The loop stays low**: a page of the upper half is as it was, in a tree of tables. -/
theorem kmalloc_map_low (hT : PageTree s.ram (frameNo s.cr3))
    (h : kmalloc_map n_bytes fuel s i tmp = .ok s') (hlow : tmp + fuel * 0x30000 < 2 ^ 47) {a : UInt64}
    (ha : 2 ^ 35 ≤ page a) : translate s'.ram s'.cr3 a = translate s.ram s.cr3 a := by
  induction fuel generalizing s i tmp with
  | zero => cases h
  | succ fuel ih =>
    rw [kmalloc_map] at h
    split at h
    · obtain ⟨t, ht, h⟩ := bind_ok.1 h
      have hcr3 := (vmm_map_page_takes ht).cr3
      have hpage : page a ≠ page (ALIGN_DOWN (UInt64.ofNat tmp)) := by
        have htmp : (UInt64.ofNat tmp).toNat = tmp := UInt64.toNat_ofNat_of_lt' (by simp [UInt64.size]; omega)
        rw [page_align, page, page, frameNo, frameNo, htmp]
        rw [page, frameNo] at ha
        omega
      rw [ih (by rw [hcr3]; exact map_tree hT ht) h (by simp [KHEAP_BLOCK_SIZE]; omega), hcr3]
      exact map_others hT ht hpage
    · obtain rfl := Except.ok.inj h
      rfl

end Loop

section Block

variable {m m₀ m' : Mm} {cs : List HeapCall} {s : HeapUse} {n_bytes : UInt64} {p : ℕ}

/-- **In every state that is reached**, a block that is returned lies in mapped pages when the pages behind the
last block were mapped before; and only then, in a tree of tables and below `2^64`. -/
theorem block_mapped_iff (h₀ : kheap_init m = .ok m₀) (hr : Lib.Run HeapStep (fun _ _ => True) (.start m₀) cs s)
    (h : kmalloc s.mm n_bytes = .ok (p, m')) (hp : p ≠ 0) :
    (PagesMapped s.mm.vm s.mm.heap.fresh (DATA_START s.mm.heap.fresh + n_bytes.toNat) →
        BlockMapped s.mm m' n_bytes p) ∧
      (PageTree s.mm.vm.ram (frameNo s.mm.vm.cr3) → DATA_START s.mm.heap.fresh + n_bytes.toNat ≤ 2 ^ 64 →
        BlockMapped s.mm m' n_bytes p →
        PagesMapped s.mm.vm s.mm.heap.fresh (DATA_START s.mm.heap.fresh + n_bytes.toNat)) := by
  have hl := HeapUse.laid h₀ hr
  rcases kmalloc_cases hl.used h with ⟨-, rfl, -⟩ | ⟨hb, rfl, -⟩
  · exact absurd rfl hp
  have hmap := kmalloc_maps hl.used hb h
  have hheader : DATA_START s.mm.heap.fresh - KHEAP_BLOCK_SIZE = s.mm.heap.fresh := Nat.add_sub_cancel _ _
  constructor
  · intro hm
    refine ⟨fun vm hvm => ?_, ?_⟩
    · rw [hmap] at hvm
      obtain rfl := Except.ok.inj hvm
      rw [hheader]
      exact fun a h₁ h₂ => kmalloc_map_keeps hmap hm a h₁ (by omega)
    · rw [hheader]
      exact kmalloc_map_keeps hmap hm
  · intro hT hend hblock a h₁ h₂
    have hstart : HEAP_START_ADDR ≤ a := by
      have := hl.fresh
      omega
    have hpage : 2 ^ 35 ≤ page (UInt64.ofNat a) := by
      rw [page, frameNo, UInt64.toNat_ofNat_of_lt' (by simp [UInt64.size]; omega)]
      unfold HEAP_START_ADDR at hstart
      omega
    rw [← kmalloc_map_low hT hmap (by decide) hpage]
    exact hblock.block a (by rw [hheader]; exact h₁) h₂

end Block

/-- Memory before `kheap_init`: the first two megabytes are mapped, and one page of the heap. -/
def heapMm : Mm :=
  { bareMm with
    vm :=
      { bareMm.vm with
        ram := fun f i =>
          if f = 0x100 then if i = 0 then 0x101007 else if i = 256 then 0x104007 else 0
          else if f = 0x103 then (UInt64.ofNat i <<< 12) ||| 3
          else if i = 0 then
            if f = 0x101 then 0x102007
            else if f = 0x102 then 0x103007
            else if f = 0x104 then 0x105007
            else if f = 0x105 then 0x106007
            else if f = 0x106 then 0x107003
            else 0
          else 0 } }

/-- The addresses of one page are mapped together. -/
theorem pagesMapped_page {s : Vm} {h : Hit} {start stop : ℕ} (hw : h.writable = true)
    (ht : translate s.ram s.cr3 (UInt64.ofNat HEAP_START_ADDR) = some h) (h₁ : HEAP_START_ADDR ≤ start)
    (h₂ : stop ≤ HEAP_START_ADDR + 0x1000) : PagesMapped s start stop := by
  intro a ha hb
  have hpage : frameNo (UInt64.ofNat a) = frameNo (UInt64.ofNat HEAP_START_ADDR) := by
    unfold HEAP_START_ADDR at *
    rw [frameNo, frameNo, UInt64.toNat_ofNat_of_lt' (by simp [UInt64.size]; omega),
      UInt64.toNat_ofNat_of_lt' (by decide)]
    omega
  exact ⟨h, (walk_page hpage (by decide)).1.trans ht, hw⟩

/-- The heap after `kheap_init`, and its first block. -/
def firstBlock (n_bytes : UInt64) : Kern (Mm × ℕ × Mm) := do
  let m₀ ← kheap_init heapMm
  let (p, m') ← kmalloc m₀ n_bytes
  return (m₀, p, m')

theorem firstBlock_ok {n_bytes : UInt64} {r : Mm × ℕ × Mm} (h : firstBlock n_bytes = .ok r) :
    kheap_init heapMm = .ok r.1 ∧ kmalloc r.1 n_bytes = .ok r.2 := by
  obtain ⟨m₀, h₀, h⟩ := bind_ok.1 h
  obtain ⟨⟨p, m'⟩, hk, h⟩ := bind_ok.1 h
  obtain rfl := pure_ok.1 h
  exact ⟨h₀, hk⟩

/-- A third block, behind one that is in use and one that was freed, is in the page that is mapped. -/
theorem block_mapped_third : ∃ (s : HeapUse) (r : ℕ × Mm), s.live.map (·.size) = [100] ∧ kmalloc s.mm 16 = .ok r ∧
    r.1 = HEAP_START_ADDR + 300 ∧ BlockMapped s.mm r.2 16 r.1 := by
  have hc : answers (do
      let m ← kheap_init heapMm
      let s ← serves (fun _ _ => True) (.start m) [.kmalloc 8, .kmalloc 100, .kfree (HEAP_START_ADDR + 96)]
      let r ← kmalloc s.mm 16
      return (m, s, r)) (fun r => r.2.1.live.map (·.size) = [100] ∧ r.2.2.1 = HEAP_START_ADDR + 300 ∧
      r.2.1.mm.heap.fresh = HEAP_START_ADDR + 252 ∧
      translate r.2.1.mm.vm.ram r.2.1.mm.vm.cr3 (UInt64.ofNat HEAP_START_ADDR) = some ⟨0x107, true, false⟩) = true := by
    decide +kernel
  obtain ⟨⟨m, s, r⟩, hc, hb⟩ := answers_iff.1 hc
  obtain ⟨hlive, hp, hfresh, htrans⟩ := of_decide_eq_true hb
  obtain ⟨m', h₀, hc⟩ := bind_ok.1 hc
  obtain ⟨s', hs, hc⟩ := bind_ok.1 hc
  obtain ⟨r', hk, hc⟩ := bind_ok.1 hc
  obtain ⟨rfl, h⟩ := Prod.mk.inj (pure_ok.1 hc)
  obtain ⟨rfl, rfl⟩ := Prod.mk.inj h
  refine ⟨s', r', hlive, hk, hp, (block_mapped_iff h₀ (serves_ok hs) hk (by rw [hp]; decide)).1 ?_⟩
  rw [hfresh]
  exact pagesMapped_page rfl htrans (by decide) (by decide)

/-- One block of 4096 bytes: the loop maps page 0, and the block ends in the second page of the heap. -/
theorem not_block_mapped : ¬∀ m m₀ cs s n_bytes p m', kheap_init m = .ok m₀ →
    Lib.Run HeapStep (fun _ _ => True) (.start m₀) cs s → kmalloc s.mm n_bytes = .ok (p, m') → p ≠ 0 →
    BlockMapped s.mm m' n_bytes p := by
  intro h
  have hc : answers (firstBlock 0x1000) (fun r => r.2.1 = HEAP_START_ADDR + 96 ∧
      translate r.2.2.vm.ram r.2.2.vm.cr3 (UInt64.ofNat (HEAP_START_ADDR + 0x1000)) = none) = true := by
    decide +kernel
  obtain ⟨r, hr, hb⟩ := answers_iff.1 hc
  obtain ⟨hp, hnone⟩ := of_decide_eq_true hb
  obtain ⟨h₀, hk⟩ := firstBlock_ok hr
  have hblock := h _ _ _ (.start r.1) _ _ _ h₀ .nil hk (by rw [hp]; decide)
  obtain ⟨hit, hhit, -⟩ := hblock.block (HEAP_START_ADDR + 0x1000) (by rw [hp]; decide) (by rw [hp]; decide)
  rw [hnone] at hhit
  cases hhit

end Iridium
