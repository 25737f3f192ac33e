import Iridium.Common.Memcpy
import Iridium.Mm.MapRuns

/-!
# Blocks that get another size

`krealloc`, of `mm/kheap.c`: a block of `n_bytes`, `n_bytes` copied from the old one, which is then given
back. The size of the old block stands in its header, and `krealloc` does not look at it; nor does it look
at the answer of `kmalloc`. So it does what it should for a block that does not grow (`realloc_iff`), and
copies what lies behind the block for one that does, to `NULL` when there is no memory.
-/

namespace Iridium

open Lib

/-- `krealloc`. -/
def krealloc (m : Mm) (old : ℕ) (n_bytes : UInt64) : Traced Access Halt (ℕ × Mm) := do
  let (new, m) ← Traced.lift (kmalloc m n_bytes)
  let bytes ← memcpy m.bytes new old n_bytes.toNat
  let heap ← Traced.lift (kfree m.heap old)
  return (new, { m with bytes, heap })

/-! ### When an allocation returns -/

/-- The calls of `vmm_map_page` that `kmalloc` makes for a block return, one after the other. -/
def PagesMappable (s : Vm) (n_bytes : UInt64) : Prop :=
  ∃ s', Run (MapStep s.cr3 (PAGE_PRESENT ||| PAGE_WRITABLE)) (fun _ _ => True) s (kmalloc_addresses n_bytes) s'

section Returns

variable {m m' : Mm} {n_bytes : UInt64}

/-- **The loop** ends when its calls return. -/
theorem kmalloc_map_of_run {s s' : Vm} {fuel k : ℕ} (hn : n_bytes ≤ HEAP_SIZE) (hk : k ≤ kmalloc_turns n_bytes)
    (hf : kmalloc_turns n_bytes - k < fuel)
    (h : Run (MapStep s.cr3 (PAGE_PRESENT ||| PAGE_WRITABLE)) (fun _ _ => True) s
      ((List.range' k (kmalloc_turns n_bytes - k)).map kmalloc_address) s') :
    kmalloc_map n_bytes fuel s (Int32.ofNat (0x1000 * k)) (DATA_START 0 + k * 0x30000) = .ok s' := by
  have hmax : k ≤ 2 ^ 19 := Nat.le_trans hk (Nat.min_le_right _ _)
  induction fuel generalizing s k with
  | zero => omega
  | succ fuel ih =>
    rw [kmalloc_map]
    by_cases hlt : k < kmalloc_turns n_bytes
    · have hlen : kmalloc_turns n_bytes - k = kmalloc_turns n_bytes - (k + 1) + 1 := by omega
      rw [hlen, List.range'_succ, List.map_cons] at h
      obtain ⟨t, -, ht, hrest⟩ := h.cons_split rfl
      rw [if_pos ((kmalloc_turn hn hmax).2 hlt)]
      refine bind_ok.2 ⟨t, ht, ?_⟩
      rw [kmalloc_turn_i, kmalloc_turn_tmp]
      refine ih hlt (by omega) ?_ (Nat.le_trans hlt (Nat.min_le_right _ _))
      rwa [(vmm_map_page_takes ht).cr3]
    · have hlen : kmalloc_turns n_bytes - k = 0 := by omega
      rw [hlen] at h
      obtain rfl := h.of_nil rfl
      rw [if_neg (mt (kmalloc_turn hn hmax).1 hlt)]

/-- **An allocation** of at most `HEAP_SIZE` bytes returns if and only if its pages can be mapped. -/
theorem kmalloc_returns_iff (hu : m.heap.Used m.heap.heap_tail) (h0 : m.heap.bytes_allocated = 0)
    (hn : n_bytes ≤ HEAP_SIZE) : (∃ p m', kmalloc m n_bytes = .ok (p, m')) ↔ PagesMappable m.vm n_bytes := by
  have hle : m.heap.bytes_allocated + n_bytes ≤ HEAP_SIZE := by rwa [h0, UInt64.zero_add]
  constructor
  · rintro ⟨p, m', h⟩
    have hp : p ≠ 0 := by
      rcases kmalloc_cases hu h with ⟨hgt, -⟩ | ⟨-, rfl, -⟩
      · exact absurd hle (UInt64.not_le.2 hgt)
      · unfold DATA_START KHEAP_BLOCK_SIZE
        omega
    exact ⟨m'.vm, kmalloc_run hu h0 h fun hz => hp hz.1⟩
  · rintro ⟨vm, h⟩
    obtain ⟨heap, hf⟩ := first_fit_returns n_bytes hu
    rw [kmalloc_addresses, List.range_eq_range'] at h
    have hturns : kmalloc_turns n_bytes < 2 ^ 20 :=
      Nat.lt_of_le_of_lt (Nat.min_le_right _ _) (by decide)
    have hmap := kmalloc_map_of_run (k := 0) hn (Nat.zero_le _) (by omega) h
    exact ⟨_, _, by
      unfold kmalloc
      rw [if_neg (UInt64.not_lt.2 hle)]
      exact bind_ok.2 ⟨_, hf, bind_ok.2 ⟨_, hmap, rfl⟩⟩⟩

end Returns

/-! ### What `krealloc` should do -/

/-- The block is in use, with its size and its contents. -/
structure HeapBlock.KeptIn (b : HeapBlock) (m m' : Mm) : Prop where
  in_use : (m'.heap.block b.header).is_free = false
  size : (m'.heap.block b.header).size = b.size
  data : ∀ a ∈ b.data, m'.bytes a = m.bytes a

/-- **The block `b` gets another size**: `p` is a block of `n_bytes` bytes apart from the others, which
begins as `b` does, or `NULL` when there is no memory; and nothing else changes. -/
structure HeapUse.Reallocated (s : HeapUse) (b : HeapBlock) (n_bytes : UInt64) (p : ℕ) (m' : Mm)
    (deeds : List Access) : Prop where
  null : p = 0 ↔ HEAP_SIZE < s.mm.heap.bytes_allocated + n_bytes
  in_use : p ≠ 0 → (m'.heap.block (p - KHEAP_BLOCK_SIZE)).is_free = false
  size : p ≠ 0 → (m'.heap.block (p - KHEAP_BLOCK_SIZE)).size = n_bytes
  apart : p ≠ 0 → ∀ c ∈ s.live, Disjoint (Set.Ico p (p + n_bytes.toNat)) c.data
  contents : p ≠ 0 → ∀ i < min b.size.toNat n_bytes.toNat, m'.bytes (p + i) = s.mm.bytes (b.addr + i)
  /-- Only the old block is read. -/
  reads : ∀ a, .read a ∈ deeds → a ∈ b.data
  quiet : p = 0 → (∀ a, .write a ∉ deeds) ∧ b.KeptIn s.mm m'
  others : ∀ c ∈ s.live, c ≠ b → c.KeptIn s.mm m'

/-- The call returns, and has done that. -/
def HeapUse.Reallocs (s : HeapUse) (b : HeapBlock) (n_bytes : UInt64) : Prop :=
  ∃ p m', (krealloc s.mm b.addr n_bytes).result = .ok (p, m') ∧
    s.Reallocated b n_bytes p m' (krealloc s.mm b.addr n_bytes).deeds

section Reallocs

variable {m m' : Mm} {s s' : HeapUse} {b c : HeapBlock} {n_bytes : UInt64} {old p : ℕ}

/-- **It returns when `kmalloc` does**, with what it returns. -/
theorem krealloc_ok : (krealloc m old n_bytes).result = .ok (p, m') ↔
    ∃ m₁, kmalloc m n_bytes = .ok (p, m₁) ∧ m' = { m₁ with bytes := copy_bytes m.bytes p old n_bytes.toNat } := by
  have hrest : ∀ {q : ℕ} {m₁ : Mm}, kmalloc m n_bytes = .ok (q, m₁) → (krealloc m old n_bytes).result =
      .ok (q, { m₁ with bytes := copy_bytes m.bytes q old n_bytes.toNat }) := by
    intro q m₁ hk
    rw [krealloc, Traced.result_bind, Traced.result_lift, hk]
    show (memcpy m₁.bytes q old n_bytes.toNat >>= _ : Traced Access Halt (ℕ × Mm)).result = _
    rw [Traced.result_bind, memcpy_result, kmalloc_bytes hk, kfree_eq]
    rfl
  constructor
  · intro h
    cases hk : kmalloc m n_bytes with
    | error e =>
      rw [krealloc, Traced.result_bind, Traced.result_lift, hk] at h
      cases h
    | ok r =>
      obtain ⟨q, m₁⟩ := r
      rw [hrest hk] at h
      obtain ⟨rfl, rfl⟩ := Prod.mk.inj (Except.ok.inj h)
      exact ⟨m₁, rfl, rfl⟩
  · rintro ⟨m₁, hk, rfl⟩
    exact hrest hk

/-- What it does to memory is what the copy does. -/
theorem krealloc_deeds {m₁ : Mm} (hk : kmalloc m n_bytes = .ok (p, m₁)) :
    (krealloc m old n_bytes).deeds = (memcpy m.bytes p old n_bytes.toNat).deeds := by
  rw [krealloc, hk, Traced.lift_ok_bind]
  show (memcpy m₁.bytes p old n_bytes.toNat >>= _ : Traced Access Halt (ℕ × Mm)).deeds = _
  rw [Traced.deeds_bind_ok memcpy_result, kmalloc_bytes hk, kfree_eq]
  exact List.append_nil _

/-- A block that grows is read behind its end. -/
theorem HeapUse.Reallocated.le {m₁ : Mm} (hk : kmalloc s.mm n_bytes = .ok (p, m₁))
    (h : s.Reallocated b n_bytes p m' (krealloc s.mm b.addr n_bytes).deeds) : n_bytes ≤ b.size := by
  by_contra hlt
  have hlt := UInt64.lt_iff_toNat_lt.1 (UInt64.not_le.1 hlt)
  have hread := h.reads (b.addr + b.size.toNat)
  rw [krealloc_deeds hk, memcpy_reads] at hread
  exact Nat.lt_irrefl _ (hread ⟨by omega, by omega⟩).2

/-- **A block that does not grow** gets its new size. -/
theorem HeapUse.Laid.reallocated {m₁ : Mm} (hl : s.Laid) (hb : b ∈ s.live)
    (hle : s.mm.heap.bytes_allocated + n_bytes ≤ HEAP_SIZE) (hn : n_bytes ≤ b.size)
    (hk : kmalloc s.mm n_bytes = .ok (p, m₁)) :
    s.Reallocated b n_bytes p { m₁ with bytes := copy_bytes s.mm.bytes p b.addr n_bytes.toNat }
      (krealloc s.mm b.addr n_bytes).deeds := by
  have hblocks : ∀ {c}, c ∈ s.live → c ∈ s.blocks := fun hc => List.mem_cons_of_mem _ (hl.live.subset hc)
  rcases kmalloc_cases hl.used hk with ⟨hgt, -⟩ | ⟨-, rfl, ha⟩
  · exact absurd hle (UInt64.not_le.2 hgt)
  have hn := UInt64.le_iff_toNat_le.1 hn
  have hdata : DATA_START s.mm.heap.fresh = s.mm.heap.fresh + 48 := rfl
  have hheader : DATA_START s.mm.heap.fresh - KHEAP_BLOCK_SIZE = s.mm.heap.fresh := Nat.add_sub_cancel _ _
  have hbefore : ∀ {c}, c ∈ s.live → c.addr + c.size.toNat ≤ s.mm.heap.fresh ∧ c.header < s.mm.heap.fresh :=
    fun hc => by
      have hlast := hl.last _ (hblocks hc)
      have haddr := hl.addr (hblocks hc)
      omega
  have hp : DATA_START s.mm.heap.fresh ≠ 0 := by omega
  refine ⟨?_, fun _ => ?_, fun _ => ?_, fun _ c hc => ?_, fun _ i hi => ?_, fun a ha => ?_, fun hz => absurd hz hp,
    fun c hc _ => ⟨?_, ?_, fun a ha => ?_⟩⟩
  · exact iff_of_false hp (UInt64.not_lt.2 hle)
  · rw [hheader]
    exact ha.new_free
  · rw [hheader]
    exact ha.new_size
  · rw [Set.disjoint_left]
    rintro a ⟨h₁, -⟩ ⟨-, h₂⟩
    have := (hbefore hc).1
    omega
  · have := (hbefore hb).1
    exact copy_bytes_inside (by omega) (by omega)
  · rw [krealloc_deeds hk, memcpy_reads] at ha
    exact ⟨ha.1, by omega⟩
  · exact (ha.is_free (hbefore hc).2.ne).trans (hl.in_use c (hblocks hc))
  · exact (ha.size (hbefore hc).2.ne).trans (hl.size c (hblocks hc))
  · have := (hbefore hc).1
    have := ha.2
    exact copy_bytes_outside (.inl (by omega))

/-- In every state that is reached, no block in use is larger than the heap. -/
theorem HeapUse.laid_size {m₀ : Mm} {C : HeapUse → HeapCall → Prop} {cs : List HeapCall}
    (hm : m.heap.bytes_allocated = 0) (h₀ : kheap_init m = .ok m₀) (h : Run HeapStep C (.start m₀) cs s) :
    (s.Laid ∧ s.mm.heap.bytes_allocated = 0) ∧ ∀ b ∈ s.live, b.size ≤ HEAP_SIZE := by
  refine h.invariant (I := fun s => (s.Laid ∧ s.mm.heap.bytes_allocated = 0) ∧ ∀ b ∈ s.live, b.size ≤ HEAP_SIZE)
    ⟨HeapUse.laid_counter hm h₀ (C := C) .nil, fun b hb => absurd hb List.not_mem_nil⟩ fun {s s' c} hs _ hc => ?_
  obtain ⟨⟨hl, h0⟩, hsize⟩ := hs
  have hdoes := hc.does hl.used
  refine ⟨⟨hl.served hc, hdoes.bytes_allocated.trans h0⟩, fun b hb => ?_⟩
  cases hdoes with
  | nothing _ _ _ hlive _ => exact hsize b (hlive.subset hb)
  | block _ hle _ _ _ hlive _ =>
    rw [hlive] at hb
    rcases List.mem_append.1 hb with hb | hb
    · exact hsize b hb
    · rw [List.mem_singleton.1 hb, HeapUse.fresh_block_size]
      rwa [h0, UInt64.zero_add] at hle

end Reallocs

/-- **In every state that is reached**, `krealloc` does what it should to a block in use if and only if the
block does not grow, and its new pages can be mapped. -/
theorem realloc_iff {m m₀ : Mm} {cs : List HeapCall} {s : HeapUse} {b : HeapBlock}
    (hm : m.heap.bytes_allocated = 0) (h₀ : kheap_init m = .ok m₀)
    (h : Run HeapStep (fun _ _ => True) (.start m₀) cs s) (hb : b ∈ s.live) (n_bytes : UInt64) :
    s.Reallocs b n_bytes ↔ n_bytes ≤ b.size ∧ PagesMappable s.mm.vm n_bytes := by
  obtain ⟨⟨hl, h0⟩, hsize⟩ := HeapUse.laid_size hm h₀ h
  constructor
  · rintro ⟨p, m', hr, hre⟩
    obtain ⟨m₁, hk, -⟩ := krealloc_ok.1 hr
    have hn := hre.le hk
    exact ⟨hn, (kmalloc_returns_iff hl.used h0 (UInt64.le_trans hn (hsize b hb))).1 ⟨p, m₁, hk⟩⟩
  · rintro ⟨hn, hpages⟩
    have hle := UInt64.le_trans hn (hsize b hb)
    obtain ⟨p, m₁, hk⟩ := (kmalloc_returns_iff hl.used h0 hle).2 hpages
    exact ⟨p, _, krealloc_ok.2 ⟨m₁, hk, rfl⟩, hl.reallocated hb (by rwa [h0, UInt64.zero_add]) hn hk⟩

/-- The heap with two blocks in use, and behind them one that was freed. -/
theorem twoBlocks : ∃ m₀ s, kheap_init bareMm = .ok m₀ ∧
    Run HeapStep (fun _ _ => True) (.start m₀)
      [.kmalloc 8, .kmalloc_user 16, .kmalloc 4, .kfree (HEAP_START_ADDR + 216)] s ∧
    s.live = [⟨HEAP_START_ADDR + 96, 8, false⟩, ⟨HEAP_START_ADDR + 152, 16, true⟩] ∧ PagesMappable s.mm.vm 4 := by
  obtain ⟨m₀, s, h₀, hr, hs⟩ := heapTraces_true (fun _ _ => True)
    (fun s => s.live = [⟨HEAP_START_ADDR + 96, 8, false⟩, ⟨HEAP_START_ADDR + 152, 16, true⟩] ∧
      answers (vmm_map_page s.mm.vm s.mm.vm.cr3 0 (PAGE_PRESENT ||| PAGE_WRITABLE)) (fun _ => true) = true)
    [.kmalloc 8, .kmalloc_user 16, .kmalloc 4, .kfree (HEAP_START_ADDR + 216)] (by decide +kernel)
  obtain ⟨hlive, hmap⟩ := of_decide_eq_true hs
  obtain ⟨vm, hvm, -⟩ := answers_iff.1 hmap
  exact ⟨m₀, s, h₀, hr, hlive, vm, Run.single trivial hvm⟩

/-- The block of 16 bytes becomes one of 4. -/
theorem realloc_smaller : ∃ s : HeapUse,
    s.live = [⟨HEAP_START_ADDR + 96, 8, false⟩, ⟨HEAP_START_ADDR + 152, 16, true⟩] ∧
    s.Reallocs ⟨HEAP_START_ADDR + 152, 16, true⟩ 4 := by
  obtain ⟨m₀, s, h₀, hr, hlive, hpages⟩ := twoBlocks
  refine ⟨s, hlive, (realloc_iff rfl h₀ hr ?_ 4).2 ⟨by decide, hpages⟩⟩
  rw [hlive]
  decide

/-- The block of 8 bytes is to become one of 16: the copy reads the byte behind it. -/
theorem not_reallocs : ¬∀ m m₀ cs s b n_bytes, m.heap.bytes_allocated = 0 → kheap_init m = .ok m₀ →
    Run HeapStep (fun _ _ => True) (.start m₀) cs s → b ∈ s.live → s.Reallocs b n_bytes := by
  intro hall
  obtain ⟨m₀, s, h₀, hr, hlive, -⟩ := twoBlocks
  have hb : (⟨HEAP_START_ADDR + 96, 8, false⟩ : HeapBlock) ∈ s.live := by
    rw [hlive]
    decide
  obtain ⟨p, m', hres, hre⟩ := hall _ _ _ _ _ 16 rfl h₀ hr hb
  obtain ⟨m₁, hk, -⟩ := krealloc_ok.1 hres
  exact absurd (hre.le hk) (by decide)

end Iridium
