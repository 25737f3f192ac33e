import Iridium.Mm.Vmm

/-!
# The kernel heap

`mm/kheap.c`: blocks in one linked list, each with a header of 48 bytes before its
data. A block is found by first fit or put behind the last one, `heap_head`. The argument of
`DATA_START(heap_head + heap_head->size)` has no parentheses in the macro, so its cast takes
`heap_head` alone and the size is added in bytes: the next header begins where the data of the
last block ends, at any alignment.

Addresses are natural numbers; `0` is `NULL`. Headers live in a store of their own, apart from
the data of the blocks, and both apart from the frames. Only the stores of the loader (`Mm.store8`)
are followed into the buffers that they reach through the page tables.
-/

namespace Iridium

def KHEAP_MAG : UInt64 := 0xCA75C001
def HEAP_SIZE : UInt64 := 4 * 0x40000000
def HEAP_START_ADDR : ℕ := 0xFFFF800000000000

/-- `sizeof(struct KHeapBlock)`. -/
def KHEAP_BLOCK_SIZE : ℕ := 48

/-- `struct KHeapBlock`. -/
structure KHeapBlock where
  is_free : Bool
  mag : UInt64
  size : UInt64
  next : ℕ
  prev : ℕ

/-- The static state of `mm/kheap.c`, and the headers in memory. -/
structure KHeap where
  /-- The header at each address. -/
  block : ℕ → KHeapBlock
  heap_head : ℕ
  heap_tail : ℕ
  bytes_allocated : UInt64

/-- The memory management of the kernel. -/
structure Mm where
  /-- Frames and page tables. -/
  vm : Vm
  /-- The heap. -/
  heap : KHeap
  /-- The bytes of the buffers on the heap. -/
  bytes : ℕ → UInt8
  /-- Memory as the loaded modules lie in it. -/
  module : UInt64 → UInt8
  /-- Where the initial ramdisk begins. -/
  initrd : UInt64

/-- A byte stored at a virtual address. Where a buffer on the heap lies there, it is a byte of the buffer. -/
def Mm.store8 (m : Mm) (a : UInt64) (b : UInt8) : Kern Mm := do
  let vm ← write8 m.vm a b
  let bytes := fun p => if p < 2 ^ 64 ∧ same_byte m.vm a (UInt64.ofNat p) then b else m.bytes p
  return { m with vm, bytes }

/-- `DATA_START`. -/
def DATA_START (mem_block : ℕ) : ℕ := mem_block + KHEAP_BLOCK_SIZE

/-- The loop of `first_fit`, which sets the back links as it goes. -/
def first_fit_from (sz : UInt64) : ℕ → KHeap → ℕ → Option (ℕ × KHeap)
  | 0, _, _ => none
  | fuel + 1, h, block =>
    if block = 0 then some (0, h)
    else
      let b := h.block block
      if b.is_free ∧ b.size ≥ sz then some (block, h)
      else if b.next ≠ 0 then
        let next := { h.block b.next with prev := block }
        first_fit_from sz fuel { h with block := Function.update h.block b.next next } b.next
      else first_fit_from sz fuel h b.next

/-- `first_fit`. No block lies above `heap_head`, so a longer walk goes in circles. -/
def first_fit (h : KHeap) (sz : UInt64) : Kern (ℕ × KHeap) := do
  ASSERT (h.heap_head ≠ 0)
  ofFuel (first_fit_from sz (h.heap_head + 1) h h.heap_tail)

/-- The loop of `kmalloc` that maps pages: `i` is an `int`, and `tmp` moves by `0x1000`
headers. -/
def kmalloc_map (n_bytes : UInt64) : ℕ → Vm → Int32 → ℕ → Kern Vm
  | 0, _, _, _ => .error .endless
  | fuel + 1, s, i, tmp =>
    if i.toInt64.toUInt64 < n_bytes then do
      let s ← vmm_map_page s s.cr3 (ALIGN_DOWN (UInt64.ofNat tmp)) (PAGE_PRESENT ||| PAGE_WRITABLE)
      kmalloc_map n_bytes fuel s (i + 0x1000) (tmp + 0x1000 * KHEAP_BLOCK_SIZE)
    else .ok s

/-- `kmalloc`. The index of its loop comes back to where it was after `2^20` turns. -/
def kmalloc (m : Mm) (n_bytes : UInt64) : Kern (ℕ × Mm) := do
  if m.heap.bytes_allocated + n_bytes > HEAP_SIZE then return (0, m)
  let (region, heap) ← first_fit m.heap n_bytes
  let vm ← kmalloc_map n_bytes (2 ^ 20) m.vm 0 (DATA_START region)
  if region = 0 then
    -- more space is needed: the new block goes behind the last one
    let head := heap.block heap.heap_head
    let next := DATA_START (heap.heap_head + head.size.toNat)
    let block := Function.update heap.block heap.heap_head { head with next := next }
    let new : KHeapBlock :=
      { is_free := false, size := n_bytes, next := 0, prev := heap.heap_head, mag := KHEAP_MAG }
    let heap := { heap with block := Function.update block next new, heap_head := next }
    return (DATA_START next, { m with vm, heap })
  return (DATA_START region, { m with vm, heap })

/-- The loop of `kmalloc_user`: every page from `i` up to the end of the block. -/
def kmalloc_user_map (stop : ℕ) : ℕ → Vm → ℕ → Kern Vm
  | 0, _, _ => .error .endless
  | fuel + 1, s, i =>
    if i < stop then do
      let s ← vmm_map_page s s.cr3 (UInt64.ofNat i) (PAGE_PRESENT ||| PAGE_WRITABLE ||| PAGE_USER)
      kmalloc_user_map stop fuel s (i + 0x1000)
    else .ok s

/-- `kmalloc_user`. -/
def kmalloc_user (m : Mm) (n_bytes : UInt64) : Kern (ℕ × Mm) := do
  let (block, m) ← kmalloc m n_bytes
  let vm ← kmalloc_user_map (block + n_bytes.toNat) (n_bytes.toNat / 0x1000 + 3) m.vm
    (ALIGN_DOWN (UInt64.ofNat block)).toNat
  return (block, { m with vm })

/-- The loop of `kfree`. -/
def kfree_from (block : ℕ) : ℕ → KHeap → ℕ → Option KHeap
  | 0, _, _ => none
  | fuel + 1, h, cur_block =>
    if cur_block ≠ 0 ∧ block ≠ DATA_START cur_block then
      let b := { h.block cur_block with is_free := true }
      kfree_from block fuel { h with block := Function.update h.block cur_block b } b.next
    else some h

/-- `kfree`. -/
def kfree (h : KHeap) (block : ℕ) : Kern KHeap :=
  let region := block - KHEAP_BLOCK_SIZE
  if (h.block region).mag ≠ KHEAP_MAG then .ok h
  else ofFuel (kfree_from block (h.heap_head + 1) h region)

/-- `kheap_init`. -/
def kheap_init (m : Mm) : Kern Mm := do
  let vm ← vmm_map_page m.vm m.vm.cr3 (UInt64.ofNat HEAP_START_ADDR) (PAGE_PRESENT ||| PAGE_WRITABLE)
  let new : KHeapBlock := { is_free := false, mag := KHEAP_MAG, size := 0, next := 0, prev := 0 }
  let heap := { m.heap with block := Function.update m.heap.block HEAP_START_ADDR new,
                            heap_head := HEAP_START_ADDR, heap_tail := HEAP_START_ADDR }
  return { m with vm, heap }

/-! ### No block is ever free again

`kfree` looks for the block it is given from that block on, so its loop ends before it has
marked anything. Every allocation finds nothing and goes behind the last block: addresses
only grow. -/

/-- **`kfree` frees nothing.** -/
theorem kfree_eq (h : KHeap) (block : ℕ) : kfree h block = .ok h := by
  unfold kfree
  dsimp only
  split
  · rfl
  · have hstop : ¬(block - KHEAP_BLOCK_SIZE ≠ 0 ∧ block ≠ DATA_START (block - KHEAP_BLOCK_SIZE)) := by
      unfold DATA_START KHEAP_BLOCK_SIZE
      omega
    simp [kfree_from, hstop, ofFuel]

/-- From the block at `a` to the last one all blocks are in use, each above the one before. -/
inductive KHeap.Used (h : KHeap) : ℕ → Prop
  | last : h.heap_head ≠ 0 → (h.block h.heap_head).is_free = false →
      (h.block h.heap_head).next = 0 → Used h h.heap_head
  | cons {a : ℕ} : a ≠ 0 → (h.block a).is_free = false → a < (h.block a).next →
      Used h (h.block a).next → Used h a

/-- The two heaps differ in back links at most. -/
structure KHeap.SameBlocks (h h' : KHeap) : Prop where
  head : h'.heap_head = h.heap_head
  tail : h'.heap_tail = h.heap_tail
  bytes_allocated : h'.bytes_allocated = h.bytes_allocated
  block : ∀ a, { h'.block a with prev := 0 } = { h.block a with prev := 0 }

namespace KHeap

variable {h h' : KHeap} {a : ℕ}

@[refl] theorem SameBlocks.refl (h : KHeap) : h.SameBlocks h := ⟨rfl, rfl, rfl, fun _ => rfl⟩

theorem SameBlocks.trans {h'' : KHeap} (h₁ : h.SameBlocks h') (h₂ : h'.SameBlocks h'') :
    h.SameBlocks h'' :=
  ⟨h₂.head.trans h₁.head, h₂.tail.trans h₁.tail, h₂.bytes_allocated.trans h₁.bytes_allocated,
    fun a => (h₂.block a).trans (h₁.block a)⟩

theorem SameBlocks.next (hs : h.SameBlocks h') (a : ℕ) : (h'.block a).next = (h.block a).next :=
  (KHeapBlock.mk.injEq .. ▸ hs.block a).2.2.2.1

theorem SameBlocks.is_free (hs : h.SameBlocks h') (a : ℕ) :
    (h'.block a).is_free = (h.block a).is_free :=
  (KHeapBlock.mk.injEq .. ▸ hs.block a).1

theorem SameBlocks.size (hs : h.SameBlocks h') (a : ℕ) : (h'.block a).size = (h.block a).size :=
  (KHeapBlock.mk.injEq .. ▸ hs.block a).2.2.1

theorem Used.ne_zero (hu : h.Used a) : a ≠ 0 := by cases hu <;> assumption

theorem Used.not_free (hu : h.Used a) : (h.block a).is_free = false := by cases hu <;> assumption

/-- No block lies above the last one. -/
theorem Used.le (hu : h.Used a) : a ≤ h.heap_head := by
  induction hu with
  | last => exact Nat.le_refl _
  | cons _ _ hlt _ ih => omega

theorem Used.same (hu : h.Used a) (hs : h.SameBlocks h') : h'.Used a := by
  induction hu with
  | last h0 hf hn =>
    have hl : h'.heap_head = h.heap_head := hs.head
    rw [← hl] at h0 hf hn ⊢
    exact .last h0 ((hs.is_free _).trans hf) ((hs.next _).trans hn)
  | cons h0 hf hlt _ ih =>
    refine .cons h0 ((hs.is_free _).trans hf) ?_ ?_
    · rwa [hs.next]
    · rwa [hs.next]

end KHeap

/-- First fit in a heap without free blocks finds none. -/
theorem first_fit_ok {h h' : KHeap} {sz : UInt64} {r : ℕ} (hu : h.Used h.heap_tail)
    (hr : first_fit h sz = .ok (r, h')) : r = 0 ∧ h.SameBlocks h' := by
  have key : ∀ {fuel : ℕ} {g : KHeap} {a : ℕ}, (a = 0 ∨ g.Used a) →
      first_fit_from sz fuel g a = some (r, h') → r = 0 ∧ g.SameBlocks h' := by
    intro fuel
    induction fuel with
    | zero => simp [first_fit_from]
    | succ fuel ih =>
      rintro g a (rfl | hu) h
      · obtain ⟨rfl, rfl⟩ : 0 = r ∧ g = h' := by simpa [first_fit_from] using h
        exact ⟨rfl, .refl _⟩
      · unfold first_fit_from at h
        simp only [hu.ne_zero, hu.not_free, Bool.false_eq_true, false_and, if_false] at h
        cases hu with
        | last _ _ hn =>
          rw [hn] at h
          exact ih (.inl rfl) h
        | cons _ _ hlt hu =>
          rw [if_pos (by omega)] at h
          have hs : g.SameBlocks
              { g with
                block := Function.update g.block (g.block a).next
                  { g.block (g.block a).next with prev := a } } := by
            refine ⟨rfl, rfl, rfl, fun b => ?_⟩
            by_cases hb : b = (g.block a).next
            · subst hb
              simp
            · simp [Function.update_of_ne hb]
          obtain ⟨h0, hs'⟩ := ih (.inr (hu.same hs)) h
          exact ⟨h0, hs.trans hs'⟩
  obtain ⟨-, -, h⟩ := bind_ok.1 hr
  exact key (.inr hu) (ofFuel_ok.1 h)

/-- A block put behind the last one, above it. -/
theorem KHeap.Used.grow {h : KHeap} {n : ℕ} {new : KHeapBlock} (hu : h.Used h.heap_tail)
    (hn : h.heap_head < n) (hf : new.is_free = false) (hnext : new.next = 0) :
    KHeap.Used
      { h with
        heap_head := n
        block := Function.update
          (Function.update h.block h.heap_head { h.block h.heap_head with next := n }) n new }
      h.heap_tail := by
  generalize hg : KHeap.mk (Function.update
    (Function.update h.block h.heap_head { h.block h.heap_head with next := n }) n new) n
    h.heap_tail h.bytes_allocated = g
  have hghead : g.heap_head = n := by rw [← hg]
  have hgn : g.block n = new := by rw [← hg]; simp
  have hlast : g.Used n := by
    have := KHeap.Used.last (h := g)
    rw [hghead, hgn] at this
    exact this (by omega) hf hnext
  -- down the chain of the old blocks: only the last one has a new successor
  generalize h.heap_tail = a at hu
  induction hu with
  | last h0 hfree =>
    have hne : h.heap_head ≠ n := by omega
    have hb : g.block h.heap_head = { h.block h.heap_head with next := n } := by
      rw [← hg]; simp [Function.update_of_ne hne]
    exact .cons h0 (by rw [hb]; exact hfree) (by rw [hb]; exact hn) (by rw [hb]; exact hlast)
  | @cons a h0 hfree hlt hu ih =>
    have hle := hu.le
    have hb : g.block a = h.block a := by
      rw [← hg]; simp [Function.update_of_ne (show a ≠ n by omega),
        Function.update_of_ne (show a ≠ h.heap_head by omega)]
    exact .cons h0 (by rw [hb]; exact hfree) (by rw [hb]; exact hlt) (by rw [hb]; exact ih)

/-- `m'` comes from `m` by allocations and by writing to memory. -/
structure Mm.Grows (m m' : Mm) : Prop where
  vm : m.vm.Takes m'.vm
  module : m'.module = m.module
  initrd : m'.initrd = m.initrd
  bytes_allocated : m'.heap.bytes_allocated = m.heap.bytes_allocated
  head : m.heap.heap_head ≤ m'.heap.heap_head
  used : m.heap.Used m.heap.heap_tail → m'.heap.Used m'.heap.heap_tail

@[refl] theorem Mm.Grows.refl (m : Mm) : m.Grows m := ⟨.refl _, rfl, rfl, rfl, Nat.le_refl _, id⟩

theorem Mm.Grows.trans {m m' m'' : Mm} (h₁ : m.Grows m') (h₂ : m'.Grows m'') : m.Grows m'' :=
  ⟨h₁.vm.trans h₂.vm, h₂.module.trans h₁.module, h₂.initrd.trans h₁.initrd,
    h₂.bytes_allocated.trans h₁.bytes_allocated, Nat.le_trans h₁.head h₂.head,
    fun h => h₂.used (h₁.used h)⟩

/-- Frames taken and words written. -/
theorem Mm.Grows.of_vm {m : Mm} {vm : Vm} (h : m.vm.Takes vm) : m.Grows { m with vm } :=
  ⟨h, rfl, rfl, rfl, Nat.le_refl _, id⟩

theorem kmalloc_map_takes {n_bytes : UInt64} {fuel : ℕ} {s s' : Vm} {i : Int32} {tmp : ℕ}
    (h : kmalloc_map n_bytes fuel s i tmp = .ok s') : s.Takes s' := by
  induction fuel generalizing s i tmp with
  | zero => cases h
  | succ fuel ih =>
    unfold kmalloc_map at h
    split at h
    · obtain ⟨t, ht, h⟩ := bind_ok.1 h
      exact (vmm_map_page_takes ht).trans (ih h)
    · obtain rfl := Except.ok.inj h
      rfl

theorem kmalloc_user_map_takes {stop fuel : ℕ} {s s' : Vm} {i : ℕ}
    (h : kmalloc_user_map stop fuel s i = .ok s') : s.Takes s' := by
  induction fuel generalizing s i with
  | zero => cases h
  | succ fuel ih =>
    unfold kmalloc_user_map at h
    split at h
    · obtain ⟨t, ht, h⟩ := bind_ok.1 h
      exact (vmm_map_page_takes ht).trans (ih h)
    · obtain rfl := Except.ok.inj h
      rfl

/-- The buffers keep their bytes. -/
theorem kmalloc_bytes {m m' : Mm} {n_bytes : UInt64} {p : ℕ} (h : kmalloc m n_bytes = .ok (p, m')) :
    m'.bytes = m.bytes := by
  unfold kmalloc at h
  split at h
  · obtain ⟨-, rfl⟩ := Prod.mk.inj (pure_ok.1 h)
    rfl
  · obtain ⟨⟨region, heap⟩, -, h⟩ := bind_ok.1 h
    obtain ⟨vm, -, h⟩ := bind_ok.1 h
    dsimp only at h
    split at h <;> obtain ⟨-, rfl⟩ := Prod.mk.inj (pure_ok.1 h) <;> rfl

/-- **An allocation** on a heap without free blocks: `NULL` when the bytes are used up,
otherwise a block above all the others. -/
theorem kmalloc_ok {m m' : Mm} {n_bytes : UInt64} {p : ℕ} (hu : m.heap.Used m.heap.heap_tail)
    (h : kmalloc m n_bytes = .ok (p, m')) :
    m.Grows m' ∧ ((p = 0 ∧ m.heap.bytes_allocated + n_bytes > HEAP_SIZE ∧ m' = m) ∨
      (p = DATA_START m'.heap.heap_head ∧ m.heap.heap_head + KHEAP_BLOCK_SIZE ≤ m'.heap.heap_head)) := by
  unfold kmalloc at h
  split at h
  next hb =>
    obtain ⟨rfl, rfl⟩ := Prod.mk.inj (pure_ok.1 h)
    exact ⟨.refl _, .inl ⟨rfl, hb, rfl⟩⟩
  next =>
    obtain ⟨⟨region, heap⟩, hf, h⟩ := bind_ok.1 h
    obtain ⟨vm, hvm, h⟩ := bind_ok.1 h
    obtain ⟨rfl, hs⟩ := first_fit_ok hu hf
    rw [if_pos rfl] at h
    obtain ⟨rfl, rfl⟩ := Prod.mk.inj (pure_ok.1 h)
    have hle : heap.heap_head + KHEAP_BLOCK_SIZE ≤
        DATA_START (heap.heap_head + (heap.block heap.heap_head).size.toNat) := by
      unfold DATA_START
      omega
    have hlt : heap.heap_head < heap.heap_head + KHEAP_BLOCK_SIZE := by
      unfold KHEAP_BLOCK_SIZE
      omega
    refine ⟨⟨kmalloc_map_takes hvm, rfl, rfl, hs.bytes_allocated, ?_, fun _ => ?_⟩, .inr ⟨rfl, ?_⟩⟩
    · rw [← hs.head]
      exact Nat.le_trans (Nat.le_add_right _ _) hle
    · exact (hs.tail ▸ hu.same hs).grow (by omega) rfl rfl
    · rw [← hs.head]
      exact hle

/-- The loop takes one turn for a block of at most a page. -/
theorem kmalloc_map_page {n_bytes : UInt64} {fuel : ℕ} {s s' : Vm} {tmp : ℕ} (h0 : 0 < n_bytes)
    (hn : n_bytes ≤ 0x1000) (h : kmalloc_map n_bytes (fuel + 2) s 0 tmp = .ok s') :
    vmm_map_page s s.cr3 (ALIGN_DOWN (UInt64.ofNat tmp)) (PAGE_PRESENT ||| PAGE_WRITABLE) = .ok s' := by
  have hz : (0 : Int32).toInt64.toUInt64 = 0 := rfl
  have hp : (0 + 0x1000 : Int32).toInt64.toUInt64 = 0x1000 := rfl
  rw [kmalloc_map, hz, if_pos h0] at h
  obtain ⟨t, ht, h⟩ := bind_ok.1 h
  rw [kmalloc_map, hp, if_neg (UInt64.not_lt.2 hn)] at h
  obtain rfl := Except.ok.inj h
  exact ht

/-- An allocation that is not refused has run the loop from address `0`: `region` is `NULL` then. -/
theorem kmalloc_maps {m m' : Mm} {n_bytes : UInt64} {p : ℕ} (hu : m.heap.Used m.heap.heap_tail)
    (hb : m.heap.bytes_allocated + n_bytes ≤ HEAP_SIZE) (h : kmalloc m n_bytes = .ok (p, m')) :
    kmalloc_map n_bytes (2 ^ 20) m.vm 0 (DATA_START 0) = .ok m'.vm := by
  unfold kmalloc at h
  rw [if_neg (UInt64.not_lt.2 hb)] at h
  obtain ⟨⟨region, heap⟩, hf, h⟩ := bind_ok.1 h
  obtain ⟨vm, hvm, h⟩ := bind_ok.1 h
  obtain ⟨rfl, -⟩ := first_fit_ok hu hf
  rw [if_pos rfl] at h
  obtain ⟨-, rfl⟩ := Prod.mk.inj (pure_ok.1 h)
  exact hvm

/-- **An allocation of at most a page** maps the page at address `0`. -/
theorem kmalloc_page {m m' : Mm} {n_bytes : UInt64} {p : ℕ} (hu : m.heap.Used m.heap.heap_tail)
    (h0 : 0 < n_bytes) (hn : n_bytes ≤ 0x1000) (hb : m.heap.bytes_allocated + n_bytes ≤ HEAP_SIZE)
    (h : kmalloc m n_bytes = .ok (p, m')) :
    vmm_map_page m.vm m.vm.cr3 0 (PAGE_PRESENT ||| PAGE_WRITABLE) = .ok m'.vm := by
  have hvm := kmalloc_maps hu hb h
  obtain ⟨fuel, hfuel⟩ : ∃ fuel, 2 ^ 20 = fuel + 2 := ⟨1048574, rfl⟩
  rw [hfuel] at hvm
  have ha : ALIGN_DOWN (UInt64.ofNat (DATA_START 0)) = 0 := by decide
  have hmap := kmalloc_map_page h0 hn hvm
  rwa [ha] at hmap

theorem kmalloc_user_ok {m m' : Mm} {n_bytes : UInt64} {p : ℕ} (hu : m.heap.Used m.heap.heap_tail)
    (h : kmalloc_user m n_bytes = .ok (p, m')) : m.Grows m' := by
  obtain ⟨⟨block, m₁⟩, h₁, h⟩ := bind_ok.1 h
  obtain ⟨vm, hvm, h⟩ := bind_ok.1 h
  obtain ⟨rfl, rfl⟩ := Prod.mk.inj (pure_ok.1 h)
  exact (kmalloc_ok hu h₁).1.trans (.of_vm (kmalloc_user_map_takes hvm))

/-- The heap after `kheap_init`: one block, in use. -/
theorem kheap_init_ok {m m' : Mm} (h : kheap_init m = .ok m') :
    m'.heap.Used m'.heap.heap_tail ∧ m'.heap.bytes_allocated = m.heap.bytes_allocated ∧
      m.vm.Takes m'.vm := by
  obtain ⟨vm, hvm, h⟩ := bind_ok.1 h
  obtain rfl := pure_ok.1 h
  refine ⟨?_, rfl, vmm_map_page_takes hvm⟩
  exact .last (by show HEAP_START_ADDR ≠ 0; decide) (by simp) (by simp)

end Iridium
