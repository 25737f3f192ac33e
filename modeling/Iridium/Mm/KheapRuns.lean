import Mathlib.Algebra.Order.BigOperators.Group.List
import Mathlib.Algebra.Order.Ring.Nat
import Mathlib.Data.List.Chain
import Mathlib.Order.CompletePartialOrder
import Mathlib.Order.Interval.Set.Disjoint
import Iridium.Mm.Kheap
import Iridium.Lib.Run

/-!
# Runs of the heap

What holds of `kmalloc`, `kmalloc_user` and `kfree` over any sequence of calls after `kheap_init`.

A block begins where the one before it ends, so blocks never meet each other or a header
(`heap_separated`). Nothing else that the heap should do is done: what is freed stays in use
(`never_recycled`), and since `bytes_allocated` is never added to, the heap leaves its bounds with
the first block that ends outside them (`heap_bounded`).
-/

namespace Iridium

/-! ### One allocation -/

/-- Where the next block goes. -/
def KHeap.fresh (h : KHeap) : ℕ :=
  DATA_START (h.heap_head + (h.block h.heap_head).size.toNat)

/-- The heap `h'` is `h` with a block of `n_bytes` put behind the last one. -/
structure KHeap.Appends (h : KHeap) (n_bytes : UInt64) (h' : KHeap) : Prop where
  head : h'.heap_head = h.fresh
  tail : h'.heap_tail = h.heap_tail
  bytes_allocated : h'.bytes_allocated = h.bytes_allocated
  link : (h'.block h.heap_head).next = h.fresh
  new_free : (h'.block h.fresh).is_free = false
  new_size : (h'.block h.fresh).size = n_bytes
  new_next : (h'.block h.fresh).next = 0
  is_free : ∀ {a}, a ≠ h.fresh → (h'.block a).is_free = (h.block a).is_free
  size : ∀ {a}, a ≠ h.fresh → (h'.block a).size = (h.block a).size
  next : ∀ {a}, a ≠ h.fresh → a ≠ h.heap_head → (h'.block a).next = (h.block a).next

theorem KHeap.fresh_eq (h : KHeap) :
    h.fresh = h.heap_head + (h.block h.heap_head).size.toNat + 48 := by
  unfold KHeap.fresh DATA_START KHEAP_BLOCK_SIZE
  omega

/-- **An allocation** on a heap without free blocks, in full. -/
theorem kmalloc_cases {m m' : Mm} {n_bytes : UInt64} {p : ℕ} (hu : m.heap.Used m.heap.heap_tail)
    (h : kmalloc m n_bytes = .ok (p, m')) :
    (m.heap.bytes_allocated + n_bytes > HEAP_SIZE ∧ p = 0 ∧ m' = m) ∨
      (m.heap.bytes_allocated + n_bytes ≤ HEAP_SIZE ∧ p = DATA_START m.heap.fresh ∧
        m.heap.Appends n_bytes m'.heap) := by
  unfold kmalloc at h
  split at h
  next hb =>
    obtain ⟨rfl, rfl⟩ := Prod.mk.inj (pure_ok.1 h)
    exact .inl ⟨hb, rfl, rfl⟩
  next hb =>
    obtain ⟨⟨region, heap⟩, hf, h⟩ := bind_ok.1 h
    obtain ⟨vm, -, h⟩ := bind_ok.1 h
    obtain ⟨rfl, hs⟩ := first_fit_ok hu hf
    rw [if_pos rfl] at h
    obtain ⟨rfl, rfl⟩ := Prod.mk.inj (pure_ok.1 h)
    have hfresh : DATA_START (heap.heap_head + (heap.block heap.heap_head).size.toNat) = m.heap.fresh := by
      rw [hs.head, hs.size]
      rfl
    have hne : m.heap.heap_head ≠ m.heap.fresh := by
      rw [KHeap.fresh_eq]
      omega
    dsimp only
    rw [hfresh, hs.head]
    refine .inr ⟨UInt64.not_lt.1 hb, rfl, ?_⟩
    constructor
    · rfl
    · exact hs.tail
    · exact hs.bytes_allocated
    · simp [hne]
    · simp
    · simp
    · simp
    · intro a ha
      by_cases hl : a = m.heap.heap_head
      · simp [hl, hne, hs.is_free]
      · simp [ha, hl, hs.is_free]
    · intro a ha
      by_cases hl : a = m.heap.heap_head
      · simp [hl, hne, hs.size]
      · simp [ha, hl, hs.size]
    · intro a ha hl
      simp [ha, hl, hs.next]

/-! ### The chain of blocks -/

/-- **The next-links** from `heap_tail` lead through the blocks of `l`, in this order, and end at
`heap_head`. -/
structure KHeap.Reaches (h : KHeap) (l : List ℕ) : Prop where
  tail : l.head? = some h.heap_tail
  next : l.IsChain fun a b => (h.block a).next = b
  head : l.getLast? = some h.heap_head
  stop : (h.block h.heap_head).next = 0

/-- The chain after an allocation. -/
theorem KHeap.Reaches.appends {h h' : KHeap} {n_bytes : UInt64} {l : List ℕ} (hl : h.Reaches l)
    (ha : h.Appends n_bytes h') (h0 : 0 ∉ l) (hf : h.fresh ∉ l) : h'.Reaches (l ++ [h.fresh]) := by
  constructor
  · rw [ha.tail, List.head?_append, hl.tail]
    rfl
  · refine (hl.next.imp_of_mem_imp fun a b hma hmb hab => ?_).append (List.isChain_singleton _) ?_
    · -- only the last block has another successor, and it had none
      have hne : a ≠ h.heap_head := by
        rintro rfl
        rw [hl.stop] at hab
        exact h0 (hab ▸ hmb)
      exact (ha.next (fun he => hf (he ▸ hma)) hne).trans hab
    · intro a hlast b hb
      rw [hl.head] at hlast
      obtain rfl := Option.some.inj hlast
      obtain rfl := Option.some.inj hb
      exact ha.link
  · simp [ha.head]
  · rw [ha.head]
    exact ha.new_next

/-! ### Calls -/

/-- A block as its user knows it. -/
structure HeapBlock where
  addr : ℕ
  size : UInt64
  /-- It was asked for with `kmalloc_user`. -/
  user : Bool
  deriving DecidableEq

/-- The address of its header. -/
def HeapBlock.header (b : HeapBlock) : ℕ := b.addr - KHEAP_BLOCK_SIZE

/-- Its data. -/
def HeapBlock.data (b : HeapBlock) : Set ℕ := Set.Ico b.addr (b.addr + b.size.toNat)

/-- The bytes of the header at an address. -/
def headerBytes (a : ℕ) : Set ℕ := Set.Ico a (a + KHEAP_BLOCK_SIZE)

/-- The heap and its users. -/
structure HeapUse where
  mm : Mm
  /-- The blocks that were ever returned, in order. -/
  returned : List HeapBlock
  /-- Those not freed since. -/
  live : List HeapBlock
  /-- What `kmalloc_user` answered, and the bytes it was asked for. -/
  shared : List (ℕ × UInt64)

/-- A call of the heap, or something else that the kernel does. -/
inductive HeapCall where
  | kmalloc (n_bytes : UInt64)
  | kmalloc_user (n_bytes : UInt64)
  | kfree (block : ℕ)
  | elsewhere

/-- The answer of an allocation is kept, unless it is `NULL`. -/
def HeapUse.give (s : HeapUse) (mm : Mm) (b : HeapBlock) : HeapUse :=
  if b.addr = 0 then { s with mm }
  else { s with mm, returned := s.returned ++ [b], live := s.live ++ [b] }

/-- The call as a function: nothing happens elsewhere. -/
def serve (s : HeapUse) : HeapCall → Kern HeapUse
  | .kmalloc n_bytes => do
    let (p, mm) ← Iridium.kmalloc s.mm n_bytes
    return s.give mm ⟨p, n_bytes, false⟩
  | .kmalloc_user n_bytes => do
    let (p, mm) ← Iridium.kmalloc_user s.mm n_bytes
    return { s.give mm ⟨p, n_bytes, true⟩ with shared := (p, n_bytes) :: s.shared }
  | .kfree block => do
    let heap ← Iridium.kfree s.mm.heap block
    return { s with mm := { s.mm with heap }, live := s.live.filter (·.addr ≠ block) }
  | .elsewhere => .ok s

/-- The call returns. What happens elsewhere leaves the heap as it is. -/
def HeapStep (s : HeapUse) (c : HeapCall) (s' : HeapUse) : Prop :=
  serve s c = .ok s' ∨ c = .elsewhere ∧ ∃ mm, mm.heap = s.mm.heap ∧ s' = { s with mm }

/-- What is freed was returned. -/
def FreesReturned (s : HeapUse) : HeapCall → Prop
  | .kfree block => ∃ b ∈ s.returned, b.addr = block
  | _ => True

instance (s : HeapUse) (c : HeapCall) : Decidable (FreesReturned s c) :=
  match c with
  | .kfree block => inferInstanceAs (Decidable (∃ b ∈ s.returned, b.addr = block))
  | .kmalloc _ | .kmalloc_user _ | .elsewhere => .isTrue trivial

/-- Nothing was asked for yet. -/
def HeapUse.start (mm : Mm) : HeapUse := ⟨mm, [], [], []⟩

/-- The block that `kheap_init` makes, without data, and those returned. -/
def HeapUse.blocks (s : HeapUse) : List HeapBlock :=
  ⟨DATA_START HEAP_START_ADDR, 0, false⟩ :: s.returned

/-- Where the headers are. -/
def HeapUse.headers (s : HeapUse) : List ℕ := s.blocks.map (·.header)

/-- The room that the blocks returned so far have taken. -/
def HeapUse.room (s : HeapUse) : ℕ := (s.returned.map fun b => b.size.toNat + 48).sum

@[simp] theorem HeapUse.give_mm {s : HeapUse} {mm : Mm} {b : HeapBlock} : (s.give mm b).mm = mm := by
  unfold HeapUse.give
  split <;> rfl

/-! ### What a call does -/

/-- The bytes that an allocation is asked for. -/
def HeapCall.asks : HeapCall → Option UInt64
  | .kmalloc n_bytes | .kmalloc_user n_bytes => some n_bytes
  | _ => none

/-- The block in the next place. -/
def HeapUse.fresh_block (s : HeapUse) (n_bytes : UInt64) : HeapCall → HeapBlock
  | .kmalloc_user _ => ⟨DATA_START s.mm.heap.fresh, n_bytes, true⟩
  | _ => ⟨DATA_START s.mm.heap.fresh, n_bytes, false⟩

/-- What `kmalloc_user` has answered when it answers `p`. -/
def HeapUse.share (s : HeapUse) (p : ℕ) : HeapCall → List (ℕ × UInt64)
  | .kmalloc_user n_bytes => (p, n_bytes) :: s.shared
  | _ => s.shared

/-- **What a call does**: nothing to the heap, or a block more. -/
inductive HeapUse.Does (s : HeapUse) (c : HeapCall) (s' : HeapUse) : Prop where
  /-- No bytes are asked for, or too many. -/
  | nothing : (∀ n_bytes, c.asks = some n_bytes → HEAP_SIZE < s.mm.heap.bytes_allocated + n_bytes) →
      s'.mm.heap = s.mm.heap → s'.returned = s.returned → s'.live.Sublist s.live →
      s'.shared = s.share 0 c → Does s c s'
  | block {n_bytes : UInt64} : c.asks = some n_bytes →
      s.mm.heap.bytes_allocated + n_bytes ≤ HEAP_SIZE → s.mm.heap.Appends n_bytes s'.mm.heap →
      s'.mm.heap.Used s'.mm.heap.heap_tail → s'.returned = s.returned ++ [s.fresh_block n_bytes c] →
      s'.live = s.live ++ [s.fresh_block n_bytes c] →
      s'.shared = s.share (DATA_START s.mm.heap.fresh) c → Does s c s'

section Does

variable {s s' : HeapUse} {c : HeapCall} {mm : Mm} {n_bytes : UInt64} {p : ℕ}

/-- The two kinds of allocation, one after the other. -/
theorem kmalloc_user_eq {m m' : Mm} (h : kmalloc_user m n_bytes = .ok (p, m')) :
    ∃ m₁, kmalloc m n_bytes = .ok (p, m₁) ∧ m'.heap = m₁.heap := by
  obtain ⟨⟨block, m₁⟩, h₁, h⟩ := bind_ok.1 h
  obtain ⟨vm, -, h⟩ := bind_ok.1 h
  obtain ⟨rfl, rfl⟩ := Prod.mk.inj (pure_ok.1 h)
  exact ⟨m₁, h₁, rfl⟩

theorem HeapUse.does_of_kmalloc {m₁ : Mm} {user : Bool} (hu : s.mm.heap.Used s.mm.heap.heap_tail)
    (hk : kmalloc s.mm n_bytes = .ok (p, m₁)) (hm : mm.heap = m₁.heap) (hc : c.asks = some n_bytes)
    (hb : s.fresh_block n_bytes c = ⟨DATA_START s.mm.heap.fresh, n_bytes, user⟩) :
    s.Does c { s.give mm ⟨p, n_bytes, user⟩ with shared := s.share p c } := by
  rcases kmalloc_cases hu hk with ⟨hlt, rfl, rfl⟩ | ⟨hle, rfl, ha⟩
  · refine .nothing (fun n hn => ?_) hm rfl (.refl _) rfl
    obtain rfl := Option.some.inj (hc.symm.trans hn)
    exact hlt
  · have hgive : s.give mm ⟨DATA_START s.mm.heap.fresh, n_bytes, user⟩ =
        { s with mm, returned := s.returned ++ [s.fresh_block n_bytes c],
                 live := s.live ++ [s.fresh_block n_bytes c] } := by
      rw [hb]
      exact if_neg (by unfold DATA_START KHEAP_BLOCK_SIZE; dsimp only; omega)
    rw [hgive]
    refine .block hc hle ?_ ?_ rfl rfl rfl
    · rwa [hm]
    · rw [hm]
      exact (kmalloc_ok hu hk).1.used hu

theorem HeapStep.does (h : HeapStep s c s') (hu : s.mm.heap.Used s.mm.heap.heap_tail) : s.Does c s' := by
  rcases h with h | ⟨rfl, mm, hm, rfl⟩
  · cases c with
    | kmalloc n_bytes =>
      obtain ⟨⟨p, mm⟩, hk, h⟩ := bind_ok.1 h
      obtain rfl := pure_ok.1 h
      have hshared : s.share p (.kmalloc n_bytes) = (s.give mm ⟨p, n_bytes, false⟩).shared := by
        unfold HeapUse.give
        split <;> rfl
      have hdoes := HeapUse.does_of_kmalloc (c := .kmalloc n_bytes) hu hk rfl rfl rfl
      rwa [hshared] at hdoes
    | kmalloc_user n_bytes =>
      obtain ⟨⟨p, mm⟩, hk, h⟩ := bind_ok.1 h
      obtain rfl := pure_ok.1 h
      obtain ⟨m₁, hk, hm⟩ := kmalloc_user_eq hk
      exact HeapUse.does_of_kmalloc (c := .kmalloc_user n_bytes) hu hk hm rfl rfl
    | kfree block =>
      obtain ⟨heap, hk, h⟩ := bind_ok.1 h
      obtain rfl := pure_ok.1 h
      rw [kfree_eq] at hk
      exact .nothing (fun _ h => by cases h) (Except.ok.inj hk).symm rfl List.filter_sublist rfl
    | elsewhere =>
      obtain rfl := Except.ok.inj h
      exact .nothing (fun _ h => by cases h) rfl rfl (.refl _) rfl
  · exact .nothing (fun _ h => by cases h) hm rfl (.refl _) rfl

end Does

/-! ### The invariant -/

/-- **The layout** of the heap: a chain of blocks in use, each behind the one before. -/
structure HeapUse.Laid (s : HeapUse) : Prop where
  used : s.mm.heap.Used s.mm.heap.heap_tail
  chain : s.mm.heap.Reaches s.headers
  spaced : s.blocks.Pairwise fun b c => b.addr + b.size.toNat ≤ c.header
  start : ∀ b ∈ s.blocks, HEAP_START_ADDR ≤ b.header
  size : ∀ b ∈ s.blocks, (s.mm.heap.block b.header).size = b.size
  in_use : ∀ b ∈ s.blocks, (s.mm.heap.block b.header).is_free = false
  /-- No block lies behind the last one. -/
  last : ∀ b ∈ s.blocks, b.addr + b.size.toNat ≤ s.mm.heap.fresh
  fresh : s.mm.heap.fresh = HEAP_START_ADDR + 48 + s.room
  live : s.live.Sublist s.returned

section Laid

variable {s s' : HeapUse} {b : HeapBlock} {mm : Mm}

theorem HeapUse.Laid.addr (h : s.Laid) (hb : b ∈ s.blocks) : b.addr = b.header + 48 := by
  have hs := h.start b hb
  unfold HeapBlock.header KHEAP_BLOCK_SIZE HEAP_START_ADDR at *
  omega

/-- Of two blocks one lies behind the other. -/
theorem HeapUse.Laid.apart {c : HeapBlock} (h : s.Laid) (hb : b ∈ s.blocks) (hc : c ∈ s.blocks) :
    b = c ∨ b.addr + b.size.toNat ≤ c.header ∨ c.addr + c.size.toNat ≤ b.header :=
  List.Pairwise.forall_of_forall_of_flip
    (R := fun b c => b = c ∨ b.addr + b.size.toNat ≤ c.header ∨ c.addr + c.size.toNat ≤ b.header)
    (fun _ _ => Or.inl rfl) (h.spaced.imp fun hlt => Or.inr (Or.inl hlt))
    (h.spaced.imp fun hlt => Or.inr (Or.inr hlt)) hb hc

/-- The heap after `kheap_init`. -/
theorem HeapUse.start_laid {m : Mm} (h : kheap_init m = .ok mm) : (HeapUse.start mm).Laid := by
  have hu := (kheap_init_ok h).1
  obtain ⟨vm, -, h⟩ := bind_ok.1 h
  obtain rfl := pure_ok.1 h
  refine ⟨hu, ⟨rfl, List.isChain_singleton _, rfl, by simp [start]⟩, by simp [blocks, start], ?_, ?_, ?_, ?_, ?_,
    .refl _⟩
  · simp [blocks, start, HeapBlock.header, DATA_START]
  · simp [blocks, start, HeapBlock.header, DATA_START]
  · simp [blocks, start, HeapBlock.header, DATA_START]
  · simp [blocks, start, KHeap.fresh_eq, DATA_START, KHEAP_BLOCK_SIZE]
  · simp [start, room, KHeap.fresh_eq]

/-- **A block is put behind the last one.** -/
theorem HeapUse.Laid.appends {n_bytes : UInt64} {c : HeapBlock} (h : s.Laid)
    (hc : c.addr = DATA_START s.mm.heap.fresh) (hcs : c.size = n_bytes)
    (ha : s.mm.heap.Appends n_bytes s'.mm.heap) (hu : s'.mm.heap.Used s'.mm.heap.heap_tail)
    (hr : s'.returned = s.returned ++ [c]) (hl : s'.live = s.live ++ [c]) : s'.Laid := by
  have hch : c.header = s.mm.heap.fresh := by simp [HeapBlock.header, hc, DATA_START]
  have hca : c.addr = s.mm.heap.fresh + 48 := hc
  have hlt : ∀ b ∈ s.blocks, b.header < s.mm.heap.fresh := fun b hb => by
    have := h.last b hb
    have := h.addr hb
    omega
  have hblocks : s'.blocks = s.blocks ++ [c] := by simp [blocks, hr]
  have hmem : ∀ b ∈ s'.blocks, b ∈ s.blocks ∨ b = c := fun b hb => by simpa [hblocks] using hb
  have hfresh : s'.mm.heap.fresh = s.mm.heap.fresh + n_bytes.toNat + 48 := by
    rw [KHeap.fresh_eq, ha.head, ha.new_size]
  refine ⟨hu, ?_, ?_, ?_, ?_, ?_, ?_, ?_, ?_⟩
  · have hchain := h.chain.appends ha (fun h0 => ?_) (fun hf => ?_)
    · rw [← hch] at hchain
      simpa [headers, hblocks] using hchain
    · obtain ⟨b, hb, h0⟩ := List.mem_map.1 h0
      have := h.start b hb
      rw [h0] at this
      exact absurd this (by decide)
    · obtain ⟨b, hb, hf⟩ := List.mem_map.1 hf
      exact Nat.lt_irrefl _ (hf ▸ hlt b hb)
  · rw [hblocks]
    refine List.pairwise_append.2 ⟨h.spaced, List.pairwise_singleton _ _, fun b hb d hd => ?_⟩
    rw [List.mem_singleton.1 hd, hch]
    exact h.last b hb
  · intro b hb
    rcases hmem b hb with hb | rfl
    · exact h.start b hb
    · have := h.start _ List.mem_cons_self
      have := hlt _ List.mem_cons_self
      omega
  · intro b hb
    rcases hmem b hb with hb | rfl
    · rw [← h.size b hb]
      exact ha.size (hlt b hb).ne
    · rw [hch, ha.new_size, hcs]
  · intro b hb
    rcases hmem b hb with hb | rfl
    · rw [← h.in_use b hb]
      exact ha.is_free (hlt b hb).ne
    · rw [hch]
      exact ha.new_free
  · intro b hb
    rw [hfresh]
    rcases hmem b hb with hb | rfl
    · have := h.last b hb
      omega
    · rw [hca, hcs]
      omega
  · rw [hfresh, h.fresh]
    simp only [room, hr, List.map_append, List.map_cons, List.map_nil, List.sum_append, List.sum_cons,
      List.sum_nil, hcs]
    omega
  · rw [hr, hl]
    exact h.live.append (.refl _)

/-- The layout is that of the heap and the blocks. -/
theorem HeapUse.Laid.same (h : s.Laid) (hh : s'.mm.heap = s.mm.heap) (hr : s'.returned = s.returned)
    (hl : s'.live.Sublist s.live) : s'.Laid := by
  have hb : s'.blocks = s.blocks := by rw [blocks, blocks, hr]
  have hhead : s'.headers = s.headers := by rw [headers, headers, hb]
  have hroom : s'.room = s.room := by rw [room, room, hr]
  obtain ⟨hused, hchain, hspaced, hstart, hsize, hfree, hlast, hfresh, hlive⟩ := h
  constructor
  · rwa [hh]
  · rwa [hh, hhead]
  · rwa [hb]
  · rwa [hb]
  · rwa [hb, hh]
  · rwa [hb, hh]
  · rwa [hb, hh]
  · rwa [hh, hroom]
  · rw [hr]
    exact hl.trans hlive

/-- **One call.** -/
theorem HeapUse.Laid.served {c : HeapCall} (h : s.Laid) (hc : HeapStep s c s') : s'.Laid := by
  cases hc.does h.used with
  | nothing _ hh hr hl _ => exact h.same hh hr hl
  | block _ _ ha hu hr hl _ =>
    refine h.appends ?_ ?_ ha hu hr hl
    · unfold fresh_block
      split <;> rfl
    · unfold fresh_block
      split <;> rfl


/-- **Every state that is reached** is laid out. -/
theorem HeapUse.laid {m m₀ : Mm} {C : HeapUse → HeapCall → Prop} {cs : List HeapCall}
    (h₀ : kheap_init m = .ok m₀) (h : Lib.Run HeapStep C (.start m₀) cs s) : s.Laid :=
  h.invariant (HeapUse.start_laid h₀) fun hl _ hs => hl.served hs

end Laid

/-! ### Runs that are computed -/

section Compute


variable (C : HeapUse → HeapCall → Prop) [∀ s c, Decidable (C s c)]

/-- The calls made one after another, as long as they return and meet `C`. -/
def serves (s : HeapUse) : List HeapCall → Kern HeapUse
  | [] => .ok s
  | c :: cs => do
    let s' ← serve s c
    if C s c then serves s' cs else .error .stopped

variable {C}

theorem serves_ok {s s' : HeapUse} {cs : List HeapCall} (h : serves C s cs = .ok s') :
    Lib.Run HeapStep C s cs s' := by
  induction cs generalizing s with
  | nil =>
    obtain rfl := Except.ok.inj h
    exact .nil
  | cons c cs ih =>
    obtain ⟨s₁, hs, h⟩ := bind_ok.1 h
    split at h
    next hc => exact (Lib.Run.single hc (.inl hs)).trans (ih h)
    next => cases h

/-- Memory before `kheap_init`: the first two megabytes and the heap are mapped. -/
def bareMm : Mm where
  vm :=
    { ram := fun f i =>
        if f = 0x100 then if i = 0 ∨ i = 256 then 0x101007 else 0
        else if f = 0x101 then if i = 0 then 0x102007 else 0
        else if f = 0x102 then if i = 0 then 0x103007 else 0
        else if f = 0x103 then (UInt64.ofNat i <<< 12) ||| 3
        else 0
      pmm := { bitmap := fun _ => 0, bitmap_length := 0x200, bitmap_i := 2, lock := false }
      lock := false
      cr3 := 0x100000 }
  heap := { block := fun _ => ⟨false, 0, 0, 0, 0⟩, heap_head := 0, heap_tail := 0, bytes_allocated := 0 }
  bytes := fun _ => 0
  module := fun _ => 0
  initrd := 0

/-- A test of the state that calls lead to from there. -/
def heapTraces (C : HeapUse → HeapCall → Prop) [∀ s c, Decidable (C s c)] (cs : List HeapCall)
    (b : HeapUse → Bool) : Bool :=
  answers (do let mm ← kheap_init bareMm; serves C (.start mm) cs) b

theorem heapTraces_true (C : HeapUse → HeapCall → Prop) [∀ s c, Decidable (C s c)] (b : HeapUse → Bool)
    (cs : List HeapCall) (h : heapTraces C cs b = true) :
    ∃ m₀ s, kheap_init bareMm = .ok m₀ ∧ Lib.Run HeapStep C (.start m₀) cs s ∧ b s = true := by
  obtain ⟨s, hs, hb⟩ := answers_iff.1 h
  obtain ⟨m₀, h₀, hs⟩ := bind_ok.1 hs
  exact ⟨m₀, s, h₀, serves_ok hs, hb⟩

end Compute

/-! ### Blocks do not meet -/

/-- **After any calls** of the heap, the data of different blocks in use is apart, no data meets a
header, and the next-links lead through all blocks, each once, upwards to `heap_head`. -/
theorem heap_separated {m m₀ : Mm} {cs : List HeapCall} {s : HeapUse} (h₀ : kheap_init m = .ok m₀)
    (h : Lib.Run HeapStep FreesReturned (.start m₀) cs s) :
    s.live.Pairwise (fun b c => Disjoint b.data c.data) ∧
    (∀ b ∈ s.live, ∀ a ∈ s.headers, Disjoint b.data (headerBytes a)) ∧
    s.mm.heap.Reaches s.headers ∧ s.headers.Pairwise (· < ·) := by
  have hl := HeapUse.laid h₀ h
  have hret : ∀ b ∈ s.returned, b ∈ s.blocks := fun b hb => List.mem_cons_of_mem _ hb
  have hpair := hl.spaced
  refine ⟨?_, fun b hb a ha => ?_, hl.chain, ?_⟩
  · refine ((List.pairwise_cons.1 hpair).2.sublist hl.live).imp_of_mem fun {b c} hb hc hbc => ?_
    have := hl.addr (hret c (hl.live.subset hc))
    rw [HeapBlock.data, HeapBlock.data, Set.Ico_disjoint_Ico]
    omega
  · obtain ⟨c, hc, rfl⟩ := List.mem_map.1 ha
    have hb := hret b (hl.live.subset hb)
    have haddr := hl.addr hb
    have haddr' := hl.addr hc
    rw [HeapBlock.data, headerBytes, Set.Ico_disjoint_Ico]
    unfold KHEAP_BLOCK_SIZE
    rcases hl.apart hb hc with rfl | hlt | hlt <;> omega
  · refine List.pairwise_map.2 (hpair.imp_of_mem fun {b c} hb hc hbc => ?_)
    have := hl.addr hb
    omega

/-- Two blocks, the first for a process. -/
theorem heap_separated_two : ∃ s : HeapUse,
    s.live.map (·.size) = [16, 8] ∧ s.live.Pairwise (fun b c => Disjoint b.data c.data) := by
  obtain ⟨m₀, s, h₀, hr, hs⟩ := heapTraces_true FreesReturned (fun s => s.live.map (·.size) = [16, 8])
    [.kmalloc 8, .kmalloc_user 16, .kfree (HEAP_START_ADDR + 96), .kmalloc 8] (by decide +kernel)
  exact ⟨s, of_decide_eq_true hs, (heap_separated h₀ hr).1⟩

/-! ### What is freed is not used again -/

/-- **A block can be used again**: `kfree` marks it free and no other block that is in use; then an
allocation that it is large enough for, and no earlier free block, takes it, and marks it in use. -/
def HeapUse.Recycles (s : HeapUse) (b : HeapBlock) : Prop :=
  ∃ heap, kfree s.mm.heap b.addr = .ok heap ∧ (heap.block b.header).is_free = true ∧
    (∀ c ∈ s.live, c ≠ b → (heap.block c.header).is_free = false) ∧
    ∀ n_bytes p mm, n_bytes ≤ b.size →
      (∀ a ∈ s.headers, a < b.header → (heap.block a).is_free = true → (heap.block a).size < n_bytes) →
      kmalloc { s.mm with heap } n_bytes = .ok (p, mm) →
      p = b.addr ∧ mm.heap.heap_head = heap.heap_head ∧ (mm.heap.block b.header).is_free = false

section Recycles

variable {s s' : HeapUse} {b : HeapBlock} {C : HeapUse → HeapCall → Prop} {cs : List HeapCall}

theorem HeapUse.Laid.not_recycles (h : s.Laid) (hb : b ∈ s.live) : ¬s.Recycles b := by
  rintro ⟨heap, hk, hfree, -⟩
  rw [kfree_eq] at hk
  obtain rfl := Except.ok.inj hk
  rw [h.in_use b (List.mem_cons_of_mem _ (h.live.subset hb))] at hfree
  cases hfree

/-- What was returned once stays on record. -/
theorem HeapUse.Laid.returned {c : HeapCall} (h : s.Laid) (hc : HeapStep s c s') (hb : b ∈ s.returned) :
    b ∈ s'.returned := by
  cases hc.does h.used with
  | nothing _ _ hr _ _ => rwa [hr]
  | block _ _ _ _ hr _ _ =>
    rw [hr]
    exact List.mem_append_left _ hb

/-- **A block that was returned** is not returned by an allocation. -/
theorem HeapUse.Laid.fresh_ne {n_bytes : UInt64} {p : ℕ} {mm : Mm} (h : s.Laid) (hb : b ∈ s.returned)
    (hk : kmalloc s.mm n_bytes = .ok (p, mm)) : p ≠ b.addr := by
  have hb : b ∈ s.blocks := List.mem_cons_of_mem _ hb
  have hstart := h.start b hb
  have haddr := h.addr hb
  have hlast := h.last b hb
  rcases kmalloc_cases h.used hk with ⟨-, rfl, -⟩ | ⟨-, rfl, -⟩
  · omega
  · unfold DATA_START KHEAP_BLOCK_SIZE
    omega

end Recycles

/-- **No block is ever used again**: `kfree` does not mark it, and whatever calls follow, no
allocation returns it. -/
theorem never_recycled {m m₀ : Mm} {cs : List HeapCall} {s : HeapUse} {b : HeapBlock}
    (h₀ : kheap_init m = .ok m₀) (h : Lib.Run HeapStep FreesReturned (.start m₀) cs s) (hb : b ∈ s.live) :
    ¬s.Recycles b ∧ ∀ cs' s', Lib.Run HeapStep FreesReturned s cs' s' → ∀ n_bytes p mm,
      kmalloc s'.mm n_bytes = .ok (p, mm) → p ≠ b.addr := by
  have hl := HeapUse.laid h₀ h
  refine ⟨hl.not_recycles hb, fun cs' s' hr n_bytes p mm hk => ?_⟩
  have hr' := hr.invariant (I := fun s => s.Laid ∧ b ∈ s.returned) ⟨hl, hl.live.subset hb⟩
    fun hs _ hc => ⟨hs.1.served hc, hs.1.returned hc hs.2⟩
  exact hr'.1.fresh_ne hr'.2 hk

/-- The first of two blocks is freed and a third asked for: the second is not used again, and nor is the third. -/
theorem never_recycled_two : ∃ s : HeapUse,
    s.live = [⟨HEAP_START_ADDR + 152, 16, true⟩, ⟨HEAP_START_ADDR + 216, 8, false⟩] ∧
    ∀ b ∈ s.live, ¬s.Recycles b ∧ ∀ cs' s', Lib.Run HeapStep FreesReturned s cs' s' → ∀ n_bytes p mm,
      kmalloc s'.mm n_bytes = .ok (p, mm) → p ≠ b.addr := by
  obtain ⟨m₀, s, h₀, hr, hs⟩ := heapTraces_true FreesReturned
    (fun s => s.live = [⟨HEAP_START_ADDR + 152, 16, true⟩, ⟨HEAP_START_ADDR + 216, 8, false⟩])
    [.kmalloc 8, .kmalloc_user 16, .kfree (HEAP_START_ADDR + 96), .kmalloc 8] (by decide +kernel)
  exact ⟨s, of_decide_eq_true hs, fun b hb => never_recycled h₀ hr hb⟩

/-- A block of 8 bytes is freed, and 8 bytes are asked for again. -/
theorem not_recycled : ¬∀ m m₀ cs s b, kheap_init m = .ok m₀ →
    Lib.Run HeapStep FreesReturned (.start m₀) cs s → b ∈ s.live → s.Recycles b := by
  obtain ⟨m₀, s, h₀, hr, hs⟩ := heapTraces_true FreesReturned
    (fun s => s.live = [⟨HEAP_START_ADDR + 96, 8, false⟩]) [.kmalloc 8] (by decide +kernel)
  intro hall
  have hb : (⟨HEAP_START_ADDR + 96, 8, false⟩ : HeapBlock) ∈ s.live := by
    rw [of_decide_eq_true hs]
    exact List.mem_singleton_self _
  exact (HeapUse.laid h₀ hr).not_recycles hb (hall _ _ _ _ _ h₀ hr hb)

/-! ### The bounds of the heap -/

/-- **The heap keeps its bounds**: the blocks in use are not larger than `HEAP_SIZE` altogether, and
every block lies inside the heap. -/
structure HeapUse.Bounded (s : HeapUse) : Prop where
  total : (s.live.map (·.size.toNat)).sum ≤ HEAP_SIZE.toNat
  inside : ∀ b ∈ s.returned, HEAP_START_ADDR ≤ b.header ∧
    b.addr + b.size.toNat ≤ HEAP_START_ADDR + HEAP_SIZE.toNat

/-- A block of `n_bytes` in the next place would break a bound. -/
def HeapUse.Breaks (s : HeapUse) (n_bytes : UInt64) : Prop :=
  HEAP_SIZE.toNat < (s.live.map (·.size.toNat)).sum + n_bytes.toNat ∨
    HEAP_START_ADDR + HEAP_SIZE.toNat < DATA_START s.mm.heap.fresh + n_bytes.toNat

/-- **The bounds are obeyed**: they are kept, and a request that would break one is answered with
`NULL` and leaves the heap as it is. -/
def Obeys (s : HeapUse) (c : HeapCall) (s' : HeapUse) : Prop :=
  s'.Bounded ∧ ∀ n_bytes, c.asks = some n_bytes → s.Breaks n_bytes →
    s'.mm.heap = s.mm.heap ∧ s'.returned = s.returned

/-- A request is too large for any heap, or the room taken so far leaves space for its block. -/
def Fits (s : HeapUse) (c : HeapCall) : Prop :=
  ∀ n_bytes ∈ c.asks, HEAP_SIZE < n_bytes ∨ 96 + s.room + n_bytes.toNat ≤ HEAP_SIZE.toNat

instance (s : HeapUse) (c : HeapCall) : Decidable (Fits s c) :=
  decidable_of_iff (c.asks.all fun n_bytes =>
    HEAP_SIZE < n_bytes ∨ 96 + s.room + n_bytes.toNat ≤ HEAP_SIZE.toNat) (by simp [Fits, Option.all_eq_true])

section Bounded

variable {s s' : HeapUse} {c : HeapCall} {n_bytes : UInt64}

/-- The counter is never added to. -/
theorem HeapUse.Does.bytes_allocated (h : s.Does c s') :
    s'.mm.heap.bytes_allocated = s.mm.heap.bytes_allocated := by
  cases h with
  | nothing _ hh _ _ _ => rw [hh]
  | block _ _ ha _ _ _ _ => exact ha.bytes_allocated

/-- **Every state that is reached** is laid out, with the counter where it began. -/
theorem HeapUse.laid_counter {m m₀ : Mm} {C : HeapUse → HeapCall → Prop} {cs : List HeapCall}
    (hm : m.heap.bytes_allocated = 0) (h₀ : kheap_init m = .ok m₀)
    (h : Lib.Run HeapStep C (.start m₀) cs s) : s.Laid ∧ s.mm.heap.bytes_allocated = 0 :=
  h.invariant (I := fun s => s.Laid ∧ s.mm.heap.bytes_allocated = 0)
    ⟨HeapUse.start_laid h₀, (kheap_init_ok h₀).2.1.trans hm⟩
    fun hs _ hc => ⟨hs.1.served hc, (hc.does hs.1.used).bytes_allocated.trans hs.2⟩

/-- The blocks in use are not larger than the room taken. -/
theorem HeapUse.Laid.total_le (h : s.Laid) : (s.live.map (·.size.toNat)).sum ≤ s.room :=
  calc (s.live.map (·.size.toNat)).sum
      ≤ (s.returned.map (·.size.toNat)).sum := (h.live.map _).sum_le_sum fun _ _ => Nat.zero_le _
    _ ≤ s.room := List.sum_le_sum fun b _ => by omega

theorem HeapUse.fresh_block_addr (s : HeapUse) (n_bytes : UInt64) (c : HeapCall) :
    (s.fresh_block n_bytes c).addr = DATA_START s.mm.heap.fresh := by
  unfold fresh_block
  split <;> rfl

theorem HeapUse.fresh_block_size (s : HeapUse) (n_bytes : UInt64) (c : HeapCall) :
    (s.fresh_block n_bytes c).size = n_bytes := by
  unfold fresh_block
  split <;> rfl

/-- The block in the next place begins behind the room taken. -/
theorem HeapUse.Laid.fresh_addr (h : s.Laid) : DATA_START s.mm.heap.fresh = HEAP_START_ADDR + 96 + s.room := by
  rw [DATA_START, h.fresh]
  unfold KHEAP_BLOCK_SIZE
  omega

/-- **A call that fits** obeys the bounds. -/
theorem HeapUse.Laid.obeys (h : s.Laid) (hb : s.Bounded) (h0 : s.mm.heap.bytes_allocated = 0)
    (hc : HeapStep s c s') (hf : Fits s c) : Obeys s c s' := by
  have hl := h.served hc
  have htotal := h.total_le
  have haddr := h.fresh_addr
  cases hc.does h.used with
  | nothing _ hh hr hlive _ =>
    refine ⟨⟨?_, fun b hbr => hb.inside b (hr ▸ hbr)⟩, fun _ _ _ => ⟨hh, hr⟩⟩
    exact ((hlive.map _).sum_le_sum fun _ _ => Nat.zero_le _).trans hb.total
  | @block n_bytes hask hle ha _ hr hlive _ =>
    rw [h0, UInt64.zero_add] at hle
    have hfit := (hf n_bytes hask).resolve_left (UInt64.not_lt.2 hle)
    refine ⟨⟨?_, fun b hbr => ?_⟩, fun n hn hbreak => ?_⟩
    · simp only [hlive, List.map_append, List.map_cons, List.map_nil, List.sum_append, List.sum_cons,
        List.sum_nil, HeapUse.fresh_block_size]
      omega
    · refine ⟨hl.start b (List.mem_cons_of_mem _ hbr), ?_⟩
      rw [hr] at hbr
      rcases List.mem_append.1 hbr with hbr | hbr
      · exact (hb.inside b hbr).2
      · rw [List.mem_singleton.1 hbr, HeapUse.fresh_block_addr, HeapUse.fresh_block_size, haddr]
        omega
    · obtain rfl := Option.some.inj (hask.symm.trans hn)
      unfold HeapUse.Breaks at hbreak
      rw [haddr] at hbreak
      omega

/-- **A call that keeps the bounds** fits. -/
theorem HeapUse.Laid.fits (h : s.Laid) (h0 : s.mm.heap.bytes_allocated = 0) (hc : HeapStep s c s')
    (hb : s'.Bounded) : Fits s c := by
  intro n hn
  cases hc.does h.used with
  | nothing hlt _ _ _ _ =>
    have hlt := hlt n hn
    rw [h0, UInt64.zero_add] at hlt
    exact .inl hlt
  | @block n_bytes hask _ _ _ hr _ _ =>
    obtain rfl := Option.some.inj (hask.symm.trans hn)
    have hin := hb.inside (s.fresh_block n_bytes c) (by simp [hr])
    rw [HeapUse.fresh_block_addr, HeapUse.fresh_block_size, h.fresh_addr] at hin
    exact .inr (by omega)

end Bounded

/-- **In every run** whose requests fit, the bounds are kept; and the next call obeys them if and only
if it fits. -/
theorem heap_bounded {m m₀ : Mm} {cs : List HeapCall} {s : HeapUse} (hm : m.heap.bytes_allocated = 0)
    (h₀ : kheap_init m = .ok m₀)
    (h : Lib.Run HeapStep (fun s c => FreesReturned s c ∧ Fits s c) (.start m₀) cs s) :
    s.Bounded ∧ ∀ c s', HeapStep s c s' → (Obeys s c s' ↔ Fits s c) := by
  have hs := h.invariant (I := fun s => (s.Laid ∧ s.mm.heap.bytes_allocated = 0) ∧ s.Bounded)
    ⟨HeapUse.laid_counter hm h₀ (C := fun _ _ => True) .nil, by simp [HeapUse.start], by simp [HeapUse.start]⟩
    fun hs hC hc => ⟨⟨hs.1.1.served hc, (hc.does hs.1.1.used).bytes_allocated.trans hs.1.2⟩,
      (hs.1.1.obeys hs.2 hs.1.2 hc hC.2).1⟩
  exact ⟨hs.2, fun c s' hc => ⟨fun ho => hs.1.1.fits hs.1.2 hc ho.1, hs.1.1.obeys hs.2 hs.1.2 hc⟩⟩

/-- Of two small blocks the first is freed, a larger one is asked for, and one that no heap has. -/
theorem heap_bounded_two : ∃ s : HeapUse, s.live.map (·.size) = [8, 24] ∧ s.returned.length = 3 ∧ s.Bounded := by
  obtain ⟨m₀, s, h₀, hr, hs⟩ := heapTraces_true (fun s c => FreesReturned s c ∧ Fits s c)
    (fun s => s.live.map (·.size) = [8, 24] ∧ s.returned.length = 3)
    [.kmalloc_user 16, .kmalloc 8, .kfree (HEAP_START_ADDR + 96), .kmalloc 24, .kmalloc (HEAP_SIZE + 1)]
    (by decide +kernel)
  obtain ⟨hlive, hlen⟩ := of_decide_eq_true hs
  exact ⟨s, hlive, hlen, (heap_bounded rfl h₀ hr).1⟩

/-! ### Many small requests -/

/-- First fit comes to the end of the chain. -/
theorem first_fit_returns {h : KHeap} (sz : UInt64) (hu : h.Used h.heap_tail) :
    ∃ h', first_fit h sz = .ok (0, h') := by
  have key : ∀ (fuel : ℕ) (g : KHeap) (a : ℕ), g.Used a → g.heap_head + 2 ≤ a + fuel →
      ∃ h', first_fit_from sz fuel g a = some (0, h') := by
    intro fuel
    induction fuel with
    | zero =>
      intro g a hu hf
      have := hu.le
      omega
    | succ fuel ih =>
      intro g a hu hf
      have hle := hu.le
      rw [first_fit_from, if_neg hu.ne_zero]
      simp only [hu.not_free, Bool.false_eq_true, false_and, if_false]
      cases hu with
      | last h0 _ hn =>
        obtain ⟨fuel, rfl⟩ : ∃ k, fuel = k + 1 := ⟨fuel - 1, by omega⟩
        exact ⟨g, by simp [hn, first_fit_from]⟩
      | cons h0 _ hlt hu =>
        rw [if_pos (by omega)]
        refine ih _ _ (hu.same ⟨rfl, rfl, rfl, fun b => ?_⟩) ?_
        · by_cases hb : b = (g.block a).next
          · simp [hb]
          · simp [Function.update_of_ne hb]
        · dsimp only
          omega
  have hpos := Nat.pos_of_ne_zero hu.ne_zero
  have hhead : h.heap_head ≠ 0 := by have := hu.le; omega
  obtain ⟨h', hf⟩ := key (h.heap_head + 1) h h.heap_tail hu (by omega)
  exact ⟨h', bind_ok.2 ⟨(), by simp [ASSERT, hhead], ofFuel_ok.2 hf⟩⟩

/-- An allocation of at most a page returns when the page at address `0` is mapped as it asks. -/
theorem kmalloc_returns {m : Mm} (n_bytes : UInt64) (hu : m.heap.Used m.heap.heap_tail) (h0 : 0 < n_bytes)
    (hn : n_bytes ≤ 0x1000)
    (hv : vmm_map_page m.vm m.vm.cr3 0 (PAGE_PRESENT ||| PAGE_WRITABLE) = .ok m.vm) :
    ∃ p m', kmalloc m n_bytes = .ok (p, m') ∧ m'.vm = m.vm := by
  have hz : (0 : Int32).toInt64.toUInt64 = 0 := rfl
  have hp : (0 + 0x1000 : Int32).toInt64.toUInt64 = 0x1000 := rfl
  have ha : ALIGN_DOWN (UInt64.ofNat (DATA_START 0)) = 0 := by decide
  have hmap : kmalloc_map n_bytes (2 ^ 20) m.vm 0 (DATA_START 0) = .ok m.vm := by
    obtain ⟨fuel, hfuel⟩ : ∃ fuel, 2 ^ 20 = fuel + 2 := ⟨1048574, rfl⟩
    rw [hfuel, kmalloc_map, hz, if_pos h0, ha, hv]
    refine bind_ok.2 ⟨_, rfl, ?_⟩
    rw [kmalloc_map, hp, if_neg (UInt64.not_lt.2 hn)]
  unfold kmalloc
  split
  · exact ⟨0, m, rfl, rfl⟩
  · obtain ⟨heap, hf⟩ := first_fit_returns n_bytes hu
    exact ⟨_, _, bind_ok.2 ⟨_, hf, bind_ok.2 ⟨_, hmap, rfl⟩⟩, rfl⟩

/-- The page at address `0` is mapped already. -/
theorem bareMm_vm_map {logical : UInt64} (h : logical = 0 ∨ logical = UInt64.ofNat HEAP_START_ADDR) :
    vmm_map_page bareMm.vm bareMm.vm.cr3 logical (PAGE_PRESENT ||| PAGE_WRITABLE) = .ok bareMm.vm := by
  have htable : page_tbl_of bareMm.vm.ram bareMm.vm.cr3 logical = 0x103 ∧ pt_idx logical = 0 := by
    rcases h with rfl | rfl <;> decide
  refine vmm_map_page_ok.2 ⟨rfl, ?_, ?_⟩
  · rcases h with rfl | rfl <;> decide
  rw [htable.1, htable.2]
  refine set_leaf_ok.2 (.inl ⟨by decide, ?_⟩)
  have hleaf : bareMm.vm.ram.set 0x103 0 ((bareMm.vm.ram 0x103 0 &&& ~~~7) |||
      (PAGE_PRESENT ||| PAGE_WRITABLE).toUInt64) = bareMm.vm.ram := by
    funext f i
    unfold Lib.Paging.Ram.set
    split
    next hfi =>
      rw [hfi.1, hfi.2]
      decide
    next => rfl
  rw [hleaf]

/-- A request of 4096 bytes. -/
theorem small_request {s : HeapUse} (hl : s.Laid) (hv : s.mm.vm = bareMm.vm) :
    ∃ s', HeapStep s (.kmalloc 0x1000) s' ∧ s'.mm.vm = bareMm.vm := by
  have hmap : vmm_map_page s.mm.vm s.mm.vm.cr3 0 (PAGE_PRESENT ||| PAGE_WRITABLE) = .ok s.mm.vm := by
    rw [hv]
    exact bareMm_vm_map (.inl rfl)
  obtain ⟨p, mm, hk, hmm⟩ := kmalloc_returns 0x1000 hl.used (by decide) (by decide) hmap
  exact ⟨_, .inl (bind_ok.2 ⟨_, hk, rfl⟩), by rw [HeapUse.give_mm, hmm, hv]⟩

/-- Requests of 4096 bytes, one after another. -/
theorem small_requests {m₀ : Mm} (h₀ : kheap_init bareMm = .ok m₀) (hv : m₀.vm = bareMm.vm) (k : ℕ) :
    ∃ s, Lib.Run HeapStep FreesReturned (.start m₀) (List.replicate k (.kmalloc 0x1000)) s ∧
      s.mm.vm = bareMm.vm ∧ s.room = 4144 * k := by
  induction k with
  | zero => exact ⟨_, .nil, hv, rfl⟩
  | succ k ih =>
    obtain ⟨s, hr, hv, hroom⟩ := ih
    obtain ⟨hl, h0⟩ := HeapUse.laid_counter rfl h₀ hr
    obtain ⟨s', hc, hv'⟩ := small_request hl hv
    refine ⟨s', by rw [List.replicate_succ']; exact hr.snoc trivial hc, hv', ?_⟩
    cases hc.does hl.used with
    | nothing hlt _ _ _ _ =>
      have hlt := hlt _ rfl
      rw [h0] at hlt
      exact absurd hlt (by decide)
    | block hask _ _ _ hret _ _ =>
      obtain rfl := Option.some.inj hask
      simp only [HeapUse.room, hret, List.map_append, List.map_cons, List.map_nil, List.sum_append, List.sum_cons,
        List.sum_nil, HeapUse.fresh_block_size]
      rw [← HeapUse.room, hroom]
      simp
      omega

/-- The last of 1036431 requests of 4096 bytes is given a block behind the end of the heap. -/
theorem not_bounded : ¬∀ m m₀ cs s c s', m.heap.bytes_allocated = 0 → kheap_init m = .ok m₀ →
    Lib.Run HeapStep FreesReturned (.start m₀) cs s → HeapStep s c s' → Obeys s c s' := by
  intro hall
  have hinit := bareMm_vm_map (.inr rfl)
  obtain ⟨s, hr, hv, hroom⟩ := small_requests (bind_ok.2 ⟨_, hinit, rfl⟩) rfl 1036430
  have h₀ : kheap_init bareMm = .ok _ := bind_ok.2 ⟨_, hinit, rfl⟩
  obtain ⟨hl, h0⟩ := HeapUse.laid_counter rfl h₀ hr
  obtain ⟨s', hc, -⟩ := small_request hl hv
  have hfits := hl.fits h0 hc (hall _ _ _ _ _ _ rfl h₀ hr hc).1 0x1000 rfl
  rw [hroom] at hfits
  exact absurd hfits (by decide)

end Iridium
