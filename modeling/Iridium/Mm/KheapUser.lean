import Iridium.Mm.KheapRuns

/-!
# Blocks for processes

`kmalloc_user` makes the pages of its block accessible to ring 3. Blocks for processes and for the
kernel are from one heap, the header of a block lies right before its data and the next header right
behind, so a page is private to a process only by chance: the data must begin a page and end one.
`user_private` says exactly which calls keep the heap of the kernel out of the pages of processes.
-/

namespace Iridium

/-! ### The pages that are made accessible -/

/-- The pages that the loop of `kmalloc_user` maps for a block of `n` bytes at `p`. -/
def user_pages (p n : ℕ) : List ℕ :=
  (List.range ((p % 0x1000 + n + 0xfff) / 0x1000)).map fun i => p - p % 0x1000 + 0x1000 * i

/-- The bytes of a page. -/
def pageBytes (g : ℕ) : Set ℕ := Set.Ico g (g + 0x1000)

theorem mem_user_pages {p n g : ℕ} : g ∈ user_pages p n ↔ 0x1000 ∣ g ∧ p < g + 0x1000 ∧ g < p + n := by
  unfold user_pages
  constructor
  · intro h
    obtain ⟨i, hi, rfl⟩ := List.mem_map.1 h
    have hi := List.mem_range.1 hi
    refine ⟨⟨p / 0x1000 + i, ?_⟩, ?_, ?_⟩ <;> omega
  · rintro ⟨⟨k, rfl⟩, hp, hn⟩
    refine List.mem_map.2 ⟨k - p / 0x1000, List.mem_range.2 ?_, ?_⟩ <;> omega

/-- The address of the page an address lies in. -/
theorem ALIGN_DOWN_toNat (a : UInt64) : (ALIGN_DOWN a).toNat = a.toNat - a.toNat % 0x1000 := by
  have hm : (~~~(0x1000 - 1) : UInt64).toNat = (2 ^ 52 - 1) <<< 12 := by decide
  have hr : a.toNat - a.toNat % 0x1000 = (a.toNat >>> 12) <<< 12 := by
    rw [Nat.shiftLeft_eq, Nat.shiftRight_eq_div_pow]
    omega
  rw [ALIGN_DOWN, UInt64.toNat_and, hm, hr]
  refine Nat.eq_of_testBit_eq fun i => ?_
  rw [Nat.testBit_and, Nat.testBit_shiftLeft, Nat.testBit_shiftLeft, Nat.testBit_two_pow_sub_one,
    Nat.testBit_shiftRight]
  by_cases hi : 12 ≤ i
  · by_cases hlt : i - 12 < 52
    · simp [hi, hlt]
    · have : a.toNat.testBit i = false := Nat.testBit_lt_two_pow
        (Nat.lt_of_lt_of_le a.toNat_lt (Nat.pow_le_pow_right (by decide) (by omega)))
      simp [hi, hlt, this]
  · simp [hi]

/-- The loop maps its pages one after another. -/
theorem kmalloc_user_map_pages {stop fuel i k : ℕ} {vm vm' : Vm}
    (h : kmalloc_user_map stop fuel vm i = .ok vm') (hk : k = (stop - i + 0xfff) / 0x1000) :
    ((List.range k).map fun j => i + 0x1000 * j).foldlM (fun vm g => vmm_map_page vm vm.cr3 (UInt64.ofNat g)
      (PAGE_PRESENT ||| PAGE_WRITABLE ||| PAGE_USER)) vm = .ok vm' := by
  induction fuel generalizing vm i k with
  | zero => cases h
  | succ fuel ih =>
    unfold kmalloc_user_map at h
    split at h
    · obtain ⟨t, ht, h⟩ := bind_ok.1 h
      obtain ⟨k, rfl⟩ : ∃ j, k = j + 1 := ⟨k - 1, by omega⟩
      have hrest := ih h (k := k) (by omega)
      rw [List.range_succ_eq_map, List.map_cons, List.foldlM_cons, List.map_map]
      refine bind_ok.2 ⟨t, by simpa using ht, ?_⟩
      have hmap : (fun j => i + 0x1000 * j) ∘ Nat.succ = fun j => i + 0x1000 + 0x1000 * j := by
        funext j
        simp
        omega
      rwa [hmap]
    · obtain rfl := Except.ok.inj h
      obtain rfl : k = 0 := by omega
      rfl

/-- **The pages of a block** are those that `kmalloc_user` maps, present, writable and for ring 3. -/
theorem kmalloc_user_pages {m m' : Mm} {n_bytes : UInt64} {p : ℕ} (hp : p < 2 ^ 64)
    (h : kmalloc_user m n_bytes = .ok (p, m')) :
    ∃ m₁, kmalloc m n_bytes = .ok (p, m₁) ∧
      (user_pages p n_bytes.toNat).foldlM (fun vm g => vmm_map_page vm vm.cr3 (UInt64.ofNat g)
        (PAGE_PRESENT ||| PAGE_WRITABLE ||| PAGE_USER)) m₁.vm = .ok m'.vm := by
  obtain ⟨⟨block, m₁⟩, h₁, h⟩ := bind_ok.1 h
  obtain ⟨vm, hvm, h⟩ := bind_ok.1 h
  obtain ⟨rfl, rfl⟩ := Prod.mk.inj (pure_ok.1 h)
  refine ⟨m₁, h₁, ?_⟩
  have halign : (ALIGN_DOWN (UInt64.ofNat block)).toNat = block - block % 0x1000 := by
    rw [ALIGN_DOWN_toNat, UInt64.toNat_ofNat_of_lt' hp]
  rw [halign] at hvm
  exact kmalloc_user_map_pages hvm (by omega)

/-! ### Pages of processes and the heap of the kernel -/

/-- **The heap of the kernel is private**: no page that was made accessible to ring 3 contains a byte
of a header or of a block from `kmalloc`. -/
def HeapUse.Private (s : HeapUse) : Prop :=
  ∀ x ∈ s.shared, ∀ g ∈ user_pages x.1 x.2.toNat,
    (∀ a ∈ s.headers, Disjoint (pageBytes g) (headerBytes a)) ∧
    ∀ b ∈ s.returned, b.user = false → Disjoint (pageBytes g) b.data

/-- The last block ends with a page, if it is a process's. -/
def HeapUse.Covered (s : HeapUse) : Prop :=
  ∀ b ∈ s.returned.getLast?, b.user = true → b.size.toNat % 0x1000 = 0

/-- The call keeps the heap private. A block follows one of the kernel or one that ends with a page, and
for a process it begins a page; a request of a process that is too large ends below the heap. -/
def Clear (s : HeapUse) : HeapCall → Prop
  | .kmalloc n_bytes => n_bytes ≤ HEAP_SIZE → s.Covered
  | .kmalloc_user n_bytes =>
    (n_bytes ≤ HEAP_SIZE → s.Covered ∧ (96 + s.room) % 0x1000 = 0) ∧
      (HEAP_SIZE < n_bytes → n_bytes.toNat ≤ HEAP_START_ADDR)
  | _ => True

/-- The block of a request ends below `2 ^ 64`. -/
def NoWrap (s : HeapUse) (c : HeapCall) : Prop :=
  ∀ n_bytes ∈ c.asks, n_bytes ≤ HEAP_SIZE → HEAP_START_ADDR + 96 + s.room + n_bytes.toNat < 2 ^ 64

instance (s : HeapUse) : Decidable s.Covered :=
  decidable_of_iff (s.returned.getLast?.all fun b => b.user = true → b.size.toNat % 0x1000 = 0)
    (by simp only [Option.all_eq_true, decide_eq_true_eq]; rfl)

instance (s : HeapUse) (c : HeapCall) : Decidable (Clear s c) :=
  match c with
  | .kmalloc n_bytes => inferInstanceAs (Decidable (n_bytes ≤ HEAP_SIZE → s.Covered))
  | .kmalloc_user n_bytes => inferInstanceAs (Decidable
      ((n_bytes ≤ HEAP_SIZE → s.Covered ∧ (96 + s.room) % 0x1000 = 0) ∧
        (HEAP_SIZE < n_bytes → n_bytes.toNat ≤ HEAP_START_ADDR)))
  | .kfree _ | .elsewhere => .isTrue trivial

instance (s : HeapUse) (c : HeapCall) : Decidable (NoWrap s c) :=
  decidable_of_iff (c.asks.all fun n_bytes =>
    n_bytes ≤ HEAP_SIZE → HEAP_START_ADDR + 96 + s.room + n_bytes.toNat < 2 ^ 64) (by
    simp only [Option.all_eq_true, decide_eq_true_eq]
    rfl)

/-! ### The invariant -/

/-- **The blocks of processes** begin pages, and each but the last ends with one. -/
structure HeapUse.Clean (s : HeapUse) : Prop where
  /-- What was made accessible is a block of a process, or lies below the heap. -/
  shared : ∀ x ∈ s.shared, x.1 = 0 ∧ x.2.toNat ≤ HEAP_START_ADDR ∨
    ∃ b ∈ s.returned, b.user = true ∧ b.addr = x.1 ∧ b.size = x.2
  given : ∀ b ∈ s.returned, b.user = true → (b.addr, b.size) ∈ s.shared
  aligned : ∀ b ∈ s.returned, b.user = true → b.addr % 0x1000 = 0
  covered : s.blocks.Pairwise fun b _ => b.user = true → b.size.toNat % 0x1000 = 0

section Clean

variable {s s' : HeapUse} {c : HeapCall} {b : HeapBlock}

theorem HEAP_START_ADDR_page : HEAP_START_ADDR % 0x1000 = 0 := by decide

theorem HeapUse.start_clean (mm : Mm) : (HeapUse.start mm).Clean :=
  ⟨by simp [start], by simp [start], by simp [start], List.pairwise_singleton _ _⟩

/-- The next block goes behind the last one. -/
theorem HeapUse.Laid.fresh_last (h : s.Laid) (hb : b ∈ s.returned.getLast?) :
    s.mm.heap.fresh = b.addr + b.size.toNat := by
  have hmem : b ∈ s.blocks := List.mem_cons_of_mem _ (List.mem_of_getLast? hb)
  obtain ⟨l, hl⟩ := List.getLast?_eq_some_iff.1 hb
  have hhead := h.chain.head
  rw [headers, blocks, hl] at hhead
  replace hhead : b.header = s.mm.heap.heap_head := by
    simpa [List.getLast?_cons, List.getLast?_append] using hhead
  have hsize := h.size b hmem
  have haddr := h.addr hmem
  rw [KHeap.fresh_eq, ← hhead, hsize]
  omega

theorem HeapUse.mem_share {p : ℕ} {x : ℕ × UInt64} :
    x ∈ s.share p c ↔ x ∈ s.shared ∨ ∃ n_bytes, c = .kmalloc_user n_bytes ∧ x = (p, n_bytes) := by
  cases c <;> simp [share, or_comm]

theorem HeapUse.fresh_block_user {n_bytes : UInt64} (hc : c.asks = some n_bytes)
    (hu : (s.fresh_block n_bytes c).user = true) : c = .kmalloc_user n_bytes := by
  cases c with
  | kmalloc_user n => rw [Option.some.inj hc]
  | kmalloc | kfree | elsewhere => cases hu

theorem Clear.covered {n_bytes : UInt64} (h : Clear s c) (hc : c.asks = some n_bytes)
    (hle : n_bytes ≤ HEAP_SIZE) : s.Covered := by
  cases c with
  | kmalloc n =>
    obtain rfl := Option.some.inj hc
    exact h hle
  | kmalloc_user n =>
    obtain rfl := Option.some.inj hc
    exact (h.1 hle).1
  | kfree | elsewhere => cases hc

/-- All blocks are covered, when the last one is. -/
theorem HeapUse.Clean.covered_all (h : s.Clean) (hcov : s.Covered) (hb : b ∈ s.blocks)
    (hu : b.user = true) : b.size.toNat % 0x1000 = 0 := by
  rcases List.mem_cons.1 hb with rfl | hb
  · cases hu
  rcases List.eq_nil_or_concat s.returned with hnil | ⟨l, z, hl⟩
  · rw [hnil] at hb
    cases hb
  rw [List.concat_eq_append] at hl
  rw [hl] at hb
  rcases List.mem_append.1 hb with hb | hb
  · have hp := h.covered
    rw [blocks, hl, ← List.cons_append] at hp
    exact (List.pairwise_append.1 hp).2.2 b (List.mem_cons_of_mem _ hb) z (List.mem_singleton_self z) hu
  · obtain rfl := List.mem_singleton.1 hb
    exact hcov b (by simp [hl]) hu

/-- **One call.** -/
theorem HeapUse.Clean.served (h : s.Clean) (hl : s.Laid) (h0 : s.mm.heap.bytes_allocated = 0)
    (hC : Clear s c) (hc : HeapStep s c s') : s'.Clean := by
  have hpage := HEAP_START_ADDR_page
  cases hc.does hl.used with
  | nothing hlt _ hr _ hsh =>
    have hb : s'.blocks = s.blocks := by rw [blocks, blocks, hr]
    constructor
    · intro x hx
      rw [hsh, mem_share] at hx
      rw [hr]
      rcases hx with hx | ⟨n, rfl, rfl⟩
      · exact h.shared x hx
      · have hlt := hlt n rfl
        rw [h0, UInt64.zero_add] at hlt
        exact .inl ⟨rfl, hC.2 hlt⟩
    · intro b hb hu
      rw [hsh]
      exact mem_share.2 (.inl (h.given b (hr ▸ hb) hu))
    · rw [hr]
      exact h.aligned
    · rw [hb]
      exact h.covered
  | @block n hask hle _ _ hr _ hsh =>
    rw [h0, UInt64.zero_add] at hle
    have hblocks : s'.blocks = s.blocks ++ [s.fresh_block n c] := by simp [blocks, hr]
    have hmem : ∀ b, b ∈ s'.returned ↔ b ∈ s.returned ∨ b = s.fresh_block n c := fun b => by simp [hr]
    constructor
    · intro x hx
      rw [hsh, mem_share] at hx
      rcases hx with hx | ⟨m, rfl, rfl⟩
      · rcases h.shared x hx with hx | ⟨b, hb, hx⟩
        · exact .inl hx
        · exact .inr ⟨b, (hmem b).2 (.inl hb), hx⟩
      · obtain rfl := Option.some.inj hask
        exact .inr ⟨_, (hmem _).2 (.inr rfl), rfl, rfl, rfl⟩
    · intro b hb hu
      rw [hsh, mem_share]
      rcases (hmem b).1 hb with hb | rfl
      · exact .inl (h.given b hb hu)
      · obtain rfl := fresh_block_user hask hu
        exact .inr ⟨n, rfl, rfl⟩
    · intro b hb hu
      rcases (hmem b).1 hb with hb | rfl
      · exact h.aligned b hb hu
      · obtain rfl := fresh_block_user hask hu
        have hroom := (hC.1 hle).2
        rw [fresh_block_addr, hl.fresh_addr]
        omega
    · rw [hblocks]
      exact List.pairwise_append.2 ⟨h.covered, List.pairwise_singleton _ _,
        fun b hb d _ hu => h.covered_all (hC.covered hask hle) hb hu⟩

/-- Of two blocks one lies behind the other, which ends with a page if it is a process's. -/
theorem HeapUse.Clean.apart {d : HeapBlock} (h : s.Clean) (hl : s.Laid) (hb : b ∈ s.blocks)
    (hd : d ∈ s.blocks) : b = d ∨
      (b.addr + b.size.toNat ≤ d.header ∧ (b.user = true → b.size.toNat % 0x1000 = 0)) ∨
      d.addr + d.size.toNat ≤ b.header := by
  have hp := hl.spaced.and h.covered
  exact List.Pairwise.forall_of_forall_of_flip
    (R := fun b d => b = d ∨
      (b.addr + b.size.toNat ≤ d.header ∧ (b.user = true → b.size.toNat % 0x1000 = 0)) ∨
      d.addr + d.size.toNat ≤ b.header)
    (fun _ _ => Or.inl rfl) (hp.imp fun hlt => Or.inr (Or.inl hlt))
    (hp.imp fun hlt => Or.inr (Or.inr hlt.1)) hb hd

/-- A page of a block that begins and ends with pages lies in it. -/
theorem page_le {p n g : ℕ} (hp : p % 0x1000 = 0) (hg : 0x1000 ∣ g) (hlow : p < g + 0x1000) (hhigh : g < p + n)
    (hn : n % 0x1000 = 0) : p ≤ g ∧ g + 0x1000 ≤ p + n := by
  obtain ⟨k, rfl⟩ := hg
  omega

/-- **Clean blocks** keep the heap private. -/
theorem HeapUse.Clean.isPrivate (h : s.Clean) (hl : s.Laid) : s.Private := by
  have hpage := HEAP_START_ADDR_page
  intro x hx g hg
  obtain ⟨hdvd, hlow, hhigh⟩ := mem_user_pages.1 hg
  rcases h.shared x hx with ⟨h0, hle⟩ | ⟨b, hb, hu, hbx, hsize⟩
  · -- the page lies below the heap
    have hbelow : g + 0x1000 ≤ HEAP_START_ADDR := by omega
    refine ⟨fun a ha => ?_, fun c hc _ => ?_⟩
    · obtain ⟨c, hc, rfl⟩ := List.mem_map.1 ha
      have := hl.start c hc
      rw [pageBytes, headerBytes, Set.Ico_disjoint_Ico]
      omega
    · have hc := List.mem_cons_of_mem (⟨DATA_START HEAP_START_ADDR, 0, false⟩ : HeapBlock) hc
      have := hl.start c hc
      have := hl.addr hc
      rw [pageBytes, HeapBlock.data, Set.Ico_disjoint_Ico]
      omega
  · rw [← hbx] at hlow hhigh
    rw [← hsize] at hhigh
    have hb' : b ∈ s.blocks := List.mem_cons_of_mem _ hb
    have halign := h.aligned b hb hu
    have hle : b.addr ≤ g := by omega
    have haddr := hl.addr hb'
    -- a block above has its header behind this one
    have habove : ∀ d ∈ s.blocks, d = b ∨ d.addr + d.size.toNat ≤ b.header ∨ g + 0x1000 ≤ d.header := by
      intro d hd
      rcases h.apart hl hb' hd with rfl | ⟨hlt, hcov⟩ | hlt
      · exact .inl rfl
      · have hpage := page_le halign hdvd hlow hhigh (hcov hu)
        exact .inr (.inr (by omega))
      · exact .inr (.inl hlt)
    refine ⟨fun a ha => ?_, fun d hd hk => ?_⟩
    · obtain ⟨d, hd, rfl⟩ := List.mem_map.1 ha
      have := hl.addr hd
      rw [pageBytes, headerBytes, Set.Ico_disjoint_Ico]
      unfold KHEAP_BLOCK_SIZE
      rcases habove d hd with rfl | hlt | hlt <;> omega
    · have hd := List.mem_cons_of_mem (⟨DATA_START HEAP_START_ADDR, 0, false⟩ : HeapBlock) hd
      have := hl.addr hd
      rw [pageBytes, HeapBlock.data, Set.Ico_disjoint_Ico]
      rcases habove d hd with rfl | hlt | hlt
      · rw [hu] at hk
        cases hk
      · omega
      · omega

/-- A request that is not too large is given the next place. -/
theorem HeapUse.Does.given {n_bytes : UInt64} (h : s.Does c s') (h0 : s.mm.heap.bytes_allocated = 0)
    (hask : c.asks = some n_bytes) (hle : n_bytes ≤ HEAP_SIZE) :
    s'.shared = s.share (DATA_START s.mm.heap.fresh) c ∧ s.mm.heap.fresh ∈ s'.headers := by
  cases h with
  | nothing hlt _ _ _ _ =>
    have hlt := hlt n_bytes hask
    rw [h0, UInt64.zero_add] at hlt
    exact absurd hlt (UInt64.not_lt.2 hle)
  | @block m _ _ _ _ hr _ hsh =>
    refine ⟨hsh, List.mem_map.2 ⟨s.fresh_block m c, List.mem_cons_of_mem _ (by simp [hr]), ?_⟩⟩
    simp [HeapBlock.header, fresh_block_addr, DATA_START]

/-- A request that is too large is answered with `NULL`. -/
theorem HeapUse.Does.refused {n_bytes : UInt64} (h : s.Does c s') (h0 : s.mm.heap.bytes_allocated = 0)
    (hask : c.asks = some n_bytes) (hgt : HEAP_SIZE < n_bytes) : s'.shared = s.share 0 c := by
  cases h with
  | nothing _ _ _ _ hsh => exact hsh
  | @block m hask' hle _ _ _ _ _ =>
    obtain rfl := Option.some.inj (hask.symm.trans hask')
    rw [h0, UInt64.zero_add] at hle
    exact absurd hgt (UInt64.not_lt.2 hle)

/-- A byte of a header in a page that was made accessible. -/
theorem HeapUse.Private.header {x : ℕ × UInt64} {g a i : ℕ} (h : s.Private) (hx : x ∈ s.shared)
    (hg : g ∈ user_pages x.1 x.2.toNat) (ha : a ∈ s.headers) (hi : g ≤ i ∧ i < g + 0x1000)
    (hi' : a ≤ i ∧ i < a + 48) : False :=
  Set.disjoint_left.1 ((h x hx g hg).1 a ha) hi hi'

/-- **A call that keeps the heap private** is clear. -/
theorem HeapUse.Clean.clear (h : s.Clean) (hl : s.Laid) (h0 : s.mm.heap.bytes_allocated = 0)
    (hc : HeapStep s c s') (hp : s'.Private) : Clear s c := by
  have hpage := HEAP_START_ADDR_page
  have hdoes := hc.does hl.used
  have haddr := hl.fresh_addr
  have hcov : ∀ n, c.asks = some n → n ≤ HEAP_SIZE → s.Covered := by
    intro n hask hle b hlast hu
    by_contra hrest
    have hb := List.mem_of_getLast? hlast
    have halign := h.aligned b hb hu
    have hfresh := hl.fresh_last hlast
    obtain ⟨hsh, hnew⟩ := hdoes.given h0 hask hle
    -- the next header begins in the last page of the block
    refine hp.header (x := (b.addr, b.size)) (g := b.addr + b.size.toNat - b.size.toNat % 0x1000) ?_ ?_ hnew
      (i := s.mm.heap.fresh) (by omega) (by omega)
    · rw [hsh, mem_share]
      exact .inl (h.given b hb hu)
    · exact mem_user_pages.2 ⟨by omega, by dsimp only; omega, by dsimp only; omega⟩
  cases c with
  | kmalloc n => exact hcov n rfl
  | kmalloc_user n =>
    refine ⟨fun hle => ⟨hcov n rfl hle, ?_⟩, fun hgt => ?_⟩
    · by_contra hne
      obtain ⟨hsh, hnew⟩ := hdoes.given h0 rfl hle
      -- its own header ends in the page it begins in
      have hlast : DATA_START s.mm.heap.fresh = s.mm.heap.fresh + 48 := rfl
      refine hp.header (x := (DATA_START s.mm.heap.fresh, n))
        (g := DATA_START s.mm.heap.fresh - DATA_START s.mm.heap.fresh % 0x1000) ?_ ?_ hnew
        (i := s.mm.heap.fresh + 47) (by omega) (by omega)
      · rw [hsh]
        exact List.mem_cons_self
      · exact mem_user_pages.2 ⟨Nat.dvd_sub_mod _, by dsimp only; omega, by dsimp only; omega⟩
    · by_contra hlt
      -- the first header begins the heap
      refine hp.header (x := (0, n)) (g := HEAP_START_ADDR) ?_ ?_ (a := HEAP_START_ADDR) List.mem_cons_self
        (i := HEAP_START_ADDR) (by omega) (by omega)
      · rw [hdoes.refused h0 rfl hgt]
        exact List.mem_cons_self
      · exact mem_user_pages.2 ⟨Nat.dvd_of_mod_eq_zero hpage, by dsimp only; omega, by dsimp only; omega⟩
  | kfree | elsewhere => trivial

end Clean

/-- **In every run** whose calls are clear, the heap of the kernel is private; and it stays so in the
next call if and only if that is clear. -/
theorem user_private {m m₀ : Mm} {cs : List HeapCall} {s : HeapUse} (hm : m.heap.bytes_allocated = 0)
    (h₀ : kheap_init m = .ok m₀)
    (h : Lib.Run HeapStep (fun s c => NoWrap s c ∧ Clear s c) (.start m₀) cs s) :
    s.Private ∧ ∀ c s', NoWrap s c → HeapStep s c s' → (s'.Private ↔ Clear s c) := by
  have hs := h.invariant (I := fun s => (s.Laid ∧ s.mm.heap.bytes_allocated = 0) ∧ s.Clean)
    ⟨HeapUse.laid_counter hm h₀ (C := fun _ _ => True) .nil, HeapUse.start_clean m₀⟩
    fun hs hC hc => ⟨⟨hs.1.1.served hc, (hc.does hs.1.1.used).bytes_allocated.trans hs.1.2⟩,
      hs.2.served hs.1.1 hs.1.2 hC.2 hc⟩
  refine ⟨hs.2.isPrivate hs.1.1, fun c s' _ hc => ⟨hs.2.clear hs.1.1 hs.1.2 hc, fun hC => ?_⟩⟩
  exact (hs.2.served hs.1.1 hs.1.2 hC hc).isPrivate (hs.1.1.served hc)

/-- A block of 3952 bytes is followed by one of a page for a process, which begins a page. -/
theorem user_private_page : ∃ s : HeapUse, s.shared = [(HEAP_START_ADDR + 0x1000, 0x1000)] ∧
    s.returned.length = 3 ∧ s.Private := by
  obtain ⟨m₀, s, h₀, hr, hs⟩ := heapTraces_true (fun s c => NoWrap s c ∧ Clear s c)
    (fun s => s.shared = [(HEAP_START_ADDR + 0x1000, 0x1000)] ∧ s.returned.length = 3)
    [.kmalloc 3952, .kmalloc_user 0x1000, .kmalloc 8] (by decide +kernel)
  have hs := of_decide_eq_true hs
  exact ⟨s, hs.1, hs.2, (user_private rfl h₀ hr).1⟩

/-- One block of 8 bytes for a process, right after `kheap_init`. -/
theorem not_private : ¬∀ m m₀ cs s, m.heap.bytes_allocated = 0 → kheap_init m = .ok m₀ →
    Lib.Run HeapStep FreesReturned (.start m₀) cs s → s.Private := by
  obtain ⟨m₀, s, h₀, hr, -⟩ := heapTraces_true FreesReturned (fun _ => true) [.kmalloc_user 8] (by decide +kernel)
  intro hall
  obtain ⟨hl, h0⟩ := HeapUse.laid_counter (C := FreesReturned) rfl h₀ .nil
  obtain ⟨t, -, hc, ht⟩ := hr.cons_split rfl
  have hclear := (HeapUse.start_clean m₀).clear hl h0 hc (ht.of_nil rfl ▸ hall _ _ _ _ rfl h₀ hr)
  exact absurd (hclear.1 (by decide)).2 (by simp [HeapUse.start, HeapUse.room])

end Iridium
