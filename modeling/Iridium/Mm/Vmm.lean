import Iridium.Mm.Pmm
import Iridium.Lib.Paging

/-!
# The virtual memory manager

`mm/vmm.c`. Page tables are frames of physical memory, reached at their physical
addresses through the bootloader's identity map. `vmm_map_page` walks four levels,
makes the tables that are missing, and writes one leaf.

Its mutex is a static variable, and each table it makes it maps by calling itself: the
call waits for the mutex its caller holds. So a mapping that needs a new table never
returns (`vmm_map_page_ok`), and one that returns has written one word: the leaf.
-/

namespace Iridium

open Lib.Paging

def PAGE_PRESENT : UInt32 := 1
def PAGE_WRITABLE : UInt32 := 2
def PAGE_USER : UInt32 := 4
def PAGE_ADDR_MASK : UInt64 := 0x000FFFFFFFFFF000

/-- `ALIGN_DOWN(address, 0x1000)`. -/
def ALIGN_DOWN (address : UInt64) : UInt64 := address &&& ~~~(0x1000 - 1)

/-- The number of a frame below `2^40` survives the mask. -/
theorem frame_of_address {i : UInt64} (h : i < 0x10000000000) :
    ((0x1000 * i) &&& PAGE_ADDR_MASK) / 0x1000 = i := by
  have hi : i.toNat < 2 ^ 40 := by simpa [UInt64.lt_iff_toNat_lt] using h
  have hmul : (0x1000 * i : UInt64).toNat = i.toNat <<< 12 := by
    rw [UInt64.toNat_mul, Nat.shiftLeft_eq]
    simp
    omega
  apply UInt64.toNat_inj.1
  rw [UInt64.toNat_div, UInt64.toNat_and, hmul]
  have hmask : PAGE_ADDR_MASK.toNat = (2 ^ 40 - 1) <<< 12 := by decide
  rw [hmask, ← Nat.shiftLeft_and_distrib, Nat.and_two_pow_sub_one_eq_mod, Nat.mod_eq_of_lt hi,
    Nat.shiftLeft_eq]
  simp

/-- Physical memory, the frame allocator, the mutex of `vmm_map_page`, and `cr3`. -/
structure Vm where
  /-- Physical memory. -/
  ram : Ram
  /-- The frame allocator. -/
  pmm : Pmm
  /-- The mutex of `vmm_map_page`. -/
  lock : Bool
  /-- The address space in use. -/
  cr3 : UInt64

def pml4_idx (logical : UInt64) : ℕ := index 3 logical
def pdpt_idx (logical : UInt64) : ℕ := index 2 logical
def pd_idx (logical : UInt64) : ℕ := index 1 logical
def pt_idx (logical : UInt64) : ℕ := index 0 logical

/-- `(uint64_t*)(entry & PAGE_ADDR_MASK)`: the table an entry points to. -/
def table (e : UInt64) : ℕ := frameNo (e &&& PAGE_ADDR_MASK)

/-- One level of `vmm_map_page`: when entry `i` of table `t` is absent, a frame is taken,
zeroed, entered, and mapped by `map`. -/
def make_table (map : Vm → UInt64 → Kern Vm) (s : Vm) (t i : ℕ) (flags : UInt32) : Kern Vm :=
  if present (s.ram t i) then .ok s
  else do
    let (alloc, pmm) ← pmm_alloc s.pmm
    let ram := s.ram.setFrame (frameNo alloc) fun _ => 0
    map { s with pmm, ram := ram.set t i ((alloc &&& PAGE_ADDR_MASK) ||| flags.toUInt64) } alloc

/-- The last level: a leaf that is absent gets a frame; one that is present keeps its
frame and has its low three bits replaced. -/
def set_leaf (s : Vm) (t i : ℕ) (flags : UInt32) : Kern Vm :=
  let e := s.ram t i
  if present e then .ok { s with ram := s.ram.set t i ((e &&& ~~~7) ||| flags.toUInt64) }
  else do
    let (phys_map, pmm) ← pmm_alloc s.pmm
    return { s with pmm, ram := s.ram.set t i ((phys_map &&& PAGE_ADDR_MASK) ||| flags.toUInt64) }

/-- `vmm_map_page`, its calls of itself nested at most `depth` deep. -/
def vmm_map_page_at : ℕ → Vm → UInt64 → UInt64 → UInt32 → Kern Vm
  | 0, _, _, _, _ => .error .endless
  | depth + 1, s, pml4, logical, flags =>
    if s.lock then .error .deadlock
    else do
      let map := fun s a => vmm_map_page_at depth s pml4 a flags
      let s := { s with lock := true }
      let s ← make_table map s (frameNo pml4) (pml4_idx logical) flags
      let pdpt := table (s.ram (frameNo pml4) (pml4_idx logical))
      let s ← make_table map s pdpt (pdpt_idx logical) flags
      let pdt := table (s.ram pdpt (pdpt_idx logical))
      let s ← make_table map s pdt (pd_idx logical) flags
      let page_tbl := table (s.ram pdt (pd_idx logical))
      let s ← set_leaf s page_tbl (pt_idx logical) flags
      return { s with lock := false }

/-- `vmm_map_page`. A call of itself finds the mutex held, so two levels are enough. -/
def vmm_map_page (s : Vm) (pml4 logical : UInt64) (flags : UInt32) : Kern Vm :=
  vmm_map_page_at 2 s pml4 logical flags

/-- `vmm_alloc_page`: a frame, mapped at the virtual address equal to its number. -/
def vmm_alloc_page (s : Vm) : Kern (UInt64 × Vm) := do
  let (frame, pmm) ← pmm_alloc s.pmm
  let s := { s with pmm }
  if frame = 0 then return (0, s)
  let s ← vmm_map_page s s.cr3 frame (PAGE_PRESENT ||| PAGE_WRITABLE)
  return (frame &&& PAGE_ADDR_MASK, s)

/-- `mkpml4`: a new top-level table, a copy of the 512 entries of the one in use. -/
def mkpml4 (s : Vm) : Kern (UInt64 × Vm) := do
  let (new_pml, s) ← vmm_alloc_page s
  let source_pml4 := s.ram (frameNo s.cr3)
  return (new_pml &&& PAGE_ADDR_MASK, { s with ram := s.ram.setFrame (frameNo new_pml) source_pml4 })

/-! ### Writing through a virtual address -/

/-- Byte `i` of a word replaced. -/
def setByte (w : UInt64) (i : ℕ) (b : UInt8) : UInt64 :=
  (w &&& ~~~(0xff <<< UInt64.ofNat (8 * i))) ||| (b.toUInt64 <<< UInt64.ofNat (8 * i))

/-- The word of its frame an address lies in. -/
def wordNo (a : UInt64) : ℕ := a.toNat % 4096 / 8

/-- A byte written at a virtual address. -/
def write8 (s : Vm) (a : UInt64) (b : UInt8) : Kern Vm :=
  match translate s.ram s.cr3 a with
  | none => .error .fault
  | some h =>
    let w := s.ram h.frame (wordNo a)
    .ok { s with ram := s.ram.set h.frame (wordNo a) (setByte w (a.toNat % 8) b) }

/-- Two addresses lead to one byte of memory. -/
def same_byte (s : Vm) (a b : UInt64) : Bool :=
  match translate s.ram s.cr3 a, translate s.ram s.cr3 b with
  | some h, some h' => h.frame == h'.frame && a.toNat % 4096 == b.toNat % 4096
  | _, _ => false

/-- The bytes of a word at address `a`, whose page is on frame `f` and the next page on frame `g`. -/
def spread (m : Ram) (a w : UInt64) (f g : ℕ) : Ram :=
  (List.range 8).foldl (fun m i =>
    let b := a + UInt64.ofNat i
    let frame := if frameNo b = frameNo a then f else g
    m.set frame (wordNo b) (setByte (m frame (wordNo b)) (b.toNat % 8) (w >>> UInt64.ofNat (8 * i)).toUInt8)) m

/-- A word written at a virtual address. Where the address is no multiple of 8, its bytes lie in two
words, and the last of them may be on the next page. -/
def write64 (s : Vm) (a w : UInt64) : Kern Vm :=
  if a.toNat % 8 = 0 then
    match translate s.ram s.cr3 a with
    | none => .error .fault
    | some h => .ok { s with ram := s.ram.set h.frame (wordNo a) w }
  else
    match translate s.ram s.cr3 a, translate s.ram s.cr3 (a + 7) with
    | some h, some h' => .ok { s with ram := spread s.ram a w h.frame h'.frame }
    | _, _ => .error .fault

/-- What a mask keeps of a word some bits of which are replaced. -/
theorem replaced_and (w n b mask : UInt64) :
    ((w &&& ~~~n) ||| b) &&& mask = (w &&& (~~~n &&& mask)) ||| (b &&& mask) := by
  rw [← UInt64.and_assoc]
  exact UInt64.toBitVec_inj.1 BitVec.and_or_distrib_right

/-! ### What a mapping that returns has done -/

/-- The software walk of `vmm_map_page` down to the page table of an address. -/
def pdpt_of (m : Ram) (pml4 logical : UInt64) : ℕ := table (m (frameNo pml4) (pml4_idx logical))

def pdt_of (m : Ram) (pml4 logical : UInt64) : ℕ :=
  table (m (pdpt_of m pml4 logical) (pdpt_idx logical))

def page_tbl_of (m : Ram) (pml4 logical : UInt64) : ℕ :=
  table (m (pdt_of m pml4 logical) (pd_idx logical))

/-- The leaf of an address in the tables of a space. -/
def leaf (m : Ram) (cr3 v : UInt64) : UInt64 := m (page_tbl_of m cr3 v) (pt_idx v)

/-- The three tables on the way to the leaf of an address are there. -/
structure TablesPresent (m : Ram) (pml4 logical : UInt64) : Prop where
  /-- The entry of the top-level table. -/
  pdpt : present (m (frameNo pml4) (pml4_idx logical)) = true
  /-- The entry of the page-directory-pointer table. -/
  pdt : present (m (pdpt_of m pml4 logical) (pdpt_idx logical)) = true
  /-- The entry of the page directory. -/
  page_tbl : present (m (pdt_of m pml4 logical) (pd_idx logical)) = true

instance (m : Ram) (pml4 logical : UInt64) : Decidable (TablesPresent m pml4 logical) :=
  decidable_of_iff
    (present (m (frameNo pml4) (pml4_idx logical)) = true ∧
      present (m (pdpt_of m pml4 logical) (pdpt_idx logical)) = true ∧
      present (m (pdt_of m pml4 logical) (pd_idx logical)) = true)
    ⟨fun ⟨h₁, h₂, h₃⟩ => ⟨h₁, h₂, h₃⟩, fun ⟨h₁, h₂, h₃⟩ => ⟨h₁, h₂, h₃⟩⟩

theorem vmm_map_page_at_held {depth : ℕ} {s : Vm} {pml4 logical : UInt64} {flags : UInt32}
    (h : s.lock = true) : ∀ s', vmm_map_page_at depth s pml4 logical flags ≠ .ok s' := by
  intro s'
  cases depth <;> simp [vmm_map_page_at, h]

/-- A table that has to be made is mapped with the mutex held: the call never returns. -/
theorem make_table_ok {depth : ℕ} {s s' : Vm} {pml4 : UInt64} {t i : ℕ} {flags : UInt32}
    (hl : s.lock = true) :
    make_table (fun s a => vmm_map_page_at depth s pml4 a flags) s t i flags = .ok s' ↔
      present (s.ram t i) = true ∧ s' = s := by
  unfold make_table
  split
  next hp => simp [hp, eq_comm]
  next hp =>
    refine ⟨fun h => ?_, fun h => absurd h.1 hp⟩
    obtain ⟨⟨a, pmm⟩, -, h⟩ := bind_ok.1 h
    exact absurd h (vmm_map_page_at_held (by exact hl) s')

/-- **A leaf that is set** keeps its frame when it is present, and gets one that `pmm_alloc` answers
with when it is not. -/
theorem set_leaf_ok {s s' : Vm} {t i : ℕ} {flags : UInt32} : set_leaf s t i flags = .ok s' ↔
    (present (s.ram t i) = true ∧
      s' = { s with ram := s.ram.set t i ((s.ram t i &&& ~~~7) ||| flags.toUInt64) }) ∨
    (present (s.ram t i) = false ∧ ∃ phys_map pmm, pmm_alloc s.pmm = .ok (phys_map, pmm) ∧
      s' = { s with pmm, ram := s.ram.set t i ((phys_map &&& PAGE_ADDR_MASK) ||| flags.toUInt64) }) := by
  unfold set_leaf
  dsimp only
  cases present (s.ram t i) with
  | true => simp [eq_comm]
  | false =>
    constructor
    · intro h
      obtain ⟨⟨a, pmm⟩, ha, h⟩ := bind_ok.1 h
      exact .inr ⟨rfl, a, pmm, ha, (pure_ok.1 h).symm⟩
    · rintro (⟨hp, -⟩ | ⟨-, a, pmm, ha, rfl⟩)
      · cases hp
      · exact bind_ok.2 ⟨(a, pmm), ha, rfl⟩

/-- It returns when the leaf is present, or `pmm_alloc` does. -/
theorem set_leaf_returns {s : Vm} {t i : ℕ} {flags : UInt32} :
    (∃ s', set_leaf s t i flags = .ok s') ↔ present (s.ram t i) = true ∨ s.pmm.lock = false := by
  constructor
  · rintro ⟨s', h⟩
    rcases set_leaf_ok.1 h with ⟨hp, -⟩ | ⟨-, a, pmm, ha, -⟩
    · exact .inl hp
    · exact .inr (pmm_alloc_answers.1 a pmm ha).2
  · intro h
    cases hp : present (s.ram t i) with
    | true => exact ⟨_, set_leaf_ok.2 (.inl ⟨hp, rfl⟩)⟩
    | false =>
      obtain ⟨pmm, ha⟩ := pmm_alloc_answers.2 (h.resolve_left (ne_true_of_eq_false hp))
      exact ⟨_, set_leaf_ok.2 (.inr ⟨hp, _, pmm, ha, rfl⟩)⟩

/-- **A mapping that returns**, however deep its calls of itself are nested, found its mutex free and
the three tables present, and did what `set_leaf` does to the leaf. -/
theorem vmm_map_page_at_ok {depth : ℕ} {s s' : Vm} {pml4 logical : UInt64} {flags : UInt32} :
    vmm_map_page_at (depth + 1) s pml4 logical flags = .ok s' ↔
      s.lock = false ∧ TablesPresent s.ram pml4 logical ∧
        set_leaf s (page_tbl_of s.ram pml4 logical) (pt_idx logical) flags = .ok s' := by
  rw [vmm_map_page_at]
  cases hs : s.lock with
  | true => simp
  | false =>
    simp only [Bool.false_eq_true, if_false, true_and]
    have hleaf : ∀ t i, (do
        let u ← set_leaf { s with lock := true } t i flags
        return { u with lock := false } : Kern Vm) = set_leaf s t i flags := by
      intro t i
      obtain ⟨ram, pmm, lock, cr3⟩ := s
      obtain rfl : lock = false := hs
      unfold set_leaf
      dsimp only
      split
      · rfl
      · cases pmm_alloc pmm <;> rfl
    constructor
    · intro h
      obtain ⟨s₁, h₁, h⟩ := bind_ok.1 h
      obtain ⟨p₁, rfl⟩ := (make_table_ok rfl).1 h₁
      obtain ⟨s₂, h₂, h⟩ := bind_ok.1 h
      obtain ⟨p₂, rfl⟩ := (make_table_ok rfl).1 h₂
      obtain ⟨s₃, h₃, h⟩ := bind_ok.1 h
      obtain ⟨p₃, rfl⟩ := (make_table_ok rfl).1 h₃
      exact ⟨⟨p₁, p₂, p₃⟩, by rw [← hleaf]; exact h⟩
    · rintro ⟨⟨p₁, p₂, p₃⟩, h⟩
      refine bind_ok.2 ⟨_, (make_table_ok rfl).2 ⟨p₁, rfl⟩, ?_⟩
      refine bind_ok.2 ⟨_, (make_table_ok rfl).2 ⟨p₂, rfl⟩, ?_⟩
      refine bind_ok.2 ⟨_, (make_table_ok rfl).2 ⟨p₃, rfl⟩, ?_⟩
      rw [← hleaf] at h
      exact h

theorem vmm_map_page_ok {s s' : Vm} {pml4 logical : UInt64} {flags : UInt32} :
    vmm_map_page s pml4 logical flags = .ok s' ↔
      s.lock = false ∧ TablesPresent s.ram pml4 logical ∧
        set_leaf s (page_tbl_of s.ram pml4 logical) (pt_idx logical) flags = .ok s' :=
  vmm_map_page_at_ok

/-! ### What mapping and writing leave alone -/

/-- `s'` comes from `s` by mapping pages and writing: the address space in use is the same,
and no frame was given back. -/
structure Vm.Takes (s s' : Vm) : Prop where
  cr3 : s'.cr3 = s.cr3
  pmm : s.pmm.Takes s'.pmm

@[refl] theorem Vm.Takes.refl (s : Vm) : s.Takes s := ⟨rfl, .refl _⟩

theorem Vm.Takes.trans {r s t : Vm} (h₁ : r.Takes s) (h₂ : s.Takes t) : r.Takes t :=
  ⟨h₂.cr3.trans h₁.cr3, h₁.pmm.trans h₂.pmm⟩

theorem set_leaf_takes {s s' : Vm} {t i : ℕ} {flags : UInt32} (h : set_leaf s t i flags = .ok s') :
    s.Takes s' := by
  rcases set_leaf_ok.1 h with ⟨-, rfl⟩ | ⟨-, a, pmm, ha, rfl⟩
  · exact ⟨rfl, .refl _⟩
  · exact ⟨rfl, pmm_alloc_takes ha⟩

theorem vmm_map_page_takes {s s' : Vm} {pml4 logical : UInt64} {flags : UInt32}
    (h : vmm_map_page s pml4 logical flags = .ok s') : s.Takes s' :=
  set_leaf_takes (vmm_map_page_ok.1 h).2.2

/-- **A new top-level table** has the frame that `pmm_alloc` handed out. -/
theorem mkpml4_ok {s s' : Vm} {a : UInt64} (h : mkpml4 s = .ok (a, s')) :
    ∃ frame pmm, pmm_alloc s.pmm = .ok (frame, pmm) ∧ a = frame &&& PAGE_ADDR_MASK ∧
      s'.cr3 = s.cr3 ∧ pmm.Takes s'.pmm := by
  have hmask : ∀ x : UInt64, x &&& PAGE_ADDR_MASK &&& PAGE_ADDR_MASK = x &&& PAGE_ADDR_MASK := by
    intro x
    rw [UInt64.and_assoc, UInt64.and_self]
  obtain ⟨⟨new_pml, t⟩, ht, h⟩ := bind_ok.1 h
  obtain ⟨rfl, rfl⟩ := Prod.mk.inj (pure_ok.1 h)
  obtain ⟨⟨frame, pmm⟩, ha, ht⟩ := bind_ok.1 ht
  refine ⟨frame, pmm, ha, ?_⟩
  dsimp only at ht ⊢
  split at ht
  next h0 =>
    obtain ⟨rfl, rfl⟩ := Prod.mk.inj (pure_ok.1 ht)
    exact ⟨by rw [h0], rfl, .refl _⟩
  next =>
    obtain ⟨u, hu, ht⟩ := bind_ok.1 ht
    obtain ⟨rfl, rfl⟩ := Prod.mk.inj (pure_ok.1 ht)
    have hm := vmm_map_page_takes hu
    exact ⟨hmask frame, hm.cr3, hm.pmm⟩

theorem mkpml4_takes {s s' : Vm} {a : UInt64} (h : mkpml4 s = .ok (a, s')) : s.Takes s' := by
  obtain ⟨frame, pmm, ha, -, hc, hp⟩ := mkpml4_ok h
  exact ⟨hc, (pmm_alloc_takes ha).trans hp⟩

theorem write8_takes {s s' : Vm} {a : UInt64} {b : UInt8} (h : write8 s a b = .ok s') : s.Takes s' := by
  unfold write8 at h
  split at h
  · cases h
  · obtain rfl := Except.ok.inj h
    exact ⟨rfl, .refl _⟩

theorem write64_takes {s s' : Vm} {a w : UInt64} (h : write64 s a w = .ok s') : s.Takes s' := by
  unfold write64 at h
  split at h
  · split at h
    · cases h
    · obtain rfl := Except.ok.inj h
      exact ⟨rfl, .refl _⟩
  · split at h
    · obtain rfl := Except.ok.inj h
      exact ⟨rfl, .refl _⟩
    · cases h

end Iridium
