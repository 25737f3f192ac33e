import Iridium.Proc.Stores

/-!
# Stores that spare the descriptors

As long as no store of the loader or of a program goes to the descriptor of a process in the queue, the masks
in memory are those of the processes: descriptors lie apart (`Kernel.Spaced`), the buffers of the loader lie
behind them, and a byte that is not stored to stays as it is. So what happens is a step, in a state that
differs in the bytes of the heap (`Moves.step`), and what every step keeps is kept.
-/

namespace Iridium

open Lib

/-! ### Masks in memory -/

/-- The bits of a field of 32 bits. -/
theorem testBit_read32 (mem : ℕ → UInt8) (a n : ℕ) (hn : n < 32) :
    (read32 mem a).toNat.testBit n = (mem (a + n / 8)).toNat.testBit (n % 8) := by
  have h8 : UInt16.toNat 8 % 16 = 8 := rfl
  have h16 : UInt32.toNat 16 % 32 = 16 := rfl
  simp only [read32, read16, UInt32.toNat_or, UInt16.toNat_toUInt32, UInt16.toNat_or, UInt8.toNat_toUInt16,
    UInt16.toNat_shiftLeft, UInt32.toNat_shiftLeft, Nat.testBit_or, Nat.testBit_mod_two_pow,
    Nat.testBit_shiftLeft, Nat.add_assoc, Nat.reduceAdd, h8, h16]
  obtain ⟨i, j, hj, rfl⟩ : ∃ i j, j < 8 ∧ n = 8 * i + j := ⟨n / 8, n % 8, by omega, by omega⟩
  rw [show (8 * i + j) / 8 = i by omega, show (8 * i + j) % 8 = j by omega]
  have hbyte : ∀ k, 8 ≤ k → (mem a).toNat.testBit k = false := fun k hk => testBit_byte hk
  have hbyte₂ : ∀ k, 8 ≤ k → (mem (a + 2)).toNat.testBit k = false := fun k hk => testBit_byte hk
  obtain rfl | rfl | rfl | rfl : i = 0 ∨ i = 1 ∨ i = 2 ∨ i = 3 := by omega
  · simp [show ¬8 ≤ j by omega, show ¬16 ≤ j by omega]
  · simp [hbyte (8 + j) (by omega), show ¬16 ≤ 8 + j by omega, show 8 + j < 16 by omega]
  · simp [hbyte (16 + j) (by omega), show ¬16 + j < 16 by omega, show 16 + j < 32 by omega, show ¬8 ≤ j by omega]
  · simp [hbyte (24 + j) (by omega), show 24 + j - 16 = 8 + j by omega, hbyte₂ (8 + j) (by omega),
      show ¬24 + j < 16 by omega, show 24 + j < 32 by omega, show 16 ≤ 24 + j by omega, show 8 + j < 16 by omega]

/-- A field of 32 bits, from its bytes. -/
theorem read32_getByte {mem : ℕ → UInt8} {a : ℕ} {w : UInt32} (h : ∀ j < 4, mem (a + j) = getByte w.toUInt64 j) :
    read32 mem a = w := by
  apply UInt32.toNat_inj.1
  apply Nat.eq_of_testBit_eq
  intro n
  by_cases hn : n < 32
  · rw [testBit_read32 mem a n hn, h _ (by omega), testBit_getByte (by omega) (Nat.mod_lt _ (by decide)),
      UInt32.toNat_toUInt64, Nat.div_add_mod]
  · have hlt : ∀ x : UInt32, x.toNat.testBit n = false := fun x =>
      Nat.testBit_lt_two_pow (Nat.lt_of_lt_of_le x.toNat_lt (Nat.pow_le_pow_right (by omega) (Nat.not_lt.1 hn)))
    rw [hlt, hlt]

namespace Kernel

/-- The descriptors in the queue lie apart: a block header lies between two blocks. -/
def Spaced (k : Kernel) : Prop := ∀ p q, k.Live p → k.Live q → p < q → p + KHEAP_BLOCK_SIZE ≤ q

variable {k : Kernel} {l : List ℕ} {mm : Mm} {p j : ℕ}

theorem mask_byte_eq (hs : k.Spaced) (hp : k.Live p) (hj : j < 4) :
    k.mask_byte (p + PERM_MASK_OFFSET + j) = some (getByte (k.procs p).perm_mask.toUInt64 j) := by
  obtain ⟨q, hq⟩ : ∃ q, k.queue.find? (fun q => q + PERM_MASK_OFFSET ≤ p + PERM_MASK_OFFSET + j ∧
      p + PERM_MASK_OFFSET + j < q + PERM_MASK_OFFSET + 4) = some q := by
    rw [← Option.isSome_iff_exists, List.find?_isSome]
    exact ⟨p, hp, decide_eq_true ⟨by omega, by omega⟩⟩
  have hrange := List.find?_some hq
  rw [decide_eq_true_eq] at hrange
  obtain rfl : q = p := by
    have hlive : k.Live q := List.mem_of_find?_eq_some hq
    have hlt := hs p q hp hlive
    have hgt := hs q p hlive hp
    unfold KHEAP_BLOCK_SIZE at hlt hgt
    omega
  rw [mask_byte, hq, Option.map_some, Nat.add_sub_cancel_left]

/-- **The masks of the processes in the queue** are in memory. -/
theorem masks_out_byte (hs : k.Spaced) (hp : k.Live p) (hj : j < 4) :
    k.masks_out.bytes (p + PERM_MASK_OFFSET + j) = getByte (k.procs p).perm_mask.toUInt64 j := by
  show (k.mask_byte _).getD _ = _
  rw [mask_byte_eq hs hp hj]
  rfl

/-- Masks that memory has as they are do not change. -/
theorem masks_in_eq (h : ∀ p ∈ l, ∀ j < 4, mm.bytes (p + PERM_MASK_OFFSET + j) =
    getByte (k.procs p).perm_mask.toUInt64 j) : k.masks_in l mm = { k with mm } := by
  have hprocs : (fun p => if p ∈ l then { k.procs p with perm_mask := read32 mm.bytes (p + PERM_MASK_OFFSET) }
      else k.procs p) = k.procs := by
    funext p
    split
    next hp => rw [read32_getByte (h p hp)]
    next => rfl
  rw [masks_in, hprocs]

/-- The bytes of a mask are bytes of a descriptor. -/
theorem mem_descriptors (hp : k.Live p) (hj : j < 4) : p + PERM_MASK_OFFSET + j ∈ k.descriptors := by
  refine List.mem_flatMap.2 ⟨p, hp, List.mem_range'_1.2 ⟨by omega, ?_⟩⟩
  have hsize : PROCESS_SIZE.toNat = 272 := rfl
  have hoffset : PERM_MASK_OFFSET = 12 := rfl
  omega

end Kernel

/-! ### What the loader leaves as it is -/

section Kept

variable {l : List ℕ} {q : ℕ} {m m' : Mm} {s : Vm} {a : UInt64} {b : UInt8}

/-- A store that misses a byte. -/
theorem store8_byte (hq : q ∈ l) (hm : Avoids l m.vm a) (h : m.store8 a b = .ok m') : m'.bytes q = m.bytes q := by
  obtain ⟨vm, -, h⟩ := bind_ok.1 h
  obtain rfl := pure_ok.1 h
  exact if_neg (hm q hq)

theorem elf_copy_byte {phdr src fuel : ℕ} {segment i : UInt64} (hq : q ∈ l)
    (ha : (elf_copy_told phdr src segment fuel m i).All (Keeps l))
    (h : elf_copy phdr src segment fuel m i = .ok m') : m'.bytes q = m.bytes q := by
  induction fuel generalizing m i with
  | zero => cases h
  | succ fuel ih =>
    unfold elf_copy_told at ha
    unfold elf_copy at h
    replace ha := (Traced.all_tells_bind.1 ha).2
    split at h
    next hi =>
      rw [if_pos hi, Traced.all_tell_bind, Traced.all_tell_bind, Traced.all_lift_bind] at ha
      obtain ⟨t, ht, h⟩ := bind_ok.1 h
      exact (ih (ha.2.2 t ht) h).trans (store8_byte hq ha.2.1 ht)
    next =>
      obtain rfl := Except.ok.inj h
      rfl

theorem elf_load_one_byte {file phdr : ℕ} {cr3 : UInt64} (hq : q ∈ l)
    (ha : (elf_load_one_told file cr3 m phdr).All (Keeps l)) (h : elf_load_one file cr3 m phdr = .ok m') :
    m'.bytes q = m.bytes q := by
  unfold elf_load_one_told at ha
  unfold elf_load_one at h
  replace ha := (Traced.all_tells_bind.1 ha).2
  split at h
  next hload =>
    rw [if_pos hload, elf_load_told] at ha
    replace ha := (Traced.all_tells_bind.1 ha).2
    replace ha := (Traced.all_tells_bind.1 ha).2
    obtain ⟨vm, hvm, h⟩ := bind_ok.1 h
    replace ha := ((Traced.all_bind_ok (elf_map_told_result.trans hvm)).1 ha).2
    replace ha := (Traced.all_tells_bind.1 ha).2
    exact elf_copy_byte (m := { m with vm }) hq ha h
  next =>
    obtain rfl := Except.ok.inj h
    rfl

theorem elf_load_all_byte {file phentsize n phdr : ℕ} {cr3 : UInt64} (hq : q ∈ l)
    (ha : (elf_load_all_told file cr3 phentsize n m phdr).All (Keeps l))
    (h : elf_load_all file cr3 phentsize n m phdr = .ok m') : m'.bytes q = m.bytes q := by
  induction n generalizing m phdr with
  | zero =>
    obtain rfl := Except.ok.inj h
    rfl
  | succ n ih =>
    obtain ⟨t, ht, h⟩ := bind_ok.1 h
    rw [elf_load_all_told, Traced.all_bind_ok (elf_load_one_told_result.trans ht)] at ha
    exact (ih ha.2 h).trans (elf_load_one_byte hq ha.1 ht)

/-- A buffer for a file lies behind the last block. -/
theorem initrd_open_byte {path : List UInt8} {ptr : ℕ} (hu : m.heap.Used m.heap.heap_tail)
    (hlt : q < DATA_START m.heap.heap_head + KHEAP_BLOCK_SIZE) (h : initrd_open m path = .ok (ptr, m')) :
    m'.bytes q = m.bytes q := by
  obtain ⟨o, -, h⟩ := bind_ok.1 h
  cases o with
  | none =>
    obtain ⟨-, rfl⟩ := Prod.mk.inj (pure_ok.1 h)
    rfl
  | some e =>
    obtain ⟨⟨buf, m₁⟩, hk, h⟩ := bind_ok.1 h
    obtain ⟨-, hnull | ⟨hbuf, hhead⟩⟩ := kmalloc_ok hu hk
    · dsimp only at h
      rw [if_pos hnull.1] at h
      cases h
    · dsimp only at h
      split at h
      · cases h
      obtain ⟨-, rfl⟩ := Prod.mk.inj (pure_ok.1 h)
      have hbelow : q < buf := by
        unfold DATA_START at *
        omega
      rw [← kmalloc_bytes hk]
      exact (if_neg fun hin => by omega).trans (if_neg (by omega))

/-- **The loader keeps a byte** that it does not store to, below its own buffers. -/
theorem elf_get_entry_byte {path : List UInt8} {cr3 rip : UInt64} (hu : m.heap.Used m.heap.heap_tail) (hq : q ∈ l)
    (hlt : q < DATA_START m.heap.heap_head + KHEAP_BLOCK_SIZE)
    (ha : (elf_get_entry_told m path cr3).All (Keeps l)) (h : elf_get_entry m path cr3 = .ok (rip, m')) :
    m'.bytes q = m.bytes q := by
  obtain ⟨⟨ptr, m₁⟩, ho, h⟩ := bind_ok.1 h
  rw [elf_get_entry_told, Traced.all_lift_bind] at ha
  replace ha := ha _ ho
  have hopen := initrd_open_byte hu hlt ho
  obtain ⟨hg, -⟩ := initrd_open_ok hu ho
  dsimp only at h ha
  split at h
  next =>
    obtain ⟨-, rfl⟩ := Prod.mk.inj (pure_ok.1 h)
    exact hopen
  next hptr =>
    rw [if_neg hptr] at ha
    replace ha := (Traced.all_tells_bind.1 ha).2
    split at h
    next =>
      obtain ⟨-, rfl⟩ := Prod.mk.inj (pure_ok.1 h)
      exact hopen
    next hacc =>
      rw [if_neg hacc, Traced.all_tell_bind, Traced.all_lift_bind] at ha
      obtain ⟨⟨hdrs, m₂⟩, hk, h⟩ := bind_ok.1 h
      replace ha := ha.2 _ hk
      dsimp only at h ha
      split at h
      next => cases h
      next hnull =>
        rw [if_neg hnull] at ha
        replace ha := (Traced.all_tells_bind.1 ha).2
        obtain ⟨m₃, hm₃, h⟩ := bind_ok.1 h
        obtain ⟨-, rfl⟩ := Prod.mk.inj (pure_ok.1 h)
        replace ha := ((Traced.all_bind_ok (elf_load_all_told_result.trans hm₃)).1 ha).1
        have hbytes := kmalloc_bytes hk
        obtain ⟨-, ⟨h0, -⟩ | ⟨hhdrs, hhead⟩⟩ := kmalloc_ok (hg.used hu) hk
        · have hsize : (read_ehdr m₁.bytes ptr).phdrs_size = 0 := not_not.1 fun hs => hnull ⟨h0, hs⟩
          refine (elf_load_all_byte hq ha hm₃).trans ((if_neg ?_).trans ((congrFun hbytes q).trans hopen))
          rw [hsize]
          exact fun hin => absurd hin.2 (Nat.not_lt.2 hin.1)
        · refine (elf_load_all_byte hq ha hm₃).trans ((if_neg ?_).trans ((congrFun hbytes q).trans hopen))
          have hle := hg.head
          unfold DATA_START at *
          omega

theorem setup_stack_bytes {old ctx : ℕ → UInt64} {cr3 old_cr3 rflags rip : UInt64}
    (h : setup_stack m old cr3 old_cr3 rflags rip = .ok (ctx, m')) : m'.bytes = m.bytes := by
  obtain ⟨⟨stack, m₂⟩, h₂, h⟩ := bind_ok.1 h
  obtain ⟨⟨block, m₁⟩, h₁, h₂⟩ := bind_ok.1 h₂
  obtain ⟨vm₂, -, h₂⟩ := bind_ok.1 h₂
  obtain ⟨-, rfl⟩ := Prod.mk.inj (pure_ok.1 h₂)
  obtain ⟨_, -, h⟩ := bind_ok.1 h
  obtain ⟨vm, -, h⟩ := bind_ok.1 h
  obtain ⟨-, rfl⟩ := Prod.mk.inj (pure_ok.1 h)
  have hbytes := kmalloc_bytes h₁
  exact hbytes

/-- So does the part of a spawn from a file that follows. -/
theorem setup_context_byte {old ctx : ℕ → UInt64} {rflags cr3 : UInt64} {path : List UInt8} {vm : Vm}
    (hu : m.heap.Used m.heap.heap_tail) (hq : q ∈ l) (hlt : q < DATA_START m.heap.heap_head + KHEAP_BLOCK_SIZE)
    (hvm : mkpml4 m.vm = .ok (cr3, vm))
    (ha : (elf_get_entry_told { m with vm := { vm with cr3 } } path cr3).All (Keeps l))
    (h : setup_context m old rflags 0 path = .ok (ctx, m')) : m'.bytes q = m.bytes q := by
  obtain ⟨⟨cr3', vm'⟩, hvm', h⟩ := bind_ok.1 h
  obtain ⟨rfl, rfl⟩ := Prod.mk.inj (Except.ok.inj (hvm.symm.trans hvm'))
  dsimp only at h
  rw [if_pos rfl] at h
  obtain ⟨⟨rip, m₁⟩, he, h⟩ := bind_ok.1 h
  rw [setup_stack_bytes h]
  exact elf_get_entry_byte (m := { m with vm := { vm with cr3 } }) hu hq hlt ha he

end Kept

/-! ### Stores are steps -/

/-- The state, with other bytes in the buffers on the heap. -/
def Kernel.refill (k : Kernel) (bytes : ℕ → UInt8) : Kernel := { k with mm := { k.mm with bytes } }

/-- An allocation looks at no byte of the buffers. -/
theorem kmalloc_refill {m m' : Mm} {n_bytes : UInt64} {p : ℕ} (bytes : ℕ → UInt8)
    (h : kmalloc m n_bytes = .ok (p, m')) : kmalloc { m with bytes } n_bytes = .ok (p, { m' with bytes }) := by
  unfold kmalloc at h ⊢
  split at h
  next hb =>
    obtain ⟨rfl, rfl⟩ := Prod.mk.inj (pure_ok.1 h)
    exact if_pos hb
  next hb =>
    obtain ⟨⟨region, heap⟩, hf, h⟩ := bind_ok.1 h
    obtain ⟨vm, hvm, h⟩ := bind_ok.1 h
    refine (if_neg hb).trans (bind_ok.2 ⟨_, hf, bind_ok.2 ⟨vm, hvm, ?_⟩⟩)
    dsimp only at h ⊢
    split at h
    next hr =>
      obtain ⟨rfl, rfl⟩ := Prod.mk.inj (pure_ok.1 h)
      exact if_pos hr
    next hr =>
      obtain ⟨rfl, rfl⟩ := Prod.mk.inj (pure_ok.1 h)
      exact if_neg hr

section Steps

variable {k k' : Kernel} {path : List UInt8} {permissions : PPERM_T} {uses_console : UInt8} {e : ERRNO_T}

/-- A descriptor that is new lies behind the others. -/
theorem kmalloc_descriptor {p : ℕ} {mm : Mm} (hk : k.mm.HeapOk) (hp : kmalloc k.mm PROCESS_SIZE = .ok (p, mm)) :
    k.mm.Grows mm ∧ p = DATA_START mm.heap.heap_head ∧ k.frontier + KHEAP_BLOCK_SIZE ≤ p := by
  obtain ⟨hg, hpos, hlt⟩ := hk.kmalloc_ok (by decide) hp
  refine ⟨hg, hpos, ?_⟩
  obtain ⟨-, hnull | ⟨-, hhead⟩⟩ := kmalloc_ok hk.used hp
  · omega
  · rw [hpos]
    exact Nat.add_le_add_right hhead _

/-- **A process is linked**, and lies apart from the others. -/
theorem linked_append (permissions : PPERM_T) (uses_console : UInt8) {p : ℕ} {mm : Mm} (hw : k.WellFormed)
    (hs : k.Spaced) (hp : kmalloc k.mm PROCESS_SIZE = .ok (p, mm)) :
    (append k p mm permissions uses_console).Linked (k.queue ++ [p]) ∧
      (append k p mm permissions uses_console).Spaced := by
  obtain ⟨hg, hpos, hfar⟩ := kmalloc_descriptor hw.heap hp
  have hfresh : k.frontier < p := Nat.lt_of_lt_of_le (Nat.lt_add_of_pos_right (by decide)) hfar
  have hlink : (append k p mm permissions uses_console).Linked (k.queue ++ [p]) := by
    rw [append_eq (hw.linked.fresh_ne hfresh)]
    exact hw.linked.link hfresh (Nat.le_of_eq hpos) rfl rfl
  refine ⟨hlink, fun q r hq hr hlt => ?_⟩
  unfold Kernel.Live at hq hr
  rw [hlink.queue_eq, List.mem_append, List.mem_singleton] at hq hr
  rcases hq with hq | rfl
  · rcases hr with hr | rfl
    · exact hs q r hq hr hlt
    · exact Nat.le_trans (Nat.add_le_add_right (hw.le hq) _) hfar
  · have hle : r ≤ q := hr.elim (fun hr => Nat.le_of_lt (Nat.lt_of_le_of_lt (hw.le hr) hfresh)) Nat.le_of_eq
    omega

/-- **The masks are as they were** when the loader has stored to no descriptor. -/
theorem masks_setup_context {l : List ℕ} {old ctx : ℕ → UInt64} {rflags : UInt64} {mm : Mm} (hl : k.Linked l)
    (hs : k.Spaced) (hu : k.mm.heap.Used k.mm.heap.heap_tail)
    (ha : ∀ cr3 vm, mkpml4 k.mm.vm = .ok (cr3, vm) →
      (elf_get_entry_told { k.masks_out with vm := { vm with cr3 } } path cr3).All (Keeps k.descriptors))
    (h : setup_context k.masks_out old rflags 0 path = .ok (ctx, mm)) : k.masks_in k.queue mm = { k with mm } := by
  refine Kernel.masks_in_eq fun p hp j hj => ?_
  have hctx := h
  obtain ⟨⟨cr3, vm⟩, hvm, -⟩ := bind_ok.1 h
  have hbelow := hl.below p (hl.queue_eq ▸ hp)
  rw [← Kernel.masks_out_byte hs hp hj]
  refine setup_context_byte hu (Kernel.mem_descriptors hp hj) ?_ hvm (ha _ _ hvm) hctx
  show p + PERM_MASK_OFFSET + j < k.frontier + KHEAP_BLOCK_SIZE
  unfold PERM_MASK_OFFSET KHEAP_BLOCK_SIZE
  omega

/-- **A spawn whose stores spare the descriptors** is a spawn, in a state with other bytes in memory. -/
theorem _spawn_stored_ok (hw : k.WellFormed) (hs : k.Spaced)
    (hspares : (Action.initrd_spawn path permissions uses_console).Spares k)
    (h : _spawn_stored k path permissions uses_console = .ok (e, k')) :
    ∃ bytes, _spawn (k.refill bytes) 0 path permissions uses_console = .ok (e, k') := by
  unfold _spawn_stored at h
  split at h
  next hd =>
    obtain ⟨rfl, rfl⟩ := Prod.mk.inj (pure_ok.1 h)
    exact ⟨k.mm.bytes, if_pos hd⟩
  next hd =>
    have hgranted : denied k permissions = false := by
      rw [← Bool.not_eq_true]
      intro hdenied
      simp only [denied, Bool.and_eq_true, bne_iff_ne] at hdenied
      exact hd hdenied
    obtain ⟨⟨p, mm⟩, hp, h⟩ := bind_ok.1 h
    obtain ⟨_, h0, h⟩ := bind_ok.1 h
    dsimp only at h
    obtain ⟨o, ho, h⟩ := bind_ok.1 h
    obtain ⟨_, hsome, h⟩ := bind_ok.1 h
    obtain ⟨⟨ctx, mm'⟩, hctx, h⟩ := bind_ok.1 h
    obtain ⟨rfl, rfl⟩ := Prod.mk.inj (pure_ok.1 h)
    obtain ⟨hg, -⟩ := kmalloc_descriptor hw.heap hp
    obtain ⟨hlink, hspaced⟩ := linked_append permissions uses_console hw hs hp
    have hmasks := masks_setup_context hlink hspaced (hg.used hw.heap.used) (fun cr3 vm hvm =>
      hspares hgranted _ (bind_ok.2 ⟨_, hp, bind_ok.2 ⟨_, hvm, rfl⟩⟩)) hctx
    rw [hmasks]
    exact ⟨(append k p mm permissions uses_console).masks_out.bytes, (if_neg hd).trans (bind_ok.2 ⟨_, kmalloc_refill _ hp,
      bind_ok.2 ⟨_, h0, bind_ok.2 ⟨o, ho, bind_ok.2 ⟨_, hsome, bind_ok.2 ⟨_, hctx, rfl⟩⟩⟩⟩⟩)⟩

/-- So is a spawn from a file. -/
theorem _initrd_spawn_stored_ok {pid : PID_T} (hw : k.WellFormed) (hs : k.Spaced)
    (hspares : (Action.initrd_spawn path permissions uses_console).Spares k)
    (h : _initrd_spawn_stored k path permissions uses_console = .ok (pid, k')) :
    ∃ bytes, _initrd_spawn (k.refill bytes) path permissions uses_console = .ok (pid, k') := by
  obtain ⟨⟨errno, k₁⟩, h₁, h⟩ := bind_ok.1 h
  obtain ⟨bytes, hb⟩ := _spawn_stored_ok hw hs hspares h₁
  exact ⟨bytes, bind_ok.2 ⟨_, hb, h⟩⟩

/-- Whatever the kernel does, is. -/
theorem act_stored_ok {a : Action} {o : UInt64} (hw : k.WellFormed) (hs : k.Spaced) (hspares : a.Spares k)
    (h : act_stored k a = .ok (o, k')) : ∃ bytes, act (k.refill bytes) a = .ok (o, k') := by
  cases a with
  | initrd_spawn path permissions uses_console =>
    obtain ⟨⟨pid, k₁⟩, h₁, h⟩ := bind_ok.1 h
    obtain ⟨bytes, hb⟩ := _initrd_spawn_stored_ok hw hs hspares h₁
    exact ⟨bytes, bind_ok.2 ⟨_, hb, h⟩⟩
  | _ => exact ⟨k.mm.bytes, h⟩

/-- The two states agree but for what memory holds. -/
def Kernel.SameData (k k' : Kernel) : Prop := ∃ mm : Mm, mm.heap = k.mm.heap ∧ k' = { k with mm }

theorem Event.Possible.enabled {ev : Event} {a : Action} (hp : ev.Possible k) (ha : ev.action k = some a)
    (bytes : ℕ → UInt8) : Enabled (k.refill bytes) a := by
  intro hs
  cases ev with
  | timer t =>
    obtain rfl := Option.some.inj ha
    rfl
  | keyboard port beyond =>
    obtain rfl := Option.some.inj ha
    rfl
  | syscall c | fault => exact absurd (hp.symm.trans hs) (by decide)

/-- **What happens without stores to descriptors** changes what memory holds, or is a step. -/
theorem Moves.step {m : Move} (hw : k.WellFormed) (hs : k.Spaced) (hspares : m.Spares k) (h : Moves k m k') :
    k.SameData k' ∨ ∃ ev a o bytes, m = .event ev ∧ ev.action k = some a ∧ Step (k.refill bytes) (a, o) k' := by
  obtain ⟨hp, h⟩ := h
  cases m with
  | event ev =>
    unfold move at h
    dsimp only at h
    split at h
    next =>
      obtain rfl := Except.ok.inj h
      exact .inl ⟨k.mm, rfl, rfl⟩
    next a ha =>
      obtain ⟨⟨o, k₁⟩, h₁, h⟩ := bind_ok.1 h
      obtain rfl := pure_ok.1 h
      obtain ⟨bytes, hb⟩ := act_stored_ok hw hs (hspares a ha) h₁
      exact .inr ⟨ev, a, o, bytes, rfl, ha, hp.enabled ha bytes, hb⟩
  | store a b =>
    replace h : store_user k a b = .ok k' := h
    unfold store_user at h
    split at h
    next => cases h
    next hit =>
      split at h
      next =>
        obtain ⟨mm, hmm, h⟩ := bind_ok.1 h
        obtain rfl := pure_ok.1 h
        have hmasks : k.masks_in k.queue mm = { k with mm } := by
          refine Kernel.masks_in_eq fun q hq j hj => ?_
          rw [store8_byte (m := k.masks_out) (Kernel.mem_descriptors hq hj) hspares hmm, Kernel.masks_out_byte hs hq hj]
        exact .inl ⟨mm, (store8_stores hmm).heap, hmasks⟩
      next => cases h

end Steps

/-! ### The invariant -/

section Invariant

variable {k k' : Kernel} {a : Action} {o : UInt64}

theorem Kernel.SameData.sameLinks (h : k.SameData k') : k.SameLinks k' := by
  obtain ⟨mm, hheap, rfl⟩ := h
  exact ⟨hheap, rfl, rfl, fun _ => rfl, fun _ => rfl, fun _ => rfl⟩

theorem Kernel.SameData.procs (h : k.SameData k') : k'.procs = k.procs := by
  obtain ⟨mm, -, rfl⟩ := h
  rfl

theorem Kernel.sameData_refill (k : Kernel) (bytes : ℕ → UInt8) : k.SameData (k.refill bytes) :=
  ⟨{ k.mm with bytes }, rfl, rfl⟩

theorem Kernel.WellFormed.sameData (hw : k.WellFormed) (h : k.SameData k') : k'.WellFormed := by
  obtain ⟨mm, hheap, rfl⟩ := h
  exact hw.same (Kernel.SameData.sameLinks ⟨mm, hheap, rfl⟩) hw.current_le hw.running hw.dead

theorem Kernel.Spaced.sameData (hs : k.Spaced) (h : k.SameData k') : k'.Spaced := by
  intro p q hp hq
  rw [h.sameLinks.live] at hp hq
  exact hs p q hp hq

/-- Who comes into the queue lies behind the others, and is the head. -/
theorem Arrives.apart {p : ℕ} (hk : k.mm.HeapOk) (h : Arrives k a p k') :
    k.frontier + KHEAP_BLOCK_SIZE ≤ p ∧ k'.queue_head = p := by
  cases h with
  | loaded _ _ hs =>
    obtain ⟨m₁, vm, hp, -⟩ := hs.cr3
    exact ⟨(kmalloc_descriptor hk hp).2.2, rfl⟩
  | handles _ _ hs =>
    obtain ⟨m₁, vm, hp, -⟩ := hs.cr3
    exact ⟨(kmalloc_descriptor hk hp).2.2, rfl⟩

/-- **Descriptors lie apart** after every step. -/
theorem Kernel.Spaced.effect (hs : k.Spaced) (hw : k.WellFormed) (hE : Effect k a o k') : k'.Spaced := by
  intro p q hp hq hlt
  by_cases hp' : k.Live p
  · by_cases hq' : k.Live q
    · exact hs p q hp' hq' hlt
    · exact Nat.le_trans (Nat.add_le_add_right (hw.le hp') _) ((arrives hw hE hq' hq).apart hw.heap).1
  · obtain ⟨hfar, hhead⟩ := (arrives hw hE hp' hp).apart hw.heap
    by_cases hq' : k.Live q
    · have hle := hw.le hq'
      omega
    · have hhead' := ((arrives hw hE hq' hq).apart hw.heap).2
      omega

theorem Booted.spaced (h : Booted k) : k.Spaced := by
  intro p q hp hq hlt
  rw [h.live_eq hp, h.live_eq hq] at hlt
  exact absurd hlt (Nat.lt_irrefl _)

/-- Who handles signals is the same with other bytes in memory. -/
theorem Handles.of_refill {bytes : ℕ → UInt8} {p : ℕ} (h : Handles (k.refill bytes) k' p) : Handles k k' p :=
  ⟨h.fresh, h.handler, h.owner, h.callback, h.rip, h.perm_mask, h.sigq⟩

/-- **One step with stores.** -/
theorem Moves.wellFormed {m : Move} (hw : k.WellFormed) (hs : k.Spaced) (hspares : m.Spares k) (h : Moves k m k') :
    k'.WellFormed ∧ k'.Spaced := by
  rcases h.step hw hs hspares with hd | ⟨ev, a, o, bytes, -, -, hS⟩
  · exact ⟨hw.sameData hd, hs.sameData hd⟩
  · have hw' := hw.sameData (k.sameData_refill bytes)
    exact ⟨hS.wellFormed hw', (hs.sameData (k.sameData_refill bytes)).effect hw' (hS.effect hw')⟩

/-- **Every state that a run with stores reaches** is well formed, as long as they spare the descriptors. -/
theorem Started.moves {C : Kernel → Move → Prop} {ms : List Move} (h₀ : Started k) (h : Lib.Run Moves C k ms k')
    (hC : ∀ t m, C t m → m.Spares t) : k'.WellFormed ∧ k'.Spaced :=
  h.invariant (I := fun t => t.WellFormed ∧ t.Spaced) ⟨h₀.booted.1, h₀.booted.2.spaced⟩ fun hI hm hS =>
    hS.wellFormed hI.1 hI.2 (hC _ _ hm)

/-- What an event comes to without the loader is the same with stores as without. -/
theorem Happens.moves {ev : Event} (h : Happens k ev k')
    (hload : ∀ path permissions uses_console, ev.action k ≠ some (.initrd_spawn path permissions uses_console)) :
    Moves k (.event ev) k' := by
  refine ⟨h.1, ?_⟩
  unfold move
  dsimp only
  rcases h.step with ⟨hnone, rfl⟩ | ⟨a, o, ha, hS⟩
  · rw [hnone]
  · rw [ha]
    cases a with
    | initrd_spawn path permissions uses_console => exact absurd ha (hload _ _ _)
    | _ => exact bind_ok.2 ⟨_, hS.2, rfl⟩

end Invariant

end Iridium
