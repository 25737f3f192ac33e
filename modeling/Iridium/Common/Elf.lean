import Iridium.Fs.Initrd

/-!
# The program loader

`common/elf.c`: the file is opened in the initial ramdisk, its header checked, its
program headers copied, and each `PT_LOAD` segment mapped and copied to its physical
address field `p_paddr`, taken as a virtual address. The pages mapped go from the segment
to twice its end.

Nothing keeps `p_paddr` off the memory of the kernel. A segment that lies on the loader's own
buffers changes what it reads next, here as there. What a store does to other data of the kernel
(its code and stack, the headers of the heap, the descriptors of processes, the bitmap of the
frames) is not modelled here: the loader is assumed to stay off them.
-/

namespace Iridium

def PT_LOAD : UInt32 := 1
def ET_EXEC : UInt16 := 2
def EM_X86_64 : UInt16 := 62
def EV_CURRENT : UInt32 := 1
def ELFCLASS64 : UInt8 := 2

section Read

variable (mem : ℕ → UInt8) (a : ℕ)

/-- A little-endian field of 16 bits. -/
def read16 : UInt16 := (mem a).toUInt16 ||| ((mem (a + 1)).toUInt16 <<< 8)

/-- A little-endian field of 32 bits. -/
def read32 : UInt32 := (read16 mem a).toUInt32 ||| ((read16 mem (a + 2)).toUInt32 <<< 16)

/-- A little-endian field of 64 bits. -/
def read64 : UInt64 := (read32 mem a).toUInt64 ||| ((read32 mem (a + 4)).toUInt64 <<< 32)

end Read

/-- `Elf64_Ehdr`, the fields the loader reads. -/
structure Elf64_Ehdr where
  e_ident : List UInt8
  e_type : UInt16
  e_machine : UInt16
  e_version : UInt32
  e_entry : UInt64
  e_phoff : UInt64
  e_phentsize : UInt16
  e_phnum : UInt16

/-- `Elf64_Phdr`, the fields the loader reads. -/
structure Elf64_Phdr where
  p_type : UInt32
  p_offset : UInt64
  p_paddr : UInt64
  p_filesz : UInt64
  p_memsz : UInt64

/-- The header copied from the file at `a`. -/
def read_ehdr (mem : ℕ → UInt8) (a : ℕ) : Elf64_Ehdr where
  e_ident := [mem a, mem (a + 1), mem (a + 2), mem (a + 3), mem (a + 4)]
  e_type := read16 mem (a + 16)
  e_machine := read16 mem (a + 18)
  e_version := read32 mem (a + 20)
  e_entry := read64 mem (a + 24)
  e_phoff := read64 mem (a + 32)
  e_phentsize := read16 mem (a + 54)
  e_phnum := read16 mem (a + 56)

/-- The program header read through a pointer to `a`. -/
def read_phdr (mem : ℕ → UInt8) (a : ℕ) : Elf64_Phdr where
  p_type := read32 mem a
  p_offset := read64 mem (a + 8)
  p_paddr := read64 mem (a + 24)
  p_filesz := read64 mem (a + 32)
  p_memsz := read64 mem (a + 40)

/-- The checks of `elf_get_entry`: magic, class, type, machine and version. -/
def Elf64_Ehdr.acceptable (h : Elf64_Ehdr) : Bool :=
  h.e_ident == [0x7f, 0x45, 0x4c, 0x46, ELFCLASS64] && h.e_type == ET_EXEC &&
    h.e_machine == EM_X86_64 && h.e_version == EV_CURRENT

/-- `e_phnum * e_phentsize`, an `int`. -/
def Elf64_Ehdr.phdrs_size (h : Elf64_Ehdr) : UInt64 :=
  (h.e_phnum.toUInt32.toInt32 * h.e_phentsize.toUInt32.toInt32).toInt64.toUInt64

/-- The loop that maps a segment: from `i` up to `stop`. -/
def elf_map (cr3 stop : UInt64) : ℕ → Vm → UInt64 → Kern Vm
  | 0, _, _ => .error .endless
  | fuel + 1, s, i =>
    if i < stop then do
      let s ← vmm_map_page s cr3 i (PAGE_PRESENT ||| PAGE_WRITABLE ||| PAGE_USER)
      elf_map cr3 stop fuel s (i + 0x1000)
    else .ok s

/-- The loop that copies a segment, from byte `i` on. The size of the segment is read again in each turn. -/
def elf_copy (phdr elf_ptr : ℕ) (segment : UInt64) : ℕ → Mm → UInt64 → Kern Mm
  | 0, _, _ => .error .endless
  | fuel + 1, m, i =>
    if i < (read_phdr m.bytes phdr).p_filesz then do
      let m ← m.store8 (segment + i) (m.bytes (elf_ptr + i.toNat))
      elf_copy phdr elf_ptr segment fuel m (i + 1)
    else .ok m

/-- One `PT_LOAD` segment, with its header at `phdr`. The index of the mapping loop is where it was
after `2^52` turns. -/
def elf_load (file : ℕ) (cr3 : UInt64) (m : Mm) (phdr : ℕ) : Kern Mm := do
  let h := read_phdr m.bytes phdr
  let n_pages := (h.p_memsz + 0x1000 - 1).toUInt32.toInt32
  let segment := h.p_paddr
  let vm ← elf_map cr3 ((segment + n_pages.toInt64.toUInt64) * 2) (2 ^ 52) m.vm segment
  elf_copy phdr (file + h.p_offset.toNat) segment (2 ^ 64) { m with vm } 0

/-- One turn of the loop over the program headers. -/
def elf_load_one (file : ℕ) (cr3 : UInt64) (m : Mm) (phdr : ℕ) : Kern Mm :=
  if (read_phdr m.bytes phdr).p_type = PT_LOAD then elf_load file cr3 m phdr else .ok m

/-- That loop: `n` headers, from the one at `phdr` on. -/
def elf_load_all (file : ℕ) (cr3 : UInt64) (phentsize : ℕ) : ℕ → Mm → ℕ → Kern Mm
  | 0, m, _ => .ok m
  | n + 1, m, phdr => do
    let m ← elf_load_one file cr3 m phdr
    elf_load_all file cr3 phentsize n m (phdr + phentsize)

/-- `elf_get_entry`: the entry point, or `0` when the file is not there or not accepted.
The size it stores through `phdrs_size` is used by no caller. -/
def elf_get_entry (m : Mm) (path : List UInt8) (cr3 : UInt64) : Kern (UInt64 × Mm) := do
  let (elf_ptr, m) ← initrd_open m path
  if elf_ptr = 0 then return (0, m)
  let header := read_ehdr m.bytes elf_ptr
  if !header.acceptable then return (0, m)
  let (prog_headers, m) ← kmalloc m header.phdrs_size
  -- a copy to `NULL` runs over low memory, to an address that no memory is at
  if prog_headers = 0 ∧ header.phdrs_size ≠ 0 then throw .fault
  let bytes := fun a =>
    if prog_headers ≤ a ∧ a < prog_headers + header.phdrs_size.toNat then
      m.bytes (elf_ptr + header.e_phoff.toNat + (a - prog_headers))
    else m.bytes a
  let m := { m with bytes }
  let n := if header.e_phentsize = 0 then 0 else header.e_phnum.toNat
  let m ← elf_load_all elf_ptr cr3 header.e_phentsize.toNat n m prog_headers
  return (header.e_entry, m)

/-! ### What the loader answers -/

/-- `sizeof(Elf64_Ehdr)`. -/
def EHDR_SIZE : UInt64 := 64

/-- The header of the file whose entry in the archive is at `address`. -/
def file_ehdr (m : Mm) (address : UInt64) : Elf64_Ehdr :=
  read_ehdr (fun i => m.module (address + 0x200 + UInt64.ofNat i)) 0

/-- **An acceptable ELF image**: the archive holds a file of that name with a whole header,
and the header passes the checks of the loader. -/
def acceptable_image (m : Mm) (path : List UInt8) : Bool :=
  match initrd_find m path with
  | .ok (some (address, sz)) => EHDR_SIZE ≤ sz && (file_ehdr m address).acceptable
  | _ => false

/-- The entry point the header of a file names. -/
def entry_point (m : Mm) (path : List UInt8) : UInt64 :=
  match initrd_find m path with
  | .ok (some (address, _)) => (file_ehdr m address).e_entry
  | _ => 0

theorem Mm.Grows.image {m m' : Mm} (h : m.Grows m') (path : List UInt8) :
    acceptable_image m' path = acceptable_image m path ∧ entry_point m' path = entry_point m path := by
  unfold acceptable_image entry_point file_ehdr
  rw [h.initrd_find, h.module]
  exact ⟨rfl, rfl⟩

section Congr

variable {mem mem' : ℕ → UInt8} {a b : ℕ}

theorem read16_congr (h : ∀ i < 2, mem (a + i) = mem' (b + i)) : read16 mem a = read16 mem' b := by
  have h0 : mem a = mem' b := h 0 (by omega)
  rw [read16, read16, h0, h 1 (by omega)]

theorem read32_congr (h : ∀ i < 4, mem (a + i) = mem' (b + i)) : read32 mem a = read32 mem' b := by
  have hlow : read16 mem a = read16 mem' b := read16_congr fun i hi => h i (by omega)
  have hhigh : read16 mem (a + 2) = read16 mem' (b + 2) := read16_congr fun i hi => by
    rw [Nat.add_assoc, Nat.add_assoc, h (2 + i) (by omega)]
  rw [read32, read32, hlow, hhigh]

theorem read64_congr (h : ∀ i < 8, mem (a + i) = mem' (b + i)) : read64 mem a = read64 mem' b := by
  have hlow : read32 mem a = read32 mem' b := read32_congr fun i hi => h i (by omega)
  have hhigh : read32 mem (a + 4) = read32 mem' (b + 4) := read32_congr fun i hi => by
    rw [Nat.add_assoc, Nat.add_assoc, h (4 + i) (by omega)]
  rw [read64, read64, hlow, hhigh]

/-- A field at `k`. -/
theorem field_congr {k n size : ℕ} (h : ∀ i < size, mem (a + i) = mem' (b + i)) (hk : k + n ≤ size) :
    ∀ i < n, mem (a + k + i) = mem' (b + k + i) := by
  intro i hi
  rw [Nat.add_assoc, Nat.add_assoc]
  exact h (k + i) (by omega)

/-- A header is determined by its bytes. -/
theorem read_ehdr_congr (h : ∀ i < 64, mem (a + i) = mem' (b + i)) : read_ehdr mem a = read_ehdr mem' b := by
  have hfield : ∀ {k n : ℕ}, k + n ≤ 64 → ∀ i < n, mem (a + k + i) = mem' (b + k + i) :=
    fun hk => field_congr h hk
  have h0 : mem a = mem' b := h 0 (by omega)
  rw [read_ehdr, read_ehdr, h0, h 1 (by omega), h 2 (by omega), h 3 (by omega), h 4 (by omega),
    read16_congr (hfield (k := 16) (by omega)), read16_congr (hfield (k := 18) (by omega)),
    read32_congr (hfield (k := 20) (by omega)), read64_congr (hfield (k := 24) (by omega)),
    read64_congr (hfield (k := 32) (by omega)), read16_congr (hfield (k := 54) (by omega)),
    read16_congr (hfield (k := 56) (by omega))]

/-- A program header is determined by the 48 bytes that are read of it. -/
theorem read_phdr_congr (h : ∀ i < 48, mem (a + i) = mem' (b + i)) : read_phdr mem a = read_phdr mem' b := by
  have hfield : ∀ {k n : ℕ}, k + n ≤ 48 → ∀ i < n, mem (a + k + i) = mem' (b + k + i) :=
    fun hk => field_congr h hk
  rw [read_phdr, read_phdr, read32_congr fun i hi => h i (by omega),
    read64_congr (hfield (k := 8) (by omega)), read64_congr (hfield (k := 24) (by omega)),
    read64_congr (hfield (k := 32) (by omega)), read64_congr (hfield (k := 40) (by omega))]

end Congr

theorem elf_map_takes {cr3 stop : UInt64} {fuel : ℕ} {s s' : Vm} {i : UInt64}
    (h : elf_map cr3 stop fuel s i = .ok s') : s.Takes s' := by
  induction fuel generalizing s i with
  | zero => cases h
  | succ fuel ih =>
    unfold elf_map at h
    split at h
    · obtain ⟨t, ht, h⟩ := bind_ok.1 h
      exact (vmm_map_page_takes ht).trans (ih h)
    · obtain rfl := Except.ok.inj h
      rfl

/-- What the loops leave of memory: frames have been taken and words written, and the heap is as it was. -/
structure Mm.Stores (m m' : Mm) : Prop where
  vm : m.vm.Takes m'.vm
  heap : m'.heap = m.heap
  module : m'.module = m.module
  initrd : m'.initrd = m.initrd

@[refl] theorem Mm.Stores.refl (m : Mm) : m.Stores m := ⟨.refl _, rfl, rfl, rfl⟩

theorem Mm.Stores.trans {m m' m'' : Mm} (h : m.Stores m') (h' : m'.Stores m'') : m.Stores m'' :=
  ⟨h.vm.trans h'.vm, h'.heap.trans h.heap, h'.module.trans h.module, h'.initrd.trans h.initrd⟩

theorem Mm.Stores.grows {m m' : Mm} (h : m.Stores m') : m.Grows m' :=
  ⟨h.vm, h.module, h.initrd, by rw [h.heap], Nat.le_of_eq (by rw [h.heap]), fun hu => by rw [h.heap]; exact hu⟩

theorem store8_stores {m m' : Mm} {a : UInt64} {b : UInt8} (h : m.store8 a b = .ok m') : m.Stores m' := by
  obtain ⟨vm, hvm, h⟩ := bind_ok.1 h
  obtain rfl := pure_ok.1 h
  exact ⟨write8_takes hvm, rfl, rfl, rfl⟩

theorem elf_copy_stores {phdr elf_ptr fuel : ℕ} {segment i : UInt64} {m m' : Mm}
    (h : elf_copy phdr elf_ptr segment fuel m i = .ok m') : m.Stores m' := by
  induction fuel generalizing m i with
  | zero => cases h
  | succ fuel ih =>
    unfold elf_copy at h
    split at h
    · obtain ⟨t, ht, h⟩ := bind_ok.1 h
      exact (store8_stores ht).trans (ih h)
    · obtain rfl := Except.ok.inj h
      rfl

theorem elf_load_one_stores {file phdr : ℕ} {cr3 : UInt64} {m m' : Mm} (h : elf_load_one file cr3 m phdr = .ok m') :
    m.Stores m' := by
  unfold elf_load_one at h
  split at h
  · obtain ⟨vm, hvm, h⟩ := bind_ok.1 h
    have hmap : m.Stores { m with vm } := ⟨elf_map_takes hvm, rfl, rfl, rfl⟩
    exact hmap.trans (elf_copy_stores h)
  · obtain rfl := Except.ok.inj h
    rfl

theorem elf_load_all_stores {file phentsize n phdr : ℕ} {cr3 : UInt64} {m m' : Mm}
    (h : elf_load_all file cr3 phentsize n m phdr = .ok m') : m.Stores m' := by
  induction n generalizing m phdr with
  | zero =>
    obtain rfl := Except.ok.inj h
    rfl
  | succ n ih =>
    obtain ⟨t, ht, h⟩ := bind_ok.1 h
    exact (elf_load_one_stores ht).trans (ih h)

/-- **The loader that returns** has only grown memory, and answers an acceptable image
with the entry point in its header. -/
theorem elf_get_entry_ok {m m' : Mm} {path : List UInt8} {cr3 rip : UInt64}
    (hu : m.heap.Used m.heap.heap_tail) (h : elf_get_entry m path cr3 = .ok (rip, m')) :
    m.Grows m' ∧ (acceptable_image m path = true → rip = entry_point m path) := by
  obtain ⟨⟨ptr, m₁⟩, ho, h⟩ := bind_ok.1 h
  obtain ⟨hg, hfile⟩ := initrd_open_ok hu ho
  -- what an acceptable image makes of the header in the buffer
  have hhdr : acceptable_image m path = true → ptr ≠ 0 ∧ (read_ehdr m₁.bytes ptr).acceptable = true ∧
      (read_ehdr m₁.bytes ptr).e_entry = entry_point m path := by
    unfold acceptable_image entry_point
    split
    next address sz hf =>
      intro hacc
      rw [Bool.and_eq_true, decide_eq_true_eq, UInt64.le_iff_toNat_le] at hacc
      obtain ⟨hp, hb⟩ := hfile hf
      have he : read_ehdr m₁.bytes ptr = file_ehdr m address :=
        read_ehdr_congr fun i hi => by
          rw [hb i (Nat.lt_of_lt_of_le hi hacc.1), Nat.zero_add]
      exact ⟨hp, he ▸ hacc.2, by rw [he]⟩
    next => simp
  dsimp only at h
  split at h
  next hp =>
    obtain ⟨rfl, rfl⟩ := Prod.mk.inj (pure_ok.1 h)
    exact ⟨hg, fun ha => absurd hp (hhdr ha).1⟩
  next hp =>
    split at h
    next hna =>
      obtain ⟨rfl, rfl⟩ := Prod.mk.inj (pure_ok.1 h)
      refine ⟨hg, fun ha => ?_⟩
      rw [(hhdr ha).2.1] at hna
      cases hna
    next =>
      obtain ⟨⟨hdrs, m₂⟩, hk, h⟩ := bind_ok.1 h
      have hg₂ := hg.trans (kmalloc_ok (hg.used hu) hk).1
      dsimp only at h
      split at h
      · cases h
      · obtain ⟨m₃, hm₃, h⟩ := bind_ok.1 h
        obtain ⟨rfl, rfl⟩ := Prod.mk.inj (pure_ok.1 h)
        refine ⟨hg₂.trans ?_, fun ha => (hhdr ha).2.2⟩
        obtain ⟨vm, module, initrd, allocated, head, used⟩ := (elf_load_all_stores hm₃).grows
        exact ⟨vm, module, initrd, allocated, head, used⟩

end Iridium
