import Iridium.Common.ElfLoad
import Iridium.Lib.Traced

/-!
# What the loader reads

`elf_get_entry` again, which now tells what it reads of the file and of its copy of the program headers, the
pages it maps and the addresses it stores at. It is not told how long the file is, and compares no field with its
length: it reads inside the file when the file's tables and segments lie there, or when it is refused for its
header (`elf_reads_iff`). That is for a file whose segments are stored aside: on the table of headers they would
change the offsets that are read next.
-/

namespace Iridium

open Lib

/-- What the loader does. -/
inductive ElfDeed where
  /-- A byte of the buffer with the file is read. -/
  | file (a : ℕ)
  /-- A byte is read through the pointer to a program header. -/
  | phdr (a : ℕ)
  /-- A buffer for the program headers is asked for. -/
  | alloc
  /-- A page is mapped for ring 3: memory before, an address in the page, memory after. -/
  | mapped (s : Vm) (a : UInt64) (s' : Vm)
  /-- A byte is stored: memory before, and the address. -/
  | stored (s : Vm) (a : UInt64)

/-- A part of the loader that tells what it does. -/
abbrev Loader (α : Type) := Traced ElfDeed Halt α

/-- A field of `n` bytes at `a` in a program header. -/
def phdr_field (a n : ℕ) : Loader Unit := Traced.tells (fun i => .phdr (a + i)) n

/-- `elf_map`. -/
def elf_map_told (cr3 stop : UInt64) : ℕ → Vm → UInt64 → Loader Vm
  | 0, _, _ => Traced.lift (.error .endless)
  | fuel + 1, s, i =>
    if i < stop then do
      let s' ← Traced.lift (vmm_map_page s cr3 i (PAGE_PRESENT ||| PAGE_WRITABLE ||| PAGE_USER))
      Traced.tell (.mapped s i s')
      elf_map_told cr3 stop fuel s' (i + 0x1000)
    else pure s

/-- `elf_copy`. -/
def elf_copy_told (phdr elf_ptr : ℕ) (segment : UInt64) : ℕ → Mm → UInt64 → Loader Mm
  | 0, _, _ => Traced.lift (.error .endless)
  | fuel + 1, m, i => do
    phdr_field (phdr + 32) 8 -- `p_filesz`
    if i < (read_phdr m.bytes phdr).p_filesz then do
      Traced.tell (.file (elf_ptr + i.toNat))
      Traced.tell (.stored m.vm (segment + i))
      let m ← Traced.lift (m.store8 (segment + i) (m.bytes (elf_ptr + i.toNat)))
      elf_copy_told phdr elf_ptr segment fuel m (i + 1)
    else pure m

/-- `elf_load`. -/
def elf_load_told (file : ℕ) (cr3 : UInt64) (m : Mm) (phdr : ℕ) : Loader Mm := do
  let h := read_phdr m.bytes phdr
  phdr_field (phdr + 40) 8 -- `p_memsz`
  let n_pages := (h.p_memsz + 0x1000 - 1).toUInt32.toInt32
  phdr_field (phdr + 24) 8 -- `p_paddr`
  let segment := h.p_paddr
  let vm ← elf_map_told cr3 ((segment + n_pages.toInt64.toUInt64) * 2) (2 ^ 52) m.vm segment
  phdr_field (phdr + 8) 8 -- `p_offset`
  elf_copy_told phdr (file + h.p_offset.toNat) segment (2 ^ 64) { m with vm } 0

/-- `elf_load_one`. -/
def elf_load_one_told (file : ℕ) (cr3 : UInt64) (m : Mm) (phdr : ℕ) : Loader Mm := do
  phdr_field phdr 4 -- `p_type`
  if (read_phdr m.bytes phdr).p_type = PT_LOAD then elf_load_told file cr3 m phdr else pure m

/-- `elf_load_all`. -/
def elf_load_all_told (file : ℕ) (cr3 : UInt64) (phentsize : ℕ) : ℕ → Mm → ℕ → Loader Mm
  | 0, m, _ => pure m
  | n + 1, m, phdr =>
    elf_load_one_told file cr3 m phdr >>= fun m => elf_load_all_told file cr3 phentsize n m (phdr + phentsize)

/-- The copy of the headers to `NULL`, of `n` bytes from byte `i` on, up to a store that faults. -/
def elf_low_told (src : ℕ) : ℕ → Mm → UInt64 → Loader (UInt64 × Mm)
  | 0, _, _ => Traced.lift (.error .fault)
  | n + 1, m, i => do
    Traced.tell (.file (src + i.toNat))
    Traced.tell (.stored m.vm i)
    let m ← Traced.lift (m.store8 i (m.bytes (src + i.toNat)))
    elf_low_told src n m (i + 1)

/-- `elf_get_entry`. -/
def elf_get_entry_told (m : Mm) (path : List UInt8) (cr3 : UInt64) : Loader (UInt64 × Mm) := do
  let (elf_ptr, m) ← Traced.lift (initrd_open m path)
  if elf_ptr = 0 then pure (0, m)
  else do
    Traced.tells (fun i => .file (elf_ptr + i)) 64
    let header := read_ehdr m.bytes elf_ptr
    if !header.acceptable then pure (0, m)
    else do
      Traced.tell .alloc
      let (prog_headers, m) ← Traced.lift (kmalloc m header.phdrs_size)
      if prog_headers = 0 ∧ header.phdrs_size ≠ 0 then
        elf_low_told (elf_ptr + header.e_phoff.toNat) header.phdrs_size.toNat m 0
      else do
        Traced.tells (fun i => .file (elf_ptr + header.e_phoff.toNat + i)) header.phdrs_size.toNat
        let bytes := fun a =>
          if prog_headers ≤ a ∧ a < prog_headers + header.phdrs_size.toNat then
            m.bytes (elf_ptr + header.e_phoff.toNat + (a - prog_headers))
          else m.bytes a
        let m := { m with bytes }
        let n := if header.e_phentsize = 0 then 0 else header.e_phnum.toNat
        let m ← elf_load_all_told elf_ptr cr3 header.e_phentsize.toNat n m prog_headers
        return (header.e_entry, m)

section Result

variable {cr3 : UInt64} {m : Mm} {n fuel phdr file : ℕ}

theorem elf_map_told_result {s : Vm} {stop i : UInt64} :
    (elf_map_told cr3 stop fuel s i).result = elf_map cr3 stop fuel s i := by
  induction fuel generalizing s i with
  | zero => rfl
  | succ fuel ih =>
    rw [elf_map_told, elf_map]
    split
    · rw [Traced.result_bind, Traced.result_lift]
      cases vmm_map_page s cr3 i (PAGE_PRESENT ||| PAGE_WRITABLE ||| PAGE_USER) with
      | error e => rfl
      | ok s' => exact ih
    · rfl

theorem phdr_field_bind {α : Type} {a k : ℕ} {f : Unit → Loader α} : (phdr_field a k >>= f).result = (f ()).result :=
  Traced.result_tells_bind _ k f

theorem elf_copy_told_result {src : ℕ} {segment i : UInt64} :
    (elf_copy_told phdr src segment fuel m i).result = elf_copy phdr src segment fuel m i := by
  induction fuel generalizing m i with
  | zero => rfl
  | succ fuel ih =>
    rw [elf_copy_told, elf_copy, phdr_field_bind]
    split
    · rw [Traced.result_tell_bind, Traced.result_tell_bind, Traced.result_bind, Traced.result_lift]
      cases m.store8 (segment + i) (m.bytes (src + i.toNat)) with
      | error e => rfl
      | ok m' => exact ih
    · rfl

theorem elf_load_told_result : (elf_load_told file cr3 m phdr).result = elf_load file cr3 m phdr := by
  rw [elf_load_told, elf_load, phdr_field_bind, phdr_field_bind, Traced.result_bind, elf_map_told_result]
  refine congrArg _ (funext fun vm => ?_)
  rw [phdr_field_bind, elf_copy_told_result]

theorem elf_load_one_told_result : (elf_load_one_told file cr3 m phdr).result = elf_load_one file cr3 m phdr := by
  rw [elf_load_one_told, elf_load_one, phdr_field_bind]
  split
  · exact elf_load_told_result
  · rfl

theorem elf_load_all_told_result {phentsize : ℕ} :
    (elf_load_all_told file cr3 phentsize n m phdr).result = elf_load_all file cr3 phentsize n m phdr := by
  induction n generalizing m phdr with
  | zero => rfl
  | succ n ih =>
    rw [elf_load_all_told, elf_load_all, Traced.result_bind, elf_load_one_told_result]
    simp only [ih]

/-- A store fails by a fault. -/
theorem store8_cases (m : Mm) (a : UInt64) (b : UInt8) : m.store8 a b = .error .fault ∨ ∃ m', m.store8 a b = .ok m' := by
  unfold Mm.store8 write8
  split
  · exact .inl rfl
  · exact .inr ⟨_, rfl⟩

/-- The copy to `NULL` does not come back. -/
theorem elf_low_told_result {src : ℕ} {i : UInt64} : (elf_low_told src n m i).result = .error .fault := by
  induction n generalizing m i with
  | zero => rfl
  | succ n ih =>
    rw [elf_low_told, Traced.result_tell_bind, Traced.result_tell_bind, Traced.result_bind, Traced.result_lift]
    rcases store8_cases m i (m.bytes (src + i.toNat)) with h | ⟨m', h⟩
    · rw [h]
      rfl
    · rw [h]
      exact ih

/-- **The loader does what it does** without telling. -/
theorem elf_get_entry_told_result {path : List UInt8} :
    (elf_get_entry_told m path cr3).result = elf_get_entry m path cr3 := by
  rw [elf_get_entry_told, elf_get_entry, Traced.result_bind, Traced.result_lift]
  refine congrArg _ (funext fun r => ?_)
  obtain ⟨elf_ptr, m₁⟩ := r
  dsimp only
  split
  · rfl
  rw [Traced.result_tells_bind]
  split
  · rfl
  rw [Traced.result_tell_bind, Traced.result_bind, Traced.result_lift]
  refine congrArg _ (funext fun r => ?_)
  obtain ⟨prog_headers, m₂⟩ := r
  dsimp only
  split
  · exact elf_low_told_result
  rw [Traced.result_tells_bind, Traced.result_bind, elf_load_all_told_result]
  rfl

end Result

/-! ### What is read -/

/-- A call of `vmm_map_page` by the loader, which returns. -/
def LoaderMaps (cr3 : UInt64) (s : Vm) (a : UInt64) (s' : Vm) : Prop :=
  vmm_map_page s cr3 a (PAGE_PRESENT ||| PAGE_WRITABLE ||| PAGE_USER) = .ok s'

/-! ### Stores that spare the headers -/

/-- The addresses that segments are stored at. -/
def targets (gs : List Segment) : Set UInt64 := {a | ∃ g ∈ gs, ∃ i < g.p_filesz.toNat, a = g.p_paddr + UInt64.ofNat i}

/-- What is read of `n` program headers, from the one at `phdr` on. -/
def headers_at (phentsize n phdr : ℕ) : Set ℕ := {p | ∃ k < n, phdr + k * phentsize ≤ p ∧ p < phdr + k * phentsize + 48}

/-- **The loop over the headers keeps off them**: their segments are stored on no table and on no data of the
kernel, the headers being such data, and there is a frame for each page that is mapped. -/
structure Space.Aloof (S : Space) (m : Mm) (phentsize n phdr : ℕ) : Prop where
  clear : S.Clear (targets (segments_from m.bytes phentsize n phdr)) (headers_at phentsize n phdr) m.vm
  feeds : m.vm.pmm.feeds (segment_turns (segments_from m.bytes phentsize n phdr)) = true

section Aloof

variable {S : Space} {B : Set ℕ} {m m' : Mm} {phentsize n phdr file : ℕ}

theorem mem_headers_first {j : ℕ} (hj : j < 48) : phdr + j ∈ headers_at phentsize (n + 1) phdr :=
  ⟨0, Nat.succ_pos n, by omega, by omega⟩

theorem headers_rest {p : ℕ} (hp : p ∈ headers_at phentsize n (phdr + phentsize)) :
    p ∈ headers_at phentsize (n + 1) phdr := by
  obtain ⟨k, hk, hp⟩ := hp
  refine ⟨k + 1, Nat.succ_lt_succ hk, ?_⟩
  rw [Nat.succ_mul, Nat.add_comm (k * phentsize), ← Nat.add_assoc]
  exact hp

/-- Headers that are spared are as they were. -/
theorem Spared.header {k : ℕ} (h : Spared (headers_at phentsize n phdr) m m') (hk : k < n) :
    ∀ j < 48, m'.bytes (phdr + k * phentsize + j) = m.bytes (phdr + k * phentsize + j) :=
  fun _ hj => h.bytes _ ⟨k, hk, Nat.le_add_right _ _, Nat.add_lt_add_left hj _⟩

/-- So the segments that the other headers speak of are the same. -/
theorem Spared.segments (hs : Spared (headers_at phentsize (n + 1) phdr) m m') :
    segments_from m'.bytes phentsize n (phdr + phentsize) = segments_from m.bytes phentsize n (phdr + phentsize) := by
  refine segments_from_congr fun k hk j hj => hs.bytes _ (headers_rest ⟨k, hk, ?_, ?_⟩) <;> omega

/-- **After the first segment** the loop keeps off the headers still. -/
theorem Space.Aloof.next (h : S.Aloof m phentsize (n + 1) phdr) (hm : elf_load_one file S.cr3 m phdr = .ok m') :
    S.Aloof m' phentsize n (phdr + phentsize) ∧ Spared (headers_at phentsize (n + 1) phdr) m m' := by
  obtain ⟨hc, hfed⟩ := h
  unfold segments_from at hc hfed
  unfold elf_load_one at hm
  split at hm
  next hload =>
    rw [if_pos (show (read_segment m.bytes phdr).p_type = PT_LOAD from hload)] at hc hfed
    have hfed' : m.vm.pmm.feeds (map_turns (read_phdr m.bytes phdr).p_paddr (read_phdr m.bytes phdr).map_end +
        segment_turns (segments_from m.bytes phentsize n (phdr + phentsize))) = true := hfed
    obtain ⟨hc', hs, hfed'⟩ := elf_load_spares hc (fun j hj => mem_headers_first hj) hfed'
      (fun j hj => ⟨_, List.mem_cons_self, j, hj, rfl⟩) hm
    refine ⟨⟨hc'.mono ?_ fun p hp => headers_rest hp, by rw [hs.segments]; exact hfed'⟩, hs⟩
    rw [hs.segments]
    rintro a ⟨g, hg, i, hi, rfl⟩
    exact ⟨g, List.mem_cons_of_mem _ hg, i, hi, rfl⟩
  next hload =>
    obtain rfl := Except.ok.inj hm
    rw [if_neg (show ¬(read_segment m.bytes phdr).p_type = PT_LOAD from hload)] at hc hfed
    exact ⟨⟨hc.mono (fun a ha => ha) fun p hp => headers_rest hp, hfed⟩, .refl m⟩

end Aloof

section Reads

variable {P : ElfDeed → Prop} {S : Space} {D : Set UInt64} {B : Set ℕ} {m m' : Mm} {file n phdr fuel : ℕ} {cr3 : UInt64}

theorem phdr_field_all {a k : ℕ} : (phdr_field a k).All P ↔ ∀ i < k, P (.phdr (a + i)) := Traced.all_tells

/-- A field of the header at `phdr`. -/
theorem phdr_field_inside (h : ∀ i < 48, P (.phdr (phdr + i))) {a k : ℕ} (hk : a + k ≤ 48) :
    (phdr_field (phdr + a) k).All P := by
  refine phdr_field_all.2 fun i hi => ?_
  rw [Nat.add_assoc]
  exact h (a + i) (by omega)

theorem elf_map_told_all {s : Vm} {stop i : UInt64} (hmap : ∀ s a s', LoaderMaps cr3 s a s' → P (.mapped s a s')) :
    (elf_map_told cr3 stop fuel s i).All P := by
  induction fuel generalizing s i with
  | zero => exact Traced.all_lift _
  | succ fuel ih =>
    rw [elf_map_told]
    split
    · exact Traced.all_lift_bind.2 fun s' hs => Traced.all_tell_bind.2 ⟨hmap _ _ _ hs, ih⟩
    · exact Traced.all_pure _

/-- **The loop that copies a segment** reads what its header says, which it does not change. -/
theorem elf_copy_told_all {src : ℕ} {segment i : UInt64} (hc : S.Clear D B m.vm) (hhdr : ∀ j < 48, phdr + j ∈ B)
    (hdst : ∀ j < (read_phdr m.bytes phdr).p_filesz.toNat, segment + UInt64.ofNat j ∈ D)
    (hp : ∀ i < 48, P (.phdr (phdr + i))) (hstore : ∀ s a, P (.stored s a))
    (h : ∀ i < (read_phdr m.bytes phdr).p_filesz.toNat, P (.file (src + i))) :
    (elf_copy_told phdr src segment fuel m i).All P := by
  induction fuel generalizing m i with
  | zero => exact Traced.all_lift _
  | succ fuel ih =>
    rw [elf_copy_told, Traced.all_bind]
    refine ⟨phdr_field_inside hp (by decide), fun _ _ => ?_⟩
    split
    next hi =>
      rw [UInt64.lt_iff_toNat_lt] at hi
      refine Traced.all_tell_bind.2 ⟨h _ hi, Traced.all_tell_bind.2 ⟨hstore _ _, Traced.all_lift_bind.2 fun m' hm' => ?_⟩⟩
      have ha : segment + i ∈ D := by
        have hmem := hdst i.toNat hi
        rwa [UInt64.ofNat_toNat] at hmem
      obtain ⟨hc', hs, -⟩ := hc.store8 ha hm'
      exact ih hc' (by rw [hs.phdr hhdr]; exact hdst) (by rw [hs.phdr hhdr]; exact h)
    next => exact Traced.all_pure _

/-- What is read for one header: the header, when it is of a segment, and the data of the segment. -/
structure HeaderReads (P : ElfDeed → Prop) (mem : ℕ → UInt8) (file phdr : ℕ) : Prop where
  p_type : ∀ i < 4, P (.phdr (phdr + i))
  header : (read_phdr mem phdr).p_type = PT_LOAD → ∀ i < 48, P (.phdr (phdr + i))
  data : (read_phdr mem phdr).p_type = PT_LOAD → ∀ i < (read_phdr mem phdr).p_filesz.toNat,
    P (.file (file + (read_phdr mem phdr).p_offset.toNat + i))

theorem HeaderReads.congr {mem mem' : ℕ → UInt8} (h : HeaderReads P mem file phdr)
    (hs : read_phdr mem' phdr = read_phdr mem phdr) : HeaderReads P mem' file phdr :=
  ⟨h.p_type, by rw [hs]; exact h.header, by rw [hs]; exact h.data⟩

theorem elf_load_one_told_all {phentsize : ℕ} (ha : S.Aloof m phentsize (n + 1) phdr)
    (hmap : ∀ s a s', LoaderMaps S.cr3 s a s' → P (.mapped s a s')) (hstore : ∀ s a, P (.stored s a))
    (h : HeaderReads P m.bytes file phdr) :
    (elf_load_one_told file S.cr3 m phdr).All P := by
  refine Traced.all_bind.2 ⟨phdr_field_all.2 h.p_type, fun _ _ => ?_⟩
  split
  next hload =>
    have hfield : ∀ {a k : ℕ}, a + k ≤ 48 → (phdr_field (phdr + a) k).All P := phdr_field_inside (h.header hload)
    obtain ⟨hc, hfed⟩ := ha
    unfold segments_from at hc hfed
    rw [if_pos (show (read_segment m.bytes phdr).p_type = PT_LOAD from hload)] at hc hfed
    have hfed : m.vm.pmm.feeds (map_turns (read_phdr m.bytes phdr).p_paddr (read_phdr m.bytes phdr).map_end +
        segment_turns (segments_from m.bytes phentsize n (phdr + phentsize))) = true := hfed
    refine Traced.all_bind.2 ⟨hfield (by decide), fun _ _ => ?_⟩
    refine Traced.all_bind.2 ⟨hfield (by decide), fun _ _ => ?_⟩
    refine Traced.all_bind.2 ⟨elf_map_told_all hmap, fun vm hvm => ?_⟩
    refine Traced.all_bind.2 ⟨hfield (by decide), fun _ _ => ?_⟩
    rw [elf_map_told_result] at hvm
    obtain ⟨hc', -⟩ := elf_map_clear hvm hc hfed
    exact elf_copy_told_all (m := { m with vm }) hc' (fun j hj => mem_headers_first hj)
      (fun j hj => ⟨_, List.mem_cons_self, j, hj, rfl⟩) (h.header hload) hstore (h.data hload)
  next => exact Traced.all_pure _

/-- **The loop over the headers** reads what it reads for each. -/
theorem elf_load_all_told_all {phentsize : ℕ} (ha : S.Aloof m phentsize n phdr)
    (hmap : ∀ s a s', LoaderMaps S.cr3 s a s' → P (.mapped s a s')) (hstore : ∀ s a, P (.stored s a))
    (h : ∀ k < n, HeaderReads P m.bytes file (phdr + k * phentsize)) :
    (elf_load_all_told file S.cr3 phentsize n m phdr).All P := by
  induction n generalizing m phdr with
  | zero => exact Traced.all_pure _
  | succ n ih =>
    have h0 := h 0 (Nat.succ_pos n)
    rw [Nat.zero_mul, Nat.add_zero] at h0
    refine Traced.all_bind.2 ⟨elf_load_one_told_all ha hmap hstore h0, fun m' hm' => ?_⟩
    rw [elf_load_one_told_result] at hm'
    obtain ⟨ha', hs⟩ := ha.next hm'
    refine ih ha' fun k hk => ?_
    have hnext := h (k + 1) (by omega)
    have hsame := read_phdr_congr (hs.header (Nat.succ_lt_succ hk))
    rw [Nat.succ_mul, Nat.add_comm (k * phentsize), ← Nat.add_assoc] at hnext hsame
    exact hnext.congr hsame

theorem elf_low_told_all {src : ℕ} {i : UInt64} (hn : i.toNat + n < 2 ^ 64) (hstore : ∀ s a, P (.stored s a))
    (h : ∀ j < i.toNat + n, P (.file (src + j))) : (elf_low_told src n m i).All P := by
  induction n generalizing m i with
  | zero => exact Traced.all_lift _
  | succ n ih =>
    have hi : (i + 1).toNat = i.toNat + 1 := by
      rw [UInt64.toNat_add, UInt64.toNat_one, Nat.mod_eq_of_lt (by omega)]
    refine Traced.all_tell_bind.2 ⟨h _ (by omega), Traced.all_tell_bind.2 ⟨hstore _ _, Traced.all_lift_bind.2 fun m' _ => ?_⟩⟩
    exact ih (by omega) fun j hj => h j (by omega)

end Reads

/-- How many program headers the loader looks at. -/
def Elf64_Ehdr.entries (h : Elf64_Ehdr) : ℕ := if h.e_phentsize = 0 then 0 else h.e_phnum.toNat

section Whole

variable {P : ElfDeed → Prop} {m m₁ : Mm} {path : List UInt8} {cr3 : UInt64} {ptr : ℕ}

/-- **What is done with a file** that is opened. -/
theorem elf_get_entry_told_all (ho : initrd_open m path = .ok (ptr, m₁)) (hptr : ptr ≠ 0) {header : Elf64_Ehdr}
    (hh : read_ehdr m₁.bytes ptr = header) :
    (elf_get_entry_told m path cr3).All P ↔ (∀ i < 64, P (.file (ptr + i))) ∧
      (header.acceptable = true → P .alloc ∧ ∀ buf m₂, kmalloc m₁ header.phdrs_size = .ok (buf, m₂) →
        if buf = 0 ∧ header.phdrs_size ≠ 0 then
          (elf_low_told (ptr + header.e_phoff.toNat) header.phdrs_size.toNat m₂ 0).All P
        else (∀ i < header.phdrs_size.toNat, P (.file (ptr + header.e_phoff.toNat + i))) ∧
          (elf_load_all_told ptr cr3 header.e_phentsize.toNat header.entries (with_headers m₂ header ptr buf)
            buf).All P) := by
  rw [elf_get_entry_told, ho, Traced.lift_ok_bind]
  dsimp only
  rw [if_neg hptr, hh, Traced.all_bind_ok (Traced.result_tells _ _), Traced.all_tells]
  refine and_congr_right fun _ => ?_
  cases hacc : header.acceptable with
  | false => exact iff_of_true (Traced.all_pure _) fun h => by cases h
  | true =>
    rw [Bool.not_true, if_neg Bool.false_ne_true, imp_iff_right rfl, Traced.all_tell_bind, Traced.all_lift_bind]
    refine and_congr_right fun _ => ?_
    refine ⟨fun h buf m₂ hk => ?_, fun h r hr => ?_⟩
    · have hb := h (buf, m₂) hk
      dsimp only at hb
      split at hb
      next hnull =>
        rwa [if_pos hnull]
      next hnull =>
        rw [if_neg hnull]
        rw [Traced.all_bind_ok (Traced.result_tells _ _), Traced.all_tells, Traced.all_bind] at hb
        exact ⟨hb.1, hb.2.1⟩
    · obtain ⟨buf, m₂⟩ := r
      have hb := h buf m₂ hr
      dsimp only
      split at hb
      next hnull =>
        rwa [if_pos hnull]
      next hnull =>
        rw [if_neg hnull, Traced.all_bind_ok (Traced.result_tells _ _), Traced.all_tells, Traced.all_bind]
        exact ⟨hb.1, hb.2, fun _ _ => Traced.all_pure _⟩

/-- A file that is opened is not at `NULL`. -/
theorem initrd_open_ne_zero {address sz : UInt64} (hf : initrd_find m path = .ok (some (address, sz)))
    (ho : initrd_open m path = .ok (ptr, m₁)) : ptr ≠ 0 := by
  obtain ⟨o, hfound, ho⟩ := bind_ok.1 ho
  rw [hf] at hfound
  obtain rfl := Except.ok.inj hfound
  obtain ⟨⟨buf, m₂⟩, -, ho⟩ := bind_ok.1 ho
  dsimp only at ho
  split at ho
  next => cases ho
  next hb =>
    obtain ⟨rfl, -⟩ := Prod.mk.inj (pure_ok.1 ho)
    exact hb

end Whole

/-! ### Inside the file -/

/-- The program header `k` of a file. -/
def phdr_at (mem : ℕ → UInt8) (k : ℕ) : Elf64_Phdr :=
  read_phdr mem ((read_ehdr mem 0).e_phoff.toNat + k * (read_ehdr mem 0).e_phentsize.toNat)

/-- **A file of `n` bytes holds what its headers speak of**: the header, the table of program headers, in it
each of them as far as it is read, and the data of the segments. -/
structure ElfFits (mem : ℕ → UInt8) (n : ℕ) : Prop where
  header : 64 ≤ n
  table : (read_ehdr mem 0).e_phoff.toNat + (read_ehdr mem 0).phdrs_size.toNat ≤ n
  entries : ∀ k < (read_ehdr mem 0).entries,
    k * (read_ehdr mem 0).e_phentsize.toNat + 4 ≤ (read_ehdr mem 0).phdrs_size.toNat
  segment_entries : ∀ k < (read_ehdr mem 0).entries, (phdr_at mem k).p_type = PT_LOAD →
    k * (read_ehdr mem 0).e_phentsize.toNat + 48 ≤ (read_ehdr mem 0).phdrs_size.toNat
  segments : ∀ k < (read_ehdr mem 0).entries, (phdr_at mem k).p_type = PT_LOAD →
    (phdr_at mem k).p_offset.toNat + (phdr_at mem k).p_filesz.toNat ≤ n

instance (mem : ℕ → UInt8) (n : ℕ) : Decidable (ElfFits mem n) :=
  decidable_of_iff
    (64 ≤ n ∧ (read_ehdr mem 0).e_phoff.toNat + (read_ehdr mem 0).phdrs_size.toNat ≤ n ∧
      (∀ k < (read_ehdr mem 0).entries,
        k * (read_ehdr mem 0).e_phentsize.toNat + 4 ≤ (read_ehdr mem 0).phdrs_size.toNat) ∧
      (∀ k < (read_ehdr mem 0).entries, (phdr_at mem k).p_type = PT_LOAD →
        k * (read_ehdr mem 0).e_phentsize.toNat + 48 ≤ (read_ehdr mem 0).phdrs_size.toNat) ∧
      ∀ k < (read_ehdr mem 0).entries, (phdr_at mem k).p_type = PT_LOAD →
        (phdr_at mem k).p_offset.toNat + (phdr_at mem k).p_filesz.toNat ≤ n)
    ⟨fun ⟨h₁, h₂, h₃, h₄, h₅⟩ => ⟨h₁, h₂, h₃, h₄, h₅⟩, fun ⟨h₁, h₂, h₃, h₄, h₅⟩ => ⟨h₁, h₂, h₃, h₄, h₅⟩⟩

/-- The contents of the buffer at `ptr`. -/
def buffer (m : Mm) (ptr i : ℕ) : UInt8 := m.bytes (ptr + i)

/-- What may be read: the `n` bytes of the file at `ptr` and its `NUL`, and the buffer for its headers. -/
def ElfDeed.Inside (m : Mm) (ptr n : ℕ) : ElfDeed → Prop
  | .file a => ptr ≤ a ∧ a ≤ ptr + n
  | .phdr a => ∃ buf m', kmalloc m (read_ehdr (buffer m ptr) 0).phdrs_size = .ok (buf, m') ∧
      buf ≤ a ∧ a < buf + (read_ehdr (buffer m ptr) 0).phdrs_size.toNat
  | _ => True

/-- **The segments of the file at `ptr` are stored aside**: once its headers are copied, the loop over them keeps
off them. -/
def StoredAside (m : Mm) (ptr : ℕ) (cr3 : UInt64) : Prop :=
  ∃ S : Space, S.cr3 = cr3 ∧ ∀ buf m', kmalloc m (read_ehdr (buffer m ptr) 0).phdrs_size = .ok (buf, m') →
    ¬(buf = 0 ∧ (read_ehdr (buffer m ptr) 0).phdrs_size ≠ 0) → S.Aloof (with_headers m' (read_ehdr (buffer m ptr) 0) ptr buf)
      (read_ehdr (buffer m ptr) 0).e_phentsize.toNat (read_ehdr (buffer m ptr) 0).entries buf

/-- **The loader stays in the file**: it reads no more than that, and a file that does not hold what its headers
speak of it refuses: it answers `NULL`, and has asked for no buffer. -/
structure StaysInFile (m : Mm) (ptr n : ℕ) (x : Loader (UInt64 × Mm)) : Prop where
  reads : x.All (ElfDeed.Inside m ptr n)
  refuses : ¬ElfFits (buffer m ptr) n → (∃ m', x.result = .ok (0, m')) ∧ .alloc ∉ x.deeds

section Stays

variable {P : ElfDeed → Prop} {m m₁ m₂ : Mm} {path : List UInt8} {cr3 : UInt64} {ptr buf n : ℕ} {header : Elf64_Ehdr}

theorem copied_headers_eq (hm : m₂.bytes = m₁.bytes) {j : ℕ} (hj : j < header.phdrs_size.toNat) :
    copied_headers m₂.bytes header ptr buf (buf + j) = buffer m₁ ptr (header.e_phoff.toNat + j) := by
  rw [copied_headers, if_pos (by omega), hm, buffer, Nat.add_sub_cancel_left, Nat.add_assoc]

/-- **Of a file that fits**, what is read for a header is in the buffers. -/
theorem ElfFits.reads (h : ElfFits (buffer m₁ ptr) n) (hh : read_ehdr (buffer m₁ ptr) 0 = header)
    (hm : m₂.bytes = m₁.bytes) (hphdr : ∀ j < header.phdrs_size.toNat, P (.phdr (buf + j)))
    (hfile : ∀ j < n, P (.file (ptr + j))) {k : ℕ} (hk : k < header.entries) :
    HeaderReads P (copied_headers m₂.bytes header ptr buf) ptr (buf + k * header.e_phentsize.toNat) := by
  subst hh
  have hentry := h.entries k hk
  have hcopy : ∀ {len}, k * (read_ehdr (buffer m₁ ptr) 0).e_phentsize.toNat + len ≤
      (read_ehdr (buffer m₁ ptr) 0).phdrs_size.toNat → ∀ i < len,
        copied_headers m₂.bytes (read_ehdr (buffer m₁ ptr) 0) ptr buf
          (buf + k * (read_ehdr (buffer m₁ ptr) 0).e_phentsize.toNat + i) =
            buffer m₁ ptr ((read_ehdr (buffer m₁ ptr) 0).e_phoff.toNat +
              k * (read_ehdr (buffer m₁ ptr) 0).e_phentsize.toNat + i) := by
    intro len hlen i hi
    rw [Nat.add_assoc, copied_headers_eq hm (by omega), Nat.add_assoc]
  have htype : (read_phdr (copied_headers m₂.bytes (read_ehdr (buffer m₁ ptr) 0) ptr buf)
      (buf + k * (read_ehdr (buffer m₁ ptr) 0).e_phentsize.toNat)).p_type = (phdr_at (buffer m₁ ptr) k).p_type :=
    read32_congr (hcopy hentry)
  refine ⟨fun i hi => ?_, fun hload i hi => ?_, fun hload i hi => ?_⟩
  · rw [Nat.add_assoc]
    exact hphdr _ (by omega)
  · have hlen := h.segment_entries k hk (htype ▸ hload)
    rw [Nat.add_assoc]
    exact hphdr _ (by omega)
  · have hsame : read_phdr (copied_headers m₂.bytes (read_ehdr (buffer m₁ ptr) 0) ptr buf)
        (buf + k * (read_ehdr (buffer m₁ ptr) 0).e_phentsize.toNat) = phdr_at (buffer m₁ ptr) k :=
      read_phdr_congr (hcopy (h.segment_entries k hk (htype ▸ hload)))
    rw [hsame] at hi ⊢
    have hinside := h.segments k hk (htype ▸ hload)
    rw [Nat.add_assoc]
    exact hfile _ (by omega)

/-- The header in the buffer. -/
theorem read_ehdr_buffer (m : Mm) (ptr : ℕ) : read_ehdr m.bytes ptr = read_ehdr (buffer m ptr) 0 :=
  read_ehdr_congr fun i _ => by rw [buffer, Nat.zero_add]

/-- **A file that the loader is called for in a space in order** is stored aside. -/
theorem Loadable.stored_aside {S : Space} {address sz : UInt64} (hl : Loadable S m path address sz)
    (ho : initrd_open m path = .ok (ptr, m₁)) : StoredAside m₁ ptr S.cr3 := by
  obtain ⟨⟨f₁, hputs₁, hvm₁, -⟩, hbuf⟩ :=
    initrd_open_quiet (S := S) hl.used hl.bytes_allocated hl.file.small hl.found ho
  have hhdr : read_ehdr (buffer m₁ ptr) 0 = read_ehdr (file_bytes m address) 0 :=
    read_ehdr_congr fun i hi => by
      rw [buffer, Nat.zero_add, hbuf.bytes i (Nat.lt_of_lt_of_le hi hl.file.header)]
  refine ⟨S, rfl, fun buf m₂ hk hnull => ?_⟩
  rw [hhdr] at hk hnull ⊢
  obtain ⟨⟨f₂, hputs₂, hvm₂, -⟩, hsame⟩ :=
    kmalloc_quiet (S := S) (hbuf.bytes_allocated.trans hl.bytes_allocated) hk
  obtain ⟨hle, hbuf₂⟩ := hbuf.headers hl.bytes_allocated hk hnull
  have hfile : ∀ i < sz.toNat, m₂.bytes (ptr + i) = file_bytes m address i := by
    rw [hsame]
    exact hbuf.bytes
  obtain ⟨ho₁, hfed₁, hl₁, -⟩ := hputs₁ _ _ _ hl.own hl.feeds hvm₁
  obtain ⟨ho₂, hfed₂, hl₂, -⟩ := hputs₂ _ _ (segment_turns (segments (file_bytes m address))) ho₁ hfed₁ hvm₂
  obtain ⟨hsize, -⟩ := hl.size hle
  have hent : 48 ≤ (read_ehdr (file_bytes m address) 0).e_phentsize.toNat := Nat.le_trans (by decide) hl.file.entries
  have hsegs : segments_from (with_headers m₂ (read_ehdr (file_bytes m address) 0) ptr buf).bytes
      (read_ehdr (file_bytes m address) 0).e_phentsize.toNat (read_ehdr (file_bytes m address) 0).e_phnum.toNat buf =
        segments (file_bytes m address) := segments_from_table hent (hl.table hle hfile buf)
  rw [Elf64_Ehdr.entries, if_neg hl.file.phentsize_ne_zero]
  refine ⟨(ho₂.clear ((hl.buffers.loads hl₁).loads hl₂)).mono ?_ ?_, by rw [hsegs]; exact hfed₂⟩
  · rw [hsegs]
    rintro a ⟨g, hg, i, hi, rfl⟩
    exact hl.program g hg _ (.inl ⟨i, hi, rfl⟩)
  · rintro p ⟨k, hk, hp₁, hp₂⟩
    have hin := in_table hent hk
      (show p - (buf + k * (read_ehdr (file_bytes m address) 0).e_phentsize.toNat) < 48 by omega)
    constructor <;> omega

/-- A file that is refused. -/
theorem elf_get_entry_refuses (ho : initrd_open m path = .ok (ptr, m₁)) (hptr : ptr ≠ 0)
    (hacc : (read_ehdr m₁.bytes ptr).acceptable = false) : elf_get_entry m path cr3 = .ok (0, m₁) := by
  rw [elf_get_entry, ho]
  show (if ptr = 0 then _ else _ : Kern (UInt64 × Mm)) = _
  rw [if_neg hptr, hacc]
  rfl

theorem inside_file {j : ℕ} (hj : j ≤ n) : (ElfDeed.file (ptr + j)).Inside m ptr n :=
  ⟨Nat.le_add_right _ _, Nat.add_le_add_left hj _⟩

/-- **Of a file that fits** everything that is read is inside. -/
theorem ElfFits.inside (h : ElfFits (buffer m₁ ptr) n) (ho : initrd_open m path = .ok (ptr, m₁)) (hptr : ptr ≠ 0)
    (haside : (read_ehdr (buffer m₁ ptr) 0).acceptable = true → StoredAside m₁ ptr cr3) :
    (elf_get_entry_told m path cr3).All (ElfDeed.Inside m₁ ptr n) := by
  have hheader := h.header
  have htable := h.table
  refine (elf_get_entry_told_all ho hptr (read_ehdr_buffer m₁ ptr)).2
    ⟨fun i hi => inside_file (by omega), fun hacc => ⟨trivial, fun buf m₂ hk => ?_⟩⟩
  split
  next hnull =>
    refine elf_low_told_all (by rw [UInt64.toNat_zero, Nat.zero_add]; exact UInt64.toNat_lt _) (fun _ _ => trivial) fun j hj => ?_
    rw [UInt64.toNat_zero, Nat.zero_add] at hj
    rw [Nat.add_assoc]
    exact inside_file (by omega)
  next hnull =>
    obtain ⟨S, rfl, haloof⟩ := haside hacc
    refine ⟨fun i hi => ?_, elf_load_all_told_all (haloof buf m₂ hk hnull) (fun _ _ _ _ => trivial)
      (fun _ _ => trivial) fun k hk' => ?_⟩
    · rw [Nat.add_assoc]
      exact inside_file (by omega)
    · refine h.reads rfl (kmalloc_bytes hk) (fun j hj => ?_) (fun j hj => inside_file (Nat.le_of_lt hj)) hk'
      exact ⟨buf, m₂, hk, Nat.le_add_right _ _, Nat.add_lt_add_left hj _⟩

/-- **For every file that is opened**, of any length and content: the loader stays in the file if and only if
the file holds what its headers speak of, or is refused for its header and has at least 63 bytes, so that the
64th that is read is its `NUL`. Segments of an accepted file that are stored over its own headers would change
what they say. -/
theorem elf_reads_iff {address sz : UInt64} (hf : initrd_find m path = .ok (some (address, sz)))
    (ho : initrd_open m path = .ok (ptr, m₁)) (haside : ElfFits (buffer m₁ ptr) sz.toNat →
      (read_ehdr (buffer m₁ ptr) 0).acceptable = true → StoredAside m₁ ptr cr3) :
    StaysInFile m₁ ptr sz.toNat (elf_get_entry_told m path cr3) ↔
      ElfFits (buffer m₁ ptr) sz.toNat ∨
        (63 ≤ sz.toNat ∧ (read_ehdr (buffer m₁ ptr) 0).acceptable = false) := by
  have hptr := initrd_open_ne_zero hf ho
  have hall := fun P => @elf_get_entry_told_all P m m₁ path cr3 ptr ho hptr _ (read_ehdr_buffer m₁ ptr)
  constructor
  · intro h
    cases hacc : (read_ehdr (buffer m₁ ptr) 0).acceptable with
    | false =>
      -- the last byte of the header is read
      have hlast := ((hall _).1 h.reads).1 63 (by decide)
      exact .inr ⟨Nat.le_of_add_le_add_left hlast.2, rfl⟩
    | true =>
      refine .inl ?_
      by_contra hno
      obtain ⟨-, halloc⟩ := h.refuses hno
      exact (((hall (· ≠ .alloc)).1 fun d hd he => halloc (he ▸ hd)).2 hacc).1 rfl
  · rintro (h | ⟨hle, hacc⟩)
    · exact ⟨h.inside ho hptr (haside h), fun hno => absurd h hno⟩
    · have hrefused : ∀ P : ElfDeed → Prop, (∀ i < 64, P (.file (ptr + i))) → (elf_get_entry_told m path cr3).All P :=
        fun P hP => (hall P).2 ⟨hP, fun h => by rw [hacc] at h; cases h⟩
      refine ⟨hrefused _ fun i hi => inside_file (by omega), fun _ => ⟨⟨m₁, ?_⟩, fun halloc => ?_⟩⟩
      · rw [elf_get_entry_told_result]
        exact elf_get_entry_refuses ho hptr (read_ehdr_buffer m₁ ptr ▸ hacc)
      · exact hrefused (· ≠ .alloc) (fun i _ h => by cases h) _ halloc rfl

end Stays

/-- The entry of a file, and its buffer: the file is opened after `kheap_init`. -/
def opened (m : Mm) : Kern (Option (UInt64 × UInt64) × ℕ × Mm) := do
  let m ← kheap_init m
  let found ← initrd_find m [97]
  let r ← initrd_open m [97]
  return (found, r)

theorem opened_ok {m : Mm} {b : Option (UInt64 × UInt64) × ℕ × Mm → Bool} (h : answers (opened m) b = true) :
    ∃ m₀ found ptr m₁, kheap_init m = .ok m₀ ∧ initrd_find m₀ [97] = .ok found ∧
      initrd_open m₀ [97] = .ok (ptr, m₁) ∧ b (found, ptr, m₁) = true := by
  obtain ⟨t, ht, hb⟩ := answers_iff.1 h
  obtain ⟨m₀, hm, ht⟩ := bind_ok.1 ht
  obtain ⟨found, hf, ht⟩ := bind_ok.1 ht
  obtain ⟨⟨ptr, m₁⟩, ho, ht⟩ := bind_ok.1 ht
  obtain rfl := pure_ok.1 ht
  exact ⟨m₀, found, ptr, m₁, hm, hf, ho, hb⟩

/-- The small file fits. -/
theorem elf_reads_small : ∃ m m₁ ptr, initrd_open m [97] = .ok (ptr, m₁) ∧
    StaysInFile m₁ ptr 121 (elf_get_entry_told m [97] 0x100000) := by
  obtain ⟨m, found, ptr, m₁, hm, hf, ho, hb⟩ := opened_ok (m := smallElfMm 0x1000 1)
    (b := fun r => r.1 = some (0x100200, 121) ∧ ElfFits (buffer r.2.2 r.2.1) 121) (by decide +kernel)
  obtain ⟨rfl, hfits⟩ := of_decide_eq_true hb
  obtain ⟨m', -, hm', hl, -⟩ := smallElf_loadable (.inl ⟨rfl, .inl rfl⟩)
  obtain rfl := Except.ok.inj (hm.symm.trans hm')
  exact ⟨m, m₁, ptr, ho, (elf_reads_iff hf ho fun _ _ => hl.stored_aside ho).2 (.inl hfits)⟩

/-- Memory with an empty file in the archive. -/
def emptyFileMm : Mm :=
  { bareMm with
    initrd := 0x100000
    module := fun a => if a = 0x100200 then 97 else if 0x10027C ≤ a ∧ a < 0x100287 then 48 else 0 }

/-- Of an empty file 64 bytes are read. -/
theorem not_stays_in_file : ¬∀ (m m₁ : Mm) (path : List UInt8) (cr3 address sz : UInt64) (ptr : ℕ),
    initrd_find m path = .ok (some (address, sz)) → initrd_open m path = .ok (ptr, m₁) →
      StaysInFile m₁ ptr sz.toNat (elf_get_entry_told m path cr3) := by
  intro h
  obtain ⟨m, found, ptr, m₁, -, hf, ho, hb⟩ := opened_ok (m := emptyFileMm)
    (b := fun r => r.1 = some (0x100200, 0)) (by decide +kernel)
  obtain rfl := of_decide_eq_true hb
  have hreads := (h m m₁ [97] 0 _ _ ptr hf ho).reads
  have hlast := ((elf_get_entry_told_all ho (initrd_open_ne_zero hf ho) (read_ehdr_buffer m₁ ptr)).1 hreads).1 63 (by decide)
  exact absurd (Nat.le_of_add_le_add_left hlast.2) (by decide)

end Iridium
