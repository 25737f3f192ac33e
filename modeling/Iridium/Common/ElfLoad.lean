import Iridium.Common.ElfStores
import Iridium.Mm.MapRuns

/-!
# What the loader puts into memory

`elf_get_entry` maps each `PT_LOAD` segment at its `p_paddr` and copies `p_filesz` bytes there. A program
runs at `p_vaddr`, and expects zeros in what of `[p_vaddr, p_vaddr + p_memsz)` is not from the file. The
loader writes none: there is what the frames held. `elf_loaded_iff` says for which files memory is as the
program expects, whatever the frames held. The file is one whose segments lie on no table and on no data of the
kernel (`Loadable`), its own buffer among them.
-/

namespace Iridium

open Lib.Paging

/-! ### The loops of the loader -/

/-- The bytes that a copying loop puts: `n` from `src` on, at `dst`. -/
def copied (mem : ℕ → UInt8) (dst : UInt64) (n src : ℕ) (a : UInt64) : Option UInt8 :=
  if (a - dst).toNat < n then some (mem (src + (a - dst).toNat)) else none

theorem copied_zero (mem : ℕ → UInt8) (dst : UInt64) (src : ℕ) : copied mem dst 0 src = fun _ => none := by
  funext a
  rw [copied, if_neg (Nat.not_lt_zero _)]

/-- The first byte, and then the others. -/
theorem copied_succ (mem : ℕ → UInt8) (dst : UInt64) {n : ℕ} (hn : n + 1 < 2 ^ 64) (src : ℕ) :
    copied mem dst (n + 1) src = fun a =>
      (copied mem (dst + 1) n (src + 1) a).or (if a = dst then some (mem src) else none) := by
  funext a
  have hsub : a - (dst + 1) = a - dst - 1 := by
    rw [UInt64.sub_eq_iff_eq_add, UInt64.add_comm dst 1, ← UInt64.add_assoc, UInt64.sub_add_cancel,
      UInt64.sub_add_cancel]
  unfold copied
  rw [hsub]
  by_cases ha : a = dst
  · subst ha
    have hself : (a - a).toNat = 0 := by simp
    have hlast : (a - a - 1).toNat = 2 ^ 64 - 1 := by rw [UInt64.sub_self]; rfl
    rw [hself, hlast, if_pos (by omega), if_neg (by omega), if_pos rfl]
    rfl
  · have hne : (a - dst).toNat ≠ 0 := by
      intro h0
      have h : a - dst = 0 := UInt64.toNat_inj.1 h0
      exact ha (by rw [← UInt64.sub_add_cancel a dst, h, UInt64.zero_add])
    have hpred : (a - dst - 1).toNat = (a - dst).toNat - 1 := by
      rw [UInt64.toNat_sub_of_le]
      · rfl
      · rw [UInt64.le_iff_toNat_le, UInt64.toNat_one]
        omega
    have hsrc : src + 1 + ((a - dst).toNat - 1) = src + (a - dst).toNat := by omega
    rw [hpred, hsrc, if_neg ha, Option.or_none]
    split_ifs
    · rfl
    · omega
    · omega
    · rfl

theorem copied_congr {mem mem' : ℕ → UInt8} {dst : UInt64} {n src src' : ℕ}
    (h : ∀ i < n, mem (src + i) = mem' (src' + i)) : copied mem dst n src = copied mem' dst n src' := by
  funext a
  unfold copied
  split_ifs with hlt
  · rw [h _ hlt]
  · rfl

section Loops

variable {S : Space}

theorem kmalloc_map_puts {n_bytes : UInt64} (hn : n_bytes ≤ HEAP_SIZE) (fuel : ℕ) {k : ℕ} (hk : k ≤ 2 ^ 19) (tmp : ℕ) :
    S.Puts (kmalloc_turns n_bytes - k) (fun s => kmalloc_map n_bytes fuel s (Int32.ofNat (0x1000 * k)) tmp)
      fun _ => none := by
  induction fuel generalizing k tmp with
  | zero =>
    intro s s' _ _ _ h
    cases h
  | succ fuel ih =>
    unfold kmalloc_map
    split
    next hlt =>
      have hturn := (kmalloc_turn hn hk).1 hlt
      have hmax : k + 1 ≤ 2 ^ 19 := Nat.le_trans hturn (Nat.min_le_right _ _)
      -- the heap is mapped in the space in use, which is this one
      have hmap : S.Puts 1 (fun s => vmm_map_page s s.cr3 (ALIGN_DOWN (UInt64.ofNat tmp))
          (PAGE_PRESENT ||| PAGE_WRITABLE)) fun _ => none :=
        Space.Puts.of_eq (Space.Puts.map Space.leafs_kernel _) fun s hs => by rw [hs]
      have hlen : kmalloc_turns n_bytes - k = 1 + (kmalloc_turns n_bytes - (k + 1)) := by omega
      rw [hlen, kmalloc_turn_i]
      exact Space.Puts.bind hmap (ih hmax _)
    next => exact Space.Puts.nothing.mono (Nat.zero_le _)

theorem elf_map_puts (stop : UInt64) (fuel : ℕ) (i : UInt64) :
    S.Puts (map_turns i stop) (fun s => elf_map S.cr3 stop fuel s i) fun _ => none := by
  by_cases hstop : stop.toNat ≤ 2 ^ 64 - 0x1000 + i.toNat % 0x1000
  · induction fuel generalizing i with
    | zero =>
      intro s s' _ _ _ h
      cases h
    | succ fuel ih =>
      unfold elf_map
      split
      next hi =>
        obtain ⟨hnext, hturns⟩ := map_next hstop hi
        rw [hturns]
        exact Space.Puts.bind (Space.Puts.map Space.leafs_user i) (ih _ (by rw [hnext]; omega))
      next => exact Space.Puts.nothing.mono (Nat.zero_le _)
  · intro s s' _ _ _ h
    exact absurd h (elf_map_never (Nat.not_le.1 hstop))

theorem copy_from_puts (mem : ℕ → UInt8) {n : ℕ} (hn : n < 2 ^ 64) {dst : UInt64} (src : ℕ)
    (hdst : ∀ i < n, dst + UInt64.ofNat i ∈ S.program) :
    S.Puts 0 (fun s => copy_from mem n s dst src) (copied mem dst n src) := by
  induction n generalizing dst src with
  | zero =>
    rw [copied_zero]
    exact Space.Puts.nothing
  | succ n ih =>
    rw [copied_succ mem dst hn]
    refine Space.Puts.bind (Space.Puts.write8 ?_ _) (ih (by omega) (src + 1) fun i hi => ?_)
    · have h0 : dst + 0 ∈ S.program := hdst 0 (Nat.succ_pos n)
      rwa [UInt64.add_zero] at h0
    · have hnext := hdst (i + 1) (by omega)
      rw [UInt64.ofNat_add] at hnext
      rw [UInt64.add_assoc, UInt64.add_comm 1]
      exact hnext

theorem load_from_puts (mem : ℕ → UInt8) (file : ℕ) (ph : Elf64_Phdr)
    (hdst : ∀ i < ph.p_filesz.toNat, ph.p_paddr + UInt64.ofNat i ∈ S.program) :
    S.Puts (map_turns ph.p_paddr ph.map_end) (fun s => load_from mem file S.cr3 s ph)
      (copied mem ph.p_paddr ph.p_filesz.toNat (file + ph.p_offset.toNat)) := by
  have hbind := Space.Puts.bind (elf_map_puts (S := S) ph.map_end (2 ^ 52) ph.p_paddr)
    (copy_from_puts mem ph.p_filesz.toNat_lt (file + ph.p_offset.toNat) hdst)
  simp only [Option.or_none, Nat.add_zero] at hbind
  exact hbind

end Loops

/-! ### The segments of a file -/

/-- A program header with the field that the loader does not read. -/
structure Segment extends Elf64_Phdr where
  p_vaddr : UInt64

/-- The header at `a`. -/
def read_segment (mem : ℕ → UInt8) (a : ℕ) : Segment := { read_phdr mem a with p_vaddr := read64 mem (a + 16) }

/-- The `PT_LOAD` headers among `n`, from the one at `a` on. -/
def segments_from (mem : ℕ → UInt8) (phentsize : ℕ) : ℕ → ℕ → List Segment
  | 0, _ => []
  | n + 1, a =>
    if (read_segment mem a).p_type = PT_LOAD then
      read_segment mem a :: segments_from mem phentsize n (a + phentsize)
    else segments_from mem phentsize n (a + phentsize)

/-- **The segments of a file**, whose bytes are `mem`. -/
def segments (mem : ℕ → UInt8) : List Segment :=
  segments_from mem (read_ehdr mem 0).e_phentsize.toNat (read_ehdr mem 0).e_phnum.toNat
    (read_ehdr mem 0).e_phoff.toNat

namespace Segment

variable (mem : ℕ → UInt8) (g : Segment)

/-- The bytes that the segment speaks of: from the file, and then zeros. -/
def size : ℕ := max g.p_filesz.toNat g.p_memsz.toNat

/-- What byte `i` of the segment should be. -/
def wanted (i : ℕ) : UInt8 := if i < g.p_filesz.toNat then mem (g.p_offset.toNat + i) else 0

/-- What the loader puts at an address for the segment. -/
def loaded : UInt64 → Option UInt8 := copied mem g.p_paddr g.p_filesz.toNat g.p_offset.toNat

end Segment

/-- What the loader puts at an address for all: the last one that has the address counts. -/
def loaded (mem : ℕ → UInt8) : List Segment → UInt64 → Option UInt8
  | [], _ => none
  | g :: gs, a => (loaded mem gs a).or (g.loaded mem a)

/-- **The loader puts what the program expects**: of each byte of `[p_vaddr, p_vaddr + p_memsz)` the last
header with the address in `[p_paddr, p_paddr + p_filesz)` gives it, and gives it rightly. -/
def Placed (mem : ℕ → UInt8) : Prop :=
  ∀ g ∈ segments mem, ∀ i < g.size,
    loaded mem (segments mem) (g.p_vaddr + UInt64.ofNat i) = some (g.wanted mem i)

instance (mem : ℕ → UInt8) : Decidable (Placed mem) := inferInstanceAs (Decidable (∀ g ∈ _, ∀ i < _, _))

/-- **Memory is as the program expects.** -/
def InPlace (m : Ram) (cr3 : UInt64) (mem : ℕ → UInt8) : Prop :=
  ∀ g ∈ segments mem, ∀ i < g.size, byteAt m cr3 (g.p_vaddr + UInt64.ofNat i) = some (g.wanted mem i)

/-- Two segments have no address in common. -/
def Segment.Apart (g h : Segment) : Prop :=
  g.p_vaddr.toNat + g.p_memsz.toNat ≤ h.p_vaddr.toNat ∨ h.p_vaddr.toNat + h.p_memsz.toNat ≤ g.p_vaddr.toNat

instance : Std.Symm Segment.Apart := ⟨fun _ _ h => h.symm⟩

instance (g h : Segment) : Decidable (g.Apart h) := inferInstanceAs (Decidable (_ ∨ _))

/-- **An executable file** of the size `sz`: 64-bit, for this machine and accepted, its tables and segments
within it, and its ranges of addresses apart. -/
structure ElfFile (mem : ℕ → UInt8) (sz : ℕ) : Prop where
  header : 64 ≤ sz
  small : sz < 8 ^ 11
  acceptable : (read_ehdr mem 0).acceptable = true
  entries : 56 ≤ (read_ehdr mem 0).e_phentsize.toNat
  table : (read_ehdr mem 0).e_phoff.toNat +
    (read_ehdr mem 0).e_phnum.toNat * (read_ehdr mem 0).e_phentsize.toNat ≤ sz
  inside : ∀ g ∈ segments mem, g.p_offset.toNat + g.p_filesz.toNat ≤ sz
  apart : (segments mem).Pairwise Segment.Apart

section Plain

variable {mem : ℕ → UInt8} {a : UInt64} {g : Segment} {gs : List Segment}

theorem loaded_eq_none (h : ∀ k ∈ gs, k.loaded mem a = none) : loaded mem gs a = none := by
  induction gs with
  | nil => rfl
  | cons k gs ih =>
    rw [loaded, ih fun k hk => h k (List.mem_cons_of_mem _ hk), Option.none_or]
    exact h k List.mem_cons_self

/-- An address that one segment has is put for it. -/
theorem loaded_of_mem (hg : g ∈ gs) (h : ∀ k ∈ gs, k ≠ g → k.loaded mem a = none) :
    loaded mem gs a = g.loaded mem a := by
  induction gs with
  | nil => cases hg
  | cons k gs ih =>
    have hgs : ∀ k ∈ gs, k ≠ g → k.loaded mem a = none := fun k hk => h k (List.mem_cons_of_mem _ hk)
    rw [loaded]
    by_cases hmem : g ∈ gs
    · rw [ih hmem hgs]
      by_cases hk : k = g
      · rw [hk, Option.or_self]
      · rw [h k List.mem_cons_self hk, Option.or_none]
    · obtain rfl := (List.mem_cons.1 hg).resolve_right hmem
      rw [loaded_eq_none fun k hk => hgs k hk fun he => hmem (he ▸ hk), Option.none_or]

/-- A segment with both its addresses the same, and room in the file and in memory. -/
structure Segment.Plain (g : Segment) : Prop where
  same : g.p_paddr = g.p_vaddr
  fits : g.p_filesz.toNat ≤ g.p_memsz.toNat
  ends : g.p_vaddr.toNat + g.p_memsz.toNat ≤ 2 ^ 64

/-- How far an address of a segment is behind the start of a segment. -/
theorem Segment.Plain.offset {k : Segment} {i : ℕ} (hg : g.Plain) (hi : i < g.p_memsz.toNat) :
    (g.p_vaddr + UInt64.ofNat i - k.p_vaddr).toNat =
      (2 ^ 64 - k.p_vaddr.toNat + (g.p_vaddr.toNat + i)) % 2 ^ 64 := by
  have hends := hg.ends
  have ha : (g.p_vaddr + UInt64.ofNat i).toNat = g.p_vaddr.toNat + i := by
    rw [UInt64.toNat_add, UInt64.toNat_ofNat', Nat.mod_eq_of_lt (by omega), Nat.mod_eq_of_lt (by omega)]
  rw [UInt64.toNat_sub, ha]

/-- **Of a file with plain segments every byte is put** if no segment is longer in memory than in the file,
and only then. -/
theorem placed_iff {sz : ℕ} (hw : ElfFile mem sz) (hp : ∀ g ∈ segments mem, g.Plain) :
    Placed mem ↔ ∀ g ∈ segments mem, g.p_memsz = g.p_filesz := by
  -- the segment itself gives the byte, or none does
  have hloaded : ∀ g ∈ segments mem, ∀ i < g.p_memsz.toNat,
      loaded mem (segments mem) (g.p_vaddr + UInt64.ofNat i) =
        if i < g.p_filesz.toNat then some (mem (g.p_offset.toNat + i)) else none := by
    intro g hg i hi
    have hends := (hp g hg).ends
    rw [loaded_of_mem hg]
    · have hself : (g.p_vaddr + UInt64.ofNat i - g.p_vaddr).toNat = i := by
        rw [(hp g hg).offset hi]
        omega
      rw [Segment.loaded, copied, (hp g hg).same, hself]
    · intro k hk hne
      have hapart := hw.apart.forall hk hg hne
      have hkends := (hp k hk).ends
      have hkfits := (hp k hk).fits
      rw [Segment.loaded, copied, (hp k hk).same, if_neg]
      rw [(hp g hg).offset hi]
      unfold Segment.Apart at hapart
      omega
  have hsize : ∀ g ∈ segments mem, g.size = g.p_memsz.toNat := fun g hg => Nat.max_eq_right (hp g hg).fits
  constructor
  · intro hplaced g hg
    by_contra hne
    have hlt : g.p_filesz.toNat < g.p_memsz.toNat :=
      Nat.lt_of_le_of_ne (hp g hg).fits fun he => hne (UInt64.toNat_inj.1 he.symm)
    have hput := hplaced g hg g.p_filesz.toNat (by rw [hsize g hg]; exact hlt)
    rw [hloaded g hg _ hlt, if_neg (Nat.lt_irrefl _)] at hput
    cases hput
  · intro hall g hg i hi
    rw [hsize g hg] at hi
    have hif : i < g.p_filesz.toNat := by rw [← hall g hg]; exact hi
    rw [hloaded g hg i hi, if_pos hif, Segment.wanted, if_pos hif]

end Plain

/-- The addresses that a segment is put at, and those that it is for. -/
def Segment.Touches (g : Segment) (a : UInt64) : Prop :=
  (∃ i < g.p_filesz.toNat, a = g.p_paddr + UInt64.ofNat i) ∨ ∃ i < g.size, a = g.p_vaddr + UInt64.ofNat i

/-- How many pages the loops map for the segments. -/
def segment_turns (gs : List Segment) : ℕ := (gs.map fun g => map_turns g.p_paddr g.map_end).sum

section Segments

variable {S : Space} {mem bytes : ℕ → UInt8} {B : Set ℕ} {m m' : Mm} {file phentsize n phdr : ℕ}

/-- **A loop over the headers**, from a copy of the headers, puts what the segments say. -/
theorem load_all_from_puts (hent : 48 ≤ phentsize) {a : ℕ}
    (hhdr : ∀ j < n * phentsize, bytes (phdr + j) = mem (a + j))
    (hdata : ∀ g ∈ segments_from mem phentsize n a, ∀ i < g.p_filesz.toNat,
      bytes (file + g.p_offset.toNat + i) = mem (g.p_offset.toNat + i))
    (hprog : ∀ g ∈ segments_from mem phentsize n a, ∀ i < g.p_filesz.toNat,
      g.p_paddr + UInt64.ofNat i ∈ S.program) :
    S.Puts (segment_turns (segments_from mem phentsize n a))
      (fun s => load_all_from bytes file S.cr3 phentsize n s phdr) (loaded mem (segments_from mem phentsize n a)) := by
  induction n generalizing phdr a with
  | zero => exact Space.Puts.nothing
  | succ n ih =>
    have hread : read_phdr bytes phdr = (read_segment mem a).toElf64_Phdr :=
      read_phdr_congr fun i hi => hhdr i (by rw [Nat.succ_mul]; omega)
    have hrest : ∀ j < n * phentsize, bytes (phdr + phentsize + j) = mem (a + phentsize + j) := fun j hj => by
      rw [Nat.add_assoc, Nat.add_assoc]
      exact hhdr _ (by rw [Nat.succ_mul]; omega)
    unfold segments_from at hdata hprog ⊢
    unfold load_all_from
    dsimp only
    rw [hread]
    by_cases hload : (read_segment mem a).p_type = PT_LOAD
    · simp only [if_pos hload] at hdata hprog ⊢
      have hfirst := load_from_puts bytes file (read_segment mem a).toElf64_Phdr (hprog _ List.mem_cons_self)
      rw [copied_congr (hdata _ List.mem_cons_self)] at hfirst
      exact Space.Puts.bind hfirst (ih hrest (fun g hg => hdata g (List.mem_cons_of_mem _ hg))
        fun g hg => hprog g (List.mem_cons_of_mem _ hg))
    · simp only [if_neg hload] at hdata hprog ⊢
      exact ih hrest hdata hprog

/-- The bytes of a header in a table. -/
theorem in_table {k j : ℕ} (hent : 48 ≤ phentsize) (hk : k < n) (hj : j < 48) : k * phentsize + j < n * phentsize :=
  calc k * phentsize + j < k * phentsize + phentsize := by omega
    _ = (k + 1) * phentsize := (Nat.succ_mul k phentsize).symm
    _ ≤ n * phentsize := Nat.mul_le_mul_right phentsize hk

/-- The segments that the same headers speak of. -/
theorem segments_from_congr {a : ℕ}
    (h : ∀ k < n, ∀ j < 48, bytes (phdr + k * phentsize + j) = mem (a + k * phentsize + j)) :
    segments_from bytes phentsize n phdr = segments_from mem phentsize n a := by
  induction n generalizing phdr a with
  | zero => rfl
  | succ n ih =>
    have hfirst : ∀ j < 48, bytes (phdr + j) = mem (a + j) := fun j hj => by
      have h0 := h 0 (Nat.succ_pos n) j hj
      rwa [Nat.zero_mul, Nat.add_zero, Nat.add_zero] at h0
    have hread : read_segment bytes phdr = read_segment mem a := by
      rw [read_segment, read_segment, read_phdr_congr hfirst, read64_congr (field_congr hfirst (k := 16) (by omega))]
    have hrest : segments_from bytes phentsize n (phdr + phentsize) = segments_from mem phentsize n (a + phentsize) :=
      ih fun k hk j hj => by
        have hnext := h (k + 1) (by omega) j hj
        rwa [Nat.succ_mul, Nat.add_comm (k * phentsize), ← Nat.add_assoc, ← Nat.add_assoc] at hnext
    rw [segments_from, segments_from, hread, hrest]

/-- Those of a copy of the table. -/
theorem segments_from_table {a : ℕ} (hent : 48 ≤ phentsize) (h : ∀ j < n * phentsize, bytes (phdr + j) = mem (a + j)) :
    segments_from bytes phentsize n phdr = segments_from mem phentsize n a :=
  segments_from_congr fun k hk j hj => by
    rw [Nat.add_assoc, Nat.add_assoc]
    exact h _ (in_table hent hk hj)

/-- The loop, from buffers with the same table and the same data. -/
theorem load_all_from_congr {cr3 : UInt64} {s : Vm} (hent : 48 ≤ phentsize)
    (h : ∀ j < n * phentsize, bytes (phdr + j) = mem (phdr + j))
    (hdata : ∀ g ∈ segments_from mem phentsize n phdr, ∀ i < g.p_filesz.toNat,
      bytes (file + g.p_offset.toNat + i) = mem (file + g.p_offset.toNat + i)) :
    load_all_from bytes file cr3 phentsize n s phdr = load_all_from mem file cr3 phentsize n s phdr := by
  induction n generalizing s phdr with
  | zero => rfl
  | succ n ih =>
    have hread : read_phdr bytes phdr = read_phdr mem phdr :=
      read_phdr_congr fun j hj => h j (by rw [Nat.succ_mul]; omega)
    have hrest : ∀ j < n * phentsize, bytes (phdr + phentsize + j) = mem (phdr + phentsize + j) := fun j hj => by
      rw [Nat.add_assoc]
      exact h _ (by rw [Nat.succ_mul]; omega)
    unfold segments_from at hdata
    unfold load_all_from
    dsimp only
    rw [hread]
    by_cases hload : (read_phdr mem phdr).p_type = PT_LOAD
    · rw [if_pos (show (read_segment mem phdr).p_type = PT_LOAD from hload)] at hdata
      have hfirst : load_from bytes file cr3 s (read_phdr mem phdr) = load_from mem file cr3 s (read_phdr mem phdr) :=
        load_from_congr (hdata _ List.mem_cons_self)
      rw [if_pos hload, if_pos hload, hfirst]
      exact congrArg _ (funext fun t => ih hrest fun g hg => hdata g (List.mem_cons_of_mem _ hg))
    · rw [if_neg (show ¬(read_segment mem phdr).p_type = PT_LOAD from hload)] at hdata
      rw [if_neg hload, if_neg hload]
      exact ih hrest hdata

/-- **The loop over the headers** in buffers that the stores spare does what that one does. -/
theorem elf_load_all_follows {k : ℕ} (hent : 48 ≤ phentsize) (hc : S.Clear S.program B m.vm)
    (hB : ∀ j < n * phentsize, phdr + j ∈ B)
    (hfed : m.vm.pmm.feeds (segment_turns (segments_from m.bytes phentsize n phdr) + k) = true)
    (hprog : ∀ g ∈ segments_from m.bytes phentsize n phdr, ∀ i < g.p_filesz.toNat,
      g.p_paddr + UInt64.ofNat i ∈ S.program)
    (hsrc : ∀ g ∈ segments_from m.bytes phentsize n phdr, ∀ i < g.p_filesz.toNat, file + g.p_offset.toNat + i ∈ B) :
    Follows B m (elf_load_all file S.cr3 phentsize n m phdr)
      (load_all_from m.bytes file S.cr3 phentsize n m.vm phdr) := by
  induction n generalizing m phdr with
  | zero => exact .ok (.refl m)
  | succ n ih =>
    have hhdr : ∀ j < 48, phdr + j ∈ B := fun j hj => hB j (by rw [Nat.succ_mul]; omega)
    have hrest : ∀ j < n * phentsize, phdr + phentsize + j ∈ B := fun j hj => by
      rw [Nat.add_assoc]
      exact hB _ (by rw [Nat.succ_mul]; omega)
    -- the rest of the headers, when the first has been loaded
    have hnext : ∀ {m' : Mm}, S.Clear S.program B m'.vm → Spared B m m' →
        m'.vm.pmm.feeds (segment_turns (segments_from m.bytes phentsize n (phdr + phentsize)) + k) = true →
          (∀ g ∈ segments_from m.bytes phentsize n (phdr + phentsize),
            (∀ i < g.p_filesz.toNat, g.p_paddr + UInt64.ofNat i ∈ S.program) ∧
              ∀ i < g.p_filesz.toNat, file + g.p_offset.toNat + i ∈ B) →
            Follows B m' (elf_load_all file S.cr3 phentsize n m' (phdr + phentsize))
              (load_all_from m.bytes file S.cr3 phentsize n m'.vm (phdr + phentsize)) := by
      intro m' hc' hs hfed' hgs
      have htable : ∀ j < n * phentsize, m'.bytes (phdr + phentsize + j) = m.bytes (phdr + phentsize + j) :=
        fun j hj => hs.bytes _ (hrest j hj)
      have hsame := segments_from_table hent htable
      have hfollows := ih hc' hrest (by rwa [hsame]) (by rw [hsame]; exact fun g hg => (hgs g hg).1)
        (by rw [hsame]; exact fun g hg => (hgs g hg).2)
      rwa [load_all_from_congr hent htable fun g hg i hi => hs.bytes _ ((hgs g hg).2 i hi)] at hfollows
    unfold segments_from at hfed hprog hsrc
    unfold elf_load_all load_all_from elf_load_one
    dsimp only
    by_cases hload : (read_phdr m.bytes phdr).p_type = PT_LOAD
    · simp only [if_pos (show (read_segment m.bytes phdr).p_type = PT_LOAD from hload)] at hfed hprog hsrc
      rw [if_pos hload, if_pos hload]
      have hfed : m.vm.pmm.feeds (map_turns (read_phdr m.bytes phdr).p_paddr (read_phdr m.bytes phdr).map_end +
          (segment_turns (segments_from m.bytes phentsize n (phdr + phentsize)) + k)) = true := by
        rw [← Nat.add_assoc]
        exact hfed
      have hdst : ∀ i < (read_phdr m.bytes phdr).p_filesz.toNat,
          (read_phdr m.bytes phdr).p_paddr + UInt64.ofNat i ∈ S.program := hprog _ List.mem_cons_self
      have hdata : ∀ i < (read_phdr m.bytes phdr).p_filesz.toNat,
          file + (read_phdr m.bytes phdr).p_offset.toNat + i ∈ B := hsrc _ List.mem_cons_self
      refine (elf_load_follows hc hhdr hfed hdst hdata).bind fun m' hm' _ => ?_
      obtain ⟨hc', hs, hfed'⟩ := elf_load_spares hc hhdr hfed hdst hm'
      exact hnext hc' hs hfed' fun g hg =>
        ⟨hprog g (List.mem_cons_of_mem _ hg), hsrc g (List.mem_cons_of_mem _ hg)⟩
    · simp only [if_neg (show ¬(read_segment m.bytes phdr).p_type = PT_LOAD from hload)] at hfed hprog hsrc
      rw [if_neg hload, if_neg hload]
      exact hnext hc (.refl m) hfed fun g hg => ⟨hprog g hg, hsrc g hg⟩

end Segments

/-! ### The loader as a whole -/

/-- A size that the heap has is no negative `int`. -/
theorem phdrs_size_toNat (h : Elf64_Ehdr) (hle : h.phdrs_size ≤ HEAP_SIZE) :
    h.phdrs_size.toNat = h.e_phnum.toNat * h.e_phentsize.toNat := by
  have hlt : h.e_phnum.toNat * h.e_phentsize.toNat < 2 ^ 32 :=
    calc h.e_phnum.toNat * h.e_phentsize.toNat ≤ (2 ^ 16 - 1) * (2 ^ 16 - 1) :=
          Nat.mul_le_mul (Nat.le_sub_one_of_lt h.e_phnum.toNat_lt) (Nat.le_sub_one_of_lt h.e_phentsize.toNat_lt)
      _ < 2 ^ 32 := by decide
  have hmul : (h.e_phnum.toUInt32.toBitVec * h.e_phentsize.toUInt32.toBitVec).toNat =
      h.e_phnum.toNat * h.e_phentsize.toNat := by
    rw [BitVec.toNat_mul, UInt32.toNat_toBitVec, UInt32.toNat_toBitVec, UInt16.toNat_toUInt32,
      UInt16.toNat_toUInt32, Nat.mod_eq_of_lt hlt]
  have hsize : h.phdrs_size.toNat =
      (BitVec.signExtend 64 (h.e_phnum.toUInt32.toBitVec * h.e_phentsize.toUInt32.toBitVec)).toNat := rfl
  rw [BitVec.toNat_signExtend, BitVec.toNat_setWidth, hmul, Nat.mod_eq_of_lt (by omega)] at hsize
  rw [UInt64.le_iff_toNat_le] at hle
  have hheap : HEAP_SIZE.toNat = 2 ^ 32 := by decide
  split at hsize
  · omega
  · omega

section Loader

variable {S : Space} {m m' : Mm} {path : List UInt8}

/-- What a call does to frames and tables is a part of the loader that puts nothing, and the rest does
not depend on them. -/
def Quiet {α : Type} (S : Space) (n : ℕ) (call : Mm → Kern (α × Mm)) (m : Mm) (r : α × Mm) : Prop :=
  ∃ f, S.Puts n f (fun _ => none) ∧ f m.vm = .ok r.2.vm ∧
    ∀ t t', f t = .ok t' → call { m with vm := t } = .ok (r.1, { r.2 with vm := t' })

theorem kmalloc_quiet {n_bytes : UInt64} {p : ℕ} (h0 : m.heap.bytes_allocated = 0)
    (h : kmalloc m n_bytes = .ok (p, m')) :
    Quiet S (kmalloc_turns n_bytes) (fun m => kmalloc m n_bytes) m (p, m') ∧ m'.bytes = m.bytes := by
  unfold kmalloc at h
  split at h
  next hb =>
    obtain ⟨rfl, rfl⟩ := Prod.mk.inj (pure_ok.1 h)
    refine ⟨⟨fun s => .ok s, Space.Puts.nothing.mono (Nat.zero_le _), rfl, fun t t' ht => ?_⟩, rfl⟩
    obtain rfl := Except.ok.inj ht
    change kmalloc { m with vm := t } n_bytes = _
    unfold kmalloc
    exact if_pos hb
  next hb =>
    have hle : n_bytes ≤ HEAP_SIZE := by
      rw [h0, UInt64.zero_add] at hb
      exact UInt64.not_lt.1 hb
    obtain ⟨⟨region, heap⟩, hf, h⟩ := bind_ok.1 h
    obtain ⟨vm, hvm, h⟩ := bind_ok.1 h
    have hputs := kmalloc_map_puts (S := S) hle (2 ^ 20) (Nat.zero_le _) (DATA_START region)
    dsimp only at h
    split at h
    next h0 =>
      obtain ⟨rfl, rfl⟩ := Prod.mk.inj (pure_ok.1 h)
      refine ⟨⟨_, hputs, hvm, fun t t' ht => ?_⟩, rfl⟩
      change kmalloc { m with vm := t } n_bytes = _
      unfold kmalloc
      refine (if_neg hb).trans (bind_ok.2 ⟨_, hf, bind_ok.2 ⟨t', ht, ?_⟩⟩)
      exact if_pos h0
    next h0 =>
      obtain ⟨rfl, rfl⟩ := Prod.mk.inj (pure_ok.1 h)
      refine ⟨⟨_, hputs, hvm, fun t t' ht => ?_⟩, rfl⟩
      change kmalloc { m with vm := t } n_bytes = _
      unfold kmalloc
      refine (if_neg hb).trans (bind_ok.2 ⟨_, hf, bind_ok.2 ⟨t', ht, ?_⟩⟩)
      exact if_neg h0

/-- The file in a buffer on the heap. -/
structure InBuffer (m m' : Mm) (mem : ℕ → UInt8) (sz ptr : ℕ) : Prop where
  place : ptr = m.heap.fresh + 48
  bytes : ∀ i < sz, m'.bytes (ptr + i) = mem i
  used : m'.heap.Used m'.heap.heap_tail
  bytes_allocated : m'.heap.bytes_allocated = m.heap.bytes_allocated
  /-- The next block is behind the file and its `NUL`. -/
  fresh : m'.heap.fresh = m.heap.fresh + 48 + (sz + 1)

/-- The bytes of the file behind the header in the archive. -/
def file_bytes (m : Mm) (address : UInt64) (i : ℕ) : UInt8 := m.module (address + 0x200 + UInt64.ofNat i)

/-- **Opening a file** that is there. -/
theorem initrd_open_quiet {address sz : UInt64} {ptr : ℕ} (hu : m.heap.Used m.heap.heap_tail)
    (h0 : m.heap.bytes_allocated = 0) (hsz : sz.toNat < 8 ^ 11)
    (hf : initrd_find m path = .ok (some (address, sz))) (h : initrd_open m path = .ok (ptr, m')) :
    Quiet S (kmalloc_turns (sz + 1)) (fun m => initrd_open m path) m (ptr, m') ∧
      InBuffer m m' (file_bytes m address) sz.toNat ptr := by
  obtain ⟨hg, hfile⟩ := initrd_open_ok hu h
  obtain ⟨-, hbytes⟩ := hfile hf
  obtain ⟨o, ho, h⟩ := bind_ok.1 h
  rw [hf] at ho
  obtain rfl := Except.ok.inj ho
  obtain ⟨⟨buf, m₁⟩, hk, h⟩ := bind_ok.1 h
  dsimp only at h
  split at h
  next => cases h
  next hb =>
    obtain ⟨rfl, rfl⟩ := Prod.mk.inj (pure_ok.1 h)
    obtain ⟨⟨f, hputs, hvm, hcall⟩, hsame⟩ := kmalloc_quiet (S := S) h0 hk
    rcases kmalloc_cases hu hk with ⟨-, hz, -⟩ | ⟨-, hp, happ⟩
    · exact absurd hz hb
    · refine ⟨⟨f, hputs, hvm, fun t t' ht => ?_⟩, hp, hbytes, hg.used hu, hg.bytes_allocated, ?_⟩
      · change initrd_open { m with vm := t } path = _
        exact bind_ok.2 ⟨some (address, sz), hf, bind_ok.2 ⟨_, hcall t t' ht, if_neg hb⟩⟩
      · have hsucc : (sz + 1).toNat = sz.toNat + 1 := by
          rw [UInt64.toNat_add, UInt64.toNat_one, Nat.mod_eq_of_lt (by omega)]
        change m₁.heap.fresh = m.heap.fresh + 48 + (sz.toNat + 1)
        rw [KHeap.fresh_eq m₁.heap, happ.head, happ.new_size, hsucc]
        omega

section File

variable {mem : ℕ → UInt8} {sz ptr hdrs : ℕ}

/-- The block for the headers, which has their size, lies behind the file. -/
theorem InBuffer.headers {m₁ m₂ : Mm} {n_bytes : UInt64} (hb : InBuffer m m₁ mem sz ptr)
    (h0 : m.heap.bytes_allocated = 0) (hk : kmalloc m₁ n_bytes = .ok (hdrs, m₂))
    (hn : ¬(hdrs = 0 ∧ n_bytes ≠ 0)) : n_bytes ≤ HEAP_SIZE ∧ hdrs = m.heap.fresh + 48 + (sz + 1) + 48 := by
  rcases kmalloc_cases hb.used hk with ⟨hgt, hz, -⟩ | ⟨hle, hp, -⟩
  · rw [hb.bytes_allocated, h0, UInt64.zero_add] at hgt
    refine absurd ⟨hz, fun hsize => ?_⟩ hn
    rw [hsize] at hgt
    exact absurd hgt (by decide)
  · rw [hb.bytes_allocated, h0, UInt64.zero_add] at hle
    exact ⟨hle, by rw [hp, hb.fresh, DATA_START, KHEAP_BLOCK_SIZE]⟩

/-- A file has headers to step over. -/
theorem ElfFile.phentsize_ne_zero (hw : ElfFile mem sz) : (read_ehdr mem 0).e_phentsize ≠ 0 := by
  intro he
  have hentries := hw.entries
  rw [he] at hentries
  exact absurd hentries (by decide)

end File

/-- The next two blocks of the heap: for a file and its `NUL`, and for its program headers. -/
def loader_blocks (m : Mm) (sz : ℕ) (header : Elf64_Ehdr) : Set ℕ :=
  {p | m.heap.fresh ≤ p ∧ p < m.heap.fresh + 48 + (sz + 1) + 48 + header.phdrs_size.toNat}

/-- How many pages are mapped for a file: for these blocks, and for its segments. -/
def loader_turns (mem : ℕ → UInt8) (sz : UInt64) : ℕ :=
  kmalloc_turns (sz + 1) + (kmalloc_turns (read_ehdr mem 0).phdrs_size + segment_turns (segments mem))

/-- The loader is called for a file in the archive, in a space in order where the file's addresses are the
program's and the loader's buffers the kernel's, and there is a frame for each page that is mapped. -/
structure Loadable (S : Space) (m : Mm) (path : List UInt8) (address sz : UInt64) : Prop where
  used : m.heap.Used m.heap.heap_tail
  bytes_allocated : m.heap.bytes_allocated = 0
  found : initrd_find m path = .ok (some (address, sz))
  file : ElfFile (file_bytes m address) sz.toNat
  own : S.Own m.vm
  program : ∀ g ∈ segments (file_bytes m address), ∀ a, g.Touches a → a ∈ S.program
  buffers : S.Holds (loader_blocks m sz.toNat (read_ehdr (file_bytes m address) 0)) m.vm.ram
  feeds : m.vm.pmm.feeds (loader_turns (file_bytes m address) sz) = true

section Headers

variable {m₂ : Mm} {address sz : UInt64} {ptr hdrs : ℕ}

/-- The buffers with the copy that the loader makes of the program headers, from the file at `elf_ptr`. -/
def copied_headers (mem : ℕ → UInt8) (header : Elf64_Ehdr) (elf_ptr prog_headers : ℕ) (a : ℕ) : UInt8 :=
  if prog_headers ≤ a ∧ a < prog_headers + header.phdrs_size.toNat then
    mem (elf_ptr + header.e_phoff.toNat + (a - prog_headers))
  else mem a

/-- Memory with that copy. -/
def with_headers (m : Mm) (header : Elf64_Ehdr) (elf_ptr prog_headers : ℕ) : Mm :=
  { m with bytes := copied_headers m.bytes header elf_ptr prog_headers }

theorem with_headers_bytes (m : Mm) (header : Elf64_Ehdr) (elf_ptr prog_headers : ℕ) :
    (with_headers m header elf_ptr prog_headers).bytes = copied_headers m.bytes header elf_ptr prog_headers := rfl

theorem Loadable.size (hl : Loadable S m path address sz)
    (hle : (read_ehdr (file_bytes m address) 0).phdrs_size ≤ HEAP_SIZE) :
    (read_ehdr (file_bytes m address) 0).phdrs_size.toNat =
        (read_ehdr (file_bytes m address) 0).e_phnum.toNat * (read_ehdr (file_bytes m address) 0).e_phentsize.toNat ∧
      (read_ehdr (file_bytes m address) 0).e_phoff.toNat + (read_ehdr (file_bytes m address) 0).phdrs_size.toNat ≤
        sz.toNat := by
  have hsize := phdrs_size_toNat _ hle
  exact ⟨hsize, by rw [hsize]; exact hl.file.table⟩

/-- The copy of the table. -/
theorem Loadable.table (hl : Loadable S m path address sz)
    (hle : (read_ehdr (file_bytes m address) 0).phdrs_size ≤ HEAP_SIZE)
    (hbytes : ∀ i < sz.toNat, m₂.bytes (ptr + i) = file_bytes m address i) (hdrs : ℕ) :
    ∀ j < (read_ehdr (file_bytes m address) 0).e_phnum.toNat * (read_ehdr (file_bytes m address) 0).e_phentsize.toNat,
      (with_headers m₂ (read_ehdr (file_bytes m address) 0) ptr hdrs).bytes (hdrs + j) =
        file_bytes m address ((read_ehdr (file_bytes m address) 0).e_phoff.toNat + j) := by
  obtain ⟨hsize, htable⟩ := hl.size hle
  intro j hj
  rw [with_headers_bytes, copied_headers, if_pos (by omega), Nat.add_sub_cancel_left, Nat.add_assoc, hbytes _ (by omega)]

/-- The data of the segments, before the copy of the table. -/
theorem Loadable.data (hl : Loadable S m path address sz)
    (hbytes : ∀ i < sz.toNat, m₂.bytes (ptr + i) = file_bytes m address i) (hbehind : ptr + sz.toNat ≤ hdrs) :
    ∀ g ∈ segments (file_bytes m address), ∀ i < g.p_filesz.toNat,
      (with_headers m₂ (read_ehdr (file_bytes m address) 0) ptr hdrs).bytes (ptr + g.p_offset.toNat + i) =
        file_bytes m address (g.p_offset.toNat + i) := by
  intro g hg i hi
  have hinside := hl.file.inside g hg
  rw [with_headers_bytes, copied_headers, if_neg (by omega), Nat.add_assoc, hbytes _ (by omega)]

/-- **The loop over the headers of a file** in a buffer, from a copy of the headers behind it, puts the
segments. -/
theorem Loadable.loop_puts (hl : Loadable S m path address sz)
    (hle : (read_ehdr (file_bytes m address) 0).phdrs_size ≤ HEAP_SIZE)
    (hbytes : ∀ i < sz.toNat, m₂.bytes (ptr + i) = file_bytes m address i) (hbehind : ptr + sz.toNat ≤ hdrs) :
    S.Puts (segment_turns (segments (file_bytes m address)))
      (fun s => load_all_from (with_headers m₂ (read_ehdr (file_bytes m address) 0) ptr hdrs).bytes ptr S.cr3
        (read_ehdr (file_bytes m address) 0).e_phentsize.toNat (read_ehdr (file_bytes m address) 0).e_phnum.toNat s hdrs)
      (loaded (file_bytes m address) (segments (file_bytes m address))) :=
  load_all_from_puts (Nat.le_trans (by decide) hl.file.entries) (hl.table hle hbytes hdrs) (hl.data hbytes hbehind)
    fun g hg i hi => hl.program g hg _ (.inl ⟨i, hi, rfl⟩)

/-- **The loop of the loader** does that: its stores spare its buffers. -/
theorem Loadable.loop_follows (hl : Loadable S m path address sz)
    (hle : (read_ehdr (file_bytes m address) 0).phdrs_size ≤ HEAP_SIZE) (hptr : ptr = m.heap.fresh + 48)
    (hhdrs : hdrs = m.heap.fresh + 48 + (sz.toNat + 1) + 48)
    (hbytes : ∀ i < sz.toNat, m₂.bytes (ptr + i) = file_bytes m address i) (hown : S.Own m₂.vm)
    (hheld : S.Holds (loader_blocks m sz.toNat (read_ehdr (file_bytes m address) 0)) m₂.vm.ram)
    (hfed : m₂.vm.pmm.feeds (segment_turns (segments (file_bytes m address)) + 0) = true) :
    Follows (loader_blocks m sz.toNat (read_ehdr (file_bytes m address) 0))
      (with_headers m₂ (read_ehdr (file_bytes m address) 0) ptr hdrs)
      (elf_load_all ptr S.cr3 (read_ehdr (file_bytes m address) 0).e_phentsize.toNat
        (read_ehdr (file_bytes m address) 0).e_phnum.toNat
        (with_headers m₂ (read_ehdr (file_bytes m address) 0) ptr hdrs) hdrs)
      (load_all_from (with_headers m₂ (read_ehdr (file_bytes m address) 0) ptr hdrs).bytes ptr S.cr3
        (read_ehdr (file_bytes m address) 0).e_phentsize.toNat
        (read_ehdr (file_bytes m address) 0).e_phnum.toNat m₂.vm hdrs) := by
  have hent : 48 ≤ (read_ehdr (file_bytes m address) 0).e_phentsize.toNat := Nat.le_trans (by decide) hl.file.entries
  have hsegs : segments_from (with_headers m₂ (read_ehdr (file_bytes m address) 0) ptr hdrs).bytes
      (read_ehdr (file_bytes m address) 0).e_phentsize.toNat (read_ehdr (file_bytes m address) 0).e_phnum.toNat hdrs =
        segments (file_bytes m address) := segments_from_table hent (hl.table hle hbytes hdrs)
  obtain ⟨hsize, -⟩ := hl.size hle
  refine elf_load_all_follows hent (hown.clear hheld) (fun j hj => ?_) (by rw [hsegs]; exact hfed) ?_ ?_
  · constructor <;> omega
  · rw [hsegs]
    exact fun g hg i hi => hl.program g hg _ (.inl ⟨i, hi, rfl⟩)
  · rw [hsegs]
    intro g hg i hi
    have hinside := hl.file.inside g hg
    constructor <;> omega

end Headers

/-- **The loader puts the segments**, and does the same whatever the frames hold that are no tables. -/
theorem elf_get_entry_puts {address sz rip : UInt64} (hl : Loadable S m path address sz)
    (h : elf_get_entry m path S.cr3 = .ok (rip, m')) :
    rip = (read_ehdr (file_bytes m address) 0).e_entry ∧
    ∃ f, S.Puts (loader_turns (file_bytes m address) sz) f
        (loaded (file_bytes m address) (segments (file_bytes m address))) ∧ f m.vm = .ok m'.vm ∧
      ∀ t t', S.Alike m.vm t → f t = .ok t' →
        ∃ n, elf_get_entry { m with vm := t } path S.cr3 = .ok (rip, n) ∧ n.vm = t' := by
  obtain ⟨⟨ptr, m₁⟩, ho, h⟩ := bind_ok.1 h
  obtain ⟨⟨f₁, hputs₁, hvm₁, hcall₁⟩, hbuf⟩ :=
    initrd_open_quiet (S := S) hl.used hl.bytes_allocated hl.file.small hl.found ho
  have hhdr : read_ehdr m₁.bytes ptr = read_ehdr (file_bytes m address) 0 :=
    read_ehdr_congr fun i hi => by rw [hbuf.bytes i (Nat.lt_of_lt_of_le hi hl.file.header), Nat.zero_add]
  have hptr : ¬ptr = 0 := by rw [hbuf.place]; omega
  have hacc : ¬(!(read_ehdr (file_bytes m address) 0).acceptable) = true := by simp [hl.file.acceptable]
  dsimp only at h
  rw [hhdr, if_neg hptr, if_neg hacc] at h
  obtain ⟨⟨hdrs, m₂⟩, hk, h⟩ := bind_ok.1 h
  obtain ⟨⟨f₂, hputs₂, hvm₂, hcall₂⟩, hsame⟩ :=
    kmalloc_quiet (S := S) (hbuf.bytes_allocated.trans hl.bytes_allocated) hk
  dsimp only at h
  split at h
  next => cases h
  next hnull =>
  rw [if_neg hl.file.phentsize_ne_zero] at h
  obtain ⟨m₃, hm₃, h⟩ := bind_ok.1 h
  obtain ⟨rfl, rfl⟩ := Prod.mk.inj (pure_ok.1 h)
  obtain ⟨hle, hhdrs⟩ := hbuf.headers hl.bytes_allocated hk hnull
  have hfile : ∀ i < sz.toNat, m₂.bytes (ptr + i) = file_bytes m address i := by
    rw [hsame]
    exact hbuf.bytes
  have hputs₃ := hl.loop_puts hle hfile (show ptr + sz.toNat ≤ hdrs by rw [hhdrs, hbuf.place]; omega)
  -- the loop, in any state that the allocations lead to
  have hloop : ∀ t t₁ t₂, S.Alike m.vm t → f₁ t = .ok t₁ → f₂ t₁ = .ok t₂ →
      Follows (loader_blocks m sz.toNat (read_ehdr (file_bytes m address) 0))
        (with_headers { m₂ with vm := t₂ } (read_ehdr (file_bytes m address) 0) ptr hdrs)
        (elf_load_all ptr S.cr3 (read_ehdr (file_bytes m address) 0).e_phentsize.toNat
          (read_ehdr (file_bytes m address) 0).e_phnum.toNat
          (with_headers { m₂ with vm := t₂ } (read_ehdr (file_bytes m address) 0) ptr hdrs) hdrs)
        (load_all_from (with_headers m₂ (read_ehdr (file_bytes m address) 0) ptr hdrs).bytes ptr S.cr3
          (read_ehdr (file_bytes m address) 0).e_phentsize.toNat
          (read_ehdr (file_bytes m address) 0).e_phnum.toNat t₂ hdrs) := by
    intro t t₁ t₂ ht ht₁ ht₂
    have hfed : t.pmm.feeds (loader_turns (file_bytes m address) sz) = true := by
      rw [ht.pmm]
      exact hl.feeds
    obtain ⟨ho₁, hfed₁, hl₁, -⟩ := hputs₁ t t₁ _ (ht.own hl.own) hfed ht₁
    obtain ⟨ho₂, hfed₂, hl₂, -⟩ := hputs₂ t₁ t₂ _ ho₁ hfed₁ ht₂
    exact hl.loop_follows hle hbuf.place hhdrs hfile ho₂
      (((hl.buffers.alike hl.own.tree ht).loads hl₁).loads hl₂) hfed₂
  -- the parts one after the other, for any contents of the frames
  have hputs := Space.Puts.bind hputs₁ (Space.Puts.bind hputs₂ hputs₃)
  simp only [Option.or_none] at hputs
  refine ⟨rfl, _, hputs, bind_ok.2 ⟨_, hvm₁, bind_ok.2 ⟨_, hvm₂, ?_⟩⟩, fun t t' ht hrun => ?_⟩
  · have hfollows := hloop _ _ _ (.refl m.vm) hvm₁ hvm₂
    rw [show elf_load_all ptr S.cr3 _ _ (with_headers { m₂ with vm := m₂.vm } _ ptr hdrs) hdrs = .ok _ from hm₃]
      at hfollows
    generalize hy : load_all_from _ _ _ _ _ _ _ = y at hfollows
    cases hfollows
    rfl
  obtain ⟨t₁, ht₁, hrun⟩ := bind_ok.1 hrun
  obtain ⟨t₂, ht₂, ht₃⟩ := bind_ok.1 hrun
  have hfollows := hloop t t₁ t₂ ht ht₁ ht₂
  rw [ht₃] at hfollows
  generalize hx : elf_load_all _ _ _ _ _ _ = x at hfollows
  cases hfollows with
  | @ok n hn =>
    refine ⟨n, bind_ok.2 ⟨_, hcall₁ t t₁ ht₁, ?_⟩, rfl⟩
    dsimp only
    rw [hhdr, if_neg hptr, if_neg hacc]
    refine bind_ok.2 ⟨_, hcall₂ t₁ t₂ ht₂, ?_⟩
    dsimp only
    rw [if_neg hnull, if_neg hl.file.phentsize_ne_zero]
    exact bind_ok.2 ⟨n, hx, rfl⟩

/-- **The loader does its work** on a file, whatever the frames held: it answers with the entry point, and
memory is as the program expects. -/
def LoadsRight (S : Space) (m : Mm) (path : List UInt8) (mem : ℕ → UInt8) : Prop :=
  ∀ t, S.Alike m.vm t → ∀ rip n, elf_get_entry { m with vm := t } path S.cr3 = .ok (rip, n) →
    rip = (read_ehdr mem 0).e_entry ∧ InPlace n.vm.ram S.cr3 mem

/-- **Memory is as the program expects exactly for the files whose every byte is put.** A byte that is not is
what the frame held. -/
theorem elf_loaded_iff {address sz rip : UInt64} (hl : Loadable S m path address sz)
    (h : elf_get_entry m path S.cr3 = .ok (rip, m')) :
    LoadsRight S m path (file_bytes m address) ↔ Placed (file_bytes m address) := by
  obtain ⟨hrip, f, hputs, hvm, hcall⟩ := elf_get_entry_puts hl h
  obtain ⟨-, -, hput, halike⟩ := hputs _ _ 0 hl.own hl.feeds hvm
  constructor
  · intro hright g hg i hi
    have ha := hl.program g hg _ (.inr ⟨i, hi, rfl⟩)
    have hbyte := (hright m.vm (.refl _) _ _ h).2 g hg i hi
    cases hb : loaded (file_bytes m address) (segments (file_bytes m address)) (g.p_vaddr + UInt64.ofNat i) with
    | some b => exact (hput.put _ b hb).2.symm.trans hbyte
    | none =>
      -- the frame held another byte
      obtain ⟨p, hp, -⟩ := Option.map_eq_some_iff.1 hbyte
      obtain ⟨t, t', ht, ht', hother⟩ :=
        hputs.missing hl.own hl.feeds hvm ha hb hp (g.wanted (file_bytes m address) i + 1)
      obtain ⟨n, hn, rfl⟩ := hcall t t' ht ht'
      have hsame := (hright t ht _ _ hn).2 g hg i hi
      have heq := Option.some.inj (hother.symm.trans hsame)
      exact absurd heq (by simp)
  · intro hplaced t ht r n hn
    obtain ⟨t', ht', hst⟩ := halike t ht
    have hfed : t.pmm.feeds (loader_turns (file_bytes m address) sz) = true := by
      rw [ht.pmm]
      exact hl.feeds
    obtain ⟨-, -, hput, -⟩ := hputs _ _ 0 (ht.own hl.own) hfed ht'
    obtain ⟨n', hn', rfl⟩ := hcall t t' ht ht'
    obtain ⟨rfl, rfl⟩ := Prod.mk.inj (Except.ok.inj (hn.symm.trans hn'))
    exact ⟨hrip, fun g hg i hi => (hput.put _ _ (hplaced g hg i hi)).2⟩

end Loader

/-! ### A small file -/

/-- An executable file with one segment at an address, of one byte in the file and `memsz` in memory. -/
def smallElf (address : UInt64) (memsz : UInt8) : List UInt8 :=
  [0x7f, 0x45, 0x4c, 0x46, 2, 1, 1, 0, 0, 0, 0, 0, 0, 0, 0, 0,
   2, 0, 62, 0, 1, 0, 0, 0,
   0, 0x10, 0, 0, 0, 0, 0, 0, -- `e_entry`
   0x40, 0, 0, 0, 0, 0, 0, 0, 0, 0, 0, 0, 0, 0, 0, 0,
   0, 0, 0, 0, 0x40, 0, 0x38, 0, 1, 0, 0, 0, 0, 0, 0, 0,
   1, 0, 0, 0, 7, 0, 0, 0,
   0x78, 0, 0, 0, 0, 0, 0, 0] ++ -- `p_offset`
  (List.range 8).map (getByte address) ++ (List.range 8).map (getByte address) ++ -- `p_vaddr` and `p_paddr`
  [1, 0, 0, 0, 0, 0, 0, 0, memsz, 0, 0, 0, 0, 0, 0, 0, -- `p_filesz` and `p_memsz`
   0, 0x10, 0, 0, 0, 0, 0, 0,
   0x90]

/-- The last page but one. -/
def LAST_PAGE : UInt64 := 0xffffffffffffe000

/-- Memory with that file in the archive, no page at `0x1000`, one at `LAST_PAGE`, and eight free frames. Their frames
are not zero. -/
def smallElfMm (address : UInt64) (memsz : UInt8) : Mm :=
  { bareMm with
    vm :=
      { bareMm.vm with
        ram := fun f i =>
          if f = 0x103 ∧ i = 1 then 0
          else if f = 8 ∨ f = 0x1fe then 0xffff
          else if i = 511 then if f = 0x100 then 0x101007 else if f = 0x101 then 0x102007 else if f = 0x102 then 0x103007
            else bareMm.vm.ram f i
          else bareMm.vm.ram f i
        pmm := { bareMm.vm.pmm with bitmap := fun i => if 8 ≤ i ∧ i < 16 then BITMAP_FREE else 0 } }
    initrd := 0x100000
    module := fun a =>
      if a = 0x100000 then 100
      else if 0x10007C ≤ a ∧ a < 0x100087 then 48
      else if a = 0x100200 then 97
      else if 0x10027C ≤ a ∧ a < 0x100284 then 48
      else if a = 0x100284 ∨ a = 0x100286 then 49
      else if a = 0x100285 then 55
      else if 0x100400 ≤ a then (smallElf address memsz).getD (a - 0x100400).toNat 0
      else 0 }

/-- The space of the kernel, with two addresses of the program. The heap begins on frame `0`. -/
def smallSpace (address : UInt64) : Space where
  cr3 := 0x100000
  upper := {0x100, 0x101, 0x102}
  page_tbls := {0x103}
  kernel := {0}
  program := {address, address + 1}

section Small

variable {address : UInt64} {memsz : UInt8}

theorem smallSpace_cr3 : (smallSpace address).cr3 = 0x100000 := rfl

/-- One of the two pages. -/
def SmallPage (address : UInt64) : Prop := address = 0x1000 ∨ address = LAST_PAGE

theorem smallSpace_page (h : SmallPage address) {a b : UInt64} (ha : a ∈ (smallSpace address).program)
    (hb : b ∈ (smallSpace address).program) : frameNo a = frameNo b := by
  rcases h with rfl | rfl <;> rcases ha with rfl | rfl <;> rcases hb with rfl | rfl <;> decide

/-- The walks of all addresses go through the same tables. -/
theorem smallElfMm_tree (h : SmallPage address) : (smallSpace address).Tree (smallElfMm 0 0).vm.ram := by
  have hpdpt : ∀ v, present ((smallElfMm 0 0).vm.ram 0x100 (pml4_idx v)) = true →
      pdpt_of (smallElfMm 0 0).vm.ram 0x100000 v = 0x101 := by
    intro v
    change present (if pml4_idx v = 511 then 0x101007 else if pml4_idx v = 0 ∨ pml4_idx v = 256 then 0x101007 else 0) =
        true → entryFrame (if pml4_idx v = 511 then 0x101007 else if pml4_idx v = 0 ∨ pml4_idx v = 256 then 0x101007
          else 0) = 0x101
    split_ifs <;> decide
  have hpdt : ∀ v, present ((smallElfMm 0 0).vm.ram 0x100 (pml4_idx v)) = true →
      present ((smallElfMm 0 0).vm.ram (pdpt_of (smallElfMm 0 0).vm.ram 0x100000 v) (pdpt_idx v)) = true →
        (smallElfMm 0 0).vm.ram (pdpt_of (smallElfMm 0 0).vm.ram 0x100000 v) (pdpt_idx v) = 0x102007 := by
    intro v h₃
    rw [hpdpt v h₃]
    change present (if pdpt_idx v = 511 then 0x102007 else if pdpt_idx v = 0 then 0x102007 else 0) = true →
      (if pdpt_idx v = 511 then 0x102007 else if pdpt_idx v = 0 then 0x102007 else 0) = (0x102007 : UInt64)
    split_ifs <;> decide
  have hpage : ∀ v, TablesPresent (smallElfMm 0 0).vm.ram 0x100000 v →
      (smallElfMm 0 0).vm.ram (pdt_of (smallElfMm 0 0).vm.ram 0x100000 v) (pd_idx v) = 0x103007 := by
    intro v ht
    have hp := ht.page_tbl
    rw [pdt_of, hpdt v ht.pdpt ht.pdt] at hp ⊢
    change present (if pd_idx v = 511 then 0x103007 else if pd_idx v = 0 then 0x103007 else 0) = true at hp
    change (if pd_idx v = 511 then 0x103007 else if pd_idx v = 0 then 0x103007 else 0) = (0x103007 : UInt64)
    split_ifs at hp ⊢
    · rfl
    · rfl
    · cases hp
  refine ⟨?_, ?_, ?_, ?_, ?_, fun a ha b hb _ _ _ => smallSpace_page h ha hb⟩
  all_goals try simp only [smallSpace_cr3]
  · exact .inl rfl
  · exact fun v h₃ => .inr (.inl (hpdpt v h₃))
  · intro v h₃ h₂
    rw [pdt_of, show (smallElfMm 0 0).vm.ram (pdpt_of _ 0x100000 v) _ = _ from hpdt v h₃ h₂]
    exact ⟨by decide, .inr (.inr rfl)⟩
  · intro v ht
    rw [page_tbl_of, show (smallElfMm 0 0).vm.ram (pdt_of _ 0x100000 v) _ = _ from hpage v ht]
    exact ⟨by decide, rfl⟩
  · rintro f (rfl | rfl | rfl) h <;> cases h

theorem smallElfMm_own (h : SmallPage address) (memsz : UInt8) :
    (smallSpace address).Own (smallElfMm address memsz).vm := by
  change (smallSpace address).Own (smallElfMm 0 0).vm
  have hframe : ∀ a ∈ (smallSpace address).program, ∀ f,
      frame_at (smallElfMm 0 0).vm.ram (smallSpace address).cr3 a = some f → f = 0x1fe := by
    have hall : ∀ a ∈ (smallSpace address).program, frame_at (smallElfMm 0 0).vm.ram 0x100000 a = none ∨
        frame_at (smallElfMm 0 0).vm.ram 0x100000 a = some 0x1fe := by
      rcases h with rfl | rfl <;> rintro a (rfl | rfl) <;> decide +kernel
    intro a ha f hf
    rcases hall a ha with hnone | hsome
    · exact absurd (hnone.symm.trans hf) (by simp)
    · exact Option.some.inj (hf.symm.trans hsome)
  refine ⟨rfl, smallElfMm_tree h, fun a ha b hb _ _ _ => smallSpace_page h ha hb, fun a ha f hf => ?_, fun i hi => ?_⟩
  · obtain rfl := hframe a ha f hf
    simp [smallSpace]
  · have hlt : 8 ≤ i ∧ i < 16 := by
      by_contra hne
      rw [show (smallElfMm 0 0).vm.pmm.bitmap i = 0 from if_neg hne] at hi
      cases hi
    rw [UInt64.le_iff_toNat_le, UInt64.lt_iff_toNat_lt, show (8 : UInt64).toNat = 8 from rfl,
      show (16 : UInt64).toNat = 16 from rfl] at hlt
    refine ⟨by omega, ?_, ?_, ?_, fun a ha hf => ?_⟩
    · simp [smallSpace]
      omega
    · simp [smallSpace]
      omega
    · simp [smallSpace]
      omega
    · have hlast := hframe a ha _ hf
      omega

/-- The buffers of the loader lie in the first page of the heap. -/
theorem smallSpace_holds {m : Mm} {sz : ℕ} {header : Elf64_Ehdr} (hfirst : HEAP_START_ADDR ≤ m.heap.fresh)
    (hlast : m.heap.fresh + 48 + (sz + 1) + 48 + header.phdrs_size.toNat ≤ HEAP_START_ADDR + 0x1000)
    (hheap : frame_at m.vm.ram (smallSpace address).cr3 (UInt64.ofNat HEAP_START_ADDR) = some 0) :
    (smallSpace address).Holds (loader_blocks m sz header) m.vm.ram := by
  rintro p ⟨hp₁, hp₂⟩
  refine ⟨0, rfl, ?_⟩
  have hpage : frameNo (UInt64.ofNat p) = frameNo (UInt64.ofNat HEAP_START_ADDR) := by
    unfold HEAP_START_ADDR at *
    rw [frameNo, frameNo, UInt64.toNat_ofNat', UInt64.toNat_ofNat', Nat.mod_eq_of_lt (by omega)]
    omega
  rw [frame_at, Lib.Paging.translate, (walk_page hpage (show 4 ≤ 5 by decide)).1]
  exact hheap

/-- The loader is called for the file after `kheap_init`, and returns. -/
theorem smallElf_loadable (h : (address = 0x1000 ∧ (memsz = 1 ∨ memsz = 2)) ∨ (address = LAST_PAGE ∧ memsz = 2)) :
    ∃ m m', kheap_init (smallElfMm address memsz) = .ok m ∧ Loadable (smallSpace address) m [97] 0x100200 121 ∧
      file_bytes m 0x100200 = file_bytes (smallElfMm address memsz) 0x100200 ∧
        elf_get_entry m [97] 0x100000 = .ok (0x1000, m') ∧ byteAt m'.vm.ram 0x100000 (address + 1) = some 0xff := by
  have hpage : SmallPage address := by
    rcases h with ⟨rfl, -⟩ | ⟨rfl, -⟩
    · exact .inl rfl
    · exact .inr rfl
  have hret : answers
      (do let m ← kheap_init (smallElfMm address memsz); let r ← elf_get_entry m [97] 0x100000; return (m, r))
      (fun r => r.2.1 = 0x1000 ∧ byteAt r.2.2.vm.ram 0x100000 (address + 1) = some 0xff ∧
        HEAP_START_ADDR ≤ r.1.heap.fresh ∧ r.1.heap.fresh + 48 + 122 + 48 + 56 ≤ HEAP_START_ADDR + 0x1000 ∧
          frame_at r.1.vm.ram 0x100000 (UInt64.ofNat HEAP_START_ADDR) = some 0 ∧
            r.1.vm.pmm.feeds 6 = true) = true := by
    rcases h with ⟨rfl, rfl | rfl⟩ | ⟨rfl, rfl⟩ <;> decide +kernel
  have hfile : ElfFile (file_bytes (smallElfMm address memsz) 0x100200) 121 := by
    rcases h with ⟨rfl, rfl | rfl⟩ | ⟨rfl, rfl⟩ <;>
      exact ⟨by decide, by decide, by decide +kernel, by decide +kernel, by decide +kernel, by decide +kernel,
        by decide +kernel⟩
  have hsize : (read_ehdr (file_bytes (smallElfMm address memsz) 0x100200) 0).phdrs_size = 56 ∧
      loader_turns (file_bytes (smallElfMm address memsz) 0x100200) 121 ≤ 6 := by
    rcases h with ⟨rfl, rfl | rfl⟩ | ⟨rfl, rfl⟩ <;> decide +kernel
  have hfind : answers (initrd_find (smallElfMm address memsz) [97]) (· = some (0x100200, 121)) = true := by
    rcases h with ⟨rfl, rfl | rfl⟩ | ⟨rfl, rfl⟩ <;> decide +kernel
  have hprog : ∀ g ∈ segments (file_bytes (smallElfMm address memsz) 0x100200),
      (∀ i < g.p_filesz.toNat, g.p_paddr + UInt64.ofNat i = address) ∧
        ∀ i < g.size, g.p_vaddr + UInt64.ofNat i = address ∨ g.p_vaddr + UInt64.ofNat i = address + 1 := by
    rcases h with ⟨rfl, rfl | rfl⟩ | ⟨rfl, rfl⟩ <;> decide +kernel
  have hfed : (smallElfMm address memsz).vm.pmm.feeds 1 = true := by
    change (smallElfMm 0 0).vm.pmm.feeds 1 = true
    decide +kernel
  obtain ⟨t, hr, hb⟩ := answers_iff.1 hret
  obtain ⟨m, hm, hr⟩ := bind_ok.1 hr
  obtain ⟨⟨rip, m'⟩, he, hr⟩ := bind_ok.1 hr
  obtain rfl := pure_ok.1 hr
  obtain ⟨rfl, hbyte, hfirst, hlast, hheap, hfeeds⟩ := of_decide_eq_true hb
  obtain ⟨hu, h0, -⟩ := kheap_init_ok hm
  have hinit := hm
  obtain ⟨vm, hvm, hm⟩ := bind_ok.1 hm
  obtain rfl := pure_ok.1 hm
  obtain ⟨o, ho, hsome⟩ := answers_iff.1 hfind
  obtain rfl := of_decide_eq_true hsome
  refine ⟨_, m', hinit, ⟨hu, h0, ho, hfile, (smallElfMm_own hpage memsz).map Space.leafs_kernel hfed hvm, ?_,
    smallSpace_holds hfirst ?_ hheap, ?_⟩, rfl, he, hbyte⟩
  · rintro g hg a (⟨i, hi, rfl⟩ | ⟨i, hi, rfl⟩)
    · exact .inl ((hprog g hg).1 i hi)
    · exact (hprog g hg).2 i hi
  · have hheader : (read_ehdr (file_bytes (smallElfMm address memsz) 0x100200) 0).phdrs_size.toNat = 56 := by
      rw [hsize.1]
      rfl
    change _ + (read_ehdr (file_bytes (smallElfMm address memsz) 0x100200) 0).phdrs_size.toNat ≤ _
    rw [hheader]
    exact hlast
  · exact Pmm.feeds_mono hfeeds hsize.2

end Small

/-- A file as long in memory as it is on disk is in place. -/
theorem elf_loaded_iff_small : ∃ m, Loadable (smallSpace 0x1000) m [97] 0x100200 121 ∧
    LoadsRight (smallSpace 0x1000) m [97] (file_bytes m 0x100200) := by
  obtain ⟨m, m', -, hl, hbytes, he, -⟩ := smallElf_loadable (.inl ⟨rfl, .inl rfl⟩)
  refine ⟨m, hl, (elf_loaded_iff hl he).2 ?_⟩
  rw [hbytes]
  decide +kernel

/-- The second byte of a segment with one byte in the file is what its frame held. -/
theorem not_loads_right : ¬∀ S m m' path address sz rip, Loadable S m path address sz →
    elf_get_entry m path S.cr3 = .ok (rip, m') → LoadsRight S m path (file_bytes m address) := by
  intro hall
  obtain ⟨m, m', -, hl, hbytes, he, hb⟩ := smallElf_loadable (.inl ⟨rfl, .inr rfl⟩)
  have hin := (hall _ m m' _ _ _ _ hl he m.vm (.refl _) _ _ he).2
  rw [hbytes] at hin
  obtain ⟨g, hg, hi, ha, hw⟩ : ∃ g ∈ segments (file_bytes (smallElfMm 0x1000 2) 0x100200), 1 < g.size ∧
      g.p_vaddr + UInt64.ofNat 1 = 0x1000 + 1 ∧ g.wanted (file_bytes (smallElfMm 0x1000 2) 0x100200) 1 = 0 := by
    decide +kernel
  have h0 := hin g hg 1 hi
  rw [ha, hw] at h0
  have heq : (0xff : UInt8) = 0 := Option.some.inj (hb.symm.trans h0)
  cases heq

end Iridium
