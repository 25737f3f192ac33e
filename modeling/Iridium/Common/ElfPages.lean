import Mathlib.Data.List.MinMax
import Iridium.Common.ElfReads
import Iridium.Mm.MapRuns

/-!
# The pages that the loader maps

For each `PT_LOAD` segment the loader maps every page from `p_paddr` up to twice the sum of `p_paddr` and the size
in memory rounded up, kept in an `int`: pages of the segment, and as a rule many behind it. These are the pages it
should map exactly for the files of `elf_pages_iff`; there are no ordinary ones (`not_rightPages_ordinary`). Where
a segment is stored on the table of headers, the pages of the next ones are others.
-/

namespace Iridium

open Lib Lib.Paging

/-! ### The addresses that are mapped -/

namespace Elf64_Phdr

variable (g : Elf64_Phdr)

/-- The addresses that the loop maps. -/
def Mapped (a : UInt64) : Prop :=
  g.p_paddr.toNat ≤ a.toNat ∧ a.toNat < g.map_end.toNat ∧ (a.toNat - g.p_paddr.toNat) % 0x1000 = 0

/-- The addresses of the segment, `[p_paddr, p_paddr + p_memsz)`. -/
def Covers (a : UInt64) : Prop :=
  g.p_paddr.toNat ≤ a.toNat ∧ a.toNat < g.p_paddr.toNat + g.p_memsz.toNat

end Elf64_Phdr

/-- A page is mapped for some segment. -/
def MappedPage (gs : List Segment) (v : ℕ) : Prop := ∃ g ∈ gs, ∃ a, g.Mapped a ∧ page a = v

/-- A page overlaps some segment. -/
def Covered (gs : List Segment) (v : ℕ) : Prop := ∃ g ∈ gs, ∃ a, g.Covers a ∧ page a = v

/-- **The loops map the right pages**: those that overlap a segment. -/
def RightPages (gs : List Segment) : Prop := ∀ v, MappedPage gs v ↔ Covered gs v

/-- The loader has mapped an address for ring 3. -/
def Maps {α : Type} (x : Loader α) (a : UInt64) : Prop := ∃ s s', .mapped s a s' ∈ x.deeds

section Maps

variable {α β : Type} {x : Loader α} {f : α → Loader β} {a : UInt64}

theorem not_maps_iff : ¬Maps x a ↔ x.All fun d => ∀ s s', d ≠ .mapped s a s' := by
  constructor
  · rintro h d hd s s' rfl
    exact h ⟨s, s', hd⟩
  · rintro h ⟨s, s', hd⟩
    exact h _ hd s s' rfl

theorem maps_bind_ok {b : α} (hx : x.result = .ok b) : Maps (x >>= f) a ↔ Maps x a ∨ Maps (f b) a := by
  rw [← not_iff_not, not_or, not_maps_iff, not_maps_iff, not_maps_iff, Traced.all_bind_ok hx]

theorem maps_pure {b : α} : ¬Maps (pure b : Loader α) a := not_maps_iff.2 (Traced.all_pure _)

/-- A field is read, and then something is done. -/
theorem maps_field_bind {p n : ℕ} {f : Unit → Loader β} : Maps (phdr_field p n >>= f) a ↔ Maps (f ()) a := by
  rw [phdr_field, maps_bind_ok (Traced.result_tells _ n), or_iff_right]
  exact not_maps_iff.2 (phdr_field_all.2 fun i _ s s' h => by cases h)

end Maps

section Loops

variable {S : Space} {cr3 stop i a : UInt64} {s s' : Vm} {m m' : Mm} {fuel n file phdr phentsize : ℕ}

/-- **The loop that maps a segment**, when it returns, has mapped the addresses up to its end. -/
theorem elf_map_told_maps (h : elf_map cr3 stop fuel s i = .ok s') :
    Maps (elf_map_told cr3 stop fuel s i) a ↔
      i.toNat ≤ a.toNat ∧ a.toNat < stop.toNat ∧ (a.toNat - i.toNat) % 0x1000 = 0 := by
  have hstop : stop.toNat ≤ 2 ^ 64 - 0x1000 + i.toNat % 0x1000 := Nat.not_lt.1 fun hlt => elf_map_never hlt h
  induction fuel generalizing s i with
  | zero => cases h
  | succ fuel ih =>
    rw [elf_map] at h
    rw [elf_map_told]
    split at h
    next hi =>
      obtain ⟨t, ht, h⟩ := bind_ok.1 h
      -- the next address does not wrap
      obtain ⟨hnext, -⟩ := map_next hstop hi
      have hone : Maps (Traced.tell (.mapped s i t) : Loader Unit) a ↔ a.toNat = i.toNat := by
        constructor
        · rintro ⟨r, r', hd⟩
          obtain ⟨-, rfl, -⟩ := ElfDeed.mapped.inj (List.mem_singleton.1 hd)
          rfl
        · intro ha
          obtain rfl := UInt64.toNat_inj.1 ha
          exact ⟨s, t, List.mem_singleton_self _⟩
      have hrest : Maps (elf_map_told cr3 stop fuel t (i + 0x1000)) a ↔ (i + 0x1000).toNat ≤ a.toNat ∧
          a.toNat < stop.toNat ∧ (a.toNat - (i + 0x1000).toNat) % 0x1000 = 0 := ih h (by omega)
      rw [if_pos hi, ht, Traced.lift_ok_bind, maps_bind_ok (Traced.result_tell _), hone, hrest, hnext]
      rw [UInt64.lt_iff_toNat_lt] at hi
      omega
    next hi =>
      rw [if_neg hi]
      rw [UInt64.lt_iff_toNat_lt] at hi
      exact iff_of_false maps_pure (by omega)

/-- **It keeps all other pages.** -/
theorem elf_map_keptBut (hT : PageTree s.ram (frameNo cr3)) (h : elf_map cr3 stop fuel s i = .ok s') :
    KeptBut cr3 (fun v => ∃ a, Maps (elf_map_told cr3 stop fuel s i) a ∧ page a = v) s.ram s'.ram := by
  induction fuel generalizing s i with
  | zero => cases h
  | succ fuel ih =>
    rw [elf_map] at h
    rw [elf_map_told]
    split at h
    next hi =>
      obtain ⟨t, ht, h⟩ := bind_ok.1 h
      have hfirst := map_keptBut hT ht
      refine (hfirst.trans (ih (hfirst.same.tree hT) h)).mono fun v hv => ?_
      rw [if_pos hi, ht, Traced.lift_ok_bind]
      obtain rfl | ⟨a, ha, hav⟩ := hv
      · exact ⟨i, (maps_bind_ok (Traced.result_tell _)).2 (.inl ⟨s, t, List.mem_singleton_self _⟩), rfl⟩
      · exact ⟨a, (maps_bind_ok (Traced.result_tell _)).2 (.inr ha), hav⟩
    next =>
      obtain rfl := Except.ok.inj h
      exact .refl cr3 _ _

/-- The loop that copies a segment maps nothing. -/
theorem not_maps_elf_copy {src : ℕ} {segment : UInt64} : ¬Maps (elf_copy_told phdr src segment fuel m i) a := by
  rw [not_maps_iff]
  induction fuel generalizing m i with
  | zero => exact Traced.all_lift _
  | succ fuel ih =>
    rw [elf_copy_told, Traced.all_bind]
    refine ⟨phdr_field_all.2 fun _ _ _ _ he => (by cases he), fun _ _ => ?_⟩
    split
    · refine Traced.all_tell_bind.2 ⟨fun _ _ he => (by cases he), ?_⟩
      exact Traced.all_tell_bind.2 ⟨fun _ _ he => (by cases he), Traced.all_lift_bind.2 fun _ _ => ih⟩
    · exact Traced.all_pure _

/-- **It keeps all pages** when its stores spare the tables. -/
theorem elf_copy_keptBut {D : Set UInt64} {B : Set ℕ} {src : ℕ} {segment : UInt64} (hc : S.Clear D B m.vm)
    (hhdr : ∀ j < 48, phdr + j ∈ B)
    (hdst : ∀ j < (read_phdr m.bytes phdr).p_filesz.toNat, segment + UInt64.ofNat j ∈ D)
    (h : elf_copy phdr src segment fuel m i = .ok m') : KeptBut S.cr3 (fun _ => False) m.vm.ram m'.vm.ram := by
  obtain ⟨-, -, -, htables⟩ := elf_copy_spares hc hhdr hdst h
  by_cases h0 : 0 < (read_phdr m.bytes phdr).p_filesz.toNat
  · -- the tables are those of the space
    have htree := (hc _ (hdst 0 h0)).1.tree
    exact .of_tables fun path t ht => htables t (htree.tableAt ht)
  · cases fuel with
    | zero => cases h
    | succ fuel =>
      rw [elf_copy, if_neg (by rw [UInt64.lt_iff_toNat_lt]; omega)] at h
      obtain rfl := Except.ok.inj h
      exact .refl _ _ _

/-- **One header**, when the loader has done with it. -/
theorem elf_load_one_maps (ha : S.Aloof m phentsize (n + 1) phdr) (h : elf_load_one file S.cr3 m phdr = .ok m') :
    (∀ a, Maps (elf_load_one_told file S.cr3 m phdr) a ↔
      (read_phdr m.bytes phdr).p_type = PT_LOAD ∧ (read_phdr m.bytes phdr).Mapped a) ∧
    (PageTree m.vm.ram (frameNo S.cr3) → KeptBut S.cr3 (fun v => ∃ a, ((read_phdr m.bytes phdr).p_type = PT_LOAD ∧
      (read_phdr m.bytes phdr).Mapped a) ∧ page a = v) m.vm.ram m'.vm.ram) := by
  obtain ⟨hc, hfed⟩ := ha
  unfold segments_from at hc hfed
  unfold elf_load_one at h
  unfold elf_load_one_told
  split at h
  next hload =>
    rw [if_pos (show (read_segment m.bytes phdr).p_type = PT_LOAD from hload)] at hc hfed
    have hfed : m.vm.pmm.feeds (map_turns (read_phdr m.bytes phdr).p_paddr (read_phdr m.bytes phdr).map_end +
        segment_turns (segments_from m.bytes phentsize n (phdr + phentsize))) = true := hfed
    obtain ⟨vm, hvm, h⟩ := bind_ok.1 h
    refine ⟨fun a => ?_, fun hT => ?_⟩
    · rw [maps_field_bind, if_pos hload, elf_load_told, maps_field_bind, maps_field_bind,
        maps_bind_ok (elf_map_told_result.trans hvm), maps_field_bind, elf_map_told_maps hvm,
        or_iff_left not_maps_elf_copy]
      exact (and_iff_right hload).symm
    · obtain ⟨hcv, -⟩ := elf_map_clear hvm hc hfed
      have hcopy := elf_copy_keptBut (m := { m with vm }) hcv (fun j hj => mem_headers_first hj)
        (fun j hj => ⟨_, List.mem_cons_self, j, hj, rfl⟩) h
      refine ((elf_map_keptBut hT hvm).trans hcopy).mono fun v hv => ?_
      obtain ⟨a, ha, hav⟩ := hv.resolve_right id
      exact ⟨a, ⟨hload, (elf_map_told_maps hvm).1 ha⟩, hav⟩
  next hload =>
    obtain rfl := Except.ok.inj h
    refine ⟨fun a => ?_, fun _ => .refl _ _ _⟩
    rw [maps_field_bind, if_neg hload]
    exact iff_of_false maps_pure fun h => hload h.1

/-- The pages of the first header and those of the others. -/
theorem mappedPage_segments {mem : ℕ → UInt8} {v : ℕ} : MappedPage (segments_from mem phentsize (n + 1) phdr) v ↔
    (∃ a, ((read_phdr mem phdr).p_type = PT_LOAD ∧ (read_phdr mem phdr).Mapped a) ∧ page a = v) ∨
      MappedPage (segments_from mem phentsize n (phdr + phentsize)) v := by
  have hsame : (read_segment mem phdr).toElf64_Phdr = read_phdr mem phdr := rfl
  rw [MappedPage, MappedPage, segments_from, hsame]
  by_cases hload : (read_phdr mem phdr).p_type = PT_LOAD
  · simp [hload, hsame]
  · simp [hload]

/-- **The loop over the headers**, when it returns, has mapped what it maps for each segment, and has kept all
other pages. -/
theorem elf_load_all_maps (ha : S.Aloof m phentsize n phdr) (h : elf_load_all file S.cr3 phentsize n m phdr = .ok m') :
    (∀ v, (∃ a, Maps (elf_load_all_told file S.cr3 phentsize n m phdr) a ∧ page a = v) ↔
      MappedPage (segments_from m.bytes phentsize n phdr) v) ∧
    (PageTree m.vm.ram (frameNo S.cr3) →
      KeptBut S.cr3 (MappedPage (segments_from m.bytes phentsize n phdr)) m.vm.ram m'.vm.ram) := by
  induction n generalizing m phdr with
  | zero =>
    obtain rfl := Except.ok.inj h
    refine ⟨fun v => iff_of_false ?_ ?_, fun _ => .refl _ _ _⟩
    · rintro ⟨_, h, -⟩
      exact maps_pure h
    · rintro ⟨_, hg, -⟩
      cases hg
  | succ n ih =>
    obtain ⟨t, ht, h⟩ := bind_ok.1 h
    obtain ⟨hmaps, hkept⟩ := elf_load_one_maps ha ht
    obtain ⟨ha', hs⟩ := ha.next ht
    obtain ⟨hrest, hrest_kept⟩ := ih ha' h
    rw [hs.segments] at hrest hrest_kept
    refine ⟨fun v => ?_, fun hT => ?_⟩
    · rw [mappedPage_segments, ← hrest, elf_load_all_told]
      simp only [maps_bind_ok (elf_load_one_told_result.trans ht), hmaps, or_and_right, exists_or]
    · have hfirst := hkept hT
      exact (hfirst.trans (hrest_kept (hfirst.same.tree hT))).mono fun v => mappedPage_segments.2

end Loops

/-! ### An accepted file -/

/-- What the loader has when it begins to map: where the file is, its header, where the copy of its program headers
is, and memory. -/
structure ElfImage where
  elf_ptr : ℕ
  header : Elf64_Ehdr
  prog_headers : ℕ
  mm : Mm

/-- `elf_get_entry` up to its loop over the program headers: nothing for a file that is not there or refused. -/
def elf_image (m : Mm) (path : List UInt8) : Kern (Option ElfImage) := do
  let (elf_ptr, m) ← initrd_open m path
  if elf_ptr = 0 then return none
  let header := read_ehdr m.bytes elf_ptr
  if !header.acceptable then return none
  let (prog_headers, m) ← kmalloc m header.phdrs_size
  if prog_headers = 0 ∧ header.phdrs_size ≠ 0 then throw .fault
  let bytes := copied_headers m.bytes header elf_ptr prog_headers
  return some { elf_ptr, header, prog_headers, mm := { m with bytes } }

/-- The segments of the file, as the loader reads them. -/
def ElfImage.segments (img : ElfImage) : List Segment :=
  segments_from img.mm.bytes img.header.e_phentsize.toNat img.header.entries img.prog_headers

/-- The loop over its headers keeps off them. -/
def ElfImage.Aloof (img : ElfImage) (S : Space) : Prop :=
  S.Aloof img.mm img.header.e_phentsize.toNat img.header.entries img.prog_headers

/-- How an accepted file is come by. -/
structure Accepted (m : Mm) (path : List UInt8) (img : ElfImage) (m₁ m₂ : Mm) : Prop where
  opened : initrd_open m path = .ok (img.elf_ptr, m₁)
  ne_zero : img.elf_ptr ≠ 0
  header : read_ehdr m₁.bytes img.elf_ptr = img.header
  acceptable : img.header.acceptable = true
  allocated : kmalloc m₁ img.header.phdrs_size = .ok (img.prog_headers, m₂)
  not_null : ¬(img.prog_headers = 0 ∧ img.header.phdrs_size ≠ 0)
  mm : img.mm = with_headers m₂ img.header img.elf_ptr img.prog_headers

section Image

variable {m m₁ m₂ m' : Mm} {path : List UInt8} {cr3 rip : UInt64} {img : ElfImage}

theorem elf_image_ok (h : elf_image m path = .ok (some img)) : ∃ m₁ m₂, Accepted m path img m₁ m₂ := by
  obtain ⟨⟨elf_ptr, m₁⟩, ho, h⟩ := bind_ok.1 h
  dsimp only at h
  split at h
  next => cases h
  next hptr =>
    split at h
    next => cases h
    next hacc =>
      obtain ⟨⟨prog_headers, m₂⟩, hk, h⟩ := bind_ok.1 h
      dsimp only at h
      split at h
      next => cases h
      next hnull =>
        obtain rfl := Option.some.inj (pure_ok.1 h)
        exact ⟨m₁, m₂, ho, hptr, rfl, by simpa using hacc, hk, hnull, rfl⟩

/-- **The rest of `elf_get_entry`** is the loop. -/
theorem Accepted.loop (h : Accepted m path img m₁ m₂) (he : elf_get_entry m path cr3 = .ok (rip, m')) :
    elf_load_all img.elf_ptr cr3 img.header.e_phentsize.toNat img.header.entries img.mm img.prog_headers = .ok m' := by
  obtain ⟨⟨elf_ptr, m₃⟩, ho, he⟩ := bind_ok.1 he
  obtain ⟨rfl, rfl⟩ := Prod.mk.inj (Except.ok.inj (ho.symm.trans h.opened))
  dsimp only at he
  rw [if_neg h.ne_zero, h.header, h.acceptable] at he
  obtain ⟨⟨prog_headers, m₄⟩, hk, he⟩ := bind_ok.1 he
  obtain ⟨rfl, rfl⟩ := Prod.mk.inj (Except.ok.inj (hk.symm.trans h.allocated))
  dsimp only at he
  rw [if_neg h.not_null] at he
  obtain ⟨m₅, hm₅, he⟩ := bind_ok.1 he
  obtain ⟨-, rfl⟩ := Prod.mk.inj (pure_ok.1 he)
  rw [h.mm]
  exact hm₅

/-- What the loader does with an accepted file. -/
theorem Accepted.told_all (h : Accepted m path img m₁ m₂) {P : ElfDeed → Prop} (hfile : ∀ a, P (.file a))
    (halloc : P .alloc) : (elf_get_entry_told m path cr3).All P ↔
      (elf_load_all_told img.elf_ptr cr3 img.header.e_phentsize.toNat img.header.entries img.mm
        img.prog_headers).All P := by
  rw [elf_get_entry_told_all h.opened h.ne_zero h.header, and_iff_right fun i _ => hfile _, imp_iff_right h.acceptable,
    and_iff_right halloc, h.mm]
  constructor
  · intro hall
    have hrest := hall _ _ h.allocated
    rw [if_neg h.not_null] at hrest
    exact hrest.2
  · intro hall buf m₃ hk
    obtain ⟨rfl, rfl⟩ := Prod.mk.inj (Except.ok.inj (h.allocated.symm.trans hk))
    rw [if_neg h.not_null]
    exact ⟨fun i _ => hfile _, hall⟩

/-- **Of an accepted file** the loader that returns has mapped the pages of the loops. -/
theorem Accepted.pages {S : Space} (h : Accepted m path img m₁ m₂) (ha : img.Aloof S)
    (he : elf_get_entry m path S.cr3 = .ok (rip, m')) (v : ℕ) :
    (∃ a, Maps (elf_get_entry_told m path S.cr3) a ∧ page a = v) ↔ MappedPage img.segments v := by
  have hmaps : ∀ a, Maps (elf_get_entry_told m path S.cr3) a ↔ Maps (elf_load_all_told img.elf_ptr S.cr3
      img.header.e_phentsize.toNat img.header.entries img.mm img.prog_headers) a := by
    intro a
    rw [← not_iff_not, not_maps_iff, not_maps_iff,
      h.told_all (fun _ _ _ he => by cases he) fun _ _ he => by cases he]
  simp only [hmaps]
  exact (elf_load_all_maps ha (h.loop he)).1 v

/-- All others it has kept. -/
theorem Accepted.kept {S : Space} (h : Accepted m path img m₁ m₂) (ha : img.Aloof S)
    (he : elf_get_entry m path S.cr3 = .ok (rip, m')) (hT : PageTree img.mm.vm.ram (frameNo S.cr3)) :
    KeptBut S.cr3 (MappedPage img.segments) img.mm.vm.ram m'.vm.ram :=
  (elf_load_all_maps ha (h.loop he)).2 hT

/-! ### The pages of the heap -/

/-- The pages that `kmalloc` maps for the file and the headers. -/
def heap_addresses (sz : UInt64) (header : Elf64_Ehdr) : List UInt64 :=
  kmalloc_addresses (sz + 1) ++ kmalloc_addresses header.phdrs_size

/-- They are mapped before the segments. -/
theorem Accepted.heap_run {address sz : UInt64} (h : Accepted m path img m₁ m₂) (hu : m.heap.Used m.heap.heap_tail)
    (h0 : m.heap.bytes_allocated = 0) (hf : initrd_find m path = .ok (some (address, sz))) :
    Run (MapStep m.vm.cr3 (PAGE_PRESENT ||| PAGE_WRITABLE)) (fun _ _ => True) m.vm (heap_addresses sz img.header)
      img.mm.vm := by
  obtain ⟨hg, -⟩ := initrd_open_ok hu h.opened
  obtain ⟨o, hfound, ho⟩ := bind_ok.1 h.opened
  rw [hf] at hfound
  obtain rfl := Except.ok.inj hfound
  obtain ⟨⟨buf, m₃⟩, hk, ho⟩ := bind_ok.1 ho
  dsimp only at ho
  split at ho
  next => cases ho
  next hb =>
    obtain ⟨rfl, rfl⟩ := Prod.mk.inj (pure_ok.1 ho)
    have hfirst := kmalloc_run hu h0 hk fun hn => hb hn.1
    have hsecond := kmalloc_run (hg.used hu) (hg.bytes_allocated.trans h0) h.allocated h.not_null
    rw [hg.vm.cr3] at hsecond
    rw [h.mm]
    exact hfirst.trans hsecond

/-- **The pages that no segment overlaps are kept** by the two allocations if and only if those that they map
had the rights that they get. -/
theorem Accepted.heap_kept_iff {address sz : UInt64} (h : Accepted m path img m₁ m₂)
    (hu : m.heap.Used m.heap.heap_tail) (h0 : m.heap.bytes_allocated = 0)
    (hf : initrd_find m path = .ok (some (address, sz))) (hT : PageTree m.vm.ram (frameNo m.vm.cr3)) :
    (∀ w, ¬Covered img.segments (page w) → WalkKept m.vm.ram img.mm.vm.ram m.vm.cr3 w) ↔
      ∀ a ∈ heap_addresses sz img.header, ¬Covered img.segments (page a) →
        Settled m.vm.ram m.vm.cr3 (PAGE_PRESENT ||| PAGE_WRITABLE) a := by
  have hkept := kept_iff hT pageBits_kernel present_kernel (h.heap_run hu h0 hf)
  constructor
  · intro hall a ha hno
    exact (hkept a).1 (hall a hno) ⟨a, ha, rfl⟩
  · intro hall w hno
    refine (hkept w).2 fun ⟨a, ha, hwa⟩ => ?_
    exact (hall a ha (hwa ▸ hno)).same_page hwa

end Image

/-! ### The pages of the segments -/

/-- **The loader maps the pages of the segments**, for ring 3, and keeps all others, in a tree of tables. -/
structure MapsExactly (m : Mm) (cr3 : UInt64) (img : ElfImage) (x : Loader (UInt64 × Mm)) : Prop where
  pages : ∀ v, (∃ a, Maps x a ∧ page a = v) ↔ Covered img.segments v
  others : PageTree m.vm.ram (frameNo cr3) → ∀ rip m', x.result = .ok (rip, m') →
    ∀ w, ¬Covered img.segments (page w) → WalkKept m.vm.ram m'.vm.ram cr3 w

/-- **For every accepted file** that is stored aside, when the loader returns: it maps the pages of the segments
only if and only if its loops end where they should, and the pages that `kmalloc` maps are of a segment or were
mapped for the kernel before. -/
theorem elf_pages_iff {S : Space} {m m' : Mm} {path : List UInt8} {address sz rip : UInt64} {img : ElfImage}
    (hu : m.heap.Used m.heap.heap_tail) (h0 : m.heap.bytes_allocated = 0) (hcr3 : m.vm.cr3 = S.cr3)
    (hf : initrd_find m path = .ok (some (address, sz))) (hi : elf_image m path = .ok (some img))
    (ha : img.Aloof S) (he : elf_get_entry m path S.cr3 = .ok (rip, m')) :
    MapsExactly m S.cr3 img (elf_get_entry_told m path S.cr3) ↔
      RightPages img.segments ∧ (PageTree m.vm.ram (frameNo S.cr3) →
        ∀ a ∈ heap_addresses sz img.header, ¬Covered img.segments (page a) →
          Settled m.vm.ram S.cr3 (PAGE_PRESENT ||| PAGE_WRITABLE) a) := by
  obtain ⟨m₁, m₂, hacc⟩ := elf_image_ok hi
  have hpages := hacc.pages ha he
  have hrun := hacc.heap_run hu h0 hf
  have hheap := hacc.heap_kept_iff hu h0 hf
  rw [hcr3] at hrun hheap
  -- what no segment has is not mapped, when the loops are right
  have hloop : RightPages img.segments → PageTree m.vm.ram (frameNo S.cr3) →
      SameTables img.mm.vm.ram m'.vm.ram (frameNo S.cr3) ∧
        ∀ w, ¬Covered img.segments (page w) → WalkKept img.mm.vm.ram m'.vm.ram S.cr3 w := by
    intro hright hT
    have hsame := (map_run hT pageBits_kernel present_kernel hrun 0).same
    obtain ⟨htables, hkept⟩ := hacc.kept ha he (hsame.tree hT)
    exact ⟨htables, fun w hw => hkept w fun hm => hw ((hright _).1 hm)⟩
  constructor
  · intro h
    have hright : RightPages img.segments := fun v => (hpages v).symm.trans (h.pages v)
    refine ⟨hright, fun hT a hmem hno => ?_⟩
    obtain ⟨htables, hkept⟩ := hloop hright hT
    have hmaps := map_run hT pageBits_kernel present_kernel hrun a
    obtain ⟨ht, hset, -⟩ := hmaps.touched ⟨a, hmem, rfl⟩
    -- the leaf is what it was, and what the allocations have made it
    have hold := (h.others hT rip m' (elf_get_entry_told_result.trans he) a hno).leaf hT (hmaps.same.trans htables) ht
    have hnew := (hkept a hno).leaf (hmaps.same.tree hT) htables ((tables_of_same hmaps.same).1.2 ht)
    rw [Settled, ← hold, hnew]
    exact hset
  · rintro ⟨hright, hsettled⟩
    refine ⟨fun v => (hpages v).trans (hright v), fun hT rip' m'' hres w hw => ?_⟩
    rw [elf_get_entry_told_result, he] at hres
    obtain ⟨-, rfl⟩ := Prod.mk.inj (Except.ok.inj hres)
    exact ((hheap hT).2 (hsettled hT) w hw).trans ((hloop hright hT).2 w hw)

/-- Where the loop ends for a segment below `2^30`. -/
theorem map_end_toNat {g : Elf64_Phdr} (h : g.p_paddr.toNat + g.p_memsz.toNat < 2 ^ 30) :
    g.map_end.toNat = 2 * (g.p_paddr.toNat + g.p_memsz.toNat + 0xfff) := by
  have hsize : (g.p_memsz + 0x1000 - 1).toNat = g.p_memsz.toNat + 0xfff := by
    rw [show g.p_memsz + 0x1000 - 1 = g.p_memsz + 0xfff by
      rw [UInt64.sub_eq_iff_eq_add, UInt64.add_assoc]; rfl, UInt64.toNat_add]
    exact Nat.mod_eq_of_lt (by rw [show (0xfff : UInt64).toNat = 0xfff from rfl]; omega)
  have hint : (g.p_memsz + 0x1000 - 1).toUInt32.toInt32.toInt64.toUInt64.toNat =
      (BitVec.signExtend 64 ((g.p_memsz + 0x1000 - 1).toBitVec.setWidth 32)).toNat := rfl
  rw [BitVec.toNat_signExtend, BitVec.toNat_setWidth, BitVec.msb_eq_decide, BitVec.toNat_setWidth, UInt64.toNat_toBitVec,
    hsize, Nat.mod_eq_of_lt (show g.p_memsz.toNat + 0xfff < 2 ^ 32 by omega),
    Nat.mod_eq_of_lt (show g.p_memsz.toNat + 0xfff < 2 ^ 64 by omega), if_neg (by simp; omega)] at hint
  rw [Elf64_Phdr.map_end, UInt64.toNat_mul, UInt64.toNat_add, hint, show (2 : UInt64).toNat = 2 from rfl]
  omega

/-- **For no ordinary file** the loops end where they should: behind the last segment they map another page. -/
theorem not_rightPages_ordinary {gs : List Segment} (hne : gs ≠ [])
    (h : ∀ g ∈ gs, g.p_paddr.toNat + g.p_memsz.toNat < 2 ^ 30) : ¬RightPages gs := by
  intro hright
  -- the segment that ends last
  obtain ⟨g, hg⟩ : ∃ g, g ∈ gs.argmax fun g => g.p_paddr.toNat + g.p_memsz.toNat :=
    Option.ne_none_iff_exists'.1 fun h0 => hne (List.argmax_eq_none.1 h0)
  have hmem := List.argmax_mem hg
  have hlt := h g hmem
  obtain ⟨k, hk⟩ : ∃ k, k = (g.p_memsz.toNat + 0xfff + 0xfff) / 0x1000 := ⟨_, rfl⟩
  have ha : (UInt64.ofNat (g.p_paddr.toNat + k * 0x1000)).toNat = g.p_paddr.toNat + k * 0x1000 := by
    rw [UInt64.toNat_ofNat', Nat.mod_eq_of_lt (by omega)]
  have hmapped : g.Mapped (UInt64.ofNat (g.p_paddr.toNat + k * 0x1000)) := by
    rw [Elf64_Phdr.Mapped, map_end_toNat hlt, ha]
    omega
  obtain ⟨g', hg', b, hb, hpage⟩ := (hright _).1 ⟨g, hmem, _, hmapped, rfl⟩
  have hle : g'.p_paddr.toNat + g'.p_memsz.toNat ≤ g.p_paddr.toNat + g.p_memsz.toNat :=
    List.le_of_mem_argmax hg' hg
  obtain ⟨-, hb⟩ := hb
  rw [page, page, frameNo, frameNo, ha] at hpage
  omega

/-! ### Two files -/

/-- **A file that is stored aside** is so when the loop begins. -/
theorem Accepted.aloof {m m₁ m₂ : Mm} {path : List UInt8} {img : ElfImage} {cr3 : UInt64}
    (h : Accepted m path img m₁ m₂) (haside : StoredAside m₁ img.elf_ptr cr3) : ∃ S : Space, S.cr3 = cr3 ∧ img.Aloof S := by
  obtain ⟨S, hS, hall⟩ := haside
  have hhdr : read_ehdr (buffer m₁ img.elf_ptr) 0 = img.header := (read_ehdr_buffer m₁ img.elf_ptr).symm.trans h.header
  rw [hhdr] at hall
  refine ⟨S, hS, ?_⟩
  rw [ElfImage.Aloof, h.mm]
  exact hall _ _ h.allocated h.not_null

/-- What the loader has of a file when it begins to map, or no file that is accepted. -/
def elf_begins (m : Mm) : Kern ElfImage := do
  let m ← kheap_init m
  match ← elf_image m [97] with
  | none => throw .stopped
  | some img => return img

/-- A file in one of the two pages, of which the loader has what a test says. -/
theorem smallElf_begins {address : UInt64} {memsz : UInt8} {b : ElfImage → Bool}
    (h : (address = 0x1000 ∧ (memsz = 1 ∨ memsz = 2)) ∨ (address = LAST_PAGE ∧ memsz = 2))
    (hb : answers (elf_begins (smallElfMm address memsz)) b = true) :
    ∃ m m' m₁ m₂ S rip img, kheap_init (smallElfMm address memsz) = .ok m ∧ m.heap.Used m.heap.heap_tail ∧
      m.heap.bytes_allocated = 0 ∧ initrd_find m [97] = .ok (some (0x100200, 121)) ∧
        elf_image m [97] = .ok (some img) ∧ Accepted m [97] img m₁ m₂ ∧ m.vm.cr3 = S.cr3 ∧ img.Aloof S ∧
          elf_get_entry m [97] S.cr3 = .ok (rip, m') ∧ b img = true := by
  obtain ⟨m, m', hm, hl, -, he, -⟩ := smallElf_loadable h
  obtain ⟨img, hi, hb⟩ := answers_iff.1 hb
  obtain ⟨m₀, hm₀, hi⟩ := bind_ok.1 hi
  obtain rfl := Except.ok.inj (hm.symm.trans hm₀)
  obtain ⟨o, ho, hi⟩ := bind_ok.1 hi
  cases o with
  | none => cases hi
  | some img =>
    obtain rfl := pure_ok.1 hi
    obtain ⟨m₁, m₂, hacc⟩ := elf_image_ok ho
    obtain ⟨S, hS, hal⟩ := hacc.aloof (hl.stored_aside hacc.opened)
    exact ⟨m, m', m₁, m₂, S, _, img, hm, hl.used, hl.bytes_allocated, hl.found, ho, hacc, hl.own.cr3.trans hS.symm,
      hal, by rw [hS]; exact he, hb⟩

/-- A segment in the last page but one, the end of which wraps to behind its start: its page alone is mapped, and page
`0` was mapped for the kernel. -/
theorem elf_pages_last : ∃ m img, elf_image m [97] = .ok (some img) ∧ 0 < img.segments.length ∧
    MapsExactly m m.vm.cr3 img (elf_get_entry_told m [97] m.vm.cr3) := by
  obtain ⟨m, m', m₁, m₂, S, rip, img, hm, hu, h0, hf, hi, -, hcr3, hal, he, hb⟩ :=
    smallElf_begins (b := fun img => 0 < img.segments.length ∧ img.header.phdrs_size = 56 ∧
      ∀ g ∈ img.segments, g.p_paddr = LAST_PAGE ∧ g.p_memsz = 2 ∧ g.map_end = LAST_PAGE + 2) (.inr ⟨rfl, rfl⟩)
      (by decide +kernel)
  obtain ⟨hne, hsize, hgs⟩ := of_decide_eq_true hb
  have hset : Settled m.vm.ram m.vm.cr3 (PAGE_PRESENT ||| PAGE_WRITABLE) 0 := by
    have htest : answers (kheap_init (smallElfMm LAST_PAGE 2))
        (fun m => Settled m.vm.ram m.vm.cr3 (PAGE_PRESENT ||| PAGE_WRITABLE) 0) = true := by decide +kernel
    obtain ⟨m₀, hm₀, hset⟩ := answers_iff.1 htest
    obtain rfl := Except.ok.inj (hm.symm.trans hm₀)
    exact of_decide_eq_true hset
  have hheap : ∀ a ∈ heap_addresses 121 img.header, a = 0 := by
    have hfile : kmalloc_addresses 122 = [0] := by decide +kernel
    have hheaders : kmalloc_addresses 56 = [0] := by decide +kernel
    simp [heap_addresses, hsize, hfile, hheaders]
  refine ⟨m, img, hi, hne, ?_⟩
  rw [hcr3] at hset ⊢
  refine (elf_pages_iff hu h0 hcr3 hf hi hal he).2 ⟨fun v => ?_, fun _ a ha _ => hheap a ha ▸ hset⟩
  have hlast : LAST_PAGE.toNat = 0xffffffffffffe000 := rfl
  have hend : (LAST_PAGE + 2).toNat = 0xffffffffffffe002 := rfl
  have hsize : (2 : UInt64).toNat = 2 := rfl
  constructor
  · rintro ⟨g, hg, a, ⟨h₁, h₂, -⟩, hv⟩
    obtain ⟨hp, hmem, hstop⟩ := hgs g hg
    rw [hp, hlast] at h₁
    rw [hstop, hend] at h₂
    exact ⟨g, hg, a, ⟨by rw [hp, hlast]; exact h₁, by rw [hp, hmem, hlast, hsize]; omega⟩, hv⟩
  · rintro ⟨g, hg, a, ⟨h₁, h₂⟩, hv⟩
    obtain ⟨hp, hmem, hstop⟩ := hgs g hg
    rw [hp, hlast] at h₁
    rw [hp, hmem, hlast, hsize] at h₂
    refine ⟨g, hg, LAST_PAGE, ⟨by rw [hp], by rw [hstop, hlast, hend]; omega, by rw [hp, Nat.sub_self]⟩, ?_⟩
    rw [← hv, page, page, frameNo, frameNo, hlast]
    omega

/-- Of a segment of one byte in page 1 the pages 2 and 3 are mapped as well. -/
theorem not_maps_exactly : ¬∀ (m m' : Mm) (path : List UInt8) (address sz rip : UInt64) (img : ElfImage),
    m.heap.Used m.heap.heap_tail → m.heap.bytes_allocated = 0 → initrd_find m path = .ok (some (address, sz)) →
      elf_image m path = .ok (some img) → elf_get_entry m path m.vm.cr3 = .ok (rip, m') →
        MapsExactly m m.vm.cr3 img (elf_get_entry_told m path m.vm.cr3) := by
  intro h
  obtain ⟨m, m', m₁, m₂, S, rip, img, -, hu, h0, hf, hi, hacc, hcr3, hal, he, hb⟩ :=
    smallElf_begins (b := fun img => 0 < img.segments.length ∧
      ∀ g ∈ img.segments, g.p_paddr.toNat + g.p_memsz.toNat < 2 ^ 30) (.inl ⟨rfl, .inl rfl⟩) (by decide +kernel)
  obtain ⟨hne, hlow⟩ := of_decide_eq_true hb
  have hexact := h m m' [97] _ _ rip img hu h0 hf hi (by rw [hcr3]; exact he)
  rw [hcr3] at hexact
  exact not_rightPages_ordinary (List.ne_nil_of_length_pos hne) hlow fun v =>
    (hacc.pages hal he v).symm.trans (hexact.pages v)

end Iridium
