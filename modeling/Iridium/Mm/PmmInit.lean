import Iridium.Mm.Pmm
import Mathlib.Data.List.Induction

/-!
# Where the allocator begins

`pmm_init` in `mm/pmm.c`. It looks for the two biggest chunks of usable memory in the map that the
bootloader gives, and puts the byte map of the allocator into the second of them, with whatever
memory holds there. The second is only the biggest of those before the biggest (`BitmapChunk`).
-/

namespace Iridium

/-- Physical memory: a byte at each address of 52 bits. -/
abbrev Memory := Fin (2 ^ 52) → UInt8

/-- The byte at an address. There is none above, and what is read there is no mark. -/
def Memory.read (m : Memory) (a : ℕ) : UInt8 := if h : a < 2 ^ 52 then m ⟨a, h⟩ else 0xFF

/-- `struct limine_memmap_entry`. -/
structure limine_memmap_entry where
  base : UInt64
  length : UInt64
  type : UInt64
  deriving DecidableEq

def LIMINE_MEMMAP_USABLE : UInt64 := 0

/-- The two pointers that `pmm_init` sets. -/
structure Chunks where
  biggest_chunk : Option limine_memmap_entry
  second_biggest_chunk : Option limine_memmap_entry

/-- One turn of the loop of `pmm_init`. -/
def Chunks.visit (c : Chunks) (cur : limine_memmap_entry) : Chunks :=
  match c.biggest_chunk with
  | none => if cur.type = LIMINE_MEMMAP_USABLE then { c with biggest_chunk := some cur } else c
  | some biggest =>
    if cur.type = LIMINE_MEMMAP_USABLE ∧ cur.length > biggest.length then
      { biggest_chunk := some cur, second_biggest_chunk := some biggest }
    else c

/-- The loop. -/
def chunks (entries : List limine_memmap_entry) : Chunks := entries.foldl Chunks.visit ⟨none, none⟩

/-- The allocator with a map of this length at a physical address. -/
def Pmm.boot (m : Memory) (base length : UInt64) : Pmm where
  bitmap i := m.read (base.toNat + i.toNat)
  bitmap_length := length
  bitmap_i := 2
  lock := false

/-- `pmm_init`. The map is read where the bootloader maps all physical memory. -/
def pmm_init (m : Memory) (entries : List limine_memmap_entry) : Kern Pmm :=
  match (chunks entries).biggest_chunk, (chunks entries).second_biggest_chunk with
  | some _, some second_biggest_chunk =>
    .ok (Pmm.boot m second_biggest_chunk.base second_biggest_chunk.length)
  | _, _ => .error .stopped

/-! ### The chunk of the map -/

/-- The entry between the two lists is the first of the longest. -/
def Longest (pre : List limine_memmap_entry) (c : limine_memmap_entry) (post : List limine_memmap_entry) : Prop :=
  (∀ e ∈ pre, e.length < c.length) ∧ ∀ e ∈ post, e.length ≤ c.length

/-- The usable entries. -/
def usable (entries : List limine_memmap_entry) : List limine_memmap_entry :=
  entries.filter fun e => e.type = LIMINE_MEMMAP_USABLE

/-- **The chunk that the map is in**: the longest of the usable entries in front of the longest of all. -/
def BitmapChunk (entries : List limine_memmap_entry) (c : limine_memmap_entry) : Prop :=
  ∃ pre mid b post, usable entries = (pre ++ c :: mid) ++ b :: post ∧ Longest pre c mid ∧
    Longest (pre ++ c :: mid) b post

section Chunk

variable {entries : List limine_memmap_entry} {c : limine_memmap_entry}

theorem Longest.le {pre post : List limine_memmap_entry} (h : Longest pre c post) {e : limine_memmap_entry}
    (he : e ∈ pre ++ c :: post) : e.length ≤ c.length := by
  rcases List.mem_append.1 he with he | he
  · exact UInt64.le_of_lt (h.1 e he)
  rcases List.mem_cons.1 he with rfl | he
  · exact UInt64.le_refl _
  · exact h.2 e he

/-- The first of the longest is one. -/
theorem Longest.unique {pre pre' post post' : List limine_memmap_entry} {c c' : limine_memmap_entry}
    (h : Longest pre c post) (h' : Longest pre' c' post') (heq : pre ++ c :: post = pre' ++ c' :: post') :
    pre = pre' ∧ c = c' := by
  rcases List.append_eq_append_iff.1 heq with ⟨a, rfl, ha⟩ | ⟨a, rfl, ha⟩
  · cases a with
    | nil => exact ⟨by simp, (List.cons.inj ha).1⟩
    | cons e a =>
      obtain ⟨rfl, rfl⟩ := List.cons.inj ha
      exact absurd (h'.1 c (by simp)) (UInt64.not_lt.2 (h.2 c' (by simp)))
  · cases a with
    | nil => exact ⟨by simp, (List.cons.inj ha).1.symm⟩
    | cons e a =>
      obtain ⟨rfl, rfl⟩ := List.cons.inj ha
      exact absurd (h.1 c' (by simp)) (UInt64.not_lt.2 (h'.2 c (by simp)))

theorem BitmapChunk.unique {c' : limine_memmap_entry} (h : BitmapChunk entries c) (h' : BitmapChunk entries c') :
    c = c' := by
  obtain ⟨pre, mid, b, post, heq, hc, hb⟩ := h
  obtain ⟨pre', mid', b', post', heq', hc', hb'⟩ := h'
  have hsplit := hb.unique hb' (heq.symm.trans heq')
  exact (hc.unique hc' hsplit.1).2

/-- What the loop has found in the usable entries so far. -/
structure Chunks.Found (s : Chunks) (us : List limine_memmap_entry) : Prop where
  empty : s.biggest_chunk = none → us = [] ∧ s.second_biggest_chunk = none
  longest : ∀ b, s.biggest_chunk = some b → ∃ pre post, us = pre ++ b :: post ∧ Longest pre b post ∧
    ∀ c, s.second_biggest_chunk = some c → ∃ pre' mid, pre = pre' ++ c :: mid ∧ Longest pre' c mid

/-- One more usable entry. -/
theorem Chunks.Found.visit {s : Chunks} {us : List limine_memmap_entry} (h : s.Found us)
    {e : limine_memmap_entry} (he : e.type = LIMINE_MEMMAP_USABLE) : (s.visit e).Found (us ++ [e]) := by
  unfold Chunks.visit
  split
  next hn =>
    obtain ⟨rfl, hsecond⟩ := h.empty hn
    rw [if_pos he]
    refine ⟨nofun, fun b hb => ⟨[], [], ?_, ⟨nofun, nofun⟩, fun c hc => ?_⟩⟩
    · rw [← Option.some.inj hb, List.nil_append]
    · cases hsecond.symm.trans hc
  next b hb =>
    obtain ⟨pre, post, rfl, hlong, hsecond⟩ := h.longest b hb
    by_cases hlt : e.length > b.length
    · rw [if_pos ⟨he, hlt⟩]
      refine ⟨nofun, fun b' hb' => ?_⟩
      obtain rfl := Option.some.inj hb'
      refine ⟨pre ++ b :: post, [], by simp, ⟨fun f hf => ?_, nofun⟩, fun c hc => ?_⟩
      · exact UInt64.lt_of_le_of_lt (hlong.le hf) hlt
      · obtain rfl := Option.some.inj hc
        exact ⟨pre, post, rfl, hlong⟩
    · rw [if_neg fun h => hlt h.2]
      refine ⟨fun hn => (nomatch hb.symm.trans hn), fun b' hb' => ?_⟩
      obtain rfl := Option.some.inj (hb.symm.trans hb')
      refine ⟨pre, post ++ [e], by simp, ⟨hlong.1, fun f hf => ?_⟩, hsecond⟩
      rcases List.mem_append.1 hf with hf | hf
      · exact hlong.2 f hf
      · rw [List.mem_singleton.1 hf]
        exact UInt64.not_lt.1 hlt

/-- The loop visits the entries in their order. -/
theorem chunks_concat (l : List limine_memmap_entry) (e : limine_memmap_entry) :
    chunks (l ++ [e]) = (chunks l).visit e := by
  rw [chunks, List.foldl_append]
  rfl

theorem usable_concat (l : List limine_memmap_entry) (e : limine_memmap_entry) :
    usable (l ++ [e]) = usable l ++ usable [e] :=
  List.filter_append ..

theorem chunks_found (entries : List limine_memmap_entry) : (chunks entries).Found (usable entries) := by
  induction entries using List.reverseRecOn with
  | nil => exact ⟨fun _ => ⟨rfl, rfl⟩, nofun⟩
  | append_singleton l e ih =>
    rw [chunks_concat, usable_concat]
    by_cases he : e.type = LIMINE_MEMMAP_USABLE
    · have hone : usable [e] = [e] := by simp [usable, he]
      rw [hone]
      exact ih.visit he
    · have hnone : usable [e] = [] := by simp [usable, he]
      have hvisit : (chunks l).visit e = chunks l := by
        unfold Chunks.visit
        split
        · rw [if_neg he]
        · rw [if_neg fun h => he h.1]
      rwa [hnone, hvisit, List.append_nil]

/-- **`pmm_init` succeeds** with the map in that chunk. -/
theorem pmm_init_ok {m : Memory} {p : Pmm} (h : pmm_init m entries = .ok p) :
    ∃ c, BitmapChunk entries c ∧ p = Pmm.boot m c.base c.length := by
  unfold pmm_init at h
  split at h
  next b c hb hc =>
    obtain ⟨pre, post, hus, hlong, hsecond⟩ := (chunks_found entries).longest b hb
    obtain ⟨pre', mid, rfl, hlong'⟩ := hsecond c hc
    exact ⟨c, ⟨pre', mid, b, post, hus, hlong', hlong⟩, (Except.ok.inj h).symm⟩
  next => cases h

/-! ### The two biggest chunks -/

/-- **The two biggest**: `pmm_init` goes on, the first pointer is to a longest usable entry, and the second
to a longest of the others. -/
def TwoBiggest (entries : List limine_memmap_entry) : Prop :=
  (∀ m, ∃ p, pmm_init m entries = .ok p) ∧ ∃ b c rest, chunks entries = ⟨some b, some c⟩ ∧
    (usable entries).Perm (b :: c :: rest) ∧ (∀ e ∈ c :: rest, e.length ≤ b.length) ∧
      ∀ e ∈ rest, e.length ≤ c.length

/-- The first of the longest usable entries has others in front, and none of those behind it is longer than
all in front. -/
def RunnerUpBefore (entries : List limine_memmap_entry) : Prop :=
  ∃ pre b post, usable entries = pre ++ b :: post ∧ Longest pre b post ∧ pre ≠ [] ∧
    ∀ e ∈ post, ∃ c ∈ pre, e.length ≤ c.length

/-- Without a second chunk the biggest is the first. -/
theorem chunks_first (entries : List limine_memmap_entry) (hn : (chunks entries).second_biggest_chunk = none)
    (b : limine_memmap_entry) (hb : (chunks entries).biggest_chunk = some b) :
    (usable entries).head? = some b := by
  induction entries using List.reverseRecOn generalizing b with
  | nil => cases hb
  | append_singleton l e ih =>
    rw [chunks_concat] at hn hb
    rw [usable_concat, List.head?_append]
    unfold Chunks.visit at hn hb
    split at hn
    next hnone =>
      rw [hnone] at hb
      dsimp only at hb
      rw [((chunks_found l).empty hnone).1]
      by_cases he : e.type = LIMINE_MEMMAP_USABLE
      · rw [if_pos he] at hb
        obtain rfl := Option.some.inj hb
        simp [usable, he]
      · rw [if_neg he, hnone] at hb
        cases hb
    next biggest hsome =>
      rw [hsome] at hb
      dsimp only at hb
      split at hn
      next => cases hn
      next hle =>
        rw [if_neg hle, hsome] at hb
        obtain rfl := Option.some.inj hb
        rw [ih hn _ hsome]
        rfl

/-- What the loop finds when the longest is not the first. -/
theorem chunks_of_longest {pre post : List limine_memmap_entry} {b : limine_memmap_entry}
    (hus : usable entries = pre ++ b :: post) (hlong : Longest pre b post) (hne : pre ≠ []) :
    ∃ pre' c mid, chunks entries = ⟨some b, some c⟩ ∧ pre = pre' ++ c :: mid ∧ Longest pre' c mid := by
  have hfound := chunks_found entries
  have hfirst := chunks_first entries
  generalize chunks entries = s at hfound hfirst ⊢
  obtain ⟨biggest, second⟩ := s
  cases biggest with
  | none =>
    rw [(hfound.empty rfl).1] at hus
    simp at hus
  | some b' =>
    obtain ⟨pre', post', hus', hlong', hsecond⟩ := hfound.longest b' rfl
    obtain ⟨rfl, rfl⟩ := hlong.unique hlong' (hus.symm.trans hus')
    cases second with
    | some c =>
      obtain ⟨pre', mid, hpre, hlong'⟩ := hsecond c rfl
      exact ⟨pre', c, mid, rfl, hpre, hlong'⟩
    | none =>
      -- the biggest would be the first, and in front of itself
      exfalso
      have hhead := hfirst rfl b rfl
      rw [hus] at hhead
      cases pre with
      | nil => exact hne rfl
      | cons e pre =>
        obtain rfl := Option.some.inj hhead
        exact UInt64.lt_irrefl _ (hlong.1 e List.mem_cons_self)

/-- The two are taken out of the list. -/
theorem two_in_front {α : Type} (pre mid post : List α) (c b : α) :
    ((pre ++ c :: mid) ++ b :: post).Perm (b :: c :: (pre ++ mid ++ post)) := by
  refine List.perm_middle.trans (List.Perm.cons b ?_)
  rw [List.append_assoc, List.append_assoc, List.cons_append]
  exact List.perm_middle

/-- **For every memory map**: the two biggest usable entries are found if and only if the runner-up is in
front of the first of the longest. -/
theorem two_biggest_iff (entries : List limine_memmap_entry) :
    TwoBiggest entries ↔ RunnerUpBefore entries := by
  constructor
  · rintro ⟨-, b, c, rest, hch, hperm, -, hrest⟩
    have hfound := chunks_found entries
    rw [hch] at hfound
    obtain ⟨pre, post, hus, hlong, hsecond⟩ := hfound.longest b rfl
    obtain ⟨pre', mid, rfl, -⟩ := hsecond c rfl
    refine ⟨_, b, post, hus, hlong, by simp, fun e he => ⟨c, by simp, hrest e ?_⟩⟩
    rw [hus] at hperm
    exact ((two_in_front pre' mid post c b).symm.trans hperm).cons_inv.cons_inv.subset
      (List.mem_append_right _ he)
  · rintro ⟨pre, b, post, hus, hlong, hne, hpost⟩
    obtain ⟨pre', c, mid, hch, rfl, hc⟩ := chunks_of_longest hus hlong hne
    have hperm : (usable entries).Perm (b :: c :: (pre' ++ mid ++ post)) := by
      rw [hus]
      exact two_in_front pre' mid post c b
    refine ⟨fun m => ⟨_, by rw [pmm_init, hch]⟩, b, c, _, hch, hperm, fun e he => ?_, fun e he => ?_⟩
    · exact hlong.le ((two_in_front pre' mid post c b).symm.subset (List.mem_cons_of_mem _ he))
    · rcases List.mem_append.1 he with he | he
      · refine hc.le ?_
        simp only [List.mem_cons, List.mem_append] at he ⊢
        tauto
      · obtain ⟨d, hd, hle⟩ := hpost e he
        exact UInt64.le_trans hle (hc.le hd)

/-- The biggest chunk comes first: the machine is halted for want of memory. -/
theorem not_two_biggest : ¬∀ entries, 2 ≤ (usable entries).length → TwoBiggest entries := by
  intro hall
  obtain ⟨p, hp⟩ := (hall [⟨0x200000, 0x100000, LIMINE_MEMMAP_USABLE⟩, ⟨0x100000, 0x10000, LIMINE_MEMMAP_USABLE⟩]
    (by decide)).1 fun _ => 0
  have hstop : pmm_init (fun _ => 0) [⟨0x200000, 0x100000, LIMINE_MEMMAP_USABLE⟩,
      ⟨0x100000, 0x10000, LIMINE_MEMMAP_USABLE⟩] = .error .stopped := rfl
  rw [hstop] at hp
  cases hp

end Chunk

end Iridium
