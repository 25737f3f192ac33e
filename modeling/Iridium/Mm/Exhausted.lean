import Iridium.Mm.Mapping
import Iridium.Lib.Traced

/-!
# No frame left

What the virtual memory manager does when `pmm_alloc` answers `0`. The functions are those of `mm/vmm.c`
again, which now tell what they do to physical memory: a call that ends waiting for a mutex has done it all
the same. Only `vmm_alloc_page` looks at the answer, and only at its own (`exhausted_iff`).
-/

namespace Iridium

open Lib Lib.Paging

/-! ### What is done to memory -/

/-- What the manager does to physical memory, and what `pmm_alloc` answers it. -/
inductive Deed where
  /-- `pmm_alloc` answers. -/
  | alloc (a : UInt64)
  /-- `memzero` of a frame. -/
  | clear (f : ℕ)
  /-- An entry of a table is written. -/
  | entry (t i : ℕ) (w : UInt64)
  /-- The words of one frame are written to another. -/
  | copy (f g : ℕ)
  deriving DecidableEq

/-- Physical memory afterwards. -/
def Deed.apply (m : Ram) : Deed → Ram
  | alloc _ => m
  | clear f => m.setFrame f fun _ => 0
  | entry t i w => m.set t i w
  | copy f g => m.setFrame f (m g)

/-- The frame that is written. -/
def Deed.writes : Deed → Option ℕ
  | alloc _ => none
  | clear f => some f
  | entry t _ _ => some t
  | copy f _ => some f

/-- Physical memory after all of it. -/
def replay (m : Ram) (ds : List Deed) : Ram := ds.foldl Deed.apply m

/-- A function that tells what it does. -/
abbrev Told (α : Type) := Traced Deed Halt α

/-- `pmm_alloc`, which tells its answer. -/
def pmm_alloc_told (p : Pmm) : Told (UInt64 × Pmm) := do
  let (a, p) ← Traced.lift (pmm_alloc p)
  Traced.tell (.alloc a)
  return (a, p)

/-- `make_table`. -/
def make_table_told (map : Vm → UInt64 → Told Vm) (s : Vm) (t i : ℕ) (flags : UInt32) : Told Vm :=
  if present (s.ram t i) then pure s
  else do
    let (alloc, pmm) ← pmm_alloc_told s.pmm
    let ram := s.ram.setFrame (frameNo alloc) fun _ => 0
    Traced.tell (.clear (frameNo alloc))
    let w := (alloc &&& PAGE_ADDR_MASK) ||| flags.toUInt64
    Traced.tell (.entry t i w)
    map { s with pmm, ram := ram.set t i w } alloc

/-- `set_leaf`. -/
def set_leaf_told (s : Vm) (t i : ℕ) (flags : UInt32) : Told Vm :=
  let e := s.ram t i
  if present e then do
    let w := (e &&& ~~~7) ||| flags.toUInt64
    Traced.tell (.entry t i w)
    return { s with ram := s.ram.set t i w }
  else do
    let (phys_map, pmm) ← pmm_alloc_told s.pmm
    let w := (phys_map &&& PAGE_ADDR_MASK) ||| flags.toUInt64
    Traced.tell (.entry t i w)
    return { s with pmm, ram := s.ram.set t i w }

/-- `vmm_map_page_at`. -/
def vmm_map_page_at_told : ℕ → Vm → UInt64 → UInt64 → UInt32 → Told Vm
  | 0, _, _, _, _ => Traced.lift (.error .endless)
  | depth + 1, s, pml4, logical, flags =>
    if s.lock then Traced.lift (.error .deadlock)
    else do
      let map := fun s a => vmm_map_page_at_told depth s pml4 a flags
      let s := { s with lock := true }
      let s ← make_table_told map s (frameNo pml4) (pml4_idx logical) flags
      let pdpt := table (s.ram (frameNo pml4) (pml4_idx logical))
      let s ← make_table_told map s pdpt (pdpt_idx logical) flags
      let pdt := table (s.ram pdpt (pdpt_idx logical))
      let s ← make_table_told map s pdt (pd_idx logical) flags
      let page_tbl := table (s.ram pdt (pd_idx logical))
      let s ← set_leaf_told s page_tbl (pt_idx logical) flags
      return { s with lock := false }

/-- `vmm_map_page`. -/
def vmm_map_page_told (s : Vm) (pml4 logical : UInt64) (flags : UInt32) : Told Vm :=
  vmm_map_page_at_told 2 s pml4 logical flags

/-- `vmm_alloc_page`. -/
def vmm_alloc_page_told (s : Vm) : Told (UInt64 × Vm) := do
  let (frame, pmm) ← pmm_alloc_told s.pmm
  let s := { s with pmm }
  if frame = 0 then return (0, s)
  let s ← vmm_map_page_told s s.cr3 frame (PAGE_PRESENT ||| PAGE_WRITABLE)
  return (frame &&& PAGE_ADDR_MASK, s)

/-- `mkpml4`. It does not look whether there is a page to write to. -/
def mkpml4_told (s : Vm) : Told (UInt64 × Vm) := do
  let (new_pml, s) ← vmm_alloc_page_told s
  let source_pml4 := s.ram (frameNo s.cr3)
  Traced.tell (.copy (frameNo new_pml) (frameNo s.cr3))
  return (new_pml &&& PAGE_ADDR_MASK, { s with ram := s.ram.setFrame (frameNo new_pml) source_pml4 })

section Told

variable {s s' : Vm} {p : Pmm} {pml4 logical : UInt64} {flags : UInt32} {t i : ℕ}

theorem pmm_alloc_told_result : (pmm_alloc_told p).result = pmm_alloc p := by
  rw [pmm_alloc_told, Traced.result_bind]
  cases pmm_alloc p <;> rfl

theorem make_table_told_result {map : Vm → UInt64 → Told Vm} :
    (make_table_told map s t i flags).result = make_table (fun s a => (map s a).result) s t i flags := by
  unfold make_table_told make_table
  split
  · rfl
  · rw [Traced.result_bind, pmm_alloc_told_result]
    cases pmm_alloc s.pmm <;> rfl

theorem set_leaf_told_result : (set_leaf_told s t i flags).result = set_leaf s t i flags := by
  unfold set_leaf_told set_leaf
  dsimp only
  split
  · rfl
  · rw [Traced.result_bind, pmm_alloc_told_result]
    cases pmm_alloc s.pmm <;> rfl

theorem vmm_map_page_at_told_result {depth : ℕ} : (vmm_map_page_at_told depth s pml4 logical flags).result =
    vmm_map_page_at depth s pml4 logical flags := by
  induction depth generalizing s logical with
  | zero => rfl
  | succ depth ih =>
    rw [vmm_map_page_at_told, vmm_map_page_at]
    split
    · rfl
    · simp only [Traced.result_bind, make_table_told_result, set_leaf_told_result, ih, Traced.result_pure]
      rfl

/-- **The functions answer what they did before.** -/
theorem vmm_map_page_told_result :
    (vmm_map_page_told s pml4 logical flags).result = vmm_map_page s pml4 logical flags :=
  vmm_map_page_at_told_result

theorem vmm_alloc_page_told_result : (vmm_alloc_page_told s).result = vmm_alloc_page s := by
  unfold vmm_alloc_page_told vmm_alloc_page
  rw [Traced.result_bind, pmm_alloc_told_result]
  cases pmm_alloc s.pmm with
  | error e => rfl
  | ok a =>
    obtain ⟨frame, pmm⟩ := a
    show Traced.result (if frame = 0 then _ else _) = if frame = 0 then _ else _
    split
    · rfl
    · rw [Traced.result_bind, vmm_map_page_told_result]
      rfl

theorem mkpml4_told_result : (mkpml4_told s).result = mkpml4 s := by
  rw [mkpml4_told, mkpml4, Traced.result_bind, vmm_alloc_page_told_result]
  cases vmm_alloc_page s <;> rfl

/-! ### What they do -/

/-- The first table on the path that is missing: the entry that does not lead to it. -/
def missing (m : Ram) (pml4 logical : UInt64) : Option (ℕ × ℕ) :=
  if present (m (frameNo pml4) (pml4_idx logical)) then
    if present (m (pdpt_of m pml4 logical) (pdpt_idx logical)) then
      if present (m (pdt_of m pml4 logical) (pd_idx logical)) then none
      else some (pdt_of m pml4 logical, pd_idx logical)
    else some (pdpt_of m pml4 logical, pdpt_idx logical)
  else some (frameNo pml4, pml4_idx logical)

theorem missing_none_iff {m : Ram} : missing m pml4 logical = none ↔ TablesPresent m pml4 logical := by
  unfold missing
  constructor
  · intro h
    split at h
    next h₃ =>
      split at h
      next h₂ =>
        split at h
        next h₁ => exact ⟨h₃, h₂, h₁⟩
        next => cases h
      next => cases h
    next => cases h
  · rintro ⟨h₃, h₂, h₁⟩
    rw [if_pos h₃, if_pos h₂, if_pos h₁]

/-- `pmm_alloc`, and what is done with its answer, if there is one. -/
theorem deeds_of_alloc {α : Type} {f : UInt64 × Pmm → Told α} {ds : List Deed}
    (hf : ∀ p', pmm_alloc p = .ok (p.next_alloc, p') → (f (p.next_alloc, p')).deeds = ds) :
    (pmm_alloc_told p >>= f).deeds = if p.lock then [] else .alloc p.next_alloc :: ds := by
  cases hl : p.lock with
  | true =>
    have hstuck : ∀ a, pmm_alloc p ≠ .ok a := by
      intro a h
      rw [(pmm_alloc_answers.1 a.1 a.2 h).2] at hl
      cases hl
    rw [Traced.deeds_bind_stuck fun a => pmm_alloc_told_result ▸ hstuck a, pmm_alloc_told,
      Traced.deeds_bind_stuck hstuck]
    rfl
  | false =>
    obtain ⟨p', ha⟩ := pmm_alloc_answers.2 hl
    have hdeeds : (pmm_alloc_told p).deeds = [.alloc p.next_alloc] := by
      rw [pmm_alloc_told, ha]
      rfl
    rw [Traced.deeds_bind_ok (pmm_alloc_told_result.trans ha), hdeeds, hf p' ha]
    rfl

/-- A table that is missing is entered before it is mapped. -/
theorem make_table_told_deeds {map : Vm → UInt64 → Told Vm} (hn : present (s.ram t i) = false)
    (hmap : ∀ s' a, s'.lock = s.lock → (map s' a).deeds = []) :
    (make_table_told map s t i flags).deeds = if s.pmm.lock then []
      else [.alloc s.pmm.next_alloc, .clear (frameNo s.pmm.next_alloc),
        .entry t i ((s.pmm.next_alloc &&& PAGE_ADDR_MASK) ||| flags.toUInt64)] := by
  rw [make_table_told, if_neg (ne_true_of_eq_false hn)]
  refine deeds_of_alloc fun p' _ => ?_
  simp only [Traced.deeds_tell_bind, List.cons.injEq, true_and]
  exact hmap _ _ rfl

/-- It is the end of a mapping: the mutex is held. -/
theorem make_table_told_ends {α : Type} {f : Vm → Told α} (hn : present (s.ram t i) = false) :
    (make_table_told (fun s a => vmm_map_page_at_told 1 s pml4 a flags) { s with lock := true } t i flags
      >>= f).deeds = if s.pmm.lock then []
        else [.alloc s.pmm.next_alloc, .clear (frameNo s.pmm.next_alloc),
          .entry t i ((s.pmm.next_alloc &&& PAGE_ADDR_MASK) ||| flags.toUInt64)] := by
  have hheld : ∀ (s' : Vm) a, s'.lock = true → (vmm_map_page_at_told 1 s' pml4 a flags).deeds = [] := by
    intro s' a h
    rw [vmm_map_page_at_told, if_pos h]
    rfl
  rw [Traced.deeds_bind_stuck, make_table_told_deeds (s := { s with lock := true }) hn hheld]
  intro s' h
  rw [make_table_told_result] at h
  simp only [vmm_map_page_at_told_result] at h
  rw [((make_table_ok rfl).1 h).1] at hn
  cases hn

/-- A leaf is entered. -/
theorem set_leaf_told_deeds : (set_leaf_told s t i flags).deeds =
    if present (s.ram t i) then [.entry t i ((s.ram t i &&& ~~~7) ||| flags.toUInt64)]
    else if s.pmm.lock then []
    else [.alloc s.pmm.next_alloc,
      .entry t i ((s.pmm.next_alloc &&& PAGE_ADDR_MASK) ||| flags.toUInt64)] := by
  unfold set_leaf_told
  dsimp only
  split
  · rfl
  · exact deeds_of_alloc fun p' _ => rfl

/-- **The deeds of a mapping**: the first table that is missing is entered, or the leaf. -/
theorem vmm_map_page_told_deeds (hl : s.lock = false) : (vmm_map_page_told s pml4 logical flags).deeds =
    match missing s.ram pml4 logical with
    | some c => if s.pmm.lock then []
      else [.alloc s.pmm.next_alloc, .clear (frameNo s.pmm.next_alloc),
        .entry c.1 c.2 ((s.pmm.next_alloc &&& PAGE_ADDR_MASK) ||| flags.toUInt64)]
    | none =>
      if present (leaf s.ram pml4 logical) then
        [.entry (page_tbl_of s.ram pml4 logical) (pt_idx logical)
          ((leaf s.ram pml4 logical &&& ~~~7) ||| flags.toUInt64)]
      else if s.pmm.lock then []
      else [.alloc s.pmm.next_alloc, .entry (page_tbl_of s.ram pml4 logical) (pt_idx logical)
        ((s.pmm.next_alloc &&& PAGE_ADDR_MASK) ||| flags.toUInt64)] := by
  have hpass : ∀ {t i : ℕ}, present (s.ram t i) = true →
      make_table_told (fun s a => vmm_map_page_at_told 1 s pml4 a flags) { s with lock := true } t i flags =
        pure { s with lock := true } := fun hp => if_pos hp
  rw [vmm_map_page_told, vmm_map_page_at_told, if_neg (ne_true_of_eq_false hl)]
  dsimp only
  unfold missing
  cases h₃ : present (s.ram (frameNo pml4) (pml4_idx logical)) with
  | false => exact make_table_told_ends h₃
  | true =>
    rw [hpass h₃, Traced.answer_bind]
    cases h₂ : present (s.ram (pdpt_of s.ram pml4 logical) (pdpt_idx logical)) with
    | false => exact make_table_told_ends h₂
    | true =>
      rw [← pdpt_of, hpass h₂, Traced.answer_bind]
      cases h₁ : present (s.ram (pdt_of s.ram pml4 logical) (pd_idx logical)) with
      | false => exact make_table_told_ends h₁
      | true =>
        rw [← pdt_of, hpass h₁, Traced.answer_bind, ← page_tbl_of, Traced.deeds_map]
        exact set_leaf_told_deeds

theorem vmm_map_page_told_held (hl : s.lock = true) : (vmm_map_page_told s pml4 logical flags).deeds = [] := by
  rw [vmm_map_page_told, vmm_map_page_at_told, if_pos hl]
  rfl

theorem vmm_alloc_page_told_held (hl : s.pmm.lock = true) : (vmm_alloc_page_told s).deeds = [] := by
  rw [vmm_alloc_page_told, deeds_of_alloc fun p' hp => ?_, if_pos hl]
  · exact []
  · rw [(pmm_alloc_answers.1 _ p' hp).2] at hl
    cases hl

/-- The deeds of `vmm_alloc_page`. -/
theorem vmm_alloc_page_told_deeds {a : UInt64} (ha : pmm_alloc s.pmm = .ok (a, p)) :
    (vmm_alloc_page_told s).deeds = .alloc a :: if a = 0 then []
      else (vmm_map_page_told { s with pmm := p } s.cr3 a (PAGE_PRESENT ||| PAGE_WRITABLE)).deeds := by
  obtain ⟨rfl, hl⟩ := pmm_alloc_answers.1 a p ha
  rw [vmm_alloc_page_told, deeds_of_alloc fun p' hp => ?_, hl]
  · rfl
  · rw [ha] at hp
    obtain ⟨-, rfl⟩ := Prod.mk.inj (Except.ok.inj hp)
    by_cases h0 : s.pmm.next_alloc = 0
    · simp [h0]
    · simp only [h0, if_false]
      exact Traced.deeds_map _

end Told

/-! ### A frame that is not there -/

/-- **What must not happen**: an entry is made present with physical address `0`, frame `0` is written, or an
address is translated in another way than before. -/
structure Harmless (m : Ram) (cr3 : UInt64) (ds : List Deed) : Prop where
  entry : ∀ t i w, .entry t i w ∈ ds → present w = true → w &&& PAGE_ADDR_MASK ≠ 0
  page : ∀ d ∈ ds, d.writes ≠ some 0
  tree : ∀ v, translate (replay m ds) cr3 v = translate m cr3 v

/-- When `pmm_alloc` has answered `0`, it has not happened. -/
def DoesNoHarm (m : Ram) (cr3 : UInt64) (ds : List Deed) : Prop := .alloc 0 ∈ ds → Harmless m cr3 ds

/-- `pmm_alloc` answers `0`. -/
def Pmm.OutOfFrames (p : Pmm) : Prop := p.lock = false ∧ p.next_alloc = 0

/-- When a mapping gets no frame, it does no harm: it asks for none, or for a page that it leaves absent, in a
page table that is not in frame `0`. -/
def MapsSafely (s : Vm) (pml4 logical : UInt64) (flags : UInt32) : Prop :=
  s.lock = false → s.pmm.OutOfFrames → TablesPresent s.ram pml4 logical ∧
    (present (leaf s.ram pml4 logical) = true ∨
      (present flags.toUInt64 = false ∧ page_tbl_of s.ram pml4 logical ≠ 0))

/-- The mapping of the page that `vmm_alloc_page` has got a frame for. -/
def AllocsSafely (s : Vm) : Prop := ∀ a p, pmm_alloc s.pmm = .ok (a, p) → a ≠ 0 →
  MapsSafely { s with pmm := p } s.cr3 a (PAGE_PRESENT ||| PAGE_WRITABLE)

section Exhausted

variable {s : Vm} {pml4 logical : UInt64} {flags : UInt32} {m : Ram} {ds : List Deed}

/-- An entry is made present with physical address `0`, or frame `0` is written. -/
def Harms (ds : List Deed) : Prop :=
  (∃ t i w, .entry t i w ∈ ds ∧ present w = true ∧ w &&& PAGE_ADDR_MASK = 0) ∨
    ∃ d ∈ ds, d.writes = some 0

theorem Harms.mono {ds' : List Deed} (h : Harms ds) (hsub : ds ⊆ ds') : Harms ds' := by
  rcases h with ⟨t, i, w, hw, h⟩ | ⟨d, hd, h⟩
  · exact .inl ⟨t, i, w, hsub hw, h⟩
  · exact .inr ⟨d, hsub hd, h⟩

theorem Harms.refutes (h : Harms ds) (ha : .alloc 0 ∈ ds) : ¬DoesNoHarm m pml4 ds := by
  intro hh
  rcases h with ⟨t, i, w, hw, hp, h0⟩ | ⟨d, hd, h0⟩
  · exact (hh ha).entry t i w hw hp h0
  · exact (hh ha).page d hd h0

/-- **A mapping that does harm.** -/
theorem map_harms (hf : PageBits flags) (h : ¬MapsSafely s pml4 logical flags) :
    .alloc 0 ∈ (vmm_map_page_told s pml4 logical flags).deeds ∧
      Harms (vmm_map_page_told s pml4 logical flags).deeds := by
  rw [MapsSafely, Classical.not_imp, Classical.not_imp] at h
  obtain ⟨hl, ⟨hp, ha⟩, hno⟩ := h
  rw [vmm_map_page_told_deeds hl]
  cases hm : missing s.ram pml4 logical with
  | some c =>
    -- the frame that is cleared is frame `0`
    dsimp only
    rw [hp, ha]
    exact ⟨by simp, .inr ⟨.clear 0, by simp [frameNo], rfl⟩⟩
  | none =>
    have ht := missing_none_iff.1 hm
    have hleaf : present (leaf s.ram pml4 logical) = false :=
      eq_false_of_ne_true fun hl => hno ⟨ht, .inl hl⟩
    dsimp only
    rw [if_neg (ne_true_of_eq_false hleaf), hp, ha]
    refine ⟨by simp, ?_⟩
    cases hpf : present flags.toUInt64 with
    | true =>
      refine .inl ⟨_, _, _, List.mem_cons_of_mem _ (List.mem_singleton.2 rfl), ?_, ?_⟩
      · simpa using hpf
      · have hmask : flags.toUInt64 &&& PAGE_ADDR_MASK = 0 := hf.and rfl
        simpa using hmask
    | false =>
      have h0 : page_tbl_of s.ram pml4 logical = 0 := by
        by_contra hne
        exact hno ⟨ht, .inr ⟨hpf, hne⟩⟩
      exact .inr ⟨_, List.mem_cons_of_mem _ (List.mem_singleton.2 rfl), congrArg some h0⟩

/-- Deeds that begin with an answer of `pmm_alloc`, unless it is out of frames. -/
theorem alloc_zero_not_mem (h : ¬s.pmm.OutOfFrames) (hds : .alloc 0 ∉ ds) :
    .alloc 0 ∉ if s.pmm.lock then [] else .alloc s.pmm.next_alloc :: ds := by
  cases hp : s.pmm.lock with
  | true => exact List.not_mem_nil
  | false =>
    rw [if_neg Bool.false_ne_true, List.mem_cons, not_or]
    refine ⟨fun he => h ⟨hp, ?_⟩, hds⟩
    injection he with he
    exact he.symm

/-- **A mapping that does none**, although it gets no frame, leaves the page absent. -/
theorem map_safe (h : MapsSafely s pml4 logical flags) :
    .alloc 0 ∉ (vmm_map_page_told s pml4 logical flags).deeds ∨
      ((vmm_map_page_told s pml4 logical flags).deeds =
          [.alloc 0, .entry (page_tbl_of s.ram pml4 logical) (pt_idx logical) flags.toUInt64] ∧
        present (leaf s.ram pml4 logical) = false ∧ present flags.toUInt64 = false ∧
        page_tbl_of s.ram pml4 logical ≠ 0) := by
  cases hl : s.lock with
  | true =>
    rw [vmm_map_page_told_held hl]
    exact .inl List.not_mem_nil
  | false =>
    rw [vmm_map_page_told_deeds hl]
    by_cases hout : s.pmm.OutOfFrames
    · obtain ⟨ht, hleaf⟩ := h hl hout
      obtain ⟨hp, ha⟩ := hout
      rw [missing_none_iff.2 ht]
      dsimp only
      cases he : present (leaf s.ram pml4 logical) with
      | true =>
        exact .inl (by simp)
      | false =>
        obtain ⟨hpf, hne⟩ := hleaf.resolve_left (ne_true_of_eq_false he)
        rw [hp, ha]
        exact .inr ⟨by simp, rfl, hpf, hne⟩
    · -- either `pmm_alloc` does not return, or its answer is not `0`
      refine .inl ?_
      cases missing s.ram pml4 logical with
      | some c => exact alloc_zero_not_mem hout (by simp)
      | none =>
        dsimp only
        split
        · simp
        · exact alloc_zero_not_mem hout (by simp)

/-- An absent leaf that stays absent is the end of every walk that gets to it. -/
theorem absent_harmless {c : ℕ × ℕ} {w : UInt64} (he : present (m c.1 c.2) = false) (hw : present w = false)
    (hc : c.1 ≠ 0) : Harmless m pml4 [.alloc 0, .entry c.1 c.2 w] := by
  refine ⟨fun t i w' hm hp => ?_, fun d hd => ?_, fun v => ?_⟩
  · obtain ⟨rfl, rfl, rfl⟩ : t = c.1 ∧ i = c.2 ∧ w' = w := by simpa using hm
    rw [hw] at hp
    cases hp
  · rcases List.mem_cons.1 hd with rfl | hd
    · intro h
      cases h
    · obtain rfl := List.mem_singleton.1 hd
      exact fun h => hc (Option.some.inj h)
  · show translate (m.set c.1 c.2 w) pml4 v = translate m pml4 v
    by_cases hin : c ∈ words m pml4 v
    · have hbefore : translate m pml4 v = none := walk_absent hin he fun _ _ => .inl rfl
      rw [hbefore]
      exact walk_set_absent hin hw
    · exact walk_congr fun d hd => m.set_of_ne w fun h => hin ((show d = c from h) ▸ hd)

theorem map_harmless_iff (hf : PageBits flags) :
    DoesNoHarm s.ram pml4 (vmm_map_page_told s pml4 logical flags).deeds ↔
      MapsSafely s pml4 logical flags := by
  constructor
  · intro hh
    by_contra hno
    obtain ⟨ha, hharm⟩ := map_harms hf hno
    exact hharm.refutes ha hh
  · intro hs ha
    rcases map_safe hs with hno | ⟨hds, he, hpf, h0⟩
    · exact absurd ha hno
    · rw [hds]
      exact absent_harmless (c := (page_tbl_of s.ram pml4 logical, pt_idx logical)) he hpf h0

/-- The page of `vmm_alloc_page` is to be present: a mapping that does no harm has got a frame. -/
theorem no_harm_of_safely {a : UInt64} (h : MapsSafely s pml4 a (PAGE_PRESENT ||| PAGE_WRITABLE)) :
    .alloc 0 ∉ (vmm_map_page_told s pml4 a (PAGE_PRESENT ||| PAGE_WRITABLE)).deeds := by
  refine (map_safe h).resolve_right ?_
  rintro ⟨-, -, hpf, -⟩
  exact absurd hpf (by decide)

/-- **`vmm_alloc_page`** looks at its own answer. -/
theorem alloc_page_cases (s : Vm) : (s.pmm.OutOfFrames ∧ (vmm_alloc_page_told s).deeds = [.alloc 0]) ∨
    (AllocsSafely s ∧ ¬s.pmm.OutOfFrames ∧ .alloc 0 ∉ (vmm_alloc_page_told s).deeds) ∨
    (¬AllocsSafely s ∧ .alloc 0 ∈ (vmm_alloc_page_told s).deeds ∧ Harms (vmm_alloc_page_told s).deeds) := by
  cases hl : s.pmm.lock with
  | true =>
    refine .inr (.inl ⟨fun a p ha => ?_, fun hout => ?_, ?_⟩)
    · rw [(pmm_alloc_answers.1 a p ha).2] at hl
      cases hl
    · rw [hout.1] at hl
      cases hl
    · rw [vmm_alloc_page_told_held hl]
      exact List.not_mem_nil
  | false =>
    obtain ⟨p, ha⟩ := pmm_alloc_answers.2 hl
    have hds := vmm_alloc_page_told_deeds ha
    by_cases h0 : s.pmm.next_alloc = 0
    · refine .inl ⟨⟨hl, h0⟩, ?_⟩
      rw [hds, if_pos h0, h0]
    rw [if_neg h0] at hds
    have hiff : AllocsSafely s ↔
        MapsSafely { s with pmm := p } s.cr3 s.pmm.next_alloc (PAGE_PRESENT ||| PAGE_WRITABLE) := by
      constructor
      · intro h
        exact h _ p ha h0
      · intro h a p' ha' _
        rw [ha] at ha'
        obtain ⟨rfl, rfl⟩ := Prod.mk.inj (Except.ok.inj ha')
        exact h
    by_cases hs : AllocsSafely s
    · refine .inr (.inl ⟨hs, fun hout => h0 hout.2, ?_⟩)
      rw [hds, List.mem_cons, not_or]
      refine ⟨fun h => h0 ?_, no_harm_of_safely (hiff.1 hs)⟩
      injection h with h
      exact h.symm
    · obtain ⟨hmem, hharm⟩ := map_harms pageBits_kernel fun h => hs (hiff.2 h)
      rw [hds]
      exact .inr (.inr ⟨hs, List.mem_cons_of_mem _ hmem, hharm.mono (List.subset_cons_self _ _)⟩)

theorem alloc_page_harmless_iff : DoesNoHarm s.ram s.cr3 (vmm_alloc_page_told s).deeds ↔ AllocsSafely s := by
  rcases alloc_page_cases s with ⟨hout, hds⟩ | ⟨hs, hout, hno⟩ | ⟨hs, ha, hharm⟩
  · have hsafe : AllocsSafely s := fun a p ha h0 => absurd ((pmm_alloc_answers.1 a p ha).1.trans hout.2) h0
    refine iff_of_true (fun _ => ?_) hsafe
    rw [hds]
    refine ⟨fun t i w h => ?_, fun d hd => ?_, fun _ => rfl⟩
    · simp at h
    · obtain rfl := List.mem_singleton.1 hd
      intro h
      cases h
  · exact iff_of_true (fun ha => absurd ha hno) hs
  · exact iff_of_false (hharm.refutes ha) hs

theorem mkpml4_harmless_iff :
    DoesNoHarm s.ram s.cr3 (mkpml4_told s).deeds ↔ AllocsSafely s ∧ ¬s.pmm.OutOfFrames := by
  have hmem : .alloc 0 ∈ (mkpml4_told s).deeds ↔ .alloc 0 ∈ (vmm_alloc_page_told s).deeds := by
    rw [mkpml4_told, Traced.mem_deeds_bind]
    refine or_iff_left ?_
    rintro ⟨a, -, h⟩
    simp at h
  have hsub : (vmm_alloc_page_told s).deeds ⊆ (mkpml4_told s).deeds := by
    intro d hd
    rw [mkpml4_told, Traced.mem_deeds_bind]
    exact .inl hd
  rcases alloc_page_cases s with ⟨hout, hds⟩ | ⟨hs, hout, hno⟩ | ⟨hs, ha, hharm⟩
  · -- the copy goes to frame `0`
    obtain ⟨p, ha⟩ := pmm_alloc_answers.2 hout.1
    have hnull : vmm_alloc_page s = .ok (0, { s with pmm := p }) := by
      rw [vmm_alloc_page, ha, hout.2]
      rfl
    have hcopy : .copy 0 (frameNo s.cr3) ∈ (mkpml4_told s).deeds := by
      rw [mkpml4_told, Traced.mem_deeds_bind]
      refine .inr ⟨_, vmm_alloc_page_told_result.trans hnull, ?_⟩
      simp [frameNo]
    refine iff_of_false (Harms.refutes (.inr ⟨_, hcopy, rfl⟩) ?_) fun h => h.2 hout
    rw [hmem, hds]
    exact List.mem_singleton.2 rfl
  · exact iff_of_true (fun ha => absurd (hmem.1 ha) hno) ⟨hs, hout⟩
  · exact iff_of_false ((hharm.mono hsub).refutes (hmem.2 ha)) fun h => hs h.1

/-- **With no frame left**, a mapping does no harm if and only if it asks for no frame, or for a page that it
leaves absent; `vmm_alloc_page`, if and only if its mapping does none or it gets no frame itself; and
`mkpml4`, if and only if it does get one and its mapping does none. -/
theorem exhausted_iff (hf : PageBits flags) :
    (DoesNoHarm s.ram pml4 (vmm_map_page_told s pml4 logical flags).deeds ↔ MapsSafely s pml4 logical flags) ∧
      (DoesNoHarm s.ram s.cr3 (vmm_alloc_page_told s).deeds ↔ AllocsSafely s) ∧
      (DoesNoHarm s.ram s.cr3 (mkpml4_told s).deeds ↔ AllocsSafely s ∧ ¬s.pmm.OutOfFrames) :=
  ⟨map_harmless_iff hf, alloc_page_harmless_iff, mkpml4_harmless_iff⟩

end Exhausted

/-- The four tables, and no frame left. -/
def fullPage : Vm :=
  { onePage with pmm := { bitmap := fun _ => 0, bitmap_length := 16, bitmap_i := 8, lock := false } }

/-- The page is mapped already. -/
theorem exhausted_page : DoesNoHarm fullPage.ram 0x1000 (vmm_map_page_told fullPage 0x1000 0 PAGE_PRESENT).deeds :=
  (exhausted_iff (s := fullPage) (by decide)).1.2 fun _ _ => ⟨by decide, .inl (by decide)⟩

/-- A table in frame `0`, which is zeroed; a page in frame `0`; and a top-level table written there. -/
theorem not_harmless :
    ¬DoesNoHarm fullPage.ram 0x1000 (vmm_map_page_told fullPage 0x1000 0x8000000000 PAGE_PRESENT).deeds ∧
      ¬DoesNoHarm fullPage.ram 0x1000 (vmm_map_page_told fullPage 0x1000 0x1000 PAGE_PRESENT).deeds ∧
      ¬DoesNoHarm fullPage.ram 0x1000 (mkpml4_told fullPage).deeds := by
  refine ⟨fun h => ?_, fun h => ?_, fun h => ?_⟩
  · exact (h (by decide)).page (.clear 0) (by decide) rfl
  · exact (h (by decide)).entry 4 1 1 (by decide) (by decide) (by decide)
  · exact (h (by decide)).page (.copy 0 1) (by decide) rfl

end Iridium
