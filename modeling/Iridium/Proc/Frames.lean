import Iridium.Proc.Effect

/-!
# The frames of the top-level tables

Every process has the frame of its top-level table in `context[PCTX_CR3]`. A process spawned
from a file owns it: `mkpml4` took it. A signal handler has the frame of the process it
handles signals for. `kill` frees the frame in either case, so a handler that exits frees a
frame in use, and so does a process that exits before its handlers.

The frames stay taken in every run in which nobody exits whose frame another process has
(`FrameKept`).
-/

namespace Iridium

open Lib.Paging

/-- The number of the frame of the top-level table. -/
def Process.table_frame (q : Process) : UInt64 := q.cr3 / 0x1000

/-- **The frames of the live processes are taken**, and `pmm_alloc` finds none of them. -/
structure FramesTaken (k : Kernel) : Prop where
  taken : ∀ p, k.Live p → k.mm.vm.pmm.bitmap (k.procs p).table_frame ≠ BITMAP_FREE
  not_found : ∀ p, k.Live p → k.mm.vm.pmm.search ≠ (true, (k.procs p).table_frame)

/-! ### Where the frame of a new table comes from -/

/-- Address `0` is mapped, as far as the leaf tells. -/
def leaf_present (s : Vm) : Bool := present (s.ram (page_tbl_of s.ram s.cr3 0) (pt_idx 0))

/-- The search for the frame of the next new table. The descriptor is allocated before it, and
takes a frame itself when address `0` is not mapped. -/
def table_search (s : Vm) : Bool × UInt64 :=
  if leaf_present s then s.pmm.search
  else Pmm.search { s.pmm with bitmap := Function.update s.pmm.bitmap s.pmm.search.2 0,
                               bitmap_i := s.pmm.search.2 + 1 }

/-- The frame number that `context[PCTX_CR3]` gets: that of frame `0` when none was found. -/
def next_table_frame (s : Vm) : UInt64 :=
  ((if (table_search s).1 then 0x1000 * (table_search s).2 else 0) &&& PAGE_ADDR_MASK) / 0x1000

/-- There is a frame for the next new table, among those that an address in a table can name;
or what is taken in its place is a frame in use. -/
def FindsFrame (s : Vm) : Prop :=
  ((table_search s).1 = true ∧ (table_search s).2 < 0x10000000000) ∨
    s.pmm.bitmap (next_table_frame s) ≠ BITMAP_FREE

instance (s : Vm) : Decidable (FindsFrame s) := inferInstanceAs (Decidable (_ ∨ _))

section Table

variable {m m₁ : Mm} {vm : Vm} {p : ℕ} {cr3 : UInt64}

/-- What mapping address `0` does to the frame allocator: after it the search is the one for
the next table, unless it has used up the frames. -/
theorem search_of_map {s s' : Vm} {flags : UInt32} (h : vmm_map_page s s.cr3 0 flags = .ok s')
    (hl : s'.pmm.lock = false) : s'.pmm.search = table_search s := by
  obtain ⟨-, -, h⟩ := vmm_map_page_ok.1 h
  unfold table_search leaf_present
  rcases set_leaf_ok.1 h with ⟨hp, rfl⟩ | ⟨hp, a, pmm, ha, rfl⟩
  · rw [if_pos hp]
  · rw [if_neg (ne_true_of_eq_false hp)]
    obtain ⟨-, ⟨-, -, rfl⟩ | ⟨-, -, -, rfl⟩⟩ := pmm_alloc_cases ha
    · cases hl
    · rfl

/-- **The frame of a new table**: the one `table_search` finds, and it is taken. -/
theorem table_frame_taken (hm : m.HeapOk) (hf : FindsFrame m.vm)
    (h₁ : kmalloc m PROCESS_SIZE = .ok (p, m₁)) (h₂ : mkpml4 m₁.vm = .ok (cr3, vm)) :
    vm.pmm.bitmap (cr3 / 0x1000) ≠ BITMAP_FREE := by
  have hmap := kmalloc_page hm.used (by decide) (by decide) (by rw [hm.bytes_allocated]; decide) h₁
  obtain ⟨frame, pmm, ha, rfl, -, ht⟩ := mkpml4_ok h₂
  obtain ⟨hl, hcases⟩ := pmm_alloc_cases ha
  have htakes := (vmm_map_page_takes hmap).pmm.trans ((pmm_alloc_takes ha).trans ht)
  rw [search_of_map hmap hl] at hcases
  rcases hf with ⟨hfound, hlt⟩ | hused
  · obtain ⟨hno, -⟩ | ⟨-, -, rfl, rfl⟩ := hcases
    · rw [hno] at hfound
      cases hfound
    · rw [frame_of_address hlt]
      exact ht.keeps _ (by simp [BITMAP_FREE])
  · have hnext : (frame &&& PAGE_ADDR_MASK) / 0x1000 = next_table_frame m.vm := by
      unfold next_table_frame
      obtain ⟨hno, rfl, -⟩ | ⟨hfound, -, rfl, -⟩ := hcases
      · rw [hno]
        rfl
      · rw [hfound]
        rfl
    rw [hnext]
    exact htakes.keeps _ hused

end Table

/-! ### Runs -/

/-- The action spawns a process from a file. -/
def loads (k : Kernel) : Action → Bool
  | .initrd_spawn _ permissions _ => !denied k permissions
  | _ => false

/-- Another process in the queue has the frame of the running one. -/
def SharesFrame (k : Kernel) : Prop :=
  ∃ p ∈ k.queue, p ≠ k.current_task ∧ (k.procs p).table_frame = k.current.table_frame

instance (k : Kernel) : Decidable (SharesFrame k) := inferInstanceAs (Decidable (∃ p ∈ k.queue, _))

/-- A process is spawned from a file only when there is a frame for its table, and nobody is
killed whose frame another process has, as far as `pmm_free` finds it. -/
structure FrameKept (k : Kernel) (e : Action × UInt64) : Prop where
  loads : loads k e.1 = true → FindsFrame k.mm.vm
  exits : e.1.exits = true → refused k k.current.pid = false → k.mm.vm.pmm.Covers k.current.cr3 →
    ¬SharesFrame k

instance (k : Kernel) (e : Action × UInt64) : Decidable (FrameKept k e) :=
  decidable_of_iff
    ((loads k e.1 = true → FindsFrame k.mm.vm) ∧
      (e.1.exits = true → refused k k.current.pid = false → k.mm.vm.pmm.Covers k.current.cr3 →
        ¬SharesFrame k))
    ⟨fun h => ⟨h.1, h.2⟩, fun h => ⟨h.loads, h.exits⟩⟩

/-- The frames of the live processes are taken, and the running process has its own address
space. -/
structure FramesHeld (k : Kernel) : Prop where
  taken : ∀ p, k.Live p → k.mm.vm.pmm.bitmap (k.procs p).table_frame ≠ BITMAP_FREE
  cr3 : k.spinning = false → k.mm.vm.cr3 = k.current.cr3

section Run

variable {k k' : Kernel} {a : Action} {o : UInt64}

theorem FramesHeld.framesTaken (h : FramesHeld k) : FramesTaken k :=
  ⟨h.taken, fun p hp hs => h.taken p hp (Pmm.scan_free hs)⟩

/-- The address spaces stay: a timer interrupt saves the one in use, which is that of the
running process. -/
theorem FramesHeld.cr3_eq (hw : k.WellFormed) (h : FramesHeld k) (hE : Effect k a o k') {r : ℕ}
    (hr : k.Live r) : (k'.procs r).cr3 = (k.procs r).cr3 := by
  unfold Process.cr3
  by_cases ha : ∃ t, a = .timer t
  · obtain ⟨t, rfl⟩ := ha
    rw [hE.timer_eq, irq0_isr_procs]
    dsimp only
    split
    next hc =>
      have hs : k.spinning = false := by
        by_contra hs
        exact (hw.dead (Bool.not_eq_false _ ▸ hs)).1 (hc ▸ hr)
      rw [hc]
      exact (by simp [saved_context] : saved_context k t PCTX_CR3 = k.mm.vm.cr3).trans (h.cr3 hs)
    next => rfl
  · rw [(hw.unscheduled hE (hw.le hr) fun t ht => ha ⟨t, ht⟩).2]

/-- The frames that were taken still are when frames have only been taken. -/
theorem FramesHeld.keeps (h : FramesHeld k) {pmm : Pmm} (ht : k.mm.vm.pmm.Takes pmm) {q : Process} {p : ℕ}
    (hp : k.Live p) (hq : q.cr3 = (k.procs p).cr3) : pmm.bitmap q.table_frame ≠ BITMAP_FREE := by
  unfold Process.table_frame
  rw [hq]
  exact ht.keeps _ (h.taken p hp)

/-- The running process stays, and the address space in use. -/
theorem FramesHeld.cr3_same (hw : k.WellFormed) (h : FramesHeld k) (hE : Effect k a o k')
    (hc : k'.current_task = k.current_task) (hm : k'.mm.vm.cr3 = k.mm.vm.cr3)
    (hs : k'.spinning = k.spinning) : k'.spinning = false → k'.mm.vm.cr3 = k'.current.cr3 := by
  intro hr
  rw [hs] at hr
  unfold Kernel.current
  rw [hm, hc, h.cr3_eq hw hE (hw.running hr), h.cr3 hr]
  rfl

/-- Nobody new, and frames only taken. -/
theorem FramesHeld.same (hw : k.WellFormed) (h : FramesHeld k) (hE : Effect k a o k')
    (hl : k.SameLinks k') (hm : k'.mm = k.mm) (hc : k'.current_task = k.current_task)
    (hs : k'.spinning = k.spinning) : FramesHeld k' := by
  refine ⟨fun p hp => ?_, h.cr3_same hw hE hc (by rw [hm]) hs⟩
  have hp := hl.live.1 hp
  exact h.keeps (by rw [hm]) hp (h.cr3_eq hw hE hp)

/-- **A step that keeps to the condition** keeps the frames taken. -/
theorem FramesHeld.effect (hw : k.WellFormed) (h : FramesHeld k) (hC : FrameKept k (a, o))
    (hE : Effect k a o k') : FramesHeld k' := by
  have hold := hE
  cases hE with
  | quiet hq => exact h.same hw hold hq.sameLinks hq.mm hq.current_task hq.spinning
  | read =>
    refine h.same hw hold (Kernel.sameLinks_read k) ?_ (Kernel.current_read k).1 (Kernel.current_read k).2
    rw [psignal_read_eq]
    split <;> rfl
  | hook => exact h.same hw hold (Kernel.sameLinks_hook k _) rfl rfl rfl
  | queued => exact h.same hw hold (Kernel.sameLinks_deliver k _ _ _) rfl rfl rfl
  | @handled _ _ x _ dword owner n ctx mm _ hr _ hs =>
    have ht : k.mm.vm.pmm.Takes mm.vm.pmm := hs.grows.vm.pmm
    refine ⟨fun p hp => ?_, h.cr3_same hw hold rfl hs.grows.vm.cr3 rfl⟩
    rw [(hw.deliver x owner dword).live_link hs rfl rfl, (Kernel.sameLinks_deliver k x owner dword).live] at hp
    rcases hp with hp | rfl
    · exact h.keeps ht hp (h.cr3_eq hw hold hp)
    · -- the handler has the frame of the process it handles signals for
      refine h.keeps ht (recipient_mem hr) ?_
      rw [Kernel.link_procs_self]
      show ((deliver (k.keyed x) owner dword).procs owner).cr3 = _
      rw [deliver_but_sigq]
      rfl
  | @spawned _ _ _ n ctx mm hd hs =>
    refine ⟨fun p hp => ?_, h.cr3_same hw hold rfl hs.grows.vm.cr3 rfl⟩
    rcases (hw.live_link hs rfl rfl).1 hp with hp | rfl
    · exact h.keeps hs.grows.vm.pmm hp (h.cr3_eq hw hold hp)
    · obtain ⟨m₁, vm, h₁, h₂, ht⟩ := hs.cr3
      rw [Kernel.link_procs_self]
      exact ht.keeps _ (table_frame_taken hw.heap (hC.loads (by simp [loads, hd])) h₁ h₂)
  | exited ha hs hrf hu hp =>
    refine ⟨fun p hl => ?_, fun hsp => by cases hsp⟩
    obtain ⟨hne, hlive⟩ := (hw.live_killed (hw.running hs) hrf hu).1 hl
    unfold Process.table_frame
    rw [h.cr3_eq hw hold hlive, Kernel.killed_mm]
    rcases pmm_free_cases hp with rfl | ⟨hcov, rfl⟩
    · exact h.taken p hlive
    · have hother : (k.procs p).cr3 / 0x1000 ≠ k.current.cr3 / 0x1000 := fun he =>
        hC.exits ha hrf hcov ⟨p, hlive, hne, he⟩
      show Function.update _ _ _ _ ≠ _
      rw [Function.update_of_ne hother]
      exact h.taken p hlive
  | timer =>
    refine ⟨fun p hp => ?_, fun _ => irq0_isr_cr3 k _⟩
    have hp := (Kernel.sameLinks_timer k _).live.1 hp
    refine h.keeps ?_ hp (h.cr3_eq hw hold hp)
    rw [irq0_isr_fst]

end Run

/-- **The frames of the live processes stay taken** in every run that keeps to the condition,
when there was a frame for the table of the first process. -/
theorem frames_taken {k₀ k₁ k : Kernel} {mm : Mm} {ret_rip : UInt64} {es : List (Action × UInt64)}
    (hp : PowerOn k₀) (hm : kheap_init k₀.mm = .ok mm) (hf : FindsFrame mm.vm)
    (hi : proc_init { k₀ with mm } ret_rip = .ok k₁) (h : Lib.Run Step FrameKept k₁ es k) :
    FramesTaken k := by
  obtain ⟨hu, hb, -⟩ := kheap_init_ok hm
  have hheap : mm.HeapOk := ⟨hu, hb.trans hp.bytes_allocated⟩
  obtain ⟨hw, hboot, p, m₁, vm, h₁, h₂, ht⟩ :=
    proc_init_ok (k := { k₀ with mm }) hheap hp.next_pid hp.spinning hi
  have hstart : FramesHeld k₁ := by
    refine ⟨fun r hr => ?_, fun _ => hboot.cr3⟩
    rw [hboot.live_eq hr]
    exact ht.keeps _ (table_frame_taken hheap hf h₁ h₂)
  obtain ⟨-, hheld⟩ : k.WellFormed ∧ FramesHeld k :=
    h.invariant (I := fun k => k.WellFormed ∧ FramesHeld k) ⟨hw, hstart⟩ fun hI hC hS =>
      ⟨hS.wellFormed hI.1, hI.2.effect hI.1 hC (hS.effect hI.1)⟩
  exact hheld.framesTaken

/-- A process is spawned, runs and exits. -/
theorem frames_taken_spawned : ∃ mm k₁ es k, kheap_init machine.mm = .ok mm ∧
    proc_init { machine with mm } 0x1234 = .ok k₁ ∧ Lib.Run Step FrameKept k₁ es k ∧ FramesTaken k := by
  have h : answers (kheap_init machine.mm) (fun mm => decide (FindsFrame mm.vm) &&
      answers (proc_init { machine with mm } 0x1234) fun k₁ =>
        answers (runs FrameKept k₁ [.initrd_spawn [65] 0 1, .timer quietTick, .exit]) fun _ => true) = true := by
    decide +kernel
  obtain ⟨mm, hm, h⟩ := answers_iff.1 h
  rw [Bool.and_eq_true, decide_eq_true_eq] at h
  obtain ⟨hf, h⟩ := h
  obtain ⟨k₁, hi, h⟩ := answers_iff.1 h
  obtain ⟨k, hr, -⟩ := answers_iff.1 h
  obtain ⟨es, hrun⟩ := runs_ok hr
  exact ⟨mm, k₁, es, k, hm, hi, hrun, frames_taken machine_powerOn hm hf hi hrun⟩

/-- The first process sends itself a signal, and the handler exits: the frame of the first
process is free. -/
theorem frames_not_taken : ¬∀ k, Reachable k → FramesTaken k := by
  obtain ⟨es, k, h, hn⟩ := traces_true Always
    (fun k => k.queue.any fun p => k.mm.vm.pmm.bitmap (k.procs p).table_frame == BITMAP_FREE)
    [.psignal_hook 0x5000, .psignal_send 1 0, .timer quietTick, .exit] (by decide +kernel)
  intro hall
  obtain ⟨p, hp, he⟩ := List.any_eq_true.1 hn
  exact (hall k ⟨es, h⟩).taken p hp (beq_iff_eq.1 he)

end Iridium
