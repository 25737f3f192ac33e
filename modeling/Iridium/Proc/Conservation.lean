import Iridium.Proc.Effect
import Iridium.Mm.KheapRuns

/-!
# What a process leaves behind

A process takes blocks of the heap when it is spawned: its descriptor, its stack, and the buffers of
the loader. `kill` gives back the frame of its top-level table and calls `kfree` for the descriptor
and the stack, which frees nothing; the buffers are forgotten. So no process that is spawned and
exits leaves memory as it was (`never_conserved`).
-/

namespace Iridium

/-! ### Blocks in use -/

/-- The blocks in use on the chain from `a` on. -/
def KHeap.in_use_from (h : KHeap) : ℕ → ℕ → ℕ
  | 0, _ => 0
  | fuel + 1, a =>
    if a = 0 then 0 else (if (h.block a).is_free then 0 else 1) + h.in_use_from fuel (h.block a).next

/-- The number of live heap blocks. No block lies above `heap_head`. -/
def KHeap.blocks_in_use (h : KHeap) : ℕ := h.in_use_from (h.heap_head + 1) h.heap_tail

/-- The number of free frames. -/
def Pmm.free_frames (p : Pmm) : ℕ :=
  (List.range p.bitmap_length.toNat).countP fun i => p.bitmap (UInt64.ofNat i) == BITMAP_FREE

/-- The heap `h'` is `h` with some blocks more. -/
inductive KHeap.Allocs (h : KHeap) : ℕ → KHeap → Prop where
  | refl : Allocs h 0 h
  | block {n : ℕ} {h' h'' : KHeap} {n_bytes : UInt64} :
      Allocs h n h' → h'.Used h'.heap_tail → h'.Appends n_bytes h'' → Allocs h (n + 1) h''

section Allocs

variable {h h' h'' : KHeap} {n n' : ℕ} {a : ℕ}

theorem KHeap.Allocs.trans (h₁ : h.Allocs n h') (h₂ : h'.Allocs n' h'') : h.Allocs (n + n') h'' := by
  induction h₂ with
  | refl => exact h₁
  | block _ hu ha ih => exact ih.block hu ha

/-- A block more on the chain, whatever the turns left. -/
theorem KHeap.Used.in_use_appends {n_bytes : UInt64} (hu : h.Used a) (ha : h.Appends n_bytes h') :
    ∀ fuel fuel', h.heap_head + 2 ≤ a + fuel → h'.heap_head + 2 ≤ a + fuel' →
      h'.in_use_from fuel' a = h.in_use_from fuel a + 1 := by
  have hne : h.heap_head < h.fresh := by
    rw [KHeap.fresh_eq]
    omega
  have hhead := ha.head
  induction hu with
  | last h0 hfree hn =>
    intro fuel fuel' hf hf'
    obtain ⟨fuel, rfl⟩ : ∃ k, fuel = k + 2 := ⟨fuel - 2, by omega⟩
    obtain ⟨fuel', rfl⟩ : ∃ k, fuel' = k + 3 := ⟨fuel' - 3, by omega⟩
    have hfree' : (h'.block h.heap_head).is_free = false := by rw [ha.is_free hne.ne, hfree]
    simp [in_use_from, h0, hfree, hn, hfree', ha.link, ha.new_free, ha.new_next, Nat.ne_of_gt (Nat.zero_lt_of_lt hne)]
  | @cons a h0 hfree hlt hu ih =>
    intro fuel fuel' hf hf'
    have hle := hu.le
    obtain ⟨fuel, rfl⟩ : ∃ k, fuel = k + 1 := ⟨fuel - 1, by omega⟩
    obtain ⟨fuel', rfl⟩ : ∃ k, fuel' = k + 1 := ⟨fuel' - 1, by omega⟩
    have hfree' : (h'.block a).is_free = false := by rw [ha.is_free (by omega), hfree]
    have hnext : (h'.block a).next = (h.block a).next := ha.next (by omega) (by omega)
    have hrest := ih fuel fuel' (by omega) (by omega)
    simp only [in_use_from, h0, hfree, hfree', hnext, if_false, Bool.false_eq_true]
    omega

theorem KHeap.Used.appends {n_bytes : UInt64} (hu : h.Used h.heap_tail) (ha : h.Appends n_bytes h') :
    h'.blocks_in_use = h.blocks_in_use + 1 := by
  have hpos := Nat.pos_of_ne_zero hu.ne_zero
  unfold KHeap.blocks_in_use
  rw [ha.tail]
  exact hu.in_use_appends ha _ _ (by omega) (by omega)

theorem KHeap.Allocs.blocks_in_use (ha : h.Allocs n h') : h'.blocks_in_use = h.blocks_in_use + n := by
  induction ha with
  | refl => rfl
  | block _ hu ha ih => rw [hu.appends ha, ih, Nat.add_assoc]

end Allocs

/-! ### What a spawn takes -/

section Spawn

variable {m m' : Mm} {n_bytes : UInt64} {p : ℕ} {path : List UInt8} {rip cr3 : UInt64}

theorem kmalloc_allocs (hm : m.HeapOk) (h : kmalloc m n_bytes = .ok (p, m')) (hp : p ≠ 0) :
    m.heap.Allocs 1 m'.heap := by
  rcases kmalloc_cases hm.used h with ⟨-, h0, -⟩ | ⟨-, -, ha⟩
  · exact absurd h0 hp
  · exact KHeap.Allocs.refl.block hm.used ha

/-- The buffer of a file. -/
theorem initrd_open_allocs (hm : m.HeapOk) (h : initrd_open m path = .ok (p, m')) :
    ∃ n ≤ 1, m.heap.Allocs n m'.heap := by
  obtain ⟨o, -, h⟩ := bind_ok.1 h
  cases o with
  | none =>
    obtain ⟨-, rfl⟩ := Prod.mk.inj (pure_ok.1 h)
    exact ⟨0, by omega, .refl⟩
  | some e =>
    obtain ⟨⟨buf, m₁⟩, hk, h⟩ := bind_ok.1 h
    dsimp only at h
    split at h
    · cases h
    next hb =>
      obtain ⟨-, rfl⟩ := Prod.mk.inj (pure_ok.1 h)
      have ha := kmalloc_allocs hm hk hb
      exact ⟨1, by omega, ha⟩

/-- The buffers of the loader. -/
theorem elf_get_entry_allocs (hm : m.HeapOk) (h : elf_get_entry m path cr3 = .ok (rip, m')) :
    ∃ n ≤ 2, m.heap.Allocs n m'.heap := by
  obtain ⟨⟨ptr, m₁⟩, ho, h⟩ := bind_ok.1 h
  obtain ⟨n, hn, ha⟩ := initrd_open_allocs hm ho
  have hm₁ := hm.grows (initrd_open_ok hm.used ho).1
  dsimp only at h
  split at h
  · obtain ⟨-, rfl⟩ := Prod.mk.inj (pure_ok.1 h)
    exact ⟨n, by omega, ha⟩
  split at h
  · obtain ⟨-, rfl⟩ := Prod.mk.inj (pure_ok.1 h)
    exact ⟨n, by omega, ha⟩
  obtain ⟨⟨hdrs, m₂⟩, hk, h⟩ := bind_ok.1 h
  dsimp only at h
  split at h
  · cases h
  next hne =>
    obtain ⟨m₃, hm₃, h⟩ := bind_ok.1 h
    obtain ⟨-, rfl⟩ := Prod.mk.inj (pure_ok.1 h)
    rw [show m₃.heap = m₂.heap from (elf_load_all_stores hm₃).heap]
    by_cases h0 : hdrs = 0
    · -- no block for more bytes than the heap has, and then it is asked for none
      rcases kmalloc_cases hm₁.used hk with ⟨-, -, rfl⟩ | ⟨-, rfl, -⟩
      · exact ⟨n, by omega, ha⟩
      · unfold DATA_START KHEAP_BLOCK_SIZE at h0
        omega
    · have ha' := ha.trans (kmalloc_allocs hm₁ hk h0)
      exact ⟨n + 1, by omega, ha'⟩

/-- The stack of a process. -/
theorem setup_stack_allocs {old ctx : ℕ → UInt64} {old_cr3 rflags : UInt64} (hm : m.HeapOk)
    (h : setup_stack m old cr3 old_cr3 rflags rip = .ok (ctx, m')) : m.heap.Allocs 1 m'.heap := by
  obtain ⟨⟨stack, m₁⟩, hk, h⟩ := bind_ok.1 h
  obtain ⟨_, hne, h⟩ := bind_ok.1 h
  obtain ⟨vm, -, h⟩ := bind_ok.1 h
  obtain ⟨-, rfl⟩ := Prod.mk.inj (pure_ok.1 h)
  obtain ⟨m₂, hk, hh⟩ := kmalloc_user_eq hk
  have ha := kmalloc_allocs hm hk (by simpa using hne)
  dsimp only
  rwa [hh]

theorem setup_context_allocs {old ctx : ℕ → UInt64} {rflags : UInt64} (hm : m.HeapOk)
    (h : setup_context m old rflags rip path = .ok (ctx, m')) :
    ∃ n, 1 ≤ n ∧ n ≤ 3 ∧ m.heap.Allocs n m'.heap := by
  obtain ⟨⟨cr3, vm⟩, -, h⟩ := bind_ok.1 h
  have hm₁ : Mm.HeapOk { m with vm := { vm with cr3 := cr3 } } := ⟨hm.used, hm.bytes_allocated⟩
  dsimp only at h
  split at h
  · obtain ⟨⟨entry, m₂⟩, he, h⟩ := bind_ok.1 h
    obtain ⟨n, hn, ha⟩ := elf_get_entry_allocs hm₁ he
    have hm₂ := hm₁.grows (elf_get_entry_ok hm₁.used he).1
    exact ⟨n + 1, by omega, by omega, ha.trans (setup_stack_allocs hm₂ h)⟩
  · obtain ⟨⟨entry, m₂⟩, he, h⟩ := bind_ok.1 h
    obtain ⟨-, rfl⟩ := Prod.mk.inj (pure_ok.1 he)
    have ha := setup_stack_allocs hm₁ h
    exact ⟨1, by omega, by omega, ha⟩

/-- **A spawn** takes two to four blocks: the descriptor, the stack, and up to two for the loader. -/
theorem _spawn_allocs {k k' : Kernel} {permissions : PPERM_T} {uses_console : UInt8} {e : ERRNO_T}
    (hm : k.mm.HeapOk) (hd : denied k permissions = false)
    (h : _spawn k rip path permissions uses_console = .ok (e, k')) :
    ∃ n, 2 ≤ n ∧ n ≤ 4 ∧ k.mm.heap.Allocs n k'.mm.heap := by
  unfold _spawn at h
  split at h
  next hden =>
    rw [denied] at hd
    simp [hden] at hd
  next =>
    obtain ⟨⟨p, m₁⟩, h₁, h⟩ := bind_ok.1 h
    obtain ⟨_, hne, h⟩ := bind_ok.1 h
    obtain ⟨_, -, h⟩ := bind_ok.1 h
    obtain ⟨_, -, h⟩ := bind_ok.1 h
    obtain ⟨⟨ctx, mm⟩, h₂, h⟩ := bind_ok.1 h
    obtain ⟨-, rfl⟩ := Prod.mk.inj (pure_ok.1 h)
    have hm₁ := hm.grows (kmalloc_ok hm.used h₁).1
    obtain ⟨n, hn, hn', ha⟩ := setup_context_allocs (m := m₁) hm₁ h₂
    exact ⟨1 + n, by omega, by omega, (kmalloc_allocs hm h₁ (by simpa using hne)).trans ha⟩

end Spawn

section Step

variable {k k' : Kernel} {a : Action} {o : UInt64}

/-- A signal handler. -/
theorem psignal_exec_callback_allocs {owner : ℕ} (hm : k.mm.HeapOk)
    (hc : (k.procs owner).sigq.signal_callback ≠ 0) (h : psignal_exec_callback k owner = .ok k') :
    ∃ n, 2 ≤ n ∧ n ≤ 4 ∧ k.mm.heap.Allocs n k'.mm.heap := by
  unfold psignal_exec_callback at h
  rw [if_neg hc] at h
  obtain ⟨⟨e, k₁⟩, h₁, h⟩ := bind_ok.1 h
  obtain ⟨_, -, h⟩ := bind_ok.1 h
  obtain ⟨_, -, h⟩ := bind_ok.1 h
  obtain rfl := pure_ok.1 h
  have hd : denied k 0 = false := by simp [denied]
  obtain ⟨n, hn, hn', ha⟩ := _spawn_allocs hm hd h₁
  exact ⟨n, hn, hn', ha⟩

/-- A signal for a process with a callback. -/
theorem psignal_send_allocs {dest : PID_T} {dword : UInt32} {e : ERRNO_T} {p : ℕ} (hl : k.Linked k.queue)
    (hm : k.mm.HeapOk) (hr : recipient k dest = some p) (hc : (k.procs p).sigq.signal_callback ≠ 0)
    (h : psignal_send k dest dword = .ok (e, k')) :
    ∃ n, 2 ≤ n ∧ n ≤ 4 ∧ k.mm.heap.Allocs n k'.mm.heap := by
  have hfind := (Option.filter_eq_some_iff.1 hr).1
  have hacc := recipient_accepts hr
  rw [psignal_send_found hl hfind, if_neg (UInt8.not_le.2 hacc.room), if_neg hacc.unlocked] at h
  obtain ⟨k₁, h₁, h⟩ := bind_ok.1 h
  obtain ⟨-, rfl⟩ := Prod.mk.inj (pure_ok.1 h)
  refine psignal_exec_callback_allocs (k := deliver k p dword) hm ?_ h₁
  simpa [deliver, Kernel.modify, SignalQueue.push] using hc

/-- What an action that sends a signal with a handler for it sends. -/
theorem spawns_sends (ha : spawns k a = true) :
    (∃ path permissions uses_console, a = .initrd_spawn path permissions uses_console ∧
      denied k permissions = false) ∨
    ∃ k₁ dest dword p, a.sends k = some (k₁, dest, dword) ∧ recipient k dest = some p ∧
      (k.procs p).sigq.signal_callback ≠ 0 := by
  unfold spawns at ha
  split at ha
  next path permissions uses_console =>
    exact .inl ⟨path, permissions, uses_console, rfl, by simpa using ha⟩
  next =>
    split at ha
    next k₁ dest dword hs =>
      obtain ⟨p, hp, hc⟩ := (Option.any_eq_true _ _).1 ha
      exact .inr ⟨k₁, dest, dword, p, hs, hp, by simpa using hc⟩
    next => cases ha

/-- **A step that makes a process** takes two to four blocks. -/
theorem Step.spawns_allocs (hw : k.WellFormed) (h : Step k (a, o) k') (ha : spawns k a = true) :
    ∃ n, 2 ≤ n ∧ n ≤ 4 ∧ k.mm.heap.Allocs n k'.mm.heap := by
  obtain ⟨-, h⟩ := h
  rcases spawns_sends ha with ⟨path, permissions, uses_console, rfl, hd⟩ | ⟨k₁, dest, dword, p, hs, hr, hc⟩
  · obtain ⟨⟨pid, k₁⟩, h₁, h⟩ := bind_ok.1 h
    obtain ⟨-, rfl⟩ := Prod.mk.inj (pure_ok.1 h)
    obtain ⟨⟨e, k₂⟩, h₂, h₁⟩ := bind_ok.1 h₁
    obtain ⟨n, hn, hn', hall⟩ := _spawn_allocs hw.heap hd h₂
    dsimp only at h₁
    split at h₁
    · obtain ⟨-, rfl⟩ := Prod.mk.inj (pure_ok.1 h₁)
      exact ⟨n, hn, hn', hall⟩
    · obtain ⟨-, rfl⟩ := Prod.mk.inj (pure_ok.1 h₁)
      exact ⟨n, hn, hn', hall⟩
  · cases a with
    | psignal_send dest' dword' =>
      obtain ⟨rfl, rfl, rfl⟩ : k = k₁ ∧ dest' = dest ∧ dword' = dword := by simpa [Action.sends] using hs
      obtain ⟨⟨e, k₂⟩, h₂, h⟩ := bind_ok.1 h
      obtain ⟨-, rfl⟩ := Prod.mk.inj (pure_ok.1 h)
      exact psignal_send_allocs hw.linked hw.heap hr hc h₂
    | keyboard port beyond =>
      obtain ⟨k₂, h₂, h⟩ := bind_ok.1 h
      obtain ⟨-, rfl⟩ := Prod.mk.inj (pure_ok.1 h)
      rw [irq1_isr_eq] at h₂
      split at h₂
      next hrep =>
        obtain ⟨⟨e, k₃⟩, h₃, h₂⟩ := bind_ok.1 h₂
        generalize keystroke_packet (SC_ASCII.getD port.toNat beyond).toInt8 port.toUInt16 = x at h₃
        have hd : dest = 1 := by
          simp only [Action.sends, hrep, if_true, Option.some.injEq, Prod.mk.injEq] at hs
          exact hs.2.1.symm
        have hlk : Kernel.Linked (k.keyed x) k.queue :=
          hw.linked.congr rfl rfl (Nat.le_refl _) fun _ _ => ⟨rfl, rfl⟩
        have hfind := (Option.filter_eq_some_iff.1 hr).1
        have hacc := recipient_accepts hr
        have hr : recipient (k.keyed x) 1 = some p :=
          recipient_eq_some (hd ▸ hfind) ⟨hacc.room, hacc.unlocked⟩
        obtain ⟨n, hn, hn', hall⟩ := psignal_send_allocs hlk hw.heap hr hc h₃
        refine ⟨n, hn, hn', ?_⟩
        dsimp only at h₂
        split at h₂
        · obtain rfl := pure_ok.1 h₂
          exact hall
        · obtain rfl := pure_ok.1 h₂
          exact hall
      next hrep => simp [Action.sends, hrep] at hs
    | _ => cases hs

end Step

/-! ### A process that is spawned and exits -/

/-- A step of the timer. -/
def Ticks (_ : Kernel) (e : Action × UInt64) : Prop := ∃ t, e.1 = .timer t

/-- **A process is spawned and exits**, with nothing but the timer in between. -/
structure SpawnExit (k k' : Kernel) : Prop where
  run : ∃ a o k₁ ts k₂ o', spawns k a = true ∧ Step k (a, o) k₁ ∧ Lib.Run Step Ticks k₁ ts k₂ ∧
    k₂.current_task = k₁.queue_head ∧ Step k₂ (.exit, o') k'

/-- Memory is as it was: as many free frames, and as many live heap blocks. -/
structure Conserved (k k' : Kernel) : Prop where
  frames : k'.mm.vm.pmm.free_frames = k.mm.vm.pmm.free_frames
  blocks : k'.mm.heap.blocks_in_use = k.mm.heap.blocks_in_use

section Conserved

variable {k k' : Kernel} {o : UInt64}

theorem timers_heap {ts : List (Action × UInt64)} (h : Lib.Run Step Ticks k ts k') :
    k'.mm.heap = k.mm.heap := by
  refine h.invariant (I := fun k' => k'.mm.heap = k.mm.heap) rfl fun {t u e} hh hC hS => ?_
  obtain ⟨a, o⟩ := e
  obtain ⟨t', rfl⟩ : ∃ t', a = .timer t' := hC
  obtain ⟨-, rfl⟩ := Prod.mk.inj (Except.ok.inj hS.2)
  exact (Kernel.sameLinks_timer t t').heap.trans hh

/-- An exit leaves the heap as it is. -/
theorem exit_heap (hw : k.WellFormed) (h : Step k (.exit, o) k') : k'.mm.heap = k.mm.heap := by
  have hE := act_effect hw h.1 h.2
  cases hE with
  | quiet hq _ => rw [hq.mm]
  | exited _ _ _ _ _ => rw [Kernel.killed_mm]
  | queued hs | handled hs => cases hs

/-- **A process that is spawned and exits** leaves two to four blocks behind. -/
theorem SpawnExit.blocks (hw : k.WellFormed) (h : SpawnExit k k') :
    ∃ n, 2 ≤ n ∧ n ≤ 4 ∧ k'.mm.heap.blocks_in_use = k.mm.heap.blocks_in_use + n := by
  obtain ⟨a, o, k₁, ts, k₂, o', ha, h₁, hr, -, h₂⟩ := h.run
  obtain ⟨n, hn, hn', hall⟩ := h₁.spawns_allocs hw ha
  have hw₂ : k₂.WellFormed := hr.invariant (h₁.wellFormed hw) fun hw _ hS => hS.wellFormed hw
  exact ⟨n, hn, hn', by rw [exit_heap hw₂ h₂, timers_heap hr, hall.blocks_in_use]⟩

end Conserved

/-- **Memory is never as it was** when a process has been spawned and has exited: two to four heap
blocks more are in use. -/
theorem never_conserved {k k' : Kernel} (hk : Reachable k) (h : SpawnExit k k') :
    ¬Conserved k k' ∧ ∃ n, 2 ≤ n ∧ n ≤ 4 ∧
      k'.mm.heap.blocks_in_use = k.mm.heap.blocks_in_use + n := by
  obtain ⟨n, hn, hn', hb⟩ := h.blocks hk.wellFormed
  refine ⟨fun hc => ?_, n, hn, hn', hb⟩
  have := hc.blocks
  omega

/-- The first process spawns another, which exits when its turn comes. -/
theorem machine_spawnExit : ∃ k k', Reachable k ∧ SpawnExit k k' := by
  obtain ⟨es, k, h, hb⟩ := traces_true Always
    (fun k => decide (Enabled k (.initrd_spawn [65] 0 1) ∧ spawns k (.initrd_spawn [65] 0 1) = true) &&
      answers (act k (.initrd_spawn [65] 0 1)) fun r₁ =>
        answers (act r₁.2 (.timer quietTick)) fun r₂ =>
          decide (r₂.2.current_task = r₁.2.queue_head ∧ Enabled r₂.2 .exit) &&
            answers (act r₂.2 .exit) fun _ => true) [] (by decide +kernel)
  rw [Bool.and_eq_true, decide_eq_true_eq] at hb
  obtain ⟨⟨he₁, hs⟩, hb⟩ := hb
  obtain ⟨⟨o₁, k₁⟩, h₁, hb⟩ := answers_iff.1 hb
  obtain ⟨⟨o₂, k₂⟩, h₂, hb⟩ := answers_iff.1 hb
  rw [Bool.and_eq_true, decide_eq_true_eq] at hb
  obtain ⟨⟨hc, he₃⟩, hb⟩ := hb
  obtain ⟨⟨o₃, k₃⟩, h₃, -⟩ := answers_iff.1 hb
  have htick : Lib.Run Step Ticks k₁ [(.timer quietTick, o₂)] k₂ := .single ⟨_, rfl⟩ ⟨fun _ => rfl, h₂⟩
  exact ⟨k, k₃, ⟨es, h⟩, ⟨_, _, k₁, _, k₂, o₃, hs, ⟨he₁, h₁⟩, htick, hc, he₃, h₃⟩⟩

/-- So it does. -/
theorem never_conserved_machine : ∃ k k', Reachable k ∧ SpawnExit k k' ∧ ¬Conserved k k' := by
  obtain ⟨k, k', hk, h⟩ := machine_spawnExit
  exact ⟨k, k', hk, h, (never_conserved hk h).1⟩

/-- The blocks of the process that exits stay in use. -/
theorem not_conserved : ¬∀ k k', Reachable k → SpawnExit k k' → Conserved k k' := by
  obtain ⟨k, k', hk, h⟩ := machine_spawnExit
  intro hall
  obtain ⟨n, hn, -, hb⟩ := h.blocks hk.wellFormed
  have := (hall k k' hk h).blocks
  omega

end Iridium
